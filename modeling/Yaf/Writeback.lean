/-
**The page cache cannot be seen.**

What a file holds is in its pages, as far as they are up to date, and else on the device.  A page
that waits to be written back is up to date, and its buffer is mapped to the block of the file, so
writing it back asks for no block and stores what the file holds.  So pages may be read ahead,
written back and dropped at any time: the mount returns what it would return if every write went to
the device at once, and reading a byte gives what was written there last.

Main definitions:

* `Yaf.Namespace.onDisk` — the tree with the bytes that are on the device;
* `Yaf.Page.Holds` — **a page holds what the file holds**;
* `Yaf.Paged.Backs` — **a mount with a page cache that stands for a tree**.

Main results:

* `Yaf.Paged.Backs.wp_round` — a piece of a write;
* `Yaf.Paged.implements_tree` — **each event is an operation without the page cache, or none**;
* `Yaf.Paged.Backs.writepages` — pages may be written back in any order;
* `Yaf.Paged.Backs.exists_single` — **the page cache cannot be seen**.
-/

import Yaf.Pages
import Yaf.Replay
import Yaf.Isolation

set_option relaxedAutoImplicit false
set_option autoImplicit false

namespace Yaf

open Prog

variable {w w' : World} {s s' s₁ : Namespace} {op : Op} {r : Reply} {n k : ℕ}

/-! ### Trees that know other bytes -/

namespace Namespace

variable {f : ℕ → ℕ → Option UInt8}

/-- The tree with other bytes. -/
def withBytes (s : Namespace) (f : ℕ → ℕ → Option UInt8) : Namespace := { s with bytes := f }

@[simp] theorem withBytes_self (s : Namespace) : s.withBytes s.bytes = s := rfl

/-- The bytes do not matter to the search for a slot. -/
theorem getFree_withBytes (s : Namespace) (p : ℕ) :
    (s.withBytes f).getFree p = (s.getFree p).map fun x => (x.1, x.2.withBytes f) := by
  have hslot : (s.withBytes f).freeSlot p = s.freeSlot p := rfl
  have hcount : (s.withBytes f).count p = s.count p := rfl
  have hset : (s.withBytes f).dset = s.dset := rfl
  unfold getFree
  rw [hslot, hcount, hset]
  cases s.freeSlot p with
  | some j => rfl
  | none =>
      dsimp only
      split
      · rfl
      · split
        · cases (Mem.clears s.dset 32768).head? with
          | none => rfl
          | some d =>
              dsimp only
              have hdev : (DNO2BID (s.withBytes f).sb d < (s.withBytes f).nblk) =
                  (DNO2BID s.sb d < s.nblk) := rfl
              simp only [hdev]
              split <;> rfl
        · rfl

theorem create_withBytes (s : Namespace) (p : ℕ) (q : Qstr) (mode : UInt16) :
    (s.withBytes f).create p q mode =
      (s.create p q mode).map fun x => (x.1, x.2.withBytes f) := by
  have hset : (s.withBytes f).iset = s.iset := rfl
  have hsb : (s.withBytes f).sb = s.sb := rfl
  unfold create
  rw [getFree_withBytes, hset, hsb]
  split
  · cases s.getFree p with
    | none => rfl
    | some x =>
        obtain ⟨j, t⟩ := x
        simp only [Option.map_some, Option.bind_some]
        cases (Mem.clears s.iset 32768).head? with
        | none => rfl
        | some m =>
            simp only [Option.map_some]
            split <;> rfl
  · rfl

theorem remove_withBytes (s : Namespace) (p : ℕ) (q : Qstr) (ino : ℕ) :
    (s.withBytes f).remove p q ino = (s.remove p q ino).map fun x =>
      (x.1, x.2.withBytes (Function.update f ino fun _ => none)) := by
  have hnamed : (s.withBytes f).named p q = s.named p q := rfl
  unfold remove
  rw [hnamed]
  split
  · cases s.named p q <;> rfl
  · rfl

theorem lookup_withBytes (s : Namespace) (p : ℕ) (q : Qstr) :
    (s.withBytes f).lookup p q = ((s.lookup p q).1, (s.lookup p q).2.withBytes f) := by
  have hbound : (s.withBytes f).bound p q = s.bound p q := rfl
  unfold lookup
  rw [hbound]
  split
  · cases s.bound p q <;> rfl
  · rfl

/-- **A step that writes nothing** does not look at the bytes. -/
theorem step_withBytes (s : Namespace) (hop : writes op = false) {t : Namespace}
    (h : (s.withBytes f).step op = some (r, t)) :
    ∃ s', s.step op = some (r, s') ∧ t = s'.withBytes t.bytes := by
  have hmap : ∀ {o : Option (Reply × Namespace)} (g : ℕ → ℕ → Option UInt8),
      (o.map fun x => (x.1, x.2.withBytes g)) = some (r, t) →
        ∃ s', o = some (r, s') ∧ t = s'.withBytes t.bytes := by
    intro o g ho
    obtain ⟨⟨r', s'⟩, rfl, he⟩ := Option.map_eq_some_iff.1 ho
    obtain ⟨rfl, rfl⟩ := Prod.mk.injEq _ _ _ _ ▸ he
    exact ⟨s', rfl, rfl⟩
  cases op with
  | lookup p q =>
      refine ⟨(s.lookup p q).2, ?_, ?_⟩
      all_goals
        simp only [step, lookup_withBytes, Option.some_inj] at h
        cases h
        rfl
  | create p q mode => exact hmap f ((s.create_withBytes p q _).symm.trans h)
  | mkdir p q mode => exact hmap f ((s.create_withBytes p q _).symm.trans h)
  | unlink p q ino => exact hmap _ ((s.remove_withBytes p q ino).symm.trans h)
  | rmdir p q ino =>
      have hlink : ((s.withBytes f).node ino).i_nlink = (s.node ino).i_nlink := rfl
      simp only [step, hlink] at h ⊢
      split at h
      · cases h
        rw [if_pos ‹_›]
        exact ⟨s, rfl, rfl⟩
      · rw [if_neg ‹_›]
        exact hmap _ ((s.remove_withBytes p q ino).symm.trans h)
  | openFile | closeFile | writeInode | evict | tick =>
      cases h
      exact ⟨_, rfl, rfl⟩
  | write => simp [writes] at hop
  | setSize | device => simp [step] at h

/-- The bytes do not matter to the blocks of a file. -/
theorem mapTo_withBytes (s : Namespace) (n k : ℕ) :
    (s.withBytes f).mapTo n k = (s.mapTo n k).map fun t => t.withBytes f := by
  have hassign : ∀ (m l : ℕ) (t : Namespace), (t.withBytes f).assign n m l =
      (t.assign n m l).map fun u => u.withBytes f := by
    intro m
    induction m with
    | zero => exact fun l t => rfl
    | succ m ih =>
        intro l t
        have hset : (t.withBytes f).dset = t.dset := rfl
        rw [assign, assign, hset]
        cases (Mem.clears t.dset 32768).head? with
        | none => rfl
        | some d => exact ih (l + 1) (t.grant n l d)
  exact hassign _ _ s

/-- What is allowed does not depend on the bytes. -/
theorem careful_withBytes (s : Namespace) : (s.withBytes f).Careful op ↔ s.Careful op := by
  have hstarve : (s.withBytes f).starves op = s.starves op := by
    cases op with
    | write m pos data copied =>
        rw [starves, starves, mapTo_withBytes, Option.isNone_map]
    | _ => rfl
  have hover : (s.withBytes f).overflows op = s.overflows op := by
    have hcall : ∀ p q, (decide (Qstr.len q ≤ 24) && ((s.withBytes f).getFree p).isSome &&
        (Mem.clears (s.withBytes f).iset 32768).isEmpty) =
          (decide (q.len ≤ 24) && (s.getFree p).isSome && (Mem.clears s.iset 32768).isEmpty) := by
      intro p q
      rw [getFree_withBytes, Option.isSome_map]
      rfl
    cases op with
    | create p q | mkdir p q => exact hcall p q
    | _ => rfl
  have hrest : (s.withBytes f).Pre op = s.Pre op ∧
      (s.withBytes f).overwrites op = s.overwrites op := by
    cases op <;> exact ⟨rfl, rfl⟩
  rw [Careful, Careful, hstarve, hover, hrest.1, hrest.2]

/-- Nor does it what the VFS checks. -/
theorem pre_withBytes (s : Namespace) : (s.withBytes f).Pre op ↔ s.Pre op := by
  cases op <;> exact Iff.rfl

/-- An entry of a file that has a block asks for none. -/
theorem Inv.mapTo_assigned (h : s.Inv) (hn : s.Live n) (hf : ¬s.IsDir n)
    (hb : (s.node n).blk k ≠ RESERVED_DNO) :
    k < countAssigned (s.node n) YAF_IBLOCKS 0 ∧ s.mapTo n k = some s := by
  have hlt : k < countAssigned (s.node n) YAF_IBLOCKS 0 := by
    by_contra hle
    exact hb ((h.file n hn hf).blk_free (Nat.not_lt.1 hle))
  have hzero : k + 1 - countAssigned (s.node n) YAF_IBLOCKS 0 = 0 := by omega
  refine ⟨hlt, ?_⟩
  rw [Namespace.mapTo, hzero]
  rfl

end Namespace

/-! ### The end of a write -/

namespace Namespace

/-- The inode after a write of which `copied` bytes count. -/
def finish (s : Namespace) (n pos len copied : ℕ) : Namespace :=
  let t := if pos + copied > (s.node n).i_size then
      s.edit n fun i => { i with i_size := pos + copied }
    else s
  if copied < len then t else t.edit n fun i => { i with i_ctime := s.now, i_mtime := s.now }

/-- The bytes do not matter to it. -/
theorem finish_withBytes (s : Namespace) (f : ℕ → ℕ → Option UInt8) (n pos len copied : ℕ) :
    (s.withBytes f).finish n pos len copied = (s.finish n pos len copied).withBytes f := by
  have hnode : (s.withBytes f).node = s.node := rfl
  unfold finish
  rw [hnode]
  split <;> split <;> rfl

/-- Storing bytes is this, and the bytes. -/
theorem store_eq_finish (s : Namespace) (n pos : ℕ) (data : List UInt8) (copied : ℕ) :
    s.store n pos data copied =
      (s.finish n pos data.length copied).withBytes (s.store n pos data copied).bytes := by
  unfold store finish
  split <;> split <;> rfl

theorem core_finish (s : Namespace) (n pos len copied : ℕ) {m : ℕ} (h : s.core m ≠ none) :
    (s.finish n pos len copied).core m ≠ none := by
  have hedit : ∀ (t : Namespace) (g : Inode → Inode), t.core m ≠ none →
      (t.edit n g).core m ≠ none := by
    intro t g ht
    simp only [edit, Function.update_apply]
    split
    · exact Option.some_ne_none _
    · exact ht
  unfold finish
  split <;> split
  · exact hedit s _ h
  · exact hedit (s.edit n _) _ (hedit s _ h)
  · exact h
  · exact hedit s _ h

/-- An inode leaves the memory when it is evicted or released. -/
theorem Outcome.core (ho : Outcome s op r s') {m : ℕ} (hm : s.core m ≠ none)
    (hm' : s'.core m = none) : op = .evict m ∨ ¬s'.Live m := by
  have hedit : ∀ (t : Namespace) (p : ℕ) (g : Inode → Inode), t.core m ≠ none →
      (t.edit p g).core m ≠ none := by
    intro t p g ht
    simp only [edit, Function.update_apply]
    split
    · exact Option.some_ne_none _
    · exact ht
  have hfree : ∀ {p j t}, s.getFree p = some (j, t) → t.core m ≠ none := by
    intro p j t hg
    rcases getFree_cases hg with ⟨-, rfl⟩ | ⟨-, -, ⟨-, d, -, -, rfl⟩ | ⟨-, rfl⟩⟩
    · exact hm
    · exact hedit _ p _ hm
    · exact hedit _ p _ hm
  have hset : ∀ (x : ℕ) (b : Bool), Function.update s.core x (some b) m ≠ none := by
    intro x b
    rw [Function.update_apply]
    split
    · exact Option.some_ne_none _
    · exact hm
  cases ho with
  | refused | opened | closed | ticked => exact absurd hm' hm
  | missed => exact absurd hm' (hedit _ _ _ hm)
  | found => exact absurd hm' (hedit _ _ _ (hset _ _))
  | full hop hp hg => exact absurd hm' (hfree hg)
  | @linked op p j n q mode t hop hp hb hlen hg hn hlt =>
      refine absurd hm' (hedit _ _ _ ?_)
      change Function.update t.core n (some true) m ≠ none
      rw [Function.update_apply]
      split
      · exact Option.some_ne_none _
      · exact hfree hg
  | @dropped op p j ino q hop he hleaf =>
      by_cases hmi : m = ino
      · subst m
        refine .inr fun hlive => ?_
        have hset : (s.drop p j ino).iset ino = false := Function.update_self _ _ _
        rw [hlive.1] at hset
        simp at hset
      · have hcore : (s.drop p j ino).core m = ((s.put p j none).edit p fun i =>
            { i.setTimes s.now with i_nlink := i.i_nlink - 1 }).core m :=
          Function.update_of_ne hmi _ _
        rw [hcore] at hm'
        exact absurd hm' (hedit _ p _ hm)
  | grown hn hf hg =>
      rw [hg.core] at hm'
      split at hm'
      · simp at hm'
      · exact absurd hm' hm
  | @stored n pos copied l data t hn hf hlen hg =>
      have hcore : t.core m ≠ none := by
        rw [hg.core]
        split
        · exact Option.some_ne_none _
        · exact hm
      rw [store_eq_finish] at hm'
      exact absurd hm' (t.core_finish n pos _ _ hcore)
  | saved => exact absurd hm' (hset _ _)
  | @evicted n hn =>
      by_cases hmn : m = n
      · subst m
        exact .inl rfl
      · refine absurd ?_ hm
        rw [← hm']
        exact (Function.update_of_ne hmn _ _).symm

/-- **The tree after a round of a write.**  Of the bytes that were copied `eff` count, all of them
or none; when they do not count, they are not known. -/
def round (s : Namespace) (n pos : ℕ) (data : List UInt8) (copied eff : ℕ) : Namespace :=
  (s.finish n pos data.length eff).withBytes fun m off =>
    if m = n ∧ pos ≤ off ∧ off < pos + copied then
      if eff = copied then some (data.getD (off - pos) 0) else none
    else s.bytes m off

/-- A round that counts stores the bytes. -/
theorem round_self (s : Namespace) (n pos : ℕ) (data : List UInt8) (copied : ℕ) :
    s.round n pos data copied copied = s.store n pos data copied := by
  rw [store_eq_finish, round]
  refine congrArg _ (funext fun m => funext fun off => ?_)
  rw [(s.store_same n pos data copied).1.bytes, Int.toNat_natCast, if_pos rfl]

/-- Setting the size twice. -/
theorem finish_finish (s : Namespace) (n pos : ℕ) {len copied : ℕ} (hpos : 0 < copied)
    (hlen : 0 < len) : (s.finish n pos len 0).finish n pos copied copied =
      s.finish n pos copied copied := by
  have hnode : ∀ (g : Inode → Inode), (s.edit n g).node n = g (s.node n) :=
    fun g => Function.update_self _ _ _
  unfold finish
  rw [if_pos hlen, if_neg (Nat.lt_irrefl copied), if_neg (Nat.lt_irrefl copied), Nat.add_zero]
  by_cases hfar : pos > (s.node n).i_size
  · have hgrow : pos + copied > (s.node n).i_size := by omega
    have hgrow' : pos + copied > pos := by omega
    rw [if_pos hfar]
    simp only [hnode]
    rw [if_pos hgrow', if_pos hgrow]
    simp only [edit_edit]
    rfl
  · rw [if_neg hfar]

/-- **A round that counts, after one that did not**: the bytes are stored. -/
theorem round_round (s : Namespace) (n pos : ℕ) {data : List UInt8} {copied : ℕ}
    (hpos : 0 < copied) (hlt : copied < data.length) :
    (s.round n pos data copied 0).round n pos (data.take copied) copied copied =
      s.store n pos (data.take copied) copied := by
  have hlen : (data.take copied).length = copied := by
    rw [List.length_take, Nat.min_eq_left (Nat.le_of_lt hlt)]
  rw [← round_self, round, round, round, hlen, finish_withBytes,
    finish_finish s n pos hpos (Nat.lt_trans hpos hlt)]
  refine congrArg _ (funext fun m => funext fun off => ?_)
  rw [if_pos rfl]
  split
  · rfl
  · exact if_neg ‹_›

/-- The invariant. -/
theorem Inv.round (h : s.Inv) {pos copied eff : ℕ} {data : List UInt8} (hn : s.Live n)
    (hf : ¬s.IsDir n) (hle : pos + copied ≤ 32768) (hpage : pos % 4096 + copied ≤ 4096)
    (hblk : ∀ j ≤ pos / 4096, (s.node n).blk j ≠ RESERVED_DNO)
    (hdev : DNO2BID s.sb ((s.node n).blk (pos / 4096)).toNat < s.nblk)
    (heff : eff = copied ∨ eff = 0) : (s.round n pos data copied eff).Inv := by
  have hstore : (s.store n pos data eff).Inv := by
    refine h.store hn hf (by omega) (fun k hk => hblk k (by omega)) fun off hoff hoff' => ?_
    have hk : off / 4096 = pos / 4096 := by omega
    rw [hk]
    exact hdev
  rw [Namespace.round]
  rw [store_eq_finish] at hstore
  refine hstore.learn fun m off b hb => hstore.known m off b ?_
  change (s.store n pos data eff).bytes m off = some b
  rw [(s.store_same n pos data eff).1.bytes, Int.toNat_natCast]
  split at hb
  · split at hb
    · subst eff
      rw [if_pos ‹_›]
      exact hb
    · simp at hb
  · rename_i hout
    rw [if_neg]
    · exact hb
    · rintro ⟨hm, hlo, hhi⟩
      exact hout ⟨hm, hlo, by omega⟩

end Namespace

/-- What a round leaves of the inodes. -/
theorem Namespace.round_same (s : Namespace) (n pos : ℕ) (data : List UInt8) (copied eff : ℕ) :
    (s.round n pos data copied eff).sb = s.sb ∧ (s.round n pos data copied eff).nblk = s.nblk ∧
      (∀ m, (s.round n pos data copied eff).IsDir m ↔ s.IsDir m) ∧
      (∀ m, (s.node m).i_size ≤ ((s.round n pos data copied eff).node m).i_size) ∧
      pos + eff ≤ ((s.round n pos data copied eff).node n).i_size ∧
      ∀ m l, ((s.round n pos data copied eff).node m).blk l = (s.node m).blk l := by
  obtain ⟨hw, hsize, hblk, hsb, hnblk⟩ := s.store_same n pos data eff
  have hnode : (s.round n pos data copied eff).node = (s.store n pos data eff).node := by
    rw [store_eq_finish]
    rfl
  refine ⟨?_, ?_, fun m => ?_, fun m => ?_, ?_, fun m l => ?_⟩
  · rw [← hsb, store_eq_finish]
    rfl
  · rw [← hnblk, store_eq_finish]
    rfl
  · rw [IsDir, IsDir, hnode]
    by_cases hm : m = n
    · rw [hm, hw.mode]
    · rw [hw.other m hm]
  · rw [hnode]
    by_cases hm : m = n
    · rw [hm, hsize]
      exact Nat.le_max_left _ _
    · rw [hw.other m hm]
  · rw [hnode, hsize]
    exact Nat.le_max_right _ _
  · rw [hnode]
    by_cases hm : m = n
    · rw [hm, hblk]
    · rw [hw.other m hm]

/-- The inode after a write of which `copied` bytes count, for the driver. -/
def World.finish (w : World) (ino : ℕ) (i : Inode) (pos len copied : ℕ) : World :=
  let w₁ := if pos + copied > i.i_size then
      w.touch ino fun i => { i with i_size := pos + copied }
    else w
  if copied < len then w₁
  else w₁.touch ino fun i => { i with i_ctime := w.now, i_mtime := w.now }

/-- **The driver does the same to the inode.** -/
theorem Refines.finish (h : Refines w s) (pos len copied : ℕ) (hn : s.core n ≠ none)
    (hf : ¬s.IsDir n) (hle : pos + copied ≤ 32768) :
    Refines (w.finish n (s.node n) pos len copied) (s.finish n pos len copied) := by
  set w₁ := if pos + copied > (s.node n).i_size then
      w.touch n fun i => { i with i_size := pos + copied }
    else w with hw₁
  set t := if pos + copied > (s.node n).i_size then
      s.edit n fun i => { i with i_size := pos + copied }
    else s with ht
  have hgrow : Refines w₁ t ∧ t.core n ≠ none := by
    rw [hw₁, ht]
    split
    · refine ⟨h.resize hn hf (by omega), ?_⟩
      have hcore : (s.edit n fun i => { i with i_size := pos + copied }).core n = some true :=
        Function.update_self _ _ _
      rw [hcore]
      exact Option.some_ne_none _
    · exact ⟨h, hn⟩
  have hfinish : w.finish n (s.node n) pos len copied = if copied < len then w₁
      else w₁.touch n fun i => { i with i_ctime := w.now, i_mtime := w.now } := rfl
  have hfinish' : s.finish n pos len copied = if copied < len then t
      else t.edit n fun i => { i with i_ctime := s.now, i_mtime := s.now } := rfl
  rw [hfinish, hfinish', h.now]
  split
  · exact hgrow.1
  · exact hgrow.1.touch hgrow.2 (fun _ => rfl) (fun _ => rfl) fun _ _ => rfl

/-- Fewer bytes are known. -/
theorem Refines.forget (h : Refines w s) {f : ℕ → ℕ → Option UInt8}
    (hf : ∀ m off b, f m off = some b → s.bytes m off = some b) : Refines w (s.withBytes f) :=
  ⟨h.toTracks.learn f, h.shows, fun m off b hb => h.stores m off b (hf m off b hb)⟩

/-- An entry of the block map that has a block. -/
theorem wp_yaf_get_block_of_lt {i : Inode} (hi : w.inode? n = some i)
    (hk : k < countAssigned i YAF_IBLOCKS 0) {Q : ℤ × Option ℕ → World → Prop} {E : Fault → Prop} :
    wp (yaf_get_block n k false) Q E w ↔ Q (0, some (DNO2BID w.sb (i.blk k).toNat)) w := by
  have hle := (countAssigned_spec i).1
  have hlt : ¬k ≥ YAF_IBLOCKS := by
    have h₈ : YAF_IBLOCKS = 8 := rfl
    omega
  rw [yaf_get_block, wp_bind, wp_get, if_neg hlt, wp_bind, wp_getInode hi,
    if_neg (Nat.not_le.2 hk), wp_bind, wp_getInode hi, wp_bind, wp_iblock _ (by omega), wp_pure]

/-! ### Pages and files -/

/-- The tree with the bytes that are on the device: those of no page that waits to be written
back. -/
def Namespace.onDisk (s : Namespace) (c : Paged) : Namespace :=
  s.withBytes fun m off => if c.dirty m (off / 4096) then none else s.bytes m off

theorem Namespace.bytes_onDisk {c : Paged} {m off : ℕ} {b : UInt8} :
    (s.onDisk c).bytes m off = some b ↔
      c.dirty m (off / 4096) = false ∧ s.bytes m off = some b := by
  have hbytes : (s.onDisk c).bytes m off =
      if c.dirty m (off / 4096) then none else s.bytes m off := rfl
  rw [hbytes]
  cases c.dirty m (off / 4096) <;> simp

theorem Namespace.onDisk_congr {c c' : Paged} (h : ∀ m l, c'.dirty m l = c.dirty m l) :
    s.onDisk c' = s.onDisk c := by
  simp only [onDisk, h]

/-- The block of an entry of a file. -/
def Namespace.bid (s : Namespace) (n k : ℕ) : ℕ := DNO2BID s.sb ((s.node n).blk k).toNat

/-- **A page holds what the file holds**, and a page that waits to be written back can be. -/
structure Page.Holds (p : Page) (s : Namespace) (n k : ℕ) : Prop where
  core : s.core n ≠ none
  file : ¬s.IsDir n
  below : k < 8
  assigned : (s.node n).blk k ≠ RESERVED_DNO
  mapped : ∀ bid, p.bh = some bid → bid = s.bid n k
  shows : p.uptodate = true ∨ p.read = true → ∀ off b, off / 4096 = k →
    s.bytes n off = some b → p.data (off % 4096) = b
  dirty : p.dirty = true → p.uptodate = true ∧ k * 4096 < (s.node n).i_size ∧
    p.bh ≠ none ∧ s.bid n k < s.nblk

/-- **A mount with a page cache that stands for a tree.**  All pages on the device are up to date,
but for the one that is being written, if any. -/
structure Paged.Backs (c : Paged) (s : Namespace) (busy : Option (ℕ × ℕ)) : Prop where
  refines : Refines c.world (s.onDisk c)
  inv : s.Inv
  page : ∀ n k p, c.pages n k = some p → p.Holds s n k
  warm : ∀ n k p, c.pages n k = some p → s.bid n k < s.nblk → busy ≠ some (n, k) →
    p.uptodate = true

section Pages

variable {c c' : Paged} {p : Page} {busy : Option (ℕ × ℕ)} {pos copied eff : ℕ}
  {data : List UInt8}

/-- A file that was changed elsewhere. -/
theorem Page.Holds.mono (h : p.Holds s n k) (hcore : s'.core n ≠ none)
    (hdir : s'.IsDir n ↔ s.IsDir n) (hblk : (s'.node n).blk k = (s.node n).blk k)
    (hsize : (s.node n).i_size ≤ (s'.node n).i_size) (hsb : s'.sb = s.sb) (hnblk : s'.nblk = s.nblk)
    (hbytes : ∀ off b, off / 4096 = k → s'.bytes n off = some b → s.bytes n off = some b) :
    p.Holds s' n k := by
  have hbid : s'.bid n k = s.bid n k := by
    rw [Namespace.bid, Namespace.bid, hsb, hblk]
  refine ⟨hcore, fun hd => h.file (hdir.1 hd), h.below, ?_, ?_, fun hup off b hoff hb => ?_,
    fun hd => ?_⟩
  · rw [hblk]
    exact h.assigned
  · rw [hbid]
    exact h.mapped
  · exact h.shows hup off b hoff (hbytes off b hoff hb)
  · obtain ⟨hup, hlt, hbh, hdev⟩ := h.dirty hd
    rw [hbid, hnblk]
    exact ⟨hup, Nat.lt_of_lt_of_le hlt hsize, hbh, hdev⟩

namespace Paged

theorem pages_setPage (c : Paged) (n k : ℕ) (q : Option Page) (m l : ℕ) :
    (c.setPage n k q).pages m l = if m = n ∧ l = k then q else c.pages m l := rfl

@[simp] theorem setPage_self (c : Paged) (n k : ℕ) (q : Option Page) :
    (c.setPage n k q).pages n k = q := if_pos ⟨rfl, rfl⟩

theorem setPage_of_ne (c : Paged) {n k m l : ℕ} (q : Option Page) (h : ¬(m = n ∧ l = k)) :
    (c.setPage n k q).pages m l = c.pages m l := if_neg h

@[simp] theorem world_setPage (c : Paged) (n k : ℕ) (q : Option Page) :
    (c.setPage n k q).world = c.world := rfl

@[simp] theorem grab_setPage (c : Paged) (n k : ℕ) (q : Page) :
    (c.setPage n k (some q)).grab n k = q := by
  rw [grab, setPage_self]
  rfl

@[simp] theorem setPage_setPage (c : Paged) (n k : ℕ) (q q' : Option Page) :
    (c.setPage n k q).setPage n k q' = c.setPage n k q' := by
  have hpages : ((c.setPage n k q).setPage n k q').pages = (c.setPage n k q').pages := by
    funext m l
    simp only [pages_setPage]
    split <;> rfl
  exact congrArg (Paged.mk c.world) hpages

theorem dirty_setPage (c : Paged) (n k : ℕ) (q : Option Page) (m l : ℕ) :
    (c.setPage n k q).dirty m l = if m = n ∧ l = k then q.any Page.dirty else c.dirty m l := by
  rw [dirty, pages_setPage]
  split <;> rfl

theorem dirty_of_pages (h : c.pages n k = some p) : c.dirty n k = p.dirty := by
  rw [dirty, h]
  rfl

theorem exists_page_of_dirty (h : c.dirty n k = true) : ∃ p, c.pages n k = some p := by
  rw [dirty] at h
  cases hp : c.pages n k with
  | some p => exact ⟨p, rfl⟩
  | none => simp [hp] at h

/-- Programs of the driver. -/
theorem wp_onWorld {α : Type} (x : Driver α) {Q : α → Paged → Prop} {E : Oops → Prop} :
    wp (onWorld x) Q E c ↔
      wp x (fun a w => Q a { c with world := w }) (fun e => E (.fault e)) c.world := wp_zoom x

theorem wp_putPage (q : Page) {Q : PUnit → Paged → Prop} {E : Oops → Prop} :
    wp (putPage n k q) Q E c ↔ Q ⟨⟩ (c.setPage n k (some q)) := Iff.rfl

namespace Backs

/-- The device alone stands for the tree with the bytes that are on it. -/
theorem mirrors (h : c.Backs s busy) : Mirrors c.world (s.onDisk c) := by
  refine ⟨h.refines, h.inv.learn fun m off b hb => ?_⟩
  split at hb
  · simp at hb
  · exact h.inv.known m off b hb

/-- An inode in memory is that of the tree. -/
theorem inode? (h : c.Backs s busy) (hn : s.core n ≠ none) :
    c.world.inode? n = some (s.node n) := h.refines.inode? hn

theorem live (h : c.Backs s busy) (hn : s.core n ≠ none) : s.Live n := h.inv.core n hn

theorem holds_iff (h : c.Backs s busy) {kind : UInt16 → Bool} :
    c.world.holds kind n = true ↔ s.holds kind n := h.mirrors.holds_iff

/-- A page that is found or added holds what the file holds. -/
theorem grab (h : c.Backs s busy) (hn : s.core n ≠ none) (hf : ¬s.IsDir n) (hk : k < 8)
    (hb : (s.node n).blk k ≠ RESERVED_DNO) : (c.grab n k).Holds s n k := by
  cases hp : c.pages n k with
  | some p =>
      rw [Paged.grab, hp]
      exact h.page n k p hp
  | none =>
      rw [Paged.grab, hp]
      exact ⟨hn, hf, hk, hb, fun bid hbh => by simp [Page.blank] at hbh,
        fun hup => by simp [Page.blank] at hup, fun hd => by simp [Page.blank] at hd⟩

theorem dirty_grab (c : Paged) (n k : ℕ) : (c.grab n k).dirty = c.dirty n k := by
  rw [Paged.grab, dirty]
  cases c.pages n k <;> rfl

/-! ### The steps of a write -/

/-- More blocks for a file. -/
theorem grown (h : c.Backs s busy) (hf : ¬s.IsDir n) {m : ℕ}
    (hg : Namespace.Grown s n m (countAssigned (s.node n) YAF_IBLOCKS 0) s₁)
    (hr : Refines w (s₁.onDisk c)) : ({ c with world := w } : Paged).Backs s₁ busy := by
  have hsame := hg.same
  have hnode : ∀ x, x ≠ n → s₁.node x = s.node x := by
    intro x hx
    rw [hsame]
    exact Function.update_of_ne hx _ _
  have hmode : ∀ x, s₁.IsDir x ↔ s.IsDir x := by
    intro x
    rw [Namespace.IsDir, Namespace.IsDir]
    by_cases hx : x = n
    · rw [hx, hg.attrs]
    · rw [hnode x hx]
  have hsize : ∀ x, (s₁.node x).i_size = (s.node x).i_size := by
    intro x
    by_cases hx : x = n
    · rw [hx, hg.attrs]
    · rw [hnode x hx]
  have hblk : ∀ x l p, c.pages x l = some p → (s₁.node x).blk l = (s.node x).blk l := by
    intro x l p hp
    by_cases hx : x = n
    · subst x
      have hold := h.page n l p hp
      exact hg.old l (h.inv.mapTo_assigned (h.live hold.core) hf hold.assigned).1
    · rw [hnode x hx]
  have hsb : s₁.sb = s.sb := by rw [hsame]
  have hnblk : s₁.nblk = s.nblk := by rw [hsame]
  refine ⟨hr, hg.inv, fun x l p hp => ?_, fun x l p hp hdev hbusy => ?_⟩
  · have hold := h.page x l p hp
    refine hold.mono ?_ (hmode x) (hblk x l p hp) (Nat.le_of_eq (hsize x).symm) hsb hnblk
      fun off b _ hb => ?_
    · rw [hg.core]
      split
      · exact Option.some_ne_none _
      · exact hold.core
    · rw [hsame] at hb
      exact hb
  · refine h.warm x l p hp ?_ hbusy
    rw [Namespace.bid, hsb, hblk x l p hp, hnblk] at hdev
    exact hdev

/-- **The buffer of a page is mapped** to the block of the file, which gets one when it has none. -/
theorem wp_get_block (h : c.Backs s busy) (hn : s.core n ≠ none) (hf : ¬s.IsDir n) (hk : k < 8)
    (hmap : s.mapTo n k = some s₁)
    (hg : c.world.grants (k + 1 - countAssigned (s.node n) YAF_IBLOCKS 0) = true)
    {Q : ℤ × Option ℕ → Paged → Prop} {E : Oops → Prop}
    (hQ : ∀ w, ({ c with world := w } : Paged).Backs s₁ busy →
      Q (0, some (s₁.bid n k)) { c with world := w }) :
    wp (get_block n k (c.grab n k)) Q E c := by
  obtain ⟨hgrown, hassigned⟩ := h.inv.mapTo (h.live hn) hf hk hmap
  cases hbh : (c.grab n k).bh with
  | some bid =>
      -- a page with a buffer is one that was there
      have hp : c.pages n k = some (c.grab n k) := by
        rw [Paged.grab] at hbh ⊢
        cases hp : c.pages n k with
        | some p => rfl
        | none =>
            rw [hp] at hbh
            simp [Page.blank] at hbh
      have hold := h.page n k _ hp
      rw [(h.inv.mapTo_assigned (h.live hn) hf hold.assigned).2, Option.some_inj] at hmap
      subst hmap
      rw [get_block, hbh, hold.mapped bid hbh]
      exact hQ c.world h
  | none =>
      obtain ⟨t, ht, hr⟩ := h.refines.mapTo h.mirrors.inv hn hf hk hg
      have hmap' : (s.onDisk c).mapTo n k = some (s₁.withBytes (s.onDisk c).bytes) := by
        rw [Namespace.onDisk, Namespace.mapTo_withBytes, hmap]
        rfl
      rw [hmap', Option.some_inj] at ht
      subst ht
      have hbytes : s₁.bytes = s.bytes := by rw [hgrown.same]
      have hdisk : s₁.withBytes (s.onDisk c).bytes = s₁.onDisk c := by
        rw [Namespace.onDisk, Namespace.onDisk, hbytes]
        rfl
      rw [hdisk] at hr
      have hback := h.grown hf hgrown hr
      have hcore : s₁.core n ≠ none := by
        rw [hgrown.core]
        split
        · exact Option.some_ne_none _
        · exact hn
      rw [get_block, hbh]
      dsimp only
      rw [wp_onWorld]
      refine wp_yaf_get_block (h.inode? hn) h.refines.held.layout hk fun j hj => ?_
      obtain rfl : s₁.node n = j := Option.some.inj ((hr.inode? hcore).symm.trans hj)
      have hsb : c.world.sb = s₁.sb := by
        rw [h.refines.sb, hgrown.same]
        rfl
      rw [hsb]
      exact hQ _ hback

end Backs

end Paged

/-- A page before the copy: its buffer is mapped, and read when there is something to keep.  `whole`
says that the whole block will be written, `b` is the block. -/
def Page.prepared (p : Page) (bid : ℕ) (whole : Bool) (b : Block) : Page :=
  if p.uptodate then { p with bh := some bid, read := true }
  else if p.read || whole then { p with bh := some bid }
  else { p with bh := some bid, data := b, read := true }

/-- How many bytes of a copy count. -/
def Page.effective (p : Page) (len copied : ℕ) : ℕ :=
  if copied < len && !p.uptodate then 0 else copied

/-- A page after the copy. -/
def Page.filled (p : Page) (start : ℕ) (data : List UInt8) : Page :=
  { p with data := storeBytes p.data start data }

/-- A page of which the copy is committed, as far as it counts. -/
def Page.committed (p : Page) (start eff : ℕ) : Page :=
  if start + eff = 0 then { p with uptodate := p.uptodate || p.read }
  else { p with uptodate := true, read := true, dirty := true }

namespace Page

theorem prepared_spec (p : Page) (bid : ℕ) (whole : Bool) (b : Block) :
    (p.prepared bid whole b).bh = some bid ∧ (p.prepared bid whole b).dirty = p.dirty ∧
      (p.prepared bid whole b).uptodate = p.uptodate ∧
      ((p.prepared bid whole b).read = true ∨ whole = true) := by
  unfold prepared
  split
  · exact ⟨rfl, rfl, rfl, .inl rfl⟩
  · split
    · refine ⟨rfl, rfl, rfl, ?_⟩
      rename_i hread
      rwa [Bool.or_eq_true] at hread
    · exact ⟨rfl, rfl, rfl, .inl rfl⟩

/-- **The page before the copy** holds what the file holds, when `b` does. -/
theorem Holds.prepared (h : p.Holds s n k) {whole : Bool} {b : Block}
    (hb : p.dirty = false → ∀ off x, off / 4096 = k → s.bytes n off = some x →
      b (off % 4096) = x) : (p.prepared (s.bid n k) whole b).Holds s n k := by
  obtain ⟨hbh, hdirty, hup, -⟩ := p.prepared_spec (s.bid n k) whole b
  refine ⟨h.core, h.file, h.below, h.assigned, fun bid he => ?_, fun hshow => ?_, fun hd => ?_⟩
  · rw [hbh] at he
    exact (Option.some.inj he).symm
  · by_cases hu : p.uptodate = true
    · rw [Page.prepared, if_pos hu]
      exact h.shows (.inl hu)
    · rw [Page.prepared, if_neg hu] at hshow ⊢
      split
      · rw [if_pos ‹_›] at hshow
        exact h.shows hshow
      · refine hb ?_
        cases hd : p.dirty with
        | false => rfl
        | true => exact absurd (h.dirty hd).1 hu
  · rw [hdirty] at hd
    obtain ⟨hu, hlt, -, hdev⟩ := h.dirty hd
    rw [hup, hbh]
    exact ⟨hu, hlt, Option.some_ne_none _, hdev⟩

/-- A copy counts when it is complete, or the page was up to date. -/
theorem effective_cases (p : Page) (len copied : ℕ) :
    (p.effective len copied = copied ∧ (p.uptodate = true ∨ ¬copied < len)) ∨
      (p.effective len copied = 0 ∧ copied < len ∧ p.uptodate = false) := by
  rw [effective]
  split
  · rename_i hshort
    rw [Bool.and_eq_true, decide_eq_true_eq, Bool.not_eq_true'] at hshort
    exact .inr ⟨rfl, hshort⟩
  · rename_i hshort
    rw [Bool.and_eq_true, decide_eq_true_eq, Bool.not_eq_true'] at hshort
    refine .inl ⟨rfl, ?_⟩
    by_cases hup : p.uptodate = true
    · exact .inl hup
    · rw [Bool.not_eq_true] at hup
      exact .inr fun hlt => hshort ⟨hlt, hup⟩

/-- **The page after the copy** holds what the file holds after the round. -/
theorem Holds.committed (h : p.Holds s n (pos / 4096)) (hbh : p.bh ≠ none)
    (hready : p.read = true ∨ pos % 4096 = 0 ∧ data.length = 4096) (hcopied : copied ≤ data.length)
    (hdev : s.bid n (pos / 4096) < s.nblk) (heff : eff = p.effective data.length copied) :
    ((p.filled (pos % 4096) (data.take copied)).committed (pos % 4096) eff).Holds
      (s.round n pos data copied eff) n (pos / 4096) := by
  have hcount := p.effective_cases data.length copied
  rw [← heff] at hcount
  obtain ⟨hsb, hnblk, hdir, hsize, hend, hnode⟩ := s.round_same n pos data copied eff
  have hbid : (s.round n pos data copied eff).bid n (pos / 4096) = s.bid n (pos / 4096) := by
    rw [Namespace.bid, Namespace.bid, hsb, hnode]
  have hdata : ((p.filled (pos % 4096) (data.take copied)).committed (pos % 4096) eff).data =
      storeBytes p.data (pos % 4096) (data.take copied) := by
    rw [Page.committed]
    split <;> rfl
  have hbh' : ((p.filled (pos % 4096) (data.take copied)).committed (pos % 4096) eff).bh =
      p.bh := by
    rw [Page.committed]
    split <;> rfl
  have hlen : (data.take copied).length = copied := by
    rw [List.length_take, Nat.min_eq_left hcopied]
  refine ⟨s.core_finish n pos _ _ h.core, fun hd => h.file ((hdir n).1 hd), h.below, ?_, ?_,
    fun hup off b hoff hb => ?_, fun hd => ?_⟩
  · rw [hnode]
    exact h.assigned
  · rw [hbid, hbh']
    exact h.mapped
  · rw [hdata, storeBytes, hlen]
    have hbytes : (s.round n pos data copied eff).bytes n off =
        if n = n ∧ pos ≤ off ∧ off < pos + copied then
          if eff = copied then some (data.getD (off - pos) 0) else none
        else s.bytes n off := rfl
    by_cases hin : pos ≤ off ∧ off < pos + copied
    · rw [hbytes, if_pos ⟨rfl, hin⟩] at hb
      have hin' : pos % 4096 ≤ off % 4096 ∧ off % 4096 < pos % 4096 + copied := by omega
      have hsub : off % 4096 - pos % 4096 = off - pos := by omega
      have hlt : off - pos < copied := by omega
      rw [if_pos hin', hsub, List.getD_eq_getElem?_getD, List.getElem?_take_of_lt hlt,
        ← List.getD_eq_getElem?_getD]
      split at hb
      · exact Option.some.inj hb
      · simp at hb
    · rw [hbytes, if_neg fun hx => hin hx.2] at hb
      rw [if_neg (by omega)]
      refine h.shows ?_ off b hoff hb
      -- a page that is not known at all is written whole, or stays unknown
      rcases hready with hread | ⟨h₀, hwhole⟩
      · exact .inr hread
      · by_contra hno
        rw [not_or, Bool.not_eq_true, Bool.not_eq_true] at hno
        rcases hcount with ⟨he, hup' | hall⟩ | ⟨he, -, -⟩
        · rw [hno.1] at hup'
          exact absurd hup' Bool.false_ne_true
        · omega
        · have hzero : pos % 4096 + eff = 0 := by omega
          rw [Page.committed, if_pos hzero] at hup
          simp [Page.filled, hno.1, hno.2] at hup
  · rw [hbid, hnblk, hbh']
    rw [Page.committed] at hd ⊢
    split
    · rw [if_pos ‹_›] at hd
      obtain ⟨hup, hlt, -⟩ := h.dirty hd
      have hup' : (p.filled (pos % 4096) (data.take copied)).uptodate = true := hup
      have hgrow := hsize n
      refine ⟨?_, by omega, hbh, hdev⟩
      rw [hup']
      rfl
    · exact ⟨rfl, by omega, hbh, hdev⟩

end Page

namespace Paged

namespace Backs

/-- **`yaf_write_begin`**: the page is ready for the copy. -/
theorem wp_yaf_write_begin (h : c.Backs s busy) (hn : s.core n ≠ none) (hf : ¬s.IsDir n)
    {pos len : ℕ} (hle : pos + len ≤ 32768) (hlen : 0 < len)
    (hmap : s.mapTo n (pos / 4096) = some s₁)
    (hg : c.world.grants (pos / 4096 + 1 - countAssigned (s.node n) YAF_IBLOCKS 0) = true)
    (hdev : s₁.bid n (pos / 4096) < s₁.nblk) {Q : ℤ → Paged → Prop} {E : Oops → Prop}
    (hQ : ∀ w, ({ c with world := w } : Paged).Backs s₁ busy →
      Q 0 (({ c with world := w } : Paged).setPage n (pos / 4096)
        (some ((c.grab n (pos / 4096)).prepared (s₁.bid n (pos / 4096))
          (pos % 4096 == 0 && len == 4096) (w.disk (s₁.bid n (pos / 4096))))))) :
    wp (yaf_write_begin n pos len) Q E c := by
  have hbig : ¬pos + len > MAX_FILESIZE := by
    rw [MAX_FILESIZE_eq]
    omega
  rw [yaf_write_begin, if_neg hbig, block_write_begin]
  simp only [YAF_BLOCK_SIZE_eq]
  rw [wp_bind, wp_get, wp_bind]
  refine h.wp_get_block hn hf (by omega) hmap hg fun w hback => ?_
  have hread : w.readable .page (s₁.bid n (pos / 4096)) = true := by
    rw [hback.refines.readable_eq]
    exact decide_eq_true hdev
  have hQw := hQ w hback
  rw [Page.prepared] at hQw
  dsimp only
  split
  · rw [if_pos ‹_›] at hQw
    exact hQw
  · rw [if_neg ‹_›] at hQw
    split
    · rw [if_pos ‹_›] at hQw
      exact hQw
    · rw [if_neg ‹_›] at hQw
      rw [wp_bind, wp_onWorld, wp_sb_bread, hread, if_pos rfl, wp_bind, wp_onWorld, wp_bData]
      exact hQw

/-- **`yaf_write_end`**, with a page that is there. -/
theorem wp_yaf_write_end {i : Inode} (hi : c.world.inode? n = some i) {pos len copied : ℕ}
    (hp : c.pages n (pos / 4096) = some p) {Q : ℤ → Paged → Prop} {E : Oops → Prop} :
    wp (Paged.yaf_write_end n pos len copied) Q E c ↔ Q (p.effective len copied)
      { c.setPage n (pos / 4096) (some (p.committed (pos % 4096) (p.effective len copied))) with
          world := c.world.finish n i pos len (p.effective len copied) } := by
  have hgrab : c.grab n (pos / 4096) = p := by
    rw [Paged.grab, hp]
    rfl
  have hblock : ∀ {Q : ℕ → Paged → Prop}, wp (block_write_end n pos len copied) Q E c ↔
      Q (p.effective len copied)
        (c.setPage n (pos / 4096) (some (p.committed (pos % 4096) (p.effective len copied)))) := by
    intro Q
    rw [block_write_end, YAF_BLOCK_SIZE_eq, wp_bind, wp_get, hgrab, Page.effective, Page.committed]
    dsimp only
    by_cases h₀ : pos % 4096 + (if copied < len && !p.uptodate then 0 else copied) = 0
    · rw [if_pos h₀, if_pos h₀]
      rfl
    · rw [if_neg h₀, if_neg h₀]
      rfl
  rw [Paged.yaf_write_end, wp_bind, Paged.generic_write_end, wp_bind, hblock]
  set eff := p.effective len copied
  set c₁ := c.setPage n (pos / 4096) (some (p.committed (pos % 4096) eff))
  have hi₁ : c₁.world.inode? n = some i := hi
  rw [wp_bind, wp_onWorld, wp_getInode hi₁, World.finish]
  split <;> split <;>
    simp only [wp_bind, wp_onWorld, wp_modifyInode, wp_mark_inode_dirty, wp_pure,
      World.touch_edit, World.touch_touch, wp_current_time, *, if_true, if_false, id] <;> rfl

/-- Another page that holds what the file holds. -/
theorem setPage (h : c.Backs s busy) (hp : p.Holds s n k) (hdirty : p.dirty = c.dirty n k)
    (hbusy : busy = none ∨ busy = some (n, k)) : (c.setPage n k (some p)).Backs s (some (n, k)) := by
  have hsame : ∀ m l, (c.setPage n k (some p)).dirty m l = c.dirty m l := by
    intro m l
    rw [dirty_setPage]
    split
    · obtain ⟨rfl, rfl⟩ := ‹_ ∧ _›
      exact hdirty
    · rfl
  refine ⟨?_, h.inv, fun m l q hq => ?_, fun m l q hq hdev hne => ?_⟩
  · rw [Namespace.onDisk_congr hsame]
    exact h.refines
  · rw [pages_setPage] at hq
    split at hq
    · obtain ⟨rfl, rfl⟩ := ‹_ ∧ _›
      cases hq
      exact hp
    · exact h.page m l q hq
  · have hout : ¬(m = n ∧ l = k) := by
      rintro ⟨rfl, rfl⟩
      exact hne rfl
    rw [setPage_of_ne c _ hout] at hq
    refine h.warm m l q hq hdev fun he => ?_
    rcases hbusy with hnone | hsome
    · rw [hnone] at he
      simp at he
    · exact hne (hsome.symm.trans he)

/-- **A round of a write**, from the page that is ready for the copy on. -/
theorem round (h : c.Backs s (some (n, pos / 4096))) (hp : c.pages n (pos / 4096) = some p)
    (hbh : p.bh ≠ none) (hready : p.read = true ∨ pos % 4096 = 0 ∧ data.length = 4096)
    (hpage : pos % 4096 + data.length ≤ 4096) (hcopied : copied ≤ data.length)
    (hle : pos + data.length ≤ 32768)
    (hblk : ∀ j ≤ pos / 4096, (s.node n).blk j ≠ RESERVED_DNO)
    (hdev : s.bid n (pos / 4096) < s.nblk) (heff : eff = p.effective data.length copied) :
    ({ c.setPage n (pos / 4096) (some ((p.filled (pos % 4096) (data.take copied)).committed
        (pos % 4096) eff)) with
          world := c.world.finish n (s.node n) pos data.length eff } : Paged).Backs
      (s.round n pos data copied eff) (if eff = 0 then some (n, pos / 4096) else none) := by
  have hold := h.page n _ p hp
  have hn := hold.core
  have hf := hold.file
  have hcount := p.effective_cases data.length copied
  rw [← heff] at hcount
  have heff' : eff = copied ∨ eff = 0 := hcount.imp And.left And.left
  have hsmall : eff ≤ copied := by
    rcases heff' with rfl | rfl
    · exact le_rfl
    · exact Nat.zero_le _
  obtain ⟨hsb, hnblk, hdir, hsize, hend, hnode⟩ := s.round_same n pos data copied eff
  have hbid : ∀ m l, (s.round n pos data copied eff).bid m l = s.bid m l := by
    intro m l
    rw [Namespace.bid, Namespace.bid, hsb, hnode]
  set p₂ := (p.filled (pos % 4096) (data.take copied)).committed (pos % 4096) eff with hp₂
  set c' : Paged := { c.setPage n (pos / 4096) (some p₂) with
    world := c.world.finish n (s.node n) pos data.length eff } with hc'
  have hpages : ∀ m l, ¬(m = n ∧ l = pos / 4096) → c'.pages m l = c.pages m l :=
    fun m l hne => setPage_of_ne c _ hne
  have hself : c'.pages n (pos / 4096) = some p₂ := setPage_self c n _ _
  have hout : ∀ m off, ¬(m = n ∧ off / 4096 = pos / 4096) →
      (s.round n pos data copied eff).bytes m off = s.bytes m off := by
    intro m off hne
    refine if_neg ?_
    rintro ⟨rfl, hlo, hhi⟩
    exact hne ⟨rfl, by omega⟩
  refine ⟨?_, ?_, fun m l q hq => ?_, fun m l q hq hdevm hbusy => ?_⟩
  · -- what is on the device stays there
    have hsub : ∀ m off b, ((s.round n pos data copied eff).onDisk c').bytes m off = some b →
        (s.onDisk c).bytes m off = some b := by
      intro m off b hb
      rw [Namespace.bytes_onDisk] at hb ⊢
      obtain ⟨hclean, hb⟩ := hb
      by_cases hmn : m = n ∧ off / 4096 = pos / 4096
      · obtain ⟨rfl, hoff⟩ := hmn
        rw [hoff, dirty_of_pages hself, hp₂, Page.committed] at hclean
        split at hclean
        · -- nothing was copied
          have hzero : pos % 4096 + eff = 0 := ‹_›
          rw [hoff, dirty_of_pages hp]
          refine ⟨hclean, ?_⟩
          have hbytes : (s.round m pos data copied eff).bytes m off =
              if m = m ∧ pos ≤ off ∧ off < pos + copied then
                if eff = copied then some (data.getD (off - pos) 0) else none
              else s.bytes m off := rfl
          rw [hbytes] at hb
          split at hb
          · split at hb
            · omega
            · simp at hb
          · exact hb
        · simp at hclean
      · have hpage : c'.dirty m (off / 4096) = c.dirty m (off / 4096) := by
          rw [Paged.dirty, Paged.dirty, hpages m _ hmn]
        rw [hpage] at hclean
        rw [hout m off hmn] at hb
        exact ⟨hclean, hb⟩
    have hr := (h.refines.forget hsub).finish pos data.length eff hn hf (by omega)
    have htree : ((s.onDisk c).withBytes ((s.round n pos data copied eff).onDisk c').bytes).finish
        n pos data.length eff = (s.round n pos data copied eff).onDisk c' := by
      rw [Namespace.onDisk, Namespace.finish_withBytes, Namespace.finish_withBytes]
      rfl
    rw [htree] at hr
    exact hr
  · exact h.inv.round (h.live hn) hf (by omega) (by omega) hblk hdev heff'
  · by_cases hmn : m = n ∧ l = pos / 4096
    · obtain ⟨rfl, rfl⟩ := hmn
      rw [hself, Option.some_inj] at hq
      subst hq
      exact hold.committed hbh hready hcopied hdev heff
    · rw [hpages m l hmn] at hq
      have hother := h.page m l q hq
      refine hother.mono (s.core_finish n pos _ _ hother.core) (hdir m) (hnode m l) (hsize m) hsb
        hnblk fun off b hoff hb => ?_
      rw [hout m off] at hb
      · exact hb
      · rw [hoff]
        exact hmn
  · by_cases hmn : m = n ∧ l = pos / 4096
    · obtain ⟨rfl, rfl⟩ := hmn
      rw [hself, Option.some_inj] at hq
      subst hq
      have hne : eff ≠ 0 := by
        intro h₀
        rw [if_pos h₀] at hbusy
        exact hbusy rfl
      rw [hp₂, Page.committed, if_neg (by omega)]
    · rw [hpages m l hmn] at hq
      rw [hbid, hnblk] at hdevm
      refine h.warm m l q hq hdevm fun he => hmn ?_
      rw [Option.some_inj, Prod.mk.injEq] at he
      exact ⟨he.1.symm, he.2.symm⟩

/-- **A round of a write.** -/
theorem wp_write_round (h : c.Backs s busy) (hbusy : busy = none ∨ busy = some (n, pos / 4096))
    (hn : s.core n ≠ none) (hf : ¬s.IsDir n) (hlen : 0 < data.length)
    (hpage : pos % 4096 + data.length ≤ 4096) (hcopied : copied ≤ data.length)
    (hle : pos + data.length ≤ 32768) (hmap : s.mapTo n (pos / 4096) = some s₁)
    (hg : c.world.grants (pos / 4096 + 1 - countAssigned (s.node n) YAF_IBLOCKS 0) = true)
    (hdev : s₁.bid n (pos / 4096) < s₁.nblk) {Q : ℤ → Paged → Prop} {E : Oops → Prop}
    (hQ : ∀ eff c', eff = copied ∨ eff = 0 ∧ copied < data.length →
      c'.Backs (s₁.round n pos data copied eff) (if eff = 0 then some (n, pos / 4096) else none) →
      Q eff c') : wp (write_round n pos data copied) Q E c := by
  obtain ⟨hgrown, hblk⟩ := h.inv.mapTo (h.live hn) hf (by omega) hmap
  have hn₁ : s₁.core n ≠ none := by
    rw [hgrown.core]
    split
    · exact Option.some_ne_none _
    · exact hn
  have hf₁ : ¬s₁.IsDir n := by
    rw [Namespace.IsDir, hgrown.attrs]
    exact hf
  rw [write_round, wp_bind]
  refine h.wp_yaf_write_begin hn hf hle hlen hmap hg hdev fun w hback => ?_
  set bid := s₁.bid n (pos / 4096) with hbid
  set whole := (pos % 4096 == 0 && data.length == 4096) with hwhole
  set p := (c.grab n (pos / 4096)).prepared bid whole (w.disk bid) with hp
  obtain ⟨hbh, hdirty, -, hready⟩ := (c.grab n (pos / 4096)).prepared_spec bid whole (w.disk bid)
  -- the page that is ready for the copy
  have hprepared : p.Holds s₁ n (pos / 4096) := by
    refine (hback.grab hn₁ hf₁ (by omega) (hblk _ le_rfl)).prepared fun hclean off x hoff hx => ?_
    have hstores := hback.refines.stores n off x (Namespace.bytes_onDisk.2 ⟨?_, hx⟩)
    · rw [hoff] at hstores
      rw [← hstores, hbid, Namespace.bid]
      have hsb : w.sb = s₁.sb := hback.refines.sb
      rw [← hsb]
      rfl
    · rw [hoff, ← dirty_grab]
      exact hclean
  have hfilled := hback.setPage hprepared (hdirty.trans (dirty_grab c n _)) hbusy
  rw [if_neg (Int.lt_irrefl 0), copy_page_from_iter, YAF_BLOCK_SIZE_eq]
  simp only [bind_assoc]
  rw [wp_bind, wp_get, grab_setPage, wp_bind, wp_putPage, setPage_setPage]
  have hi : w.inode? n = some (s₁.node n) := hback.inode? hn₁
  refine (wp_yaf_write_end hi (setPage_self _ n (pos / 4096) _)).2 ?_
  rw [setPage_setPage]
  refine hQ _ _ ((p.effective_cases data.length copied).imp And.left fun hx => ⟨hx.1, hx.2.1⟩) ?_
  have hround := hfilled.round (setPage_self _ n (pos / 4096) _)
    (by rw [hbh]; exact Option.some_ne_none _) (hready.imp_right fun hx => ?_) hpage hcopied hle
    hblk hdev rfl
  · rw [setPage_setPage] at hround
    exact hround
  · rw [hwhole, Bool.and_eq_true, beq_iff_eq, beq_iff_eq] at hx
    exact hx

/-- **A piece of a write** through the page cache is one of the tree, of as many bytes as were
copied when the copy was made again. -/
theorem wp_vfs_write (h : c.Backs s none) (hpre : s.Pre (.write n pos data copied))
    (hpos : 0 < copied) (hstarve : s.starves (.write n pos data copied) = false)
    (hg : c.world.grants (c.world.wantsBlocks n pos data.length) = true)
    (hdev : ∀ t, s.mapTo n (pos / 4096) = some t → pos + data.length ≤ 32768 →
      t.bid n (pos / 4096) < t.nblk) {E : Oops → Prop} :
    wp (Paged.vfs_write n pos data copied) (fun r c' => ∃ data' s',
      (data' = data ∨ data' = data.take copied ∧ r = copied) ∧
        s.step (.write n pos data' copied) = some ((r, none), s') ∧ c'.Backs s' none) E c := by
  obtain ⟨hreg, hlen, hpage, hcopied⟩ := hpre
  have hn := hreg.1
  have hf := hreg.not_isDir
  rw [Paged.vfs_write, wp_bind]
  by_cases hbig : pos + data.length > 32768
  · have hmax : pos + data.length > MAX_FILESIZE := by
      rw [MAX_FILESIZE_eq]
      exact hbig
    rw [write_round, yaf_write_begin, if_pos hmax, wp_bind, wp_pure, if_pos (by decide), wp_pure,
      if_neg fun hx => absurd hx.1 (by decide), wp_pure]
    refine ⟨data, s, .inl rfl, ?_, h⟩
    rw [Namespace.step, Namespace.write, if_pos hbig]
  · have hle : pos + data.length ≤ 32768 := Nat.not_lt.1 hbig
    have hsome : ∃ s₁, s.mapTo n (pos / 4096) = some s₁ := by
      rw [Namespace.starves, decide_eq_true hle, Bool.true_and] at hstarve
      exact Option.isSome_iff_exists.1 (by rw [← Option.not_isNone, hstarve]; rfl)
    obtain ⟨s₁, hmap⟩ := hsome
    obtain ⟨hgrown, hblk⟩ := h.inv.mapTo (h.live hn) hf (by omega) hmap
    have hd := hdev s₁ hmap hle
    have hsame : s₁.sb = s.sb ∧ s₁.nblk = s.nblk := by
      rw [hgrown.same]
      exact ⟨rfl, rfl⟩
    -- what the tree does
    have hwrite : ∀ data', pos + List.length data' ≤ 32768 →
        s.step (.write n pos data' copied) = some (((copied : ℤ), none),
          s₁.store n pos data' copied) := by
      intro data' hle'
      rw [Namespace.bid, hsame.1, hsame.2] at hd
      rw [Namespace.step, Namespace.write, if_neg (Nat.not_lt.2 hle'), hmap, Option.map_some,
        if_pos hd]
    have hwant : c.world.wantsBlocks n pos data.length =
        pos / 4096 + 1 - countAssigned (s.node n) YAF_IBLOCKS 0 := by
      simp only [World.wantsBlocks, h.inode? hn, MAX_FILESIZE_eq, YAF_BLOCK_SIZE_eq, if_neg hbig]
    rw [hwant] at hg
    refine h.wp_write_round (.inl rfl) hn hf hlen hpage hcopied hle hmap hg hd
      fun eff c' hcount hback => ?_
    rcases hcount with rfl | ⟨rfl, hlt⟩
    · have hne : eff ≠ 0 := Nat.ne_of_gt hpos
      rw [if_neg fun hx => hne (Int.natCast_eq_zero.1 hx.1), wp_pure]
      rw [if_neg hne, Namespace.round_self] at hback
      exact ⟨data, _, .inl rfl, hwrite data hle, hback⟩
    · -- the copy is made again
      have htake : (data.take copied).length = copied := by
        rw [List.length_take, Nat.min_eq_left hcopied]
      obtain ⟨hsb, hnblk, hdir, -, -, hnode⟩ := s₁.round_same n pos data copied 0
      have hn' : (s₁.round n pos data copied 0).core n ≠ none := by
        refine s₁.core_finish n pos _ _ ?_
        rw [hgrown.core]
        split
        · exact Option.some_ne_none _
        · exact hn
      have hf' : ¬(s₁.round n pos data copied 0).IsDir n := by
        rw [hdir, Namespace.IsDir, hgrown.attrs]
        exact hf
      have hassigned : ((s₁.round n pos data copied 0).node n).blk (pos / 4096) ≠ RESERVED_DNO := by
        rw [hnode]
        exact hblk _ le_rfl
      obtain ⟨hcnt, hmap'⟩ := hback.inv.mapTo_assigned (hback.live hn') hf' hassigned
      have hzero : pos / 4096 + 1 -
          countAssigned ((s₁.round n pos data copied 0).node n) YAF_IBLOCKS 0 = 0 := by omega
      rw [if_pos rfl] at hback
      rw [if_pos ⟨rfl, Nat.ne_of_gt hpos⟩]
      refine hback.wp_write_round (.inr rfl) hn' hf' (by omega) (by omega) (Nat.le_of_eq htake.symm)
        (by omega) hmap' (by rw [hzero]; rfl) ?_ fun eff c'' hcount hback' => ?_
      · rw [Namespace.bid, hsb, hnode, hnblk]
        exact hd
      · have heff : eff = copied := by omega
        subst heff
        rw [if_neg (Nat.ne_of_gt hpos), Namespace.round_round s₁ n pos hpos hlt] at hback'
        exact ⟨_, _, .inr ⟨rfl, rfl⟩, hwrite _ (by omega), hback'⟩

/-- **The other operations** are those of the tree. -/
theorem wp_call (h : c.Backs s none) (hop : op.Careful c.world)
    (hwrites : Namespace.writes op = false) (hready : op.ready c = true) :
    wp (call op) (fun r c' => ∃ s', s.step op = some (r, s') ∧ c'.Backs s' none)
      (fun _ => True) c := by
  have hcall : call op = (do let r ← onWorld (Yaf.step op); modify truncate; pure r) := by
    cases op with
    | write => simp [Namespace.writes] at hwrites
    | _ => rfl
  rw [hcall, wp_bind, wp_onWorld]
  refine wp_mono (h.mirrors.step hop) ?_ fun _ _ => trivial
  rintro r w' ⟨t, hs, ht⟩
  obtain ⟨s', hs', hsame⟩ := s.step_withBytes hwrites hs
  have hpre' := h.mirrors.careful_pre hop
  have hpre : s.Pre op := s.pre_withBytes.1 hpre'
  have hinv := h.inv.step hpre hs'
  have hout := h.inv.outcome hpre hs'
  obtain ⟨hsb, hnblk⟩ := hout.consts
  have hcore : ∀ m, (w'.icache m).isSome = true ↔ s'.core m ≠ none := by
    intro m
    have hm := ht.core m
    rw [hsame] at hm
    change _ = s'.core m at hm
    rw [← hm]
    cases w'.icache m <;> simp
  set c' : Paged := truncate { c with world := w' } with hc'
  have hpages : ∀ {m l q}, c'.pages m l = some q → s'.core m ≠ none ∧ c.pages m l = some q := by
    intro m l q hq
    have hif : c'.pages m l = if (w'.icache m).isSome then c.pages m l else none := rfl
    rw [hif] at hq
    split at hq
    · exact ⟨(hcore m).1 ‹_›, hq⟩
    · simp at hq
  have hkeeps : ∀ {m l q}, c'.pages m l = some q → Namespace.Keeps s m s' := by
    intro m l q hq
    obtain ⟨hm, hp⟩ := hpages hq
    have hold := h.page m l q hp
    rcases h.inv.file_step hpre hwrites hs' (hinv.core m hm) (.inl hold.file) with
      ⟨hkeep, -⟩ | ⟨hborn, -⟩
    · exact hkeep
    · exact absurd (h.live hold.core) hborn.free
  have hbid : ∀ {m l q}, c'.pages m l = some q → s'.bid m l = s.bid m l := by
    intro m l q hq
    rw [Namespace.bid, Namespace.bid, hsb, Namespace.blk_congr (hkeeps hq).attrs]
  refine ⟨s', hs', ?_, hinv, fun m l q hq => ?_, fun m l q hq hdev hbusy => ?_⟩
  · -- what is on the device stays there
    have hsub : ∀ m off b, (s'.onDisk c').bytes m off = some b → t.bytes m off = some b := by
      intro m off b hb
      obtain ⟨hclean, hb⟩ := Namespace.bytes_onDisk.1 hb
      obtain ⟨hlive, hfile, -⟩ := hinv.known m off b hb
      rcases h.inv.file_step hpre hwrites hs' hlive (.inr hfile) with ⟨hkeep, -⟩ | ⟨hborn, -⟩
      · have hdirty : c.dirty m (off / 4096) = false := by
          cases hd : c.dirty m (off / 4096) with
          | false => rfl
          | true =>
              -- the page is there as long as the inode is in memory
              obtain ⟨p, hp⟩ : ∃ p, c.pages m (off / 4096) = some p := by
                rw [Paged.dirty] at hd
                cases hp : c.pages m (off / 4096) with
                | some p => exact ⟨p, rfl⟩
                | none => simp [hp] at hd
              have hold := h.page m _ p hp
              by_cases hcm : s'.core m = none
              · rcases hout.core hold.core hcm with rfl | hdead
                · rw [Op.ready, List.all_eq_true] at hready
                  have hcl := hready (off / 4096) (List.mem_range.2 hold.below)
                  rw [hd] at hcl
                  simp at hcl
                · exact absurd hlive hdead
              · have hif : c'.pages m (off / 4096) = if (w'.icache m).isSome then
                    c.pages m (off / 4096) else none := rfl
                rw [Paged.dirty, hif, if_pos ((hcore m).2 hcm)] at hclean
                rw [Paged.dirty, hclean] at hd
                simp at hd
        have hpre'' : (s.onDisk c).Pre op := hpre'
        have hlive' : t.Live m := by
          rw [hsame]
          exact hlive
        have hfile' : ¬t.IsDir m := by
          rw [hsame]
          exact hfile
        rcases h.mirrors.inv.file_step hpre'' hwrites hs hlive' (.inr hfile') with
          ⟨hkeep', -⟩ | ⟨hborn', -⟩
        · rw [hkeep'.bytes]
          rw [hkeep.bytes] at hb
          exact Namespace.bytes_onDisk.2 ⟨hdirty, hb⟩
        · exact absurd hkeep.live hborn'.free
      · rw [hborn.bytes] at hb
        simp at hb
    have hr := ht.toRefines.forget hsub
    rw [hsame] at hr
    exact hr
  · obtain ⟨hm, hp⟩ := hpages hq
    have hkeep := hkeeps hq
    refine (h.page m l q hp).mono hm hkeep.isDir_iff (Namespace.blk_congr hkeep.attrs l)
      (Nat.le_of_eq (Namespace.size_congr hkeep.attrs).symm) hsb hnblk fun off b _ hb => ?_
    rw [hkeep.bytes] at hb
    exact hb
  · rw [hbid hq, hnblk] at hdev
    exact h.warm m l q (hpages hq).2 hdev hbusy

/-! ### What the kernel does with pages -/

/-- The page that was busy is up to date. -/
theorem settle (h : c.Backs s (some (n, k)))
    (hup : ∀ p, c.pages n k = some p → s.bid n k < s.nblk → p.uptodate = true) :
    c.Backs s none := by
  refine ⟨h.refines, h.inv, h.page, fun m l q hq hdev _ => ?_⟩
  by_cases hmn : m = n ∧ l = k
  · obtain ⟨rfl, rfl⟩ := hmn
    exact hup q hq hdev
  · refine h.warm m l q hq hdev fun he => hmn ?_
    rw [Option.some_inj, Prod.mk.injEq] at he
    exact ⟨he.1.symm, he.2.symm⟩

/-- A page that is not dirty may be dropped. -/
theorem reclaim (h : c.Backs s none) (hclean : c.dirty n k = false) :
    (c.setPage n k none).Backs s none := by
  have hsame : ∀ m l, (c.setPage n k none).dirty m l = c.dirty m l := by
    intro m l
    rw [dirty_setPage]
    split
    · obtain ⟨rfl, rfl⟩ := ‹_ ∧ _›
      exact hclean.symm
    · rfl
  have hpages : ∀ m l q, (c.setPage n k none).pages m l = some q → c.pages m l = some q := by
    intro m l q hq
    rw [pages_setPage] at hq
    split at hq
    · simp at hq
    · exact hq
  refine ⟨?_, h.inv, fun m l q hq => h.page m l q (hpages m l q hq),
    fun m l q hq => h.warm m l q (hpages m l q hq)⟩
  rw [Namespace.onDisk_congr hsame]
  exact h.refines

/-- **Pages may be read ahead.** -/
theorem wp_yaf_readahead (h : c.Backs s none) (hreg : s.holds S_ISREG n) {E : Oops → Prop} :
    wp (yaf_readahead n k) (fun _ c' => c'.Backs s none ∧ c'.world = c.world ∧
      (k * 4096 < (s.node n).i_size → ∃ p, c'.pages n k = some p)) E c := by
  have hn := hreg.1
  have hf := hreg.not_isDir
  have hlive := h.live hn
  rw [yaf_readahead, wp_bind, wp_get]
  cases hp : c.pages n k with
  | some p => exact ⟨h, rfl, fun _ => ⟨p, hp⟩⟩
  | none =>
      have hclean : c.dirty n k = false := by
        rw [Paged.dirty, hp]
        rfl
      rw [Option.isNone_none, if_pos rfl, wp_bind, wp_onWorld, wp_getInode (h.inode? hn),
        YAF_BLOCK_SIZE_eq]
      split
      · rename_i hoff
        have hfile := h.inv.file n hlive hf
        have hle := hfile.le
        have hcount : k < countAssigned (s.node n) YAF_IBLOCKS 0 := by
          have hlt := hfile.lt_countAssigned hoff
          rwa [Nat.mul_div_cancel _ (by omega)] at hlt
        have hassigned := (countAssigned_spec (s.node n)).2.1 k hcount
        have hadd : ∀ q : Page, q.Holds s n k → q.dirty = false →
            (s.bid n k < s.nblk → q.uptodate = true) →
            (c.setPage n k (some q)).Backs s none := by
          intro q hq hqd hup
          refine (h.setPage hq (hqd.trans hclean.symm) (.inl rfl)).settle fun p hp hdev => ?_
          rw [setPage_self, Option.some_inj] at hp
          subst hp
          exact hup hdev
        have hblank := h.grab hn hf (by omega) hassigned
        rw [Paged.grab, hp] at hblank
        have hbid : DNO2BID c.world.sb ((s.node n).blk k).toNat = s.bid n k := by
          rw [Namespace.bid, h.refines.sb]
          rfl
        rw [wp_bind, wp_onWorld, wp_yaf_get_block_of_lt (h.inode? hn) hcount, hbid]
        dsimp only
        rw [if_neg (Int.lt_irrefl 0), wp_bind, wp_onWorld, wp_sb_bread, h.refines.readable_eq]
        by_cases hdev : s.bid n k < s.nblk
        · have hdev' : s.bid n k < (s.onDisk c).nblk := hdev
          rw [decide_eq_true hdev', if_pos rfl, wp_bind, wp_onWorld, wp_bData]
          refine ⟨hadd _ ⟨hn, hf, by omega, hassigned, fun bid hbh => ?_, fun _ off b hko hb => ?_,
            fun hd => by simp [Page.blank] at hd⟩ rfl fun _ => rfl, rfl,
            fun _ => ⟨_, setPage_self _ _ _ _⟩⟩
          · simp [Page.blank] at hbh
          · have hstores := h.refines.stores n off b (Namespace.bytes_onDisk.2 ⟨?_, hb⟩)
            · rw [hko] at hstores
              rw [← hstores, ← hbid]
              rfl
            · rw [hko]
              exact hclean
        · have hdev' : ¬s.bid n k < (s.onDisk c).nblk := hdev
          rw [decide_eq_false hdev', if_neg Bool.false_ne_true]
          exact ⟨hadd _ hblank rfl fun hlt => absurd hlt hdev, rfl,
            fun _ => ⟨_, setPage_self _ _ _ _⟩⟩
      · exact ⟨h, rfl, fun hlt => absurd hlt ‹_›⟩

/-- **Reading** gives what the file holds. -/
theorem wp_vfs_read (h : c.Backs s none) (hreg : s.holds S_ISREG n) (off : ℕ) :
    wp (Paged.vfs_read n off) (fun x c' => c'.Backs s none ∧
      ∀ b, s.bytes n off = some b → x = .ok (some b)) (fun _ => s.bytes n off = none) c := by
  rw [Paged.vfs_read, wp_bind, wp_onWorld, wp_getInode (h.inode? hreg.1), YAF_BLOCK_SIZE_eq]
  split
  · rename_i hoff
    rw [wp_bind]
    refine wp_mono (h.wp_yaf_readahead hreg) ?_ fun _ he => he
    rintro - c₁ ⟨h₁, -, hpage⟩
    obtain ⟨p, hp⟩ := hpage (by omega)
    rw [wp_bind, wp_get, hp]
    dsimp only
    have hold := h₁.page n _ p hp
    split
    · exact ⟨h₁, fun b hb => by rw [hold.shows (.inl ‹_›) off b rfl hb]⟩
    · -- the block is not on the device
      rw [wp_throw]
      cases hb : s.bytes n off with
      | none => rfl
      | some b =>
          obtain ⟨-, -, -, hdev⟩ := h.inv.known n off b hb
          exact absurd (h₁.warm n _ p hp hdev (by simp)) ‹_›
  · rename_i hoff
    refine ⟨h, fun b hb => ?_⟩
    exact absurd (h.inv.known n off b hb).2.2.1 hoff

/-- **A page that is written back** reaches the block of the file, and no block is asked for. -/
theorem wp_block_write_full_folio (h : c.Backs s none) (hp : c.pages n k = some p)
    (hdirty : p.dirty = true) {bytes : List UInt8} (hlen : bytes.length = 4096)
    (hbytes : ∀ off b, off / 4096 = k → s.bytes n off = some b → bytes.getD (off % 4096) 0 = b)
    {E : Oops → Prop} :
    wp (block_write_full_folio n k p bytes) (fun r c' => r = 0 ∧ c'.Backs s none ∧
      c'.world.icache = c.world.icache ∧
      ∀ m l, c'.dirty m l = (c.dirty m l && !decide (m = n ∧ l = k))) E c := by
  have hold := h.page n k p hp
  obtain ⟨hup, -, hbh, hdev⟩ := hold.dirty hdirty
  obtain ⟨bid, hbid⟩ := Option.ne_none_iff_exists'.1 hbh
  obtain rfl := hold.mapped bid hbid
  have hsb : c.world.sb = s.sb := h.refines.sb
  have hnblk : c.world.nblk = s.nblk := h.refines.nblk
  rw [block_write_full_folio, get_block, hbid]
  dsimp only
  rw [wp_bind, wp_pure]
  dsimp only
  rw [wp_bind, wp_get, if_pos (by rw [hnblk]; exact hdev), wp_bind, wp_onWorld, wp_modifyBuf,
    wp_bind, wp_putPage, wp_pure]
  set q : Page := { p with data := fun x => bytes.getD x 0, bh := some (s.bid n k), dirty := false }
    with hq
  set w := c.world.setBlock (s.bid n k) (storeBytes (c.world.disk (s.bid n k)) 0 bytes) with hw
  set c' := ({ c with world := w } : Paged).setPage n k (some q) with hc'
  have hclean : ∀ m l, c'.dirty m l = (c.dirty m l && !decide (m = n ∧ l = k)) := by
    intro m l
    rw [hc', dirty_setPage]
    split
    · rw [decide_eq_true ‹_›, Bool.not_true, Bool.and_false]
      rfl
    · rw [decide_eq_false ‹_›, Bool.not_false, Bool.and_true]
      rfl
  have hpages : ∀ m l, ¬(m = n ∧ l = k) → c'.pages m l = c.pages m l :=
    fun m l hne => setPage_of_ne _ _ hne
  have hself : c'.pages n k = some q := setPage_self _ n k _
  refine ⟨rfl, ⟨?_, h.inv, fun m l x hx => ?_, fun m l x hx hdevx hbusy => ?_⟩, rfl, hclean⟩
  · have hfill := h.refines.fill h.mirrors.inv (h.live hold.core) hold.file
      (show k * 4096 % 4096 + 4096 ≤ 4096 by omega) (show 4096 ≤ bytes.length by omega)
    have hdiv : k * 4096 / 4096 = k := Nat.mul_div_cancel _ (by omega)
    have hmod : k * 4096 % 4096 = 0 := Nat.mul_mod_left _ _
    have htake : bytes.take 4096 = bytes := List.take_of_length_le (Nat.le_of_eq hlen)
    rw [hdiv, hmod, htake, hsb] at hfill
    refine (hfill hold.assigned).forget (f := (s.onDisk c').bytes) fun m off b hb => ?_
    obtain ⟨hcl, hb⟩ := Namespace.bytes_onDisk.1 hb
    dsimp only
    rw [Function.update_apply]
    by_cases hmn : m = n
    · subst m
      rw [if_pos rfl]
      by_cases hk : off / 4096 = k
      · have hin : k * 4096 ≤ off ∧ off < k * 4096 + 4096 := by omega
        have hsub : off - k * 4096 = off % 4096 := by omega
        rw [if_pos hin, hsub, hbytes off b hk hb]
      · have hout : ¬(k * 4096 ≤ off ∧ off < k * 4096 + 4096) := by omega
        rw [if_neg hout]
        rw [hclean, decide_eq_false fun hx => hk hx.2, Bool.not_false, Bool.and_true] at hcl
        exact Namespace.bytes_onDisk.2 ⟨hcl, hb⟩
    · rw [if_neg hmn]
      rw [hclean, decide_eq_false fun hx => hmn hx.1, Bool.not_false, Bool.and_true] at hcl
      exact Namespace.bytes_onDisk.2 ⟨hcl, hb⟩
  · by_cases hmn : m = n ∧ l = k
    · obtain ⟨rfl, rfl⟩ := hmn
      rw [hself, Option.some_inj] at hx
      subst hx
      exact ⟨hold.core, hold.file, hold.below, hold.assigned,
        fun bid he => (Option.some.inj he).symm, fun _ => hbytes,
        fun hd => absurd hd Bool.false_ne_true⟩
    · rw [hpages m l hmn] at hx
      exact h.page m l x hx
  · by_cases hmn : m = n ∧ l = k
    · obtain ⟨rfl, rfl⟩ := hmn
      rw [hself, Option.some_inj] at hx
      subst hx
      exact hup
    · rw [hpages m l hmn] at hx
      exact h.warm m l x hx hdevx hbusy

/-- **Dirty pages may be written back**, by the driver. -/
theorem wp_yaf_writepage (h : c.Backs s none) (hdirty : c.dirty n k = true) {E : Oops → Prop} :
    wp (yaf_writepage n k) (fun r c' => r = 0 ∧ c'.Backs s none ∧
      c'.world.icache = c.world.icache ∧
      ∀ m l, c'.dirty m l = (c.dirty m l && !decide (m = n ∧ l = k))) E c := by
  obtain ⟨p, hp⟩ := exists_page_of_dirty hdirty
  rw [dirty_of_pages hp] at hdirty
  have hold := h.page n k p hp
  obtain ⟨hup, hlt, -⟩ := hold.dirty hdirty
  have hgrab : c.grab n k = p := by
    rw [Paged.grab, hp]
    rfl
  have hsegment : ∀ lim, (∀ x < 4096, k * 4096 + x < (s.node n).i_size → x < lim) →
      ∀ off b, off / 4096 = k → s.bytes n off = some b →
        (zero_segment p.data lim).getD (off % 4096) 0 = b := by
    intro lim hlim off b hk hb
    have hsize := (h.inv.known n off b hb).2.2.1
    have hmod : off % 4096 < 4096 := by omega
    have hin : k * 4096 + off % 4096 < (s.node n).i_size := by
      rw [← hk, Nat.mul_comm, Nat.div_add_mod]
      exact hsize
    rw [zero_segment, YAF_BLOCK_SIZE_eq, List.getD_eq_getElem?_getD, List.getElem?_map,
      List.getElem?_range hmod, Option.map_some, Option.getD_some, if_pos (hlim _ hmod hin)]
    exact hold.shows (.inl hup) off b hk hb
  have hlen : ∀ lim, (zero_segment p.data lim).length = 4096 := by
    intro lim
    rw [zero_segment, List.length_map, List.length_range]
  rw [yaf_writepage, wp_bind, wp_onWorld, wp_getInode (h.inode? hold.core), wp_bind, wp_get, hgrab,
    YAF_BLOCK_SIZE_eq]
  split
  · have hall := hsegment 4096 fun x hx _ => hx
    exact h.wp_block_write_full_folio hp hdirty (hlen 4096) hall
  · have hin : ¬(k ≥ (s.node n).i_size / 4096 + 1 ∨ (s.node n).i_size % 4096 = 0) := by omega
    rw [if_neg hin]
    have hall := hsegment ((s.node n).i_size % 4096) fun x _ hx => by omega
    exact h.wp_block_write_full_folio hp hdirty (hlen _) hall

end Backs

end Paged

end Pages

/-! ### Events -/

/-- **What is seen of an event without the page cache**: the operation, where a copy that was made
again is a shorter write; and nothing of what the kernel does with pages. -/
inductive Event.Seen : Event × Answer → List (Op × Reply) → Prop
  | call (op : Op) (r : Reply) : Seen (.call op, .reply r) [(op, r)]
  | again (n pos : ℕ) (data : List UInt8) (copied : ℕ) :
      Seen (.call (.write n pos data copied), .reply (copied, none))
        [(.write n pos (data.take copied) copied, (copied, none))]
  | read (n off : ℕ) (x : Except ℤ (Option UInt8)) : Seen (.read n off, .byte x) []
  | readahead (n k : ℕ) : Seen (.readahead n k, .done) []
  | writepage (n k : ℕ) : Seen (.writepage n k, .code 0) []
  | reclaim (n k : ℕ) : Seen (.reclaim n k, .done) []

/-- A shorter write is allowed too, when there is a block for it. -/
theorem Namespace.Careful.take {pos copied : ℕ} {data : List UInt8} {x : Reply × Namespace}
    (h : s.Careful (.write n pos data copied)) (hpos : 0 < copied)
    (hs : s.step (.write n pos (data.take copied) copied) = some x) :
    s.Careful (.write n pos (data.take copied) copied) := by
  obtain ⟨⟨hreg, hlen, hpage, hcopied⟩, -⟩ := h
  have htake : (data.take copied).length = copied := by
    rw [List.length_take, Nat.min_eq_left hcopied]
  refine ⟨⟨hreg, by omega, by omega, by omega⟩, rfl, rfl, rfl, ?_⟩
  rw [Namespace.starves]
  rw [Namespace.step, Namespace.write] at hs
  split at hs
  · rw [decide_eq_false (by omega)]
    rfl
  · obtain ⟨t, ht, -⟩ := Option.map_eq_some_iff.1 hs
    rw [ht, Option.isNone_some, Bool.and_false]

/-- The blocks a write asks for are there. -/
theorem Op.Careful.grants {pos copied : ℕ} {data : List UInt8}
    (h : (Op.write n pos data copied).Careful w) :
    w.grants (w.wantsBlocks n pos data.length) = true := by
  have hstarve := h.2.2.2.2.2
  rw [Op.starves, Bool.not_eq_false'] at hstarve
  exact hstarve

namespace Paged

variable {c c' : Paged}

namespace Backs

variable {pos copied : ℕ} {data : List UInt8}

/-- **Dirty pages may be written back.** -/
theorem wp_writepage (h : c.Backs s none) (hdirty : c.dirty n k = true) :
    wp (step (.writepage n k)) (fun r c' => r = .code 0 ∧ c'.Backs s none ∧
      c'.world.icache = c.world.icache ∧
      ∀ m l, c'.dirty m l = (c.dirty m l && !decide (m = n ∧ l = k))) (fun _ => False) c := by
  rw [step, wp_bind]
  refine wp_mono (h.wp_yaf_writepage hdirty) ?_ fun _ he => he
  rintro _ c' ⟨rfl, hback, hcache, hclean⟩
  exact ⟨rfl, hback, hcache, hclean⟩

/-- The block a write needs is on the device. -/
theorem bid_lt (h : c.Backs s none) (hop : (Op.write n pos data copied).Careful c.world)
    (hover : (Op.write n pos data copied).overruns c.world = false) :
    ∀ t, s.mapTo n (pos / 4096) = some t → pos + data.length ≤ 32768 →
      t.bid n (pos / 4096) < t.nblk := by
  intro t hmap hle
  by_contra hdev
  have hcareful := h.mirrors.careful_iff.1 hop
  obtain ⟨⟨hreg, hlen, -⟩, -⟩ := s.careful_withBytes.1 hcareful
  obtain ⟨hgrown, -⟩ := h.inv.mapTo (h.live hreg.1) hreg.not_isDir (by omega) hmap
  have hstep : ∃ s', (s.onDisk c).step (.write n pos data copied) = some ((- EIO, none), s') := by
    refine ⟨t.withBytes (s.onDisk c).bytes, ?_⟩
    rw [Namespace.step, Namespace.write, if_neg (Nat.not_lt.2 hle), Namespace.onDisk,
      Namespace.mapTo_withBytes, hmap, Option.map_some, Option.map_some, if_neg]
    · rfl
    have hsb : t.sb = s.sb ∧ t.nblk = s.nblk := by
      rw [hgrown.same]
      exact ⟨rfl, rfl⟩
    rw [Namespace.bid, hsb.1, hsb.2] at hdev
    exact hdev
  obtain ⟨s', hs⟩ := hstep
  obtain ⟨w', hr, -⟩ :=
    (matches_tree.symm.match_step h.mirrors hcareful).ok (Namespace.program_ok.2 hs)
  refine of_decide_eq_false hover ?_
  rw [value, hr]

end Backs

/-- **Each event is an operation of the tree, or none.** -/
theorem implements_tree : Implements (fun c s => Backs c s none) step Event.Ok Namespace.program
    Namespace.Careful Event.Seen := by
  refine ⟨?_⟩
  intro c s e r c' h hok hr
  have hplain : ∀ {op x s'}, s.Careful op → s.step op = some (x, s') →
      Run Namespace.program Namespace.Careful s [(op, x)] s' :=
    fun hop hs => .snoc .nil hop (Namespace.program_ok.2 hs)
  cases e with
  | call op =>
      obtain ⟨hop, hover, hready⟩ := hok
      have hcareful : s.Careful op := s.careful_withBytes.1 (h.mirrors.careful_iff.1 hop)
      by_cases hwrites : Namespace.writes op = true
      · cases op with
        | write n pos data copied =>
            have hpos : 0 < copied := of_decide_eq_true hready
            have hwp : wp (step (.call (.write n pos data copied))) (fun r c' => ∃ data' s' x,
                (data' = data ∨ data' = data.take copied ∧ x = (copied : ℤ)) ∧
                  r = .reply (x, none) ∧
                  s.step (.write n pos data' copied) = some ((x, none), s') ∧ c'.Backs s' none)
                (fun _ => True) c := by
              rw [step, wp_bind, call, wp_bind]
              refine wp_mono (h.wp_vfs_write hcareful.1 hpos hcareful.2.2.2.2 hop.grants
                (h.bid_lt hop hover)) ?_ fun _ he => he
              rintro x c' ⟨data', s', hd, hs, hback⟩
              exact ⟨data', s', x, hd, rfl, hs, hback⟩
            obtain ⟨data', s', x, hd, rfl, hs, hback⟩ := hwp.ok hr
            rcases hd with rfl | ⟨rfl, rfl⟩
            · exact ⟨_, s', .call _ _, hplain hcareful hs, hback⟩
            · exact ⟨_, s', .again _ _ _ _, hplain (hcareful.take hpos hs) hs, hback⟩
        | _ => simp [Namespace.writes] at hwrites
      · rw [Bool.not_eq_true] at hwrites
        have hwp : wp (step (.call op)) (fun r c' => ∃ s' x, r = .reply x ∧
            s.step op = some (x, s') ∧ c'.Backs s' none) (fun _ => True) c := by
          rw [step, wp_bind]
          refine wp_mono (h.wp_call hop hwrites hready) ?_ fun _ _ => trivial
          rintro x c' ⟨s', hs, hback⟩
          exact ⟨s', x, rfl, hs, hback⟩
        obtain ⟨s', x, rfl, hs, hback⟩ := hwp.ok hr
        exact ⟨_, s', .call _ _, hplain hcareful hs, hback⟩
  | read n off =>
      have hwp : wp (step (.read n off)) (fun r c' => (∃ x, r = .byte x) ∧ c'.Backs s none)
          (fun _ => True) c := by
        rw [step, wp_bind]
        refine wp_mono (h.wp_vfs_read (h.holds_iff.1 hok) off) ?_ fun _ _ => trivial
        rintro x c' ⟨hback, -⟩
        exact ⟨⟨x, rfl⟩, hback⟩
      obtain ⟨⟨x, rfl⟩, hback⟩ := hwp.ok hr
      exact ⟨[], s, .read n off x, .nil, hback⟩
  | readahead n k =>
      have hwp : wp (step (.readahead n k)) (fun r c' => r = .done ∧ c'.Backs s none)
          (fun _ => True) c := by
        rw [step, wp_bind]
        refine wp_mono (h.wp_yaf_readahead (h.holds_iff.1 hok)) ?_ fun _ he => he
        rintro - c' ⟨hback, -⟩
        exact ⟨rfl, hback⟩
      obtain ⟨rfl, hback⟩ := hwp.ok hr
      exact ⟨[], s, .readahead n k, .nil, hback⟩
  | writepage n k =>
      obtain ⟨rfl, hback, -⟩ := (h.wp_writepage hok).ok hr
      exact ⟨[], s, .writepage n k, .nil, hback⟩
  | reclaim n k =>
      have hwp : wp (step (.reclaim n k)) (fun r c' => r = .done ∧ c'.Backs s none)
          (fun _ => True) c := ⟨rfl, h.reclaim hok⟩
      obtain ⟨rfl, hback⟩ := hwp.ok hr
      exact ⟨[], s, .reclaim n k, .nil, hback⟩

/-- When no page is dirty, the device has all bytes. -/
theorem onDisk_of_clean (hclean : ∀ n k, c.dirty n k = false) : s.onDisk c = s := by
  have hbytes : (s.onDisk c).bytes = s.bytes := by
    funext n off
    have hif : (s.onDisk c).bytes n off =
        if c.dirty n (off / 4096) then none else s.bytes n off := rfl
    rw [hif, hclean, if_neg Bool.false_ne_true]
  exact congrArg s.withBytes hbytes

end Paged

/-! ### Runs -/

variable {v : Volume} {c : Paged}

/-- A mount without pages. -/
def World.unpaged (w : World) : Paged := ⟨w, fun _ _ => none⟩

/-- Without pages, a mount stands for its tree. -/
theorem Mirrors.backs (h : Mirrors w s) : w.unpaged.Backs s none := by
  have hforget : Refines w (s.onDisk w.unpaged) :=
    h.toRefines.forget (f := (s.onDisk w.unpaged).bytes) fun m off b hb =>
      (Namespace.bytes_onDisk.1 hb).2
  refine ⟨hforget, h.inv, fun n k p hp => ?_, fun n k p hp => ?_⟩
  · simp [World.unpaged] at hp
  · simp [World.unpaged] at hp

/-- **A fresh volume** has no pages. -/
theorem Volume.backs (h : v.Ok) : (fresh v).unpaged.Backs v.tree none :=
  (Volume.mirrors_fresh h).backs

/-- **The bytes of the tree are those that were written.** -/
theorem written_of_tree {l : List (Op × Reply)} (h : v.Ok)
    (hrun : Run Namespace.program Namespace.Careful v.tree l s) :
    s.Inv ∧ ∀ n, s.Live n → ¬s.IsDir n → written l n = s.bytes n := by
  induction hrun with
  | nil => exact ⟨(Volume.models h).inv, fun _ _ _ => rfl⟩
  | snoc _ hop hr ih =>
      obtain ⟨hinv, hw⟩ := ih
      have hs := Namespace.program_ok.1 hr
      refine ⟨hinv.step hop.1 hs, fun n hn hf => ?_⟩
      rw [written_snoc]
      exact hinv.record_step hop.1 hs hw hn hf

/-- **What was written last is read.** -/
theorem Paged.Backs.value_read (hback : c.Backs s none) (h : v.Ok) {l : List (Op × Reply)}
    (htree : Run Namespace.program Namespace.Careful v.tree l s) {off : ℕ} {b : UInt8}
    (hreg : c.world.holds S_ISREG n = true) (hb : written l n off = some b) :
    value (Paged.vfs_read n off) c = .ok (.ok (some b)) := by
  have hreg' := hback.holds_iff.1 hreg
  rw [(written_of_tree h htree).2 n (hback.live hreg'.1) hreg'.not_isDir] at hb
  refine value_of_wp (wp_mono (hback.wp_vfs_read hreg' off) ?_ fun _ hnone => ?_)
  · rintro x c' ⟨-, hx⟩
    exact hx b hb
  · rw [hb] at hnone
    simp at hnone

end Yaf
