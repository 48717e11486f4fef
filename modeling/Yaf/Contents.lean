/-
**Files hold what was written to them.**

The log of a run says which byte every offset of every file was last given.  Reading the offset
gives this byte, whatever was written to other files, created or removed since: no step but a write
changes a file, and a write changes one file.

Main definitions:

* `Yaf.written` — the bytes a log has written;
* `Yaf.World.Keeps` — an inode, and all bytes of its blocks, are as before.

Main results:

* `Yaf.Namespace.Inv.file_step` — what a step does to a file that it does not write to;
* `Yaf.readBack_of_run` — **what was written is read**, and writes to other files change nothing.
-/

import Yaf.Directories

set_option relaxedAutoImplicit false
set_option autoImplicit false

namespace Yaf

open Prog

variable {w w' : World} {s s' : Namespace}

/-! ### The bytes of a log -/

/-- What is known of the bytes of the files. -/
abbrev Contents : Type := ℕ → ℕ → Option UInt8

/-- A new file has no bytes, and a write that succeeds gives its bytes to the file. -/
def record (m : Contents) : Op × Reply → Contents
  | (.create _ _ _, (_, some n)) | (.mkdir _ _ _, (_, some n)) => Function.update m n fun _ => none
  | (.write n pos data _, (r, _)) => Function.update m n fun off =>
      if pos ≤ off ∧ off < pos + r.toNat then some (data.getD (off - pos) 0) else m n off
  | _ => m

/-- What a write records. -/
theorem record_write (m : Contents) (n pos : ℕ) (data : List UInt8) (copied : ℕ) (r : Reply)
    (x off : ℕ) : record m (.write n pos data copied, r) x off =
      if x = n ∧ pos ≤ off ∧ off < pos + r.1.toNat then some (data.getD (off - pos) 0)
      else m x off := by
  rw [record, Function.update_apply]
  by_cases hx : x = n
  · subst x
    simp
  · simp [hx]

/-- **The bytes written since the files were created**, each as it was written last. -/
def written (l : List (Op × Reply)) : Contents := l.foldl record fun _ _ => none

theorem written_snoc (l : List (Op × Reply)) (x : Op × Reply) :
    written (l ++ [x]) = record (written l) x := by
  rw [written, List.foldl_append]
  rfl

/-! ### Steps that write nothing -/

namespace Namespace

/-- Whether an operation writes to a file. -/
def writes : Op → Bool
  | .write .. => true
  | _ => false

namespace Inv

/-- Nothing is known of a number that is not allocated. -/
theorem bytes_of_not_live (h : s.Inv) {n : ℕ} (hn : ¬s.Live n) : s.bytes n = fun _ => none := by
  funext off
  cases hb : s.bytes n off with
  | none => rfl
  | some b => exact absurd (h.known n off b hb).1 hn

end Inv

/-- A file is as it was, up to its times. -/
structure Keeps (s : Namespace) (n : ℕ) (s' : Namespace) : Prop where
  live : s.Live n
  bytes : s'.bytes n = s.bytes n
  attrs : (s'.node n).attrs = (s.node n).attrs

/-- A file is new. -/
structure Born (s : Namespace) (n : ℕ) (s' : Namespace) : Prop where
  free : ¬s.Live n
  bytes : s'.bytes n = fun _ => none
  size : (s'.node n).i_size = 0

theorem Keeps.isDir_iff {n : ℕ} (h : Keeps s n s') : s'.IsDir n ↔ s.IsDir n := by
  rw [IsDir, IsDir, mode_congr h.attrs]

namespace Inv

/-- A lookup changes no attributes. -/
theorem lookup_same (h : s.Inv) (p : ℕ) (q : Qstr) : (s.lookup p q).2.iset = s.iset ∧
    (s.lookup p q).2.bytes = s.bytes ∧
      ∀ n, s.Live n → ((s.lookup p q).2.node n).attrs = (s.node n).attrs := by
  have htime : ∀ (s₁ : Namespace) n, ((s₁.edit p fun i => { i with i_atime := s.now }).node n).attrs =
      (s₁.node n).attrs := by
    intro s₁ n
    simp only [Namespace.edit]
    rw [Function.update_apply]
    split
    · rw [‹n = p›]
      rfl
    · rfl
  unfold Namespace.lookup
  split
  · cases s.bound p q with
    | none => exact ⟨rfl, rfl, fun n _ => htime s n⟩
    | some k =>
        refine ⟨rfl, rfl, fun n hn => (htime (s.load k) n).trans ?_⟩
        simp only [Namespace.load]
        rw [Function.update_apply]
        split
        · subst k
          exact h.attrs_narrow hn
        · rfl
  · exact ⟨rfl, rfl, fun _ _ => rfl⟩

/-- **A file after a creation**: it is as it was, or it is new. -/
theorem create_file (h : s.Inv) {p : ℕ} {q : Qstr} {mode : UInt16} (hp : s.holds S_ISDIR p)
    {r : Reply} (hs : s.create p q mode = some (r, s')) {n : ℕ} (hn : s'.Live n)
    (hf : ¬s.IsDir n ∨ ¬s'.IsDir n) :
    (Keeps s n s' ∧ r.2 ≠ some n) ∨ (Born s n s' ∧ r.2 = some n) := by
  unfold Namespace.create at hs
  split at hs
  · obtain ⟨⟨j, s₁⟩, hg, hs⟩ := Option.bind_eq_some_iff.1 hs
    obtain ⟨k, hk, hs⟩ := Option.map_eq_some_iff.1 hs
    have hgives := h.getFree (h.core p hp.1) hp.2 hg
    have hsame := getFree_same hg
    have hnode : ∀ x, x ≠ p → s₁.node x = s.node x := by
      intro x hx
      rw [hsame]
      exact Function.update_of_ne hx _ _
    have hbytes : s₁.bytes n = s.bytes n := by rw [hsame]
    have hclear := (Mem.mem_clears.1 (List.mem_of_head? hk)).2
    have hnot : ¬s.Live k := by
      rintro ⟨hset, -⟩
      rw [hclear] at hset
      exact Bool.false_ne_true hset
    split at hs
    · cases hs
      have hlink : ∀ x, x ≠ p → (s₁.link p j q k mode).node x =
          if x = k then s₁.newInode (s₁.node p) mode else s₁.node x := by
        intro x hx
        simp only [Namespace.link, Namespace.put, Namespace.edit]
        rw [Function.update_of_ne hx, Function.update_apply]
      have hpk : p ≠ k := by
        rintro rfl
        exact hnot (h.core p hp.1)
      have hnp : n ≠ p := by
        rintro rfl
        have hmode : ((s₁.link n j q k mode).node n).i_mode = (s₁.node n).i_mode := by
          simp only [Namespace.link, Namespace.put, Namespace.edit, Function.update_self]
          rw [Function.update_of_ne hpk]
          rfl
        rcases hf with hf | hf
        · exact hf hp.2
        · refine hf ?_
          rw [IsDir, hmode]
          exact hgives.dir
      by_cases hnk : n = k
      · subst k
        refine .inr ⟨⟨hnot, hbytes.trans (h.bytes_of_not_live hnot), ?_⟩, rfl⟩
        rw [hlink n hnp, if_pos rfl]
        rfl
      · have hlive : s.Live n := by
          obtain ⟨hset, h₀⟩ := hn
          have hset' : Function.update s₁.iset k true n = true := hset
          rw [Function.update_of_ne hnk, hgives.iset] at hset'
          exact ⟨hset', h₀⟩
        refine .inl ⟨⟨hlive, hbytes, ?_⟩, fun he => hnk (Option.some.inj he).symm⟩
        rw [hlink n hnp, if_neg hnk, hnode n hnp]
    · cases hs
      have hnp : n ≠ p := by
        rintro rfl
        rcases hf with hf | hf
        · exact hf hp.2
        · exact hf hgives.dir
      have hlive : s.Live n := by
        rw [Live, ← hgives.iset]
        exact hn
      refine .inl ⟨⟨hlive, hbytes, ?_⟩, fun he => by simp at he⟩
      rw [hnode n hnp]
  · cases hs
    exact .inl ⟨⟨hn, rfl, rfl⟩, fun he => by simp at he⟩

/-- **A file after a removal** is as it was. -/
theorem remove_file {p ino : ℕ} {q : Qstr} (hp : s.holds S_ISDIR p) (hb : s.bound p q = some ino)
    {r : Reply} (hs : s.remove p q ino = some (r, s')) {n : ℕ} (hn : s'.Live n)
    (hf : ¬s.IsDir n ∨ ¬s'.IsDir n) : Keeps s n s' := by
  obtain ⟨j, -, hrm⟩ := remove_of_bound hb
  rw [hrm] at hs
  cases hs
  have hnode : (s.drop p j ino).node n = if n = p then
      { (s.node p).setTimes s.now with i_nlink := (s.node p).i_nlink - 1 } else s.node n :=
    Function.update_apply _ _ _ _
  have hnp : n ≠ p := by
    rintro rfl
    rcases hf with hf | hf
    · exact hf hp.2
    · refine hf ?_
      rw [IsDir, hnode, if_pos rfl]
      exact hp.2
  obtain ⟨hset, h₀⟩ := hn
  have hset' : Function.update s.iset ino false n = true := hset
  have hne : n ≠ ino := by
    rintro rfl
    rw [Function.update_self] at hset'
    exact Bool.false_ne_true hset'
  rw [Function.update_of_ne hne] at hset'
  refine ⟨⟨hset', h₀⟩, Function.update_of_ne hne _ _, ?_⟩
  rw [hnode, if_neg hnp]

/-- **A file after a step that does not write**: it is as it was, or it is new, and the log says
the same. -/
theorem file_step (h : s.Inv) {op : Op} (hpre : s.Pre op) (hop : writes op = false) {r : Reply}
    (hs : s.step op = some (r, s')) {n : ℕ} (hn : s'.Live n) (hf : ¬s.IsDir n ∨ ¬s'.IsDir n) :
    (Keeps s n s' ∧ ∀ m, record m (op, r) n = m n) ∨
      (Born s n s' ∧ ∀ m, record m (op, r) n = fun _ => none) := by
  have hcreate : ∀ p q mode, s.holds S_ISDIR p → s.create p q mode = some (r, s') →
      (∀ m, record m (op, r) n = if r.2 = some n then fun _ => none else m n) →
      (Keeps s n s' ∧ ∀ m, record m (op, r) n = m n) ∨
        (Born s n s' ∧ ∀ m, record m (op, r) n = fun _ => none) := by
    intro p q mode hp hs hrec
    rcases h.create_file hp hs hn hf with ⟨hkeep, hne⟩ | ⟨hnew, he⟩
    · exact .inl ⟨hkeep, fun m => by rw [hrec, if_neg hne]⟩
    · exact .inr ⟨hnew, fun m => by rw [hrec, if_pos he]⟩
  have hrecord : ∀ (m : Contents) (o : Option ℕ), (o.elim m fun k => Function.update m k fun _ => none) n = if o = some n then fun _ => none else m n := by
    intro m o
    cases o with
    | none => rfl
    | some k =>
        by_cases hk : k = n
        · subst k
          rw [if_pos rfl]
          exact Function.update_self _ _ _
        · rw [if_neg fun he => hk (Option.some.inj he)]
          exact Function.update_of_ne (Ne.symm hk) _ _
  cases op with
  | lookup p q =>
      refine .inl ⟨?_, fun _ => rfl⟩
      obtain rfl : (s.lookup p q).2 = s' := congrArg Prod.snd (Option.some.inj hs)
      obtain ⟨hiset, hbytes, hnode⟩ := h.lookup_same p q
      have hlive : s.Live n := by
        rw [Live, ← hiset]
        exact hn
      exact ⟨hlive, congrFun hbytes n, hnode n hlive⟩
  | create p q mode =>
      refine hcreate p q _ hpre.1 hs fun m => ?_
      obtain ⟨r₁, o⟩ := r
      rw [← hrecord]
      cases o <;> rfl
  | mkdir p q mode =>
      refine hcreate p q _ hpre.1 hs fun m => ?_
      obtain ⟨r₁, o⟩ := r
      rw [← hrecord]
      cases o <;> rfl
  | unlink p q ino => exact .inl ⟨remove_file hpre.1 hpre.2.1 hs hn hf, fun _ => rfl⟩
  | rmdir p q ino =>
      refine .inl ⟨?_, fun _ => rfl⟩
      simp only [Namespace.step] at hs
      split at hs
      · cases hs
        exact ⟨hn, rfl, rfl⟩
      · exact remove_file hpre.1 hpre.2.1 hs hn hf
  | openFile k =>
      cases hs
      exact .inl ⟨⟨hn, rfl, rfl⟩, fun _ => rfl⟩
  | closeFile k =>
      cases hs
      exact .inl ⟨⟨hn, rfl, rfl⟩, fun _ => rfl⟩
  | writeInode k =>
      cases hs
      exact .inl ⟨⟨hn, rfl, rfl⟩, fun _ => rfl⟩
  | tick =>
      cases hs
      exact .inl ⟨⟨hn, rfl, rfl⟩, fun _ => rfl⟩
  | evict k =>
      cases hs
      refine .inl ⟨⟨hn, rfl, ?_⟩, fun _ => rfl⟩
      dsimp only
      rw [Function.update_apply]
      split
      · subst k
        exact h.attrs_narrow hn
      · rfl
  | write => simp [writes] at hop
  | setSize | device => simp [Namespace.step] at hs

end Inv

/-! ### Writes -/

/-- **What a write leaves of the tree.**  `ret` is what it returns. -/
structure Wrote (s : Namespace) (n pos : ℕ) (data : List UInt8) (ret : ℤ) (s' : Namespace) :
    Prop where
  iset : s'.iset = s.iset
  slot : s'.slot = s.slot
  opens : s'.opens = s.opens
  other : ∀ m, m ≠ n → s'.node m = s.node m
  mode : (s'.node n).i_mode = (s.node n).i_mode
  /-- the blocks the file had stay where they are -/
  blocks : ∀ k, (s.node n).blk k ≠ RESERVED_DNO → (s'.node n).blk k = (s.node n).blk k
  bytes : ∀ m off, s'.bytes m off = if m = n ∧ pos ≤ off ∧ off < pos + ret.toNat then
    some (data.getD (off - pos) 0) else s.bytes m off

/-- **Storing bytes** changes the size and the times of the file. -/
theorem store_same (s : Namespace) (n pos : ℕ) (data : List UInt8) (copied : ℕ) :
    Wrote s n pos data copied (s.store n pos data copied) ∧
      ((s.store n pos data copied).node n).i_size = max (s.node n).i_size (pos + copied) ∧
      (∀ k, ((s.store n pos data copied).node n).blk k = (s.node n).blk k) ∧
      (s.store n pos data copied).sb = s.sb ∧ (s.store n pos data copied).nblk = s.nblk := by
  have hedit : ∀ (s₁ : Namespace) (f : Inode → Inode) m, m ≠ n →
      (s₁.edit n f).node m = s₁.node m := fun s₁ f m hm => Function.update_of_ne hm _ _
  have hself : ∀ (s₁ : Namespace) (f : Inode → Inode), (s₁.edit n f).node n = f (s₁.node n) :=
    fun s₁ f => Function.update_self _ _ _
  set f : ℕ → ℕ → Option UInt8 := Function.update s.bytes n fun off =>
    if pos ≤ off ∧ off < pos + copied then some (data.getD (off - pos) 0) else s.bytes n off with hf
  have hbytes : ∀ m off, f m off = if m = n ∧ pos ≤ off ∧ off < pos + (copied : ℤ).toNat then
      some (data.getD (off - pos) 0) else s.bytes m off := by
    intro m off
    rw [hf, Function.update_apply, Int.toNat_natCast]
    by_cases hm : m = n
    · subst m
      simp
    · simp [hm]
  set s₂ : Namespace := if pos + copied > (s.node n).i_size then
      s.edit n fun i => { i with i_size := pos + copied }
    else s with hs₂
  have hsize : s₂.iset = s.iset ∧ s₂.slot = s.slot ∧ s₂.opens = s.opens ∧
      (∀ m, m ≠ n → s₂.node m = s.node m) ∧ (s₂.node n).i_mode = (s.node n).i_mode ∧
      (s₂.node n).i_size = max (s.node n).i_size (pos + copied) ∧
      (∀ k, (s₂.node n).blk k = (s.node n).blk k) ∧ s₂.sb = s.sb ∧ s₂.nblk = s.nblk := by
    rw [hs₂]
    split
    · refine ⟨rfl, rfl, rfl, hedit s _, ?_, ?_, fun k => ?_, rfl, rfl⟩
      · rw [hself]
      · rw [hself]
        dsimp only
        omega
      · rw [hself]
        rfl
    · exact ⟨rfl, rfl, rfl, fun _ _ => rfl, rfl, by omega, fun _ => rfl, rfl, rfl⟩
  obtain ⟨h₁, h₂, h₃, h₄, h₅, h₆, h₇, h₈, h₉⟩ := hsize
  have hstore : s.store n pos data copied = if copied < data.length then { s₂ with bytes := f }
      else ({ s₂ with bytes := f } : Namespace).edit n fun i =>
        { i with i_ctime := s.now, i_mtime := s.now } := rfl
  rw [hstore]
  split
  · exact ⟨⟨h₁, h₂, h₃, h₄, h₅, fun k _ => h₇ k, hbytes⟩, h₆, h₇, h₈, h₉⟩
  · refine ⟨⟨h₁, h₂, h₃, fun m hm => ?_, ?_, fun k _ => ?_, hbytes⟩, ?_, fun k => ?_, h₈, h₉⟩
    · rw [hedit _ _ m hm]
      exact h₄ m hm
    · rw [hself]
      exact h₅
    · rw [hself]
      exact h₇ k
    · rw [hself]
      exact h₆
    · rw [hself]
      exact h₇ k

namespace Inv

/-- **Only the file changes that is written to.** -/
theorem wrote (h : s.Inv) {n pos copied : ℕ} {data : List UInt8} (hn : s.Live n)
    (hf : ¬s.IsDir n) (hlen : 0 < data.length) {r : Reply}
    (hs : s.write n pos data copied = some (r, s')) : Wrote s n pos data r.1 s' := by
  have hnone : ∀ e : ℤ, e < 0 → ∀ m off, s.bytes m off =
      if m = n ∧ pos ≤ off ∧ off < pos + e.toNat then some (data.getD (off - pos) 0)
      else s.bytes m off := by
    intro e he m off
    rw [Int.toNat_of_nonpos (Int.le_of_lt he), if_neg]
    omega
  obtain ⟨rfl, rfl⟩ | ⟨hle, s₁, hgrown, -, hend⟩ := h.write_cases hn hf hlen hs
  · exact ⟨rfl, rfl, rfl, fun _ _ => rfl, rfl, fun _ _ => rfl, hnone _ (by decide)⟩
  · have hsame := hgrown.same
    have hother : ∀ m, m ≠ n → s₁.node m = s.node m := by
      intro m hm
      rw [hsame]
      exact Function.update_of_ne hm _ _
    have hmode : (s₁.node n).i_mode = (s.node n).i_mode := by rw [hgrown.attrs]
    have hbytes : s₁.bytes = s.bytes := by rw [hsame]
    have hblocks : ∀ k, (s.node n).blk k ≠ RESERVED_DNO → (s₁.node n).blk k = (s.node n).blk k := by
      intro k hk
      refine hgrown.old k ?_
      by_contra hno
      exact hk ((h.file n hn hf).blk_free (Nat.le_of_not_lt hno))
    obtain ⟨-, rfl, rfl⟩ | ⟨-, rfl, rfl⟩ := hend
    · obtain ⟨hw, -, hblk, -⟩ := s₁.store_same n pos data copied
      refine ⟨hw.iset.trans (by rw [hsame]), hw.slot.trans (by rw [hsame]),
        hw.opens.trans (by rw [hsame]), fun m hm => (hw.other m hm).trans (hother m hm),
        hw.mode.trans hmode, fun k hk => (hblk k).trans (hblocks k hk), fun m off => ?_⟩
      rw [hw.bytes, hbytes]
    · refine ⟨by rw [hsame], by rw [hsame], by rw [hsame], hother, hmode, hblocks, fun m off => ?_⟩
      rw [hbytes]
      exact hnone _ (by decide) m off

/-- **The log says which bytes are known.** -/
theorem record_step (h : s.Inv) {op : Op} (hpre : s.Pre op) {r : Reply}
    (hs : s.step op = some (r, s')) {m : Contents}
    (hm : ∀ n, s.Live n → ¬s.IsDir n → m n = s.bytes n) {n : ℕ} (hn : s'.Live n)
    (hf : ¬s'.IsDir n) : record m (op, r) n = s'.bytes n := by
  by_cases hop : writes op = true
  · cases op with
    | write k pos data copied =>
        obtain ⟨hreg, hlen, hpage, hcopied⟩ := hpre
        have hfk : ¬s.IsDir k := hreg.not_isDir
        have hw := h.wrote (h.core k hreg.1) hfk hlen hs
        have hlive : s.Live n := by
          rw [Live, ← hw.iset]
          exact hn
        have hfile : ¬s.IsDir n := by
          by_cases hnk : n = k
          · rw [hnk]
            exact hfk
          · rw [IsDir, ← hw.other n hnk]
            exact hf
        funext off
        rw [hw.bytes, record_write, hm n hlive hfile]
    | _ => simp [writes] at hop
  · rcases h.file_step hpre (Bool.eq_false_of_not_eq_true hop) hs hn (.inr hf) with
      ⟨hkeep, hrec⟩ | ⟨hnew, hrec⟩
    · rw [hrec, hkeep.bytes]
      exact hm n hkeep.live fun hd => hf (hkeep.isDir_iff.2 hd)
    · rw [hrec, hnew.bytes]

end Inv

end Namespace

/-! ### Reading -/

namespace World

theorem hold_consts (w : World) (n : ℕ) : (w.hold n).sb = w.sb ∧ (w.hold n).nblk = w.nblk ∧
    (w.hold n).io = w.io ∧ (w.hold n).disk = w.disk := by
  unfold hold
  split
  · exact ⟨rfl, rfl, rfl, rfl⟩
  · exact ⟨rfl, rfl, rfl, rfl⟩

end World

/-- **A byte that is known is read.** -/
theorem Mirrors.value_read (h : Mirrors w s) {n off : ℕ} {b : UInt8} (hb : s.bytes n off = some b) :
    value (vfs_read n off) (w.hold n) = .ok (.ok (some b)) := by
  obtain ⟨hlive, hf, hoff, hdev⟩ := h.inv.known n off b hb
  obtain ⟨hsb, hnblk, hio, hdisk⟩ := w.hold_consts n
  have hi := w.inode?_hold n
  rw [h.logical hlive] at hi
  have hrd : (w.hold n).readable .page (DNO2BID (w.hold n).sb
      ((s.node n).blk (off / 4096)).toNat) = true := by
    refine World.readable_of_ioOk _ (hio.trans h.io) _ ?_
    rw [hsb, hnblk, h.sb, h.nblk]
    exact hdev
  refine value_of_wp ((wp_vfs_read hi hoff ((h.inv.file n hlive hf).lt_countAssigned hoff)).2 ?_)
  rw [if_pos hrd, hsb, hdisk]
  exact congrArg (fun b => Except.ok (some b)) (h.stores n off b hb)

/-! ### Writing to one file -/

/-- **The inode `n` and all bytes of its blocks are as before.** -/
structure World.Keeps (w : World) (n : ℕ) (w' : World) : Prop where
  live : w'.Live n
  inode : w'.logical n = w.logical n
  block : ∀ k, (w.logical n).blk k ≠ RESERVED_DNO →
    w'.disk (DNO2BID w.sb ((w.logical n).blk k).toNat) =
      w.disk (DNO2BID w.sb ((w.logical n).blk k).toNat)

/-- Assigning blocks changes no data. -/
theorem data_assign (hok : w.sb.Ok w.nblk) (n rem k : ℕ) :
    (w.assign n rem k).view.data = w.view.data := by
  induction rem generalizing w k with
  | zero => rfl
  | succ rem ih =>
      obtain ⟨hsb, hnblk, -⟩ := w.takeD_consts
      have hedit : (w.takeD.2.edit n fun i => i.setBlk k w.takeD.1).view.data =
          w.takeD.2.view.data := rfl
      have hok' : w.takeD.2.sb.Ok w.takeD.2.nblk := by
        rw [hsb, hnblk]
        exact hok
      rw [World.assign, ih (w := w.takeD.2.edit n fun i => i.setBlk k w.takeD.1) hok', hedit,
        data_takeD hok]

theorem data_mapped (hok : w.sb.Ok w.nblk) (n : ℕ) (i : Inode) (k : ℕ) :
    (w.mapped n i k).view.data = w.view.data := by
  unfold World.mapped
  dsimp only
  split
  · rw [World.data_touch, data_assign hok]
  · rfl

theorem sb_stored (w : World) (n : ℕ) (i : Inode) (pos : ℕ) (data : List UInt8) (copied bid : ℕ) :
    (w.stored n i pos data copied bid).sb = w.sb := by
  unfold World.stored
  dsimp only
  split
  · split <;> rfl
  · split <;> rfl

/-- Storing bytes changes the data of one block. -/
theorem data_stored (w : World) (n : ℕ) (i : Inode) (pos : ℕ) (data : List UInt8) (copied d : ℕ) :
    (w.stored n i pos data copied (DNO2BID w.sb d)).view.data = Function.update w.view.data d
      (storeBytes (w.view.data d) (pos % 4096) (data.take copied)) := by
  have hset : (w.setBlock (DNO2BID w.sb d) (storeBytes (w.disk (DNO2BID w.sb d)) (pos % 4096)
      (data.take copied))).view.data = Function.update w.view.data d
        (storeBytes (w.view.data d) (pos % 4096) (data.take copied)) := by
    rw [World.view_setData]
    rfl
  unfold World.stored
  dsimp only
  split
  · split
    · rw [World.data_touch, hset]
    · exact hset
  · split
    · rw [World.data_touch, World.data_touch, hset]
    · rw [World.data_touch, hset]

/-- **A write changes the data of one block**, which is one of the file. -/
theorem wp_write_data {n : ℕ} {i : Inode} (hi : w.inode? n = some i) (hok : w.sb.Ok w.nblk)
    {pos copied : ℕ} {data : List UInt8} (hlen : 0 < data.length) :
    wp (step (.write n pos data copied)) (fun r w' => w'.sb = w.sb ∧
      (r.1 < 0 ∧ w'.view.data = w.view.data ∨ ∃ j, w'.inode? n = some j ∧
        w'.view.data = Function.update w.view.data (j.blk (pos / 4096)).toNat
          (storeBytes (w.view.data (j.blk (pos / 4096)).toNat) (pos % 4096) (data.take copied))))
      (fun _ => True) w := by
  simp only [step, wp_bind, wp_pure]
  refine wp_vfs_write hi hok hlen (fun _ => ⟨rfl, .inl ⟨by decide, rfl⟩⟩) fun hle j hj => ?_
  have hsb : (w.mapped n i (pos / 4096)).sb = w.sb := (mapped_consts _).1
  have hdata := data_mapped hok n i (pos / 4096)
  split
  · obtain ⟨-, j', hj', -, hblk, -⟩ := inode?_stored hj pos copied
      (DNO2BID w.sb (j.blk (pos / 4096)).toNat) data
    have hstored := data_stored (w.mapped n i (pos / 4096)) n j pos data copied
      (j.blk (pos / 4096)).toNat
    rw [hsb, hdata] at hstored
    refine ⟨(sb_stored _ _ _ _ _ _ _).trans hsb, .inr ⟨j', hj', ?_⟩⟩
    have hsame : j'.blk (pos / 4096) = j.blk (pos / 4096) := by rw [Inode.blk, Inode.blk, hblk]
    rw [hstored, hsame]
  · exact ⟨hsb, .inl ⟨by decide, hdata⟩⟩

/-- **A write to one file changes no other inode**, and no byte of its blocks. -/
theorem Mirrors.write_keeps (h : Mirrors w s) {n pos copied : ℕ} {data : List UInt8}
    (hop : (Op.write n pos data copied).Careful w) :
    wp (Yaf.step (.write n pos data copied)) (fun _ w' => ∀ m, w.Live m → m ≠ n → w.Keeps m w')
      (fun _ => True) w := by
  have hpre := h.careful_pre hop
  obtain ⟨hreg, hlen, -⟩ := hpre
  have hlive := h.inv.core n hreg.1
  have hf : ¬s.IsDir n := hreg.not_isDir
  refine wp_mono (wp_and (h.step hop) (wp_write_data (h.inode? hreg.1) h.held.layout hlen)) ?_
    fun _ _ => trivial
  rintro r w' ⟨⟨s', hs, h'⟩, hsb, hd⟩ m hm hne
  have hw := h.inv.wrote hlive hf hlen hs
  have hms := h.live_iff.1 hm
  have hms' : s'.Live m := by
    rw [Namespace.Live, hw.iset]
    exact hms
  have hlogical : w'.logical m = w.logical m := by
    rw [h'.logical hms', h.logical hms, hw.other m hne]
  refine ⟨h'.live_iff.2 hms', hlogical, fun k hk => ?_⟩
  rw [← hlogical, h'.logical hms'] at hk ⊢
  have hview : w'.view.data ((s'.node m).blk k).toNat = w.view.data ((s'.node m).blk k).toNat := by
    rcases hd with ⟨-, hd⟩ | ⟨j, hj, hd⟩
    · rw [hd]
    · -- a block has one owner
      have hlive' : s'.Live n := by
        rw [Namespace.Live, hw.iset]
        exact hlive
      have hnode : j = s'.node n := by
        have hlog := h'.logical hlive'
        rw [World.logical, hj] at hlog
        exact hlog
      subst j
      rw [hd, Function.update_of_ne]
      intro he
      exact hne (h'.inv.sole m n k _ hms' hlive' hk (UInt32.toNat_inj.1 he)).1
  have hdisk : w'.disk (DNO2BID w'.sb ((s'.node m).blk k).toNat) =
      w.disk (DNO2BID w.sb ((s'.node m).blk k).toNat) := hview
  rw [hsb] at hdisk
  exact hdisk

/-! ### Runs -/

/-- Every state of a run stands for a tree that knows what the log has written. -/
theorem exists_written_of_run {v : Volume} (h : v.Ok) {l : List (Op × Reply)}
    (hrun : Run step (fun w op => op.Careful w) (fresh v) l w) :
    ∃ s, Mirrors w s ∧ ∀ n, s.Live n → ¬s.IsDir n → written l n = s.bytes n := by
  rw [Volume.fresh_eq h] at hrun
  induction hrun with
  | nil => exact ⟨v.tree, (Volume.models h).toMirrors, fun _ _ _ => rfl⟩
  | snoc _ hop hr ih =>
      obtain ⟨s, hs, hm⟩ := ih
      obtain ⟨s', hstep, hs'⟩ := (hs.step hop).ok hr
      have hpre := hs.careful_pre hop
      refine ⟨s', hs', fun n hn hf => ?_⟩
      rw [written_snoc]
      exact hs.inv.record_step hpre hstep hm hn hf

/-- **What was written is read.**  In every state of a run in which the allocators find what they
look for, reading an offset of a file gives the byte that was written there last; and a write to
one file changes no other inode and no byte of the blocks of any other file or directory. -/
theorem readBack_of_run {v : Volume} (h : v.Ok) {l : List (Op × Reply)}
    (hrun : Run step (fun w op => op.Careful w) (fresh v) l w) :
    (∀ n off b, w.Live n → S_ISDIR (w.logical n).i_mode = false → written l n off = some b →
      value (vfs_read n off) (w.hold n) = .ok (.ok (some b))) ∧
    ∀ n pos data copied r w', (Op.write n pos data copied).Careful w →
      (step (.write n pos data copied)).run w = .ok (r, w') →
        ∀ m, w.Live m → m ≠ n → w.Keeps m w' := by
  obtain ⟨s, hs, hm⟩ := exists_written_of_run h hrun
  refine ⟨fun n off b hn hf hb => ?_, fun n pos data copied r w' hop hr =>
    (hs.write_keeps hop).ok hr⟩
  have hlive := hs.live_iff.1 hn
  rw [hs.logical hlive] at hf
  have hfile : ¬s.IsDir n := fun hd => absurd (hd.symm.trans hf) (by decide)
  rw [hm n hlive hfile] at hb
  exact hs.value_read hb

/-- Two files that overlap in nothing, and a block that is used again after a file was removed. -/
theorem readBack_small : ∃ l w, Run step (fun w op => op.Careful w) (fresh .small) l w ∧
    written l 2 4095 = some 7 ∧ written l 3 1 = some 9 ∧ w.Live 2 ∧
    (∀ n off b, w.Live n → S_ISDIR (w.logical n).i_mode = false → written l n off = some b →
      value (vfs_read n off) (w.hold n) = .ok (.ok (some b))) ∧
    ∀ n pos data copied r w', (Op.write n pos data copied).Careful w →
      (step (.write n pos data copied)).run w = .ok (r, w') →
        ∀ m, w.Live m → m ≠ n → w.Keeps m w' := by
  obtain ⟨l, w, hrun, hp⟩ := Volume.exists_run Volume.small_ok (fun w op => op.Careful w)
    [.create 1 (.letters 0) 0, .create 1 (.letters 1) 0, .write 2 0 [1, 2, 3] 3,
      .write 3 4096 [5] 1, .unlink 1 (.letters 0) 2, .create 1 (.letters 2) 0,
      .write 2 4095 [7] 1, .write 3 0 [8, 9] 2]
    (fun l w => decide (written l 2 4095 = some 7) && decide (written l 3 1 = some 9) &&
      w.view.iset 2) (by decide +kernel)
  rw [Bool.and_eq_true, Bool.and_eq_true, decide_eq_true_eq, decide_eq_true_eq] at hp
  obtain ⟨⟨h₂, h₃⟩, hset⟩ := hp
  exact ⟨l, w, hrun, h₂, h₃, ⟨hset, by decide⟩, readBack_of_run Volume.small_ok hrun⟩

end Yaf
