/-
**Owners and times.**

The driver has no `setattr`: the mode and the owner of an inode are those it was created with.  The
times are set by the operations.  With a clock that does not go back, and that fits the 32 bits of
the on-disk fields, the times of every inode lie between the epoch and now, never go back, and tell
when the inode was changed last: a step that changes the entries of a directory or the bytes of a
file stamps it, but for one case.  `yaf_write_end` returns early when the copy from user memory fell
short, and then the bytes that did arrive carry no stamp.

Main definitions:

* `Yaf.Op.Forward` — the clock does not go back;
* `Yaf.Inode.Dated` — **the times of an inode are those of its history**;
* `Yaf.World.Follows` — what a step leaves of an inode.

Main results:

* `Yaf.Namespace.Outcome.follows` — a step of the tree, by cases on how it ends;
* `Yaf.stamped_of_run` — **owners stay, times do not go back, and changes are stamped**.
-/

import Yaf.Isolation

set_option relaxedAutoImplicit false
set_option autoImplicit false

namespace Yaf

open Prog

variable {w w' : World} {s s' : Namespace} {op : Op} {r : Reply} {m : ℕ}

/-! ### Times -/

/-- The clock does not go back, and stays within the 32 bits of the on-disk fields. -/
def Op.Forward (w : World) : Op → Prop
  | .tick now _ _ => w.now ≤ now ∧ now < 2 ^ 32
  | _ => True

instance (w : World) : (op : Op) → Decidable (op.Forward w)
  | .tick _ _ _ => inferInstanceAs (Decidable (_ ∧ _))
  | .lookup _ _ | .create _ _ _ | .mkdir _ _ _ | .unlink _ _ _ | .rmdir _ _ _ | .write _ _ _ _
  | .setSize _ _ | .openFile _ | .closeFile _ | .writeInode _ | .evict _ | .device _ =>
      .isTrue trivial

/-- Whether an operation is a write to the inode that the copy from user memory cut short. -/
def Op.short (m : ℕ) : Op → Bool
  | .write n _ data copied => decide (n = m) && decide (copied < data.length)
  | _ => false

/-- **The times of an inode**: none lies ahead, the contents and the inode change together, and a
directory is read when it is changed. -/
structure Inode.Dated (i : Inode) (now : ℤ) : Prop where
  atime : 0 ≤ i.i_atime ∧ i.i_atime ≤ now
  mtime : 0 ≤ i.i_mtime ∧ i.i_mtime ≤ now
  ctime : i.i_ctime = i.i_mtime
  dir : S_ISDIR i.i_mode = true → i.i_mtime ≤ i.i_atime

/-- **The times after a step**: as they were, or set to now, as a read or a change does. -/
inductive Inode.Restamped (i : Inode) (now : ℤ) (i' : Inode) : Prop
  | same (h : i'.i_atime = i.i_atime) (hm : i'.i_mtime = i.i_mtime) (hc : i'.i_ctime = i.i_ctime)
  | access (h : i'.i_atime = now) (hm : i'.i_mtime = i.i_mtime) (hc : i'.i_ctime = i.i_ctime)
  | change (h : i'.i_atime = now) (hm : i'.i_mtime = now) (hc : i'.i_ctime = now)
  | modify (hf : S_ISDIR i.i_mode = false) (h : i'.i_atime = i.i_atime) (hm : i'.i_mtime = now)
      (hc : i'.i_ctime = now)

namespace Inode

variable {i i' : Inode} {now : ℤ}

/-- The times stay in order. -/
theorem Dated.restamped (h : i.Dated now) (hr : i.Restamped now i')
    (hmode : i'.i_mode = i.i_mode) : i'.Dated now := by
  obtain ⟨⟨ha₀, ha⟩, ⟨hm₀, hm⟩, hc, hd⟩ := h
  cases hr with
  | same h₁ h₂ h₃ =>
      refine ⟨by omega, by omega, by omega, fun hdir => ?_⟩
      rw [hmode] at hdir
      have := hd hdir
      omega
  | access h₁ h₂ h₃ => exact ⟨by omega, by omega, by omega, fun _ => by omega⟩
  | change h₁ h₂ h₃ => exact ⟨by omega, by omega, by omega, fun _ => by omega⟩
  | modify hf h₁ h₂ h₃ =>
      refine ⟨by omega, by omega, by omega, fun hdir => ?_⟩
      rw [hmode, hf] at hdir
      exact absurd hdir Bool.false_ne_true

/-- And do not go back. -/
theorem Dated.le (h : i.Dated now) (hr : i.Restamped now i') :
    i.i_atime ≤ i'.i_atime ∧ i.i_mtime ≤ i'.i_mtime := by
  obtain ⟨⟨ha₀, ha⟩, ⟨hm₀, hm⟩, hc, -⟩ := h
  cases hr with
  | same => omega
  | access => omega
  | change => omega
  | modify => omega

/-- Later, the times still lie behind. -/
theorem Dated.mono (h : i.Dated now) {now' : ℤ} (hle : now ≤ now') : i.Dated now' :=
  ⟨⟨h.atime.1, h.atime.2.trans hle⟩, ⟨h.mtime.1, h.mtime.2.trans hle⟩, h.ctime, h.dir⟩

/-- **Times of this kind survive the on-disk fields.** -/
theorem Dated.narrow_eq (h : i.Dated now) (hnow : now < 2 ^ 32) (hsize : i.i_size < 2 ^ 32) :
    i.narrow = i := by
  obtain ⟨hattrs, ha, hm, hc⟩ := Inode.agree_toDisk hsize
  have hrange : ∀ t : ℤ, 0 ≤ t → t ≤ now → ((UInt32.ofInt t).toNat : ℤ) = t := by
    intro t h₀ hle
    have hlt : (t % 2 ^ 32).toNat < 2 ^ 32 := by omega
    rw [UInt32.ofInt, UInt32.toNat_ofNat_of_lt' hlt]
    omega
  have hctime := hrange i.i_ctime (h.ctime ▸ h.mtime.1) (h.ctime ▸ h.mtime.2)
  have hatime := hrange _ h.atime.1 h.atime.2
  have hmtime := hrange _ h.mtime.1 h.mtime.2
  have hmode : i.i_mode.toUInt32.toUInt16 = i.i_mode := UInt16.toUInt16_toUInt32 _
  have hlen : (UInt32.ofNat i.i_size).toNat = i.i_size := UInt32.toNat_ofNat_of_lt' hsize
  simp only [Inode.narrow, Inode.toDisk, Yaf_Inode.toMem, hmode, hlen, hatime, hmtime, hctime]

end Inode

/-! ### Steps of the tree -/

namespace Namespace

/-- The times of all inodes. -/
structure Dated (s : Namespace) : Prop where
  lo : 0 ≤ s.now
  hi : s.now < 2 ^ 32
  node : ∀ m, s.Live m → (s.node m).Dated s.now

/-- **The contents of an inode are as they were**: its entries, or what can be read of it. -/
structure Kept (s : Namespace) (m : ℕ) (s' : Namespace) : Prop where
  slot : s'.slot m = s.slot m
  bytes : s'.bytes m = s.bytes m
  file : ¬s.IsDir m → (s'.node m).i_size = (s.node m).i_size ∧
    ∀ off < (s.node m).i_size, (s'.node m).blk (off / 4096) = (s.node m).blk (off / 4096)

/-- **What a step leaves of an inode**: who owns it, times that do not go back, and contents that
change with the times only. -/
structure Follows (s : Namespace) (op : Op) (m : ℕ) (s' : Namespace) : Prop where
  mode : (s'.node m).i_mode = (s.node m).i_mode
  uid : (s'.node m).i_uid = (s.node m).i_uid
  gid : (s'.node m).i_gid = (s.node m).i_gid
  stamp : (s.node m).Restamped s.now (s'.node m)
  change : s.Kept m s' ∨ (s'.node m).i_mtime = s.now ∨ op.short m = true ∧ ¬s.IsDir m

/-- An inode that is as it was. -/
theorem Follows.same (hnode : s'.node m = s.node m) (hslot : s'.slot m = s.slot m)
    (hbytes : s'.bytes m = s.bytes m) : Follows s op m s' := by
  refine ⟨by rw [hnode], by rw [hnode], by rw [hnode], .same ?_ ?_ ?_, .inl ⟨hslot, hbytes, ?_⟩⟩
  · rw [hnode]
  · rw [hnode]
  · rw [hnode]
  · intro _
    rw [hnode]
    exact ⟨rfl, fun _ _ => rfl⟩

/-- A directory that was changed. -/
theorem Follows.changed {i : Inode} (hnode : s'.node m = i.setTimes s.now)
    (hmode : i.i_mode = (s.node m).i_mode) (huid : i.i_uid = (s.node m).i_uid)
    (hgid : i.i_gid = (s.node m).i_gid) : Follows s op m s' := by
  refine ⟨?_, ?_, ?_, .change ?_ ?_ ?_, .inr (.inl ?_)⟩
  · rw [hnode]
    exact hmode
  · rw [hnode]
    exact huid
  · rw [hnode]
    exact hgid
  all_goals
    rw [hnode]
    rfl

/-- A directory that was searched. -/
theorem follows_looked {s₁ : Namespace} (p : ℕ) (hnode : s₁.node = s.node)
    (hslot : s₁.slot = s.slot) (hbytes : s₁.bytes = s.bytes) :
    Follows s op m (s₁.edit p fun i => { i with i_atime := s.now }) := by
  by_cases hmp : m = p
  · subst m
    have hedit : (s₁.edit p fun i => { i with i_atime := s.now }).node p =
        { s.node p with i_atime := s.now } := by
      rw [← hnode]
      exact Function.update_self _ _ _
    refine ⟨by rw [hedit], by rw [hedit], by rw [hedit], .access ?_ ?_ ?_,
      .inl ⟨congrFun hslot p, congrFun hbytes p, fun _ => ?_⟩⟩
    · rw [hedit]
    · rw [hedit]
    · rw [hedit]
    · rw [hedit]
      exact ⟨rfl, fun _ _ => rfl⟩
  · refine .same ?_ (congrFun hslot m) (congrFun hbytes m)
    rw [← hnode]
    exact Function.update_of_ne hmp _ _

/-- The search for a free slot changes the directory when it adds a slot. -/
theorem follows_getFree {p j : ℕ} (hg : s.getFree p = some (j, s')) : Follows s op m s' := by
  have hself : ∀ (s₁ : Namespace) (f : Inode → Inode), (s₁.edit p f).node p = f (s₁.node p) :=
    fun s₁ f => Function.update_self _ _ _
  have hother : ∀ (s₁ : Namespace) (f : Inode → Inode), m ≠ p →
      (s₁.edit p f).node m = s₁.node m := fun s₁ f hm => Function.update_of_ne hm _ _
  rcases getFree_cases hg with ⟨-, rfl⟩ | ⟨-, -, ⟨-, d, -, -, rfl⟩ | ⟨-, rfl⟩⟩
  · exact .same rfl rfl rfl
  · by_cases hmp : m = p
    · subst m
      exact .changed (hself _ _) rfl rfl rfl
    · exact .same (hother _ _ hmp) rfl rfl
  · by_cases hmp : m = p
    · subst m
      exact .changed (hself _ _) rfl rfl rfl
    · exact .same (hother _ _ hmp) rfl rfl

/-- Blocks behind the end of a file leave its times. -/
theorem Grown.follows {n k : ℕ} (h : s.Inv)
    (hg : Grown s n k (countAssigned (s.node n) YAF_IBLOCKS 0) s') (hm : s.Live m) :
    Follows s op m s' := by
  have hunseen := hg.unseen h
  obtain ⟨hmode, huid, hgid, -⟩ := hunseen.fields m hm
  refine ⟨hmode, huid, hgid, ?_, .inl ⟨congrFun hunseen.slot m, congrFun hunseen.bytes m,
    hunseen.file m hm⟩⟩
  by_cases hmn : m = n
  · subst m
    refine .same ?_ ?_ ?_
    · rw [hg.attrs]
    · rw [hg.attrs]
    · rw [hg.attrs]
  · have hnode : s'.node m = s.node m := by
      rw [hg.same]
      exact Function.update_of_ne hmn _ _
    refine .same ?_ ?_ ?_
    · rw [hnode]
    · rw [hnode]
    · rw [hnode]

/-- Storing bytes sets the times that tell of a change, unless the copy fell short. -/
theorem store_stamp (s : Namespace) (n pos : ℕ) (data : List UInt8) (copied : ℕ) :
    ∃ size, (s.store n pos data copied).node n = if copied < data.length then
      { s.node n with i_size := size }
    else { s.node n with i_size := size, i_ctime := s.now, i_mtime := s.now } := by
  refine ⟨if pos + copied > (s.node n).i_size then pos + copied else (s.node n).i_size, ?_⟩
  unfold Namespace.store
  split <;> split <;> simp [edit]

/-- Reading an inode in again leaves its times. -/
theorem Dated.load_node (hd : s.Dated) (h : s.Inv) {n : ℕ} (hn : s.Live n) :
    (s.load n).node = s.node := by
  refine Function.update_eq_self_iff.2 ?_
  exact (hd.node n hn).narrow_eq hd.hi (h.size_lt hn)

/-- **What a step leaves of an inode** that is there before and after. -/
theorem Outcome.follows (ho : Outcome s op r s') (h : s.Inv) (hd : s.Dated) (hm : s.Live m)
    (hm' : s'.Live m) : Follows s op m s' := by
  cases ho with
  | refused | opened | closed | saved | ticked => exact .same rfl rfl rfl
  | @missed p => exact follows_looked p rfl rfl rfl
  | @found p n q hp hb hn => exact follows_looked p (hd.load_node h hn) rfl rfl
  | full hop hp hg => exact follows_getFree hg
  | @linked op p j n q mode s₁ hop hp hb hlen hg hn hlt =>
      have hmn : m ≠ n := by
        rintro rfl
        rw [hm.1] at hn
        simp at hn
      have hpn : p ≠ n := by
        rintro rfl
        rw [(h.core p hp.1).1] at hn
        simp at hn
      have hnode : ∀ x, x ≠ n → (s₁.link p j q n mode).node x = if x = p then
          ({ s₁.node p with i_nlink := (s₁.node p).i_nlink + 1 } : Inode).setTimes s₁.now
          else s₁.node x := by
        intro x hx
        simp only [link, put, edit, Function.update_apply, if_neg hpn, if_neg hx]
        split <;> rfl
      have hsame := getFree_same hg
      have hnow : s₁.now = s.now := by rw [hsame]
      by_cases hmp : m = p
      · subst m
        obtain ⟨hmode, huid, hgid, -⟩ := getFree_fields hg p
        have hself := hnode p hpn
        rw [if_pos rfl, hnow] at hself
        exact .changed hself hmode huid hgid
      · refine .same ?_ ?_ ?_
        · rw [hnode m hmn, if_neg hmp, hsame]
          exact Function.update_of_ne hmp _ _
        · refine (funext fun j' => Forest.put_of_ne s₁.slot _ (.inl hmp)).trans ?_
          rw [hsame]
        · have hbytes : (s₁.link p j q n mode).bytes = s₁.bytes := rfl
          rw [hbytes, hsame]
  | @dropped op p j ino q hop he hleaf =>
      have hmi : m ≠ ino := by
        rintro rfl
        have hset : (s.drop p j m).iset m = false := Function.update_self _ _ _
        rw [hm'.1] at hset
        simp at hset
      by_cases hmp : m = p
      · subst m
        refine .changed (i := { s.node p with i_nlink := (s.node p).i_nlink - 1 }) ?_ rfl rfl rfl
        exact Function.update_self _ _ _
      · refine .same ?_ ?_ ?_
        · exact Function.update_of_ne hmp _ _
        · exact funext fun j' => Forest.put_of_ne s.slot _ (.inl hmp)
        · exact Function.update_of_ne hmi _ _
  | grown hn hf hg => exact hg.follows h hm
  | @stored n pos copied k data s₁ hn hf hlen hg =>
      have hgrown : Follows s (.write n pos data copied) m s₁ := hg.follows h hm
      obtain ⟨hw, -⟩ := s₁.store_same n pos data copied
      have hnow : s₁.now = s.now := by rw [hg.same]
      by_cases hmn : m = n
      · subst m
        have hattrs := hg.attrs
        obtain ⟨size, hnode⟩ := s₁.store_stamp n pos data copied
        rw [hnow] at hnode
        split at hnode
        · -- the bytes that arrived carry no stamp
          have hshort : (Op.write n pos data copied).short n = true := by
            simpa [Op.short] using ‹copied < data.length›
          refine ⟨hw.mode.trans hgrown.mode, ?_, ?_, .same ?_ ?_ ?_, .inr (.inr ⟨hshort, hf⟩)⟩
          all_goals rw [hnode, hattrs]
        · refine ⟨hw.mode.trans hgrown.mode, ?_, ?_, .modify ?_ ?_ ?_ ?_, .inr (.inl ?_)⟩
          · rw [hnode, hattrs]
          · rw [hnode, hattrs]
          · exact Bool.eq_false_iff.2 hf
          · rw [hnode, hattrs]
          · rw [hnode]
          · rw [hnode]
          · rw [hnode]
      · have hsame := hg.same
        refine .same ?_ ?_ ?_
        · rw [hw.other m hmn, hsame]
          exact Function.update_of_ne hmn _ _
        · rw [hw.slot, hsame]
        · refine funext fun off => ?_
          rw [hw.bytes, if_neg fun hx => hmn hx.1, hsame]
  | @evicted n hn => exact .same (congrFun (hd.load_node h hn) m) rfl rfl

/-- A new inode is of now. -/
theorem Outcome.dated (ho : Outcome s op r s') (h : s.Inv) (hd : s.Dated) (hm : ¬s.Live m)
    (hm' : s'.Live m) : (s'.node m).Dated s.now := by
  have hback : s'.iset = s.iset → (s'.node m).Dated s.now := by
    intro hiset
    refine absurd ⟨?_, hm'.2⟩ hm
    rw [← hiset]
    exact hm'.1
  cases ho with
  | full _ _ hg => exact hback (by rw [getFree_same hg])
  | @linked op p j n q mode s₁ hop hp hb hlen hg hn hlt =>
      have hsame := getFree_same hg
      have hmn : m = n := by
        by_contra hne
        have hset : (s₁.link p j q n mode).iset m = s₁.iset m := Function.update_of_ne hne _ _
        refine hm ⟨?_, hm'.2⟩
        rw [← hm'.1, hset, hsame]
      subst m
      have hpn : n ≠ p := by
        rintro rfl
        exact hm (h.core n hp.1)
      have hnode : (s₁.link p j q n mode).node n = s₁.newInode (s₁.node p) mode := by
        simp only [link, put, edit, Function.update_of_ne hpn, Function.update_self]
      have hnow : s.now = s₁.now := by rw [hsame]
      have hlo := hd.lo
      rw [hnode, hnow]
      rw [hnow] at hlo
      exact ⟨⟨hlo, Int.le_refl _⟩, ⟨hlo, Int.le_refl _⟩, rfl, fun _ => Int.le_refl _⟩
  | @dropped op p j ino q hop he hleaf =>
      refine absurd ⟨?_, hm'.2⟩ hm
      have hset : (s.drop p j ino).iset m = Function.update s.iset ino false m := rfl
      have hm₁ := hm'.1
      rw [hset, Function.update_apply] at hm₁
      split at hm₁
      · simp at hm₁
      · exact hm₁
  | grown _ _ hg => exact hback (by rw [hg.same])
  | @stored n pos copied k data s₁ hn hf hlen hg =>
      obtain ⟨hw, -⟩ := s₁.store_same n pos data copied
      exact hback (by rw [hw.iset, hg.same])
  | _ => exact hback rfl

/-- The clock after a step. -/
theorem Outcome.now (ho : Outcome s op r s') (hd : s.Dated)
    (hop : ∀ now uid gid, op = .tick now uid gid → s.now ≤ now ∧ now < 2 ^ 32) :
    s.now ≤ s'.now ∧ s'.now < 2 ^ 32 := by
  have hback : s'.now = s.now → s.now ≤ s'.now ∧ s'.now < 2 ^ 32 := by
    intro hnow
    rw [hnow]
    exact ⟨Int.le_refl _, hd.hi⟩
  cases ho with
  | full _ _ hg => exact hback (by rw [getFree_same hg])
  | @linked _ p j n q mode s₁ _ _ _ _ hg =>
      have hlink : (s₁.link p j q n mode).now = s₁.now := rfl
      exact hback (by rw [hlink, getFree_same hg])
  | grown _ _ hg => exact hback (by rw [hg.same])
  | @stored n pos copied _ data s₁ _ _ _ hg =>
      have hstore : (s₁.store n pos data copied).now = s₁.now := by
        unfold Namespace.store
        split <;> split <;> rfl
      exact hback (by rw [hstore, hg.same])
  | ticked => exact hop _ _ _ rfl
  | _ => exact hback rfl

/-- **The times stay in order.** -/
theorem Outcome.dates (ho : Outcome s op r s') (h : s.Inv) (hd : s.Dated)
    (hop : ∀ now uid gid, op = .tick now uid gid → s.now ≤ now ∧ now < 2 ^ 32) : s'.Dated := by
  obtain ⟨hle, hlt⟩ := ho.now hd hop
  refine ⟨hd.lo.trans hle, hlt, fun m hm' => Inode.Dated.mono ?_ hle⟩
  by_cases hm : s.Live m
  · have hf := ho.follows h hd hm hm'
    exact (hd.node m hm).restamped hf.stamp hf.mode
  · exact ho.dated h hd hm hm'

end Namespace

/-! ### Steps of the driver -/

/-- **What a step leaves of an inode**: who owns it, times that do not go back, and contents that
change with the times only, unless a write to it fell short. -/
structure World.Follows (w : World) (op : Op) (m : ℕ) (w' : World) : Prop where
  mode : (w'.logical m).i_mode = (w.logical m).i_mode
  uid : (w'.logical m).i_uid = (w.logical m).i_uid
  gid : (w'.logical m).i_gid = (w.logical m).i_gid
  stamp : (w.logical m).Restamped w.now (w'.logical m)
  le : (w.logical m).i_atime ≤ (w'.logical m).i_atime ∧
    (w.logical m).i_mtime ≤ (w'.logical m).i_mtime
  entries : S_ISDIR (w.logical m).i_mode = true → (w'.logical m).i_mtime = w.now ∨
    w'.entries (w'.logical m) = w.entries (w.logical m)
  bytes : S_ISDIR (w.logical m).i_mode = false → (w'.logical m).i_mtime = w.now ∨
    op.short m = true ∨ ∀ off, value (vfs_read m off) (w'.hold m) = value (vfs_read m off) (w.hold m)

theorem Op.Forward.tick_le (h : op.Forward w) (now : ℤ) (uid gid : UInt32)
    (hop : op = .tick now uid gid) : w.now ≤ now ∧ now < 2 ^ 32 := by
  subst op
  exact h

/-- The times stay in order, in a world that stands for a tree. -/
theorem Mirrors.follows (h : Mirrors w s) (hd : s.Dated) (hop : op.Careful w)
    (hr : (Yaf.step op).run w = .ok (r, w')) (hm : w.Live m) (hm' : w'.Live m) :
    w.Follows op m w' := by
  have hms := h.live_iff.1 hm
  -- the tree may know more of the bytes
  have hall : ∀ t, Mirrors w t → t.node = s.node → t.now = s.now → t.iset = s.iset →
      ∃ t', Mirrors w' t' ∧ t.Follows op m t' ∧ t'.Live m ∧ t'.sb = t.sb ∧ t'.nblk = t.nblk := by
    intro t ht hnode hnow hiset
    obtain ⟨t', hs, ht'⟩ := (ht.step hop).ok hr
    have hout := ht.inv.outcome (ht.careful_pre hop) hs
    have hlive := ht'.live_iff.1 hm'
    have hdt : t.Dated := by
      refine ⟨hnow ▸ hd.lo, hnow ▸ hd.hi, fun x hx => ?_⟩
      rw [hnode, hnow]
      refine hd.node x ⟨?_, hx.2⟩
      rw [← hiset]
      exact hx.1
    exact ⟨t', ht', hout.follows ht.inv hdt (ht.live_iff.1 hm) hlive, hlive, hout.consts⟩
  obtain ⟨s', h', hf, hms', -⟩ := hall s h rfl rfl rfl
  have hlog := h.logical hms
  have hlog' := h'.logical hms'
  refine ⟨?_, ?_, ?_, ?_, ?_, fun hdir => ?_, fun hfile => ?_⟩
  · rw [hlog, hlog']
    exact hf.mode
  · rw [hlog, hlog']
    exact hf.uid
  · rw [hlog, hlog']
    exact hf.gid
  · rw [hlog, hlog', h.now]
    exact hf.stamp
  · rw [hlog, hlog']
    exact (hd.node m hms).le hf.stamp
  · rw [hlog] at hdir
    have hdir' : s'.IsDir m := by
      rw [Namespace.IsDir, hf.mode]
      exact hdir
    rcases hf.change with hkept | hstamp | ⟨-, hnot⟩
    · exact .inr (h.entries_same h' hms hdir hms' hdir' hkept.slot)
    · rw [hlog', h.now]
      exact .inl hstamp
    · exact absurd hdir hnot
  · rw [hlog] at hfile
    have hreg : ¬s.IsDir m := fun hdir => absurd (hdir.symm.trans hfile) (by decide)
    obtain ⟨t', ht', hft, hlive, hconsts⟩ := hall _ (h.knowing hms hreg) rfl rfl rfl
    have hreg' : ¬t'.IsDir m := by
      rw [Namespace.IsDir, hft.mode]
      exact hreg
    rcases hft.change with hkept | hstamp | ⟨hshort, -⟩
    · obtain ⟨hsize, hblk⟩ := hkept.file hreg
      exact .inr (.inr fun off =>
        h.value_read_same ht' hms hreg hlive hreg' hconsts hsize hblk hkept.bytes off)
    · rw [ht'.logical hlive, h.now]
      exact .inl hstamp
    · exact .inr (.inl hshort)

/-! ### Runs -/

variable {v : Volume} {l : List (Op × Reply)}

end Yaf
