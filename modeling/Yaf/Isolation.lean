/-
**An operation changes what it names, and nothing else.**

An operation is given the numbers of the inodes it works on.  Every other inode that is allocated
stays as it was: its attributes, its entries if it is a directory, and every byte that can be read
of it if it is a file, also the bytes that were left in a block by others.  An operation that is
refused leaves all this even for the inodes it names, and so does a removal right after the creation
that it removes.

Main definitions:

* `Yaf.Op.touches` — the inodes an operation names;
* `Yaf.World.Unmoved` — **an inode is as it was**;
* `Yaf.World.Unseen` — **nothing that can be seen changed**.

Main results:

* `Yaf.Namespace.Outcome.untouched`, `Yaf.Namespace.Outcome.failed` — the same of the tree;
* `Yaf.isolated_of_run` — **no operation changes an inode it does not name**;
* `Yaf.refused_of_run` — **an operation that is refused cannot be seen**;
* `Yaf.undone_of_run` — **a removal undoes the creation** before it.
-/

import Yaf.Gaps
import Yaf.Outcome

set_option relaxedAutoImplicit false
set_option autoImplicit false

namespace Yaf

open Prog

variable {w w' : World} {s s' : Namespace} {op : Op} {r : Reply} {m : ℕ}

/-! ### Inodes that a step of the tree does not name -/

/-- The inodes an operation names. -/
def Op.touches : Op → List ℕ
  | .lookup p _ | .create p _ _ | .mkdir p _ _ => [p]
  | .unlink p _ ino | .rmdir p _ ino => [p, ino]
  | .write n _ _ _ => [n]
  | _ => []

theorem Op.touches_of_makes {p : ℕ} {q : Qstr} {mode : UInt16}
    (h : op.makes = some (p, q, mode)) : op.touches = [p] := by
  cases op with
  | create | mkdir =>
      cases h
      rfl
  | _ => simp [Op.makes] at h

theorem Op.touches_of_takes {p ino : ℕ} {q : Qstr} (h : op.takes = some (p, q, ino)) :
    op.touches = [p, ino] := by
  cases op with
  | unlink | rmdir =>
      cases h
      rfl
  | _ => simp [Op.takes] at h

namespace Namespace

/-- **An inode of the tree is as it was**, up to its times. -/
structure Unmoved (s : Namespace) (m : ℕ) (s' : Namespace) : Prop where
  live : s'.Live m
  attrs : (s'.node m).attrs = (s.node m).attrs
  slot : s'.slot m = s.slot m
  bytes : s'.bytes m = s.bytes m

/-- A change of another inode, which keeps what is allocated. -/
theorem Unmoved.of_node (hm : s.Live m) (hiset : s'.iset m = s.iset m)
    (hnode : (s'.node m).attrs = (s.node m).attrs) (hslot : s'.slot m = s.slot m)
    (hbytes : s'.bytes m = s.bytes m) : Unmoved s m s' :=
  ⟨⟨hiset.trans hm.1, hm.2⟩, hnode, hslot, hbytes⟩

/-- A new entry and its inode leave the other inodes. -/
theorem link_unmoved (s : Namespace) {p j n : ℕ} (q : Qstr) (mode : UInt16) (hm : s.Live m)
    (hmp : m ≠ p) (hmn : m ≠ n) : Unmoved s m (s.link p j q n mode) := by
  refine .of_node hm ?_ ?_ ?_ rfl
  · exact Function.update_of_ne hmn _ _
  · simp only [link, put, edit]
    rw [Function.update_of_ne hmp, Function.update_of_ne hmn]
  · exact funext fun j' => Forest.put_of_ne s.slot _ (.inl hmp)

/-- Storing bytes in a file leaves the other inodes. -/
theorem store_unmoved (s : Namespace) {n : ℕ} (pos : ℕ) (data : List UInt8) (copied : ℕ)
    (hm : s.Live m) (hmn : m ≠ n) : Unmoved s m (s.store n pos data copied) := by
  obtain ⟨hw, -⟩ := s.store_same n pos data copied
  refine .of_node hm (congrFun hw.iset m) ?_ (congrFun hw.slot m) (funext fun off => ?_)
  · rw [hw.other m hmn]
  · rw [hw.bytes, if_neg fun h => hmn h.1]

theorem Unmoved.trans {s₁ s₂ : Namespace} (h : Unmoved s m s₁) (h' : Unmoved s₁ m s₂) :
    Unmoved s m s₂ :=
  ⟨h'.live, h'.attrs.trans h.attrs, h'.slot.trans h.slot, h'.bytes.trans h.bytes⟩

/-- The search for a free slot leaves the other inodes. -/
theorem getFree_unmoved {p j : ℕ} (hg : s.getFree p = some (j, s')) (hm : s.Live m)
    (hmp : m ≠ p) : Unmoved s m s' := by
  have hsame := getFree_same hg
  refine .of_node hm ?_ ?_ ?_ ?_
  · rw [hsame]
  · rw [hsame]
    dsimp only
    rw [Function.update_of_ne hmp]
  · rw [hsame]
  · rw [hsame]

/-- More blocks for a file leave the other inodes. -/
theorem Grown.unmoved {n k l : ℕ} (hg : Grown s n k l s') (hm : s.Live m) (hmn : m ≠ n) :
    Unmoved s m s' := by
  have hsame := hg.same
  refine .of_node hm ?_ ?_ ?_ ?_
  · rw [hsame]
  · rw [hsame]
    dsimp only
    rw [Function.update_of_ne hmn]
  · rw [hsame]
  · rw [hsame]

/-- **A step leaves every inode that the operation does not name.** -/
theorem Outcome.untouched (ho : Outcome s op r s') (h : s.Inv) (hm : s.Live m)
    (hne : m ∉ op.touches) : Unmoved s m s' := by
  -- only the access time of a directory
  have htime : ∀ (s₁ : Namespace) (p : ℕ), ((s₁.edit p fun i => { i with i_atime := s.now }).node
      m).attrs = (s₁.node m).attrs := by
    intro s₁ p
    simp only [Namespace.edit, Function.update_apply]
    split
    · rw [‹m = p›]
      rfl
    · rfl
  cases ho with
  | refused => exact ⟨hm, rfl, rfl, rfl⟩
  | @missed p => exact .of_node hm rfl (htime s p) rfl rfl
  | @found p n q hp hb hn =>
      refine .of_node hm rfl ((htime (s.load n) p).trans ?_) rfl rfl
      simp only [Namespace.load, Function.update_apply]
      split
      · subst m
        exact h.attrs_narrow hn
      · rfl
  | full hop hp hg =>
      rw [Op.touches_of_makes hop, List.mem_singleton] at hne
      exact getFree_unmoved hg hm hne
  | @linked op p j n q mode s₁ hop hp hb hlen hg hn hlt =>
      rw [Op.touches_of_makes hop, List.mem_singleton] at hne
      have hmn : m ≠ n := by
        rintro rfl
        rw [hm.1] at hn
        simp at hn
      have hfree := getFree_unmoved hg hm hne
      exact hfree.trans (s₁.link_unmoved q mode hfree.live hne hmn)
  | @dropped op p j ino q hop he hleaf =>
      rw [Op.touches_of_takes hop, List.mem_cons, List.mem_singleton, not_or] at hne
      refine .of_node hm ?_ ?_ ?_ ?_
      · exact Function.update_of_ne hne.2 _ _
      · simp only [drop, put, edit]
        rw [Function.update_of_ne hne.1]
      · exact funext fun j' => Forest.put_of_ne s.slot _ (.inl hne.1)
      · exact Function.update_of_ne hne.2 _ _
  | grown hn hf hg => exact hg.unmoved hm fun he => hne (List.mem_singleton.2 he)
  | @stored n pos copied k data s₁ hn hf hlen hg =>
      have hmn : m ≠ n := fun he => hne (List.mem_singleton.2 he)
      have hgrown := hg.unmoved hm hmn
      exact hgrown.trans (s₁.store_unmoved pos data copied hgrown.live hmn)
  | opened | closed | saved | ticked => exact .of_node hm rfl rfl rfl rfl
  | @evicted n hn =>
      refine .of_node hm rfl ?_ rfl rfl
      dsimp only
      rw [Function.update_apply]
      split
      · subst m
        exact h.attrs_narrow hn
      · rfl

/-- A step keeps what the superblock says, and the size of the device. -/
theorem Outcome.consts (ho : Outcome s op r s') : s'.sb = s.sb ∧ s'.nblk = s.nblk := by
  have hgrown : ∀ {n k l s₁}, Grown s n k l s₁ → s₁.sb = s.sb ∧ s₁.nblk = s.nblk := by
    intro n k l s₁ hg
    rw [hg.same]
    exact ⟨rfl, rfl⟩
  have hfree : ∀ {p j s₁}, s.getFree p = some (j, s₁) → s₁.sb = s.sb ∧ s₁.nblk = s.nblk := by
    intro p j s₁ hg
    rw [getFree_same hg]
    exact ⟨rfl, rfl⟩
  cases ho with
  | full _ _ hg => exact hfree hg
  | @linked _ p j n q mode s₁ _ _ _ _ hg =>
      have hlink : (s₁.link p j q n mode).sb = s₁.sb ∧ (s₁.link p j q n mode).nblk = s₁.nblk :=
        ⟨rfl, rfl⟩
      exact ⟨hlink.1.trans (hfree hg).1, hlink.2.trans (hfree hg).2⟩
  | grown _ _ hg => exact hgrown hg
  | @stored n pos copied _ data s₁ _ _ _ hg =>
      obtain ⟨-, -, -, hsb, hnblk⟩ := s₁.store_same n pos data copied
      exact ⟨hsb.trans (hgrown hg).1, hnblk.trans (hgrown hg).2⟩
  | _ => exact ⟨rfl, rfl⟩

/-! ### Steps of the tree that cannot be seen -/

/-- **Nothing that can be seen of the tree changed**: up to times, slots that are free, and blocks
behind the end of a file. -/
structure Unseen (s s' : Namespace) : Prop where
  iset : s'.iset = s.iset
  slot : s'.slot = s.slot
  bytes : s'.bytes = s.bytes
  fields : ∀ m, s.Live m → (s'.node m).i_mode = (s.node m).i_mode ∧
    (s'.node m).i_uid = (s.node m).i_uid ∧ (s'.node m).i_gid = (s.node m).i_gid ∧
      (s'.node m).i_nlink = (s.node m).i_nlink
  file : ∀ m, s.Live m → ¬s.IsDir m → (s'.node m).i_size = (s.node m).i_size ∧
    ∀ off < (s.node m).i_size, (s'.node m).blk (off / 4096) = (s.node m).blk (off / 4096)

/-- The search for a free slot changes the size, the times and the block map of the directory. -/
theorem getFree_fields {p j : ℕ} (hg : s.getFree p = some (j, s')) (n : ℕ) :
    (s'.node n).i_mode = (s.node n).i_mode ∧ (s'.node n).i_uid = (s.node n).i_uid ∧
      (s'.node n).i_gid = (s.node n).i_gid ∧ (s'.node n).i_nlink = (s.node n).i_nlink := by
  have hedit : ∀ (s₁ : Namespace) (f : Inode → Inode), (∀ i : Inode, (f i).i_mode = i.i_mode ∧
      (f i).i_uid = i.i_uid ∧ (f i).i_gid = i.i_gid ∧ (f i).i_nlink = i.i_nlink) →
      ((s₁.edit p f).node n).i_mode = (s₁.node n).i_mode ∧
        ((s₁.edit p f).node n).i_uid = (s₁.node n).i_uid ∧
          ((s₁.edit p f).node n).i_gid = (s₁.node n).i_gid ∧
            ((s₁.edit p f).node n).i_nlink = (s₁.node n).i_nlink := by
    intro s₁ f hf
    simp only [edit, Function.update_apply]
    split
    · rw [‹n = p›]
      exact hf _
    · exact ⟨rfl, rfl, rfl, rfl⟩
  rcases getFree_cases hg with ⟨-, rfl⟩ | ⟨-, -, ⟨-, d, -, -, rfl⟩ | ⟨-, rfl⟩⟩
  · exact ⟨rfl, rfl, rfl, rfl⟩
  · exact hedit _ _ fun _ => ⟨rfl, rfl, rfl, rfl⟩
  · exact hedit _ _ fun _ => ⟨rfl, rfl, rfl, rfl⟩

/-- **The search for a free slot cannot be seen.** -/
theorem getFree_unseen {p j : ℕ} (hg : s.getFree p = some (j, s')) (hd : s.IsDir p) :
    Unseen s s' := by
  have hsame := getFree_same hg
  refine ⟨by rw [hsame], by rw [hsame], by rw [hsame], fun m _ => getFree_fields hg m,
    fun m hm hf => ?_⟩
  have hmp : m ≠ p := by
    rintro rfl
    exact hf hd
  have hattrs := (getFree_unmoved hg hm hmp).attrs
  exact ⟨size_congr hattrs, fun off _ => blk_congr hattrs _⟩

/-- Nor can blocks that a file is given behind its end. -/
theorem Grown.unseen {n k : ℕ} (h : s.Inv)
    (hg : Grown s n k (countAssigned (s.node n) YAF_IBLOCKS 0) s') : Unseen s s' := by
  have hsame := hg.same
  have hnode : ∀ m, s'.node m = if m = n then
      { s.node n with i_block := (s'.node n).i_block } else s.node m := by
    intro m
    split
    · rw [‹m = n›]
      exact hg.attrs
    · rw [hsame]
      exact Function.update_of_ne ‹_› _ _
  refine ⟨by rw [hsame], by rw [hsame], by rw [hsame], fun m _ => ?_, fun m hm hfm => ?_⟩
  · rw [hnode]
    split
    · rw [‹m = n›]
      exact ⟨rfl, rfl, rfl, rfl⟩
    · exact ⟨rfl, rfl, rfl, rfl⟩
  · by_cases hmn : m = n
    · subst m
      refine ⟨by rw [hg.attrs], fun off hoff => hg.old _ ?_⟩
      exact (h.file n hm hfm).lt_countAssigned hoff
    · rw [hnode, if_neg hmn]
      exact ⟨rfl, fun _ _ => rfl⟩

/-- **A step that is refused cannot be seen.** -/
theorem Outcome.failed (ho : Outcome s op r s') (h : s.Inv) (hr : r.1 < 0) : Unseen s s' := by
  cases ho with
  | refused => exact ⟨rfl, rfl, rfl, fun _ _ => ⟨rfl, rfl, rfl, rfl⟩, fun _ _ _ => ⟨rfl, fun _ _ => rfl⟩⟩
  | full hop hp hg => exact getFree_unseen hg hp.2
  | grown hn hf hg => exact hg.unseen h
  | stored => exact absurd hr (Int.not_lt.2 (Int.natCast_nonneg _))
  | _ => exact absurd hr (Int.lt_irrefl 0)

end Namespace

/-! ### What can be read of a file -/

/-- **Reading any offset of a file**, whatever its blocks hold. -/
theorem Mirrors.value_read_eq (h : Mirrors w s) (hm : s.Live m) (hf : ¬s.IsDir m) (off : ℕ) :
    value (vfs_read m off) (w.hold m) = .ok (if off < (s.node m).i_size then
      if DNO2BID s.sb ((s.node m).blk (off / 4096)).toNat < s.nblk then
        .ok (some (w.view.data ((s.node m).blk (off / 4096)).toNat (off % 4096)))
      else .error (- EIO)
    else .ok none) := by
  obtain ⟨hsb, hnblk, hio, hdisk⟩ := w.hold_consts m
  have hi := w.inode?_hold m
  rw [h.logical hm] at hi
  by_cases hoff : off < (s.node m).i_size
  · refine value_of_wp ((wp_vfs_read hi hoff ((h.inv.file m hm hf).lt_countAssigned hoff)).2 ?_)
    have hrd : (w.hold m).readable .page (DNO2BID (w.hold m).sb
        ((s.node m).blk (off / 4096)).toNat) =
          decide (DNO2BID s.sb ((s.node m).blk (off / 4096)).toNat < s.nblk) := by
      rw [World.readable, hnblk, hsb, hio, h.io, h.sb, h.nblk]
      simp [ioOk]
    rw [hrd, if_pos hoff, hsb, hdisk]
    by_cases hdev : DNO2BID s.sb ((s.node m).blk (off / 4096)).toNat < s.nblk
    · rw [decide_eq_true hdev, if_pos hdev]
      rfl
    · rw [decide_eq_false hdev, if_neg hdev]
      rfl
  · rw [if_neg hoff]
    refine value_of_wp ?_
    rw [vfs_read, wp_bind, wp_getInode hi, if_neg hoff]
    rfl

/-- The tree that knows of one file every byte that is on the device, and nothing else. -/
def Namespace.knowing (s : Namespace) (w : World) (m : ℕ) : Namespace := { s with
  bytes := fun n off => if n = m ∧ off < (s.node m).i_size ∧
      DNO2BID s.sb ((s.node m).blk (off / 4096)).toNat < s.nblk then
    some (w.view.data ((s.node m).blk (off / 4096)).toNat (off % 4096))
  else none }

theorem Mirrors.knowing (h : Mirrors w s) (hm : s.Live m) (hf : ¬s.IsDir m) :
    Mirrors w (s.knowing w m) := by
  refine h.learn fun n off b hb => .inr ?_
  split at hb
  · obtain ⟨rfl, hoff, hdev⟩ := ‹_ ∧ _›
    exact ⟨hm, hf, hoff, hdev, Option.some.inj hb⟩
  · simp at hb

/-- **The same can be read** of a file with the same size, blocks and bytes. -/
theorem Mirrors.value_read_same (h : Mirrors w s) (h' : Mirrors w' s') (hm : s.Live m)
    (hf : ¬s.IsDir m) (hm' : s'.Live m) (hf' : ¬s'.IsDir m)
    (hconsts : s'.sb = s.sb ∧ s'.nblk = s.nblk) (hsize : (s'.node m).i_size = (s.node m).i_size)
    (hblk : ∀ off < (s.node m).i_size, (s'.node m).blk (off / 4096) = (s.node m).blk (off / 4096))
    (hbytes : s'.bytes m = (s.knowing w m).bytes m) (off : ℕ) :
    value (vfs_read m off) (w'.hold m) = value (vfs_read m off) (w.hold m) := by
  rw [h.value_read_eq hm hf, h'.value_read_eq hm' hf', hsize, hconsts.1, hconsts.2]
  by_cases hoff : off < (s.node m).i_size
  · rw [if_pos hoff, if_pos hoff, hblk off hoff]
    by_cases hdev : DNO2BID s.sb ((s.node m).blk (off / 4096)).toNat < s.nblk
    · rw [if_pos hdev, if_pos hdev]
      have hknown : s'.bytes m off =
          some (w.view.data ((s.node m).blk (off / 4096)).toNat (off % 4096)) := by
        rw [hbytes]
        exact if_pos ⟨rfl, hoff, hdev⟩
      have hdata := h'.stores m off _ hknown
      rw [hblk off hoff] at hdata
      rw [hdata]
    · rw [if_neg hdev, if_neg hdev]
  · rw [if_neg hoff, if_neg hoff]

/-! ### Inodes that an operation does not name -/

/-- **An inode is as it was**: its attributes, its entries, and what can be read of it. -/
structure World.Unmoved (w : World) (m : ℕ) (w' : World) : Prop where
  live : w'.Live m
  attrs : (w'.logical m).attrs = (w.logical m).attrs
  entries : S_ISDIR (w.logical m).i_mode = true →
    w'.entries (w'.logical m) = w.entries (w.logical m)
  bytes : S_ISDIR (w.logical m).i_mode = false → ∀ off,
    value (vfs_read m off) (w'.hold m) = value (vfs_read m off) (w.hold m)

/-- The entries of a directory with the same slots. -/
theorem Mirrors.entries_same (h : Mirrors w s) (h' : Mirrors w' s') (hm : s.Live m)
    (hd : s.IsDir m) (hm' : s'.Live m) (hd' : s'.IsDir m) (hslot : s'.slot m = s.slot m) :
    w'.entries (w'.logical m) = w.entries (w.logical m) := by
  have hmono : ∀ {t : Namespace} {k : ℕ}, t.Inv → t.count m ≤ k →
      ((List.range k).filterMap fun j => (t.slot m j).map entryOf) =
        (List.range (t.count m)).filterMap fun j => (t.slot m j).map entryOf := by
    intro t k ht hk
    induction k, hk using Nat.le_induction with
    | base => rfl
    | succ k hk ih =>
        rw [List.range_succ, List.filterMap_append, ih, List.filterMap_cons, ht.slot_of_le hk]
        exact List.append_nil _
  -- free slots at the end emit nothing
  rw [h.entries_eq hm hd, h'.entries_eq hm' hd', ← hmono h.inv (Nat.le_max_left _ (s'.count m)),
    ← hmono h'.inv (Nat.le_max_right (s.count m) _), hslot]

/-- An inode that is as it was in the trees that the worlds stand for, whichever they are. -/
theorem Mirrors.unmoved_of_trees (h : Mirrors w s) (hm : w.Live m)
    (hall : ∀ t, Mirrors w t → t.node = s.node → t.core = s.core → t.dset = s.dset → t.Live m →
      ∃ t', Mirrors w' t' ∧ t.Unmoved m t' ∧ t'.sb = t.sb ∧ t'.nblk = t.nblk) :
    w.Unmoved m w' := by
  have hms := h.live_iff.1 hm
  obtain ⟨s', h', hun, -⟩ := hall s h rfl rfl rfl hms
  have hdir : s'.IsDir m ↔ s.IsDir m := by
    rw [Namespace.IsDir, Namespace.IsDir, Namespace.mode_congr hun.attrs]
  refine ⟨h'.live_iff.2 hun.live, ?_, fun hd => ?_, fun hf => ?_⟩
  · rw [h.logical hms, h'.logical hun.live]
    exact hun.attrs
  · rw [h.logical hms] at hd
    exact h.entries_same h' hms hd hun.live (hdir.2 hd) hun.slot
  · rw [h.logical hms] at hf
    have hfile : ¬s.IsDir m := fun hd => absurd (hd.symm.trans hf) (by decide)
    obtain ⟨t', ht', hun', hconsts⟩ := hall _ (h.knowing hms hfile) rfl rfl rfl hms
    have hfile' : ¬t'.IsDir m := by
      rw [Namespace.IsDir, Namespace.mode_congr hun'.attrs]
      exact hfile
    exact h.value_read_same ht' hms hfile hun'.live hfile' hconsts
      (Namespace.size_congr hun'.attrs) (fun off _ => Namespace.blk_congr hun'.attrs _) hun'.bytes

/-- **A step leaves every inode that the operation does not name**, in a world that stands for a
tree. -/
theorem Mirrors.unmoved (h : Mirrors w s) (hop : op.Careful w)
    (hr : (Yaf.step op).run w = .ok (r, w')) (hm : w.Live m) (hne : m ∉ op.touches) :
    w.Unmoved m w' := by
  refine h.unmoved_of_trees hm fun t ht _ _ _ hmt => ?_
  obtain ⟨t', hs, ht'⟩ := (ht.step hop).ok hr
  have hout := ht.inv.outcome (ht.careful_pre hop) hs
  exact ⟨t', ht', hout.untouched ht.inv hmt hne, hout.consts⟩

/-! ### Operations that cannot be seen -/

/-- **Nothing that can be seen changed**: the inodes that are allocated, their modes, owners and
link counts, the entries of the directories, and what can be read of the files. -/
structure World.Unseen (w w' : World) : Prop where
  live : ∀ m, w'.Live m ↔ w.Live m
  fields : ∀ m, w.Live m → (w'.logical m).i_mode = (w.logical m).i_mode ∧
    (w'.logical m).i_uid = (w.logical m).i_uid ∧ (w'.logical m).i_gid = (w.logical m).i_gid ∧
      (w'.logical m).i_nlink = (w.logical m).i_nlink
  entries : ∀ m, w.Live m → S_ISDIR (w.logical m).i_mode = true →
    w'.entries (w'.logical m) = w.entries (w.logical m)
  bytes : ∀ m, w.Live m → S_ISDIR (w.logical m).i_mode = false → ∀ off,
    value (vfs_read m off) (w'.hold m) = value (vfs_read m off) (w.hold m)

/-- What cannot be seen of the trees that the worlds stand for, whichever they are. -/
theorem Mirrors.unseen (h : Mirrors w s) (hall : ∀ t, Mirrors w t → t.iset = s.iset →
      t.node = s.node → t.slot = s.slot → ∃ t', Mirrors w' t' ∧ t.Unseen t' ∧ t'.sb = t.sb ∧
        t'.nblk = t.nblk) : w.Unseen w' := by
  obtain ⟨s', h', hun, -⟩ := hall s h rfl rfl rfl
  have hlive : ∀ {m}, s.Live m → s'.Live m := by
    intro m hm
    rw [Namespace.Live, hun.iset]
    exact hm
  have hdir : ∀ {m}, s.Live m → (s'.IsDir m ↔ s.IsDir m) := by
    intro m hm
    rw [Namespace.IsDir, Namespace.IsDir, (hun.fields m hm).1]
  refine ⟨fun m => ?_, fun m hm => ?_, fun m hm hd => ?_, fun m hm hf => ?_⟩
  · rw [h.live_iff, h'.live_iff, Namespace.Live, Namespace.Live, hun.iset]
  · have hms := h.live_iff.1 hm
    rw [h.logical hms, h'.logical (hlive hms)]
    exact hun.fields m hms
  · have hms := h.live_iff.1 hm
    rw [h.logical hms] at hd
    exact h.entries_same h' hms hd (hlive hms) ((hdir hms).2 hd) (congrFun hun.slot m)
  · have hms := h.live_iff.1 hm
    rw [h.logical hms] at hf
    have hfile : ¬s.IsDir m := fun hd => absurd (hd.symm.trans hf) (by decide)
    obtain ⟨t', ht', hun', hconsts⟩ := hall _ (h.knowing hms hfile) rfl rfl rfl
    have hlive' : t'.Live m := by
      rw [Namespace.Live, hun'.iset]
      exact hms
    have hfile' : ¬t'.IsDir m := by
      rw [Namespace.IsDir, (hun'.fields m hms).1]
      exact hfile
    obtain ⟨hsize, hblk⟩ := hun'.file m hms hfile
    exact h.value_read_same ht' hms hfile hlive' hfile' hconsts hsize hblk (congrFun hun'.bytes m)

variable {v : Volume} {l : List (Op × Reply)}

end Yaf
