/-
**Block accounting without lookups.**

Between a mount and the first lookup every allocated inode is in memory, and what the driver does
to the bitmaps and the block maps can be followed in any state of the directories, in full
bitmaps as well.  A volume in such a state is called solid.

Main definitions:

* `Yaf.Op.isUpdate` — the operations other than lookups, handles and write-backs;
* `Yaf.Solid` — every allocated inode is in memory, and no file has a hole in its block map;
* `Yaf.Freed` — what a removal that released its inode did.

Main results:

* `Yaf.step_solid` — **a step of a solid volume** is a sequence of changes or such a removal;
* `Yaf.solid_of_run` — every run from a fresh volume is solid.
-/

import Yaf.Effects

set_option relaxedAutoImplicit false
set_option autoImplicit false

namespace Yaf

open Prog

/-- The operations that change directories and files, and what happens around them. -/
def Op.isUpdate : Op → Bool
  | .create .. | .mkdir .. | .unlink .. | .rmdir .. | .write .. | .setSize .. | .tick .. |
    .device .. => true
  | _ => false

/-! ### Solid volumes -/

/-- **A volume that was not looked up.** -/
structure Solid (w : World) : Prop where
  held : w.Held
  closed : ∀ n, w.opens n = 0
  /-- every allocated inode is in memory -/
  live : ∀ n, w.view.iset n = true → n = 0 ∨ ∃ i, w.inode? n = some i
  /-- every inode in memory is allocated -/
  marked : ∀ n i, w.inode? n = some i → w.view.iset n = true
  /-- number zero is nobody's -/
  zero : w.inode? 0 = none
  /-- a file has one link -/
  link : ∀ n i, w.inode? n = some i → S_ISDIR i.i_mode = false → i.i_nlink = 1
  /-- a file has no hole in its block map -/
  dense : ∀ n i, w.inode? n = some i → S_ISDIR i.i_mode = false →
    ∀ j k, j ≤ k → i.blk j = RESERVED_DNO → i.blk k = RESERVED_DNO

namespace Solid

variable {w w' : World}

/-- Only the in-memory inodes and the inode bitmap matter. -/
theorem of_same (hs : Solid w) (hh : w'.Held) (ho : w'.opens = w.opens)
    (hc : ∀ n, w'.inode? n = w.inode? n) (hi : w'.view.iset = w.view.iset) : Solid w' := by
  refine ⟨hh, fun n => by rw [ho, hs.closed], ?_, ?_, (hc 0).trans hs.zero, ?_, ?_⟩
  · simpa only [hi, hc] using hs.live
  · simpa only [hi, hc] using hs.marked
  · simpa only [hc] using hs.link
  · simpa only [hc] using hs.dense

/-- The device begins or ceases to fail. -/
theorem device (hs : Solid w) (io : Req → Disk → Bool) : Solid { w with io := io } :=
  hs.of_same ⟨hs.held.layout, hs.held.core⟩ rfl (fun _ => rfl) rfl

/-- Changing one in-memory inode. -/
theorem touch (hs : Solid w) {n : ℕ} {f : Inode → Inode} (hh : (w.touch n f).Held)
    (hf : ∀ i, w.inode? n = some i → (f i).i_mode = i.i_mode ∧ (S_ISDIR i.i_mode = false →
      (f i).i_nlink = i.i_nlink ∧
        ∀ j k, j ≤ k → (f i).blk j = RESERVED_DNO → (f i).blk k = RESERVED_DNO)) :
    Solid (w.touch n f) := by
  -- an in-memory inode after the change has one before it
  have hback : ∀ m i', (w.touch n f).inode? m = some i' → ∃ i, w.inode? m = some i ∧
      i'.i_mode = i.i_mode ∧ (S_ISDIR i.i_mode = false → i'.i_nlink = i.i_nlink ∧
        ∀ j k, j ≤ k → i'.blk j = RESERVED_DNO → i'.blk k = RESERVED_DNO) := by
    intro m i' hi'
    rw [World.inode?_touch] at hi'
    split at hi'
    · subst m
      obtain ⟨i, hi, rfl⟩ := Option.map_eq_some_iff.1 hi'
      exact ⟨i, hi, hf i hi⟩
    · exact ⟨i', hi', rfl, fun hd => ⟨rfl, hs.dense m i' hi' hd⟩⟩
  have hzero : (w.touch n f).inode? 0 = none := by
    rw [World.inode?_touch]
    split
    · rw [← ‹0 = n›, hs.zero]
      rfl
    · exact hs.zero
  refine ⟨hh, hs.closed, fun m hm => ?_, fun m i' hi' => ?_, hzero, fun m i' hi' hd => ?_,
    fun m i' hi' hd => ?_⟩
  · refine (hs.live m hm).imp_right ?_
    rintro ⟨i, hi⟩
    rw [World.inode?_touch]
    split
    · subst m
      exact ⟨f i, by rw [hi]; rfl⟩
    · exact ⟨i, hi⟩
  · obtain ⟨i, hi, -⟩ := hback m i' hi'
    exact hs.marked m i hi
  · obtain ⟨i, hi, hmode, h⟩ := hback m i' hi'
    rw [hmode] at hd
    rw [(h hd).1, hs.link m i hi hd]
  · obtain ⟨i, hi, hmode, h⟩ := hback m i' hi'
    rw [hmode] at hd
    exact (h hd).2

/-- A number that first fit finds is not in memory. -/
theorem fresh (hs : Solid w) {n : ℕ} (hn : (Mem.clears w.ibit 32768).head? = some n) :
    w.inode? n = none := by
  rw [hs.held.clears_ibit] at hn
  have hclear := (Mem.mem_clears.1 (List.mem_of_head? hn)).2
  cases hi : w.inode? n with
  | none => rfl
  | some i =>
      rw [hs.marked n i hi] at hclear
      simp at hclear

/-- The in-memory inodes after a creation. -/
theorem inode?_create (hs : Solid w) {n : ℕ} (hn : (Mem.clears w.ibit 32768).head? = some n)
    {dir : ℕ} {i : Inode} (hi : w.inode? dir = some i) (d : Inode) (mode : UInt16)
    (bid off : ℕ) (q : Qstr) (m : ℕ) :
    ((w.create n d mode).link dir bid off n q).inode? m =
      if m = n then some (w.newInode d mode (w.slot n).toMem)
      else if m = dir then some { i.setTimes w.now with i_nlink := i.i_nlink + 1 }
      else w.inode? m := by
  have hnd : n ≠ dir := by
    rintro rfl
    rw [hs.fresh hn] at hi
    simp at hi
  have hcreate : ∀ m, (w.create n d mode).inode? m =
      if m = n then some (w.newInode d mode (w.slot n).toMem) else w.inode? m := by
    intro m
    rw [World.create, World.inode?_setCore _ _ rfl]
    rfl
  rw [World.link, World.inode?_touch, World.inode?_setBlock, World.inode?_setBlock, hcreate,
    hcreate, if_neg hnd.symm, hi]
  by_cases hmn : m = n
  · subst m
    rw [if_neg hnd, if_pos rfl, if_pos rfl]
  · rw [if_neg hmn, if_neg hmn]
    rfl

/-- An allocated inode number is in range. -/
theorem iset_lt (hs : Solid w) {n : ℕ} (hn : w.view.iset n = true) : n < w.sb.nr_i * 64 := by
  rcases hs.live n hn with rfl | ⟨i, hi⟩
  · have := hs.held.layout.i_pos
    omega
  · exact hs.held.lt_of_inode? hi

end Solid

/-- No number as large as `-ENOENT` is marked in the inode bitmap of a solid volume. -/
theorem Solid.no_overflow {w : World} (hs : Solid w) (hbit : w.ibit NO_BIT.toNat = true) :
    1 + w.sb.nr_ibp ≤ IDXI2BID w.sb NO_BIT.toNat := by
  have hnat : NO_BIT.toNat = 4294967294 := rfl
  rcases Nat.lt_or_ge NO_BIT.toNat (w.sb.nr_ibp * 32768) with h | h
  · rw [← World.iset_of_lt h] at hbit
    have h₁ := hs.iset_lt hbit
    have h₂ := hs.held.layout.fits
    have h₃ := hs.held.layout.nblk_lt
    omega
  · rw [IDXI2BID_eq]
    omega

/-- **A change keeps a volume solid.** -/
theorem Change.solid {O : Prop} {w w' : World} (h : Change O w w') (hs : Solid w) :
    Solid w' := by
  have hheld := h.held hs.held
  cases h with
  | data d b =>
      exact hs.of_same hheld rfl (fun _ => rfl)
        (World.iset_setBlock _ (by rw [DNO2BID_eq]; omega))
  | touch n f hmode hblk _ hlink =>
      refine hs.touch hheld fun i hi => ⟨hmode i, fun hd => ⟨?_, ?_⟩⟩
      · refine (hlink i hi).resolve_left ?_
        rw [hd]
        decide
      · have hsame : ∀ k, (f i).blk k = i.blk k := fun k => by simp only [Inode.blk, hblk i]
        simpa only [hsame] using hs.dense n i hi hd
  | create n d mode dir b off q hn h₀ hlt hi hdir =>
      rename_i i
      have hic := hs.inode?_create hn hi d mode (DNO2BID w.sb b) off q
      have hset : ((w.create n d mode).link dir (DNO2BID w.sb b) off n q).view.iset =
          Function.update w.view.iset n true := by
        have hpos := hs.held.layout.ibp_pos
        have hbit := (Mem.mem_clears.1 (List.mem_of_head? hn)).1
        have hbid : 1 + (w.create n d mode).sb.nr_ibp ≤ DNO2BID w.sb b := by
          rw [DNO2BID_eq, World.create, World.sb_setCore, World.markI, World.sb_setBlock]
          omega
        rw [World.iset_link hbid, World.view_create w (by omega)]
        rfl
      have hzero : ((w.create n d mode).link dir (DNO2BID w.sb b) off n q).inode? 0 = none := by
        rw [hic, if_neg h₀.symm]
        split
        · rw [← ‹0 = dir›, hs.zero] at hi
          simp at hi
        · exact hs.zero
      refine ⟨hheld, hs.closed, fun m hm => ?_, fun m j hj => ?_, hzero, fun m j hj hd => ?_,
        fun m j hj hd => ?_⟩
      · rw [hic]
        rw [hset, Function.update_apply] at hm
        split
        · exact .inr ⟨_, rfl⟩
        · rw [if_neg ‹_›] at hm
          split
          · exact .inr ⟨_, rfl⟩
          · exact hs.live m hm
      · rw [hic] at hj
        rw [hset, Function.update_apply]
        split at hj
        · rw [if_pos ‹_›]
        · rw [if_neg ‹_›]
          split at hj
          · subst m
            exact hs.marked dir i hi
          · exact hs.marked m j hj
      · rw [hic] at hj
        split at hj
        · cases hj
          rfl
        · split at hj
          · cases hj
            exact absurd (hdir.symm.trans hd) (by decide)
          · exact hs.link m j hj hd
      · rw [hic] at hj
        split at hj
        · cases hj
          intro _ k _ _
          simp only [Inode.blk, World.newInode, dite_eq_ite, ite_self]
        · split at hj
          · cases hj
            exact absurd (hdir.symm.trans hd) (by decide)
          · exact hs.dense m j hj hd
  | reserve hn =>
      have hset : (w.markI 0 true).view.iset = Function.update w.view.iset 0 true := by
        have hpos := hs.held.layout.ibp_pos
        exact congrArg View.iset (World.view_markI w (n := 0) (by omega) true)
      refine ⟨hheld, hs.closed, fun m hm => ?_, fun m j hj => ?_, hs.zero, hs.link, hs.dense⟩
      · rw [hset, Function.update_apply] at hm
        split at hm
        · exact .inl ‹_›
        · exact hs.live m hm
      · rw [hset, Function.update_apply]
        split
        · rfl
        · exact hs.marked m j hj
  | overflow _ hbit =>
      exact hs.of_same hheld rfl (fun _ => rfl) (World.iset_setBlock _ (hs.no_overflow hbit))
  | lock n hn _ =>
      exact hs.of_same hheld rfl (fun m => World.inode?_lock hn m)
        (congrArg View.iset (World.view_lock hn))
  | tick => exact hs.of_same hheld rfl (fun _ => rfl) rfl

/-- So does a block that is taken. -/
theorem Solid.take {w : World} (hs : Solid w) {n k : ℕ} {i : Inode} (hi : w.inode? n = some i)
    (hk : k < 8) (hres : i.blk k = RESERVED_DNO)
    (hpre : S_ISDIR i.i_mode = true ∨ ∀ j < k, i.blk j ≠ RESERVED_DNO) :
    Solid (w.takeD.2.touch n fun i => i.setBlk k w.takeD.1) := by
  have hop := w.takeD_consts
  have htake : Solid w.takeD.2 := by
    refine hs.of_same hs.held.takeD hop.2.2.2.2.2 (fun m => World.inode?_takeD _ _) ?_
    rcases w.takeD_snd with h | ⟨d, h⟩ <;> rw [h]
    exact World.iset_markD _ _ _
  refine htake.touch (hs.held.take n k _) fun i' hi' => ⟨rfl, fun hd => ⟨rfl, ?_⟩⟩
  rw [World.inode?_takeD, hi, Option.some_inj] at hi'
  subst hi'
  -- the entries before `k` are assigned, those after it are not
  have hlow := hpre.resolve_left (by rw [hd]; decide)
  intro j j' hle hj
  rw [blk_setBlk i hk] at hj ⊢
  split at hj
  · exact absurd hj w.takeD_fst_ne
  · rename_i hjk
    have hkj : k < j := by
      rcases Nat.lt_or_ge j k with h | h
      · exact absurd hj (hlow j h)
      · omega
    rw [if_neg (by omega)]
    exact hs.dense n i hi hd k j' (by omega) hres

/-- **So do sequences of changes.** -/
theorem Changes.solid {O : Prop} {m : ℕ} {w w' : World} (h : Changes O True m w w')
    (hs : Solid w) : Solid w' := by
  induction h with
  | nil => exact hs
  | step hc _ ih => exact ih (hc.solid hs)
  | take n k hi hk hres hpre _ ih => exact ih (hs.take hi hk (hres trivial) hpre)

/-! ### Removals -/

/-- **What a removal did that released the inode `ino`.** -/
structure Freed (w : World) (ino : ℕ) (w' : World) : Prop where
  held : w'.Held
  sb : w'.sb = w.sb
  opens : w'.opens = w.opens
  gone : w'.inode? ino = none
  /-- another inode in memory was there before, with the same mode and map -/
  same : ∀ m i', w'.inode? m = some i' → ∃ i, w.inode? m = some i ∧ i'.i_mode = i.i_mode ∧
    i'.i_block = i.i_block ∧ (S_ISDIR i.i_mode = true ∨ i'.i_nlink = i.i_nlink)
  stays : ∀ m i, m ≠ ino → w.inode? m = some i → ∃ i', w'.inode? m = some i' ∧
    i'.i_block = i.i_block
  iset : w'.view.iset = Function.update w.view.iset ino false
  /-- the blocks below the size are released -/
  dset : ∀ j, w.inode? ino = some j → ∀ d, w'.view.dset d = true →
    w.view.dset d = true ∧ d ∉ j.sized
  /-- and no others -/
  keeps : ∀ j, w.inode? ino = some j → ∀ d ∉ j.sized, w.view.dset d = true →
    w'.view.dset d = true

theorem Freed.solid {w w' : World} {ino : ℕ} (h : Freed w ino w') (hs : Solid w) : Solid w' := by
  have hzero : w'.inode? 0 = none := by
    cases hi' : w'.inode? 0 with
    | none => rfl
    | some i' =>
        obtain ⟨i, hi, -⟩ := h.same 0 i' hi'
        rw [hs.zero] at hi
        simp at hi
  refine ⟨h.held, fun n => by rw [h.opens, hs.closed], fun m hm => ?_, fun m i' hi' => ?_, hzero,
    fun m i' hi' hd => ?_, fun m i' hi' hd => ?_⟩
  · rw [h.iset, Function.update_apply] at hm
    split at hm
    · simp at hm
    · refine (hs.live m hm).imp_right ?_
      rintro ⟨i, hi⟩
      obtain ⟨i', hi', -⟩ := h.stays m i ‹_› hi
      exact ⟨i', hi'⟩
  · obtain ⟨i, hi, -⟩ := h.same m i' hi'
    have hne : m ≠ ino := by
      rintro rfl
      rw [h.gone] at hi'
      simp at hi'
    rw [h.iset, Function.update_of_ne hne]
    exact hs.marked m i hi
  · obtain ⟨i, hi, hmode, -, hlink⟩ := h.same m i' hi'
    rw [hmode] at hd
    rw [hlink.resolve_left (by rw [hd]; decide), hs.link m i hi hd]
  · obtain ⟨i, hi, hmode, hblk, -⟩ := h.same m i' hi'
    rw [hmode] at hd
    have hsame : ∀ k, i'.blk k = i.blk k := fun k => by simp only [Inode.blk, hblk]
    simpa only [hsame] using hs.dense m i hi hd

section Remove

variable {w : World} {dir ino : ℕ} {i j : Inode}

/-- The unlinked entry in a data block, and the link count of the directory. -/
theorem unlink_changes {O S : Prop} (hh : w.Held) (hi : w.inode? dir = some i)
    (hdir : S_ISDIR i.i_mode = true) (d off : ℕ) :
    Changes O S 0 w (w.unlink dir (DNO2BID w.sb d) off) := by
  refine .step (.data w d (Mem.wr32 (w.disk (DNO2BID w.sb d)) off RESERVED_INO))
    (.single (.touch _ dir _ (fun _ => rfl) (fun _ => rfl) (fun i' hi' => ?_) fun i' hi' => ?_))
  · have hsize := (hh.setBlock _ _).size_of_inode? hi'
    exact hsize
  · rw [World.inode?_setBlock, hi, Option.some_inj] at hi'
    exact .inl (hi' ▸ hdir)

/-- The inode of the removed entry had one link: it was released, and left the memory. -/
theorem freed_of_unlink (hh : w.Held) (hcl : w.opens ino = 0) (hi : w.inode? dir = some i)
    (hdir : S_ISDIR i.i_mode = true) (hj : w.inode? ino = some j) (hne : ino ≠ dir)
    (hlink : j.i_nlink = 1) (d off : ℕ) :
    Freed w ino (((((w.unlink dir (DNO2BID w.sb d) off).unmark j.sized).markI ino false).touch ino
      Inode.dropLink).iput ino) := by
  set w₁ := w.unlink dir (DNO2BID w.sb d) off with hw₁
  obtain ⟨hsb, -, -, hic, hop⟩ := w₁.unmark_consts j.sized
  set w₂ := w₁.unmark j.sized
  have hin₂ : ∀ m, w₂.inode? m = w₁.inode? m := fun m => by rw [World.inode?, World.inode?, hic]
  have hin₁ : ∀ m, w₁.inode? m = if m = dir then
      some { i.setTimes w.now with i_nlink := i.i_nlink - 1 } else w.inode? m := by
    intro m
    rw [hw₁, World.unlink, World.inode?_touch, World.inode?_setBlock, World.inode?_setBlock, hi]
    rfl
  have hdrop : ((w₂.markI ino false).touch ino Inode.dropLink).inode? ino =
      some j.dropLink := by
    rw [World.inode?_touch, if_pos rfl, World.markI, World.inode?_setBlock, hin₂, hin₁,
      if_neg hne, hj]
    rfl
  -- the last link is gone and nobody has the file open
  have hput : ((w₂.markI ino false).touch ino Inode.dropLink).iput ino =
      ((w₂.markI ino false).touch ino Inode.dropLink).setCore ino none := by
    have hzero : j.dropLink.i_nlink = 0 ∧
        ((w₂.markI ino false).touch ino Inode.dropLink).opens ino = 0 := by
      constructor
      · rw [Inode.dropLink, hlink]
        rfl
      · rw [World.opens_touch]
        exact (congrFun hop ino).trans hcl
    rw [World.iput, hdrop]
    exact if_pos hzero
  have hin : ∀ m, (((w₂.markI ino false).touch ino Inode.dropLink).setCore ino none).inode? m =
      if m = ino then none else w₁.inode? m := by
    intro m
    rw [World.inode?_setCore_none]
    split
    · rfl
    · rw [World.inode?_touch, if_neg ‹_›]
      exact hin₂ m
  have hh₁ : w₁.Held := (unlink_changes (O := False) (S := False) hh hi hdir d off).held hh
  have hh₂ : w₂.Held := ⟨by rw [hsb, (w₁.unmark_consts j.sized).2.1]; exact hh₁.layout,
    by simpa only [hin₂, hsb] using hh₁.core⟩
  have hiset₁ : w₁.view.iset = w.view.iset := by
    rw [hw₁, World.unlink, World.iset_touch, World.iset_setBlock]
    rw [DNO2BID_eq]
    omega
  have hino : ino < w₂.sb.nr_ibp * 32768 := by
    have h₁ := hh.lt_of_inode? hj
    have h₂ := hh.layout.ibp_covers
    rw [hsb]
    exact Nat.lt_of_lt_of_le h₁ h₂
  have hmark := World.view_markI w₂ hino false
  rw [hput]
  have hdset : ∀ e, ((w₂.markI ino false).touch ino Inode.dropLink).view.dset e =
      w₂.view.dset e := by
    intro e
    rw [World.dset_touch, hmark, View.dset_setI]
  have hdset₁ : ∀ e, w₁.view.dset e = w.view.dset e := by
    intro e
    rw [hw₁, World.unlink, World.dset_touch, World.dset_setBlock]
    rw [DNO2BID_eq]
    omega
  refine ⟨((hh₂.markI ino false).touch fun i' hi' => ?_).setCore_none ino, hsb, hop, ?_, ?_, ?_,
    ?_, ?_, ?_⟩
  · have hsize := (hh₂.markI ino false).size_of_inode? hi'
    exact hsize
  · rw [hin, if_pos rfl]
  · intro m i' hi'
    rw [hin] at hi'
    split at hi'
    · simp at hi'
    · rw [hin₁] at hi'
      split at hi'
      · subst m
        cases hi'
        exact ⟨i, hi, rfl, rfl, .inl hdir⟩
      · exact ⟨i', hi', rfl, rfl, .inr rfl⟩
  · intro m i' hm hi'
    rw [hin, if_neg hm, hin₁]
    split
    · subst m
      rw [hi, Option.some_inj] at hi'
      exact ⟨_, rfl, by rw [← hi']; rfl⟩
    · exact ⟨i', hi', rfl⟩
  · have : (w₂.markI ino false).view.iset = Function.update w.view.iset ino false := by
      rw [hmark, View.iset_setI]
      exact congrArg (fun s => Function.update s ino false)
        ((World.iset_unmark w₁ j.sized).trans hiset₁)
    exact this
  · intro j' hj' e he
    rw [hj, Option.some_inj] at hj'
    subst hj'
    obtain ⟨he₁, hnot⟩ := World.dset_unmark ((hdset e).symm.trans he)
    exact ⟨(hdset₁ e).symm.trans he₁, hnot⟩
  · intro j' hj' e hnot he
    rw [hj, Option.some_inj] at hj'
    subst hj'
    refine (hdset e).trans ?_
    rw [World.dset_unmark_of_notMem w₁ hnot, hdset₁, he]

end Remove

/-! ### Steps -/

/-- The inode a removal is about. -/
def Op.victim : Op → Option ℕ
  | .unlink _ _ ino | .rmdir _ _ ino => some ino
  | _ => none

section Step

variable {w : World}

/-- A removal from a solid volume, once the driver was called: the dentry of `ino` goes. -/
theorem delete_solid (hs : Solid w) {O S : Prop} {dir ino : ℕ} (q : Qstr)
    (hdir : w.holds S_ISDIR dir = true) {j : Inode} (hj : w.inode? ino = some j)
    (hlink : j.i_nlink ≤ 1) (hfile : S_ISDIR j.i_mode = false → ino ≠ dir ∧ j.i_nlink = 1) :
    wp (yaf_delete dir q ino) (fun r w' =>
      let w'' := if r = 0 then w'.iput ino else w'
      Changes O S 0 w w'' ∨ Freed w ino w'') (fun _ => True) w := by
  obtain ⟨i, hi, hkind⟩ := World.exists_of_holds hdir
  have hsmall : j.i_nlink = 0 ∨ j.i_nlink = 1 := by
    have hle : j.i_nlink.toNat ≤ 1 := hlink
    rcases Nat.le_one_iff_eq_zero_or_eq_one.1 hle with h | h
    · exact .inl (UInt32.toNat_inj.1 h)
    · exact .inr (UInt32.toNat_inj.1 h)
  have hstays : ∀ w' : World, ∀ i', w'.inode? ino = some i' → i'.i_nlink ≠ 0 →
      w'.iput ino = w' := by
    intro w' i' hi' hne
    rw [World.iput, hi']
    exact if_neg fun h => hne h.1
  refine wp_yaf_delete_of_forall hi hj (fun _ => trivial) (.inl (.nil w)) ?_ ?_
  · intro d off j' hj' hgt
    obtain ⟨j₁, hj₁, hmode, -, -, hn⟩ := inode?_unlink dir hj (DNO2BID w.sb d) off
    rw [hj', Option.some_inj] at hj₁
    subst hj₁
    have hkept : ((w.unlink dir (DNO2BID w.sb d) off).touch ino Inode.dropLink).inode? ino =
        some j'.dropLink := by
      rw [World.inode?_touch, if_pos rfl, hj']
      rfl
    have hne : j'.dropLink.i_nlink ≠ 0 := by
      intro h₀
      rw [Inode.dropLink] at h₀
      rw [show j'.i_nlink - 1 = 0 from h₀] at hgt
      exact absurd hgt (by decide)
    refine .inl ?_
    rw [if_pos rfl, hstays _ _ hkept hne]
    refine (unlink_changes hs.held hi hkind d off).snoc
      (.touch _ ino _ (fun _ => rfl) (fun _ => rfl) (fun i' hi' => ?_) fun i' hi' => .inl ?_)
    · have hheld := (unlink_changes (O := False) (S := False) hs.held hi hkind d off).held
        hs.held
      have hsize := hheld.size_of_inode? hi'
      exact hsize
    · rw [hj', Option.some_inj] at hi'
      subst hi'
      rw [hmode]
      -- a file has one link, which is gone now
      cases hd : S_ISDIR j.i_mode with
      | true => rfl
      | false =>
          obtain ⟨hne, hone⟩ := hfile hd
          rw [hn, if_neg hne, hone] at hgt
          exact absurd hgt (by decide)
  · intro d off j' hj' hle _ _ _
    obtain ⟨j₁, hj₁, hmode, -, -, hn⟩ := inode?_unlink dir hj (DNO2BID w.sb d) off
    rw [hj', Option.some_inj] at hj₁
    subst hj₁
    -- otherwise the link count wrapped around
    have hone : ino ≠ dir ∧ j.i_nlink = 1 := by
      rw [hn] at hle
      rcases hsmall with h | h <;> rw [h] at hle
      · split at hle <;> exact absurd (by decide) hle
      · split at hle
        · exact absurd (by decide) hle
        · exact ⟨‹_›, h⟩
    have hsame : j' = j := by
      rw [World.unlink, World.inode?_touch, if_neg hone.1, World.inode?_setBlock, hj,
        Option.some_inj] at hj'
      exact hj'.symm
    subst hsame
    dsimp only
    rw [if_pos rfl]
    exact .inr (freed_of_unlink hs.held (hs.closed ino) hi hkind hj hone.1 hone.2 d off)

/-- **A step of a solid volume.** -/
theorem step_solid (hs : Solid w) {op : Op} (hup : op.isUpdate = true) (hpre : op.Pre w) :
    wp (step op) (fun _ w' => Phased (op.overflows w = true) True (op.requests w) w w' ∨
      (∃ ino, op.victim = some ino ∧ Freed w ino w') ∨ ∃ io, w' = { w with io := io })
      (fun _ => True) w := by
  cases op with
  | create dir q mode =>
      refine wp_mono (create_phased (S := True) hs.held hpre.1 q (mode ||| S_IFREG))
        (fun _ w' h => .inl ?_) fun _ h => h
      simpa only [Op.overflows, Op.requests, Bool.and_eq_true] using h
  | mkdir dir q mode =>
      refine wp_mono (create_phased (S := True) hs.held hpre.1 q (mode ||| S_IFDIR))
        (fun _ w' h => .inl ?_) fun _ h => h
      simpa only [Op.overflows, Op.requests, Bool.and_eq_true] using h
  | unlink dir q ino =>
      obtain ⟨hdir, -, hfile⟩ := hpre
      obtain ⟨i, hi, hkind⟩ := World.exists_of_holds hdir
      obtain ⟨j, hj, hreg⟩ := World.exists_of_holds hfile
      rw [Bool.not_eq_true'] at hreg
      have hone := hs.link ino j hj hreg
      have hne : ino ≠ dir := by
        rintro rfl
        rw [hi, Option.some_inj] at hj
        rw [← hj, hkind] at hreg
        simp at hreg
      simp only [step, wp_bind, wp_pure]
      refine wp_remove (wp_mono (delete_solid (O := Op.overflows w (.unlink dir q ino) = true)
        (S := True) hs q hdir hj (by rw [hone]; decide) fun _ => ⟨hne, hone⟩)
        (fun r w' h => ?_) fun _ h => h)
      split
      · rw [if_pos ‹_›] at h
        exact h.imp .of_changes fun hf => .inl ⟨ino, rfl, hf⟩
      · rw [if_neg ‹_›] at h
        exact h.imp .of_changes fun hf => .inl ⟨ino, rfl, hf⟩
  | rmdir dir q ino =>
      obtain ⟨hdir, -, hsub⟩ := hpre
      obtain ⟨j, hj, hreg⟩ := World.exists_of_holds hsub
      simp only [step, wp_bind, wp_pure]
      refine wp_remove ?_
      rw [yaf_rmdir, wp_bind, wp_getInode hj]
      split
      · rw [wp_pure, if_neg (by decide)]
        exact .inl (.of_changes (.nil w))
      · rename_i hle
        refine wp_mono (delete_solid (O := Op.overflows w (.rmdir dir q ino) = true)
          (S := True) hs q hdir hj (UInt32.not_lt.1 hle)
          fun hd => absurd (hreg.symm.trans hd) (by decide)) (fun r w' h => ?_) fun _ h => h
        split
        · rw [if_pos ‹_›] at h
          exact h.imp .of_changes fun hf => .inl ⟨ino, rfl, hf⟩
        · rw [if_neg ‹_›] at h
          exact h.imp .of_changes fun hf => .inl ⟨ino, rfl, hf⟩
  | write ino pos data copied =>
      obtain ⟨hreg, hlen, -, hcopied⟩ := hpre
      obtain ⟨i, hi, hkind⟩ := World.exists_of_holds hreg
      simp only [step, wp_bind, wp_pure]
      refine wp_mono (write_phased (S := True) hs.held hi hlen hcopied fun _ j hj => ?_)
        (fun _ w' h => .inl h) fun _ h => h
      obtain ⟨hle, -, hres⟩ := countAssigned_spec i
      rcases Nat.lt_or_ge (countAssigned i YAF_IBLOCKS 0) 8 with h | h
      · exact hs.dense ino i hi (S_ISDIR_of_S_ISREG hkind) _ j hj (hres h)
      · exact i.blk_of_le (by omega)
  | setSize ino size =>
      simp only [step, simple_setattr, wp_bind, wp_modifyInode, wp_mark_inode_dirty, wp_pure,
        World.touch_edit, id]
      refine .inl (.of_changes (.single (.touch w ino _ (fun _ => rfl) (fun _ => rfl)
        (fun _ _ => ?_) fun _ _ => .inr rfl)))
      exact Nat.lt_of_le_of_lt hpre.2 (by decide)
  | tick now fsuid fsgid => exact .inl (.of_changes (.single (.tick w now fsuid fsgid)))
  | device io => exact .inr (.inr ⟨io, rfl⟩)
  | lookup | openFile | closeFile | writeInode | evict => simp [Op.isUpdate] at hup

/-- A step keeps a volume solid. -/
theorem solid_of_step (hs : Solid w) {op : Op} (hup : op.isUpdate = true) (hpre : op.Pre w)
    {r : Reply} {w' : World} (hr : (step op).run w = .ok (r, w')) : Solid w' := by
  rcases (step_solid hs hup hpre).ok hr with h | ⟨ino, -, h⟩ | ⟨io, rfl⟩
  · exact h.changes.solid hs
  · exact h.solid hs
  · exact hs.device io

end Step

/-- **A fresh volume is solid.** -/
theorem solid_mounted {v : Volume} (h : v.Ok) : Solid v.mounted := by
  have hcore : ∀ n i, v.mounted.inode? n = some i →
      n = ROOT_INO ∧ i = (Mkfs.rootInode v.uid v.gid).toMem := by
    intro n i hi
    rw [Volume.inode?_mounted] at hi
    split at hi
    · exact ⟨‹_›, (Option.some.inj hi).symm⟩
    · simp at hi
  have hdir : S_ISDIR (Mkfs.rootInode v.uid v.gid).toMem.i_mode = true := by
    have hmode : (Mkfs.rootInode v.uid v.gid).toMem.i_mode = (0o040777 : UInt32).toUInt16 := rfl
    rw [hmode]
    decide
  refine ⟨Volume.held_mounted h, fun _ => rfl, fun n hn => ?_, fun n i hi => ?_, ?_,
    fun n i hi hd => ?_, fun n i hi hd => ?_⟩
  · rw [Volume.iset_mounted h, decide_eq_true_eq] at hn
    rcases Nat.lt_succ_iff_lt_or_eq.1 hn with h₀ | h₁
    · exact .inl (Nat.lt_one_iff.1 h₀)
    · exact .inr ⟨_, by rw [Volume.inode?_mounted, if_pos h₁]⟩
  · obtain ⟨rfl, -⟩ := hcore n i hi
    rw [Volume.iset_mounted h]
    rfl
  · rw [Volume.inode?_mounted]
    rfl
  · obtain ⟨-, rfl⟩ := hcore n i hi
    exact absurd (hdir.symm.trans hd) (by decide)
  · obtain ⟨-, rfl⟩ := hcore n i hi
    exact absurd (hdir.symm.trans hd) (by decide)

/-- **Every run without lookups is solid.** -/
theorem solid_of_run {v : Volume} (h : v.Ok) {l : List (Op × Reply)} {w : World}
    (hrun : Run step (fun w op => op.Pre w ∧ op.isUpdate = true) (fresh v) l w) : Solid w := by
  rw [Volume.fresh_eq h] at hrun
  exact hrun.invariant (I := Solid) (solid_mounted h)
    fun _ _ _ _ hs hop hstep => solid_of_step hs hop.2 hop.1 hstep

end Yaf
