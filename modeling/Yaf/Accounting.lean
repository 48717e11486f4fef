/-
**Data blocks: where they lie, and whether they are released.**

Two properties of the data bitmap, over all runs from a fresh volume in which nothing is looked
up, with whatever failures of the device.

* A block that is handed out lies in the data section as long as one is free.  The bitmap has a
  bit for every block of the device, while the section is smaller, so a search that comes too late
  answers with a number past the section.
* A marked block is held by an allocated inode as long as the blocks of a deleted inode all lie
  below its size.  The loop that releases them is bounded by the size.

Main definitions:

* `Yaf.World.Live` — allocated inode numbers;
* `Yaf.World.freeBlocks` — how many blocks of the section the allocator can still find;
* `Yaf.World.BlocksOnDisk`, `Yaf.World.NoLeak` — the two properties;
* `Yaf.Op.releasesAll` — whether a removal finds all blocks of the inode.

Main results:

* `Yaf.blocksOnDisk_of_run`, `Yaf.noLeak_of_run` — **the properties along a run**.
-/

import Yaf.Blocks

set_option relaxedAutoImplicit false
set_option autoImplicit false

namespace Yaf

open Prog

/-! ### The properties -/

namespace World

/-- An inode number that is allocated. -/
def Live (w : World) (n : ℕ) : Prop := w.view.iset n = true ∧ n ≠ 0

/-- How many blocks of the data section the allocator can still find: it looks at one block of
the bitmap. -/
def freeBlocks (w : World) : ℕ := (Mem.clears w.view.dset (min w.sb.nr_d 32768)).length

/-- **Every block of a live inode lies in the data section.** -/
def BlocksOnDisk (w : World) : Prop :=
  ∀ n k, w.Live n → (w.view.node n).blk k ≠ RESERVED_DNO →
    ((w.view.node n).blk k).toNat < w.sb.nr_d ∧
    BID_D_MIN w.sb ≤ DNO2BID w.sb ((w.view.node n).blk k).toNat ∧
    DNO2BID w.sb ((w.view.node n).blk k).toNat ≤ BID_D_MAX w.sb

/-- **Every marked block is held by a live inode.** -/
def NoLeak (w : World) : Prop :=
  ∀ d, w.view.dset d = true →
    ∃ n k, w.Live n ∧ (w.view.node n).blk k ≠ RESERVED_DNO ∧ ((w.view.node n).blk k).toNat = d

/-- The entries of the inodes in memory are in range. -/
def InRange (w : World) : Prop :=
  ∀ n i, w.inode? n = some i → ∀ k, i.blk k ≠ RESERVED_DNO → (i.blk k).toNat < w.sb.nr_d

/-- Every marked block is held by an inode in memory. -/
def Owned (w : World) : Prop :=
  ∀ d, w.view.dset d = true →
    ∃ n i k, w.inode? n = some i ∧ i.blk k ≠ RESERVED_DNO ∧ (i.blk k).toNat = d

theorem InRange.blocksOnDisk {w : World} (h : w.InRange) (hs : Solid w) : w.BlocksOnDisk := by
  intro n k hn hk
  obtain ⟨i, hi⟩ := (hs.live n hn.1).resolve_left hn.2
  rw [node_of_inode? hi, Inode.attrs_blk] at hk ⊢
  have hlt := h n i hi k hk
  refine ⟨hlt, ?_, ?_⟩
  · rw [DNO2BID_eq, BID_D_MIN_eq]
    omega
  · rw [DNO2BID_eq, BID_D_MAX, BID_D_MIN_eq]
    omega

theorem Owned.noLeak {w : World} (h : w.Owned) (hs : Solid w) (h₀ : w.inode? 0 = none) :
    w.NoLeak := by
  intro d hd
  obtain ⟨n, i, k, hi, hk, he⟩ := h d hd
  have hn : n ≠ 0 := by
    rintro rfl
    rw [h₀] at hi
    simp at hi
  refine ⟨n, k, ⟨hs.marked n i hi, hn⟩, ?_⟩
  rw [node_of_inode? hi, Inode.attrs_blk]
  exact ⟨hk, he⟩

end World

/-! ### Steps -/

/-- **What a change leaves of the blocks**: none is marked, and no block map changes. -/
structure Kept (w w' : World) : Prop where
  sb : w'.sb = w.sb
  dset : ∀ d, w'.view.dset d = true → w.view.dset d = true
  back : ∀ n i', w'.inode? n = some i' → (∀ k, i'.blk k = RESERVED_DNO) ∨
    ∃ i, w.inode? n = some i ∧ i'.i_block = i.i_block
  forth : ∀ n i, w.inode? n = some i → ∃ i', w'.inode? n = some i' ∧ i'.i_block = i.i_block

namespace Kept

variable {w w' : World}

/-- The block maps did not change at all. -/
theorem of_same (hsb : w'.sb = w.sb) (hc : ∀ n, w'.inode? n = w.inode? n)
    (hd : ∀ d, w'.view.dset d = true → w.view.dset d = true) : Kept w w' :=
  ⟨hsb, hd, fun n i' hi' => .inr ⟨i', (hc n).symm.trans hi', rfl⟩,
    fun n i hi => ⟨i, (hc n).trans hi, rfl⟩⟩

theorem inRange (h : Kept w w') (hr : w.InRange) : w'.InRange := by
  intro n i' hi' k hk
  rcases h.back n i' hi' with hres | ⟨i, hi, hblk⟩
  · exact absurd (hres k) hk
  · have hsame : i'.blk k = i.blk k := by simp only [Inode.blk, hblk]
    rw [hsame] at hk ⊢
    rw [h.sb]
    exact hr n i hi k hk

theorem owned (h : Kept w w') (ho : w.Owned) : w'.Owned := by
  intro d hd
  obtain ⟨n, i, k, hi, hk, he⟩ := ho d (h.dset d hd)
  obtain ⟨i', hi', hblk⟩ := h.forth n i hi
  have hsame : i'.blk k = i.blk k := by simp only [Inode.blk, hblk]
  exact ⟨n, i', k, hi', by rwa [hsame], by rwa [hsame]⟩

theorem freeBlocks_le (h : Kept w w') : w.freeBlocks ≤ w'.freeBlocks := by
  rw [World.freeBlocks, World.freeBlocks, h.sb]
  exact Mem.length_clears_mono _ h.dset

end Kept

theorem Change.kept {O : Prop} {w w' : World} (h : Change O w w') (hs : Solid w) :
    Kept w w' := by
  cases h with
  | data d b =>
      refine .of_same rfl (fun _ => rfl) fun e he => ?_
      rwa [World.dset_setBlock _ (by rw [DNO2BID_eq]; omega)] at he
  | touch n f _ hblk _ _ =>
      refine ⟨rfl, fun _ h => h, fun m i' hi' => ?_, fun m i hi => ?_⟩
      · rw [World.inode?_touch] at hi'
        split at hi'
        · subst m
          obtain ⟨i, hi, rfl⟩ := Option.map_eq_some_iff.1 hi'
          exact .inr ⟨i, hi, hblk i⟩
        · exact .inr ⟨i', hi', rfl⟩
      · rw [World.inode?_touch]
        split
        · subst m
          exact ⟨f i, by rw [hi]; rfl, hblk i⟩
        · exact ⟨i, hi, rfl⟩
  | create n d mode dir b off q hn h₀ hlt hi hdir =>
      rename_i i
      have hic := hs.inode?_create hn hi d mode (DNO2BID w.sb b) off q
      refine ⟨rfl, fun e he => ?_, fun m i' hi' => ?_, fun m j hj => ?_⟩
      · have hbid : 1 + (w.create n d mode).sb.nr_ibp + (w.create n d mode).sb.nr_dbp ≤
            DNO2BID w.sb b := by
          rw [DNO2BID_eq]
          exact Nat.le_trans (Nat.le_add_right _ w.sb.nr_i) (Nat.le_add_right _ b)
        have hlt := (Mem.mem_clears.1 (List.mem_of_head? hn)).1
        have hpos := hs.held.layout.ibp_pos
        rw [World.link, World.dset_touch, World.dset_setBlock _ (.inr hbid),
          World.view_create w (by omega)] at he
        exact he
      · rw [hic] at hi'
        split at hi'
        · cases hi'
          refine .inl fun k => ?_
          simp only [Inode.blk, World.newInode, dite_eq_ite, ite_self]
        · split at hi'
          · subst m
            cases hi'
            exact .inr ⟨i, hi, rfl⟩
          · exact .inr ⟨i', hi', rfl⟩
      · have hmn : m ≠ n := by
          rintro rfl
          rw [hs.fresh hn] at hj
          simp at hj
        rw [hic, if_neg hmn]
        split
        · subst m
          rw [hi, Option.some_inj] at hj
          exact ⟨_, rfl, by rw [← hj]; rfl⟩
        · exact ⟨j, hj, rfl⟩
  | reserve =>
      refine .of_same rfl (fun _ => rfl) fun e he => ?_
      have hpos := hs.held.layout.ibp_pos
      rwa [World.view_markI w (n := 0) (by omega)] at he
  | overflow => exact .of_same rfl (fun _ => rfl) fun e he => World.dset_clearBit he
  | lock n hn _ =>
      refine .of_same rfl (World.inode?_lock hn) fun e he => ?_
      rwa [World.view_lock hn] at he
  | tick => exact .of_same rfl (fun _ => rfl) fun _ h => h

/-! ### Blocks in range -/

section InRange

variable {w w' : World}

/-- While a block of the section can be found, the answer lies in the section and one block
less can be found afterwards. -/
theorem takeD_of_pos (hs : Solid w) (hpos : 0 < w.freeBlocks) :
    w.takeD.1.toNat < w.sb.nr_d ∧ w.freeBlocks ≤ w.takeD.2.freeBlocks + 1 := by
  have hdbp := hs.held.layout.dbp_pos
  obtain ⟨d, l, hl⟩ := List.exists_cons_of_length_pos hpos
  have hd : d < min w.sb.nr_d 32768 := (Mem.mem_clears.1 (hl ▸ List.mem_cons_self)).1
  have hhead : (Mem.clears w.dbit 32768).head? = some d := by
    rw [hs.held.clears_dbit]
    exact Mem.head?_clears_of_le (Nat.min_le_right _ _) (by rw [hl]; rfl)
  rcases w.takeD_cases with h | ⟨-, hnil⟩ | ⟨e, he, h⟩
  · rw [h]
    exact ⟨Nat.lt_of_le_of_lt (Nat.zero_le d) (by omega), Nat.le_succ _⟩
  · rw [hnil] at hhead
    simp at hhead
  · obtain rfl : d = e := Option.some.inj (hhead.symm.trans he)
    rw [h]
    refine ⟨?_, ?_⟩
    · rw [UInt32.toNat_ofNat_of_lt' (by rw [UInt32.size]; omega)]
      omega
    · have hview := World.view_markD w (d := d) (by omega) true
      have hsb : (w.markD d true).sb = w.sb := rfl
      rw [World.freeBlocks, World.freeBlocks, hview, View.dset_setD, hsb, hl,
        Mem.clears_update_head hl]
      rfl

/-- **Requests that find a free block keep the entries in range.** -/
theorem Changes.inRange {O : Prop} {m : ℕ} (h : Changes O True m w w') (hs : Solid w)
    (hm : m ≤ w.freeBlocks) (hr : w.InRange) : w'.InRange := by
  induction h with
  | nil => exact hr
  | step hc _ ih =>
      have hk := hc.kept hs
      exact ih (hc.solid hs) (hm.trans hk.freeBlocks_le) (hk.inRange hr)
  | @take w _ m n k i hi hk hres hpre _ ih =>
      obtain ⟨hlt, hfree⟩ := takeD_of_pos hs (Nat.lt_of_lt_of_le (Nat.succ_pos m) hm)
      refine ih (hs.take hi hk (hres trivial) hpre) ?_ ?_
      · have : (w.takeD.2.touch n fun i => i.setBlk k w.takeD.1).freeBlocks =
            w.takeD.2.freeBlocks := rfl
        omega
      · intro m' i' hi' j hj
        rw [World.inode?_touch, World.inode?_takeD, World.inode?_takeD] at hi'
        have hsb : (w.takeD.2.touch n fun i => i.setBlk k w.takeD.1).sb = w.sb :=
          w.takeD_consts.1
        rw [hsb]
        split at hi'
        · rw [hi] at hi'
          cases hi'
          rw [blk_setBlk i hk] at hj ⊢
          split
          · exact hlt
          · rw [if_neg ‹_›] at hj
            exact hr n i hi j hj
        · exact hr m' i' hi' j hj

/-- A removal takes no block. -/
theorem Freed.inRange {ino : ℕ} (h : Freed w ino w') (hr : w.InRange) : w'.InRange := by
  intro m i' hi' k hk
  obtain ⟨i, hi, -, hblk, -⟩ := h.same m i' hi'
  have hsame : i'.blk k = i.blk k := by simp only [Inode.blk, hblk]
  rw [hsame] at hk ⊢
  rw [h.sb]
  exact hr m i hi k hk

end InRange

/-- The operations of a run in which every request for blocks is made while that many can be
found. -/
def Op.Roomy (w : World) (op : Op) : Prop :=
  op.Pre w ∧ op.isUpdate = true ∧ op.requests w ≤ w.freeBlocks

instance (w : World) (op : Op) : Decidable (op.Roomy w) :=
  inferInstanceAs (Decidable (_ ∧ _))

theorem inRange_of_step {w w' : World} {op : Op} {r : Reply} (hs : Solid w) (hr : w.InRange)
    (hop : op.Roomy w) (hrun : (step op).run w = .ok (r, w')) : w'.InRange := by
  obtain ⟨hpre, hup, hroom⟩ := hop
  rcases (step_solid hs hup hpre).ok hrun with h | ⟨ino, -, h⟩ | ⟨io, rfl⟩
  · exact h.changes.inRange hs hroom hr
  · exact h.inRange hr
  · exact hr

/-- The answer to a request says nothing about the section being full. -/
theorem get_free_dblock_full {w w' : World} {r : UInt32} (hok : w.sb.Ok w.nblk)
    (hrun : yaf_get_free_dblock.run w = .ok (r, w')) :
    ((∀ d < w.sb.nr_d, w.view.dset d = true) → r = RESERVED_DNO) ↔
      ∃ d < w.sb.nr_d, w.view.dset d = false := by
  have hne : r ≠ RESERVED_DNO :=
    ((wp_yaf_get_free_dblock hok.dbp_pos (Q := fun r _ => r ≠ RESERVED_DNO)
      (E := fun _ => True)).2 w.takeD_fst_ne).ok hrun
  constructor
  · intro h
    by_contra hall
    refine hne (h fun d hd => ?_)
    cases hb : w.view.dset d with
    | true => rfl
    | false => exact absurd ⟨d, hd, hb⟩ hall
  · rintro ⟨d, hd, hb⟩ hall
    rw [hall d hd] at hb
    simp at hb

/-- **Handed-out blocks lie in the data section**, in every run in which blocks are requested only
while they can be found.  What a request is answered with never tells that the section is full. -/
theorem blocksOnDisk_of_run {v : Volume} (h : v.Ok) {l : List (Op × Reply)} {w : World}
    (hrun : Run step (fun w op => op.Roomy w) (fresh v) l w) :
    w.BlocksOnDisk ∧ ∀ r w', yaf_get_free_dblock.run w = .ok (r, w') →
      (((∀ d < w.sb.nr_d, w.view.dset d = true) → r = RESERVED_DNO) ↔
        ∃ d < w.sb.nr_d, w.view.dset d = false) := by
  rw [Volume.fresh_eq h] at hrun
  have hinv : Solid w ∧ w.InRange := by
    refine hrun.invariant (I := fun w => Solid w ∧ w.InRange)
      ⟨solid_mounted h, fun n i hi k hk => ?_⟩ ?_
    · rw [Volume.inode?_mounted] at hi
      split at hi
      · cases hi
        refine absurd ?_ hk
        simp only [Inode.blk, Mkfs.rootInode, Yaf_Inode.toMem, dite_eq_ite, ite_self]
      · simp at hi
    · rintro w op r w' ⟨hs, hr⟩ hop hstep
      exact ⟨solid_of_step hs hop.2.1 hop.1 hstep, inRange_of_step hs hr hop hstep⟩
  exact ⟨hinv.2.blocksOnDisk hinv.1, fun r w' h => get_free_dblock_full hinv.1.held.layout h⟩

/-- A file of five bytes on the smallest volume. -/
theorem blocksOnDisk_small : ∃ l w, Run step (fun w op => op.Roomy w) (fresh .small) l w ∧
    l.map Prod.snd = [(0, some 2), (5, none)] ∧ w.BlocksOnDisk := by
  obtain ⟨l, w, hrun, hp⟩ := Volume.exists_run Volume.small_ok (fun w op => op.Roomy w)
    [.create 1 (.letters 0) 0, .write 2 0 [1, 2, 3, 4, 5] 5]
    (fun l _ => l.map Prod.snd == [(0, some 2), (5, none)]) (by decide +kernel)
  exact ⟨l, w, hrun, by simpa using hp, (blocksOnDisk_of_run Volume.small_ok hrun).1⟩

/-- **Eight files of eight blocks each** do not fit in the sixty blocks of the section: the last
one is given block 60 and more. -/
theorem not_blocksOnDisk_full : ∃ l w,
    Run step (fun w op => op.Pre w ∧ op.isUpdate = true) (fresh .small) l w ∧
      ¬w.BlocksOnDisk := by
  obtain ⟨l, w, hrun, hp⟩ := Volume.exists_run Volume.small_ok
    (fun w op => op.Pre w ∧ op.isUpdate = true)
    ((List.range 8).map (fun i => .create 1 (.letters i) 0) ++
      (List.range 8).map fun i => .write (i + 2) 32767 [1] 1)
    (fun _ w => w.view.iset 9 && (w.view.node 9).blk 7 != RESERVED_DNO &&
      decide (w.sb.nr_d ≤ ((w.view.node 9).blk 7).toNat)) (by decide +kernel)
  simp only [Bool.and_eq_true, bne_iff_ne, decide_eq_true_eq] at hp
  obtain ⟨⟨hset, hne⟩, hle⟩ := hp
  exact ⟨l, w, hrun, fun h => Nat.not_lt.2 hle (h 9 7 ⟨hset, by decide⟩ hne).1⟩

/-! ### Marked blocks -/

/-- Whether a removal finds all blocks of the inode: they lie below its size. -/
def Op.releasesAll (w : World) (op : Op) : Bool :=
  match op.victim.bind w.inode? with
  | some i => (List.range 8).all fun k => i.blk k == RESERVED_DNO || decide (k * 4096 < i.i_size)
  | none => true

section Owned

variable {w w' : World}

/-- **A block that is taken is held by the inode it is taken for.** -/
theorem owned_take (hs : Solid w) (ho : w.Owned) {n k : ℕ} {i : Inode}
    (hi : w.inode? n = some i) (hk : k < 8) (hres : i.blk k = RESERVED_DNO) :
    (w.takeD.2.touch n fun i => i.setBlk k w.takeD.1).Owned := by
  have hinode : ∀ m, (w.takeD.2.touch n fun i => i.setBlk k w.takeD.1).inode? m =
      if m = n then some (i.setBlk k w.takeD.1) else w.inode? m := by
    intro m
    rw [World.inode?_touch, World.inode?_takeD, World.inode?_takeD, hi]
    rfl
  -- a block that was marked before keeps its holder
  have hold : ∀ d, w.view.dset d = true →
      ∃ m i' j, (w.takeD.2.touch n fun i => i.setBlk k w.takeD.1).inode? m = some i' ∧
        i'.blk j ≠ RESERVED_DNO ∧ (i'.blk j).toNat = d := by
    intro d hd
    obtain ⟨m, i', j, hi', hj, he⟩ := ho d hd
    by_cases hm : m = n
    · subst hm
      rw [hi, Option.some_inj] at hi'
      subst hi'
      have hjk : j ≠ k := by
        rintro rfl
        exact hj hres
      refine ⟨m, i.setBlk k w.takeD.1, j, by rw [hinode, if_pos rfl], ?_⟩
      rw [blk_setBlk i hk, if_neg hjk]
      exact ⟨hj, he⟩
    · exact ⟨m, i', j, by rw [hinode, if_neg hm, hi'], hj, he⟩
  intro d hd
  rw [World.dset_touch] at hd
  rcases w.takeD_cases with h | ⟨h, -⟩ | ⟨e, he, h⟩
  · exact hold d (by rwa [h] at hd)
  · exact hold d (by rwa [h] at hd)
  · have hlt := (Mem.mem_clears.1 (List.mem_of_head? he)).1
    have hpos := hs.held.layout.dbp_pos
    have hview : w.takeD.2.view.dset = Function.update w.view.dset e true := by
      rw [h]
      exact congrArg View.dset (World.view_markD w (by omega) true)
    rw [hview, Function.update_apply] at hd
    split at hd
    · subst d
      refine ⟨n, i.setBlk k w.takeD.1, k, by rw [hinode, if_pos rfl], ?_⟩
      rw [blk_setBlk i hk, if_pos rfl]
      refine ⟨w.takeD_fst_ne, ?_⟩
      rw [h]
      exact UInt32.toNat_ofNat_of_lt' (by rw [UInt32.size]; omega)
    · exact hold d hd

theorem Changes.owned {O : Prop} {m : ℕ} (h : Changes O True m w w') (hs : Solid w)
    (ho : w.Owned) : w'.Owned := by
  induction h with
  | nil => exact ho
  | step hc _ ih => exact ih (hc.solid hs) ((hc.kept hs).owned ho)
  | take n k hi hk hres hpre _ ih =>
      exact ih (hs.take hi hk (hres trivial) hpre) (owned_take hs ho hi hk (hres trivial))

/-- **A removal that finds all blocks of its inode leaks none.** -/
theorem Freed.owned {ino : ℕ} {j : Inode} (h : Freed w ino w') (hj : w.inode? ino = some j)
    (hall : ∀ k, j.blk k ≠ RESERVED_DNO → k * 4096 < j.i_size) (ho : w.Owned) : w'.Owned := by
  intro d hd
  obtain ⟨hd, hnot⟩ := h.dset j hj d hd
  obtain ⟨n, i, k, hi, hk, he⟩ := ho d hd
  have hn : n ≠ ino := by
    rintro rfl
    rw [hj, Option.some_inj] at hi
    subst hi
    have hlt := hall k hk
    refine hnot (List.mem_map.2 ⟨k, ?_, he⟩)
    rw [List.mem_range]
    omega
  obtain ⟨i', hi', hblk⟩ := h.stays n i hn hi
  have hsame : i'.blk k = i.blk k := by simp only [Inode.blk, hblk]
  exact ⟨n, i', k, hi', by rwa [hsame], by rwa [hsame]⟩

end Owned

/-- The operations of a run in which every removal finds all blocks of its inode. -/
def Op.Thorough (w : World) (op : Op) : Prop :=
  op.Pre w ∧ op.isUpdate = true ∧ op.releasesAll w = true

instance (w : World) (op : Op) : Decidable (op.Thorough w) :=
  inferInstanceAs (Decidable (_ ∧ _))

/-- The inode a removal is about is in memory. -/
theorem Op.Pre.victim {w : World} {op : Op} (h : op.Pre w) {ino : ℕ} (hv : op.victim = some ino) :
    ∃ j, w.inode? ino = some j := by
  cases op with
  | unlink dir q ino' =>
      obtain rfl : ino' = ino := Option.some.inj hv
      obtain ⟨j, hj, -⟩ := World.exists_of_holds h.2.2
      exact ⟨j, hj⟩
  | rmdir dir q ino' =>
      obtain rfl : ino' = ino := Option.some.inj hv
      obtain ⟨j, hj, -⟩ := World.exists_of_holds h.2.2
      exact ⟨j, hj⟩
  | _ => simp [Op.victim] at hv

theorem owned_of_step {w w' : World} {op : Op} {r : Reply} (hs : Solid w) (ho : w.Owned)
    (hop : op.Thorough w) (hrun : (step op).run w = .ok (r, w')) : w'.Owned := by
  obtain ⟨hpre, hup, hall⟩ := hop
  rcases (step_solid hs hup hpre).ok hrun with h | ⟨ino, hv, h⟩ | ⟨io, rfl⟩
  · exact h.changes.owned hs ho
  · obtain ⟨j, hj⟩ := hpre.victim hv
    refine h.owned hj (fun k hk => ?_) ho
    rw [Op.releasesAll, hv, Option.bind_some, hj, List.all_eq_true] at hall
    rcases Nat.lt_or_ge k 8 with hlt | hge
    · simpa [hk] using hall k (List.mem_range.2 hlt)
    · exact absurd (j.blk_of_le hge) hk
  · exact ho

/-- **No block leaks**, in every run in which the blocks of a removed inode lie below its size. -/
theorem noLeak_of_run {v : Volume} (h : v.Ok) {l : List (Op × Reply)} {w : World}
    (hrun : Run step (fun w op => op.Thorough w) (fresh v) l w) : w.NoLeak := by
  rw [Volume.fresh_eq h] at hrun
  have hinv : Solid w ∧ w.Owned := by
    refine hrun.invariant (I := fun w => Solid w ∧ w.Owned)
      ⟨solid_mounted h, fun d hd => ?_⟩ ?_
    · rw [Volume.dset_mounted h] at hd
      simp at hd
    · rintro w op r w' ⟨hs, ho⟩ hop hstep
      exact ⟨solid_of_step hs hop.2.1 hop.1 hstep, owned_of_step hs ho hop hstep⟩
  exact hinv.2.noLeak hinv.1 hinv.1.zero

/-- A file that is written and removed. -/
theorem noLeak_small : ∃ l w, Run step (fun w op => op.Thorough w) (fresh .small) l w ∧
    l.map Prod.snd = [(0, some 2), (1, none), (0, none)] ∧ w.NoLeak := by
  obtain ⟨l, w, hrun, hp⟩ := Volume.exists_run Volume.small_ok (fun w op => op.Thorough w)
    [.create 1 (.letters 0) 0, .write 2 4096 [7] 1, .unlink 1 (.letters 0) 2]
    (fun l _ => l.map Prod.snd == [(0, some 2), (1, none), (0, none)]) (by decide +kernel)
  exact ⟨l, w, hrun, by simpa using hp, noLeak_of_run Volume.small_ok hrun⟩

/-- **A write that copies nothing** leaves a block to a file of size zero, and the removal of the
file does not release it. -/
theorem not_noLeak_failed_write : ∃ l w,
    Run step (fun w op => op.Pre w ∧ op.isUpdate = true) (fresh .small) l w ∧ ¬w.NoLeak := by
  obtain ⟨l, w, hrun, hp⟩ := Volume.exists_run Volume.small_ok
    (fun w op => op.Pre w ∧ op.isUpdate = true)
    [.create 1 (.letters 0) 0, .write 2 0 [7] 0, .unlink 1 (.letters 0) 2]
    (fun _ w => w.view.dset 1 && w.sb.nr_i == 1 && (List.range 64).all fun n =>
      !w.view.iset n || (List.range 8).all fun k => (w.view.node n).blk k != 1) (by decide +kernel)
  simp only [Bool.and_eq_true, beq_iff_eq, List.all_eq_true, List.mem_range, Bool.or_eq_true,
    Bool.not_eq_true', bne_iff_ne] at hp
  obtain ⟨⟨hset, hi⟩, hall⟩ := hp
  have hs := solid_of_run Volume.small_ok hrun
  refine ⟨l, w, hrun, fun h => ?_⟩
  obtain ⟨n, k, hn, hk, he⟩ := h 1 hset
  have hlt := hs.iset_lt hn.1
  have hblk : (w.view.node n).blk k = 1 := UInt32.toNat_inj.1 he
  rcases Nat.lt_or_ge k 8 with hk₈ | hk₈
  · rcases hall n (by omega) with hf | hne
    · exact absurd (hn.1.symm.trans hf) (by decide)
    · exact hne k hk₈ hblk
  · exact hk (Attrs.blk_of_le _ hk₈)

end Yaf
