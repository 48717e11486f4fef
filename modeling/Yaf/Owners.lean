/-
**One owner for each data block, whatever reads fail.**

The answers of the block allocator are told apart from failures by one value, `RESERVED_DNO`.  A
failed read of the bitmap is answered with `RESERVED_INO`, which is block number zero, and a full
bitmap with a number made of `-ENOENT`; both are taken for a block.  As long as every answer is a
bit that was found, no block has two owners, whatever else of the device fails.

Main definitions:

* `Yaf.World.OneOwner` — no block is at two places of the block maps of allocated inodes;
* `Yaf.World.grants` — whether the next requests for blocks are answered with a bit;
* `Yaf.Op.clobbers` — whether a search for an inode number clears a bit of the data bitmap.

Main results:

* `Yaf.Takes.backed` — a block that is taken had no owner;
* `Yaf.oneOwner_of_run` — **no block has two owners**, in every run whose requests are granted.
-/

import Yaf.Accounting

set_option relaxedAutoImplicit false
set_option autoImplicit false

namespace Yaf

open Prog

/-! ### The property -/

namespace World

/-- **Every data block has one owner**: it occurs once in the block maps of allocated inodes. -/
def OneOwner (w : World) : Prop :=
  ∀ n m k l, w.Live n → w.Live m → (w.view.node n).blk k ≠ RESERVED_DNO →
    (w.view.node n).blk k = (w.view.node m).blk l → n = m ∧ k = l

/-- **The next `m` requests for blocks are granted**: each finds a clear bit in the first block of
the bitmap, which can be read. -/
def grants : ℕ → World → Bool
  | 0, _ => true
  | m + 1, w => w.readable .bitmap (BID_DBP_MIN w.sb) && !(Mem.clears w.dbit 32768).isEmpty &&
      grants m w.takeD.2

end World

/-- Whether an operation asks for an inode number in vain, and thereby clears a bit of the first
block of the data bitmap. -/
def Op.clobbers (w : World) (op : Op) : Bool :=
  op.overflows w && IDXI2BID w.sb NO_BIT.toNat == BID_DBP_MIN w.sb

/-! ### Blocks in use -/

/-- **The block maps in memory**: their entries are marked in the first block of the bitmap, and
no two are the same. -/
structure Backed (w : World) : Prop where
  marked : ∀ n i k, w.inode? n = some i → i.blk k ≠ RESERVED_DNO →
    (i.blk k).toNat < 32768 ∧ w.view.dset (i.blk k).toNat = true
  sole : ∀ n m i j k l, w.inode? n = some i → w.inode? m = some j → i.blk k ≠ RESERVED_DNO →
    i.blk k = j.blk l → n = m ∧ k = l

theorem Backed.oneOwner {w : World} (hb : Backed w) (hs : Solid w) : w.OneOwner := by
  intro n m k l hn hm hk he
  obtain ⟨i, hi⟩ := (hs.live n hn.1).resolve_left hn.2
  obtain ⟨j, hj⟩ := (hs.live m hm.1).resolve_left hm.2
  rw [World.node_of_inode? hi, Inode.attrs_blk] at hk he
  rw [World.node_of_inode? hj, Inode.attrs_blk] at he
  exact hb.sole n m i j k l hi hj hk he

section Steps

variable {w w' : World}

/-- Block maps that did not change keep their blocks, when these stay marked. -/
theorem Backed.of_back (hb : Backed w)
    (hback : ∀ n i', w'.inode? n = some i' → (∀ k, i'.blk k = RESERVED_DNO) ∨
      ∃ i, w.inode? n = some i ∧ i'.i_block = i.i_block)
    (hd : ∀ n i' k, w'.inode? n = some i' → i'.blk k ≠ RESERVED_DNO →
      (i'.blk k).toNat < 32768 → w.view.dset (i'.blk k).toNat = true →
      w'.view.dset (i'.blk k).toNat = true) : Backed w' := by
  have hold : ∀ n i' k, w'.inode? n = some i' → i'.blk k ≠ RESERVED_DNO →
      ∃ i, w.inode? n = some i ∧ ∀ l, i.blk l = i'.blk l := by
    intro n i' k hi' hk
    obtain ⟨i, hi, hblk⟩ := (hback n i' hi').resolve_left fun h => hk (h k)
    exact ⟨i, hi, fun l => by simp only [Inode.blk, hblk]⟩
  refine ⟨fun n i' k hi' hk => ?_, fun n m i' j' k l hi' hj' hk he => ?_⟩
  · obtain ⟨i, hi, hblk⟩ := hold n i' k hi' hk
    obtain ⟨hlt, hset⟩ := hb.marked n i k hi (by rwa [hblk])
    rw [hblk] at hlt hset
    exact ⟨hlt, hd n i' k hi' hk hlt hset⟩
  · obtain ⟨i, hi, hblk⟩ := hold n i' k hi' hk
    obtain ⟨j, hj, hblk'⟩ := hold m j' l hj' (he ▸ hk)
    exact hb.sole n m i j k l hi hj (by rwa [hblk]) (by rw [hblk, hblk', he])

/-- **A change leaves the marks of the first block alone**, unless a search for an inode number
goes there. -/
theorem Change.dset {O : Prop} (h : Change O w w') (hs : Solid w)
    (hO : O → IDXI2BID w.sb NO_BIT.toNat ≠ 1 + w.sb.nr_ibp) {d : ℕ} (hd : d < 32768) :
    w'.view.dset d = w.view.dset d := by
  cases h with
  | data e b =>
      rw [World.dset_setBlock]
      rw [DNO2BID_eq]
      omega
  | touch => rfl
  | create n di mode dir b off q hn _ _ _ _ =>
      have hbid : 1 + (w.create n di mode).sb.nr_ibp + (w.create n di mode).sb.nr_dbp ≤
          DNO2BID w.sb b := by
        rw [DNO2BID_eq]
        exact Nat.le_trans (Nat.le_add_right _ w.sb.nr_i) (Nat.le_add_right _ b)
      have hlt := (Mem.mem_clears.1 (List.mem_of_head? hn)).1
      have hpos := hs.held.layout.ibp_pos
      rw [World.link, World.dset_touch, World.dset_setBlock _ (.inr hbid),
        World.view_create w (by omega)]
      rfl
  | reserve =>
      have hpos := hs.held.layout.ibp_pos
      rw [World.view_markI w (n := 0) (by omega)]
      rfl
  | overflow h _ =>
      have hpos := hs.held.layout.dbp_pos
      have hne : IDXD2BID w.sb d ≠ IDXI2BID w.sb NO_BIT.toNat := by
        have hbid : IDXD2BID w.sb d = 1 + w.sb.nr_ibp := by
          rw [IDXD2BID_eq]
          omega
        rw [hbid]
        exact (hO h).symm
      rw [World.dset_of_lt (w := w.markI _ _) (by
          have : (w.markI NO_BIT.toNat false).sb = w.sb := rfl
          rw [this]
          omega),
        World.dset_of_lt (w := w) (by omega), World.dbit, World.dbit, World.markI,
        World.sb_setBlock, World.disk_setBlock_of_ne _ _ _ hne]
  | lock n hn _ => rw [World.view_lock hn]
  | tick => rfl

/-- **A change keeps the owners.** -/
theorem Change.backed {O : Prop} (h : Change O w w') (hs : Solid w)
    (hO : O → IDXI2BID w.sb NO_BIT.toNat ≠ 1 + w.sb.nr_ibp) (hb : Backed w) : Backed w' :=
  hb.of_back (h.kept hs).back fun _ _ _ _ _ hlt hset => by rw [h.dset hs hO hlt, hset]

/-- **So do changes that take no block.** -/
theorem Changes.backed {O : Prop} (h : Changes O True 0 w w') (hs : Solid w)
    (hO : O → IDXI2BID w.sb NO_BIT.toNat ≠ 1 + w.sb.nr_ibp) (hb : Backed w) : Backed w' := by
  generalize hm : 0 = m at h
  induction h with
  | nil => exact hb
  | step hc _ ih =>
      refine ih (hc.solid hs) ?_ (hc.backed hs hO hb) hm
      rwa [(hc.kept hs).sb]
  | take => simp at hm

theorem grants_touch (m : ℕ) (w : World) (n : ℕ) (f : Inode → Inode) :
    (w.touch n f).grants m = w.grants m := by
  induction m generalizing w with
  | zero => rfl
  | succ m ih =>
      rw [World.grants, World.grants, takeD_touch, ih]
      rfl

/-- A request that is granted is answered with the least clear bit. -/
theorem takeD_of_grants {m : ℕ} (h : w.grants (m + 1) = true) :
    ∃ d, d < 32768 ∧ w.dbit d = false ∧ w.takeD = (UInt32.ofNat d, w.markD d true) := by
  rw [World.grants, Bool.and_eq_true, Bool.and_eq_true, Bool.not_eq_true'] at h
  obtain ⟨⟨hread, hclear⟩, -⟩ := h
  obtain ⟨d, l, hl⟩ := List.exists_cons_of_ne_nil (List.isEmpty_eq_false_iff.1 hclear)
  have hd := Mem.mem_clears.1 (hl ▸ List.mem_cons_self)
  refine ⟨d, hd.1, hd.2, ?_⟩
  unfold World.takeD
  rw [if_pos hread, hl]
  rfl

/-- **A block that is taken had no owner.** -/
theorem backed_take (hs : Solid w) (hb : Backed w) {n k : ℕ} {i : Inode}
    (hi : w.inode? n = some i) (hk : k < 8) {m : ℕ} (hg : w.grants (m + 1) = true) :
    Backed (w.takeD.2.touch n fun i => i.setBlk k w.takeD.1) := by
  obtain ⟨d, hd, hclear, htake⟩ := takeD_of_grants hg
  have hpos := hs.held.layout.dbp_pos
  have hnat : (UInt32.ofNat d).toNat = d :=
    UInt32.toNat_ofNat_of_lt' (by rw [UInt32.size]; omega)
  have hset : w.view.dset d = false := by rw [World.dset_of_lt (by omega), hclear]
  have hdset : (w.takeD.2.touch n fun i => i.setBlk k w.takeD.1).view.dset =
      Function.update w.view.dset d true := by
    rw [World.dset_touch, htake]
    exact congrArg View.dset (World.view_markD w (by omega) true)
  -- an entry after the request is the new one, or was there before
  have hentry : ∀ p j l, (w.takeD.2.touch n fun i => i.setBlk k w.takeD.1).inode? p = some j →
      j.blk l ≠ RESERVED_DNO → (p = n ∧ l = k ∧ j.blk l = UInt32.ofNat d) ∨
        ∃ i₀, w.inode? p = some i₀ ∧ i₀.blk l = j.blk l := by
    intro p j l hj hl
    rw [World.inode?_touch, World.inode?_takeD, World.inode?_takeD] at hj
    split at hj
    · subst p
      rw [hi] at hj
      cases hj
      rw [blk_setBlk i hk]
      split
      · exact .inl ⟨rfl, ‹_›, by rw [htake]⟩
      · exact .inr ⟨i, hi, rfl⟩
    · exact .inr ⟨j, hj, rfl⟩
  have hold : ∀ p i₀ l, w.inode? p = some i₀ → i₀.blk l ≠ RESERVED_DNO →
      i₀.blk l ≠ UInt32.ofNat d := by
    intro p i₀ l hi₀ hl he
    have hmark := (hb.marked p i₀ l hi₀ hl).2
    rw [he, hnat, hset] at hmark
    simp at hmark
  refine ⟨fun p j l hj hl => ?_, fun p q j j' l l' hj hj' hl he => ?_⟩
  · rw [hdset, Function.update_apply]
    rcases hentry p j l hj hl with ⟨-, -, hnew⟩ | ⟨i₀, hi₀, hsame⟩
    · rw [hnew, hnat, if_pos rfl]
      exact ⟨hd, rfl⟩
    · obtain ⟨hlt, hmark⟩ := hb.marked p i₀ l hi₀ (by rwa [hsame])
      rw [hsame] at hlt hmark
      exact ⟨hlt, by split <;> simp [hmark]⟩
  · rcases hentry p j l hj hl with ⟨rfl, rfl, hnew⟩ | ⟨i₀, hi₀, hsame⟩
    · rcases hentry q j' l' hj' (he ▸ hl) with ⟨rfl, rfl, -⟩ | ⟨i₁, hi₁, hsame'⟩
      · exact ⟨rfl, rfl⟩
      · exact absurd (hsame'.trans (he.symm.trans hnew)) (hold q i₁ l' hi₁ (by rwa [hsame', ← he]))
    · rcases hentry q j' l' hj' (he ▸ hl) with ⟨rfl, rfl, hnew⟩ | ⟨i₁, hi₁, hsame'⟩
      · exact absurd (hsame.trans (he.trans hnew)) (hold p i₀ l hi₀ (by rwa [hsame]))
      · exact hb.sole p q i₀ i₁ l l' hi₀ hi₁ (by rwa [hsame]) (by rw [hsame, hsame', he])

/-- **Requests that are granted keep the owners.** -/
theorem Takes.backed {m : ℕ} (h : Takes True m w w') (hs : Solid w) (hb : Backed w)
    (hg : w.grants m = true) : Backed w' ∧ Solid w' ∧ w'.sb = w.sb := by
  induction h with
  | nil => exact ⟨hb, hs, rfl⟩
  | @cons w _ m n k i hi hk hres hpre _ ih =>
      have hnext : (w.takeD.2.touch n fun i => i.setBlk k w.takeD.1).grants m = true := by
        rw [World.grants, Bool.and_eq_true] at hg
        rw [grants_touch, hg.2]
      obtain ⟨hb', hs', hsb⟩ :=
        ih (hs.take hi hk (hres trivial) hpre) (backed_take hs hb hi hk hg) hnext
      exact ⟨hb', hs', hsb.trans w.takeD_consts.1⟩

/-- **A removal keeps the owners of the blocks it does not release.** -/
theorem Freed.backed {ino : ℕ} {j : Inode} (h : Freed w ino w') (hj : w.inode? ino = some j)
    (hb : Backed w) : Backed w' := by
  refine hb.of_back (fun n i' hi' => ?_) fun n i' k hi' hk hlt hset => ?_
  · obtain ⟨i, hi, -, hblk, -⟩ := h.same n i' hi'
    exact .inr ⟨i, hi, hblk⟩
  · refine h.keeps j hj _ (fun hmem => ?_) hset
    obtain ⟨i, hi, -, hblk, -⟩ := h.same n i' hi'
    have hsame : ∀ l, i.blk l = i'.blk l := fun l => by simp only [Inode.blk, hblk]
    -- otherwise the removed inode had the block as well
    obtain ⟨l, -, he⟩ := List.mem_map.1 hmem
    obtain ⟨rfl, -⟩ := hb.sole n ino i j k l hi hj (by rwa [hsame])
      (by rw [hsame, UInt32.toNat_inj.1 he])
    rw [h.gone] at hi'
    simp at hi'

end Steps

/-! ### Runs -/

/-- The operations of a run in which every request for a block is granted, and no bit of the data
bitmap is cleared by mistake. -/
def Op.Granted (w : World) (op : Op) : Prop :=
  op.Pre w ∧ op.isUpdate = true ∧ w.grants (op.requests w) = true ∧ op.clobbers w = false

instance (w : World) (op : Op) : Decidable (op.Granted w) :=
  inferInstanceAs (Decidable (_ ∧ _))

theorem backed_of_step {w w' : World} {op : Op} {r : Reply} (hs : Solid w) (hb : Backed w)
    (hop : op.Granted w) (hrun : (step op).run w = .ok (r, w')) : Backed w' := by
  obtain ⟨hpre, hup, hg, hcl⟩ := hop
  rcases (step_solid hs hup hpre).ok hrun with ⟨w₁, ht, hc⟩ | ⟨ino, hv, h⟩ | ⟨io, rfl⟩
  · obtain ⟨hb₁, hs₁, hsb⟩ := ht.backed hs hb hg
    refine hc.backed hs₁ (fun hov => ?_) hb₁
    rw [Op.clobbers, hov, Bool.true_and, beq_eq_false_iff_ne, BID_DBP_MIN_eq] at hcl
    rwa [hsb]
  · obtain ⟨j, hj⟩ := hpre.victim hv
    exact h.backed hj hb
  · exact ⟨hb.marked, hb.sole⟩

/-- In every run in which the requests for blocks are granted, the block maps are backed. -/
theorem backed_of_run {v : Volume} (h : v.Ok) {l : List (Op × Reply)} {w : World}
    (hrun : Run step (fun w op => op.Granted w) (fresh v) l w) : Solid w ∧ Backed w := by
  rw [Volume.fresh_eq h] at hrun
  -- the root directory has no block yet
  have hroot : ∀ n i k, v.mounted.inode? n = some i → i.blk k = RESERVED_DNO := by
    intro n i k hi
    rw [Volume.inode?_mounted] at hi
    split at hi
    · cases hi
      simp only [Inode.blk, Mkfs.rootInode, Yaf_Inode.toMem, dite_eq_ite, ite_self]
    · simp at hi
  refine hrun.invariant (I := fun w => Solid w ∧ Backed w) ⟨solid_mounted h, ?_, ?_⟩ ?_
  · exact fun n i k hi hk => absurd (hroot n i k hi) hk
  · exact fun n m i j k l hi _ hk _ => absurd (hroot n i k hi) hk
  · rintro w op r w' ⟨hs, hb⟩ hop hstep
    exact ⟨solid_of_step hs hop.2.1 hop.1 hstep, backed_of_step hs hb hop hstep⟩

/-- **No data block has two owners**, whatever reads fail, in every run in which the requests for
blocks are granted. -/
theorem oneOwner_of_run {v : Volume} (h : v.Ok) {l : List (Op × Reply)} {w : World}
    (hrun : Run step (fun w op => op.Granted w) (fresh v) l w) : w.OneOwner := by
  obtain ⟨hs, hb⟩ := backed_of_run h hrun
  exact hb.oneOwner hs

/-- A device on which a block of the bitmaps cannot be read. -/
def failing (bid : ℕ) : Req → Disk → Bool
  | .bread .bitmap b, _ => b != bid
  | _, _ => true

/-- Two files, and a third that could not be created since the inode bitmap was not read. -/
theorem oneOwner_small : ∃ l w, Run step (fun w op => op.Granted w) (fresh .small) l w ∧
    l.map Prod.snd = [(0, some 2), (1, none), (0, none), (-28, none), (1, none)] ∧
    w.OneOwner := by
  obtain ⟨l, w, hrun, hp⟩ := Volume.exists_run Volume.small_ok (fun w op => op.Granted w)
    [.create 1 (.letters 0) 0, .write 2 0 [7] 1, .device (failing 1), .create 1 (.letters 1) 0,
      .write 2 4096 [8] 1]
    (fun l _ => l.map Prod.snd == [(0, some 2), (1, none), (0, none), (-28, none), (1, none)])
    (by decide +kernel)
  exact ⟨l, w, hrun, by simpa using hp, oneOwner_of_run Volume.small_ok hrun⟩

/-- **A read of the data bitmap fails while a file is written**: the file is given block zero,
which is the block of the root directory. -/
theorem not_oneOwner_failed_read : ∃ l w,
    Run step (fun w op => op.Pre w ∧ op.isUpdate = true) (fresh .small) l w ∧
      ¬w.OneOwner := by
  obtain ⟨l, w, hrun, hp⟩ := Volume.exists_run Volume.small_ok
    (fun w op => op.Pre w ∧ op.isUpdate = true)
    [.create 1 (.letters 0) 0, .device (failing 2), .write 2 0 [7] 1]
    (fun _ w => w.view.iset 1 && w.view.iset 2 && (w.view.node 1).blk 0 == 0 &&
      (w.view.node 2).blk 0 == 0) (by decide +kernel)
  simp only [Bool.and_eq_true, beq_iff_eq] at hp
  obtain ⟨⟨⟨h₁, h₂⟩, hroot⟩, hfile⟩ := hp
  refine ⟨l, w, hrun, fun h => ?_⟩
  have hne : (w.view.node 1).blk 0 ≠ RESERVED_DNO := by
    rw [hroot]
    decide
  obtain ⟨heq, -⟩ := h 1 2 0 0 ⟨h₁, by decide⟩ ⟨h₂, by decide⟩ hne (hroot.trans hfile.symm)
  exact absurd heq (by decide)

end Yaf
