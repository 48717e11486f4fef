/-
**What a failed creation leaves behind.**

A creation asks for a slot, then for an inode number, then for the inode of that number, and each
of the three may be refused.  The answer of the first search is a signed offset that
`_yaf_create` keeps in an unsigned variable, so a refusal is taken for an offset.  The number of
the second search goes back to the bitmap when the inode cannot be had, also when it is no number
but `-ENOENT`.

Main definitions:

* `Yaf.World.noSlot` — the search for a free dentry is refused;
* `Yaf.FailsCleanly` — a creation that returns an error and changes nothing;
* `Yaf.World.igetFails` — the inode of a number cannot be had;
* `Yaf.World.Undoes` — when a refused creation of an inode can be undone.

Main results:

* `Yaf.not_create_failsCleanly` — **a creation without a slot never fails cleanly**: it reads
  `i_block` out of its bounds;
* `Yaf.yaf_new_inode_undone_iff` — **a failed creation of an inode is undone** exactly when the
  first block of the bitmap has a clear bit, which is not that of number zero, and can still be
  read.
-/

import Yaf.Owners

set_option relaxedAutoImplicit false
set_option autoImplicit false

namespace Yaf

open Prog

/-! ### No slot -/

/-- The search for a free dentry returns an error. -/
def World.noSlot (w : World) (dir : ℕ) : Bool :=
  match value (yaf_get_free_dentry dir) w with
  | .ok r => decide (r < 0)
  | .error _ => false

/-- **A clean failure**: an error is returned, and no bit, no link count and no data block
changed. -/
def FailsCleanly (w : World) (r : Reply) (w' : World) : Prop :=
  r.1 < 0 ∧ w'.view.iset = w.view.iset ∧ w'.view.dset = w.view.dset ∧
    w'.view.data = w.view.data ∧ ∀ n, (w'.view.node n).i_nlink = (w.view.node n).i_nlink

section NoSlot

variable {w : World} {dir : ℕ} {i : Inode}

/-- No error is below `-ENOSPC`, the directory stays in memory, and no inode number is marked. -/
theorem get_free_dentry_ge (hok : w.sb.Ok w.nblk) (hi : w.inode? dir = some i) :
    wp (yaf_get_free_dentry dir) (fun r w₁ => -ENOSPC ≤ r ∧ w₁.view.iset = w.view.iset ∧
      ∃ j, w₁.inode? dir = some j) (fun _ => True) w := by
  refine wp_yaf_get_free_dentry_of_forall hi hok (fun _ => trivial) ?_ ?_ ?_
  · intro r hr
    exact ⟨hr, rfl, i, hi⟩
  · intro doff _
    obtain ⟨j, hj, -⟩ := inode?_append hi doff (i.blk (doff / 4096))
    exact ⟨Int.le_trans (by decide) (Int.natCast_nonneg doff), iset_append _ _ _ _, j, hj⟩
  · intro doff _ _
    obtain ⟨j, hj, -⟩ := inode?_append (inode?_attach hi (doff / 4096)) doff w.takeD.1
    refine ⟨Int.le_trans (by decide) (Int.natCast_nonneg doff), ?_, j, hj⟩
    rw [append_attach, iset_append, iset_take]

/-- **A refusal is taken for an offset** past every block of the directory. -/
theorem create_outOfBounds (hok : w.sb.Ok w.nblk) (hi : w.inode? dir = some i) {q : Qstr}
    (hlen : q.len ≤ YAF_DENTRY_NAME_LEN) (h : w.noSlot dir = true) (mode : UInt16) :
    wp (_yaf_create dir q mode) (fun _ _ => False) (fun e => e = .outOfBounds) w := by
  have hge := get_free_dentry_ge hok hi
  rw [_yaf_create, if_neg (Nat.not_lt.2 hlen), wp_bind]
  unfold World.noSlot value at h
  cases hrun : (yaf_get_free_dentry dir).run w with
  | error e =>
      rw [hrun] at h
      exact absurd h Bool.false_ne_true
  | ok p =>
      rw [hrun] at h
      obtain ⟨hr, -, j, hj⟩ := hge.ok hrun
      have hneg : p.1 < 0 := of_decide_eq_true h
      have hno : ENOSPC = 28 := rfl
      have hoff : 8 ≤ (p.1 % 2 ^ 64).toNat / 4096 := by omega
      rw [wp_of_run_ok hrun, wp_linkDentry_of_le hj hoff]

/-- **A creation without a slot never fails cleanly.** -/
theorem not_create_failsCleanly (hok : w.sb.Ok w.nblk) (hi : w.inode? dir = some i) {q : Qstr}
    (hlen : q.len ≤ YAF_DENTRY_NAME_LEN) (h : w.noSlot dir = true) (mode : UInt16) :
    wp (_yaf_create dir q mode) (fun _ _ => False) (fun e => e = .outOfBounds) w ∧
      ¬wp (_yaf_create dir q mode) (FailsCleanly w) (fun e => e ≠ .outOfBounds) w := by
  have hstop := create_outOfBounds hok hi hlen h mode
  exact ⟨hstop, hstop.not (fun _ _ h _ => h) fun _ he hne => hne he⟩

end NoSlot

/-- A device on which a block cannot be read. -/
def unreadable (bid : ℕ) : Req → Disk → Bool
  | .bread _ b, _ => b != bid
  | _, _ => true

/-- A file was created, and the block of the root directory cannot be read any more. -/
theorem exists_noSlot : ∃ l w, Run step (fun w op => op.Pre w) (fresh .small) l w ∧
    w.sb.Ok w.nblk ∧ (∃ i, w.inode? ROOT_INO = some i) ∧ w.noSlot ROOT_INO = true := by
  obtain ⟨l, w, hrun, hp⟩ := Volume.exists_run Volume.small_ok (fun w op => op.Pre w ∧
      op.isUpdate = true) [.create 1 (.letters 0) 0, .device (unreadable 4)]
    (fun _ w => (w.inode? ROOT_INO).isSome && w.noSlot ROOT_INO) (by decide +kernel)
  rw [Bool.and_eq_true, Option.isSome_iff_exists] at hp
  exact ⟨l, w, hrun.mono fun _ _ h => h.1, (solid_of_run Volume.small_ok hrun).held.layout, hp⟩

theorem not_create_failsCleanly_small : ∃ l w,
    Run step (fun w op => op.Pre w) (fresh .small) l w ∧
      wp (_yaf_create ROOT_INO (.letters 1) S_IFREG) (fun _ _ => False)
        (fun e => e = .outOfBounds) w := by
  obtain ⟨l, w, hrun, hok, ⟨i, hi⟩, hslot⟩ := exists_noSlot
  exact ⟨l, w, hrun, (not_create_failsCleanly hok hi (by decide) hslot S_IFREG).1⟩

/-- **The block of a directory cannot be read**, and the next creation in it reads past the
`i_block` array. -/
theorem not_failsCleanly_unreadable : ∃ l w,
    Run step (fun w op => op.Pre w) (fresh .small) l w ∧ w.noSlot ROOT_INO = true ∧
      ¬wp (_yaf_create ROOT_INO (.letters 1) S_IFREG) (FailsCleanly w)
        (fun e => e ≠ .outOfBounds) w := by
  obtain ⟨l, w, hrun, hok, ⟨i, hi⟩, hslot⟩ := exists_noSlot
  have hstop := create_outOfBounds hok hi (q := .letters 1) (by decide) hslot S_IFREG
  exact ⟨l, w, hrun, hslot, hstop.not (fun _ _ h _ => h) fun _ he hne => hne he⟩

/-! ### No inode -/

namespace World

/-- `yaf_iget` returns an error: the number has no slot, or there is no memory for its inode, or
its slot cannot be read. -/
def igetFails (w : World) (n : ℕ) : Bool :=
  if n < w.sb.nr_i * INODES_PER_BLOCK then
    match w.icache n with
    | some c => !c.isNew && !w.readable .inode (INO2BID w.sb n)
    | none => !w.io .iget_locked w.disk || !w.readable .inode (INO2BID w.sb n)
  else true

/-- **When a refused creation of an inode is undone.**  Either the bitmap cannot be read at all,
or the first clear bit of its first block is that of a number other than zero, and the block can
be read once more when the inode of that number cannot be had. -/
def Undoes (w : World) : Prop :=
  w.readable .bitmap (BID_IBP_MIN w.sb) = true →
    ∃ n, (Mem.clears w.ibit BITS_PER_BLOCK).head? = some n ∧ n ≠ 0 ∧
      ((w.markI n true).igetFails n = true →
        (w.markI n true).readable .bitmap (IDXI2BID w.sb n) = true)

end World

section NoInode

variable {w : World}

/-- Marking a number that was not marked changes the bitmap. -/
theorem disk_markI_ne {n : ℕ} {used : Bool} (h : w.ibit n = !used) :
    (w.markI n used).disk ≠ w.disk := by
  intro he
  have hbit : (w.markI n used).ibit n = w.ibit n := by
    have hsb : (w.markI n used).sb = w.sb := rfl
    rw [World.ibit, World.ibit, he, hsb]
  have hset : (w.markI n used).ibit n = used := by
    rw [World.ibit, World.markI, World.sb_setBlock, World.disk_setBlock_self]
    cases used <;> simp [Mem.testBit_setBit, Mem.testBit_clearBit]
  rw [hset, h] at hbit
  cases used <;> simp at hbit

/-- The directory is in memory when the new inode is initialized. -/
theorem exists_inode?_load {dir : ℕ} {i : Inode} (hi : w.inode? dir = some i) (n : ℕ) :
    ∃ d, ((w.markI n true).load n).inode? dir = some d := by
  rw [World.load, World.inode?_setCore _ _ rfl]
  split
  · exact ⟨_, rfl⟩
  · exact ⟨i, hi⟩

variable {dir : ℕ} {i : Inode}

/-- **A failed creation of an inode is undone** exactly under the stated condition. -/
theorem yaf_new_inode_undone_iff (hok : w.sb.Ok w.nblk) (hi : w.inode? dir = some i)
    (mode : UInt16) :
    wp (yaf_new_inode dir mode) (fun r w' => ∀ e, r = .error e → w'.disk = w.disk)
      (fun e => e ≠ .panic) w ↔ w.Undoes := by
  rw [World.Undoes, BITS_PER_BLOCK_eq]
  cases hr : w.readable .bitmap (BID_IBP_MIN w.sb) with
  | false =>
      rw [wp_yaf_new_inode_of_noRead hok hr]
      exact iff_of_true (fun _ _ => rfl) fun h => absurd h Bool.false_ne_true
  | true =>
      simp only [forall_true_left]
      cases hn : (Mem.clears w.ibit 32768).head? with
      | none =>
          -- either the assertion fails or a bit of another block is cleared
          rw [wp_yaf_new_inode_of_none hok hr hn]
          refine iff_of_false ?_ (by simp)
          split
          · rename_i hbit
            exact fun h => disk_markI_ne hbit.2 (h _ rfl)
          · exact fun h => h rfl
      | some n =>
          have hclear := (Mem.mem_clears.1 (List.mem_of_head? hn)).2
          have hex : (∃ m, some n = some m ∧ m ≠ 0 ∧ ((w.markI m true).igetFails m = true →
              (w.markI m true).readable .bitmap (IDXI2BID w.sb m) = true)) ↔
              n ≠ 0 ∧ ((w.markI n true).igetFails n = true →
                (w.markI n true).readable .bitmap (IDXI2BID w.sb n) = true) := by
            simp
          rw [hex]
          rcases Nat.eq_zero_or_pos n with h₀ | hpos
          · subst h₀
            rw [wp_yaf_new_inode_zero hok hr hn rfl]
            exact iff_of_false (fun h => disk_markI_ne hclear (h _ rfl)) fun h => h.1 rfl
          have hne : n ≠ 0 := hpos.ne'
          have hsb : (w.markI n true).sb = w.sb := rfl
          have hic : (w.markI n true).icache n = w.icache n := rfl
          unfold World.igetFails
          rw [hsb, hic, INODES_PER_BLOCK_eq]
          rcases Nat.lt_or_ge n (w.sb.nr_i * 64) with hlt | hge
          · obtain ⟨d, hd⟩ := exists_inode?_load hi n
            rw [wp_yaf_new_inode_of_lt hok hr hn hne hlt hd, if_pos hlt]
            dsimp only
            cases w.icache n with
            | some c =>
                cases c.isNew <;>
                  cases (w.markI n true).readable .inode (INO2BID w.sb n) <;>
                    cases (w.markI n true).readable .bitmap (IDXI2BID w.sb n) <;> simp [hne]
            | none =>
                cases (w.markI n true).io .iget_locked (w.markI n true).disk <;>
                  cases (w.markI n true).readable .inode (INO2BID w.sb n) <;>
                    cases (w.markI n true).readable .bitmap (IDXI2BID w.sb n) <;>
                      simp [hne, World.lock]
          · rw [wp_yaf_new_inode_of_le hok hr hn hne hge, if_neg (Nat.not_lt.2 hge)]
            cases (w.markI n true).readable .bitmap (IDXI2BID w.sb n) <;> simp [hne]

end NoInode

/-- A fresh volume, when there is no memory for another inode. -/
def Volume.starved : World :=
  { Volume.small.mounted with
    io := fun r _ =>
      match r with
      | .iget_locked => false
      | _ => true }

/-- Number two was found, and released again. -/
theorem yaf_new_inode_undone_starved :
    wp (yaf_new_inode ROOT_INO S_IFREG)
      (fun r w' => ∀ e, r = .error e → w'.disk = Volume.starved.disk) (fun e => e ≠ .panic)
      Volume.starved := by
  have hok : Volume.starved.sb.Ok Volume.starved.nblk :=
    (Volume.held_mounted Volume.small_ok).layout
  have hi : Volume.starved.inode? ROOT_INO = some (Mkfs.rootInode 0 0).toMem :=
    Volume.inode?_mounted ROOT_INO
  exact (yaf_new_inode_undone_iff hok hi S_IFREG).2 fun _ =>
    ⟨2, by decide +kernel, by decide, fun _ => by decide +kernel⟩

/-- **The first block of the inode bitmap is full**: the number made of `-ENOENT` is released, and
its block is not on the device. -/
theorem not_undone_full_block : ∃ w : World, w.sb.Ok w.nblk ∧ w.io = ioOk ∧
    w.holds S_ISDIR ROOT_INO = true ∧
      ¬wp (yaf_new_inode ROOT_INO S_IFREG) (fun r w' => ∀ e, r = .error e → w'.disk = w.disk)
        (fun e => e ≠ .panic) w := by
  set w := (World.twoBlocks 255).setCore ROOT_INO
    (some ⟨{ Inode.blank with i_mode := S_IFDIR }, false, false⟩) with hw
  have hok : w.sb.Ok w.nblk := by
    constructor <;> decide
  have hr : w.readable .bitmap (BID_IBP_MIN w.sb) = true :=
    World.twoBlocks_readable 255 _ (by decide)
  have hfar : w.readable .bitmap (IDXI2BID w.sb NO_BIT.toNat) = false := by decide
  refine ⟨w, hok, rfl, by decide, ?_⟩
  rw [wp_yaf_new_inode_of_none hok hr World.twoBlocks_ibit, hfar]
  simp

end Yaf
