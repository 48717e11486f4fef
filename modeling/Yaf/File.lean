/-
**File contents** (`driver/file.c`).

`yaf_get_block` maps a block of a file to a block of the device, and on request assigns blocks up
to it.  The rest of the path of a `write` is the VFS's: it splits the data at page boundaries,
calls `yaf_write_begin`, copies into the page and calls `yaf_write_end` for each piece.  A page is
as large as a block, so one piece lies in one block.

The page cache is not kept apart from the device: a piece is stored in the mapped block at once,
and a block past the end of the device is an I/O error.

Main definitions:

* `Yaf.yaf_get_block` — the block map;
* `Yaf.yaf_write_begin`, `Yaf.yaf_write_end`, `Yaf.vfs_write` — writing one piece;
* `Yaf.vfs_read` — reading one byte.
-/

import Yaf.View

set_option relaxedAutoImplicit false
set_option autoImplicit false

namespace Yaf

open Prog

/-! ### The block map -/

/-- The first loop of `yaf_get_block`: how many entries of `i_block` from `dbnr` on are assigned
before the first `RESERVED_DNO`; the result is the value `dbnr` ends with. -/
def countAssigned (i : Inode) : ℕ → ℕ → ℕ
  | 0, dbnr => dbnr
  | rem + 1, dbnr => if i.blk dbnr ≠ RESERVED_DNO then countAssigned i rem (dbnr + 1) else dbnr

/-- The second loop: assign `rem` blocks from entry `dbnr` on; `false` when there was none. -/
def allocBlocks (ino : ℕ) : ℕ → ℕ → Driver Bool
  | 0, _ => pure true
  | rem + 1, dbnr => do
      let dno ← yaf_get_free_dblock
      if dno = RESERVED_DNO then do
        mark_inode_dirty ino
        pure false
      else do
        setIblock ino dbnr dno
        allocBlocks ino rem (dbnr + 1)

/-- `yaf_get_block`: the return code, and the block `bh_result` was mapped to, if any. -/
def yaf_get_block (ino iblk : ℕ) (create : Bool) : Driver (ℤ × Option ℕ) := do
  let sb := (← get).sb
  if iblk ≥ YAF_IBLOCKS then pure (-EFBIG, none)
  else do
    let dbnr := countAssigned (← getInode ino) YAF_IBLOCKS 0
    if iblk ≥ dbnr then
      if create then
        if ← allocBlocks ino (iblk + 1 - dbnr) dbnr then do
          mark_inode_dirty ino
          pure (0, some (DNO2BID sb (← iblock (← getInode ino) iblk).toNat))
        else pure (-ENOSPC, none)
      else pure (0, none)
    else pure (0, some (DNO2BID sb (← iblock (← getInode ino) iblk).toNat))

/-! ### Writing -/

/-- `block_write_begin` for a piece of the page that holds `pos`: map the block of the page, and
have it at hand. -/
def block_write_begin (ino pos : ℕ) : Driver (Except ℤ ℕ) := do
  match ← yaf_get_block ino (pos / YAF_BLOCK_SIZE) true with
  | (ret, some bid) =>
      if ret < 0 then pure (.error ret)
      else if ← sb_bread .page bid then pure (.ok bid)
      else pure (.error (- EIO))
  | (ret, none) => pure (.error ret)

/-- `yaf_write_begin`: the block to write to, or a negative error. -/
def yaf_write_begin (ino pos len : ℕ) : Driver (Except ℤ ℕ) :=
  if pos + len > MAX_FILESIZE then pure (.error (-ENOSPC)) else block_write_begin ino pos

/-- Storing bytes in a block. -/
def storeBytes (b : Block) (off : ℕ) (data : List UInt8) : Block := fun x =>
  if off ≤ x ∧ x < off + data.length then data.getD (x - off) 0 else b x

/-- The copy of the VFS followed by `generic_write_end`: `copied` bytes reached the page. -/
def generic_write_end (ino pos : ℕ) (data : List UInt8) (copied bid : ℕ) : Driver ℕ := do
  modifyBuf bid fun b => storeBytes b (pos % YAF_BLOCK_SIZE) (data.take copied)
  if pos + copied > (← getInode ino).i_size then do
    modifyInode ino fun i => { i with i_size := pos + copied }
    mark_inode_dirty ino
  pure copied

/-- `yaf_write_end`: how many bytes were written. -/
def yaf_write_end (ino pos : ℕ) (data : List UInt8) (copied bid : ℕ) : Driver ℤ := do
  let ret ← generic_write_end ino pos data copied bid
  if ret < data.length then pure ret
  else do
    let cur ← current_time
    modifyInode ino fun i => { i with i_ctime := cur }
    modifyInode ino fun i => { i with i_mtime := cur }
    mark_inode_dirty ino
    pure ret

/-- One piece of a `write`: the number of bytes written, or a negative error. -/
def vfs_write (ino pos : ℕ) (data : List UInt8) (copied : ℕ) : Driver ℤ := do
  match ← yaf_write_begin ino pos data.length with
  | .error e => pure e
  | .ok bid => yaf_write_end ino pos data copied bid

/-! ### Reading -/

/-- Reading the byte at `off` of a file: `ok none` past the end, `error` when its block cannot be
read.  A block that is not mapped reads as zero. -/
def vfs_read (ino off : ℕ) : Driver (Except ℤ (Option UInt8)) := do
  if off < (← getInode ino).i_size then
    match ← yaf_get_block ino (off / YAF_BLOCK_SIZE) false with
    | (ret, some bid) =>
        if ret < 0 then pure (.error ret)
        else if ← sb_bread .page bid then
          pure (.ok (some ((← bData bid) (off % YAF_BLOCK_SIZE))))
        else pure (.error (- EIO))
    | (ret, none) => if ret < 0 then pure (.error ret) else pure (.ok (some 0))
  else pure (.ok none)

/-! ### The block map -/

/-- The first loop ends at the first `RESERVED_DNO`. -/
theorem countAssigned_eq {i : Inode} {nb : ℕ} (hnb : nb ≤ 8)
    (h : ∀ k < 8, i.blk k ≠ RESERVED_DNO ↔ k < nb) : countAssigned i YAF_IBLOCKS 0 = nb := by
  have hloop : ∀ rem k, k + rem = 8 → k ≤ nb → countAssigned i rem k = nb := by
    intro rem
    induction rem with
    | zero =>
        intro k hk hle
        rw [countAssigned]
        omega
    | succ rem ih =>
        intro k hk hle
        rw [countAssigned]
        have hiff := h k (by omega)
        split
        · exact ih (k + 1) (by omega) (hiff.1 ‹_›)
        · have : ¬k < nb := fun hlt => ‹¬_› (hiff.2 hlt)
          omega
  exact hloop 8 0 rfl (Nat.zero_le _)

/-- The entries before the value the first loop ends with are assigned, and the one there is
not. -/
theorem countAssigned_spec (i : Inode) : countAssigned i YAF_IBLOCKS 0 ≤ 8 ∧
    (∀ k < countAssigned i YAF_IBLOCKS 0, i.blk k ≠ RESERVED_DNO) ∧
    (countAssigned i YAF_IBLOCKS 0 < 8 → i.blk (countAssigned i YAF_IBLOCKS 0) = RESERVED_DNO) := by
  have hloop : ∀ rem k, k + rem = 8 → (∀ j < k, i.blk j ≠ RESERVED_DNO) →
      countAssigned i rem k ≤ 8 ∧ (∀ j < countAssigned i rem k, i.blk j ≠ RESERVED_DNO) ∧
        (countAssigned i rem k < 8 → i.blk (countAssigned i rem k) = RESERVED_DNO) := by
    intro rem
    induction rem with
    | zero =>
        intro k hk h
        rw [countAssigned]
        exact ⟨by omega, h, fun hlt => by omega⟩
    | succ rem ih =>
        intro k hk h
        rw [countAssigned]
        split
        · rename_i hne
          refine ih (k + 1) (by omega) fun j hj => ?_
          rcases Nat.lt_succ_iff_lt_or_eq.1 hj with hjk | rfl
          · exact h j hjk
          · exact hne
        · exact ⟨by omega, h, fun _ => not_not.1 ‹_›⟩
  exact hloop 8 0 rfl fun j hj => absurd hj (Nat.not_lt_zero _)

namespace World

/-- Fresh blocks for `rem` entries of `i_block`, from entry `k` on. -/
def assign (w : World) (ino : ℕ) : ℕ → ℕ → World
  | 0, _ => w
  | rem + 1, k => (w.takeD.2.edit ino fun i => i.setBlk k w.takeD.1).assign ino rem (k + 1)

theorem assign_consts (w : World) (ino rem k : ℕ) :
    (w.assign ino rem k).sb = w.sb ∧ (w.assign ino rem k).nblk = w.nblk ∧
      (w.assign ino rem k).io = w.io ∧ (w.assign ino rem k).now = w.now ∧
      (w.assign ino rem k).opens = w.opens := by
  induction rem generalizing w k with
  | zero => exact ⟨rfl, rfl, rfl, rfl, rfl⟩
  | succ rem ih =>
      obtain ⟨h₁, h₂, h₃, -, h₄, h₅⟩ := w.takeD_consts
      obtain ⟨g₁, g₂, g₃, g₄, g₅⟩ := ih (w.takeD.2.edit ino fun i => i.setBlk k w.takeD.1) (k + 1)
      exact ⟨g₁.trans h₁, g₂.trans h₂, g₃.trans h₃, g₄.trans h₄, g₅.trans h₅⟩

/-- The world after `yaf_get_block` was asked for entry `iblk`. -/
def mapped (w : World) (ino : ℕ) (i : Inode) (iblk : ℕ) : World :=
  let dbnr := countAssigned i YAF_IBLOCKS 0
  if iblk ≥ dbnr then (w.assign ino (iblk + 1 - dbnr) dbnr).touch ino id else w

/-- The world after a piece of a write was stored in block `bid`, where `i` is the inode. -/
def stored (w : World) (ino : ℕ) (i : Inode) (pos : ℕ) (data : List UInt8) (copied bid : ℕ) :
    World :=
  let w₁ := w.setBlock bid (storeBytes (w.disk bid) (pos % 4096) (data.take copied))
  let w₂ := if pos + copied > i.i_size then
      w₁.touch ino fun i => { i with i_size := pos + copied }
    else w₁
  if copied < data.length then w₂
  else w₂.touch ino fun i => { i with i_ctime := w.now, i_mtime := w.now }

end World

section Write

variable {w : World} {ino : ℕ} {i : Inode} (hi : w.inode? ino = some i)

include hi

theorem inode?_assign (rem k : ℕ) :
    ∃ j, (w.assign ino rem k).inode? ino = some j ∧
      (∀ m < k, j.blk m = i.blk m) ∧ j.i_size = i.i_size := by
  induction rem generalizing w i k with
  | zero => exact ⟨i, hi, fun _ _ => rfl, rfl⟩
  | succ rem ih =>
      have hstep : (w.takeD.2.edit ino fun i => i.setBlk k w.takeD.1).inode? ino =
          some (i.setBlk k w.takeD.1) := by
        rw [World.inode?_edit, if_pos rfl, World.inode?_takeD, hi]
        rfl
      obtain ⟨j, hj, hblk, hsz⟩ := ih hstep (k + 1)
      refine ⟨j, hj, fun m hm => ?_, hsz⟩
      rw [hblk m (by omega), ← Inode.attrs_blk, ← Inode.attrs_blk]
      unfold Attrs.blk Inode.attrs Inode.setBlk
      split
      · simp only [if_neg (show m ≠ k by omega)]
      · rfl

theorem wp_allocBlocks (hok : w.sb.Ok w.nblk) {rem k : ℕ} (hk : k + rem ≤ 8)
    {Q : Bool → World → Prop} {E : Fault → Prop} :
    wp (allocBlocks ino rem k) Q E w ↔ Q true (w.assign ino rem k) := by
  induction rem generalizing w i k with
  | zero => rfl
  | succ rem ih =>
      obtain ⟨h₁, h₂, -⟩ := w.takeD_consts
      have hstep : (w.takeD.2.edit ino fun i => i.setBlk k w.takeD.1).inode? ino =
          some (i.setBlk k w.takeD.1) := by
        rw [World.inode?_edit, if_pos rfl, World.inode?_takeD, hi]
        rfl
      have hok' : w.takeD.2.sb.Ok w.takeD.2.nblk := by
        rw [h₁, h₂]
        exact hok
      rw [allocBlocks, wp_bind, wp_yaf_get_free_dblock hok.dbp_pos, if_neg w.takeD_fst_ne, wp_bind,
        wp_setIblock _ (by omega), ih hstep hok' (by omega)]
      rfl

/-- **The block map**: a request with `create` always succeeds. -/
theorem wp_yaf_get_block (hok : w.sb.Ok w.nblk) {iblk : ℕ} (hk : iblk < 8)
    {Q : ℤ × Option ℕ → World → Prop} {E : Fault → Prop}
    (hQ : ∀ j, (w.mapped ino i iblk).inode? ino = some j →
      Q (0, some (DNO2BID w.sb (j.blk iblk).toNat)) (w.mapped ino i iblk)) :
    wp (yaf_get_block ino iblk true) Q E w := by
  have hlt : ¬iblk ≥ YAF_IBLOCKS := by
    have h₈ : YAF_IBLOCKS = 8 := rfl
    omega
  have hle := (countAssigned_spec i).1
  rw [yaf_get_block, wp_bind, wp_get, if_neg hlt, wp_bind, wp_getInode hi]
  unfold World.mapped at hQ
  dsimp only at hQ ⊢
  split
  · rw [if_pos ‹_›] at hQ
    rw [if_pos rfl, wp_bind, wp_allocBlocks hi hok (by omega), if_pos rfl, wp_bind,
      wp_mark_inode_dirty]
    obtain ⟨j, hj, -⟩ := inode?_assign hi (iblk + 1 - countAssigned i YAF_IBLOCKS 0)
      (countAssigned i YAF_IBLOCKS 0)
    have hj' : ((w.assign ino (iblk + 1 - countAssigned i YAF_IBLOCKS 0)
        (countAssigned i YAF_IBLOCKS 0)).touch ino id).inode? ino = some j := by
      rw [World.inode?_touch, if_pos rfl, hj]
      rfl
    rw [wp_bind, wp_getInode hj', wp_bind, wp_iblock _ hk, wp_pure]
    exact hQ j hj'
  · rw [if_neg ‹_›] at hQ
    rw [wp_bind, wp_getInode hi, wp_bind, wp_iblock _ hk, wp_pure]
    exact hQ i hi

omit hi in
theorem mapped_consts (iblk : ℕ) : (w.mapped ino i iblk).sb = w.sb ∧
    (w.mapped ino i iblk).nblk = w.nblk ∧ (w.mapped ino i iblk).io = w.io ∧
    (w.mapped ino i iblk).now = w.now ∧ (w.mapped ino i iblk).opens = w.opens := by
  unfold World.mapped
  dsimp only
  split
  · exact w.assign_consts ino _ _
  · exact ⟨rfl, rfl, rfl, rfl, rfl⟩

theorem wp_yaf_write_end {pos copied bid : ℕ} {data : List UInt8} {Q : ℤ → World → Prop} {E : Fault → Prop} :
    wp (yaf_write_end ino pos data copied bid) Q E w ↔
      Q copied (w.stored ino i pos data copied bid) := by
  have hi' : (w.setBlock bid (storeBytes (w.disk bid) (pos % 4096) (data.take copied))).inode?
      ino = some i := hi
  simp only [yaf_write_end, generic_write_end, wp_bind, wp_modifyBuf, YAF_BLOCK_SIZE_eq,
    wp_getInode hi', World.stored]
  split <;> split <;>
    simp only [wp_bind, wp_modifyInode, wp_mark_inode_dirty, wp_pure, World.touch_edit,
      World.touch_touch, wp_current_time, *, if_true, if_false, id] <;> rfl

/-- **One piece of a write.** -/
theorem wp_vfs_write (hok : w.sb.Ok w.nblk) {pos copied : ℕ} {data : List UInt8}
    (hlen : 0 < data.length) {Q : ℤ → World → Prop} {E : Fault → Prop}
    (hbig : pos + data.length > 32768 → Q (-ENOSPC) w)
    (hQ : pos + data.length ≤ 32768 → ∀ j,
      (w.mapped ino i (pos / 4096)).inode? ino = some j →
        if (w.mapped ino i (pos / 4096)).readable .page (DNO2BID w.sb (j.blk (pos / 4096)).toNat) then
          Q copied ((w.mapped ino i (pos / 4096)).stored ino j pos data copied
            (DNO2BID w.sb (j.blk (pos / 4096)).toNat))
        else Q (- EIO) (w.mapped ino i (pos / 4096))) :
    wp (vfs_write ino pos data copied) Q E w := by
  rw [vfs_write, wp_bind, yaf_write_begin, MAX_FILESIZE_eq]
  split
  · exact hbig ‹_›
  · rename_i hle
    rw [block_write_begin, YAF_BLOCK_SIZE_eq, wp_bind]
    refine wp_yaf_get_block hi hok (by omega) fun j hj => ?_
    have hQj := hQ (by omega) j hj
    dsimp only
    rw [if_neg (Int.lt_irrefl 0), wp_bind, wp_sb_bread]
    split
    · rw [if_pos ‹_›] at hQj
      exact (wp_yaf_write_end hj).2 hQj
    · rw [if_neg ‹_›] at hQj
      exact hQj

/-- **Reading a byte** below the size, in a block that the file has. -/
theorem wp_vfs_read {off : ℕ} (hoff : off < i.i_size)
    (hk : off / 4096 < countAssigned i YAF_IBLOCKS 0)
    {Q : Except ℤ (Option UInt8) → World → Prop} {E : Fault → Prop} :
    wp (vfs_read ino off) Q E w ↔
      if w.readable .page (DNO2BID w.sb (i.blk (off / 4096)).toNat) then
        Q (.ok (some (w.disk (DNO2BID w.sb (i.blk (off / 4096)).toNat) (off % 4096)))) w
      else Q (.error (- EIO)) w := by
  have hle := (countAssigned_spec i).1
  have hlt : ¬off / 4096 ≥ YAF_IBLOCKS := by
    have h₈ : YAF_IBLOCKS = 8 := rfl
    omega
  rw [vfs_read, wp_bind, wp_getInode hi, if_pos hoff, wp_bind, YAF_BLOCK_SIZE_eq, yaf_get_block,
    wp_bind, wp_get, if_neg hlt, wp_bind, wp_getInode hi, if_neg (Nat.not_le.2 hk), wp_bind,
    wp_getInode hi, wp_bind, wp_iblock _ (by omega), wp_pure]
  dsimp only
  rw [if_neg (Int.lt_irrefl 0), wp_bind, wp_sb_bread]
  split
  · rfl
  · rfl

end Write

end Yaf
