/-
**In-memory inodes** (`yaf_iget` and `yaf_new_inode` of `driver/inode.c`, `yaf_write_inode` of
`driver/super.c`).

Main definitions:

* `Yaf.yaf_iget` — read an inode slot into the in-memory inode of that number, cached or not;
* `Yaf.yaf_write_inode` — write the in-memory inode back to its slot;
* `Yaf.yaf_new_inode` — allocate an inode number and initialize its in-memory inode.

Main results:

* `Yaf.Yaf_Inode.read_writeSlot` — the codec round trip;
* `Yaf.wp_yaf_iget`, `Yaf.wp_yaf_write_inode` — what the two functions do.
-/

import Yaf.Bitmap
import Mathlib.Data.Fintype.Basic
import Mathlib.Tactic.FinCases

set_option relaxedAutoImplicit false
set_option autoImplicit false

namespace Yaf

open Prog

/-! ### The functions -/

/-- `yaf_iget`: the result is `0`, or the error the returned pointer carries. -/
def yaf_iget (ino : ℕ) : Driver ℤ := do
  let sb := (← get).sb
  if ino ≥ sb.nr_i * INODES_PER_BLOCK then pure (-EINVAL)
  else do
    if ← iget_locked ino then
      if ← sb_bread .inode (INO2BID sb ino) then
        -- `(Yaf_Inode *)bh->b_data + (ino % INODES_PER_BLOCK)`
        let yi := Yaf_Inode.read (← bData (INO2BID sb ino))
          (YAF_INODE_SIZE * (ino % INODES_PER_BLOCK))
        -- the fields are overwritten whether or not the inode is new
        modifyInode ino fun _ => yi.toMem
        unlock_new_inode ino
        pure 0
      else pure (- EIO)
    else pure (-ENOMEM)

/-- The slot of an inode, overwritten. -/
def Yaf_Inode.writeSlot (b : Block) (off : ℕ) (y : Yaf_Inode) : Block := Mem.wrWords b off y.words

/-- `yaf_write_inode`. -/
def yaf_write_inode (ino : ℕ) : Driver ℤ := do
  let sb := (← get).sb
  let inode ← getInode ino
  if ← sb_bread .inode (INO2BID sb ino) then
    modifyBuf (INO2BID sb ino) fun b => Yaf_Inode.writeSlot b (INO2BOFF sb ino) inode.toDisk
    pure 0
  else pure (- EIO)

/-- `inode_init_owner(&nop_mnt_idmap, inode, dir, mode)`. -/
def inode_init_owner (uid gid : UInt32) (dir : Inode) (mode : UInt16) (i : Inode) : Inode :=
  if dir.i_mode &&& S_ISGID ≠ 0 then
    { i with
      i_uid := uid
      i_gid := dir.i_gid
      i_mode := if S_ISDIR mode then mode ||| S_ISGID else mode }
  else { i with i_uid := uid, i_gid := gid, i_mode := mode }

/-- The second half of `yaf_new_inode`: the fields of the new inode are overwritten. -/
def initInode (dir ino : ℕ) (mode : UInt16) : Driver Unit := do
  let w ← get
  let d ← getInode dir
  modifyInode ino (inode_init_owner w.fsuid w.fsgid d mode)
  modifyInode ino fun i => { i with i_nlink := 1, i_size := 0 }
  let cur ← current_time
  modifyInode ino fun i => i.setTimes cur
  modifyInode ino fun i => { i with i_block := fun _ => RESERVED_DNO }
  mark_inode_dirty ino

/-- `yaf_new_inode`: the number of the new inode, or the error of the returned pointer. -/
def yaf_new_inode (dir : ℕ) (mode : UInt16) : Driver (Except ℤ ℕ) := do
  let ino ← yaf_get_free_inode
  if ino = RESERVED_INO then pure (.error (-ENOSPC))
  else do
    let ret ← yaf_iget ino.toNat
    if ret < 0 then do
      yaf_put_inode ino.toNat
      pure (.error ret)
    else do
      initInode dir ino.toNat mode
      pure (.ok ino.toNat)

/-! ### The codec -/

/-- **A slot is read back as it was written.** -/
theorem Yaf_Inode.read_writeSlot (b : Block) (off : ℕ) (y : Yaf_Inode) :
    Yaf_Inode.read (y.writeSlot b off) off = y := by
  have hw : ∀ i (h : i < y.words.length),
      Mem.rd32 (y.writeSlot b off) (off + 4 * i) = y.words[i] :=
    fun i h => Mem.rd32_wrWords y.words b off i h
  have hlen : y.words.length = 16 := rfl
  have hblk : ∀ k : Fin YAF_IBLOCKS,
      Mem.rd32 (y.writeSlot b off) (off + 32 + 4 * k.val) = y.i_block k := by
    intro k
    have hk : off + 32 + 4 * k.val = off + 4 * (8 + k.val) := by omega
    have hlt : k.val < 8 := k.isLt
    rw [hk, hw (8 + k.val) (by rw [hlen]; omega)]
    fin_cases k <;> rfl
  have hread : Yaf_Inode.read (y.writeSlot b off) off =
      ⟨y.i_mode, y.i_uid, y.i_gid, y.i_nlink, y.i_size, y.i_atime, y.i_mtime, y.i_ctime,
        y.i_block⟩ := by
    simp only [Yaf_Inode.read, Yaf_Inode.mk.injEq]
    exact ⟨hw 0 (by omega), hw 1 (by omega), hw 2 (by omega), hw 3 (by omega), hw 4 (by omega),
      hw 5 (by omega), hw 6 (by omega), hw 7 (by omega), funext hblk⟩
  exact hread

/-- Writing a slot leaves the rest of the block alone. -/
theorem Yaf_Inode.writeSlot_of_disjoint (b : Block) {off x : ℕ} (y : Yaf_Inode)
    (h : x < off ∨ off + 64 ≤ x) : y.writeSlot b off x = b x :=
  Mem.wrWords_of_disjoint _ _ h

theorem Yaf_Inode.read_congr {b b' : Block} {off : ℕ} (h : ∀ i < 64, b (off + i) = b' (off + i)) :
    Yaf_Inode.read b off = Yaf_Inode.read b' off := by
  have hr : ∀ k, k + 4 ≤ 64 → Mem.rd32 b (off + k) = Mem.rd32 b' (off + k) := by
    intro k hk
    refine Mem.rd32_congr fun i hi => ?_
    rw [Nat.add_assoc]
    exact h (k + i) (by omega)
  have h₀ := hr 0 (by omega)
  rw [Nat.add_zero] at h₀
  simp only [Yaf_Inode.read, h₀, hr 4 (by omega), hr 8 (by omega), hr 12 (by omega),
    hr 16 (by omega), hr 20 (by omega), hr 24 (by omega), hr 28 (by omega), Yaf_Inode.mk.injEq,
    true_and]
  funext k
  have hk : k.val < 8 := k.isLt
  rw [Nat.add_assoc]
  exact hr _ (by omega)

/-- The slot of an inode number on the device. -/
def World.slot (w : World) (ino : ℕ) : Yaf_Inode :=
  Yaf_Inode.read (w.disk (INO2BID w.sb ino)) (INO2BOFF w.sb ino)

/-! ### What the functions do -/

/-- The in-memory inode after `yaf_iget`: the slot of the device. -/
def World.load (w : World) (ino : ℕ) : World :=
  w.setCore ino (some ⟨(w.slot ino).toMem, ((w.icache ino).map InCore.dirty).getD false, false⟩)

/-- The in-memory inode after `iget_locked` made a new one: locked, and not filled in. -/
def World.lock (w : World) (ino : ℕ) : World := w.setCore ino (some ⟨Inode.blank, false, true⟩)

theorem wp_iget_locked {w : World} (ino : ℕ) {Q : Bool → World → Prop} {E : Fault → Prop} :
    wp (iget_locked ino) Q E w ↔
      match w.icache ino with
      | some c => if c.isNew then E .blocked else Q true w
      | none => if w.io .iget_locked w.disk then Q true (w.lock ino) else Q false w := by
  simp only [iget_locked, wp_bind, wp_get]
  cases hc : w.icache ino with
  | some c => cases hn : c.isNew <;> simp [hn]
  | none =>
      simp only [wp_bind, wp_ask]
      split <;> rfl

/-- **`yaf_iget` on a number in range**: the in-memory inode becomes what the device holds, also
when it was in memory before. -/
theorem wp_yaf_iget {w : World} {ino : ℕ} (hlt : ino < w.sb.nr_i * 64) {Q : ℤ → World → Prop}
    {E : Fault → Prop} :
    wp (yaf_iget ino) Q E w ↔
      match w.icache ino with
      | some c =>
          if c.isNew then E .blocked
          else if w.readable .inode (INO2BID w.sb ino) then Q 0 (w.load ino) else Q (- EIO) w
      | none =>
          if w.io .iget_locked w.disk then
            if w.readable .inode (INO2BID w.sb ino) then Q 0 (w.load ino)
            else Q (- EIO) (w.lock ino)
          else Q (-ENOMEM) w := by
  have hge : ¬ino ≥ w.sb.nr_i * 64 := by omega
  have hoff : YAF_INODE_SIZE * (ino % 64) = INO2BOFF w.sb ino := Nat.mul_comm _ _
  simp only [yaf_iget, wp_bind, wp_get, INODES_PER_BLOCK_eq, if_neg hge, wp_iget_locked, hoff]
  cases hc : w.icache ino with
  | some c =>
      cases hn : c.isNew with
      | true => simp only [hn, if_true]
      | false =>
          simp only [hn, Bool.false_eq_true, if_false, if_true, wp_bind, wp_sb_bread]
          split
          · simp only [wp_bind, wp_bData, wp_modifyInode, wp_unlock_new_inode, wp_pure,
              World.load, World.edit, World.slot, hc, World.icache_setCore_self,
              World.setCore_setCore, Option.map_some, Option.getD_some]
          · rfl
  | none =>
      have hread : (w.lock ino).readable .inode (INO2BID w.sb ino) =
          w.readable .inode (INO2BID w.sb ino) := rfl
      dsimp only
      split
      · simp only [if_true, wp_bind, wp_sb_bread, hread]
        split
        · simp only [wp_bind, wp_bData, wp_modifyInode, wp_unlock_new_inode, wp_pure, World.lock,
            World.load, World.edit, World.slot, hc, World.icache_setCore_self,
            World.setCore_setCore, World.disk_setCore, Option.map_some, Option.map_none,
            Option.getD_none]
        · rfl
      · simp only [Bool.false_eq_true, if_false, wp_pure]

/-- `yaf_iget` on a number out of range. -/
theorem wp_yaf_iget_of_le {w : World} {ino : ℕ} (hle : w.sb.nr_i * 64 ≤ ino)
    {Q : ℤ → World → Prop} {E : Fault → Prop} :
    wp (yaf_iget ino) Q E w ↔ Q (-EINVAL) w := by
  simp only [yaf_iget, wp_bind, wp_get, wp_ite, ge_iff_le, INODES_PER_BLOCK_eq, hle,
    not_true_eq_false, false_implies, true_implies, and_true, wp_pure]

/-- The slot of an inode after it was written back. -/
def World.flush (w : World) (ino : ℕ) (i : Inode) : World :=
  w.setBlock (INO2BID w.sb ino)
    (i.toDisk.writeSlot (w.disk (INO2BID w.sb ino)) (INO2BOFF w.sb ino))

theorem wp_yaf_write_inode {w : World} {ino : ℕ} {i : Inode} (hi : w.inode? ino = some i)
    {Q : ℤ → World → Prop} {E : Fault → Prop} :
    wp (yaf_write_inode ino) Q E w ↔
      if w.readable .inode (INO2BID w.sb ino) then Q 0 (w.flush ino i) else Q (- EIO) w := by
  simp only [yaf_write_inode, wp_bind, wp_get, wp_getInode hi, wp_sb_bread]
  split
  · simp only [wp_bind, wp_modifyBuf, wp_pure]
    rfl
  · rfl

end Yaf
