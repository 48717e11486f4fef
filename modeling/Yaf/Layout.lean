/-
**The on-disk layout.**

The constants and the index arithmetic of `include/super.h`, `include/fs.h`, `include/bitmap.h`
and `include/inode.h`.  A volume has five sections: the superblock, the inode bitmap, the data
bitmap, the inode blocks and the data blocks.  Every position in them is computed from the four
counts of the superblock.

Block ids are `unsigned long` in the source and stay far below `2 ^ 64`, so they are natural
numbers here.

Main definitions:

* `Yaf.Yaf_Sb_Info` — the four counts;
* `Yaf.BID_IBP_MIN`, …, `Yaf.BID_D_MAX` — the bounds of the sections;
* `Yaf.IDXI2BID`, `Yaf.IDXD2BID`, `Yaf.INO2BID`, `Yaf.INO2BOFF`, `Yaf.DNO2BID` — where a bitmap
  bit, an inode slot and a data block lie;
* `Yaf.Yaf_Sb_Info.Ok` — the relation between the counts of a volume and the size of its device.
-/

import Yaf.Lib.Prog
import Yaf.Lib.Mem

set_option relaxedAutoImplicit false
set_option autoImplicit false

namespace Yaf

/-! ### Constants -/

/-- Bytes in a block. -/
abbrev YAF_BLOCK_SIZE : ℕ := 4 * 1024

abbrev BITS_PER_BYTE : ℕ := 8

abbrev BITS_PER_BLOCK : ℕ := YAF_BLOCK_SIZE * BITS_PER_BYTE

/-- The array size of `i_block`. -/
abbrev YAF_IBLOCKS : ℕ := 8

abbrev YAF_DENTRY_SIZE : ℕ := 32

abbrev YAF_DENTRY_NAME_LEN : ℕ := YAF_DENTRY_SIZE - 4 - 4

/-- `sizeof(Yaf_Inode)`: sixteen words. -/
abbrev YAF_INODE_SIZE : ℕ := 64

abbrev INODES_PER_BLOCK : ℕ := YAF_BLOCK_SIZE / YAF_INODE_SIZE

abbrev DENTRYS_PER_BLOCK : ℕ := YAF_BLOCK_SIZE / YAF_DENTRY_SIZE

abbrev MAX_DENTRYS : ℕ := YAF_IBLOCKS * DENTRYS_PER_BLOCK

abbrev MAX_FILESIZE : ℕ := YAF_BLOCK_SIZE * YAF_IBLOCKS

/-- Reserved as invalid inode number. -/
abbrev RESERVED_INO : UInt32 := 0

/-- The inode number of the root directory. -/
abbrev ROOT_INO : ℕ := 1

/-- Reserved as invalid data block number: `-1` in a `uint32_t`. -/
abbrev RESERVED_DNO : UInt32 := 0xFFFFFFFF

section Values

@[simp] theorem YAF_BLOCK_SIZE_eq : YAF_BLOCK_SIZE = 4096 := rfl
@[simp] theorem BITS_PER_BLOCK_eq : BITS_PER_BLOCK = 32768 := rfl
@[simp] theorem YAF_INODE_SIZE_eq : YAF_INODE_SIZE = 64 := rfl
@[simp] theorem YAF_DENTRY_NAME_LEN_eq : YAF_DENTRY_NAME_LEN = 24 := rfl
@[simp] theorem INODES_PER_BLOCK_eq : INODES_PER_BLOCK = 64 := rfl
@[simp] theorem DENTRYS_PER_BLOCK_eq : DENTRYS_PER_BLOCK = 128 := rfl
@[simp] theorem MAX_DENTRYS_eq : MAX_DENTRYS = 1024 := rfl
@[simp] theorem MAX_FILESIZE_eq : MAX_FILESIZE = 32768 := rfl

end Values

/-! ### The sections -/

/-- The counts of the superblock, in host order. -/
structure Yaf_Sb_Info where
  /-- number of inode bitmap blocks -/
  nr_ibp : ℕ
  /-- number of data bitmap blocks -/
  nr_dbp : ℕ
  /-- number of inode blocks -/
  nr_i : ℕ
  /-- number of data blocks -/
  nr_d : ℕ
  deriving DecidableEq

def BID_MIN (_sb : Yaf_Sb_Info) : ℕ := 0

def BID_SB_MIN (sb : Yaf_Sb_Info) : ℕ := BID_MIN sb
def BID_SB_MAX (sb : Yaf_Sb_Info) : ℕ := BID_SB_MIN sb + 1 - 1

def BID_IBP_MIN (sb : Yaf_Sb_Info) : ℕ := BID_SB_MAX sb + 1
def BID_IBP_MAX (sb : Yaf_Sb_Info) : ℕ := BID_IBP_MIN sb + sb.nr_ibp - 1

def BID_DBP_MIN (sb : Yaf_Sb_Info) : ℕ := BID_IBP_MAX sb + 1
def BID_DBP_MAX (sb : Yaf_Sb_Info) : ℕ := BID_DBP_MIN sb + sb.nr_dbp - 1

def BID_I_MIN (sb : Yaf_Sb_Info) : ℕ := BID_DBP_MAX sb + 1
def BID_I_MAX (sb : Yaf_Sb_Info) : ℕ := BID_I_MIN sb + sb.nr_i - 1

def BID_D_MIN (sb : Yaf_Sb_Info) : ℕ := BID_I_MAX sb + 1
def BID_D_MAX (sb : Yaf_Sb_Info) : ℕ := BID_D_MIN sb + sb.nr_d - 1

/-- The block of an inode bitmap index. -/
def IDXI2BID (sb : Yaf_Sb_Info) (idx : ℕ) : ℕ := BID_IBP_MIN sb + idx / BITS_PER_BLOCK

/-- The block of a data bitmap index. -/
def IDXD2BID (sb : Yaf_Sb_Info) (idx : ℕ) : ℕ := BID_DBP_MIN sb + idx / BITS_PER_BLOCK

/-- The block of an inode slot. -/
def INO2BID (sb : Yaf_Sb_Info) (ino : ℕ) : ℕ := BID_I_MIN sb + ino / INODES_PER_BLOCK

/-- The offset of an inode slot in its block. -/
def INO2BOFF (_sb : Yaf_Sb_Info) (ino : ℕ) : ℕ := ino % INODES_PER_BLOCK * YAF_INODE_SIZE

/-- The block of a data block number. -/
def DNO2BID (sb : Yaf_Sb_Info) (dno : ℕ) : ℕ := BID_D_MIN sb + dno

/-- The offset of a bitmap index within its byte. -/
def IDX2BEOFF (idx : ℕ) : ℕ := idx % BITS_PER_BYTE

/-- The offset of the byte of a bitmap index within its block. -/
def IDX2BKOFF (idx : ℕ) : ℕ := idx % BITS_PER_BLOCK / BITS_PER_BYTE

section Closed

variable (sb : Yaf_Sb_Info)

@[simp] theorem BID_SB_MIN_eq : BID_SB_MIN sb = 0 := rfl

@[simp] theorem BID_IBP_MIN_eq : BID_IBP_MIN sb = 1 := rfl

@[simp] theorem BID_DBP_MIN_eq : BID_DBP_MIN sb = 1 + sb.nr_ibp := by
  simp only [BID_DBP_MIN, BID_IBP_MAX, BID_IBP_MIN_eq]; omega

@[simp] theorem BID_I_MIN_eq : BID_I_MIN sb = 1 + sb.nr_ibp + sb.nr_dbp := by
  simp only [BID_I_MIN, BID_DBP_MAX, BID_DBP_MIN_eq]; omega

@[simp] theorem BID_D_MIN_eq : BID_D_MIN sb = 1 + sb.nr_ibp + sb.nr_dbp + sb.nr_i := by
  simp only [BID_D_MIN, BID_I_MAX, BID_I_MIN_eq]; omega

theorem IDX2BKOFF_eq (idx : ℕ) : IDX2BKOFF idx = idx % 32768 / 8 := rfl

theorem IDX2BEOFF_eq (idx : ℕ) : IDX2BEOFF idx = idx % 32768 % 8 :=
  (Nat.mod_mod_of_dvd idx (by decide)).symm

theorem IDXI2BID_eq (idx : ℕ) : IDXI2BID sb idx = 1 + idx / 32768 := rfl

theorem IDXD2BID_eq (idx : ℕ) : IDXD2BID sb idx = 1 + sb.nr_ibp + idx / 32768 := by
  rw [IDXD2BID, BID_DBP_MIN_eq]; rfl

theorem INO2BID_eq (ino : ℕ) : INO2BID sb ino = 1 + sb.nr_ibp + sb.nr_dbp + ino / 64 := by
  rw [INO2BID, BID_I_MIN_eq]; rfl

theorem INO2BOFF_eq (ino : ℕ) : INO2BOFF sb ino = ino % 64 * 64 := rfl

theorem DNO2BID_eq (dno : ℕ) :
    DNO2BID sb dno = 1 + sb.nr_ibp + sb.nr_dbp + sb.nr_i + dno := by
  simp only [DNO2BID, BID_D_MIN_eq]

end Closed

/-! ### Sound counts -/

/-- **The counts of a volume** on a device of `nblk` blocks.  Every bitmap covers its section,
the sections fit on the device, and everything fits in 32 bits. -/
structure Yaf_Sb_Info.Ok (sb : Yaf_Sb_Info) (nblk : ℕ) : Prop where
  ibp_pos : 0 < sb.nr_ibp
  dbp_pos : 0 < sb.nr_dbp
  i_pos : 0 < sb.nr_i
  /-- the inode bitmap has a bit for every inode slot -/
  ibp_covers : sb.nr_i * 64 ≤ sb.nr_ibp * 32768
  /-- the data bitmap has a bit for every data block -/
  dbp_covers : sb.nr_d ≤ sb.nr_dbp * 32768
  /-- the five sections take as many blocks as there are inode slots -/
  total : 1 + sb.nr_ibp + sb.nr_dbp + sb.nr_i + sb.nr_d = sb.nr_i * 64
  fits : sb.nr_i * 64 ≤ nblk
  nblk_lt : nblk < 2 ^ 32

namespace Yaf_Sb_Info.Ok

variable {sb : Yaf_Sb_Info} {nblk : ℕ}

/-- The metadata sections are on the device. -/
theorem d_min_le (h : sb.Ok nblk) : 1 + sb.nr_ibp + sb.nr_dbp + sb.nr_i ≤ nblk := by
  have h₁ := h.total
  have h₂ := h.fits
  omega

/-- The block of an inode slot is on the device. -/
theorem INO2BID_lt (h : sb.Ok nblk) {ino : ℕ} (hi : ino < sb.nr_i * 64) :
    INO2BID sb ino < nblk := by
  have h₁ := h.d_min_le
  rw [INO2BID_eq]
  omega

/-- The inode bitmap is on the device. -/
theorem IDXI2BID_lt (h : sb.Ok nblk) {idx : ℕ} (hi : idx < sb.nr_ibp * 32768) :
    IDXI2BID sb idx < nblk := by
  have h₁ := h.d_min_le
  rw [IDXI2BID_eq]
  omega

/-- The data bitmap is on the device. -/
theorem IDXD2BID_lt (h : sb.Ok nblk) {idx : ℕ} (hi : idx < sb.nr_dbp * 32768) :
    IDXD2BID sb idx < nblk := by
  have h₁ := h.d_min_le
  rw [IDXD2BID_eq]
  omega

end Yaf_Sb_Info.Ok

end Yaf
