/-
**Making a volume** (`tool/mkfs.c`).

The tool computes the counts of the superblock from the size of the device and writes the
superblock, both bitmaps and the root inode.  Everything else on the device keeps its old
contents: the other inode slots and the data blocks are not written.

Here is what its writes leave on the device when all of them succeed, on a little-endian host.

Main definitions:

* `Yaf.Mkfs.counts` — the counts `write_superblock` computes, in 32-bit arithmetic;
* `Yaf.Mkfs.writes` — the writes of `main`, in order;
* `Yaf.Mkfs.image` — the device afterwards.

Main results:

* `Yaf.Mkfs.counts_ok` — the counts are sound for every device of at least 64 blocks;
* `Yaf.Mkfs.soundLayout_counts` — **the layout is sound for every device**, and both programs
  find the same bits.
-/

import Yaf.Inode

set_option relaxedAutoImplicit false
set_option autoImplicit false

namespace Yaf.Mkfs

/-! ### Counts -/

/-- `align_down`, on `uint32_t` arguments. -/
def align_down (x a : ℕ) : ℕ := x % 2 ^ 32 / a * a

/-- `idiv_ceil`, on `uint32_t` arguments. -/
def idiv_ceil (a b : ℕ) : ℕ := a % 2 ^ 32 / b + if a % 2 ^ 32 % b ≠ 0 then 1 else 0

/-- The counts of `write_superblock` for a device of `bnr` blocks.  `nr_d` is the difference of
the others from the aligned block count, cut off to 32 bits. -/
def counts (bnr : ℕ) : Yaf_Sb_Info :=
  let bnr := align_down bnr INODES_PER_BLOCK
  let nr_ibp := idiv_ceil bnr (YAF_BLOCK_SIZE * BITS_PER_BYTE)
  let nr_dbp := idiv_ceil bnr (YAF_BLOCK_SIZE * BITS_PER_BYTE)
  let nr_i := idiv_ceil bnr INODES_PER_BLOCK
  { nr_ibp, nr_dbp, nr_i
    nr_d := (((bnr : ℤ) - 1 - nr_i - nr_ibp - nr_dbp) % 2 ^ 32).toNat }

/-- The counts in closed form: as many inode slots as blocks, rounded down to whole inode blocks,
and bitmaps just large enough for them. -/
theorem counts_eq {bnr : ℕ} (h₁ : 64 ≤ bnr) (h₂ : bnr < 2 ^ 32) :
    ∃ p q, q = bnr / 64 ∧ q * 64 ≤ p * 32768 ∧ p * 32768 < q * 64 + 32768 ∧
      counts bnr = ⟨p, p, q, q * 64 - 1 - q - p - p⟩ := by
  have ha : align_down bnr 64 = bnr / 64 * 64 := by rw [align_down, Nat.mod_eq_of_lt h₂]
  have hq : bnr / 64 * 64 < 2 ^ 32 := by omega
  have hceil : ∀ b, idiv_ceil (bnr / 64 * 64) b =
      bnr / 64 * 64 / b + if bnr / 64 * 64 % b ≠ 0 then 1 else 0 := by
    intro b
    rw [idiv_ceil, Nat.mod_eq_of_lt hq]
  have hi : idiv_ceil (bnr / 64 * 64) 64 = bnr / 64 := by
    rw [hceil]
    simp
  have hb : YAF_BLOCK_SIZE * BITS_PER_BYTE = 32768 := rfl
  have hp : bnr / 64 * 64 ≤ idiv_ceil (bnr / 64 * 64) 32768 * 32768 ∧
      idiv_ceil (bnr / 64 * 64) 32768 * 32768 < bnr / 64 * 64 + 32768 := by
    rw [hceil]
    split <;> omega
  refine ⟨idiv_ceil (bnr / 64 * 64) 32768, bnr / 64, rfl, hp.1, hp.2, ?_⟩
  simp only [counts, INODES_PER_BLOCK_eq, ha, hb, hi]
  congr 1
  omega

/-- **The counts are sound for every device of at least 64 blocks.** -/
theorem counts_ok {bnr : ℕ} (h₁ : 64 ≤ bnr) (h₂ : bnr < 2 ^ 32) : (counts bnr).Ok bnr := by
  obtain ⟨p, q, hq, hp₁, hp₂, hc⟩ := counts_eq h₁ h₂
  rw [hc]
  constructor <;> (try dsimp only) <;> omega

/-- Only the low 32 bits of the block count matter. -/
theorem counts_mod (bnr : ℕ) : counts (bnr % 2 ^ 32) = counts bnr := by
  have h : align_down (bnr % 2 ^ 32) INODES_PER_BLOCK = align_down bnr INODES_PER_BLOCK := by
    rw [align_down, Nat.mod_mod]
    rfl
  rw [counts, h]
  rfl

/-- A device that is too small has no inode blocks. -/
theorem nr_i_counts_of_lt {bnr : ℕ} (h : bnr % 2 ^ 32 < 64) : (counts bnr).nr_i = 0 := by
  have ha : align_down bnr INODES_PER_BLOCK = 0 := by
    rw [align_down, INODES_PER_BLOCK_eq, Nat.div_eq_of_lt h]
  simp only [counts, ha]
  rfl

/-- Every count fits in 32 bits. -/
theorem counts_lt (bnr : ℕ) : (counts bnr).nr_ibp < 2 ^ 32 ∧ (counts bnr).nr_dbp < 2 ^ 32 ∧
    (counts bnr).nr_i < 2 ^ 32 ∧ (counts bnr).nr_d < 2 ^ 32 := by
  have hceil : ∀ a b, 2 ≤ b → idiv_ceil a b < 2 ^ 32 := by
    intro a b hb
    have hmod := Nat.mod_lt a (Nat.two_pow_pos 32)
    have hdiv := Nat.div_le_div_left hb (by decide) (a := a % 2 ^ 32)
    rw [idiv_ceil]
    split <;> omega
  refine ⟨hceil _ _ (by decide), hceil _ _ (by decide), hceil _ _ (by decide), ?_⟩
  simp only [counts]
  omega

/-! ### The layout -/

/-- The first and the last block of each section. -/
def sections (sb : Yaf_Sb_Info) : List (ℕ × ℕ) :=
  [(BID_SB_MIN sb, BID_SB_MAX sb), (BID_IBP_MIN sb, BID_IBP_MAX sb),
    (BID_DBP_MIN sb, BID_DBP_MAX sb), (BID_I_MIN sb, BID_I_MAX sb), (BID_D_MIN sb, BID_D_MAX sb)]

/-- `yaf_set_bit`. -/
def yaf_set_bit (byte : UInt8) (byte_off : ℕ) : UInt8 := byte ||| UInt8.ofNat (2 ^ byte_off)

/-- **A sound layout** of a device of `bnr` blocks. -/
structure SoundLayout (sb : Yaf_Sb_Info) (bnr : ℕ) : Prop where
  /-- the sections take the whole device, up to a multiple of the inodes in a block -/
  total : 1 + sb.nr_ibp + sb.nr_dbp + sb.nr_i + sb.nr_d =
    bnr / INODES_PER_BLOCK * INODES_PER_BLOCK
  contiguous : (sections sb).IsChain fun s t => s.2 + 1 = t.1
  disjoint : (sections sb).Pairwise fun s t => s.2 < t.1
  inside : ∀ s ∈ sections sb, s.1 ≤ s.2 ∧ s.2 < bnr
  inode : ∀ ino < sb.nr_i * INODES_PER_BLOCK,
    (BID_I_MIN sb ≤ INO2BID sb ino ∧ INO2BID sb ino ≤ BID_I_MAX sb) ∧
      BID_IBP_MIN sb ≤ IDXI2BID sb ino ∧ IDXI2BID sb ino ≤ BID_IBP_MAX sb
  dblock : ∀ dno < sb.nr_d,
    (BID_D_MIN sb ≤ DNO2BID sb dno ∧ DNO2BID sb dno ≤ BID_D_MAX sb) ∧
      BID_DBP_MIN sb ≤ IDXD2BID sb dno ∧ IDXD2BID sb dno ≤ BID_DBP_MAX sb
  slot_fits : ∀ ino, INO2BOFF sb ino + YAF_INODE_SIZE ≤ YAF_BLOCK_SIZE
  slot_disjoint : ∀ m n, m ≠ n → INO2BID sb m = INO2BID sb n →
    INO2BOFF sb m + YAF_INODE_SIZE ≤ INO2BOFF sb n ∨ INO2BOFF sb n + YAF_INODE_SIZE ≤ INO2BOFF sb m
  ibit_inj : ∀ m n, IDXI2BID sb m = IDXI2BID sb n → m % BITS_PER_BLOCK = n % BITS_PER_BLOCK → m = n
  dbit_inj : ∀ m n, IDXD2BID sb m = IDXD2BID sb n → m % BITS_PER_BLOCK = n % BITS_PER_BLOCK → m = n
  /-- the bit `mkfs` sets in a byte is the one the driver finds in the words of the block -/
  bit : ∀ (b : Block) (idx : ℕ),
    (b (IDX2BKOFF idx)).toBitVec.getLsbD (IDX2BEOFF idx) =
        (Mem.word b (8 * (idx % BITS_PER_BLOCK / 64)) 8).testBit (idx % BITS_PER_BLOCK % 64) ∧
      Function.update b (IDX2BKOFF idx) (yaf_set_bit (b (IDX2BKOFF idx)) (IDX2BEOFF idx)) =
        Mem.setBit b (idx % BITS_PER_BLOCK)

theorem toBitVec_yaf_set_bit (byte : UInt8) (byte_off : ℕ) :
    (yaf_set_bit byte byte_off).toBitVec = byte.toBitVec ||| BitVec.twoPow 8 byte_off := by
  have hmask : (UInt8.ofNat (2 ^ byte_off)).toBitVec = BitVec.twoPow 8 byte_off := by
    rw [← BitVec.toNat_inj, BitVec.toNat_twoPow]
    rfl
  rw [yaf_set_bit, UInt8.toBitVec_or, hmask]

/-- Where `mkfs` and the driver look for a bit. -/
theorem update_yaf_set_bit (b : Block) (idx : ℕ) :
    Function.update b (IDX2BKOFF idx) (yaf_set_bit (b (IDX2BKOFF idx)) (IDX2BEOFF idx)) =
      Mem.setBit b (idx % BITS_PER_BLOCK) := by
  funext x
  by_cases hx : x = idx % 32768 / 8
  · rw [hx, IDX2BKOFF_eq, Function.update_self, Mem.setBit, BITS_PER_BLOCK_eq, if_pos rfl,
      ← UInt8.toBitVec_inj, toBitVec_yaf_set_bit, IDX2BEOFF_eq]
  · rw [IDX2BKOFF_eq, Function.update_of_ne hx, BITS_PER_BLOCK_eq, Mem.setBit_of_ne _ hx]

/-- **The layout is sound for every device.** -/
theorem soundLayout_counts {bnr : ℕ} (h₁ : 64 ≤ bnr) (h₂ : bnr < 2 ^ 32) :
    SoundLayout (counts bnr) bnr := by
  obtain ⟨p, q, hq, hp₁, hp₂, hc⟩ := counts_eq h₁ h₂
  have hsec : sections (counts bnr) = [(0, 0), (1, p), (1 + p, p + p), (1 + p + p, p + p + q),
      (1 + p + p + q, q * 64 - 1)] := by
    rw [hc]
    simp only [sections, BID_SB_MAX, BID_IBP_MAX, BID_DBP_MAX, BID_I_MAX, BID_D_MAX,
      BID_SB_MIN_eq, BID_IBP_MIN_eq, BID_DBP_MIN_eq, BID_I_MIN_eq, BID_D_MIN_eq, List.cons.injEq,
      Prod.mk.injEq, true_and, and_true]
    omega
  constructor
  case total =>
    rw [hc, INODES_PER_BLOCK_eq]
    dsimp only
    omega
  case contiguous =>
    rw [hsec]
    simp only [List.isChain_cons_cons, List.IsChain.singleton, true_and, and_true]
    omega
  case disjoint =>
    rw [hsec]
    simp only [List.pairwise_cons, List.mem_cons, List.not_mem_nil, or_false, forall_eq_or_imp,
      forall_eq, List.Pairwise.nil, false_imp_iff, implies_true, and_true]
    omega
  case inside =>
    rw [hsec]
    simp only [List.mem_cons, List.not_mem_nil, or_false, forall_eq_or_imp, forall_eq]
    omega
  case inode =>
    intro ino hino
    rw [hc, INODES_PER_BLOCK_eq] at hino
    rw [hc, INO2BID_eq, IDXI2BID_eq, BID_I_MAX, BID_IBP_MAX, BID_I_MIN_eq, BID_IBP_MIN_eq]
    dsimp only at hino ⊢
    omega
  case dblock =>
    intro dno hdno
    rw [hc] at hdno
    rw [hc, DNO2BID_eq, IDXD2BID_eq, BID_D_MAX, BID_DBP_MAX, BID_D_MIN_eq, BID_DBP_MIN_eq]
    dsimp only at hdno ⊢
    omega
  case slot_fits =>
    intro ino
    rw [INO2BOFF_eq, YAF_INODE_SIZE_eq, YAF_BLOCK_SIZE_eq]
    omega
  case slot_disjoint =>
    intro m n hne hbid
    rw [INO2BID_eq, INO2BID_eq] at hbid
    rw [INO2BOFF_eq, INO2BOFF_eq, YAF_INODE_SIZE_eq]
    omega
  case ibit_inj =>
    intro m n hbid hmod
    rw [IDXI2BID_eq, IDXI2BID_eq] at hbid
    rw [BITS_PER_BLOCK_eq] at hmod
    omega
  case dbit_inj =>
    intro m n hbid hmod
    rw [IDXD2BID_eq, IDXD2BID_eq] at hbid
    rw [BITS_PER_BLOCK_eq] at hmod
    omega
  case bit =>
    intro b idx
    refine ⟨?_, update_yaf_set_bit b idx⟩
    rw [← Mem.testBit_eq_testBit_word, Mem.testBit, IDX2BEOFF_eq]
    rfl

theorem soundLayout_two_blocks : SoundLayout (counts 32832) 32832 :=
  soundLayout_counts (by decide) (by decide)

/-! ### Writes -/

/-- One `lseek` and `write`: `len` bytes at byte `off` of the device. -/
structure Write where
  off : ℕ
  len : ℕ
  byte : ℕ → UInt8

/-- The device after a write. -/
def Write.apply (d : Disk) (x : Write) : Disk := fun bid o =>
  let a := bid * YAF_BLOCK_SIZE + o
  if o < YAF_BLOCK_SIZE ∧ x.off ≤ a ∧ a < x.off + x.len then x.byte (a - x.off) else d bid o

/-- `MAGIC`, with the NUL byte that ends the string. -/
def MAGIC : List UInt8 := [121, 97, 102, 0]

/-- The superblock. -/
def superblock (sb : Yaf_Sb_Info) : Block :=
  Mem.wrWords (fun x => MAGIC.getD ((x - 16) % 4) 0) 0
    [UInt32.ofNat sb.nr_ibp, UInt32.ofNat sb.nr_dbp, UInt32.ofNat sb.nr_i, UInt32.ofNat sb.nr_d]

def write_superblock (sb : Yaf_Sb_Info) : List Write :=
  [⟨BID_SB_MIN sb * YAF_BLOCK_SIZE, YAF_BLOCK_SIZE, superblock sb⟩]

def write_inode_bitmap (sb : Yaf_Sb_Info) : List Write :=
  ((List.range sb.nr_ibp).map fun i =>
    ⟨(BID_IBP_MIN sb + i) * YAF_BLOCK_SIZE, YAF_BLOCK_SIZE, fun _ => 0⟩) ++
  [⟨IDXI2BID sb 0 * YAF_BLOCK_SIZE + IDX2BKOFF 0, 1,
    fun _ => yaf_set_bit (yaf_set_bit 0 (IDX2BEOFF 0)) (IDX2BEOFF ROOT_INO)⟩]

def write_data_bitmap (sb : Yaf_Sb_Info) : List Write :=
  (List.range sb.nr_dbp).map fun i =>
    ⟨(BID_DBP_MIN sb + i) * YAF_BLOCK_SIZE, YAF_BLOCK_SIZE, fun _ => 0⟩

/-- The root inode; `S_IFDIR | ACCESSPERMS`. -/
def rootInode (uid gid : UInt32) : Yaf_Inode where
  i_mode := 0o040777
  i_uid := uid
  i_gid := gid
  i_nlink := 1
  i_size := 0
  i_atime := 0
  i_mtime := 0
  i_ctime := 0
  i_block := fun _ => RESERVED_DNO

def write_inode_blocks (sb : Yaf_Sb_Info) (uid gid : UInt32) : List Write :=
  [⟨INO2BID sb ROOT_INO * YAF_BLOCK_SIZE + INO2BOFF sb ROOT_INO, YAF_INODE_SIZE,
    (rootInode uid gid).writeSlot (fun _ => 0) 0⟩]

/-- The writes of `main`. -/
def writes (bnr : ℕ) (uid gid : UInt32) : List Write :=
  let sb := counts bnr
  write_superblock sb ++ write_inode_bitmap sb ++ write_data_bitmap sb ++
    write_inode_blocks sb uid gid

/-- **The device after `mkfs`**, when it held `old` before. -/
def image (bnr : ℕ) (uid gid : UInt32) (old : Disk) : Disk :=
  (writes bnr uid gid).foldl Write.apply old

theorem image_mod (bnr : ℕ) (uid gid : UInt32) (old : Disk) :
    image (bnr % 2 ^ 32) uid gid old = image bnr uid gid old := by
  rw [image, image, writes, writes, counts_mod]

/-! ### What the image holds -/

/-- A write leaves the blocks it does not reach alone. -/
theorem Write.apply_of_disjoint (d : Disk) (x : Write) {bid : ℕ}
    (h : bid * 4096 + 4096 ≤ x.off ∨ x.off + x.len ≤ bid * 4096) : x.apply d bid = d bid := by
  funext o
  simp only [Write.apply, YAF_BLOCK_SIZE_eq]
  rw [if_neg (by omega)]

/-- A write that lies in one block, at an offset it covers. -/
theorem Write.apply_of_mem (d : Disk) {bid off len : ℕ} {byte : ℕ → UInt8} {o : ℕ}
    (ho : o < 4096) (h : off ≤ o) (h' : o < off + len) :
    Write.apply d ⟨bid * 4096 + off, len, byte⟩ bid o = byte (o - off) := by
  simp only [Write.apply, YAF_BLOCK_SIZE_eq]
  rw [if_pos (by omega)]
  congr 1
  omega

/-- Zeroing consecutive blocks. -/
theorem foldl_zero (d : Disk) (start n bid : ℕ) :
    ((List.range n).map fun i => (⟨(start + i) * 4096, 4096, fun _ => 0⟩ : Write)).foldl
        Write.apply d bid =
      if start ≤ bid ∧ bid < start + n then fun o => if o < 4096 then 0 else d bid o
      else d bid := by
  induction n with
  | zero => rw [if_neg (by omega)]; rfl
  | succ n ih =>
      rw [List.range_succ, List.map_append, List.foldl_append, List.map_singleton,
        List.foldl_cons, List.foldl_nil]
      by_cases hb : bid = start + n
      · subst hb
        rw [if_pos (by omega)]
        funext o
        rw [if_neg (by omega)] at ih
        by_cases ho : o < 4096
        · have := @Write.apply_of_mem (((List.range n).map fun i =>
            (⟨(start + i) * 4096, 4096, fun _ => 0⟩ : Write)).foldl Write.apply d) (start + n) 0
            4096 (fun _ => 0) o ho (by omega) (by omega)
          rw [Nat.add_zero] at this
          rw [this, if_pos ho]
        · rw [if_neg ho, ← ih]
          simp only [Write.apply, YAF_BLOCK_SIZE_eq]
          rw [if_neg (by omega)]
      · rw [Write.apply_of_disjoint _ _ (by dsimp only; omega), ih]
        refine if_congr (by omega) rfl rfl

section Image

variable {bnr : ℕ} (h₁ : 64 ≤ bnr) (h₂ : bnr < 2 ^ 32) (uid gid : UInt32) (old : Disk)

include h₁ h₂

/-- **Each section of the image.**  The superblock and the bitmaps are written in full; of the
inode blocks, only the slot of the root inode is. -/
theorem image_sections :
    (∀ o < 4096, image bnr uid gid old 0 o = superblock (counts bnr) o) ∧
    (∀ bid o, 1 ≤ bid → bid < BID_I_MIN (counts bnr) → o < 4096 →
      image bnr uid gid old bid o = if bid = 1 ∧ o = 0 then 3 else 0) ∧
    (∀ o, 64 ≤ o → o < 128 → image bnr uid gid old (BID_I_MIN (counts bnr)) o =
      (rootInode uid gid).writeSlot (fun _ => 0) 0 (o - 64)) := by
  have hok := counts_ok h₁ h₂
  have hpos := hok.ibp_pos
  generalize hsb : counts bnr = sb at hok hpos ⊢
  -- the device after the superblock, the two bitmaps and the root inode
  set d₁ := Write.apply old ⟨0 * 4096, 4096, superblock sb⟩ with hd₁
  set d₂ := ((List.range sb.nr_ibp).map fun i =>
    (⟨(1 + i) * 4096, 4096, fun _ => 0⟩ : Write)).foldl Write.apply d₁ with hd₂
  set d₃ := Write.apply d₂ ⟨1 * 4096 + 0, 1, fun _ => 3⟩ with hd₃
  set d₄ := ((List.range sb.nr_dbp).map fun i =>
    (⟨(1 + sb.nr_ibp + i) * 4096, 4096, fun _ => 0⟩ : Write)).foldl Write.apply d₃ with hd₄
  have himg : image bnr uid gid old = Write.apply d₄
      ⟨(1 + sb.nr_ibp + sb.nr_dbp) * 4096 + 64, 64, (rootInode uid gid).writeSlot (fun _ => 0) 0⟩ := by
    simp only [image, writes, hsb, write_superblock, write_inode_bitmap, write_data_bitmap,
      write_inode_blocks, List.foldl_append, List.foldl_cons, List.foldl_nil, INO2BID_eq,
      BID_IBP_MIN_eq, BID_DBP_MIN_eq]
    rfl
  rw [himg, BID_I_MIN_eq]
  refine ⟨fun o ho => ?_, fun bid o hlo hhi ho => ?_, fun o hlo hhi => ?_⟩
  · rw [Write.apply_of_disjoint _ _ (by dsimp only; omega), hd₄, foldl_zero, if_neg (by omega),
      hd₃, Write.apply_of_disjoint _ _ (by dsimp only; omega), hd₂, foldl_zero,
      if_neg (by omega), hd₁]
    have := @Write.apply_of_mem old 0 0 4096 (superblock sb) o ho (by omega) (by omega)
    simpa using this
  · rw [Write.apply_of_disjoint _ _ (by dsimp only; omega), hd₄, foldl_zero]
    by_cases hdb : 1 + sb.nr_ibp ≤ bid
    · rw [if_pos (by omega)]
      simp only [if_pos ho]
      rw [if_neg (by omega)]
    · rw [if_neg (by omega)]
      by_cases hb : bid = 1 ∧ o = 0
      · obtain ⟨rfl, rfl⟩ := hb
        rw [hd₃, if_pos ⟨rfl, rfl⟩]
        exact Write.apply_of_mem d₂ ho (by omega) (by omega)
      · rw [if_neg hb, hd₃]
        simp only [Write.apply, YAF_BLOCK_SIZE_eq]
        rw [if_neg (by omega), hd₂, foldl_zero, if_pos (by omega)]
        simp only [if_pos ho]
  · exact Write.apply_of_mem d₄ (by omega) hlo (by omega)

end Image

end Yaf.Mkfs
