/-
**The bitmaps** (`driver/bitmap.c`).

Inode numbers and data block numbers are handed out by a first-fit search in their bitmap.  The
search of one block returns the bit it set or `-ENOENT`; its callers keep that code in an unsigned
variable and test it with `res >= 0`, which is always true.

Main definitions:

* `Yaf.yaf_get_free_bit`, `Yaf.yaf_put_bit` — one block;
* `Yaf.yaf_get_free_inode`, `Yaf.yaf_put_inode`, `Yaf.yaf_get_free_dblock`, `Yaf.yaf_put_dblock`
  — the two bitmap sections, each an instance of `Yaf.getFreeIdx` and `Yaf.putIdx`.

Main results:

* `Yaf.yaf_get_free_bit_eq` — the search of one block is first fit;
* `Yaf.wp_getFreeIdx` — **the search never leaves the first block of its section**: it returns
  the least clear index there, or `-ENOENT` read as an unsigned number;
* `Yaf.wp_putIdx` — an index is released exactly when its bit is set, else the driver panics.
-/

import Yaf.World

set_option relaxedAutoImplicit false
set_option autoImplicit false

namespace Yaf

open Prog

/-! ### One block -/

/-- The `for` loop of `yaf_get_free_bit`: `rem` bits are left to try, the next one is `nr`. -/
def getFreeBitFrom (b : Block) : ℕ → ℕ → ℤ × Block
  | 0, _ => (-ENOENT, b)
  | rem + 1, nr => if Mem.testBit b nr then getFreeBitFrom b rem (nr + 1) else (nr, Mem.setBit b nr)

/-- Return the unset bit of a bitmap block and mark it. -/
def yaf_get_free_bit (b : Block) (bits : ℕ) : ℤ × Block := getFreeBitFrom b bits 0

/-- Clear the given marked bit: `assert(test_and_clear_bit(nr, addr))`. -/
def yaf_put_bit (bid nr : ℕ) : Driver Unit := do
  let b ← bData bid
  modifyBuf bid fun b => Mem.clearBit b nr
  assert (Mem.testBit b nr)

/-! ### A section -/

/-- The loop over the blocks of a bitmap section, `rem` of them from `bid` on.  `noRead` is
returned when a block cannot be read, `full` when there is no block left. -/
def getFreeIdx (min : ℕ) (noRead full : UInt32) : ℕ → ℕ → Driver UInt32
  | 0, _ => pure full
  | rem + 1, bid => do
      if ← sb_bread .bitmap bid then
        let (r, b) := yaf_get_free_bit (← bData bid) BITS_PER_BLOCK
        modifyBuf bid fun _ => b
        let res : UInt32 := UInt32.ofInt r
        if res ≥ 0 then
          pure (UInt32.ofNat (res.toNat + (bid - min) * BITS_PER_BLOCK))
        else getFreeIdx min noRead full rem (bid + 1)
      else pure noRead

/-- Releasing an index whose bit lies in block `bid`. -/
def putIdx (bid idx : ℕ) : Driver Unit := do
  let bh ← sb_bread .bitmap bid
  assert bh
  yaf_put_bit bid (idx % BITS_PER_BLOCK)

/-- Return an unused inode number and mark it used. -/
def yaf_get_free_inode : Driver UInt32 := do
  let sb := (← get).sb
  getFreeIdx (BID_IBP_MIN sb) RESERVED_INO RESERVED_INO sb.nr_ibp (BID_IBP_MIN sb)

/-- Mark the given inode as unused. -/
def yaf_put_inode (ino : ℕ) : Driver Unit := do
  let sb := (← get).sb
  putIdx (IDXI2BID sb ino) ino

/-- Return an unused data block and mark it used.  A failed read returns `RESERVED_INO`. -/
def yaf_get_free_dblock : Driver UInt32 := do
  let sb := (← get).sb
  getFreeIdx (BID_DBP_MIN sb) RESERVED_INO RESERVED_DNO sb.nr_dbp (BID_DBP_MIN sb)

/-- Mark the given data block as unused. -/
def yaf_put_dblock (dno : UInt32) : Driver Unit := do
  let sb := (← get).sb
  putIdx (IDXD2BID sb dno.toNat) dno.toNat

/-! ### First fit -/

private theorem getFreeBitFrom_eq (b : Block) (rem nr : ℕ) :
    getFreeBitFrom b rem nr =
      match (List.range' nr rem).find? (fun i => !Mem.testBit b i) with
      | some i => ((i : ℤ), Mem.setBit b i)
      | none => (-ENOENT, b) := by
  induction rem generalizing nr with
  | zero => rfl
  | succ rem ih =>
      rw [getFreeBitFrom, List.range'_succ, List.find?_cons]
      cases h : Mem.testBit b nr with
      | true => simpa using ih (nr + 1)
      | false => rfl

/-- **First fit**: the head of the list of clear bits. -/
theorem yaf_get_free_bit_eq (b : Block) (bits : ℕ) :
    yaf_get_free_bit b bits =
      match (Mem.clears (Mem.testBit b) bits).head? with
      | some i => ((i : ℤ), Mem.setBit b i)
      | none => (-ENOENT, b) := by
  rw [yaf_get_free_bit, getFreeBitFrom_eq, ← List.range_eq_range', Mem.find?_eq_head?_clears]

/-- `-ENOENT` in a `uint32_t`. -/
abbrev NO_BIT : UInt32 := 0xFFFFFFFE

/-- **The search never leaves the first block of its section.** -/
theorem wp_getFreeIdx {w : World} (min rem : ℕ) (noRead full : UInt32)
    {Q : UInt32 → World → Prop} {E : Fault → Prop} :
    wp (getFreeIdx min noRead full (rem + 1) min) Q E w ↔
      if w.readable .bitmap min then
        match (Mem.clears (Mem.testBit (w.disk min)) 32768).head? with
        | some i => Q (UInt32.ofNat i) (w.setBlock min (Mem.setBit (w.disk min) i))
        | none => Q NO_BIT w
      else Q noRead w := by
  have hu : ∀ r : UInt32, r ≥ 0 := fun r => UInt32.zero_le
  have hof : ∀ i : ℕ, UInt32.ofInt i = UInt32.ofNat i := by
    intro i
    apply UInt32.toNat_inj.1
    simp only [UInt32.ofInt, UInt32.toNat_ofNat']
    omega
  rw [getFreeIdx, wp_bind, wp_sb_bread]
  split
  · simp only [wp_bind, wp_bData, yaf_get_free_bit_eq, hu, wp_modifyBuf, wp_pure, Nat.sub_self,
      Nat.zero_mul, Nat.add_zero, if_true]
    rw [BITS_PER_BLOCK_eq]
    cases (Mem.clears (Mem.testBit (w.disk min)) 32768).head? with
    | none => simp only [World.setBlock_disk]; rfl
    | some i => simp only [hof, UInt32.ofNat_toNat]
  · rfl

/-- **Releasing** an index that is marked clears its bit; any other release panics. -/
theorem wp_putIdx {w : World} (bid idx : ℕ) {Q : Unit → World → Prop} {E : Fault → Prop} :
    wp (putIdx bid idx) Q E w ↔
      if w.readable .bitmap bid = true ∧ Mem.testBit (w.disk bid) (idx % 32768) = true then
        Q () (w.setBlock bid (Mem.clearBit (w.disk bid) (idx % 32768)))
      else E .panic := by
  simp only [putIdx, yaf_put_bit, wp_bind, wp_sb_bread, wp_assert, wp_bData, wp_modifyBuf,
    BITS_PER_BLOCK_eq]
  cases w.readable .bitmap bid <;>
    cases Mem.testBit (w.disk bid) (idx % 32768) <;> simp

/-! ### The two sections -/

namespace World

/-- The bit of an inode number. -/
def ibit (w : World) (ino : ℕ) : Bool :=
  Mem.testBit (w.disk (IDXI2BID w.sb ino)) (ino % 32768)

/-- The bit of a data block number. -/
def dbit (w : World) (dno : ℕ) : Bool :=
  Mem.testBit (w.disk (IDXD2BID w.sb dno)) (dno % 32768)

/-- Marking an inode number as used or unused. -/
def markI (w : World) (ino : ℕ) (used : Bool) : World :=
  w.setBlock (IDXI2BID w.sb ino)
    (bif used then Mem.setBit (w.disk (IDXI2BID w.sb ino)) (ino % 32768)
      else Mem.clearBit (w.disk (IDXI2BID w.sb ino)) (ino % 32768))

/-- Marking a data block number as used or unused. -/
def markD (w : World) (dno : ℕ) (used : Bool) : World :=
  w.setBlock (IDXD2BID w.sb dno)
    (bif used then Mem.setBit (w.disk (IDXD2BID w.sb dno)) (dno % 32768)
      else Mem.clearBit (w.disk (IDXD2BID w.sb dno)) (dno % 32768))

@[simp] theorem markI_edit (w : World) (ino n : ℕ) (f : Inode → Inode) (used : Bool) :
    (w.edit n f).markI ino used = (w.markI ino used).edit n f := rfl

@[simp] theorem markD_edit (w : World) (dno n : ℕ) (f : Inode → Inode) (used : Bool) :
    (w.edit n f).markD dno used = (w.markD dno used).edit n f := rfl

@[simp] theorem markD_touch (w : World) (dno n : ℕ) (f : Inode → Inode) (used : Bool) :
    (w.touch n f).markD dno used = (w.markD dno used).touch n f := rfl

/-- The answer of `yaf_get_free_inode`, and the world it leaves. -/
@[irreducible] def takeI (w : World) : UInt32 × World :=
  if w.readable .bitmap (BID_IBP_MIN w.sb) then
    match (Mem.clears w.ibit 32768).head? with
    | some n => (UInt32.ofNat n, w.markI n true)
    | none => (NO_BIT, w)
  else (RESERVED_INO, w)

/-- The answer of `yaf_get_free_dblock`, and the world it leaves. -/
@[irreducible] def takeD (w : World) : UInt32 × World :=
  if w.readable .bitmap (BID_DBP_MIN w.sb) then
    match (Mem.clears w.dbit 32768).head? with
    | some d => (UInt32.ofNat d, w.markD d true)
    | none => (NO_BIT, w)
  else (RESERVED_INO, w)

/-- The three answers of `yaf_get_free_dblock`. -/
theorem takeD_cases (w : World) : w.takeD = (RESERVED_INO, w) ∨ w.takeD = (NO_BIT, w) ∧
    Mem.clears w.dbit 32768 = [] ∨ ∃ d, (Mem.clears w.dbit 32768).head? = some d ∧
      w.takeD = (UInt32.ofNat d, w.markD d true) := by
  unfold takeD
  split
  · cases h : (Mem.clears w.dbit 32768).head? with
    | none => exact .inr (.inl ⟨rfl, List.head?_eq_none_iff.1 h⟩)
    | some d => exact .inr (.inr ⟨d, rfl, rfl⟩)
  · exact .inl rfl

theorem takeD_fst_ne (w : World) : w.takeD.1 ≠ RESERVED_DNO := by
  rcases w.takeD_cases with h | ⟨h, -⟩ | ⟨d, hd, h⟩ <;> rw [h]
  · exact (by decide : RESERVED_INO ≠ RESERVED_DNO)
  · exact (by decide : NO_BIT ≠ RESERVED_DNO)
  · have hlt := (Mem.mem_clears.1 (List.mem_of_head? hd)).1
    intro he
    have := congrArg UInt32.toNat he
    rw [UInt32.toNat_ofNat_of_lt' (by rw [UInt32.size]; omega)] at this
    have hres : RESERVED_DNO.toNat = 4294967295 := rfl
    omega

/-- The allocator marks at most one block, and changes nothing else. -/
theorem takeD_snd (w : World) : w.takeD.2 = w ∨ ∃ d, w.takeD.2 = w.markD d true := by
  rcases w.takeD_cases with h | ⟨h, -⟩ | ⟨d, -, h⟩ <;> rw [h]
  · exact .inl rfl
  · exact .inl rfl
  · exact .inr ⟨d, rfl⟩

theorem takeD_consts (w : World) : w.takeD.2.sb = w.sb ∧ w.takeD.2.nblk = w.nblk ∧
    w.takeD.2.io = w.io ∧ w.takeD.2.icache = w.icache ∧ w.takeD.2.now = w.now ∧
    w.takeD.2.opens = w.opens := by
  rcases w.takeD_snd with h | ⟨d, h⟩ <;> rw [h] <;> exact ⟨rfl, rfl, rfl, rfl, rfl, rfl⟩

@[simp] theorem inode?_takeD (w : World) (m : ℕ) : w.takeD.2.inode? m = w.inode? m := by
  rw [inode?, w.takeD_consts.2.2.2.1]
  rfl

end World

section Sections

variable {w : World}

theorem wp_yaf_get_free_inode (hpos : 0 < w.sb.nr_ibp) {Q : UInt32 → World → Prop}
    {E : Fault → Prop} : wp yaf_get_free_inode Q E w ↔ Q w.takeI.1 w.takeI.2 := by
  have hbid : ∀ n < 32768, IDXI2BID w.sb n = 1 ∧ n % 32768 = n := by
    intro n hn
    rw [IDXI2BID_eq]
    omega
  have hcl : Mem.clears (Mem.testBit (w.disk 1)) 32768 = Mem.clears w.ibit 32768 := by
    refine Mem.clears_congr fun n hn => ?_
    simp only [World.ibit, hbid n hn]
  have hmark : ∀ n < 32768, w.markI n true = w.setBlock 1 (Mem.setBit (w.disk 1) n) := by
    intro n hn
    rw [World.markI, (hbid n hn).1, (hbid n hn).2, cond_true]
  obtain ⟨m, hm⟩ : ∃ m, w.sb.nr_ibp = m + 1 := ⟨_, (Nat.succ_pred hpos.ne').symm⟩
  simp only [yaf_get_free_inode, wp_bind, wp_get, BID_IBP_MIN_eq, hm, wp_getFreeIdx, hcl]
  unfold World.takeI
  rw [BID_IBP_MIN_eq]
  split
  · cases hh : (Mem.clears w.ibit 32768).head? with
    | none => exact Iff.rfl
    | some n => simp only [hmark n (Mem.mem_clears.1 (List.mem_of_head? hh)).1]
  · rfl

theorem wp_yaf_get_free_dblock (hpos : 0 < w.sb.nr_dbp) {Q : UInt32 → World → Prop}
    {E : Fault → Prop} : wp yaf_get_free_dblock Q E w ↔ Q w.takeD.1 w.takeD.2 := by
  have hbid : ∀ d < 32768, IDXD2BID w.sb d = 1 + w.sb.nr_ibp ∧ d % 32768 = d := by
    intro d hd
    rw [IDXD2BID_eq]
    omega
  have hcl : Mem.clears (Mem.testBit (w.disk (1 + w.sb.nr_ibp))) 32768 =
      Mem.clears w.dbit 32768 := by
    refine Mem.clears_congr fun d hd => ?_
    simp only [World.dbit, hbid d hd]
  have hmark : ∀ d < 32768, w.markD d true = w.setBlock (1 + w.sb.nr_ibp)
      (Mem.setBit (w.disk (1 + w.sb.nr_ibp)) d) := by
    intro d hd
    rw [World.markD, (hbid d hd).1, (hbid d hd).2, cond_true]
  obtain ⟨m, hm⟩ : ∃ m, w.sb.nr_dbp = m + 1 := ⟨_, (Nat.succ_pred hpos.ne').symm⟩
  simp only [yaf_get_free_dblock, wp_bind, wp_get, BID_DBP_MIN_eq, hm, wp_getFreeIdx, hcl]
  unfold World.takeD
  rw [BID_DBP_MIN_eq]
  split
  · cases hh : (Mem.clears w.dbit 32768).head? with
    | none => exact Iff.rfl
    | some d => simp only [hmark d (Mem.mem_clears.1 (List.mem_of_head? hh)).1]
  · rfl

theorem wp_yaf_put_inode (ino : ℕ) {Q : Unit → World → Prop} {E : Fault → Prop} :
    wp (yaf_put_inode ino) Q E w ↔
      if w.readable .bitmap (IDXI2BID w.sb ino) = true ∧ w.ibit ino = true then
        Q () (w.markI ino false)
      else E .panic := by
  simp only [yaf_put_inode, wp_bind, wp_get, wp_putIdx]
  rfl

theorem wp_yaf_put_dblock (dno : UInt32) {Q : Unit → World → Prop} {E : Fault → Prop} :
    wp (yaf_put_dblock dno) Q E w ↔
      if w.readable .bitmap (IDXD2BID w.sb dno.toNat) = true ∧ w.dbit dno.toNat = true then
        Q () (w.markD dno.toNat false)
      else E .panic := by
  simp only [yaf_put_dblock, wp_bind, wp_get, wp_putIdx]
  rfl

end Sections

/-! ### The search of a whole section -/

/-- **First fit over `len` bits**: the answer `r` is the least index whose bit is clear, and
`mark` of it is the world afterwards; when no bit is clear the answer is `full` and nothing
changes. -/
def TakesLeast (bit : ℕ → Bool) (mark : ℕ → World) (len : ℕ) (full : UInt32) (w : World)
    (r : UInt32) (w' : World) : Prop :=
  (∀ n < len, bit n = false → (∀ m < n, bit m = true) → r.toNat = n ∧ w' = mark n) ∧
    ((∀ n < len, bit n = true) → r = full ∧ w' = w)

/-- A search of the first block only is a search of the section when that block has a clear
bit. -/
theorem takesLeast_of_head? {bit : ℕ → Bool} {mark : ℕ → World} {len n : ℕ} {full : UInt32}
    {w : World} (hlen : 32768 ≤ len) (h : (Mem.clears bit 32768).head? = some n) :
    TakesLeast bit mark len full w (UInt32.ofNat n) (mark n) := by
  rw [← Mem.find?_eq_head?_clears, List.find?_range_eq_some] at h
  obtain ⟨hclear, hn, hbelow⟩ := h
  rw [Bool.not_eq_true'] at hclear
  rw [List.mem_range] at hn
  constructor
  · intro m hm hbit hmin
    rcases Nat.lt_trichotomy m n with hlt | rfl | hgt
    · have := hbelow m hlt
      simp [hbit] at this
    · exact ⟨UInt32.toNat_ofNat_of_lt' (by rw [UInt32.size]; omega), rfl⟩
    · exact absurd (hmin n hgt) (by rw [hclear]; exact Bool.false_ne_true)
  · intro hall
    exact absurd (hall n (by omega)) (by rw [hclear]; exact Bool.false_ne_true)

/-- When the first block is full, what the search answers is right for no section. -/
theorem not_takesLeast_noBit {bit : ℕ → Bool} {mark : ℕ → World} {len : ℕ} {full : UInt32}
    {w : World} (hfull : full ≠ NO_BIT) (hmark : ∀ n, bit n = false → mark n ≠ w) :
    ¬TakesLeast bit mark len full w NO_BIT w := by
  rintro ⟨hleast, hnone⟩
  by_cases h : ∃ n, n < len ∧ bit n = false
  · have hmin := Nat.find_spec h
    refine hmark _ hmin.2 (hleast _ hmin.1 hmin.2 fun m hm => ?_).2.symm
    have := Nat.find_min h hm
    simpa [show m < len by omega] using this
  · refine hfull (hnone fun n hn => ?_).1.symm
    simpa [hn] using not_exists.1 h n

theorem markI_ne {w : World} {n : ℕ} (h : w.ibit n = false) : w.markI n true ≠ w := by
  intro he
  have hset : (w.markI n true).ibit n = true := by
    rw [World.ibit, World.markI, World.sb_setBlock, World.disk_setBlock_self, cond_true, Mem.testBit_setBit,
      if_pos rfl]
  rw [he, h] at hset
  exact Bool.false_ne_true hset

theorem markD_ne {w : World} {d : ℕ} (h : w.dbit d = false) : w.markD d true ≠ w := by
  intro he
  have hset : (w.markD d true).dbit d = true := by
    rw [World.dbit, World.markD, World.sb_setBlock, World.disk_setBlock_self, cond_true, Mem.testBit_setBit,
      if_pos rfl]
  rw [he, h] at hset
  exact Bool.false_ne_true hset

section Search

variable (w : World) (hi : 1 ≤ w.sb.nr_ibp) (hd : 1 ≤ w.sb.nr_dbp)
  (hio : ∀ bid, BID_IBP_MIN w.sb ≤ bid → bid ≤ BID_DBP_MAX w.sb → w.readable .bitmap bid = true)

include hi hd hio

/-- **The allocators search the whole bitmap exactly when its first block has a clear bit.** -/
theorem get_free_takesLeast_iff :
    (wp yaf_get_free_inode (TakesLeast w.ibit (w.markI · true) (w.sb.nr_ibp * BITS_PER_BLOCK)
        RESERVED_INO w) (fun _ => False) w ↔ ∃ n < BITS_PER_BLOCK, w.ibit n = false) ∧
      (wp yaf_get_free_dblock (TakesLeast w.dbit (w.markD · true) (w.sb.nr_dbp * BITS_PER_BLOCK)
        RESERVED_DNO w) (fun _ => False) w ↔ ∃ d < BITS_PER_BLOCK, w.dbit d = false) := by
  have hmax : BID_DBP_MAX w.sb = w.sb.nr_ibp + w.sb.nr_dbp := by
    rw [BID_DBP_MAX, BID_DBP_MIN_eq]
    omega
  have hri := hio (BID_IBP_MIN w.sb) le_rfl (by rw [BID_IBP_MIN_eq]; omega)
  have hrd := hio (BID_DBP_MIN w.sb) (by rw [BID_IBP_MIN_eq, BID_DBP_MIN_eq]; omega)
    (by rw [BID_DBP_MIN_eq]; omega)
  have hclear : ∀ bit : ℕ → Bool, (∃ n < 32768, bit n = false) ↔ Mem.clears bit 32768 ≠ [] := by
    intro bit
    constructor
    · rintro ⟨n, hn⟩
      exact List.ne_nil_of_mem (Mem.mem_clears.2 hn)
    · intro h
      obtain ⟨n, hn⟩ := List.exists_mem_of_ne_nil _ h
      exact ⟨n, Mem.mem_clears.1 hn⟩
  rw [wp_yaf_get_free_inode hi, wp_yaf_get_free_dblock hd, BITS_PER_BLOCK_eq, hclear, hclear]
  unfold World.takeI World.takeD
  rw [if_pos hri, if_pos hrd]
  constructor
  · cases h : (Mem.clears w.ibit 32768).head? with
    | none =>
        refine iff_of_false (not_takesLeast_noBit (by decide) fun n => markI_ne) ?_
        exact not_not.2 (List.head?_eq_none_iff.1 h)
    | some n =>
        refine iff_of_true (takesLeast_of_head? (by omega) h) ?_
        exact List.ne_nil_of_mem (List.mem_of_head? h)
  · cases h : (Mem.clears w.dbit 32768).head? with
    | none =>
        refine iff_of_false (not_takesLeast_noBit (by decide) fun n => markD_ne) ?_
        exact not_not.2 (List.head?_eq_none_iff.1 h)
    | some d =>
        refine iff_of_true (takesLeast_of_head? (by omega) h) ?_
        exact List.ne_nil_of_mem (List.mem_of_head? h)

end Search

/-- A volume with two blocks in each bitmap; the first of both is filled with `byte`. -/
def World.twoBlocks (byte : UInt8) : World where
  sb := ⟨2, 2, 1024, 64507⟩
  nblk := 65536
  disk := fun bid _ => if bid = 1 ∨ bid = 3 then byte else 0
  icache := fun _ => none
  opens := fun _ => 0
  now := 0
  fsuid := 0
  fsgid := 0
  io := ioOk

theorem World.twoBlocks_readable (byte : UInt8) (bid : ℕ)
    (h : bid ≤ BID_DBP_MAX (World.twoBlocks byte).sb) :
    (World.twoBlocks byte).readable .bitmap bid = true := by
  refine World.readable_of_ioOk _ rfl _ (Nat.lt_of_le_of_lt h ?_)
  rw [BID_DBP_MAX, BID_DBP_MIN_eq]
  exact Nat.lt_of_sub_eq_succ rfl

theorem get_free_takesLeast_twoBlocks :
    wp yaf_get_free_inode (TakesLeast (World.twoBlocks 0).ibit ((World.twoBlocks 0).markI · true)
        (2 * BITS_PER_BLOCK) RESERVED_INO (World.twoBlocks 0)) (fun _ => False)
        (World.twoBlocks 0) ∧
      wp yaf_get_free_dblock (TakesLeast (World.twoBlocks 0).dbit
        ((World.twoBlocks 0).markD · true) (2 * BITS_PER_BLOCK) RESERVED_DNO (World.twoBlocks 0))
        (fun _ => False) (World.twoBlocks 0) := by
  obtain ⟨hi, hd⟩ := get_free_takesLeast_iff (World.twoBlocks 0) (by decide) (by decide)
    fun bid _ h => World.twoBlocks_readable 0 bid h
  exact ⟨hi.2 ⟨0, by decide, by decide⟩, hd.2 ⟨0, by decide, by decide⟩⟩

theorem World.testBit_255 (n : ℕ) : Mem.testBit (fun _ => 255) n = true := by
  have hbyte : ∀ k < 8, (255 : UInt8).toBitVec.getLsbD k = true := by decide
  exact hbyte _ (Nat.mod_lt n (by decide))

/-- The first block of the inode bitmap is full. -/
theorem World.twoBlocks_ibit : (Mem.clears (World.twoBlocks 255).ibit 32768).head? = none := by
  rw [List.head?_eq_none_iff, List.eq_nil_iff_forall_not_mem]
  intro n hn
  rw [Mem.mem_clears] at hn
  have hbid : IDXI2BID (World.twoBlocks 255).sb n = 1 := by rw [IDXI2BID_eq]; omega
  rw [World.ibit, hbid] at hn
  exact Bool.false_ne_true (hn.2.symm.trans (World.testBit_255 _))

/-- And so is that of the data bitmap. -/
theorem World.twoBlocks_dbit : (Mem.clears (World.twoBlocks 255).dbit 32768).head? = none := by
  rw [List.head?_eq_none_iff, List.eq_nil_iff_forall_not_mem]
  intro d hd
  rw [Mem.mem_clears] at hd
  have hbid : IDXD2BID (World.twoBlocks 255).sb d = 3 := by
    rw [IDXD2BID_eq]
    exact congrArg (3 + ·) (Nat.div_eq_of_lt hd.1)
  rw [World.dbit, hbid] at hd
  exact Bool.false_ne_true (hd.2.symm.trans (World.testBit_255 _))

/-- **A full first block hides the second**, which has 32768 clear bits. -/
theorem not_takesLeast_full_block :
    (∀ bid ≤ BID_DBP_MAX (World.twoBlocks 255).sb,
      (World.twoBlocks 255).readable .bitmap bid = true) ∧
    ¬wp yaf_get_free_inode (TakesLeast (World.twoBlocks 255).ibit
      ((World.twoBlocks 255).markI · true) (2 * BITS_PER_BLOCK) RESERVED_INO
      (World.twoBlocks 255)) (fun _ => False) (World.twoBlocks 255) ∧
    ¬wp yaf_get_free_dblock (TakesLeast (World.twoBlocks 255).dbit
      ((World.twoBlocks 255).markD · true) (2 * BITS_PER_BLOCK) RESERVED_DNO
      (World.twoBlocks 255)) (fun _ => False) (World.twoBlocks 255) := by
  have hread := World.twoBlocks_readable 255
  refine ⟨hread, ?_, ?_⟩
  · rw [wp_yaf_get_free_inode (by decide)]
    unfold World.takeI
    rw [if_pos (hread _ (by decide)), World.twoBlocks_ibit]
    exact not_takesLeast_noBit (by decide) fun n => markI_ne
  · rw [wp_yaf_get_free_dblock (by decide)]
    unfold World.takeD
    rw [if_pos (hread _ (by decide)), World.twoBlocks_dbit]
    exact not_takesLeast_noBit (by decide) fun n => markD_ne

end Yaf
