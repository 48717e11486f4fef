/-
**Byte memories: little-endian words, bits and C strings.**

A memory is a function from offsets to bytes.  This module has the accesses a program written in
C makes to such a memory: 32-bit little-endian words, the bits of a bitmap (bit `k` of a bitmap
is bit `k % 8` of byte `k / 8`), and the string functions `strncmp` and `strncpy`.  Each access
comes with what it reads back and with what it leaves alone.

Main definitions:

* `Mem.rd32`, `Mem.wr32`, `Mem.wrWords` — little-endian words;
* `Mem.bswap32` — a word with its bytes in the opposite order;
* `Mem.testBit`, `Mem.setBit`, `Mem.clearBit` — the bits of a bitmap;
* `Mem.word` — a little-endian number of any width;
* `Mem.clears` — the clear positions of a bitmap in increasing order, and so what a first-fit
  search hands out, one after the other;
* `Mem.cstr`, `Mem.strncmp`, `Mem.strncpy` — bounded C strings.

Main results:

* `Mem.rd32_wrWords` — **the words of a structure are read back as they were written**;
* `Mem.testBit_eq_testBit_word` — the bits of a bitmap are those of its 64-bit words;
* `Mem.testBit_setBit`, `Mem.testBit_clearBit` — one bit changes, the others stay;
* `Mem.find?_eq_head?_clears`, `Mem.clears_update_head` — first fit takes the head of the list
  of clear positions and leaves its tail;
* `Mem.strncmp_eq_zero_iff` — two strings compare equal exactly when they are equal up to the
  bound.
-/

import Mathlib.Data.List.Basic
import Mathlib.Data.Nat.Bitwise
import Mathlib.Logic.Function.Basic
import Mathlib.Tactic.Common

set_option relaxedAutoImplicit false
set_option autoImplicit false

namespace Mem

/-! ### Little-endian words -/

/-- The 32-bit little-endian word at offset `a`. -/
def rd32 (m : ℕ → UInt8) (a : ℕ) : UInt32 :=
  UInt32.ofNat ((m a).toNat + (m (a + 1)).toNat * 256 + (m (a + 2)).toNat * 65536 +
    (m (a + 3)).toNat * 16777216)

/-- Byte `i` of a 32-bit word, the least significant first. -/
def byte32 (v : UInt32) (i : ℕ) : UInt8 := UInt8.ofNat (v.toNat / 256 ^ i)

/-- Storing the 32-bit little-endian word `v` at offset `a`. -/
def wr32 (m : ℕ → UInt8) (a : ℕ) (v : UInt32) : ℕ → UInt8 := fun x =>
  if a ≤ x ∧ x < a + 4 then byte32 v (x - a) else m x

/-- Storing consecutive words from offset `a` on. -/
def wrWords (m : ℕ → UInt8) (a : ℕ) : List UInt32 → (ℕ → UInt8)
  | [] => m
  | v :: vs => wrWords (wr32 m a v) (a + 4) vs

theorem rd32_congr {m m' : ℕ → UInt8} {a : ℕ} (h : ∀ i < 4, m (a + i) = m' (a + i)) :
    rd32 m a = rd32 m' a := by
  have h₀ := h 0 (by omega)
  simp only [Nat.add_zero] at h₀
  simp only [rd32, h₀, h 1 (by omega), h 2 (by omega), h 3 (by omega)]

@[simp] theorem rd32_wr32 (m : ℕ → UInt8) (a : ℕ) (v : UInt32) : rd32 (wr32 m a v) a = v := by
  have hb : ∀ i < 4, wr32 m a v (a + i) = byte32 v i := by
    intro i hi
    simp only [wr32, if_pos (show a ≤ a + i ∧ a + i < a + 4 by omega), Nat.add_sub_cancel_left]
  have h₀ := hb 0 (by omega)
  simp only [Nat.add_zero] at h₀
  have hv := v.toNat_lt
  apply UInt32.toNat_inj.1
  simp only [rd32, h₀, hb 1 (by omega), hb 2 (by omega), hb 3 (by omega), byte32,
    UInt32.toNat_ofNat', UInt8.toNat_ofNat']
  omega

theorem wr32_of_disjoint (m : ℕ → UInt8) {a x : ℕ} (v : UInt32) (h : x < a ∨ a + 4 ≤ x) :
    wr32 m a v x = m x := by
  simp only [wr32, if_neg (show ¬(a ≤ x ∧ x < a + 4) by omega)]

/-- The bytes outside the words written stay. -/
theorem wrWords_of_disjoint (vs : List UInt32) (m : ℕ → UInt8) {a x : ℕ}
    (h : x < a ∨ a + 4 * vs.length ≤ x) : wrWords m a vs x = m x := by
  induction vs generalizing m a with
  | nil => rfl
  | cons v vs ih =>
      simp only [List.length_cons] at h
      rw [wrWords, ih _ (by omega), wr32_of_disjoint _ _ (by omega)]

/-- **The words of a structure are read back as they were written.** -/
theorem rd32_wrWords (vs : List UInt32) (m : ℕ → UInt8) (a i : ℕ) (hi : i < vs.length) :
    rd32 (wrWords m a vs) (a + 4 * i) = vs[i] := by
  induction vs generalizing m a i with
  | nil => simp at hi
  | cons v vs ih =>
      cases i with
      | zero =>
          have hcongr : rd32 (wrWords (wr32 m a v) (a + 4) vs) a = rd32 (wr32 m a v) a :=
            rd32_congr fun i hi => wrWords_of_disjoint _ _ (by omega)
          rw [Nat.mul_zero, Nat.add_zero, wrWords, hcongr, rd32_wr32, List.getElem_cons_zero]
      | succ i =>
          have ha : a + 4 * (i + 1) = a + 4 + 4 * i := by omega
          rw [wrWords, ha, ih _ _ _ (by simpa using hi), List.getElem_cons_succ]

/-- The bytes of consecutive words. -/
theorem wrWords_eq (vs : List UInt32) (m : ℕ → UInt8) (a : ℕ) {x : ℕ} (hx : x < 4 * vs.length) :
    wrWords m a vs (a + x) = byte32 (vs.getD (x / 4) 0) (x % 4) := by
  induction vs generalizing m a x with
  | nil => simp at hx
  | cons v vs ih =>
      rw [List.length_cons] at hx
      rcases Nat.lt_or_ge x 4 with hlt | hge
      · have hin : a ≤ a + x ∧ a + x < a + 4 := by omega
        rw [wrWords, wrWords_of_disjoint _ _ (.inl (by omega)), wr32, if_pos hin,
          Nat.add_sub_cancel_left, Nat.div_eq_of_lt hlt, Nat.mod_eq_of_lt hlt]
        rfl
      · obtain ⟨y, rfl⟩ := Nat.exists_eq_add_of_le hge
        have hdiv : (4 + y) / 4 = y / 4 + 1 := by omega
        have hmod : (4 + y) % 4 = y % 4 := by omega
        rw [wrWords, ← Nat.add_assoc, ih _ _ (by omega), hdiv, hmod, List.getD_cons_succ]

/-! ### Byte order -/

/-- The bytes of a word in the opposite order. -/
def bswap32 (v : UInt32) : UInt32 := rd32 (fun i => byte32 v (3 - i)) 0

theorem byte32_rd32 (m : ℕ → UInt8) (a : ℕ) {i : ℕ} (hi : i < 4) :
    byte32 (rd32 m a) i = m (a + i) := by
  have h₀ := (m a).toNat_lt
  have h₁ := (m (a + 1)).toNat_lt
  have h₂ := (m (a + 2)).toNat_lt
  have h₃ := (m (a + 3)).toNat_lt
  apply UInt8.toNat_inj.1
  simp only [byte32, rd32, UInt8.toNat_ofNat', UInt32.toNat_ofNat']
  obtain rfl | rfl | rfl | rfl : i = 0 ∨ i = 1 ∨ i = 2 ∨ i = 3 := by omega
  · simp only [Nat.add_zero]
    omega
  all_goals omega

theorem byte32_bswap32 (v : UInt32) {i : ℕ} (hi : i < 4) :
    byte32 (bswap32 v) i = byte32 v (3 - i) := by
  rw [bswap32, byte32_rd32 _ _ hi, Nat.zero_add]

theorem rd32_byte32 (v : UInt32) : rd32 (byte32 v) 0 = v := by
  have hv := v.toNat_lt
  apply UInt32.toNat_inj.1
  simp only [rd32, byte32, UInt32.toNat_ofNat', UInt8.toNat_ofNat']
  omega

/-- Turning the bytes around twice. -/
theorem bswap32_bswap32 (v : UInt32) : bswap32 (bswap32 v) = v := by
  refine Eq.trans (rd32_congr fun i hi => ?_) (rd32_byte32 v)
  have hsub : 3 - (3 - (0 + i)) = 0 + i := by omega
  rw [byte32_bswap32 v (by omega), hsub]

theorem toNat_bswap32 (v : UInt32) : (bswap32 v).toNat = v.toNat % 256 * 16777216 +
    v.toNat / 256 % 256 * 65536 + v.toNat / 65536 % 256 * 256 + v.toNat / 16777216 % 256 := by
  have hb : ∀ i, (byte32 v i).toNat = v.toNat / 256 ^ i % 256 := fun i => UInt8.toNat_ofNat'
  have hv := v.toNat_lt
  simp only [bswap32, rd32, UInt32.toNat_ofNat', hb, Nat.zero_add, Nat.sub_zero, Nat.reduceSub,
    Nat.reducePow, Nat.div_one]
  omega

/-! ### Bits -/

/-- Bit `nr` of the bitmap. -/
def testBit (m : ℕ → UInt8) (nr : ℕ) : Bool := (m (nr / 8)).toBitVec.getLsbD (nr % 8)

/-- Setting bit `nr` of the bitmap. -/
def setBit (m : ℕ → UInt8) (nr : ℕ) : ℕ → UInt8 := fun x =>
  if x = nr / 8 then ⟨(m x).toBitVec ||| BitVec.twoPow 8 (nr % 8)⟩ else m x

/-- Clearing bit `nr` of the bitmap. -/
def clearBit (m : ℕ → UInt8) (nr : ℕ) : ℕ → UInt8 := fun x =>
  if x = nr / 8 then ⟨(m x).toBitVec &&& ~~~(BitVec.twoPow 8 (nr % 8))⟩ else m x

/-- The number in the `k` bytes from offset `a` on, the least significant byte first. -/
def word (m : ℕ → UInt8) : ℕ → ℕ → ℕ
  | _, 0 => 0
  | a, k + 1 => 256 * word m (a + 1) k + (m a).toNat

theorem testBit_word (m : ℕ → UInt8) {a k n : ℕ} (h : n < 8 * k) :
    (word m a k).testBit n = (m (a + n / 8)).toBitVec.getLsbD (n % 8) := by
  induction k generalizing a n with
  | zero => omega
  | succ k ih =>
      have hlt : (m a).toNat < 2 ^ 8 := (m a).toNat_lt
      rw [word, show (256 : ℕ) = 2 ^ 8 from rfl, Nat.testBit_two_pow_mul_add _ hlt]
      split
      · rename_i hn
        rw [Nat.div_eq_of_lt hn, Nat.mod_eq_of_lt hn]
        rfl
      · rename_i hn
        have hdiv : a + 1 + (n - 8) / 8 = a + n / 8 := by omega
        have hmod : (n - 8) % 8 = n % 8 := by omega
        rw [ih (by omega), hdiv, hmod]

/-- **Bit numbers count through 64-bit words as well**: bit `nr` of the bitmap is bit `nr % 64`
of its little-endian word `nr / 64`. -/
theorem testBit_eq_testBit_word (m : ℕ → UInt8) (nr : ℕ) :
    testBit m nr = (word m (8 * (nr / 64)) 8).testBit (nr % 64) := by
  have hdiv : 8 * (nr / 64) + nr % 64 / 8 = nr / 8 := by omega
  have hmod : nr % 64 % 8 = nr % 8 := by omega
  rw [testBit_word m (by omega), hdiv, hmod, testBit]

theorem testBit_setBit (m : ℕ → UInt8) (nr k : ℕ) :
    testBit (setBit m nr) k = if k = nr then true else testBit m k := by
  have hnr : nr % 8 < 8 := Nat.mod_lt _ (by omega)
  unfold testBit setBit
  by_cases hb : k / 8 = nr / 8
  · rw [if_pos hb]
    have hiff : nr % 8 = k % 8 ↔ k = nr := by omega
    by_cases h : k = nr <;> simp [hnr, hiff, h]
  · rw [if_neg hb, if_neg (by intro h; exact hb (by rw [h]))]

theorem testBit_clearBit (m : ℕ → UInt8) (nr k : ℕ) :
    testBit (clearBit m nr) k = if k = nr then false else testBit m k := by
  have hk : k % 8 < 8 := Nat.mod_lt _ (by omega)
  unfold testBit clearBit
  by_cases hb : k / 8 = nr / 8
  · rw [if_pos hb]
    have hiff : k % 8 = nr % 8 ↔ k = nr := by omega
    by_cases h : k = nr <;> simp [hk, hiff, h]
  · rw [if_neg hb, if_neg (by intro h; exact hb (by rw [h]))]

/-- Setting a bit touches one byte. -/
theorem setBit_of_ne (m : ℕ → UInt8) {nr x : ℕ} (h : x ≠ nr / 8) : setBit m nr x = m x :=
  if_neg h

/-- Clearing a bit that was just set over a clear one gives the bitmap back. -/
theorem clearBit_setBit {m : ℕ → UInt8} {nr : ℕ} (h : testBit m nr = false) :
    clearBit (setBit m nr) nr = m := by
  funext x
  unfold clearBit setBit
  by_cases hx : x = nr / 8
  · have hbv : ((m x).toBitVec ||| BitVec.twoPow 8 (nr % 8)) &&& ~~~(BitVec.twoPow 8 (nr % 8)) =
        (m x).toBitVec := by
      refine BitVec.eq_of_getLsbD_eq fun i hi => ?_
      by_cases hk : nr % 8 = i
      · subst hk hx
        simpa [hi, testBit] using h.symm
      · simp [Ne.symm hk, hi]
    simp only [if_pos hx, hbv]
  · simp only [if_neg hx]

/-! ### First fit -/

/-- The clear positions below `n`, in increasing order. -/
def clears (p : ℕ → Bool) (n : ℕ) : List ℕ := (List.range n).filter fun i => !p i

@[simp] theorem mem_clears {p : ℕ → Bool} {n i : ℕ} : i ∈ clears p n ↔ i < n ∧ p i = false := by
  simp [clears]

theorem nodup_clears (p : ℕ → Bool) (n : ℕ) : (clears p n).Nodup := List.nodup_range.filter _

/-- **First fit** finds the head of the list of clear positions. -/
theorem find?_eq_head?_clears (p : ℕ → Bool) (n : ℕ) :
    (List.range n).find? (fun i => !p i) = (clears p n).head? := by
  rw [clears, List.head?_filter]

/-- Only the positions below the bound matter. -/
theorem clears_congr {p q : ℕ → Bool} {n : ℕ} (h : ∀ i < n, p i = q i) :
    clears p n = clears q n :=
  List.filter_congr fun i hi => by rw [h i (List.mem_range.1 hi)]

/-- Taking a position takes it off the list. -/
theorem clears_update (p : ℕ → Bool) (n b : ℕ) :
    clears (Function.update p b true) n = (clears p n).filter (· ≠ b) := by
  rw [clears, clears, List.filter_filter]
  refine List.filter_congr fun i _ => ?_
  by_cases h : i = b
  · subst h; simp
  · simp [h]

/-- **Taking the head of the list leaves its tail.** -/
theorem clears_update_head {p : ℕ → Bool} {n b : ℕ} {l : List ℕ} (h : clears p n = b :: l) :
    clears (Function.update p b true) n = l := by
  have hnd := nodup_clears p n
  rw [h, List.nodup_cons] at hnd
  rw [clears_update, h, List.filter_cons_of_neg (by simp), List.filter_eq_self]
  intro i hi
  have hne : i ≠ b := by
    rintro rfl
    exact hnd.1 hi
  simpa using hne

/-- A larger bound adds positions at the end. -/
theorem clears_prefix (p : ℕ → Bool) {n n' : ℕ} (h : n ≤ n') : clears p n <+: clears p n' := by
  obtain ⟨k, rfl⟩ := Nat.exists_eq_add_of_le h
  rw [clears, clears, List.range_add, List.filter_append]
  exact List.prefix_append _ _

/-- Below a larger bound the first clear position is the same. -/
theorem head?_clears_of_le {p : ℕ → Bool} {n n' b : ℕ} (h : n ≤ n')
    (hb : (clears p n).head? = some b) : (clears p n').head? = some b := by
  obtain ⟨l, hl⟩ := clears_prefix p h
  rw [← hl, List.head?_append, hb]
  rfl

/-- Releasing positions adds to the list. -/
theorem length_clears_mono {p q : ℕ → Bool} (n : ℕ) (h : ∀ i, q i = true → p i = true) :
    (clears p n).length ≤ (clears q n).length := by
  refine (List.monotone_filter_right _ fun i hi => ?_).length_le
  cases hq : q i with
  | false => rfl
  | true => simp [h i hq] at hi

/-! ### C strings -/

/-- The string at the start of `s`, cut off after `n` bytes when no NUL comes before. -/
def cstr (s : ℕ → UInt8) : ℕ → List UInt8
  | 0 => []
  | n + 1 => if s 0 = 0 then [] else s 0 :: cstr (fun i => s (i + 1)) n

/-- `strncmp(s, t, n)`. -/
def strncmp (s t : ℕ → UInt8) : ℕ → ℤ
  | 0 => 0
  | n + 1 =>
      if s 0 ≠ t 0 then (if s 0 < t 0 then -1 else 1)
      else if s 0 = 0 then 0
      else strncmp (fun i => s (i + 1)) (fun i => t (i + 1)) n

/-- `strncpy(dst + off, s, n)`: the string, then NUL bytes up to `n`. -/
def strncpy (dst : ℕ → UInt8) (off : ℕ) (s : ℕ → UInt8) (n : ℕ) : ℕ → UInt8 := fun x =>
  if off ≤ x ∧ x < off + n then (cstr s n).getD (x - off) 0 else dst x

/-- **Two strings compare equal exactly when they are equal up to the bound.** -/
theorem strncmp_eq_zero_iff (s t : ℕ → UInt8) (n : ℕ) :
    strncmp s t n = 0 ↔ cstr s n = cstr t n := by
  induction n generalizing s t with
  | zero => simp [strncmp, cstr]
  | succ n ih =>
      by_cases hst : s 0 = t 0
      · by_cases hs : s 0 = 0
        · have ht : t 0 = 0 := hst ▸ hs
          simp [strncmp, cstr, hs, ht]
        · have ht : t 0 ≠ 0 := hst ▸ hs
          simp [strncmp, cstr, hst, ht, ih]
      · have hcmp : strncmp s t (n + 1) ≠ 0 := by
          simp only [strncmp, hst, ne_eq, not_false_eq_true, if_true]
          split <;> decide
        refine iff_of_false hcmp fun h => hst ?_
        by_cases hs : s 0 = 0 <;> by_cases ht : t 0 = 0 <;> simp_all [cstr]

theorem cstr_congr {s t : ℕ → UInt8} {n : ℕ} (h : ∀ i < n, s i = t i) : cstr s n = cstr t n := by
  induction n generalizing s t with
  | zero => rfl
  | succ n ih =>
      rw [cstr, cstr, h 0 (by omega), ih fun i hi => h (i + 1) (by omega)]

/-- A short NUL-free string that is followed by NUL bytes is read back as it is. -/
theorem cstr_getD {l : List UInt8} {n : ℕ} (hl : l.length ≤ n) (h : (0 : UInt8) ∉ l) :
    cstr (fun i => l.getD i 0) n = l := by
  induction l generalizing n with
  | nil => cases n <;> simp [cstr]
  | cons c l ih =>
      cases n with
      | zero => simp at hl
      | succ n =>
          have hc : c ≠ 0 := fun hc => h (by simp [hc])
          have := ih (n := n) (by simpa using hl) (fun hm => h (List.mem_cons_of_mem _ hm))
          simpa [cstr, hc] using this

theorem strncpy_of_disjoint (dst : ℕ → UInt8) {off x : ℕ} (s : ℕ → UInt8) {n : ℕ}
    (h : x < off ∨ off + n ≤ x) : strncpy dst off s n x = dst x := by
  simp only [strncpy, if_neg (show ¬(off ≤ x ∧ x < off + n) by omega)]

end Mem
