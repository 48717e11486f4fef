/-
**Concurrent bit allocation** (`yaf_get_free_bit` and `yaf_put_bit` of `driver/bitmap.c`).

The two functions take no lock: they rely on `test_and_set_bit` and `test_and_clear_bit` being
atomic.  Here any number of callers run them on one bitmap block, interleaved at the granularity
of these operations, where a caller that was given a bit puts it back before it asks again.

Main definitions:

* `Yaf.Concurrent.yaf_get_free_bit`, `Yaf.Concurrent.yaf_put_bit` — the code over atomic
  operations;
* `Yaf.Concurrent.Calls` — which calls are made;
* `Yaf.Concurrent.Grants` — what a caller holds once its call returned.

Main results:

* `Yaf.Concurrent.exec_yaf_get_free_bit`, `Yaf.Concurrent.exec_yaf_put_bit` — a call that runs
  alone does what `Yaf.Bitmap` has;
* `Yaf.Concurrent.exclusive_of_reaches` — **allocation is exclusive** in every interleaving.
-/

import Yaf.Bitmap
import Yaf.Lib.Atomic

set_option relaxedAutoImplicit false
set_option autoImplicit false

namespace Yaf.Concurrent

open Atomic

/-! ### The functions -/

/-- The `for` loop of `yaf_get_free_bit`: `rem` bits are left to try, the next one is `nr`. -/
def getFreeBitFrom : ℕ → ℕ → Code (Option ℤ)
  | 0, _ => .ret (some (-ENOENT))
  | rem + 1, nr =>
      .test_and_set_bit nr fun old => if !old then .ret (some nr) else getFreeBitFrom rem (nr + 1)

/-- Return the unset bit of the bitmap and atomically mark it. -/
def yaf_get_free_bit (bits : ℕ) : Code (Option ℤ) := getFreeBitFrom bits 0

/-- Clear the given marked bit: `assert(test_and_clear_bit(nr, addr))`.  Nothing is returned. -/
def yaf_put_bit (nr : ℕ) : Code (Option ℤ) :=
  .test_and_clear_bit nr fun old => if old then .ret none else .panic

/-! ### One caller -/

/-- **A search that runs alone** is first fit. -/
theorem exec_yaf_get_free_bit (b : Block) (bits : ℕ) :
    (yaf_get_free_bit bits).exec b =
      some (some (Yaf.yaf_get_free_bit b bits).1, (Yaf.yaf_get_free_bit b bits).2) := by
  have hloop : ∀ rem nr, (getFreeBitFrom rem nr).exec b =
      some (some (Yaf.getFreeBitFrom b rem nr).1, (Yaf.getFreeBitFrom b rem nr).2) := by
    intro rem
    induction rem with
    | zero =>
        intro nr
        rfl
    | succ rem ih =>
        intro nr
        rw [getFreeBitFrom, Code.exec, Yaf.getFreeBitFrom]
        split
        · exact ih (nr + 1)
        · rfl
  exact hloop bits 0

/-- A release that runs alone. -/
theorem exec_yaf_put_bit (b : Block) (nr : ℕ) :
    (yaf_put_bit nr).exec b =
      if Mem.testBit b nr then some (none, Mem.clearBit b nr) else none := by
  rw [yaf_put_bit, Code.exec]
  rfl

/-! ### All callers -/

section Callers

variable {ι : Type} [DecidableEq ι]

/-- No caller has called anything yet. -/
def start (ι : Type) (addr : Block) : State ι (Option ℤ) :=
  ⟨addr, fun _ => ⟨.ret none, [], .ret none, none⟩⟩

/-- **The calls that are made**: a caller that holds a bit puts it back, and one that holds none
asks for one. -/
def Calls (s : State ι (Option ℤ)) : Event ι (Option ℤ) → Prop
  | .call i c => ((s.task i).holds = none ∧ ∃ bits, c = yaf_get_free_bit bits) ∨
      ∃ nr, (s.task i).holds = some nr ∧ c = yaf_put_bit nr
  | .run _ => True

/-- What a caller holds once its call returned: the bit it was told, or nothing. -/
def Grants : Option ℤ → Option ℕ → Prop
  | none, h => h = none
  | some r, h => (r = -ENOENT ∧ h = none) ∨ ∃ nr : ℕ, r = nr ∧ h = some nr

theorem getFreeBitFrom_ok (rem nr : ℕ) : (getFreeBitFrom rem nr).Ok Grants none := by
  induction rem generalizing nr with
  | zero => exact .inl ⟨rfl, rfl⟩
  | succ rem ih => exact ⟨rfl, ih (nr + 1), .inr ⟨nr, rfl, rfl⟩⟩

theorem yaf_put_bit_ok (nr : ℕ) : (yaf_put_bit nr).Ok Grants (some nr) := ⟨rfl, rfl⟩

omit [DecidableEq ι] in
/-- The calls that are made are fit for their callers. -/
theorem Calls.lawful {s : State ι (Option ℤ)} {e : Event ι (Option ℤ)} (h : Calls s e) :
    Lawful Grants s e := by
  cases e with
  | call i c =>
      obtain ⟨hnone, bits, rfl⟩ | ⟨nr, hsome, rfl⟩ := h
      · rw [Lawful, hnone]
        exact getFreeBitFrom_ok bits 0
      · rw [Lawful, hsome]
        exact yaf_put_bit_ok nr
  | run i => trivial

/-- **A refused search found every bit set**, one after the other. -/
theorem seen_of_refused {rem nr : ℕ} {l : List (ℕ × Bool)}
    (h : (getFreeBitFrom rem nr).after l = some (.ret (some (-ENOENT)))) :
    l = (List.range' nr rem).map fun n => (n, true) := by
  induction rem generalizing nr l with
  | zero =>
      cases l with
      | nil => rfl
      | cons a l => simp [getFreeBitFrom, Code.after] at h
  | succ rem ih =>
      cases l with
      | nil => simp [getFreeBitFrom] at h
      | cons a l =>
          obtain ⟨n, old⟩ := a
          rw [getFreeBitFrom, Code.after] at h
          split at h
          · rename_i hn
            subst hn
            cases old with
            | true => rw [List.range'_succ, List.map_cons, ← ih h]
            | false =>
                cases l with
                | nil =>
                    simp only [Bool.not_false, if_true, Code.after_nil, Option.some_inj,
                      Code.ret.injEq] at h
                    have hno : ENOENT = 2 := rfl
                    omega
                | cons a l => simp [Code.after] at h
          · simp at h

/-- **Allocation is exclusive.**  Whatever the bitmap held, however many callers there are, and in
whichever order their operations happen: no two callers hold the same bit, no assertion fails, a
search returns the bit its caller holds from then on, and one that returns `-ENOENT` found each
bit set when it tested it. -/
theorem exclusive_of_reaches {addr : Block} {s : State ι (Option ℤ)}
    (h : Reaches Calls (start ι addr) s) :
    (∀ i j nr, (s.task i).holds = some nr → (s.task j).holds = some nr → i = j) ∧
      (∀ i, (s.task i).code ≠ .panic) ∧
      (∀ i r, (s.task i).code = .ret (some r) →
        (r = -ENOENT ∧ (s.task i).holds = none) ∨
          ∃ nr : ℕ, r = nr ∧ (s.task i).holds = some nr ∧ Mem.testBit s.addr nr = true) ∧
      ∀ i bits, (s.task i).call = yaf_get_free_bit bits →
        (s.task i).code = .ret (some (-ENOENT)) →
          (s.task i).seen = (List.range bits).map fun nr => (nr, true) := by
  have hstart : Inv Grants (start ι addr) :=
    ⟨fun _ => rfl, fun _ _ h => absurd h.symm (Option.some_ne_none _),
      fun _ _ _ h => absurd h.symm (Option.some_ne_none _), fun _ => rfl⟩
  have hinv : Inv Grants s := by
    refine inv_of_reaches hstart (Relation.ReflTransGen.mono ?_ _ _ h)
    rintro s₁ s₂ ⟨e, he, hs⟩
    exact ⟨e, he.lawful, hs⟩
  refine ⟨hinv.sole, hinv.ne_panic, ?_, ?_⟩
  · intro i r hr
    have hok := hinv.code i
    rw [hr] at hok
    refine hok.imp_right ?_
    rintro ⟨nr, rfl, hholds⟩
    exact ⟨nr, rfl, hholds, hinv.set i nr hholds⟩
  · intro i bits hcall hret
    have hseen := hinv.seen i
    rw [hcall, hret] at hseen
    rw [List.range_eq_range']
    exact seen_of_refused hseen

end Callers

/-- Three callers and a bitmap of two bits, both of which are given out while the third caller is
at the first one; the bit it finds set there is put back behind it. -/
theorem exclusive_three : ∃ s : State ℕ (Option ℤ), Reaches Calls (start ℕ fun _ => 0) s ∧
    (s.task 2).code = .ret (some (-ENOENT)) ∧ Mem.testBit s.addr 0 = false ∧
      (s.task 2).seen = [(0, true), (1, true)] := by
  have h₁ : Reaches Calls (start ℕ fun _ => 0) _ :=
    .single ⟨.call 0 (yaf_get_free_bit 2), .inl ⟨rfl, 2, rfl⟩, rfl⟩
  have h₂ := h₁.tail ⟨.run 0, trivial, rfl⟩
  have h₃ := h₂.tail ⟨.call 1 (yaf_get_free_bit 2), .inl ⟨rfl, 2, rfl⟩, rfl⟩
  have h₄ := h₃.tail ⟨.run 1, trivial, rfl⟩
  have h₅ := h₄.tail ⟨.call 2 (yaf_get_free_bit 2), .inl ⟨rfl, 2, rfl⟩, rfl⟩
  have h₆ := h₅.tail ⟨.run 2, trivial, rfl⟩
  have h₇ := h₆.tail ⟨.call 0 (yaf_put_bit 0), .inr ⟨0, rfl, rfl⟩, rfl⟩
  have h₈ := h₇.tail ⟨.run 0, trivial, rfl⟩
  have h₉ := h₈.tail ⟨.run 1, trivial, rfl⟩
  have h₁₀ := h₉.tail ⟨.run 2, trivial, rfl⟩
  exact ⟨_, h₁₀, rfl, rfl, (exclusive_of_reaches h₁₀).2.2.2 2 2 rfl rfl⟩

end Yaf.Concurrent
