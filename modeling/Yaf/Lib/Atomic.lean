/-
**Concurrent calls on one bitmap.**

Any number of callers run calls on the bits of one shared block.  A call is a tree of atomic
operations; the operations of different callers interleave in any order.  Each caller is given
the bit that its `test_and_set_bit` found clear, and gives it up with the `test_and_clear_bit` that
finds it set.

The module has a discipline on the code of calls, by the bit the caller holds: an operation that
may give a bit is made by callers that hold none, and a bit is cleared only by its holder.  Under
the discipline no bit has two holders, whatever the order of the operations.

Main definitions:

* `Atomic.Code` — the code of a call, `Atomic.Code.after` what the answers leave of it;
* `Atomic.State`, `Atomic.Event`, `Atomic.step` — the block and the callers;
* `Atomic.Code.Ok` — the discipline.

Main results:

* `Atomic.Inv.step` — what one operation preserves;
* `Atomic.inv_of_reaches` — **no bit has two holders**, in every interleaving;
* `Atomic.Code.exec` — a call that runs alone.
-/

import Yaf.Lib.Mem
import Mathlib.Logic.Relation

set_option relaxedAutoImplicit false
set_option autoImplicit false

namespace Atomic

/-! ### Calls -/

/-- The code of a call.  The two operations answer the old value of the bit. -/
inductive Code (ρ : Type) where
  | test_and_set_bit (nr : ℕ) (k : Bool → Code ρ)
  | test_and_clear_bit (nr : ℕ) (k : Bool → Code ρ)
  | ret (r : ρ)
  /-- an assertion of the call failed -/
  | panic

namespace Code

variable {ρ : Type}

/-- What is left of a code once its first operations, on the given bits, were answered. -/
def after : Code ρ → List (ℕ × Bool) → Option (Code ρ)
  | c, [] => some c
  | .test_and_set_bit nr k, a :: l => if a.1 = nr then (k a.2).after l else none
  | .test_and_clear_bit nr k, a :: l => if a.1 = nr then (k a.2).after l else none
  | .ret _, _ :: _ | .panic, _ :: _ => none

/-- A call that runs alone: its result and the block it leaves, unless it panics. -/
def exec : Code ρ → (ℕ → UInt8) → Option (ρ × (ℕ → UInt8))
  | .test_and_set_bit nr k, b =>
      if Mem.testBit b nr then (k true).exec b else (k false).exec (Mem.setBit b nr)
  | .test_and_clear_bit nr k, b =>
      if Mem.testBit b nr then (k true).exec (Mem.clearBit b nr) else (k false).exec b
  | .ret r, b => some (r, b)
  | .panic, _ => none

@[simp] theorem after_nil (c : Code ρ) : c.after [] = some c := by
  cases c <;> rfl

/-- The answers may come one after the other. -/
theorem after_append (c : Code ρ) (l l' : List (ℕ × Bool)) :
    c.after (l ++ l') = (c.after l).bind fun c' => c'.after l' := by
  induction l generalizing c with
  | nil => rw [List.nil_append, after_nil, Option.bind_some]
  | cons a l ih =>
      cases c with
      | test_and_set_bit nr k =>
          rw [List.cons_append, after, after]
          split
          · exact ih (k a.2)
          · rfl
      | test_and_clear_bit nr k =>
          rw [List.cons_append, after, after]
          split
          · exact ih (k a.2)
          · rfl
      | ret r => rfl
      | panic => rfl

/-- **The discipline**: the code is fit for a caller that holds the given bit, or none.  `post r h`
says what a caller holds once its call returned `r`. -/
def Ok (post : ρ → Option ℕ → Prop) : Code ρ → Option ℕ → Prop
  | .test_and_set_bit nr k, h => h = none ∧ (k true).Ok post none ∧ (k false).Ok post (some nr)
  | .test_and_clear_bit nr k, h => h = some nr ∧ (k true).Ok post none
  | .ret r, h => post r h
  | .panic, _ => False

end Code

/-- A caller: its present call as it began, the bits that call tested with the values they had
then, what is left of it, and the bit the caller holds. -/
structure Task (ρ : Type) where
  call : Code ρ
  seen : List (ℕ × Bool)
  code : Code ρ
  holds : Option ℕ

/-- The shared block and the callers. -/
structure State (ι ρ : Type) where
  addr : ℕ → UInt8
  task : ι → Task ρ

/-- What happens next: a caller whose last call returned begins another one, or a caller takes the
next operation of its call. -/
inductive Event (ι ρ : Type) where
  | call (i : ι) (c : Code ρ)
  | run (i : ι)

section Machine

variable {ι ρ : Type} [DecidableEq ι]

def State.setTask (s : State ι ρ) (i : ι) (t : Task ρ) : State ι ρ :=
  { s with task := Function.update s.task i t }

/-- **What an event does**, or `none` when it cannot happen. -/
def step (s : State ι ρ) : Event ι ρ → Option (State ι ρ)
  | .call i c =>
      match (s.task i).code with
      | .ret _ => some (s.setTask i ⟨c, [], c, (s.task i).holds⟩)
      | _ => none
  | .run i =>
      let t := s.task i
      match t.code with
      | .test_and_set_bit nr k =>
          let old := Mem.testBit s.addr nr
          some (State.setTask { s with addr := Mem.setBit s.addr nr } i
            ⟨t.call, t.seen ++ [(nr, old)], k old, if old then t.holds else some nr⟩)
      | .test_and_clear_bit nr k =>
          let old := Mem.testBit s.addr nr
          some (State.setTask { s with addr := Mem.clearBit s.addr nr } i
            ⟨t.call, t.seen ++ [(nr, old)], k old, if old then none else t.holds⟩)
      | .ret _ | .panic => none

/-- Every call that begins is fit for its caller. -/
def Lawful (post : ρ → Option ℕ → Prop) (s : State ι ρ) : Event ι ρ → Prop
  | .call i c => c.Ok post (s.task i).holds
  | .run _ => True

/-- Runs of events that meet a condition. -/
abbrev Reaches (ok : State ι ρ → Event ι ρ → Prop) : State ι ρ → State ι ρ → Prop :=
  Relation.ReflTransGen fun s s' => ∃ e, ok s e ∧ step s e = some s'

/-! ### Holders -/

/-- **The invariant**: what is left of every call is fit for its caller, a bit that is held is
set, and it has one holder. -/
structure Inv (post : ρ → Option ℕ → Prop) (s : State ι ρ) : Prop where
  code : ∀ i, (s.task i).code.Ok post (s.task i).holds
  set : ∀ i nr, (s.task i).holds = some nr → Mem.testBit s.addr nr = true
  sole : ∀ i j nr, (s.task i).holds = some nr → (s.task j).holds = some nr → i = j
  seen : ∀ i, (s.task i).call.after (s.task i).seen = some (s.task i).code

variable {post : ρ → Option ℕ → Prop} {s s' : State ι ρ}

/-- A caller goes on, and the block changes. -/
theorem Inv.update (h : Inv post s) {i : ι} {t : Task ρ} {b : ℕ → UInt8}
    (hcode : t.code.Ok post t.holds) (hseen : t.call.after t.seen = some t.code)
    (hself : ∀ nr, t.holds = some nr → Mem.testBit b nr = true ∧
      ∀ j, j ≠ i → (s.task j).holds ≠ some nr)
    (hother : ∀ j nr, j ≠ i → (s.task j).holds = some nr → Mem.testBit b nr = true) :
    Inv post (State.setTask { s with addr := b } i t) := by
  have htask : ∀ j, (State.setTask { s with addr := b } i t).task j =
      if j = i then t else s.task j := fun j => Function.update_apply _ _ _ _
  refine ⟨?_, ?_, ?_, ?_⟩
  · intro j
    rw [htask]
    split
    · exact hcode
    · exact h.code j
  · intro j nr hj
    rw [htask] at hj
    split at hj
    · exact (hself nr hj).1
    · exact hother j nr ‹_› hj
  · intro j k nr hj hk
    rw [htask] at hj hk
    split at hj
    · split at hk
      · exact ‹j = i›.trans ‹k = i›.symm
      · exact absurd hk ((hself nr hj).2 k ‹_›)
    · split at hk
      · exact absurd hj ((hself nr hk).2 j ‹_›)
      · exact h.sole j k nr hj hk
  · intro j
    rw [htask]
    split
    · exact hseen
    · exact h.seen j

/-- **One event keeps the invariant.** -/
theorem Inv.step (h : Inv post s) {e : Event ι ρ} (he : Lawful post s e)
    (hs : Atomic.step s e = some s') : Inv post s' := by
  cases e with
  | call i c =>
      have hcall : Inv post (State.setTask { s with addr := s.addr } i
          ⟨c, [], c, (s.task i).holds⟩) := by
        refine h.update he ?_ ?_ ?_
        · exact Code.after_nil c
        · intro nr hi
          exact ⟨h.set i nr hi, fun j hj hj' => hj (h.sole j i nr hj' hi)⟩
        · intro j nr _ hj
          exact h.set j nr hj
      rw [Atomic.step] at hs
      split at hs
      · cases hs
        exact hcall
      · simp at hs
  | run i =>
      have hok := h.code i
      have hseen := h.seen i
      simp only [Atomic.step] at hs
      split at hs
      · rename_i nr k hc
        cases hs
        rw [hc] at hok hseen
        obtain ⟨hnone, htrue, hfalse⟩ := hok
        have hafter : ∀ b, (s.task i).call.after ((s.task i).seen ++ [(nr, b)]) = some (k b) := by
          intro b
          rw [Code.after_append, hseen, Option.bind_some, Code.after, if_pos rfl, Code.after_nil]
        refine h.update ?_ (hafter _) ?_ ?_
        · cases Mem.testBit s.addr nr with
          | true => rwa [if_pos rfl, hnone]
          | false => exact hfalse
        · intro m hm
          cases hb : Mem.testBit s.addr nr with
          | true =>
              dsimp only at hm
              rw [hb, if_pos rfl, hnone] at hm
              simp at hm
          | false =>
              dsimp only at hm
              rw [hb, if_neg Bool.false_ne_true, Option.some_inj] at hm
              subst hm
              -- the bit was clear, so nobody held it
              refine ⟨by rw [Mem.testBit_setBit, if_pos rfl], fun j _ hj => ?_⟩
              rw [h.set j nr hj] at hb
              simp at hb
        · intro j m _ hj
          rw [Mem.testBit_setBit]
          split
          · rfl
          · exact h.set j m hj
      · rename_i nr k hc
        cases hs
        rw [hc] at hok hseen
        obtain ⟨hsome, htrue⟩ := hok
        have hbit := h.set i nr hsome
        refine h.update ?_ ?_ ?_ ?_
        · rw [hbit]
          exact htrue
        · rw [Code.after_append, hseen, Option.bind_some, Code.after, if_pos rfl, Code.after_nil]
        · intro m hm
          dsimp only at hm
          rw [hbit, if_pos rfl] at hm
          simp at hm
        · intro j m hji hj
          -- the other holders hold other bits
          rw [Mem.testBit_clearBit, if_neg ?_]
          · exact h.set j m hj
          · rintro rfl
            exact hji (h.sole j i m hj hsome)
      · simp at hs
      · simp at hs

/-- **No bit has two holders**, in every interleaving of lawful calls. -/
theorem inv_of_reaches (h : Inv post s) (hr : Reaches (Lawful post) s s') : Inv post s' := by
  induction hr with
  | refl => exact h
  | tail _ he ih =>
      obtain ⟨e, hlaw, hstep⟩ := he
      exact ih.step hlaw hstep

omit [DecidableEq ι] in
/-- No assertion fails. -/
theorem Inv.ne_panic (h : Inv post s) (i : ι) : (s.task i).code ≠ .panic := by
  intro hp
  have := h.code i
  rw [hp] at this
  exact this

end Machine

end Atomic
