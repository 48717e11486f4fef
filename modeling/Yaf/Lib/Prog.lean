/-
**Programs over a state that may fault, and runs of a system of such programs.**

A program reads and writes a state `σ`, returns a value, and may stop with a fault `ε`, after
which there is no state to speak of.  Such a program is a `StateT σ (Except ε)` computation, so
that `do` notation and the monad laws are the library's.  What is added here is the calculus of
weakest preconditions in which the programs are reasoned about, and the runs of a system that
executes one program after the other.

Main definitions:

* `Prog.wp` — `wp x Q E s`: run from `s`, the program `x` either returns with `Q`, or faults
  with `E`;
* `Prog.Within` — every outcome of a program is related to where it began;
* `Prog.Same` — nothing changes that is seen through a given function;
* `Prog.Maintains` — what holds before a program holds after it;
* `Prog.value` — what a program returns, without the state it leaves;
* `Prog.Run` — a run of a system: a list of operations with their results, each allowed in the
  state it is executed in, none of them faulting;
* `Prog.exec` — executing a list of operations, for runs on concrete inputs.

Main results:

* `Prog.wp_bind`, `Prog.wp_pure`, … — one rewriting rule for each construct;
* `Prog.wp_mono`, `Prog.wp_and` — consequence and conjunction;
* `Prog.Within.bind` — a preorder that both parts of a program keep is kept by the whole;
* `Prog.Run.invariant` — **what every allowed step preserves holds throughout every run**.
-/

import Mathlib.Data.List.Basic
import Mathlib.Logic.Basic
import Mathlib.Order.Defs.Unbundled

set_option relaxedAutoImplicit false
set_option autoImplicit false

/-- Programs over the state `σ` that return an `α` or stop with a fault `ε`. -/
abbrev Prog (ε σ α : Type) : Type := StateT σ (Except ε) α

namespace Prog

variable {ε σ α β : Type}

/-! ### Weakest preconditions -/

/-- **The weakest precondition**: run from `s`, the program returns with `Q` or faults
with `E`. -/
def wp (x : Prog ε σ α) (Q : α → σ → Prop) (E : ε → Prop) (s : σ) : Prop :=
  match x.run s with
  | .ok (a, s') => Q a s'
  | .error e => E e

theorem wp_of_run_ok {x : Prog ε σ α} {s s' : σ} {a : α} (h : x.run s = .ok (a, s'))
    {Q : α → σ → Prop} {E : ε → Prop} : wp x Q E s ↔ Q a s' := by
  simp only [wp, h]

theorem wp_of_run_error {x : Prog ε σ α} {s : σ} {e : ε} (h : x.run s = .error e)
    {Q : α → σ → Prop} {E : ε → Prop} : wp x Q E s ↔ E e := by
  simp only [wp, h]

/-- The two ways of using a weakest precondition. -/
theorem wp_iff {x : Prog ε σ α} {Q : α → σ → Prop} {E : ε → Prop} {s : σ} :
    wp x Q E s ↔
      (∀ a s', x.run s = .ok (a, s') → Q a s') ∧ ∀ e, x.run s = .error e → E e := by
  unfold wp
  cases h : x.run s with
  | error e => simp
  | ok p => simp [Prod.ext_iff]

/-- **Consequence.** -/
theorem wp_mono {x : Prog ε σ α} {Q Q' : α → σ → Prop} {E E' : ε → Prop} {s : σ}
    (h : wp x Q E s) (hQ : ∀ a s', Q a s' → Q' a s') (hE : ∀ e, E e → E' e) :
    wp x Q' E' s := by
  rw [wp_iff] at h ⊢
  exact ⟨fun a s' hr => hQ a s' (h.1 a s' hr), fun e hr => hE e (h.2 e hr)⟩

/-- **Conjunction.** -/
theorem wp_and {x : Prog ε σ α} {Q Q' : α → σ → Prop} {E E' : ε → Prop} {s : σ}
    (h : wp x Q E s) (h' : wp x Q' E' s) :
    wp x (fun a s' => Q a s' ∧ Q' a s') (fun e => E e ∧ E' e) s := by
  rw [wp_iff] at h h' ⊢
  exact ⟨fun a s' hr => ⟨h.1 a s' hr, h'.1 a s' hr⟩, fun e hr => ⟨h.2 e hr, h'.2 e hr⟩⟩

/-- **Contradiction**: an outcome that is excluded does not occur. -/
theorem wp.not {x : Prog ε σ α} {Q Q' : α → σ → Prop} {E E' : ε → Prop} {s : σ}
    (h : wp x Q E s) (hQ : ∀ a s', Q a s' → ¬Q' a s') (hE : ∀ e, E e → ¬E' e) :
    ¬wp x Q' E' s := by
  intro h'
  unfold wp at h h'
  cases hr : x.run s with
  | error e =>
      rw [hr] at h h'
      exact hE e h h'
  | ok p =>
      rw [hr] at h h'
      exact hQ p.1 p.2 h h'

/-- What a terminating execution satisfies. -/
theorem wp.ok {x : Prog ε σ α} {Q : α → σ → Prop} {E : ε → Prop} {s s' : σ} {a : α}
    (h : wp x Q E s) (hr : x.run s = .ok (a, s')) : Q a s' :=
  (wp_of_run_ok hr).1 h

/-- What a faulting execution satisfies. -/
theorem wp.error {x : Prog ε σ α} {Q : α → σ → Prop} {E : ε → Prop} {s : σ} {e : ε}
    (h : wp x Q E s) (hr : x.run s = .error e) : E e :=
  (wp_of_run_error hr).1 h

/-- A program does what it does. -/
theorem wp_self (x : Prog ε σ α) (s : σ) :
    wp x (fun a s' => x.run s = .ok (a, s')) (fun e => x.run s = .error e) s :=
  wp_iff.2 ⟨fun _ _ h => h, fun _ h => h⟩

/-- A program whose faults are impossible returns. -/
theorem wp.exists_ok {x : Prog ε σ α} {Q : α → σ → Prop} {s : σ}
    (h : wp x Q (fun _ => False) s) : ∃ a s', x.run s = .ok (a, s') ∧ Q a s' := by
  unfold wp at h
  cases hr : x.run s with
  | error e => rw [hr] at h; exact h.elim
  | ok p => rw [hr] at h; exact ⟨p.1, p.2, rfl, h⟩

/-! ### One rule for each construct -/

section Rules

variable {Q : α → σ → Prop} {E : ε → Prop} {s : σ}

@[simp] theorem wp_pure (a : α) : wp (pure a : Prog ε σ α) Q E s ↔ Q a s := Iff.rfl

@[simp] theorem wp_bind (x : Prog ε σ β) (f : β → Prog ε σ α) :
    wp (x >>= f) Q E s ↔ wp x (fun b s' => wp (f b) Q E s') E s := by
  simp only [wp, StateT.run_bind]
  cases x.run s with
  | error e => rfl
  | ok p => rfl

@[simp] theorem wp_map (f : β → α) (x : Prog ε σ β) :
    wp (f <$> x) Q E s ↔ wp x (fun b s' => Q (f b) s') E s := by
  rw [← bind_pure_comp, wp_bind]
  rfl

@[simp] theorem wp_get {Q : σ → σ → Prop} : wp (get : Prog ε σ σ) Q E s ↔ Q s s := Iff.rfl

@[simp] theorem wp_set {Q : PUnit → σ → Prop} (t : σ) :
    wp (set t : Prog ε σ PUnit) Q E s ↔ Q ⟨⟩ t := Iff.rfl

@[simp] theorem wp_modify {Q : PUnit → σ → Prop} (f : σ → σ) :
    wp (modify f : Prog ε σ PUnit) Q E s ↔ Q ⟨⟩ (f s) := Iff.rfl

@[simp] theorem wp_throw (e : ε) : wp (throw e : Prog ε σ α) Q E s ↔ E e := Iff.rfl

theorem wp_ite {c : Prop} [Decidable c] (x y : Prog ε σ α) :
    wp (if c then x else y) Q E s ↔ (c → wp x Q E s) ∧ (¬c → wp y Q E s) := by
  split <;> simp_all

end Rules

/-! ### Two-state properties -/

/-- **Every outcome of a program is related to where it began**, and its faults satisfy `E`. -/
def Within (R : σ → σ → Prop) (E : ε → Prop) (x : Prog ε σ α) : Prop :=
  ∀ s, wp x (fun _ s' => R s s') E s

namespace Within

variable {R : σ → σ → Prop} {E E' : ε → Prop} {x y : Prog ε σ α}

theorem mono (h : Within R E x) (hE : ∀ e, E e → E' e) : Within R E' x := by
  intro s
  exact wp_mono (h s) (fun _ _ h => h) hE

theorem throw {e : ε} (h : E e) : Within R E (throw e : Prog ε σ α) := by
  intro s
  exact h

theorem modify {f : σ → σ} (h : ∀ s, R s (f s)) :
    Within R E (modify f : Prog ε σ PUnit) := by
  intro s
  exact h s

theorem ite {c : Prop} [Decidable c] (hx : Within R E x) (hy : Within R E y) :
    Within R E (if c then x else y) := by
  split
  · exact hx
  · exact hy

variable [IsPreorder σ R]

theorem pure (a : α) : Within R E (pure a : Prog ε σ α) := by
  intro s
  exact refl_of R s

theorem get : Within R E (get : Prog ε σ σ) := by
  intro s
  exact refl_of R s

/-- One program after the other. -/
theorem bind {z : Prog ε σ β} {f : β → Prog ε σ α} (hz : Within R E z)
    (hf : ∀ b, Within R E (f b)) : Within R E (z >>= f) := by
  intro s
  rw [wp_bind]
  refine wp_mono (hz s) (fun b s₁ h₁ => ?_) fun _ h => h
  exact wp_mono (hf b s₁) (fun _ _ h₂ => trans_of R h₁ h₂) fun _ h => h

end Within

/-- Two states that look the same through `f`. -/
def Same {τ : Type} (f : σ → τ) (s s' : σ) : Prop := f s' = f s

instance {τ : Type} (f : σ → τ) : IsPreorder σ (Same f) where
  refl _ := rfl
  trans _ _ _ h h' := Eq.trans h' h

/-- What holds of the one state holds of the other one. -/
def Preserves (P : σ → Prop) (s s' : σ) : Prop := P s → P s'

instance (P : σ → Prop) : IsPreorder σ (Preserves P) where
  refl _ h := h
  trans _ _ _ h h' hs := h' (h hs)

/-- **What holds before a program holds after it**, unless it stops. -/
abbrev Maintains (P : σ → Prop) (x : Prog ε σ α) : Prop :=
  Within (Preserves P) (fun _ => True) x

/-! ### Values -/

/-- What a program returns, or the fault it stops with. -/
def value (x : Prog ε σ α) (s : σ) : Except ε α :=
  match x.run s with
  | .ok (a, _) => .ok a
  | .error e => .error e

section Value

variable {s t : σ}

/-- A program that begins with one that returns. -/
theorem value_bind_of_ok {x : Prog ε σ β} {f : β → Prog ε σ α} {b : β}
    (h : x.run s = .ok (b, t)) : value (x >>= f) s = value (f b) t := by
  simp only [value, StateT.run_bind, h]
  rfl

/-- A program that begins with one that faults. -/
theorem value_bind_of_error {x : Prog ε σ β} {f : β → Prog ε σ α} {e : ε}
    (h : x.run s = .error e) : value (x >>= f) s = .error e := by
  simp only [value, StateT.run_bind, h]
  rfl

/-- What a program that cannot fault is known to return. -/
theorem value_of_wp {x : Prog ε σ α} {a : α}
    (h : wp x (fun b _ => b = a) (fun _ => False) s) : value x s = .ok a := by
  obtain ⟨b, t, hr, rfl⟩ := h.exists_ok
  rw [value, hr]

/-- A program that returns leaves a state. -/
theorem exists_run_of_value {x : Prog ε σ α} {a : α} (h : value x s = .ok a) :
    ∃ t, x.run s = .ok (a, t) := by
  unfold value at h
  cases hr : x.run s with
  | error e =>
      rw [hr] at h
      simp at h
  | ok p =>
      rw [hr] at h
      obtain rfl := Except.ok.inj h
      exact ⟨p.2, rfl⟩

/-- A program that begins with one that returns and changes nothing. -/
theorem value_bind_of_reads {x : Prog ε σ β} {f : β → Prog ε σ α}
    (h : wp x (fun _ t => t = s) (fun _ => True) s) :
    value (x >>= f) s = value x s >>= fun b => value (f b) s := by
  unfold wp at h
  simp only [value, StateT.run_bind]
  cases hr : x.run s with
  | error e => rfl
  | ok p =>
      rw [hr] at h
      obtain ⟨b, t⟩ := p
      obtain rfl : t = s := h
      rfl

end Value

/-! ### Runs -/

/-- **Runs of a system.**  `step i` is the program of operation `i`, `ok s i` says that the
operation is allowed in state `s`.  A run lists its operations with their results; a fault ends
the run before the faulting operation. -/
inductive Run {ι ρ : Type} (step : ι → Prog ε σ ρ) (ok : σ → ι → Prop) (s₀ : σ) :
    List (ι × ρ) → σ → Prop
  | nil : Run step ok s₀ [] s₀
  | snoc {l : List (ι × ρ)} {s s' : σ} {i : ι} {r : ρ} : Run step ok s₀ l s → ok s i →
      (step i).run s = .ok (r, s') → Run step ok s₀ (l ++ [(i, r)]) s'

namespace Run

variable {ι ρ : Type} {step : ι → Prog ε σ ρ} {ok ok' : σ → ι → Prop} {s₀ s : σ}
  {l : List (ι × ρ)}

/-- **What every allowed step preserves holds throughout every run.** -/
theorem invariant {I : σ → Prop} (h₀ : I s₀)
    (hstep : ∀ s i r s', I s → ok s i → (step i).run s = .ok (r, s') → I s')
    (h : Run step ok s₀ l s) : I s := by
  induction h with
  | nil => exact h₀
  | snoc _ hok hr ih => exact hstep _ _ _ _ ih hok hr

/-- Allowing more operations allows more runs. -/
theorem mono (hok : ∀ s i, ok s i → ok' s i) (h : Run step ok s₀ l s) : Run step ok' s₀ l s := by
  induction h with
  | nil => exact .nil
  | snoc _ ho hr ih => exact .snoc ih (hok _ _ ho) hr

/-- A run may begin with one more operation. -/
theorem cons {s₁ : σ} {i : ι} {r : ρ} (hok : ok s₀ i) (hr : (step i).run s₀ = .ok (r, s₁))
    (h : Run step ok s₁ l s) : Run step ok s₀ ((i, r) :: l) s := by
  induction h with
  | nil => exact .snoc .nil hok hr
  | snoc _ ho hs ih => exact .snoc ih ho hs

end Run

/-- Executing a list of operations; `none` when one is not allowed or faults. -/
def exec {ι ρ : Type} (step : ι → Prog ε σ ρ) (ok : σ → ι → Prop) [∀ s i, Decidable (ok s i)] :
    σ → List ι → Option (List (ι × ρ) × σ)
  | s, [] => some ([], s)
  | s, i :: is =>
      if ok s i then
        match (step i).run s with
        | .ok (r, s') => (exec step ok s' is).map fun p => ((i, r) :: p.1, p.2)
        | .error _ => none
      else none

/-- An execution that ends well is a run. -/
theorem run_of_exec {ι ρ : Type} {step : ι → Prog ε σ ρ} {ok : σ → ι → Prop}
    [∀ s i, Decidable (ok s i)] {is : List ι} {s s' : σ} {l : List (ι × ρ)}
    (h : exec step ok s is = some (l, s')) : Run step ok s l s' := by
  induction is generalizing s l with
  | nil =>
      simp only [exec, Option.some.injEq, Prod.mk.injEq] at h
      obtain ⟨rfl, rfl⟩ := h
      exact .nil
  | cons i is ih =>
      rw [exec] at h
      split at h
      · rename_i hok
        split at h
        · rename_i r s₁ hr
          obtain ⟨p, hp, he⟩ := Option.map_eq_some_iff.1 h
          obtain ⟨rfl, rfl⟩ := Prod.mk.injEq _ _ _ _ ▸ he
          exact (ih hp).cons hok hr
        · simp at h
      · simp at h

/-- A check of the end of an execution. -/
theorem exists_run_of_exec {ι ρ : Type} {step : ι → Prog ε σ ρ} {ok : σ → ι → Prop}
    [∀ s i, Decidable (ok s i)] {is : List ι} {s : σ} {p : List (ι × ρ) → σ → Bool}
    (h : ((exec step ok s is).any fun x => p x.1 x.2) = true) :
    ∃ l s', Run step ok s l s' ∧ p l s' = true := by
  cases hx : exec step ok s is with
  | none => simp [hx] at h
  | some x =>
      rw [hx] at h
      exact ⟨x.1, x.2, run_of_exec hx, h⟩

end Prog
