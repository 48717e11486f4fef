/-
**A program that goes the way of another one.**

Two programs run over states of different kinds.  The first one follows the second when, begun in
related states, it returns what the second one returns and the states they leave are related, or
stops with the fault the second one stops with.  It may take steps that have no counterpart, and it
may stop with faults of its own.

Main definitions:

* `Prog.Follows` — one program follows the other.

Main results:

* `Prog.Follows.bind`, `Prog.Follows.quiet`, … — one rule for each construct;
* `Prog.Follows.zoom` — programs of two lower systems, run by two upper ones;
* `Prog.Follows.value_iff` — the same values, without faults of its own;
* `Prog.Follows.run` — **a run of operations that follow others is a run of the others**;
* `Prog.Follows.run_until` — **and the other way round**, until an operation stops on its own.
-/

import Yaf.Lib.Match
import Yaf.Lib.Layer

set_option relaxedAutoImplicit false
set_option autoImplicit false

namespace Prog

variable {ε ε' σ τ α β : Type}

/-- **The program `x` follows `y`**: from states related by `R` it returns what `y` returns, with
states related by `R'`, or stops as `y` does.  A fault of `y` is named `fault` here, and `own` are
the faults that `y` does not have. -/
def Follows (fault : ε' → ε) (own : ε → Prop) (R : σ → τ → Prop) (R' : α → σ → τ → Prop)
    (x : Prog ε σ α) (y : Prog ε' τ α) : Prop :=
  ∀ s t, R s t → wp x (fun a s' => ∃ t', y.run t = .ok (a, t') ∧ R' a s' t')
    (fun e => own e ∨ ∃ e', y.run t = .error e' ∧ e = fault e') s

namespace Follows

variable {fault : ε' → ε} {own : ε → Prop} {R R₁ : σ → τ → Prop} {R' R'' : α → σ → τ → Prop}
  {x : Prog ε σ α} {y : Prog ε' τ α}

/-! ### The rules -/

/-- **Consequence.** -/
theorem conseq (h : Follows fault own R R' x y) (hpre : ∀ s t, R₁ s t → R s t)
    (hpost : ∀ a s t, R' a s t → R'' a s t) : Follows fault own R₁ R'' x y := by
  intro s t hR
  refine wp_mono (h s t (hpre s t hR)) ?_ fun _ he => he
  rintro a s' ⟨t', hr, hR'⟩
  exact ⟨t', hr, hpost a s' t' hR'⟩

theorem pure (a : α) (h : ∀ s t, R s t → R' a s t) :
    Follows fault own R R' (pure a : Prog ε σ α) (pure a : Prog ε' τ α) := by
  intro s t hR
  exact ⟨t, rfl, h s t hR⟩

theorem throw (e : ε') :
    Follows fault own R R' (throw (fault e) : Prog ε σ α) (throw e : Prog ε' τ α) := by
  intro s t _
  exact .inr ⟨e, rfl, rfl⟩

/-- One program after the other. -/
theorem bind {x : Prog ε σ β} {y : Prog ε' τ β} {f : β → Prog ε σ α} {g : β → Prog ε' τ α}
    {S : β → σ → τ → Prop} (h : Follows fault own R S x y)
    (hf : ∀ b, Follows fault own (S b) R' (f b) (g b)) :
    Follows fault own R R' (x >>= f) (y >>= g) := by
  intro s t hR
  rw [wp_bind]
  refine wp_mono (h s t hR) ?_ ?_
  · rintro b s₁ ⟨t₁, hr, hS⟩
    refine wp_mono (hf b s₁ t₁ hS) ?_ ?_
    · rintro a s' ⟨t', hr', hR'⟩
      exact ⟨t', by rw [StateT.run_bind, hr]; exact hr', hR'⟩
    · rintro e (he | ⟨e', hr', he⟩)
      · exact .inl he
      · exact .inr ⟨e', by rw [StateT.run_bind, hr]; exact hr', he⟩
  · rintro e (he | ⟨e', hr, he⟩)
    · exact .inl he
    · exact .inr ⟨e', by rw [StateT.run_bind, hr]; rfl, he⟩

/-- A step that has no counterpart. -/
theorem quiet {z : Prog ε σ β} {f : β → Prog ε σ α}
    (hz : ∀ s t, R s t → wp z (fun _ s' => R₁ s' t) own s)
    (hf : ∀ b, Follows fault own R₁ R' (f b) y) : Follows fault own R R' (z >>= f) y := by
  intro s t hR
  rw [wp_bind]
  exact wp_mono (hz s t hR) (fun b s₁ hR₁ => hf b s₁ t hR₁) fun _ he => .inl he

/-- A last step that has no counterpart and returns what it is given. -/
theorem after {S : α → σ → τ → Prop} {z : α → Prog ε σ α} (h : Follows fault own R S x y)
    (hz : ∀ a s t, S a s t → wp (z a) (fun b s' => b = a ∧ R' a s' t) own s) :
    Follows fault own R R' (x >>= z) y := by
  intro s t hR
  rw [wp_bind]
  refine wp_mono (h s t hR) ?_ fun _ he => he
  rintro a s₁ ⟨t', hr, hS⟩
  refine wp_mono (hz a s₁ t' hS) ?_ fun _ he => .inl he
  rintro b s' ⟨rfl, hR'⟩
  exact ⟨t', hr, hR'⟩

theorem ite {c : Prop} [Decidable c] {x' : Prog ε σ α} {y' : Prog ε' τ α}
    (hx : c → Follows fault own R R' x y) (hy : ¬c → Follows fault own R R' x' y') :
    Follows fault own R R' (if c then x else x') (if c then y else y') := by
  split
  · exact hx ‹_›
  · exact hy ‹_›

/-- Both programs look at their states. -/
theorem get {f : σ → Prog ε σ α} {g : τ → Prog ε' τ α}
    (h : ∀ s t, R s t → Follows fault own R R' (f s) (g t)) :
    Follows fault own R R' (get >>= f) (get >>= g) := by
  intro s t hR
  exact h s t hR s t hR

/-- Something that is known of this program alone. -/
theorem and {P Q : σ → Prop} (h : Follows fault own R R' x y)
    (hx : ∀ s, P s → wp x (fun _ s' => Q s') (fun _ => True) s) :
    Follows fault own (fun s t => R s t ∧ P s) (fun a s t => R' a s t ∧ Q s) x y := by
  rintro s t ⟨hR, hP⟩
  refine wp_mono (wp_and (h s t hR) (hx s hP)) ?_ fun _ he => he.1
  rintro a s' ⟨⟨t', hr, hR'⟩, hQ⟩
  exact ⟨t', hr, hR', hQ⟩

/-- What the other program returns is returned, unless this one stops on its own. -/
theorem exists_or (h : Follows fault own R R' x y) {s : σ} {t t' : τ} {a : α} (hR : R s t)
    (hr : y.run t = .ok (a, t')) :
    (∃ s', x.run s = .ok (a, s') ∧ R' a s' t') ∨ ∃ e, x.run s = .error e ∧ own e := by
  have hwp := h s t hR
  cases hx : x.run s with
  | ok p =>
      obtain ⟨b, s'⟩ := p
      obtain ⟨t₁, hr₁, hR'⟩ := hwp.ok hx
      obtain ⟨rfl, rfl⟩ := Prod.mk.inj (Except.ok.inj (hr.symm.trans hr₁))
      exact .inl ⟨s', rfl, hR'⟩
  | error e =>
      rcases hwp.error hx with hown | ⟨e', hr', -⟩
      · exact .inr ⟨e, rfl, hown⟩
      · rw [hr] at hr'
        simp at hr'

/-- **Programs of two lower systems**, run by two upper ones. -/
theorem zoom {ε₁ ε₂ σ₁ τ₁ : Type} {get : σ → σ₁} {put : σ → σ₁ → σ} {get' : τ → τ₁}
    {put' : τ → τ₁ → τ} {fault₁ : ε₂ → ε₁} {f : ε₁ → ε} {f' : ε₂ → ε'} {R₂ : σ₁ → τ₁ → Prop}
    {R₃ : α → σ₁ → τ₁ → Prop} {x : Prog ε₁ σ₁ α} {y : Prog ε₂ τ₁ α}
    (h : Follows fault₁ (fun e => own (f e)) R₂ R₃ x y) (hget : ∀ s t, R s t → R₂ (get s) (get' t))
    (hput : ∀ a s t s₁ t₁, R s t → R₃ a s₁ t₁ → R' a (put s s₁) (put' t t₁))
    (hfault : ∀ e, f (fault₁ e) = fault (f' e)) :
    Follows fault own R R' (Prog.zoom get put f x) (Prog.zoom get' put' f' y) := by
  intro s t hR
  rw [wp_zoom, run_zoom]
  refine wp_mono (h (get s) (get' t) (hget s t hR)) ?_ ?_
  · rintro a s₁ ⟨t₁, hr, hR₃⟩
    rw [hr]
    exact ⟨put' t t₁, rfl, hput a s t s₁ t₁ hR hR₃⟩
  · rintro e (he | ⟨e', hr, rfl⟩)
    · exact .inl he
    · rw [hr]
      exact .inr ⟨f' e', rfl, hfault e'⟩

/-- Without faults of its own, a program returns what the one it follows returns. -/
theorem value_iff (h : Follows fault (fun _ => False) R R' x y) {s : σ} {t : τ} (hR : R s t)
    (a : α) : value x s = .ok a ↔ value y t = .ok a := by
  have hwp := h s t hR
  unfold wp at hwp
  rw [value, value]
  cases hr : x.run s with
  | ok p =>
      obtain ⟨b, s'⟩ := p
      rw [hr] at hwp
      obtain ⟨t', hr', -⟩ := hwp
      rw [hr']
      change (Except.ok b : Except ε α) = .ok a ↔ (Except.ok b : Except ε' α) = .ok a
      rw [Except.ok.injEq, Except.ok.injEq]
  | error e =>
      rw [hr] at hwp
      obtain ⟨e', hr', -⟩ := hwp.resolve_left id
      rw [hr']
      constructor
      · intro ha
        cases ha
      · intro ha
        cases ha

/-! ### Runs -/

section Runs

variable {ι ρ : Type} {S : σ → τ → Prop} {step : ι → Prog ε σ ρ} {ok : σ → ι → Prop}
  {step' : ι → Prog ε' τ ρ} {ok' : τ → ι → Prop} {s₀ s : σ} {t₀ : τ} {l : List (ι × ρ)}

/-- **A run of operations that follow others is a run of the others**, with the same results.  The
faults of an operation may depend on the state it begins in. -/
theorem run {own : σ → ι → ε → Prop}
    (h : ∀ s i, Follows fault (own s i) (fun s' t => s' = s ∧ S s t) (fun _ => S) (step i) (step' i))
    (hok : ∀ {s t i}, S s t → ok s i → ok' t i) (h₀ : S s₀ t₀) (hrun : Run step ok s₀ l s) :
    ∃ t, Run step' ok' t₀ l t ∧ S s t := by
  induction hrun with
  | nil => exact ⟨t₀, .nil, h₀⟩
  | @snoc l s₁ s₂ i r _ hi hr ih =>
      obtain ⟨t, hrun, hS⟩ := ih
      obtain ⟨t', hr', hS'⟩ := (h s₁ i s₁ t ⟨rfl, hS⟩).ok hr
      exact ⟨t', .snoc hrun (hok hS hi) hr', hS'⟩

/-- **A run of the others is a run of operations that follow them**, until one of these stops on
its own. -/
theorem run_until {own : σ → ι → ε → Prop}
    (h : ∀ s i, Follows fault (own s i) (fun s' t => s' = s ∧ S s t) (fun _ => S) (step i) (step' i))
    (hok : ∀ {s t i}, S s t → ok' t i → ok s i) (h₀ : S s₀ t₀) {t : τ}
    (hrun : Run step' ok' t₀ l t) :
    (∃ s, Run step ok s₀ l s ∧ S s t) ∨
      ∃ l₁ x l₂ s e, l = l₁ ++ x :: l₂ ∧ Run step ok s₀ l₁ s ∧ (step x.1).run s = .error e ∧
        own s x.1 e := by
  induction hrun with
  | nil => exact .inl ⟨s₀, .nil, h₀⟩
  | @snoc l t₁ t₂ i r _ hi hr ih =>
      rcases ih with ⟨s, hrun, hS⟩ | ⟨l₁, x, l₂, s, e, rfl, hrun, he, hown⟩
      · rcases (h s i).exists_or ⟨rfl, hS⟩ hr with ⟨s', hr', hS'⟩ | ⟨e, he, hown⟩
        · exact .inl ⟨s', .snoc hrun (hok hS hi) hr', hS'⟩
        · exact .inr ⟨l, (i, r), [], s, e, rfl, hrun, he, hown⟩
      · exact .inr ⟨l₁, x, l₂ ++ [(i, r)], s, e, by simp, hrun, he, hown⟩

end Runs

end Follows

end Prog
