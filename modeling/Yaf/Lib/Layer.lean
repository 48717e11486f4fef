/-
**A system on top of another one.**

The upper system keeps a state of the lower system among other things, runs programs of the lower
system on it, and does things of its own that cannot be seen from below.  It implements the lower
system when each of its steps is some steps of the lower system, none at all for a step that cannot
be seen.  Then its runs are runs of the lower system, with the steps that cannot be seen left out.

Main definitions:

* `Prog.zoom` — a program of the lower system, run by the upper one;
* `Prog.Implements` — **each step of the upper system is some steps of the lower one**.

Main results:

* `Prog.wp_zoom` — the rule for programs of the lower system;
* `Prog.Implements.run` — **a run of the upper system is one of the lower system**.
-/

import Yaf.Lib.Prog
import Mathlib.Data.List.Forall2

set_option relaxedAutoImplicit false
set_option autoImplicit false

namespace Prog

variable {ε ε' σ τ α ι κ ρ ρ' : Type}

/-! ### Programs of the lower system -/

/-- **A program of the lower system**, run on the part `get` of a state, with faults of its own. -/
def zoom (get : σ → τ) (put : σ → τ → σ) (fault : ε' → ε) (x : Prog ε' τ α) : Prog ε σ α := fun s =>
  match x.run (get s) with
  | .ok (a, t) => .ok (a, put s t)
  | .error e => .error (fault e)

theorem run_zoom {get : σ → τ} {put : σ → τ → σ} {fault : ε' → ε} (x : Prog ε' τ α) (s : σ) :
    (zoom get put fault x).run s = match x.run (get s) with
      | .ok (a, t) => .ok (a, put s t)
      | .error e => .error (fault e) := rfl

theorem wp_zoom {get : σ → τ} {put : σ → τ → σ} {fault : ε' → ε} (x : Prog ε' τ α)
    {Q : α → σ → Prop} {E : ε → Prop} {s : σ} : wp (zoom get put fault x) Q E s ↔
      wp x (fun a t => Q a (put s t)) (fun e => E (fault e)) (get s) := by
  unfold wp
  rw [run_zoom]
  cases x.run (get s) with
  | ok p => rfl
  | error e => rfl

/-! ### Runs of the lower system -/

/-- One run after the other. -/
theorem Run.append {step : ι → Prog ε σ ρ} {ok : σ → ι → Prop} {s₀ s₁ s : σ} {l l' : List (ι × ρ)}
    (h : Run step ok s₀ l s₁) (h' : Run step ok s₁ l' s) : Run step ok s₀ (l ++ l') s := by
  induction h' with
  | nil =>
      rw [List.append_nil]
      exact h
  | snoc _ hok hr ih =>
      rw [← List.append_assoc]
      exact .snoc ih hok hr

/-- A run without operations. -/
theorem Run.eq_of_nil {step : ι → Prog ε σ ρ} {ok : σ → ι → Prop} {s₀ s : σ}
    (h : Run step ok s₀ [] s) : s = s₀ := by
  generalize hl : ([] : List (ι × ρ)) = l at h
  cases h with
  | nil => rfl
  | snoc => simp at hl

/-- A run of one operation. -/
theorem Run.of_single {step : ι → Prog ε σ ρ} {ok : σ → ι → Prop} {s₀ s : σ} {i : ι} {r : ρ}
    (h : Run step ok s₀ [(i, r)] s) : ok s₀ i ∧ (step i).run s₀ = .ok (r, s) := by
  generalize hl : [(i, r)] = l at h
  cases h with
  | nil => simp at hl
  | @snoc l s₁ _ i' r' h hok hr =>
      have hsplit : ([] : List (ι × ρ)) ++ [(i, r)] = l ++ [(i', r')] := hl
      obtain ⟨hnil, hx⟩ := List.append_inj' hsplit rfl
      rw [List.cons.injEq, Prod.mk.injEq] at hx
      obtain ⟨⟨rfl, rfl⟩, -⟩ := hx
      rw [← hnil] at h
      obtain rfl := h.eq_of_nil
      exact ⟨hok, hr⟩

/-- **Each step of the upper system is some steps of the lower one.**  `shows x l` says that the
steps `l` are what is seen from below of the step `x`. -/
structure Implements (R : σ → τ → Prop) (step : ι → Prog ε σ ρ) (ok : σ → ι → Prop)
    (step' : κ → Prog ε' τ ρ') (ok' : τ → κ → Prop) (shows : ι × ρ → List (κ × ρ') → Prop) :
    Prop where
  run_step : ∀ {s t i r s'}, R s t → ok s i → (step i).run s = .ok (r, s') →
    ∃ l t', shows (i, r) l ∧ Run step' ok' t l t' ∧ R s' t'

namespace Implements

variable {R : σ → τ → Prop} {step : ι → Prog ε σ ρ} {ok : σ → ι → Prop}
  {step' : κ → Prog ε' τ ρ'} {ok' : τ → κ → Prop} {shows : ι × ρ → List (κ × ρ') → Prop}
  {s₀ s : σ} {t₀ : τ} {l : List (ι × ρ)}

/-- **A run of the upper system is one of the lower system.** -/
theorem run (h : Implements R step ok step' ok' shows) (h₀ : R s₀ t₀) (hrun : Run step ok s₀ l s) :
    ∃ ls t, List.Forall₂ shows l ls ∧ Run step' ok' t₀ ls.flatten t ∧ R s t := by
  induction hrun with
  | nil => exact ⟨[], t₀, .nil, .nil, h₀⟩
  | snoc _ hi hr ih =>
      obtain ⟨ls, t, hshow, hrun, hR⟩ := ih
      obtain ⟨l', t', hshow', hrun', hR'⟩ := h.run_step hR hi hr
      refine ⟨ls ++ [l'], t', ?_, ?_, hR'⟩
      · exact List.rel_append hshow (.cons hshow' .nil)
      · rw [List.flatten_append, List.flatten_singleton]
        exact hrun.append hrun'

end Implements

end Prog
