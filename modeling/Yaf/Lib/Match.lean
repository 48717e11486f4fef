/-
**Two systems that go the same way.**

Two systems execute the same operations, each over states of its own.  A relation between their
states matches them when related states allow the same operations, and an allowed operation either
faults in both, or returns the same in both and leads to related states again.  Then each run of
one is a run of the other, with the same results.

Main definitions:

* `Prog.Matches` — the relation matches the systems.

Main results:

* `Prog.Matches.symm` — in both directions;
* `Prog.Matches.run` — **a run of one system is a run of the other**.
-/

import Yaf.Lib.Prog

set_option relaxedAutoImplicit false
set_option autoImplicit false

namespace Prog

variable {ε ε' σ τ ι ρ : Type}

/-- **Related states allow the same operations, and these go the same way.** -/
structure Matches (R : σ → τ → Prop) (step : ι → Prog ε σ ρ) (ok : σ → ι → Prop)
    (step' : ι → Prog ε' τ ρ) (ok' : τ → ι → Prop) : Prop where
  allow : ∀ {s t i}, R s t → (ok s i ↔ ok' t i)
  match_step : ∀ {s t i}, R s t → ok s i →
    wp (step i) (fun r s' => ∃ t', (step' i).run t = .ok (r, t') ∧ R s' t')
      (fun _ => ∃ e, (step' i).run t = .error e) s

namespace Matches

variable {R : σ → τ → Prop} {step : ι → Prog ε σ ρ} {ok : σ → ι → Prop}
  {step' : ι → Prog ε' τ ρ} {ok' : τ → ι → Prop} {s₀ s : σ} {t₀ t : τ} {i : ι}
  {l : List (ι × ρ)}

/-- Programs are deterministic, so the second system also goes the way of the first. -/
theorem symm (h : Matches R step ok step' ok') :
    Matches (fun t s => R s t) step' ok' step ok := by
  refine ⟨fun hR => (h.allow hR).symm, fun {t s i} hR hi => ?_⟩
  have hwp := h.match_step hR ((h.allow hR).2 hi)
  unfold wp at hwp
  cases hr : (step i).run s with
  | error e =>
      rw [hr] at hwp
      obtain ⟨e', hr'⟩ := hwp
      exact (wp_of_run_error hr').2 ⟨e, rfl⟩
  | ok p =>
      rw [hr] at hwp
      obtain ⟨t', hr', hR'⟩ := hwp
      exact (wp_of_run_ok hr').2 ⟨p.2, rfl, hR'⟩

/-- An operation faults in both systems or in neither. -/
theorem faults_iff (h : Matches R step ok step' ok') (hR : R s t) (hi : ok s i) :
    (∃ e, (step i).run s = .error e) ↔ ∃ e, (step' i).run t = .error e := by
  constructor
  · rintro ⟨e, hr⟩
    exact (h.match_step hR hi).error hr
  · rintro ⟨e, hr⟩
    exact (h.symm.match_step hR ((h.allow hR).1 hi)).error hr

/-- **A run of one system is a run of the other**, with the same results. -/
theorem run (h : Matches R step ok step' ok') (h₀ : R s₀ t₀) (hrun : Run step ok s₀ l s) :
    ∃ t, Run step' ok' t₀ l t ∧ R s t := by
  induction hrun with
  | nil => exact ⟨t₀, .nil, h₀⟩
  | snoc _ hi hr ih =>
      obtain ⟨t, hrun, hR⟩ := ih
      obtain ⟨t', hr', hR'⟩ := (h.match_step hR hi).ok hr
      exact ⟨t', .snoc hrun ((h.allow hR).1 hi) hr', hR'⟩

end Matches

end Prog
