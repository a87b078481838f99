import Mathlib

/-!
# Lib/Run — finite runs of a labelled step relation

A run is a list of labels together with the states it passes through.  `Run.invariant` is the one
induction every "after each call" result rests on: what one step keeps, a whole run keeps.
`Run.through_iff` is its two-sided form, for a property that some steps break.
-/

/-- `Run step s is s'`: performing the labels `is` one after another leads from `s` to `s'`. -/
inductive Run {σ ι : Type*} (step : σ → ι → σ → Prop) : σ → List ι → σ → Prop
  | nil (s : σ) : Run step s [] s
  | cons {s s' s'' : σ} {i : ι} {is : List ι} :
      step s i s' → Run step s' is s'' → Run step s (i :: is) s''

namespace Run

variable {σ ι : Type*} {step step' : σ → ι → σ → Prop} {s s' s'' : σ} {is is' : List ι}

/-- **What one step keeps, a run keeps.** -/
theorem invariant {I : σ → Prop} (hstep : ∀ s i s', I s → step s i s' → I s')
    (h : Run step s is s') (h0 : I s) : I s' := by
  induction h with
  | nil => exact h0
  | cons hs _ ih => exact ih (hstep _ _ _ h0 hs)

/-- **Two step relations that agree wherever a run gets**, as far as `I` says where that is, have
the same runs. -/
theorem congr_of_invariant {I : σ → Prop} (hstep : ∀ s i s', I s → (step s i s' ↔ step' s i s'))
    (hI : ∀ s i s', I s → step s i s' → I s') (h0 : I s) :
    Run step s is s' ↔ Run step' s is s' := by
  induction is generalizing s with
  | nil =>
    constructor
    · rintro ⟨⟩
      exact .nil _
    · rintro ⟨⟩
      exact .nil _
  | cons i is ih =>
    constructor
    · rintro (_ | ⟨hs, hrest⟩)
      exact .cons ((hstep _ _ _ h0).mp hs) ((ih (hI _ _ _ h0 hs)).mp hrest)
    · rintro (_ | ⟨hs, hrest⟩)
      have hs' := (hstep _ _ _ h0).mpr hs
      exact .cons hs' ((ih (hI _ _ _ h0 hs')).mpr hrest)

/-- **Good states and fitting steps.**  If from a good state a step leads to a good state exactly
when it fits, then the runs through good states are the runs of fitting steps.  `I` is what every
step keeps. -/
theorem through_iff {I G : σ → Prop} {fits : σ → ι → Prop} (hI : ∀ s i s', I s → step s i s' → I s')
    (hG : ∀ s i s', I s → G s → step s i s' → (G s' ↔ fits s i)) (h0 : I s) (h0' : G s) :
    Run (fun s i s' => step s i s' ∧ G s') s is s' ↔
      Run (fun s i s' => step s i s' ∧ fits s i) s is s' :=
  congr_of_invariant (I := fun s => I s ∧ G s)
    (fun s i s' hs => and_congr_right fun h => hG s i s' hs.1 hs.2 h)
    (fun s i s' hs h => ⟨hI s i s' hs.1 h.1, h.2⟩) ⟨h0, h0'⟩

end Run
