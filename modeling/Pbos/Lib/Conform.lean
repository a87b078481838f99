import Pbos.Lib.Run

/-!
# Lib/Conform — a system and its specification side by side

A system answers calls, or does not return; its specification has a state of its own, says which
answers it allows, and moves on by the answer.  A call conforms if it returns an allowed answer and
the system represents the specification's state afterwards.  If the conforming calls are those that
fit, from every state that satisfies an invariant, and keep it, then the runs of conforming calls
are the runs of calls that fit (`Setup.runs_iff`).
-/

namespace Conform

variable {ε ρ σ μ ι : Type*}

/-- A system with states `σ`, calls `ι` and answers `ρ`, and a specification with states `μ`. -/
structure Setup (ε ρ σ μ ι : Type*) where
  exec : σ → ι → Except ε (ρ × σ)
  admits : σ → ι → Prop
  allows : μ → ι → ρ → Prop
  apply : μ → ι → ρ → μ
  represents : σ → μ → Prop

/-- How the last call ended, and the specification beside it. -/
structure Beside (ε ρ σ μ : Type*) where
  outcome : Except ε (ρ × σ)
  spec : μ

/-- The last call returned, and `P` holds of where the system and the specification are. -/
def Beside.At (P : σ → μ → Prop) (s : Beside ε ρ σ μ) : Prop :=
  ∃ r x, s.outcome = .ok (r, x) ∧ P x s.spec

namespace Setup

variable (S : Setup ε ρ σ μ ι)

/-- One call on both; there is none after a call that did not return. -/
def Step (s : Beside ε ρ σ μ) (c : ι) (s' : Beside ε ρ σ μ) : Prop :=
  ∃ r x, s.outcome = .ok (r, x) ∧ S.admits x c ∧ s'.outcome = S.exec x c ∧
    ∀ r' x', s'.outcome = .ok (r', x') → s'.spec = S.apply s.spec c r'

/-- **The call conforms.** -/
def Conforms (c : ι) (x : σ) (m : μ) : Prop :=
  ∃ r x', S.exec x c = .ok (r, x') ∧ S.allows m c r ∧ S.represents x' (S.apply m c r)

variable {S} {I : σ → μ → Prop} {F : ι → σ → μ → Prop}

theorem at_iff {P : σ → μ → Prop} {s : Beside ε ρ σ μ} {r : ρ} {x : σ}
    (h : s.outcome = .ok (r, x)) : s.At P ↔ P x s.spec := by
  constructor
  · rintro ⟨r', x', h', hP⟩
    obtain ⟨rfl, rfl⟩ := Prod.mk.inj (Except.ok.inj (h.symm.trans h'))
    exact hP
  · exact fun hP => ⟨r, x, h, hP⟩

/-- **The runs of conforming calls are the runs of calls that fit**, and keep the invariant. -/
theorem runs_iff (hrep : ∀ x m, I x m → S.represents x m)
    (hfit : ∀ c x m, I x m → S.admits x c → F c x m →
      ∃ r x', S.exec x c = .ok (r, x') ∧ S.allows m c r ∧ I x' (S.apply m c r))
    (hconf : ∀ c x m, I x m → S.admits x c → S.Conforms c x m → F c x m)
    {s t : Beside ε ρ σ μ} (h0 : s.At I) (cs : List ι) :
    (Run (fun s c s' => S.Step s c s' ∧ s.At (S.Conforms c)) s cs t ↔
      Run (fun s c s' => S.Step s c s' ∧ s.At (F c)) s cs t) ∧
    (Run (fun s c s' => S.Step s c s' ∧ s.At (S.Conforms c)) s cs t → t.At I) := by
  have hiff : ∀ s c s', s.At I → S.Step s c s' → (s.At (S.Conforms c) ↔ s.At (F c)) := by
    rintro s c s' ⟨r, x, hout, hI⟩ ⟨r', x', hout', hadm, -⟩
    obtain ⟨rfl, rfl⟩ := Prod.mk.inj (Except.ok.inj (hout.symm.trans hout'))
    rw [at_iff hout, at_iff hout]
    refine ⟨hconf c x _ hI hadm, fun h => ?_⟩
    obtain ⟨r', x', hexec, hallow, hI'⟩ := hfit c x _ hI hadm h
    exact ⟨r', x', hexec, hallow, hrep _ _ hI'⟩
  have hkeep : ∀ s c s', s.At I → S.Step s c s' ∧ s.At (S.Conforms c) → s'.At I := by
    rintro s c s' hs ⟨hstep, hc⟩
    have hfits := (hiff s c s' hs hstep).mp hc
    obtain ⟨r, x, hout, hI⟩ := hs
    obtain ⟨r', x', hout', hadm, hnext, hspec⟩ := hstep
    obtain ⟨rfl, rfl⟩ := Prod.mk.inj (Except.ok.inj (hout.symm.trans hout'))
    obtain ⟨r', x', hexec, -, hI'⟩ := hfit c x _ hI hadm ((at_iff hout).mp hfits)
    rw [hexec] at hnext
    refine ⟨r', x', hnext, ?_⟩
    rwa [hspec r' x' hnext]
  exact ⟨Run.congr_of_invariant
    (fun s c s' hs => and_congr_right fun hstep => hiff s c s' hs hstep) hkeep h0,
    fun hrun => Run.invariant hkeep hrun h0⟩

end Setup

end Conform
