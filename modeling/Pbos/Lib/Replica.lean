import Mathlib

/-!
# Lib/Replica — a set that grows in several replicas and is passed on by copying

Items are installed in one replica at a time, and a replica learns of the others' items only when it
is overwritten with a copy.  `Log` follows such a history without looking at the replicas: which
items there are, and which replicas should have them all.  `Tracks` says that it is right about
that, and is kept by both kinds of steps.
-/

namespace Replica

variable {ρ ε : Type*}

/-- What the history says: all items installed so far, and the replicas that are up to date. -/
structure Log (ρ ε : Type*) where
  installed : Set ε
  upToDate : Set ρ

namespace Log

/-- Nothing is installed yet. -/
def start : Log ρ ε := ⟨∅, Set.univ⟩

/-- The replica `r` has got the items `new`, and has kept the others unless `lost`.  If there is
anything new, no other replica is up to date any more. -/
def install (l : Log ρ ε) (r : ρ) (new : Set ε) (lost : Prop) : Log ρ ε where
  installed := l.installed ∪ new
  upToDate := {g | g ∈ l.upToDate ∧ (g = r → ¬ lost) ∧ (g ≠ r → new = ∅)}

/-- The replica `dest` has become a copy of `src`. -/
def copy (l : Log ρ ε) (dest src : ρ) : Log ρ ε where
  installed := l.installed
  upToDate := {g | (g = dest → src ∈ l.upToDate) ∧ (g ≠ dest → g ∈ l.upToDate)}

/-- The replicas `R` that are up to date are those that hold every item. -/
def Tracks (l : Log ρ ε) (R : Set ρ) (held : ρ → Set ε) : Prop :=
  ∀ r ∈ R, r ∈ l.upToDate ↔ l.installed ⊆ held r

variable {l : Log ρ ε} {R : Set ρ} {held held' : ρ → Set ε} {r dest src : ρ} {new : Set ε}

theorem tracks_start : (start : Log ρ ε).Tracks R held :=
  fun _ _ => ⟨fun _ => Set.empty_subset _, fun _ => Set.mem_univ _⟩

/-- **Installing.**  What is new is new to all replicas, and the one that gets it gets nothing
else. -/
theorem Tracks.install (h : l.Tracks R held) (hr : r ∈ R)
    (hother : ∀ g ∈ R, g ≠ r → held' g = held g) (hnew : new ⊆ held' r)
    (hown : ∀ x ∈ held' r, x ∈ l.installed → x ∈ held r)
    (hfresh : ∀ g ∈ R, ∀ x ∈ new, x ∉ held g) :
    (l.install r new (¬ l.installed ∩ held r ⊆ held' r)).Tracks R held' := by
  intro g hg
  by_cases hgr : g = r
  · subst hgr
    constructor
    · rintro ⟨hg', hkept, -⟩ x (hx | hx)
      · exact not_not.mp (hkept rfl) ⟨hx, (h g hg).mp hg' hx⟩
      · exact hnew hx
    · intro hall
      refine ⟨(h g hg).mpr fun x hx => hown x (hall (.inl hx)) hx, fun _ hlost => ?_,
        absurd rfl⟩
      exact hlost fun x hx => hall (.inl hx.1)
  · constructor
    · rintro ⟨hg', -, hempty⟩ x (hx | hx)
      · rw [hother g hg hgr]
        exact (h g hg).mp hg' hx
      · rw [hempty hgr] at hx
        exact hx.elim
    · intro hall
      rw [hother g hg hgr] at hall
      refine ⟨(h g hg).mpr fun x hx => hall (.inl hx), fun heq => absurd heq hgr, fun _ => ?_⟩
      exact Set.eq_empty_iff_forall_notMem.mpr fun x hx => hfresh g hg x hx (hall (.inr hx))

/-- **Copying.** -/
theorem Tracks.copy (h : l.Tracks R held) (hsrc : src ∈ R) (hdest : held' dest = held src)
    (hother : ∀ g ∈ R, g ≠ dest → held' g = held g) : (l.copy dest src).Tracks R held' := by
  intro g hg
  by_cases hgd : g = dest
  · subst hgd
    rw [hdest]
    exact ⟨fun hg' => (h src hsrc).mp (hg'.1 rfl),
      fun hall => ⟨fun _ => (h src hsrc).mpr hall, absurd rfl⟩⟩
  · rw [hother g hg hgd]
    exact ⟨fun hg' => (h g hg).mp (hg'.2 hgd),
      fun hall => ⟨fun heq => absurd heq hgd, fun _ => (h g hg).mpr hall⟩⟩

/-- A copy has every item exactly when what it was made from is up to date. -/
theorem Tracks.installed_subset_copy_iff (h : l.Tracks R held) (hsrc : src ∈ R)
    (hdest : held' dest = held src) :
    (l.copy dest src).installed ⊆ held' dest ↔ src ∈ l.upToDate := by
  rw [hdest]
  exact (h src hsrc).symm

end Log

end Replica
