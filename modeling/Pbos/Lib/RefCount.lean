import Mathlib

/-!
# Lib/RefCount — reference counts

Objects carry a count of the references to them and are destroyed when it comes down to zero.
`Holds s s' l` says that `s'` is `s` with one more reference for each member of `l`: taking a
reference adds a member, dropping one removes it, and as long as every count in `s` is positive
nothing is destroyed.
-/

variable {ν : Type*} [DecidableEq ν]

/-- The counts, and the objects whose count came down to zero. -/
structure RefCount (ν : Type*) where
  count : ν → ℕ
  destroyed : List ν

namespace RefCount

/-- Take a reference. -/
def acquire (s : RefCount ν) (n : ν) : RefCount ν :=
  { s with count := Function.update s.count n (s.count n + 1) }

/-- Drop a reference. -/
def drop (s : RefCount ν) (n : ν) : RefCount ν where
  count := Function.update s.count n (s.count n - 1)
  destroyed := if s.count n - 1 = 0 then n :: s.destroyed else s.destroyed

/-- One more reference for each member of `l`, and nothing destroyed. -/
structure Holds (s s' : RefCount ν) (l : List ν) : Prop where
  count : ∀ n, s'.count n = s.count n + l.count n
  destroyed : s'.destroyed = s.destroyed

variable {s s' : RefCount ν} {l l' : List ν} {n : ν}

theorem Holds.refl (s : RefCount ν) : Holds s s [] := ⟨fun _ => rfl, rfl⟩

theorem Holds.perm (h : Holds s s' l) (hp : l.Perm l') : Holds s s' l' :=
  ⟨fun n => (h.count n).trans (congrArg _ (hp.count_eq n)), h.destroyed⟩

theorem Holds.acquire (h : Holds s s' l) (n : ν) : Holds s (s'.acquire n) (n :: l) := by
  refine ⟨fun m => ?_, h.destroyed⟩
  simp only [RefCount.acquire, Function.update_apply, List.count_cons]
  split
  · rename_i e
    subst e
    rw [h.count, beq_self_eq_true, if_pos rfl, Nat.add_assoc]
  · rename_i e
    rw [h.count, if_neg (by simpa using Ne.symm e), Nat.add_zero]

/-- **Dropping a reference that was taken** destroys nothing. -/
theorem Holds.drop (h : Holds s s' (n :: l)) (hn : 1 ≤ s.count n) : Holds s (s'.drop n) l := by
  have hc := h.count n
  rw [List.count_cons_self] at hc
  refine ⟨fun m => ?_, ?_⟩
  · simp only [RefCount.drop, Function.update_apply]
    split
    · rename_i e
      subst e
      omega
    · rename_i e
      rw [h.count, List.count_cons_of_ne (Ne.symm e)]
  · simp only [RefCount.drop]
    rw [if_neg (by omega), h.destroyed]

end RefCount
