import Mathlib

/-!
# Lib/Moves — moving values one after another

A memory maps places to values.  A move takes the value from a place to another one and leaves
`gone` behind.  Moves are in order if none reads a place that an earlier one wrote or emptied, and
no place is written twice; then every destination ends up with what its source held at first,
however the two ranges overlap (`moves_dst`).
-/

namespace Moves

open Function List

variable {α β : Type*} [DecidableEq α] {gone : β} {f : α → β} {xs : List (α × α)} {x : α × α}
  {p : α}

/-- Move the value at `x.2` to `x.1`. -/
def move (gone : β) (f : α → β) (x : α × α) : α → β :=
  update (update f x.1 (f x.2)) x.2 gone

/-- One move after another. -/
def moves (gone : β) (f : α → β) (xs : List (α × α)) : α → β := xs.foldl (move gone) f

/-- No move reads what an earlier one wrote or emptied, and no place is written twice. -/
structure Ordered (xs : List (α × α)) : Prop where
  apart : ∀ x ∈ xs, x.1 ≠ x.2
  pairwise : xs.Pairwise fun x y => y.2 ≠ x.1 ∧ y.2 ≠ x.2 ∧ y.1 ≠ x.1

theorem move_dst (h : x.1 ≠ x.2) : move gone f x x.1 = f x.2 := by
  rw [move, update_of_ne h, update_self]

@[simp] theorem move_src : move gone f x x.2 = gone := update_self ..

theorem move_of_ne (h1 : p ≠ x.1) (h2 : p ≠ x.2) : move gone f x p = f p := by
  rw [move, update_of_ne h2, update_of_ne h1]

@[simp] theorem moves_nil : moves gone f [] = f := rfl

@[simp] theorem moves_cons : moves gone f (x :: xs) = moves gone (move gone f x) xs := rfl

omit [DecidableEq α] in
theorem Ordered.tail (h : Ordered (x :: xs)) : Ordered xs :=
  ⟨fun y hy => h.apart y (mem_cons_of_mem _ hy), h.pairwise.of_cons⟩

/-- A place no move names keeps its value. -/
theorem moves_of_ne (h : ∀ x ∈ xs, p ≠ x.1 ∧ p ≠ x.2) : moves gone f xs p = f p := by
  induction xs generalizing f with
  | nil => rfl
  | cons x xs ih =>
    obtain ⟨h1, h2⟩ := h x mem_cons_self
    rw [moves_cons, ih fun y hy => h y (mem_cons_of_mem _ hy), move_of_ne h1 h2]

/-- **A destination** ends up with what its source held at first. -/
theorem moves_dst (h : Ordered xs) (hx : x ∈ xs) : moves gone f xs x.1 = f x.2 := by
  induction xs generalizing f with
  | nil => cases hx
  | cons y xs ih =>
    obtain ⟨hy, -⟩ := pairwise_cons.mp h.pairwise
    rw [moves_cons]
    rcases mem_cons.mp hx with rfl | hx
    · rw [moves_of_ne fun z hz => ⟨(hy z hz).2.2.symm, (hy z hz).1.symm⟩,
        move_dst (h.apart x mem_cons_self)]
    · rw [ih h.tail hx, move_of_ne (hy x hx).1 (hy x hx).2.1]

/-- **A source** is left behind empty, unless it is a destination too. -/
theorem moves_src (h : Ordered xs) (hx : x ∈ xs) (hd : ∀ y ∈ xs, y.1 ≠ x.2) :
    moves gone f xs x.2 = gone := by
  induction xs generalizing f with
  | nil => cases hx
  | cons y xs ih =>
    obtain ⟨hy, -⟩ := pairwise_cons.mp h.pairwise
    rw [moves_cons]
    rcases mem_cons.mp hx with rfl | hx
    · rw [moves_of_ne fun z hz => ⟨(hd z (mem_cons_of_mem _ hz)).symm, (hy z hz).2.1.symm⟩,
        move_src]
    · exact ih h.tail hx fun z hz => hd z (mem_cons_of_mem _ hz)

/-! ## Ranges -/

/-- The moves of `n` places from `s` on to `d` on, within rows of places. -/
def row (d s : ℕ × ℕ) (k : ℕ) : (ℕ × ℕ) × ℕ × ℕ := ((d.1, d.2 + k), (s.1, s.2 + k))

variable {d s : ℕ × ℕ} {n : ℕ}

/-- **The first place first**, for ranges apart. -/
theorem ordered_up (h : d.1 ≠ s.1 ∨ d.2 + n ≤ s.2) : Ordered ((List.range n).map (row d s)) := by
  refine ⟨fun x hx => ?_, ?_⟩
  · obtain ⟨k, hk, rfl⟩ := mem_map.mp hx
    have := mem_range.mp hk
    simp only [row, ne_eq, Prod.mk.injEq]
    omega
  · rw [pairwise_map]
    refine (pairwise_lt_range).imp_of_mem fun {k k'} hk hk' hlt => ?_
    simp only [row, ne_eq, Prod.mk.injEq]
    omega

/-- **The last place first**, for ranges apart and for a destination above its source. -/
theorem ordered_down (h : d.1 ≠ s.1 ∨ d.2 + n ≤ s.2 ∨ s.2 < d.2) :
    Ordered ((List.range n).reverse.map (row d s)) := by
  refine ⟨fun x hx => ?_, ?_⟩
  · obtain ⟨k, hk, rfl⟩ := mem_map.mp hx
    have := mem_range.mp (mem_reverse.mp hk)
    simp only [row, ne_eq, Prod.mk.injEq]
    omega
  · rw [pairwise_map, pairwise_reverse]
    refine (pairwise_lt_range).imp_of_mem fun {k k'} hk hk' hlt => ?_
    have := mem_range.mp hk'
    simp only [row, ne_eq, Prod.mk.injEq]
    omega

end Moves
