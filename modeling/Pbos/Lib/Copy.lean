import Mathlib

/-!
# Lib/Copy — copying memory word by word

A memory maps addresses to cells.  A copy moves words of `w` cells from `s` to `d`, the first word
first (`copyUp`) or the last word first (`copyDown`); a word is read as a whole before it is
written. Copying the last word first is right unless the destination lies below the source and
reaches into it (`copyDown_eq`), and then it is wrong for some contents as soon as there are two
words (`copyDown_wrong`).
-/

namespace Copy

variable {α : Type*} {M : ℕ → α} {d s w i n a : ℕ}

/-- `d[i] = s[i]`, for words of `w` cells. -/
def word (w d s : ℕ) (M : ℕ → α) (i : ℕ) : ℕ → α := fun a =>
  if d + i * w ≤ a ∧ a < d + (i + 1) * w then M (s + (a - d)) else M a

/-- `for (i = 0; i < n; ++i) d[i] = s[i]`. -/
def copyUp (w d s : ℕ) : ℕ → (ℕ → α) → ℕ → α
  | 0, M => M
  | n + 1, M => word w d s (copyUp w d s n M) n

/-- `for (i = n; i; --i) d[i - 1] = s[i - 1]`. -/
def copyDown (w d s : ℕ) : ℕ → (ℕ → α) → ℕ → α
  | 0, M => M
  | n + 1, M => copyDown w d s n (word w d s M n)

/-- The memory in which the cells from `d` on are those that were at `s`. -/
def moved (d s n : ℕ) (M : ℕ → α) : ℕ → α := fun a =>
  if d ≤ a ∧ a < d + n then M (s + (a - d)) else M a

theorem moved_apply (hi : i < n) : moved d s n M (d + i) = M (s + i) := by
  rw [moved, if_pos ⟨by omega, by omega⟩, Nat.add_sub_cancel_left]

theorem moved_of_not_mem (h : ¬ (d ≤ a ∧ a < d + n)) : moved d s n M a = M a := if_neg h

/-! ## Copies that are right -/

/-- **The first word first is right** for ranges apart. -/
theorem copyUp_eq (h : s + n * w ≤ d ∨ d + n * w ≤ s) : copyUp w d s n M = moved d s (n * w) M := by
  induction n with
  | zero =>
    funext a
    rw [moved, if_neg (by omega)]
    rfl
  | succ n ih =>
    have hmul : (n + 1) * w = n * w + w := Nat.succ_mul n w
    rw [copyUp, ih (by omega)]
    funext a
    simp only [word, moved, hmul]
    by_cases hlast : d + n * w ≤ a ∧ a < d + (n * w + w)
    · rw [if_pos hlast, if_neg (by omega), if_pos ⟨by omega, by omega⟩]
    · rw [if_neg hlast]
      by_cases hmem : d ≤ a ∧ a < d + n * w
      · rw [if_pos hmem, if_pos ⟨by omega, by omega⟩]
      · rw [if_neg hmem, if_neg (by omega)]

/-- **The last word first is right** unless the destination is below the source and reaches it. -/
theorem copyDown_eq (h : s ≤ d ∨ d + n * w ≤ s) : copyDown w d s n M = moved d s (n * w) M := by
  induction n generalizing M with
  | zero =>
    funext a
    rw [moved, if_neg (by omega)]
    rfl
  | succ n ih =>
    have hmul : (n + 1) * w = n * w + w := Nat.succ_mul n w
    rw [copyDown, ih (by omega)]
    funext a
    simp only [word, moved, hmul]
    by_cases hmem : d ≤ a ∧ a < d + n * w
    · rw [if_pos hmem, if_neg (by omega), if_pos ⟨by omega, by omega⟩]
    · rw [if_neg hmem]
      by_cases hlast : d + n * w ≤ a ∧ a < d + (n * w + w)
      · rw [if_pos hlast, if_pos ⟨by omega, by omega⟩]
      · rw [if_neg hlast, if_neg (by omega)]

theorem copyDown_one : copyDown w d s 1 M = moved d s w M := by
  funext a
  simp [copyDown, word, moved]

/-! ## What a copy writes in any case -/

/-- Only the destination is written. -/
theorem copyDown_of_not_mem (h : ¬ (d ≤ a ∧ a < d + n * w)) : copyDown w d s n M a = M a := by
  induction n generalizing M with
  | zero => rfl
  | succ n ih =>
    have hmul : (n + 1) * w = n * w + w := Nat.succ_mul n w
    rw [copyDown, ih (by omega), word, if_neg (by rw [hmul]; omega)]

/-- A source with one value throughout fills the destination with it, however the two lie. -/
theorem copyDown_const {c : α} (hs : ∀ j < n * w, M (s + j) = c) (h : d ≤ a ∧ a < d + n * w) :
    copyDown w d s n M a = c := by
  induction n generalizing M with
  | zero => omega
  | succ n ih =>
    have hmul : (n + 1) * w = n * w + w := Nat.succ_mul n w
    have hword : ∀ b, M b = c ∨ d + n * w ≤ b ∧ b < d + (n + 1) * w →
        word w d s M n b = c := fun b hb => by
      rw [word]
      split
      · rename_i hin
        exact hs _ (by omega)
      · rename_i hout
        exact hb.resolve_right hout
    rw [copyDown]
    by_cases hmem : d ≤ a ∧ a < d + n * w
    · exact ih (fun j hj => hword _ (.inl (hs j (by omega)))) hmem
    · rw [copyDown_of_not_mem hmem]
      exact hword a (.inr ⟨by omega, by omega⟩)

/-- The cells of the first word that no other word of the destination reaches are copied right. -/
theorem copyDown_apply (hi : i < w) (hreach : s + i < d + w) :
    copyDown w d s (n + 1) M (d + i) = M (s + i) := by
  induction n generalizing M with
  | zero => rw [copyDown_one, moved_apply hi]
  | succ n ih =>
    have hmul : (n + 1) * w = n * w + w := Nat.succ_mul n w
    rw [copyDown, ih, word, if_neg (by omega)]

/-! ## Copies that are wrong -/

/-- The contents in which one cell differs from all others. -/
def spot [Zero α] [One α] (x : ℕ) : ℕ → α := fun a => if a = x then 1 else 0

/-- **The last word first is wrong** for two words or more whose source a lower destination reaches:
a cell of the first word is overwritten before it is read. -/
theorem copyDown_wrong [Zero α] [One α] (hi : i < w) (hpos : d < s) (hlo : d + w ≤ s + i)
    (hhi : s + i < d + n * w) : copyDown w d s n (spot (s + i)) (d + i) = (0 : α) := by
  induction n with
  | zero => omega
  | succ n ih =>
    have hn : w ≤ n * w := Nat.le_mul_of_pos_left w (by
      rcases Nat.eq_zero_or_pos n with rfl | h
      · omega
      · exact h)
    rw [copyDown]
    by_cases hmem : d + n * w ≤ s + i
    · have hzero : word w d s (spot (s + i)) n = fun _ => (0 : α) := by
        funext a
        rw [word, spot, spot]
        split
        · rw [if_neg (by omega)]
        · rw [if_neg (by omega)]
      rw [hzero, copyDown_const (fun _ _ => rfl) ⟨by omega, by omega⟩]
    · have hsame : word w d s (spot (s + i)) n = spot (α := α) (s + i) := by
        funext a
        rw [word]
        split
        · rw [spot, spot, if_neg (by omega), if_neg (by omega)]
        · rfl
      rw [hsame]
      exact ih (by omega)

end Copy
