import Mathlib

/-!
# Lib/Word — 64-bit words as natural numbers

A word is a number below `2 ^ 64`; sums and differences are taken modulo `2 ^ 64`.  `multiples`
lists what a loop visits that walks from one multiple of a step to another.
-/

namespace Word

/-- The sum of two words. -/
def add (a b : ℕ) : ℕ := (a + b) % 2 ^ 64

/-- The difference of two words. -/
def sub (a b : ℕ) : ℕ := (a + (2 ^ 64 - b)) % 2 ^ 64

variable {a b s : ℕ} {p q lo hi : ℕ}

theorem add_lt (a b : ℕ) : add a b < 2 ^ 64 := Nat.mod_lt _ (by norm_num)

theorem add_of_lt (h : a + b < 2 ^ 64) : add a b = a + b := Nat.mod_eq_of_lt h

theorem sub_of_le (hb : b ≤ a) (ha : a < 2 ^ 64) : sub a b = a - b := by
  unfold sub
  omega

/-! ## Alignment -/

/-- What is added to reach the next multiple of `s`. -/
theorem dvd_add_pad (hs : 0 < s) (a : ℕ) : s ∣ a + (s - a % s) % s := by
  have hdm := Nat.div_add_mod a s
  rcases Nat.eq_zero_or_pos (a % s) with h | h
  · rw [h, Nat.sub_zero, Nat.mod_self]
    exact Nat.dvd_of_mod_eq_zero h
  · have hlt := Nat.mod_lt a hs
    rw [Nat.mod_eq_of_lt (by omega)]
    exact ⟨a / s + 1, by rw [Nat.mul_add]; omega⟩

theorem pad_lt (hs : 0 < s) (a : ℕ) : (s - a % s) % s < s := Nat.mod_lt _ hs

/-- No multiple lies strictly between a number and the one reached by padding it. -/
theorem add_pad_le_of_dvd (hs : 0 < s) (hab : a ≤ b) (hb : s ∣ b) : a + (s - a % s) % s ≤ b := by
  obtain ⟨x, hx⟩ := dvd_add_pad hs a
  obtain ⟨y, rfl⟩ := hb
  rw [hx]
  have hlt := pad_lt hs a
  have : s * x < s * (y + 1) := by
    rw [Nat.mul_add]
    omega
  exact Nat.mul_le_mul_left s (Nat.lt_succ_iff.mp (lt_of_mul_lt_mul_left this (Nat.zero_le s)))

/-- The greatest multiple not above. -/
theorem dvd_sub_mod (a s : ℕ) : s ∣ a - a % s := Nat.dvd_sub_mod a

/-- Multiples of `s` that differ differ by `s`. -/
theorem add_le_of_dvd_of_lt (hp : s ∣ p) (hq : s ∣ q) (h : p < q) : p + s ≤ q := by
  obtain ⟨x, rfl⟩ := hp
  obtain ⟨y, rfl⟩ := hq
  exact Nat.mul_le_mul_left s (lt_of_mul_lt_mul_left h (Nat.zero_le s))

theorem le_of_dvd_of_lt_add (hp : s ∣ p) (hq : s ∣ q) (h : p < q + s) : p ≤ q := by
  by_contra hlt
  have := add_le_of_dvd_of_lt hq hp (not_le.mp hlt)
  omega

/-! ## Walking by a step -/

/-- The values of `for (i = lo; i < hi; i += s)`, for multiples `lo` and `hi` of `s`. -/
def multiples (lo hi s : ℕ) : List ℕ := (List.range ((hi - lo) / s)).map fun i => lo + i * s

theorem mem_multiples (hs : 0 < s) (hlo : s ∣ lo) (hhi : s ∣ hi) {x : ℕ} :
    x ∈ multiples lo hi s ↔ s ∣ x ∧ lo ≤ x ∧ x < hi := by
  obtain ⟨p, rfl⟩ := hlo
  obtain ⟨q, rfl⟩ := hhi
  have hdiv : (s * q - s * p) / s = q - p := by
    rw [← Nat.mul_sub, Nat.mul_div_cancel_left _ hs]
  simp only [multiples, List.mem_map, List.mem_range]
  constructor
  · rintro ⟨i, hi, rfl⟩
    refine ⟨⟨p + i, by ring⟩, Nat.le_add_right _ _, ?_⟩
    calc s * p + i * s = s * (p + i) := by ring
      _ < s * q := Nat.mul_lt_mul_of_pos_left (by omega) hs
  · rintro ⟨⟨r, rfl⟩, hle, hlt⟩
    have hpr : p ≤ r := le_of_mul_le_mul_left hle hs
    have hrq : r < q := lt_of_mul_lt_mul_left hlt (Nat.zero_le s)
    refine ⟨r - p, by omega, ?_⟩
    obtain ⟨d, rfl⟩ := Nat.exists_eq_add_of_le hpr
    rw [Nat.add_sub_cancel_left]
    ring

/-- One step is one value. -/
theorem multiples_step (hs : 0 < s) (lo : ℕ) : multiples lo (lo + s) s = [lo] := by
  simp [multiples, Nat.div_self hs]

theorem nodup_multiples (hs : 0 < s) : (multiples lo hi s).Nodup := by
  refine List.Nodup.map (fun i j h => ?_) List.nodup_range
  exact Nat.eq_of_mul_eq_mul_right hs (Nat.add_left_cancel h)

end Word
