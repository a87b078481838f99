import Pbos.Lib.Word

/-!
# Kfxx/Utils — rounding to an alignment

`ceil_align_to` and `floor_align_to` on 64-bit words.  Rounding up wraps for the numbers above the
last multiple.
-/

namespace Pbos.Kfxx

/-- `ceil_align_to(data, alignment)`. -/
def ceilAlignTo (data alignment : ℕ) : ℕ :=
  Word.add data ((alignment - data % alignment) % alignment)

/-- `floor_align_to(data, alignment)`. -/
def floorAlignTo (data alignment : ℕ) : ℕ := data - data % alignment

variable {d s : ℕ}

/-- **Rounding up, when there is room**: the least multiple not below. -/
theorem ceilAlignTo_spec (hs : 0 < s) (h : d + s ≤ 2 ^ 64) :
    s ∣ ceilAlignTo d s ∧ d ≤ ceilAlignTo d s ∧ ceilAlignTo d s < d + s := by
  have hpad := Word.pad_lt hs d
  have heq : ceilAlignTo d s = d + (s - d % s) % s := Word.add_of_lt (by omega)
  rw [heq]
  exact ⟨Word.dvd_add_pad hs d, Nat.le_add_right _ _, by omega⟩

/-- What rounding up gives is a multiple, wrapped or not. -/
theorem dvd_ceilAlignTo (hs : 0 < s) (h64 : s ∣ 2 ^ 64) : s ∣ ceilAlignTo d s :=
  (Nat.dvd_mod_iff h64).mpr (Word.dvd_add_pad hs d)

/-- Rounding up only falls below its argument by wrapping to zero. -/
theorem le_ceilAlignTo (hs : 0 < s) (h64 : s ∣ 2 ^ 64) (hd : d < 2 ^ 64)
    (h0 : ceilAlignTo d s ≠ 0) :
    d ≤ ceilAlignTo d s := by
  by_cases hlt : d + (s - d % s) % s < 2 ^ 64
  · rw [show ceilAlignTo d s = d + (s - d % s) % s from Word.add_of_lt hlt]
    exact Nat.le_add_right _ _
  · have hle := Word.add_pad_le_of_dvd hs hd.le h64
    have heq : d + (s - d % s) % s = 2 ^ 64 := by omega
    refine absurd ?_ h0
    rw [ceilAlignTo, Word.add, heq, Nat.mod_self]

theorem ceilAlignTo_le_of_dvd {b : ℕ} (hs : 0 < s) (hdb : d ≤ b) (hb : s ∣ b) (hlt : b < 2 ^ 64) :
    d ≤ ceilAlignTo d s ∧ ceilAlignTo d s ≤ b := by
  have hle := Word.add_pad_le_of_dvd hs hdb hb
  have heq : ceilAlignTo d s = d + (s - d % s) % s := Word.add_of_lt (by omega)
  rw [heq]
  exact ⟨Nat.le_add_right _ _, hle⟩

/-- **Rounding down**: the greatest multiple not above. -/
theorem floorAlignTo_spec (hs : 0 < s) (d : ℕ) :
    s ∣ floorAlignTo d s ∧ floorAlignTo d s ≤ d ∧ d < floorAlignTo d s + s := by
  have hlt := Nat.mod_lt d hs
  refine ⟨Word.dvd_sub_mod d s, Nat.sub_le _ _, ?_⟩
  unfold floorAlignTo
  omega

/-- Rounding down finds the page an address is in. -/
theorem floorAlignTo_eq {p : ℕ} (hp : s ∣ p) (hle : p ≤ d) (hlt : d < p + s) :
    floorAlignTo d s = p := by
  obtain ⟨q, rfl⟩ := hp
  have hmod : d % s = d - s * q := by
    obtain ⟨r, rfl⟩ := Nat.exists_eq_add_of_le hle
    rw [Nat.mul_add_mod, Nat.mod_eq_of_lt (by omega), Nat.add_sub_cancel_left]
  unfold floorAlignTo
  omega

end Pbos.Kfxx
