import Pbos.Hal.Memconf

/-!
# Hal/Vpm — the pages of a paging level

`KI_PAGING_CONFIG_48BIT` gives each paging level the size of its pages and a function that rounds an
address down to one.  The one for the PML4 is that for the PDPT again
(`addrRounddowners_isGreatest_iff`).
-/

namespace Pbos.Hal

variable (addr : ℕ)

/-- An address with the indices of a page and an offset of zero. -/
def rounddowner (pdx ptx : ℕ) : ℕ := addrPrefix addr ||| uvaddr (pml4x addr) (pdptx addr) pdx ptx 0

/-- `hn_pt_rounddowner`. -/
def hnPtRounddowner : ℕ := rounddowner addr (pdx addr) (ptx addr)

/-- `hn_pd_rounddowner`. -/
def hnPdRounddowner : ℕ := rounddowner addr (pdx addr) 0

/-- `hn_pdpt_rounddowner`. -/
def hnPdptRounddowner : ℕ := rounddowner addr 0 0

/-- `hn_pml4_rounddowner`.  It keeps the index into the PDPT. -/
def hnPml4Rounddowner : ℕ := rounddowner addr 0 0

/-- `addr_rounddowners`. -/
def addrRounddowners : Fin 4 → ℕ → ℕ
  | 0 => hnPtRounddowner
  | 1 => hnPdRounddowner
  | 2 => hnPdptRounddowner
  | 3 => hnPml4Rounddowner

/-- `page_level_size`. -/
def pageLevelSize : Fin 4 → ℕ
  | 0 => uvaddr 0 0 0 1 0
  | 1 => uvaddr 0 0 1 0 0
  | 2 => uvaddr 0 1 0 0 0
  | 3 => uvaddr 1 0 0 0 0

variable {addr}

theorem isGreatest_multiple_iff {s x : ℕ} (hs : 0 < s) :
    IsGreatest {m | s ∣ m ∧ m ≤ addr} x ↔ x = addr / s * s := by
  have hgreatest : IsGreatest {m | s ∣ m ∧ m ≤ addr} (addr / s * s) := by
    refine ⟨⟨Nat.dvd_mul_left .., Nat.div_mul_le_self ..⟩, ?_⟩
    rintro _ ⟨⟨q, rfl⟩, hq⟩
    rw [Nat.mul_comm] at hq ⊢
    exact Nat.mul_le_mul_right s ((Nat.le_div_iff_mul_le hs).mpr hq)
  exact ⟨fun h => h.unique hgreatest, fun h => h ▸ hgreatest⟩

theorem rounddowner_eq (h : addr < 2 ^ 64) {c d : ℕ} (hc : c < 512) (hd : d < 512) :
    rounddowner addr c d = addr / 2 ^ 30 * 2 ^ 30 + (c * 512 + d) * 4096 := by
  have h4 : pml4x addr = addr / 2 ^ 39 % 512 := shiftRight_and_9 ..
  have h3 : pdptx addr = addr / 2 ^ 30 % 512 := shiftRight_and_9 ..
  rw [rounddowner, uvaddr_eq _ (by omega) hc hd, addrPrefix_or_eq h (by omega)]
  omega

/-- **Every level rounds down to its pages**, but the last one only where the index into the PDPT is
zero. -/
theorem addrRounddowners_isGreatest_iff (h : addr < 2 ^ 64) (i : Fin 4) :
    IsGreatest {m | pageLevelSize i ∣ m ∧ m ≤ addr} (addrRounddowners i addr) ↔
      i ≠ 3 ∨ pdptx addr = 0 := by
  have h3 : pdptx addr = addr / 2 ^ 30 % 512 := shiftRight_and_9 ..
  have h2 : pdx addr = addr / 2 ^ 21 % 512 := shiftRight_and_9 ..
  have h1 : ptx addr = addr / 2 ^ 12 % 512 := shiftRight_and_9 ..
  have hround {c d : ℕ} := rounddowner_eq h (c := c) (d := d)
  have hgreatest {s x : ℕ} := @isGreatest_multiple_iff addr s x
  match i with
  | 0 =>
    refine iff_of_true ((hgreatest (s := 2 ^ 12) (by decide)).mpr ?_) (.inl (by decide))
    exact (hround (by omega) (by omega)).trans (by omega)
  | 1 =>
    refine iff_of_true ((hgreatest (s := 2 ^ 21) (by decide)).mpr ?_) (.inl (by decide))
    exact (hround (by omega) (by decide)).trans (by omega)
  | 2 =>
    refine iff_of_true ((hgreatest (s := 2 ^ 30) (by decide)).mpr ?_) (.inl (by decide))
    exact (hround (by decide) (by decide)).trans (by omega)
  | 3 =>
    refine (hgreatest (s := 2 ^ 39) (by decide)).trans ?_
    rw [or_iff_right (not_not.mpr rfl), show addrRounddowners 3 addr = _ from
      hround (by decide) (by decide)]
    omega

/-- The last page of the lower half. -/
theorem addrRounddowners_lastPage :
    IsGreatest {m | pageLevelSize 0 ∣ m ∧ m ≤ 0x7fffffffffff} (addrRounddowners 0 0x7fffffffffff) :=
  (addrRounddowners_isGreatest_iff (by decide) 0).mpr (.inl (by decide))

/-- The second gigabyte is its own page of the PML4. -/
theorem addrRounddowners_gigabyte :
    ¬ IsGreatest {m | pageLevelSize 3 ∣ m ∧ m ≤ 2 ^ 30} (addrRounddowners 3 (2 ^ 30)) := by
  have hdvd : ¬ pageLevelSize 3 ∣ addrRounddowners 3 (2 ^ 30) := by decide
  exact fun h => hdvd h.1.1

end Pbos.Hal
