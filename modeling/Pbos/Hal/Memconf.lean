import Mathlib

/-!
# Hal/Memconf — how an address splits into table indices

The four table levels cut bits 12 to 47 of an address into indices of nine bits each.  The shifts
and masks of the source are kept; `uvaddr_eq` and the lemmas beside it turn them into arithmetic on
page numbers, with `pageNo` the number of the page among the `2 ^ 36` an address space has.
-/

namespace Pbos.Hal

def PAGESIZE : ℕ := 4096

variable (va : ℕ)

/-- `PML4X`. -/
def pml4x : ℕ := (va >>> 39) &&& 0x1ff

/-- `PDPTX`. -/
def pdptx : ℕ := (va >>> 30) &&& 0x1ff

/-- `PDX`. -/
def pdx : ℕ := (va >>> 21) &&& 0x1ff

/-- `PTX`. -/
def ptx : ℕ := (va >>> 12) &&& 0x1ff

/-- `ADDR_PREFIX`. -/
def addrPrefix (addr : ℕ) : ℕ := addr &&& 0xffff000000000000

/-- `UVADDR`. -/
def uvaddr (pml4x pdptx pdx ptx offset : ℕ) : ℕ :=
  (pml4x <<< 39 ||| pdptx <<< 30 ||| pdx <<< 21) ||| ptx <<< 12 ||| offset

/-- `mm_is_user_space`. -/
def mmIsUserSpace (ptr : ℕ) : Bool := ptr < 0x0000800000000000

/-- `PGFLOOR`. -/
def pgFloor (addr : ℕ) : ℕ := addr &&& (2 ^ 64 - PAGESIZE)

/-- `PGCEIL`. -/
def pgCeil (addr : ℕ) : ℕ := (addr + (PAGESIZE - 1)) % 2 ^ 64 &&& (2 ^ 64 - PAGESIZE)

/-! ## Rounding to pages -/

theorem pgFloor_eq {addr : ℕ} (h : addr < 2 ^ 64) : pgFloor addr = addr / 4096 * 4096 := by
  have hmask : 2 ^ 64 - PAGESIZE = (2 ^ 52 - 1) * 2 ^ 12 := by decide
  refine Nat.eq_of_testBit_eq fun i => ?_
  rw [pgFloor, hmask, show (4096 : ℕ) = 2 ^ 12 from rfl, Nat.testBit_and, Nat.testBit_mul_two_pow,
    Nat.testBit_mul_two_pow, Nat.testBit_two_pow_sub_one, Nat.testBit_div_two_pow]
  by_cases h12 : 12 ≤ i
  · rw [Nat.sub_add_cancel h12]
    by_cases h64 : i < 64
    · simp [h12, show i - 12 < 52 by omega]
    · have hbit : addr.testBit i = false :=
        Nat.testBit_lt_two_pow (h.trans_le (Nat.pow_le_pow_right (by decide) (by omega)))
      simp [hbit]
  · simp [h12]

theorem pgFloor_of_dvd {addr : ℕ} (h : addr < 2 ^ 64) (hd : 4096 ∣ addr) : pgFloor addr = addr := by
  rw [pgFloor_eq h]
  exact Nat.div_mul_cancel hd

theorem pgCeil_eq (addr : ℕ) : pgCeil addr = (addr + 4095) % 2 ^ 64 / 4096 * 4096 :=
  pgFloor_eq (Nat.mod_lt _ (by decide))

/-! ## Page numbers -/

/-- The number of the page that holds an address. -/
def pageNo : ℕ := va / 4096 % 2 ^ 36

theorem pageNo_lt : pageNo va < 2 ^ 36 := Nat.mod_lt _ (by decide)

theorem shiftRight_and_9 (k : ℕ) : (va >>> k) &&& 0x1ff = va / 2 ^ k % 512 := by
  rw [Nat.shiftRight_eq_div_pow]
  exact Nat.and_two_pow_sub_one_eq_mod _ 9

theorem pml4x_eq : pml4x va = pageNo va / 2 ^ 27 := by
  rw [pml4x, shiftRight_and_9, pageNo]
  omega

theorem pdptx_eq : pdptx va = pageNo va / 2 ^ 18 % 512 := by
  rw [pdptx, shiftRight_and_9, pageNo]
  omega

theorem pdx_eq : pdx va = pageNo va / 2 ^ 9 % 512 := by
  rw [pdx, shiftRight_and_9, pageNo]
  omega

theorem ptx_eq : ptx va = pageNo va % 512 := by
  rw [ptx, shiftRight_and_9, pageNo]
  omega

/-- One more index below the ones before it. -/
theorem shiftLeft_or_shiftLeft (a k : ℕ) {b : ℕ} (hb : b < 512) :
    a <<< (k + 9) ||| b <<< k = (a * 512 + b) <<< k := by
  have hlt : b <<< k < 2 ^ (k + 9) := by
    rw [Nat.shiftLeft_eq, Nat.pow_add, Nat.mul_comm]
    exact Nat.mul_lt_mul_of_pos_left hb (Nat.two_pow_pos k)
  rw [← Nat.shiftLeft_add_eq_or_of_lt hlt, Nat.shiftLeft_eq, Nat.shiftLeft_eq, Nat.shiftLeft_eq,
    Nat.add_mul, Nat.pow_add, Nat.mul_comm (2 ^ k), Nat.mul_assoc]

/-- **The address of an entry is that of the page its indices spell.** -/
theorem uvaddr_eq (a : ℕ) {b c d : ℕ} (hb : b < 512) (hc : c < 512) (hd : d < 512) :
    uvaddr a b c d 0 = (((a * 512 + b) * 512 + c) * 512 + d) * 4096 := by
  unfold uvaddr
  rw [shiftLeft_or_shiftLeft a 30 hb, shiftLeft_or_shiftLeft _ 21 hc,
    shiftLeft_or_shiftLeft _ 12 hd, Nat.or_zero, Nat.shiftLeft_eq]

theorem addrPrefix_eq {va : ℕ} (h : va < 2 ^ 64) : addrPrefix va = (va / 2 ^ 48) <<< 48 := by
  rw [← Nat.shiftRight_eq_div_pow]
  refine Nat.eq_of_testBit_eq fun i => ?_
  have hmask : (0xffff000000000000 : ℕ) = (2 ^ 16 - 1) <<< 48 := by decide
  rw [addrPrefix, hmask, Nat.testBit_and, Nat.testBit_shiftLeft, Nat.testBit_shiftLeft,
    Nat.testBit_two_pow_sub_one, Nat.testBit_shiftRight]
  by_cases h48 : i ≥ 48
  · rw [show 48 + (i - 48) = i by omega]
    by_cases h64 : i < 64
    · simp [h48, show i - 48 < 16 by omega]
    · have hbit : va.testBit i = false :=
        Nat.testBit_lt_two_pow (h.trans_le (Nat.pow_le_pow_right (by decide) (by omega)))
      simp [hbit]
  · simp [h48]

/-- **Entry addresses compare as page numbers do.** -/
theorem addrPrefix_or_eq {va x : ℕ} (h : va < 2 ^ 64) (hx : x < 2 ^ 48) :
    addrPrefix va ||| x = va / 2 ^ 48 * 2 ^ 48 + x := by
  rw [addrPrefix_eq h, ← Nat.shiftLeft_add_eq_or_of_lt hx, Nat.shiftLeft_eq]

end Pbos.Hal
