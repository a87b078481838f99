import Pbos.Km.Panic
import Pbos.Lib.Copy

/-!
# Freestdc/String — memory functions

`memcpy` and `memmove` copy in words of four, two or one bytes, whatever divides the length.
`memmove` copies the last word first even when the destination lies below the source, so it is right
exactly if the two ranges do not overlap that way, or there is one word only (`memmove_apply_iff`).
The two versions of `memset` fill a range exactly for some lengths and bytes (`memset_filled_iff`).
`memcmp` orders ranges by their first bytes that differ (`memcmp_neg_iff`).
-/

namespace Pbos.Freestdc

open Copy

/-- The bytes of memory. -/
abbrev Mem := ℕ → UInt8

/-- The bytes copied at a time. -/
def wordBytes (n : ℕ) : ℕ := if n % 4 = 0 then 4 else if n % 2 = 0 then 2 else 1

/-- `memcpy(dest, src, n)`. -/
def memcpy (M : Mem) (dest src n : ℕ) : Mem :=
  copyUp (wordBytes n) dest src (n / wordBytes n) M

/-- `memmove(dest, src, n)`.  No object reaches over the end of the address space: there the result
is not defined. -/
def memmove (M : Mem) (dest src n : ℕ) : Except Fault Mem :=
  if 2 ^ 64 < src + n ∨ 2 ^ 64 < dest + n then .error .overflow
  else if src + n < dest then .ok (memcpy M dest src n)
  else .ok (copyDown (wordBytes n) dest src (n / wordBytes n) M)

variable {M M' : Mem} {dest src n m : ℕ}

theorem wordBytes_pos (n : ℕ) : 0 < wordBytes n := by
  unfold wordBytes
  split_ifs <;> omega

theorem words_mul (n : ℕ) : n / wordBytes n * wordBytes n = n := by
  unfold wordBytes
  split_ifs <;> omega

/-- Whether `memmove` is defined does not depend on the contents. -/
theorem memmove_isOk (h : memmove M dest src n = .ok M') (N : Mem) :
    ∃ N', memmove N dest src n = .ok N' := by
  unfold memmove at h ⊢
  split_ifs at h ⊢
  · exact ⟨_, rfl⟩
  · exact ⟨_, rfl⟩

/-- **What `memmove` does**: it moves the bytes, or copies the last word first to a destination that
reaches the source from below. -/
theorem memmove_cases (h : memmove M dest src n = .ok M') :
    M' = moved dest src n M ∨ dest < src ∧ src < dest + n ∧
      M' = copyDown (wordBytes n) dest src (n / wordBytes n) M := by
  have hn := words_mul n
  unfold memmove at h
  split_ifs at h with hwrap hup
  · left
    rw [← Except.ok.inj h, memcpy, copyUp_eq (.inl (by omega)), hn]
  · by_cases hover : dest < src ∧ src < dest + n
    · exact .inr ⟨hover.1, hover.2, (Except.ok.inj h).symm⟩
    · left
      rw [← Except.ok.inj h, copyDown_eq (by omega), hn]

theorem memmove_below (hlt : dest < src) (h : memmove M dest src n = .ok M') :
    M' = copyDown (wordBytes n) dest src (n / wordBytes n) M := by
  unfold memmove at h
  split_ifs at h with hwrap hup
  · omega
  · exact (Except.ok.inj h).symm

/-- Only the destination is written. -/
theorem memmove_of_not_mem (h : memmove M dest src n = .ok M') {a : ℕ}
    (ha : ¬ (dest ≤ a ∧ a < dest + n)) : M' a = M a := by
  obtain rfl | ⟨-, -, rfl⟩ := memmove_cases h
  · exact moved_of_not_mem ha
  · exact copyDown_of_not_mem (by rwa [words_mul])

/-- A source with one value throughout fills the destination with it. -/
theorem memmove_const (h : memmove M dest src n = .ok M') {a : ℕ} {c : UInt8}
    (hs : ∀ j < n, M (src + j) = c) (ha : dest ≤ a ∧ a < dest + n) : M' a = c := by
  obtain rfl | ⟨-, -, rfl⟩ := memmove_cases h
  · rw [moved, if_pos ha]
    exact hs _ (by omega)
  · exact copyDown_const (by rwa [words_mul]) (by rwa [words_mul])

/-- **`memmove` gets the first `m` bytes right** for these ranges: the destination does not reach
the source from below, or there is one word only, or the `m` bytes are read before they are
written. -/
def MovesRight (dest src n m : ℕ) : Prop :=
  ¬ (dest < src ∧ src < dest + n) ∨ n ≤ wordBytes n ∨ src + m ≤ dest + wordBytes n

instance (dest src n m : ℕ) : Decidable (MovesRight dest src n m) :=
  inferInstanceAs (Decidable (_ ∨ _ ∨ _))

/-- **When `memmove` is right**: for all contents, exactly if the ranges are such. -/
theorem memmove_apply_iff (h0 : 0 < m) (hm : m ≤ n) (h : memmove M dest src n = .ok M') :
    (∀ N N', memmove N dest src n = .ok N' → ∀ i < m, N' (dest + i) = N (src + i)) ↔
      MovesRight dest src n m := by
  have hw := wordBytes_pos n
  have hwords := words_mul n
  have hle : wordBytes n ≤ n := by
    refine Nat.le_of_dvd (by omega) ⟨n / wordBytes n, ?_⟩
    rw [Nat.mul_comm, hwords]
  constructor
  · intro hright
    by_contra hwrong
    simp only [MovesRight, not_or, not_not] at hwrong
    obtain ⟨⟨hlo, hhi⟩, hmore, hreach⟩ := hwrong
    obtain ⟨i, him, hiw, hfrom, hto⟩ : ∃ i < m, i < wordBytes n ∧ dest + wordBytes n ≤ src + i ∧
        src + i < dest + n := ⟨dest + wordBytes n - src, by omega, by omega, by omega, by omega⟩
    obtain ⟨N', hN'⟩ := memmove_isOk h (spot (src + i))
    have hbyte := hright _ N' hN' i him
    rw [memmove_below hlo hN', copyDown_wrong hiw hlo hfrom (by rwa [hwords])] at hbyte
    simp [spot] at hbyte
  · intro hright N N' hN i hi
    obtain rfl | ⟨hlo, hhi, rfl⟩ := memmove_cases hN
    · exact moved_apply (by omega)
    · obtain hover | hone | hreach := hright
      · exact absurd ⟨hlo, hhi⟩ hover
      · have hdiv : n / wordBytes n = 1 := le_antisymm (Nat.div_le_of_le_mul (by omega))
          (Nat.div_pos hle hw)
        rw [hdiv, copyDown_one]
        exact moved_apply (by omega)
      · obtain ⟨k, hk⟩ : ∃ k, n / wordBytes n = k + 1 :=
          ⟨n / wordBytes n - 1, by have := Nat.div_pos hle hw; omega⟩
        rw [hk]
        exact copyDown_apply (by omega) (by omega)

/-- **`memmove` as it should be**: exactly for such ranges. -/
theorem memmove_moves_iff (hs : src + n < 2 ^ 64) (hd : dest + n < 2 ^ 64) :
    (∀ M, ∃ M', memmove M dest src n = .ok M' ∧ (∀ i < n, M' (dest + i) = M (src + i)) ∧
      ∀ a, ¬ (dest ≤ a ∧ a < dest + n) → M' a = M a) ↔ MovesRight dest src n n := by
  constructor
  · intro h
    obtain rfl | hpos := Nat.eq_zero_or_pos n
    · exact .inl (by omega)
    · obtain ⟨M', hM', -⟩ := h fun _ => 0
      refine (memmove_apply_iff hpos le_rfl hM').mp fun N N' hN i hi => ?_
      obtain ⟨_, hN', hbytes, -⟩ := h N
      cases hN.symm.trans hN'
      exact hbytes i hi
  · intro h M
    obtain ⟨M', hM'⟩ : ∃ M', memmove M dest src n = .ok M' := by
      unfold memmove
      rw [if_neg (by omega)]
      split_ifs
      · exact ⟨_, rfl⟩
      · exact ⟨_, rfl⟩
    exact ⟨M', hM', fun i hi => (memmove_apply_iff (by omega) le_rfl hM').mpr h M M' hM' i hi,
      fun a ha => memmove_of_not_mem hM' ha⟩

/-- Up by one. -/
theorem memmove_moves_up : ∃ M', memmove .ofNat 1 0 3 = .ok M' ∧
    (∀ i < 3, M' (1 + i) = .ofNat (0 + i)) ∧ ∀ a, ¬ (1 ≤ a ∧ a < 1 + 3) → M' a = .ofNat a :=
  (memmove_moves_iff (by decide) (by decide)).mpr (by decide) .ofNat

/-- Down by one, the last byte is everywhere. -/
theorem memmove_smears : (memmove .ofNat 0 1 3).toOption.map (fun M => (M 0, M 1, M 2)) =
    some (3, 3, 3) := by decide

/-! ## Filling -/

/-- `for (i = 0; i < n; ++i) dest[i] = v`, for words of `w` bytes, the low byte first. -/
def fill (w dest v : ℕ) : ℕ → Mem → Mem
  | 0, M => M
  | n + 1, M => fun a =>
    if dest + n * w ≤ a ∧ a < dest + (n + 1) * w then .ofNat (v >>> (8 * (a - (dest + n * w))))
    else fill w dest v n M a

/-- `c &= 0xff`. -/
def lowByte (c : ℤ) : ℕ := (c % 256).toNat

/-- `memset(dest, c, n)`, the generic one.  Its first test is for the bits of `0x11`. -/
def memset (M : Mem) (dest : ℕ) (c : ℤ) (n : ℕ) : Mem :=
  let c := lowByte c
  if n &&& 0x11 = 0 then
    fill 4 dest (c <<< 24 ||| c <<< 16 ||| c <<< 8 ||| c) (n >>> 2) M
  else if n &&& 1 = 0 then fill 2 dest (c <<< 8 ||| c) (n >>> 1) M
  else fill 1 dest c n M

/-- `memset(dest, c, n)`, that of x86_64.  The words of four and two bytes are built, but it is `c`
that is stored. -/
def memsetX86 (M : Mem) (dest : ℕ) (c : ℤ) (n : ℕ) : Mem :=
  let c := lowByte c
  if n &&& 7 = 0 then
    fill 8 dest (c <<< 56 ||| c <<< 48 ||| c <<< 40 ||| c <<< 32 ||| c <<< 24 ||| c <<< 16 |||
      c <<< 8 ||| c) (n >>> 3) M
  else if n &&& 3 = 0 then fill 4 dest c (n >>> 2) M
  else if n &&& 1 = 0 then fill 2 dest c (n >>> 1) M
  else fill 1 dest c n M

/-- The memory with the low byte of `c` in the range, and nothing else changed. -/
def filled (M : Mem) (dest : ℕ) (c : ℤ) (n : ℕ) : Mem := fun a =>
  if dest ≤ a ∧ a < dest + n then .ofNat (lowByte c) else M a

variable {c : ℤ}

theorem lowByte_lt : lowByte c < 256 := by
  unfold lowByte
  omega

theorem byte_of_byte : ∀ j < 1, UInt8.ofNat (lowByte c >>> (8 * j)) = .ofNat (lowByte c) := by
  intro j hj
  obtain rfl : j = 0 := by omega
  rfl

/-- What every byte is after the loop. -/
theorem fill_apply {w v k a : ℕ} : fill w dest v k M a =
    if dest ≤ a ∧ a < dest + k * w then .ofNat (v >>> (8 * ((a - dest) % w))) else M a := by
  induction k with
  | zero => exact (if_neg (by omega)).symm
  | succ k ih =>
    have hmul : (k + 1) * w = k * w + w := Nat.succ_mul k w
    simp only [fill, ih]
    by_cases hlast : dest + k * w ≤ a ∧ a < dest + (k + 1) * w
    · rw [if_pos hlast, if_pos ⟨by omega, by omega⟩,
        show a - dest = a - (dest + k * w) + k * w by omega, Nat.add_mul_mod_self_right,
        Nat.mod_eq_of_lt (by omega)]
    · rw [if_neg hlast]
      exact if_congr (by omega) rfl rfl

/-- Words whose bytes are all the low byte of `c` fill the range, if they come out even. -/
theorem fill_eq {w v k : ℕ} (hv : ∀ j < w, UInt8.ofNat (v >>> (8 * j)) = .ofNat (lowByte c))
    (hw : 0 < w) (hn : k * w = n) : fill w dest v k M = filled M dest c n := by
  funext a
  rw [fill_apply, hv _ (Nat.mod_lt _ hw), hn, filled]

/-- Words that hold a byte only fill a range with zeros alone. -/
theorem fill_byte_iff {w k : ℕ} (hw : 1 < w) (hk : 0 < k) (hkn : k * w = n) :
    fill w dest (lowByte c) k M = filled M dest c n ↔ lowByte c = 0 := by
  refine ⟨fun h => ?_, fun hc => fill_eq (by simp [hc]) (by omega) hkn⟩
  by_contra hc
  have hle : 1 * w ≤ k * w := Nat.mul_le_mul_right w hk
  have hbyte := congrFun h (dest + 1)
  rw [fill_apply, filled, if_pos ⟨by omega, by omega⟩, if_pos ⟨by omega, by omega⟩,
    Nat.add_sub_cancel_left, Nat.mod_eq_of_lt hw, Nat.shiftRight_eq_div_pow,
    Nat.div_eq_of_lt lowByte_lt] at hbyte
  have hnat := congrArg UInt8.toNat hbyte
  rw [UInt8.toNat_ofNat_of_lt' (by decide), UInt8.toNat_ofNat_of_lt' lowByte_lt] at hnat
  exact hc hnat.symm

theorem bytes_of_repeat : ∀ b < 256,
    (∀ j < 2, UInt8.ofNat ((b <<< 8 ||| b) >>> (8 * j)) = .ofNat b) ∧
    (∀ j < 4, UInt8.ofNat ((b <<< 24 ||| b <<< 16 ||| b <<< 8 ||| b) >>> (8 * j)) = .ofNat b) ∧
    ∀ j < 8, UInt8.ofNat ((b <<< 56 ||| b <<< 48 ||| b <<< 40 ||| b <<< 32 ||| b <<< 24 |||
      b <<< 16 ||| b <<< 8 ||| b) >>> (8 * j)) = .ofNat b := by decide +kernel

/-- **`memset` of x86_64 fills the range** exactly if words of four or two bytes are not needed, or
are zero. -/
theorem memsetX86_eq_filled_iff :
    memsetX86 M dest c n = filled M dest c n ↔ n % 8 = 0 ∨ n % 2 = 1 ∨ lowByte c = 0 := by
  obtain ⟨-, -, h8⟩ := bytes_of_repeat _ (lowByte_lt (c := c))
  have hx8 : n &&& 7 = n % 8 := Nat.and_two_pow_sub_one_eq_mod n 3
  have hx4 : n &&& 3 = n % 4 := Nat.and_two_pow_sub_one_eq_mod n 2
  have hx2 : n &&& 1 = n % 2 := Nat.and_two_pow_sub_one_eq_mod n 1
  simp only [memsetX86, Nat.shiftRight_eq_div_pow n, hx8, hx4, hx2]
  split_ifs with h8n h4n h2n
  · exact iff_of_true (fill_eq h8 (by decide) (by omega)) (.inl h8n)
  · exact (fill_byte_iff (by decide) (by omega) (by omega)).trans (by omega)
  · exact (fill_byte_iff (by decide) (by omega) (by omega)).trans (by omega)
  · exact iff_of_true (fill_eq byte_of_byte (by decide) (Nat.mul_one n)) (.inr (.inl (by omega)))

/-- **The generic `memset` fills the range**, whatever was there, exactly if its first test is that
of a multiple of four. -/
theorem memset_eq_filled_iff :
    (∀ M, memset M dest c n = filled M dest c n) ↔ (n &&& 0x11 = 0 → n % 4 = 0) := by
  obtain ⟨h2, h4, -⟩ := bytes_of_repeat _ (lowByte_lt (c := c))
  have hx2 : n &&& 1 = n % 2 := Nat.and_two_pow_sub_one_eq_mod n 1
  simp only [memset, Nat.shiftRight_eq_div_pow n, hx2]
  split_ifs with h11 h2n
  · refine ⟨fun h _ => ?_, fun h M => fill_eq h4 (by decide) (by have := h h11; omega)⟩
    by_contra h4n
    have hbyte := congrFun (h fun _ => .ofNat (lowByte c) + 1) (dest + (n - 1))
    rw [fill_apply, filled, if_neg (by omega), if_pos ⟨by omega, by omega⟩] at hbyte
    simp at hbyte
  · exact iff_of_true (fun M => fill_eq h2 (by decide) (by omega)) (fun h => absurd h h11)
  · exact iff_of_true (fun M => fill_eq byte_of_byte (by decide) (Nat.mul_one n))
      (fun h => absurd h h11)

/-- **Both fill the range**, and so agree, exactly for such lengths and bytes. -/
theorem memset_filled_iff (dest : ℕ) (c : ℤ) (n : ℕ) :
    (∀ M, memsetX86 M dest c n = filled M dest c n ∧ memset M dest c n = filled M dest c n) ↔
      (n % 8 = 0 ∨ n % 2 = 1 ∨ lowByte c = 0) ∧ (n &&& 0x11 = 0 → n % 4 = 0) := by
  simp only [forall_and, memsetX86_eq_filled_iff, memset_eq_filled_iff, forall_const]

/-- Four bytes on x86_64, and two bytes with the generic one. -/
theorem memset_leaves_zeros :
    (List.range 4).map (memsetX86 (fun _ => 0) 0 1 4) = [1, 0, 0, 0] ∧
    (List.range 2).map (memset (fun _ => 0) 0 1 2) = [0, 0] := by decide

/-! ## Comparing -/

/-- A byte as a `char`. -/
def char (b : UInt8) : ℤ := b.toInt8.toInt

/-- `memcmp` of two ranges of one length. -/
def memcmp : List UInt8 → List UInt8 → ℤ
  | b1 :: s1, b2 :: s2 => if char b1 ≠ char b2 then char b1 - char b2 else memcmp s1 s2
  | _, _ => 0

theorem char_injective : Function.Injective char := fun _ _ h =>
  UInt8.eq_of_toBitVec_eq (BitVec.eq_of_toInt_eq h)

variable {s t : List UInt8}

theorem memcmp_comm : memcmp s t = -memcmp t s := by
  induction s generalizing t with
  | nil => cases t <;> rfl
  | cons b s ih =>
    cases t with
    | nil => rfl
    | cons b' t =>
      rw [memcmp, memcmp, ih]
      split_ifs <;> omega

theorem memcmp_eq_zero_iff (h : s.length = t.length) : memcmp s t = 0 ↔ s = t := by
  induction s generalizing t with
  | nil => simp [memcmp, List.length_eq_zero_iff.mp h.symm]
  | cons b s ih =>
    obtain ⟨b', t, rfl⟩ := List.exists_cons_of_length_eq_add_one h.symm
    rw [memcmp]
    split_ifs with hne
    · have : b ≠ b' := fun h => hne (h ▸ rfl)
      simp [this]; omega
    · simp [ih (by simpa using h), char_injective (not_not.mp hne)]

/-- **`memcmp` orders by the first `char`s that differ.** -/
theorem memcmp_neg_iff (h : s.length = t.length) : memcmp s t < 0 ↔ s.map char < t.map char := by
  induction s generalizing t with
  | nil => simp [memcmp, List.length_eq_zero_iff.mp h.symm]
  | cons b s ih =>
    obtain ⟨b', t, rfl⟩ := List.exists_cons_of_length_eq_add_one h.symm
    rw [memcmp, List.map_cons, List.map_cons, List.cons_lt_cons_iff]
    split_ifs with hne
    · simp [hne]
    · simp [not_not.mp hne, ih (by simpa using h)]

end Pbos.Freestdc
