import Pbos.Mm.Mmap

/-!
# Mm/MmapRange — the range that `mm_mmap` and `mm_unmmap` pass on

Both round the address down and the size up, each on its own, and check the rounded range for
overflow and the last byte counted from the rounded address for the half it is in.  What they pass
on (`aligned`) never wraps and is never user accessible in the kernel half.  It reaches the end of
the range only if the size has room for the offset of the address in its page, and it is empty if
the size is so large that rounding it up wraps to zero: `mmMmap_handed_iff`.
-/

namespace Pbos.Mm

open Pbos.Hal

/-- What the page table walk should be given for a range: whole, in one half, and with every page
that has a byte of the range. -/
structure Handed (asked given : VRange) : Prop where
  size_pos : 0 < given.size
  no_wrap : given.vaddr + given.size ≤ 2 ^ 64
  one_half : given.vaddr + given.size ≤ 2 ^ 47 ∨ 2 ^ 47 ≤ given.vaddr
  covers : ∀ x, asked.vaddr ≤ x → x < asked.vaddr + asked.size →
    given.vaddr ≤ x / 4096 * 4096 ∧ x / 4096 * 4096 + 4096 ≤ given.vaddr + given.size

/-- The rounded size has room for the range behind the rounded address. -/
def MapRoom (r : VRange) : Prop := r.vaddr % 4096 + r.size ≤ pgCeil r.size

instance (r : VRange) : Decidable (MapRoom r) := inferInstanceAs (Decidable (_ ≤ _))

section Checks

variable {r : VRange} (hv : r.vaddr < 2 ^ 64) (hs : r.size < 2 ^ 64)

include hv in
theorem aligned_vaddr : (aligned r).vaddr = r.vaddr / 4096 * 4096 := pgFloor_eq hv

theorem aligned_size : (aligned r).size = (r.size + 4095) % 2 ^ 64 / 4096 * 4096 := pgCeil_eq _

/-- The overflow check leaves the last page of the address space out. -/
theorem aligned_no_wrap (ho : ¬ Overflows r) : (aligned r).vaddr + (aligned r).size < 2 ^ 64 := by
  have hfloor : pgFloor r.vaddr < 2 ^ 64 := Nat.and_lt_two_pow _ (by decide)
  simp only [Overflows] at ho
  simp only [aligned]
  omega

include hv hs

/-- **The last byte decides the half of the whole range**: the boundary is that of a page. -/
theorem aligned_one_half (ho : ¬ Overflows r) (hc : ¬ Crosses r) (hle : r.size ≤ (aligned r).size) :
    (aligned r).vaddr + (aligned r).size ≤ 2 ^ 47 ∨ 2 ^ 47 ≤ (aligned r).vaddr := by
  have hwrap := aligned_no_wrap ho
  have hvaddr := aligned_vaddr hv
  have hsize := aligned_size (r := r)
  have hlimit : vaddrLimit r = (aligned r).vaddr + (r.size - 1) :=
    Nat.mod_eq_of_lt (by simp only [aligned] at hwrap hle ⊢; omega)
  simp only [Crosses, isUserSpace, mmIsUserSpace, not_not, decide_eq_decide] at hc
  change (aligned r).vaddr < _ ↔ _ at hc
  omega

/-- **When the rounded range is what it should be.** -/
theorem handed_iff (hpos : r.size ≠ 0) (ho : ¬ Overflows r) (hc : ¬ Crosses r) :
    Handed r (aligned r) ↔ MapRoom r := by
  have hvaddr := aligned_vaddr hv
  have hsize : (aligned r).size = pgCeil r.size := rfl
  rw [MapRoom, ← hsize]
  constructor
  · intro h
    have := (h.covers (r.vaddr + (r.size - 1)) (by omega) (by omega)).2
    omega
  · intro h
    refine ⟨by omega, (aligned_no_wrap ho).le, aligned_one_half hv hs ho hc (by omega),
      fun x hlo hhi => ?_⟩
    rw [aligned_size] at h ⊢
    omega

end Checks

/-- **When `mm_mmap` and `mm_unmmap` pass on the right range.**  A range that passes the checks is
passed on without wrapping, and in the kernel half without user access; it is the right one exactly
if the rounded size has room for it.  The same goes for `mm_unmmap` in the kernel half. -/
theorem mmMmap_handed_iff (c : MmapArgs) (hv : c.vaddr < 2 ^ 64) (hs : c.size < 2 ^ 64) :
    (¬ Refused c → (alignedArgs c).vaddr + (alignedArgs c).size < 2 ^ 64 ∧
      (2 ^ 47 ≤ (alignedArgs c).vaddr → hasFlag (alignedArgs c).access MM_PAGE_USER = false) ∧
      (Handed c.toVRange (alignedArgs c).toVRange ↔ MapRoom c.toVRange)) ∧
    ∀ flags, UnmapReaches c.toVRange flags → isUserSpace c.toVRange = false →
      (aligned c.toVRange).vaddr + (aligned c.toVRange).size < 2 ^ 64 ∧
      (Handed c.toVRange (aligned c.toVRange) ↔ MapRoom c.toVRange) := by
  refine ⟨fun h => ?_, fun flags h _ => ?_⟩
  · simp only [Refused, not_or] at h
    obtain ⟨hpos, ho, hc, huser⟩ := h
    refine ⟨aligned_no_wrap ho, fun hhalf => ?_, handed_iff hv hs hpos ho hc⟩
    have hkernel : isUserSpace c.toVRange = false :=
      decide_eq_false (not_lt.mpr (show 2 ^ 47 ≤ pgFloor c.vaddr from hhalf))
    exact Bool.eq_false_iff.mpr fun hu => huser ⟨hkernel, hu⟩
  · have h := h.1
    simp only [not_or] at h
    exact ⟨aligned_no_wrap h.2.1, handed_iff hv hs h.1 h.2.1 h.2.2⟩

theorem mmMmap_handed_iff_twoPages : Handed twoPages.toVRange (alignedArgs twoPages).toVRange ∧
      Handed ⟨0xffff800000000000, 0x1000⟩ (aligned ⟨0xffff800000000000, 0x1000⟩) :=
  ⟨((mmMmap_handed_iff twoPages (by decide) (by decide)).1 (by decide)).2.2.mpr (by decide),
    ((mmMmap_handed_iff { twoPages with vaddr := 0xffff800000000000, size := 0x1000 } (by decide)
      (by decide)).2 0 ⟨by decide, by decide⟩ (by decide)).2.mpr (by decide)⟩

/-- Two bytes across a page boundary: the second page is left out.  And a size that rounds up to
zero: nothing is left of the range. -/
theorem mmMmap_not_handed : (¬ Refused { twoPages with vaddr := 0x1fff, size := 2 } ∧
      aligned ⟨0x1fff, 2⟩ = ⟨0x1000, 0x1000⟩ ∧ ¬ Handed ⟨0x1fff, 2⟩ ⟨0x1000, 0x1000⟩) ∧
    (¬ Refused { twoPages with vaddr := 0x5000, size := 2 ^ 64 - 1 } ∧
      aligned ⟨0x5000, 2 ^ 64 - 1⟩ = ⟨0x5000, 0⟩) ∧
    (UnmapReaches ⟨0xffff800000000fff, 2⟩ 0 ∧
      aligned ⟨0xffff800000000fff, 2⟩ = ⟨0xffff800000000000, 0x1000⟩ ∧
      ¬ Handed ⟨0xffff800000000fff, 2⟩ ⟨0xffff800000000000, 0x1000⟩) := by
  refine ⟨⟨by decide, by decide, fun h => ?_⟩, ⟨by decide, by decide⟩,
    ⟨by decide, by decide⟩, by decide, fun h => ?_⟩
  · exact absurd (h.covers 0x2000 (by decide) (by decide)).2 (by decide)
  · exact absurd (h.covers 0xffff800000001000 (by decide) (by decide)).2 (by decide)

end Pbos.Mm
