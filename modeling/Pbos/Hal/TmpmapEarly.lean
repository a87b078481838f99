import Pbos.Hal.TmpmapPost
import Pbos.Hal.VmMap

/-!
# Hal/TmpmapEarly — temporary windows before the heap is there

`hn_tmpmap_early` looks for consecutive absent pages in `mm_kernel_init_tmpmap_area` and aims their
PTEs at what is to be shown; `hn_tmpunmap_early` makes them absent again.  Both go through the pages
with four nested loops over the kernel's initial tables, which are arrays of the image.

`Walk` is what the loops have in common, and `Walk.Inv.reaches` carries an invariant through them,
page by page.  `hnTmpmapEarly_cases` and `hnTmpunmapEarly_eq` are the effects of the two functions.
-/

namespace Pbos.Hal

open Radix

def KERNEL_VBASE : ℕ := 0xffffffff80000000

/-- `KVADDR`. -/
def kvaddr (i4 i3 i2 i1 : ℕ) : ℕ := 0xffff000000000000 ||| uvaddr i4 i3 i2 i1 0

/-! ## Four nested loops -/

/-- Four loops over the kernel's tables: the address they start at, when the three inner ones break,
what is asserted of an entry of the upper tables, and what is done at a PTE. -/
structure Walk (σ : Type) where
  start : ℕ
  leave : ℕ → Bool
  pml4e : ℕ → σ → Except Fault Unit
  pdpte : ℕ → ℕ → σ → Except Fault Unit
  pde : ℕ → ℕ → ℕ → σ → Except Fault Unit
  pte : ℕ → ℕ → ℕ → ℕ → σ → Except Fault (Turn σ)

namespace Walk

variable {σ : Type} (w : Walk σ)

/-- The range the first indices are taken from. -/
def range : VRange := ⟨w.start, 0⟩

/-- What is left of a loop in the turn around it. -/
def turn : Exit σ → Turn σ
  | .done _ s => .next s
  | .ret s => .ret s

def pdeTurn (i4 i3 i2 : ℕ) (s : σ) : Except Fault (Turn σ) :=
  if w.leave (kvaddr i4 i3 i2 0) then .ok (.brk s)
  else do
    w.pde i4 i3 i2 s
    let first := w.range.firstPtx i4 i3 i2
    (forLoop (w.pte i4 i3 i2) (512 - first) first s).map turn

def pdpteTurn (i4 i3 : ℕ) (s : σ) : Except Fault (Turn σ) :=
  if w.leave (kvaddr i4 i3 0 0) then .ok (.brk s)
  else do
    w.pdpte i4 i3 s
    let first := w.range.firstPdx i4 i3
    (forLoop (w.pdeTurn i4 i3) (512 - first) first s).map turn

def pml4eTurn (i4 : ℕ) (s : σ) : Except Fault (Turn σ) := do
  w.pml4e i4 s
  let first := w.range.firstPdptx i4
  (forLoop (w.pdpteTurn i4) (512 - first) first s).map turn

/-- The loops, up to the PML4 entry of `last`. -/
def run (last : ℕ) (s : σ) : Except Fault (Exit σ) :=
  forLoop w.pml4eTurn (pml4x last + 1 - pml4x w.start) (pml4x w.start) s

end Walk

/-! ## The kernel's initial tables -/

/-- `mm_kernel_initial_pml4t` and the other initial tables, by the frames they start at, and
`mm_kernel_init_tmpmap_area`. -/
structure KernelImage where
  pml4t : Frame
  pdpt : Frame
  pdt : Frame
  ptt : Frame
  area : ℕ
  /-- The page tables of the upper 2 GB are apart from the tables above them. -/
  apart : ∀ j < 1024, ptt + BitVec.ofNat 40 j ≠ pml4t ∧ ptt + BitVec.ofNat 40 j ≠ pdpt ∧
    ∀ m < 2, ptt + BitVec.ofNat 40 j ≠ pdt + BitVec.ofNat 40 m
  area_dvd : area % 4096 = 0
  area_ge : KERNEL_VBASE ≤ area
  area_le : area + KINITTMPMAP_SIZE + 4096 ≤ 2 ^ 64

/-- The entry `k` of an array of tables that starts at the frame `f`. -/
def elem (mem : Mem) (f : Frame) (k : ℕ) : Entry :=
  mem (f + BitVec.ofNat 40 (k / 512)) (Fin.ofNat 512 k)

/-- Store the entry `k` of an array of tables. -/
def setElem (mem : Mem) (f : Frame) (k : ℕ) (e : Entry) : Mem :=
  write mem (f + BitVec.ofNat 40 (k / 512)) (Fin.ofNat 512 k) e

/-- The index of a PDPTE in `mm_kernel_initial_pdpt`. -/
def pdptIndex (i4 i3 : ℕ) : ℕ := ((i4 + (2 ^ 64 - pml4x KERNEL_VBASE)) * 512 + i3) % 2 ^ 64

/-- The index of a PDE in `mm_kernel_initial_pdt`. -/
def pdtIndex (i4 i3 i2 : ℕ) : ℕ :=
  ((i4 + (2 ^ 64 - pml4x KERNEL_VBASE)) * (512 * 512) +
    (i3 + (2 ^ 64 - pdptx KERNEL_VBASE)) * 512 + i2) % 2 ^ 64

/-- The index of a PTE in `mm_kernel_initial_ptt`. -/
def pttIndex (i4 i3 i2 i1 : ℕ) : ℕ :=
  ((i4 + (2 ^ 64 - pml4x KERNEL_VBASE)) * (512 * 512 * 512) +
    (i3 + (2 ^ 64 - pdptx KERNEL_VBASE)) * (512 * 512) +
    (i2 + (2 ^ 64 - pdx KERNEL_VBASE)) * 512 + i1) % 2 ^ 64

namespace KernelImage

variable (K : KernelImage)

/-- `&mm_kernel_init_tmpmap_area[KINITTMPMAP_SIZE]`. -/
def areaEnd : ℕ := K.area + KINITTMPMAP_SIZE

/-! ## `hn_tmpmap_early` -/

/-- The state of the search: `vaddr`, `0` for null, and `sz_found`. -/
structure EarlySearch where
  vaddr : ℕ
  szFound : ℕ

/-- The walk that looks for `size` bytes of absent pages. -/
def searchWalk (mem : Mem) (size : ℕ) : Walk EarlySearch where
  start := K.area
  leave va := K.areaEnd < va
  pml4e i4 _ := kdAssert ((elem mem K.pml4t i4).present = true) "hal/x86_64/mm/vmmgr/vm.cc" 993
  pdpte i4 i3 _ :=
    kdAssert ((elem mem K.pdpt (pdptIndex i4 i3)).present = true) "hal/x86_64/mm/vmmgr/vm.cc" 1006
  pde i4 i3 i2 _ :=
    kdAssert ((elem mem K.pdt (pdtIndex i4 i3 i2)).present = true) "hal/x86_64/mm/vmmgr/vm.cc" 1025
  pte i4 i3 i2 i1 f :=
    let ptt_vaddr := kvaddr i4 i3 i2 i1
    if size ≤ f.szFound then .ok (.ret f)
    else if K.areaEnd < ptt_vaddr then .ok (.brk f)
    else if (elem mem K.ptt (pttIndex i4 i3 i2 i1)).present then .ok (.next ⟨0, 0⟩)
    else .ok (.next ⟨if f.vaddr = 0 then ptt_vaddr else f.vaddr, f.szFound + 4096⟩)

/-- The walk that fills the window `[vaddr, vaddr + size)`.  The state is the memory and
`off_paddr`. -/
def fillWalk (vaddr size paddr : ℕ) (mask : BitVec 16) : Walk (Mem × ℕ) where
  start := vaddr
  leave va := vaddr + size ≤ va
  pml4e i4 s := kdAssert ((elem s.1 K.pml4t i4).present = true) "hal/x86_64/mm/vmmgr/vm.cc" 1070
  pdpte i4 i3 s :=
    kdAssert ((elem s.1 K.pdpt (pdptIndex i4 i3)).present = true) "hal/x86_64/mm/vmmgr/vm.cc" 1081
  pde i4 i3 i2 s :=
    kdAssert ((elem s.1 K.pdt (pdtIndex i4 i3 i2)).present = true) "hal/x86_64/mm/vmmgr/vm.cc" 1099
  pte i4 i3 i2 i1 s :=
    if vaddr + size ≤ kvaddr i4 i3 i2 i1 then .ok (.brk s)
    else do
      let pte := elem s.1 K.ptt (pttIndex i4 i3 i2 i1)
      kdAssert (pte.present = false) "hal/x86_64/mm/vmmgr/vm.cc" 1119
      .ok (.next (setElem s.1 K.ptt (pttIndex i4 i3 i2 i1) (pte.aim mask (paddr + s.2)),
        s.2 + 4096))

/-- What `hn_tmpmap_early` does at `alloc_succeeded`. -/
def fillWindow (vaddr size paddr : ℕ) (mask : BitVec 16) (mem : Mem) : Except Fault (ℕ × Mem) := do
  match ← (K.fillWalk vaddr size paddr mask).run (vaddr + size - 4096) (mem, 0) with
  | .done _ s => .ok (vaddr, s.1)
  | .ret s => .ok (vaddr, s.1)

/-- `hn_tmpmap_early`. -/
def hnTmpmapEarly (paddr size : ℕ) (mask : BitVec 16) (mem : Mem) : Except Fault (ℕ × Mem) :=
  if KINITTMPMAP_SIZE < size then
    .error (.panic "Size of space to map is bigger than the size of KINITTMPMAP area" [])
  else if paddr % 4096 ≠ 0 then .error (.panic "Address for hn_tmpmap must be page-aligned" [])
  else if size % 4096 ≠ 0 then .error (.panic "Size for hn_tmpmap must be page-aligned" [])
  else if mask &&& PTE_P = 0 then .error (.panic "PTE_P must be set for hn_tmpmap" [])
  else do
    match ← (K.searchWalk mem size).run (K.areaEnd + 1) ⟨0, 0⟩ with
    | .done _ _ => .error (.panic "Out of TMPMAP virtual memory" [])
    | .ret f => K.fillWindow f.vaddr size paddr mask mem

/-- The walk of `hn_tmpunmap_early`, which asserts nothing. -/
def clearWalk (vaddr size : ℕ) : Walk Mem where
  start := vaddr
  leave va := vaddr + size ≤ va
  pml4e _ _ := .ok ()
  pdpte _ _ _ := .ok ()
  pde _ _ _ _ := .ok ()
  pte i4 i3 i2 i1 mem :=
    if vaddr + size ≤ kvaddr i4 i3 i2 i1 then .ok (.brk mem)
    else
      let pte := elem mem K.ptt (pttIndex i4 i3 i2 i1)
      .ok (.next (setElem mem K.ptt (pttIndex i4 i3 i2 i1)
        { pte with mask := pte.mask &&& ~~~PTE_P.setWidth 12 }))

/-- `hn_tmpunmap_early`. -/
def hnTmpunmapEarly (vaddr size : ℕ) (mem : Mem) : Except Fault Mem :=
  if vaddr % 4096 ≠ 0 then .error (.panic "Address for hn_tmpunmap must be page-aligned" [])
  else do
    match ← (K.clearWalk vaddr size).run (vaddr + size - 4096) mem with
    | .done _ mem => .ok mem
    | .ret mem => .ok mem

end KernelImage

/-! ## Page by page -/

/-- The first page of the upper 2 GB. -/
def basePage : ℕ := spell 511 510 0 0

theorem basePage_eq : basePage = 511 * 2 ^ 27 + 510 * 2 ^ 18 := rfl

/-- The address of a page of the kernel half. -/
def kaddr (p : ℕ) : ℕ := 0xffff000000000000 + 4096 * p

/-- Addresses compare as pages do. -/
theorem kvaddr_eq_kaddr {i4 i3 i2 i1 : ℕ} (h4 : i4 < 512) (h3 : i3 < 512) (h2 : i2 < 512)
    (h1 : i1 < 512) : kvaddr i4 i3 i2 i1 = kaddr (spell i4 i3 i2 i1) := by
  have hlt : uvaddr i4 i3 i2 i1 0 < 2 ^ 48 := by
    rw [uvaddr_eq i4 h3 h2 h1]
    omega
  rw [kvaddr, show (0xffff000000000000 : ℕ) = 0xffff <<< 48 by decide,
    ← Nat.shiftLeft_add_eq_or_of_lt hlt, uvaddr_eq i4 h3 h2 h1, kaddr, spell]
  omega

theorem pdtIndex_eq {i3 i2 : ℕ} (h3 : 510 ≤ i3) (h3' : i3 < 512) (h2 : i2 < 512) :
    pdtIndex 511 i3 i2 = (i3 - 510) * 512 + i2 := by
  have h : pml4x KERNEL_VBASE = 511 ∧ pdptx KERNEL_VBASE = 510 := by decide
  rw [pdtIndex]
  omega

theorem pdptIndex_eq {i3 : ℕ} (h3 : i3 < 512) : pdptIndex 511 i3 = i3 := by
  have h : pml4x KERNEL_VBASE = 511 := by decide
  rw [pdptIndex]
  omega

namespace Walk

variable {σ : Type} {w : Walk σ} {J : ℕ → σ → Prop} {R : σ → Prop} {lo hi : ℕ}

/-- **What a walk over the pages from `lo` to `hi` has to keep**: `J q` before the page `q`, and `R`
on leaving the function. -/
structure Inv (w : Walk σ) (lo hi : ℕ) (J : ℕ → σ → Prop) (R : σ → Prop) : Prop where
  start : pageNo w.start = lo
  lo_lt : lo < hi
  leave {i4 i3 i2 i1} : i4 < 512 → i3 < 512 → i2 < 512 → i1 < 512 →
    (w.leave (kvaddr i4 i3 i2 i1) = true ↔ hi ≤ spell i4 i3 i2 i1)
  pml4e {q s} : lo ≤ q → q < hi → J q s → w.pml4e (q / 2 ^ 27) s = .ok ()
  pdpte {q s} : lo ≤ q → q < hi → J q s → w.pdpte (q / 2 ^ 27) (q / 2 ^ 18 % 512) s = .ok ()
  pde {q s} : lo ≤ q → q < hi → J q s →
    w.pde (q / 2 ^ 27) (q / 2 ^ 18 % 512) (q / 2 ^ 9 % 512) s = .ok ()
  pte {i4 i3 i2 i1 s} : i4 < 512 → i3 < 512 → i2 < 512 → i1 < 512 → lo ≤ spell i4 i3 i2 i1 →
    spell i4 i3 i2 i1 < hi → J (spell i4 i3 i2 i1) s → ∃ fl, w.pte i4 i3 i2 i1 s = .ok fl ∧
      match fl with
      | .next s' => J (spell i4 i3 i2 i1 + 1) s'
      | .brk _ => False
      | .ret s' => R s'
  out {i4 i3 i2 i1 s} : i4 < 512 → i3 < 512 → i2 < 512 → i1 < 512 → hi ≤ spell i4 i3 i2 i1 →
    J hi s → ∃ fl, w.pte i4 i3 i2 i1 s = .ok fl ∧
      match fl with
      | .next _ => False
      | .brk s' => s' = s
      | .ret s' => R s'

variable (h : w.Inv lo hi J R) {i4 i3 i2 : ℕ} {s : σ}

include h

/-- The loop over the PTEs of one page table. -/
theorem Inv.ptes (h4 : i4 < 512) (h3 : i3 < 512) (h2 : i2 < 512)
    (hlo : lo < spell i4 i3 i2 0 + 512) (h0 : J (clampTo lo hi (spell i4 i3 i2 0)) s) :
    ∃ r, forLoop (w.pte i4 i3 i2) (512 - w.range.firstPtx i4 i3 i2) (w.range.firstPtx i4 i3 i2) s =
      .ok r ∧ r.Holds (J (clampTo lo hi (spell i4 i3 i2 0 + 512))) R := by
  obtain rfl : w.range.first = lo := h.start
  obtain ⟨hle, he⟩ := firstPtx_spec h3 h2 hlo
  refine forLoop_span he hle (fun i1 s h1 hy hJ => ?_) h0
  by_cases hp : spell i4 i3 i2 i1 < hi
  · rw [clampTo_of_mem (by omega) hp.le] at hJ
    obtain ⟨fl, hfl, hcase⟩ := h.pte h4 h3 h2 h1 (by omega) hp hJ
    refine ⟨fl, hfl, ?_⟩
    cases fl with
    | next s' =>
      rw [clampTo_of_mem (by omega) hp]
      exact hcase
    | brk s' => exact hcase.elim
    | ret s' => exact hcase
  · rw [clampTo_of_le (not_lt.mp hp)] at hJ
    obtain ⟨fl, hfl, hcase⟩ := h.out h4 h3 h2 h1 (not_lt.mp hp) hJ
    refine ⟨fl, hfl, ?_⟩
    cases fl with
    | next s' => exact hcase.elim
    | brk s' => exact ⟨hcase, not_lt.mp hp⟩
    | ret s' => exact hcase

/-- **A turn of a loop around another**: it breaks behind the range, and goes through the table
below an entry in it. -/
theorem Inv.turn {b n : ℕ} {check : Except Fault Unit} {inner : Except Fault (Exit σ)} {va : Bool}
    (hn : 0 < n) (hva : va = true ↔ hi ≤ b) (hlo : lo < b + n)
    (hcheck : ∀ q, lo ≤ q → q < hi → b ≤ q → q < b + n → J q s → check = .ok ())
    (hinner : ∃ r, inner = .ok r ∧ r.Holds (J (clampTo lo hi (b + n))) R)
    (h0 : J (clampTo lo hi b) s) :
    ∃ fl, (if va then .ok (.brk s) else do check; inner.map Walk.turn : Except Fault (Turn σ)) =
        .ok fl ∧
      match fl with
      | .next s' => J (clampTo lo hi (b + n)) s'
      | .brk s' => s' = s ∧ hi ≤ b
      | .ret s' => R s' := by
  by_cases hb : hi ≤ b
  · rw [if_pos (hva.mpr hb)]
    exact ⟨_, rfl, rfl, hb⟩
  · have hlohi := h.lo_lt
    have hq : lo ≤ clampTo lo hi b ∧ clampTo lo hi b < hi ∧ b ≤ clampTo lo hi b ∧
        clampTo lo hi b < b + n := by
      rw [clampTo]
      omega
    obtain ⟨r, rfl, hr⟩ := hinner
    rw [if_neg fun hc => hb (hva.mp hc), hcheck _ hq.1 hq.2.1 hq.2.2.1 hq.2.2.2 h0]
    refine ⟨_, rfl, ?_⟩
    cases r with
    | done x s' => exact hr
    | ret s' => exact hr

/-- The loop over the PDEs of one page directory. -/
theorem Inv.pdes (h4 : i4 < 512) (h3 : i3 < 512) (hlo : lo < spell i4 i3 0 0 + 512 * 512)
    (h0 : J (clampTo lo hi (spell i4 i3 0 0)) s) :
    ∃ r, forLoop (w.pdeTurn i4 i3) (512 - w.range.firstPdx i4 i3) (w.range.firstPdx i4 i3) s =
      .ok r ∧ r.Holds (J (clampTo lo hi (spell i4 i3 0 0 + 512 * 512))) R := by
  obtain rfl : w.range.first = lo := h.start
  obtain ⟨hle, he⟩ := firstPdx_spec h3 hlo
  refine forLoop_span (e := (spell i4 i3 · 0)) he hle (fun i2 s h2 hy hJ => ?_) h0
  refine h.turn (by decide) (h.leave h4 h3 h2 (by decide)) hy (fun q hq hq' hb hb' hJq => ?_)
    (h.ptes h4 h3 h2 hy hJ) hJ
  have hdigits : q / 2 ^ 27 = i4 ∧ q / 2 ^ 18 % 512 = i3 ∧ q / 2 ^ 9 % 512 = i2 := by
    simp only [spell] at hb hb'
    omega
  have := h.pde hq hq' hJq
  rwa [hdigits.1, hdigits.2.1, hdigits.2.2] at this

/-- The loop over the PDPTEs of one page directory pointer table. -/
theorem Inv.pdptes (h4 : i4 < 512) (hlo : lo < spell i4 0 0 0 + 512 * (512 * 512))
    (h0 : J (clampTo lo hi (spell i4 0 0 0)) s) :
    ∃ r, forLoop (w.pdpteTurn i4) (512 - w.range.firstPdptx i4) (w.range.firstPdptx i4) s =
      .ok r ∧ r.Holds (J (clampTo lo hi (spell i4 0 0 0 + 512 * (512 * 512)))) R := by
  obtain rfl : w.range.first = lo := h.start
  obtain ⟨hle, he⟩ := firstPdptx_spec hlo
  refine forLoop_span (e := (spell i4 · 0 0)) he hle (fun i3 s h3 hy hJ => ?_) h0
  refine h.turn (by decide) (h.leave h4 h3 (by decide) (by decide)) hy
    (fun q hq hq' hb hb' hJq => ?_)
    (h.pdes h4 h3 hy hJ) hJ
  have hdigits : q / 2 ^ 27 = i4 ∧ q / 2 ^ 18 % 512 = i3 := by
    simp only [spell] at hb hb'
    omega
  have := h.pdpte hq hq' hJq
  rwa [hdigits.1, hdigits.2] at this

/-- **The invariant rule for the four loops.** -/
theorem Inv.reaches {last : ℕ} (hhi : hi ≤ 2 ^ 36) (hlast : pml4x last = (hi - 1) / 2 ^ 27)
    (h0 : J lo s) : ∃ r, w.run last s = .ok r ∧ r.Holds (J hi) R := by
  have hlohi := h.lo_lt
  have hfirst : pml4x w.start = lo / 2 ^ 27 := by rw [pml4x_eq, h.start]
  have he : Strides (spell · 0 0 0) (512 * (512 * 512)) lo (lo / 2 ^ 27) :=
    ⟨fun y => by simp only [spell]; omega, .inr (by simp only [spell]; omega),
      by simp only [spell]; omega⟩
  have h0' : J (clampTo lo hi 0) s := by rwa [clampTo_of_le_lo (Nat.zero_le _) hlohi.le]
  suffices hrule : ∃ r, forLoop w.pml4eTurn ((hi - 1) / 2 ^ 27 + 1 - lo / 2 ^ 27) (lo / 2 ^ 27) s =
      .ok r ∧ r.Holds (J (clampTo lo hi (0 + ((hi - 1) / 2 ^ 27 + 1) * (512 * (512 * 512))))) R by
    rw [clampTo_of_le (by omega)] at hrule
    rwa [run, hlast, hfirst]
  refine forLoop_span he (by omega) (fun i4 s h4 hy hJ => ?_) h0'
  have hin : ¬ hi ≤ spell i4 0 0 0 := by
    simp only [spell]
    omega
  have hturn : ∃ fl, (if false then .ok (.brk s) else do
      w.pml4e i4 s
      (forLoop (w.pdpteTurn i4) (512 - w.range.firstPdptx i4) (w.range.firstPdptx i4) s).map
        Walk.turn : Except Fault (Turn σ)) = .ok fl ∧ _ :=
    h.turn (by decide) (by simpa using hin) hy (fun q hq hq' hb hb' hJq => ?_)
      (h.pdptes (by omega) hy hJ) hJ
  · exact hturn
  · have hdigit : q / 2 ^ 27 = i4 := by
      simp only [spell] at hb hb'
      omega
    have := h.pml4e hq hq' hJq
    rwa [hdigit] at this

end Walk

/-! ## The PTEs of the upper 2 GB -/

variable {p : ℕ}

theorem pageNo_kaddr (hp : p < 2 ^ 36) : pageNo (kaddr p) = p := by
  rw [pageNo, kaddr]
  omega

theorem spell_digits (hp : basePage ≤ p) (hp' : p < 2 ^ 36) :
    p / 2 ^ 27 = 511 ∧ 510 ≤ p / 2 ^ 18 % 512 ∧
      spell 511 (p / 2 ^ 18 % 512) (p / 2 ^ 9 % 512) (p % 512) = p := by
  have hbase := basePage_eq
  simp only [spell]
  omega

namespace KernelImage

variable (K : KernelImage) (mem : Mem)

/-- The PTE of a page of the upper 2 GB. -/
def pte (p : ℕ) : Entry := elem mem K.ptt (p - basePage)

def setPte (p : ℕ) (e : Entry) : Mem := setElem mem K.ptt (p - basePage) e

/-- The frame is one of the page tables of the upper 2 GB. -/
def IsPtt (f : Frame) : Prop := ∃ j < 1024, f = K.ptt + BitVec.ofNat 40 j

/-- **The tables are hung up as `hn_mm_init_paging` does it.** -/
structure Linked : Prop where
  pml4e : (mem K.pml4t 511).present = true ∧ (mem K.pml4t 511).address = K.pdpt
  pdpte : ∀ i, 510 ≤ i → i < 512 → (mem K.pdpt (Fin.ofNat 512 i)).present = true ∧
    (mem K.pdpt (Fin.ofNat 512 i)).address = K.pdt + BitVec.ofNat 40 (i - 510)
  pde : ∀ j < 1024, (elem mem K.pdt j).present = true ∧
    (elem mem K.pdt j).address = K.ptt + BitVec.ofNat 40 j

variable {K mem} {q k n i4 i3 i2 i1 y : ℕ} {e : Entry} {g : ℕ → Entry → Entry} {f : EarlySearch}

@[simp] theorem pte_setPte_self : K.pte (K.setPte mem p e) p = e := write_self

theorem pte_setPte_of_ne (hp : basePage ≤ p) (hp' : p < 2 ^ 36) (hq : basePage ≤ q)
    (hq' : q < 2 ^ 36) (hne : p ≠ q) : K.pte (K.setPte mem q e) p = K.pte mem p := by
  refine write_of_ne fun ⟨hf, hi⟩ => hne ?_
  have hf := congrArg BitVec.toNat ((BitVec.add_right_inj _).mp hf)
  simp only [BitVec.toNat_ofNat] at hf
  rw [ofNat_eq_iff] at hi
  omega

/-- Only the page tables change. -/
theorem setPte_of_not_isPtt {f : Frame} (hp : p < 2 ^ 36) (hf : ¬ K.IsPtt f) :
    K.setPte mem p e f = mem f := by
  funext i
  refine write_of_ne fun ⟨hf', _⟩ => hf ⟨(p - basePage) / 512, ?_, hf'⟩
  have hbase := basePage_eq
  omega

theorem not_isPtt_pml4t : ¬ K.IsPtt K.pml4t := fun ⟨j, hj, h⟩ => (K.apart j hj).1 h.symm

theorem not_isPtt_pdpt : ¬ K.IsPtt K.pdpt := fun ⟨j, hj, h⟩ => (K.apart j hj).2.1 h.symm

theorem not_isPtt_pdt {m : ℕ} (hm : m < 2) : ¬ K.IsPtt (K.pdt + BitVec.ofNat 40 m) :=
  fun ⟨j, hj, h⟩ => (K.apart j hj).2.2 m hm h.symm

/-- The upper tables are where they were. -/
theorem Linked.congr {mem' : Mem} (h : K.Linked mem) (hmem : ∀ f, ¬ K.IsPtt f → mem' f = mem f) :
    K.Linked mem' where
  pml4e := by
    rw [hmem _ not_isPtt_pml4t]
    exact h.pml4e
  pdpte i hi hi' := by
    rw [hmem _ not_isPtt_pdpt]
    exact h.pdpte i hi hi'
  pde j hj := by
    rw [elem, hmem _ (not_isPtt_pdt (show j / 512 < 2 by omega))]
    exact h.pde j hj

/-- The page table of a page of the upper 2 GB. -/
theorem Linked.path_tables (h : K.Linked mem) (hp : basePage ≤ p) (hp' : p < 2 ^ 36) :
    path mem K.pml4t (tables p) = some (K.ptt + BitVec.ofNat 40 ((p - basePage) / 512)) := by
  obtain ⟨h4, h3, -⟩ := spell_digits hp hp'
  have hbase := basePage_eq
  have hpdpte := h.pdpte (p / 2 ^ 18 % 512) h3 (by omega)
  have hpde := h.pde ((p - basePage) / 512) (by omega)
  have hi3 : Fin.ofNat 512 (p / 2 ^ 18 % 512) = Fin.ofNat 512 (p / 2 ^ 18) :=
    ofNat_eq_iff.mpr (Nat.mod_mod _ _)
  rw [tables, h4, path, follow_cons, show Fin.ofNat 512 511 = 511 from rfl,
    Entry.child_eq_some h.pml4e.1, h.pml4e.2, Option.bind_some, follow_cons, ← hi3,
    Entry.child_eq_some hpdpte.1, hpdpte.2, Option.bind_some, follow_cons]
  have helem : mem (K.pdt + BitVec.ofNat 40 (p / 2 ^ 18 % 512 - 510)) (Fin.ofNat 512 (p / 2 ^ 9)) =
      elem mem K.pdt ((p - basePage) / 512) := by
    have hframe : p / 2 ^ 18 % 512 - 510 = (p - basePage) / 512 / 512 := by omega
    have hslot : Fin.ofNat 512 (p / 2 ^ 9) = Fin.ofNat 512 ((p - basePage) / 512) :=
      ofNat_eq_iff.mpr (by omega)
    rw [hframe, hslot, elem]
  rw [helem, Entry.child_eq_some hpde.1, hpde.2]
  rfl

/-- **A page of the upper 2 GB is mapped by its PTE.** -/
theorem Linked.mapping_eq (h : K.Linked mem) (hp : basePage ≤ p) (hp' : p < 2 ^ 36) :
    mapping mem K.pml4t p = (some (K.pte mem p)).filter Entry.present := by
  have hbase := basePage_eq
  have hslot : slot p = Fin.ofNat 512 (p - basePage) := ofNat_eq_iff.mpr (by omega)
  rw [mapping, leaf_eq_some (h.path_tables hp hp'), hslot, KernelImage.pte, elem]

/-! ### Editing a run of PTEs -/

variable (K mem) in
/-- The PTEs of `n` pages from `k` on, each changed by `g` and its distance. -/
def editPtes (k : ℕ) (g : ℕ → Entry → Entry) : ℕ → Mem
  | 0 => mem
  | n + 1 => K.setPte (editPtes k g n) (k + n) (g n (K.pte (editPtes k g n) (k + n)))

theorem pte_editPtes (hk : basePage ≤ k) (hkn : k + n ≤ 2 ^ 36) (hp : basePage ≤ p)
    (hp' : p < 2 ^ 36) : K.pte (K.editPtes mem k g n) p =
      if k ≤ p ∧ p < k + n then g (p - k) (K.pte mem p) else K.pte mem p := by
  induction n with
  | zero => rw [if_neg (by omega), editPtes]
  | succ n ih =>
    have ih := ih (by omega)
    rw [editPtes]
    by_cases hpk : p = k + n
    · subst hpk
      rw [pte_setPte_self, ih, if_neg (by omega), if_pos (by omega), Nat.add_sub_cancel_left]
    · rw [pte_setPte_of_ne hp hp' (by omega) (by omega) hpk, ih]
      exact if_congr (by omega) rfl rfl

theorem editPtes_of_not_isPtt {f : Frame} (hkn : k + n ≤ 2 ^ 36) (hf : ¬ K.IsPtt f) :
    K.editPtes mem k g n f = mem f := by
  induction n with
  | zero => rfl
  | succ n ih => rw [editPtes, setPte_of_not_isPtt (by omega) hf, ih (by omega)]

theorem Linked.editPtes (h : K.Linked mem) (hkn : k + n ≤ 2 ^ 36) :
    K.Linked (K.editPtes mem k g n) :=
  h.congr fun _ hf => editPtes_of_not_isPtt hkn hf

/-! ### The assertions on the upper tables -/

section Upper

variable (h : K.Linked mem) (hp : basePage ≤ p) (hp' : p < 2 ^ 36)

include h hp hp'

theorem Linked.pml4e_present : (elem mem K.pml4t (p / 2 ^ 27)).present = true := by
  rw [(spell_digits hp hp').1]
  change (mem (K.pml4t + 0#40) 511).present = true
  rw [BitVec.add_zero]
  exact h.pml4e.1

theorem Linked.pdpte_present :
    (elem mem K.pdpt (pdptIndex (p / 2 ^ 27) (p / 2 ^ 18 % 512))).present = true := by
  obtain ⟨h4, h3, -⟩ := spell_digits hp hp'
  have hlt : p / 2 ^ 18 % 512 < 512 := Nat.mod_lt _ (by decide)
  rw [h4, pdptIndex_eq hlt, elem, Nat.div_eq_of_lt hlt]
  rw [BitVec.add_zero]
  exact (h.pdpte _ h3 hlt).1

theorem Linked.pde_present : (elem mem K.pdt
    (pdtIndex (p / 2 ^ 27) (p / 2 ^ 18 % 512) (p / 2 ^ 9 % 512))).present = true := by
  obtain ⟨h4, h3, -⟩ := spell_digits hp hp'
  have hlt : p / 2 ^ 18 % 512 < 512 := Nat.mod_lt _ (by decide)
  have hlt' : p / 2 ^ 9 % 512 < 512 := Nat.mod_lt _ (by decide)
  rw [h4, pdtIndex_eq h3 hlt hlt']
  exact (h.pde _ (by omega)).1

end Upper

/-- The PTE the loops come to. -/
theorem elem_pttIndex (h4 : i4 < 512) (h3 : i3 < 512) (h2 : i2 < 512)
    (h1 : i1 < 512) (hp : basePage ≤ spell i4 i3 i2 i1) :
    pttIndex i4 i3 i2 i1 = spell i4 i3 i2 i1 - basePage := by
  have hbase := basePage_eq
  have hdigits : i4 = 511 ∧ 510 ≤ i3 := by
    simp only [spell] at hp
    omega
  have h : pml4x KERNEL_VBASE = 511 ∧ pdptx KERNEL_VBASE = 510 ∧ pdx KERNEL_VBASE = 0 := by decide
  rw [pttIndex, basePage, spell, spell]
  omega

/-! ### The three walks -/

/-- The first page of the area. -/
def firstPage (K : KernelImage) : ℕ := pageNo K.area

theorem area_eq (K : KernelImage) : K.area = kaddr K.firstPage ∧ basePage ≤ K.firstPage ∧
    K.firstPage + 257 ≤ 2 ^ 36 := by
  have h1 := K.area_dvd
  have h2 := K.area_ge
  have h3 := K.area_le
  have hbase := basePage_eq
  have hv : KERNEL_VBASE = 0xffffffff80000000 := rfl
  have hs : KINITTMPMAP_SIZE = 0x100000 := rfl
  rw [firstPage, kaddr, pageNo]
  omega

variable (K mem) in
/-- There are `n` consecutive absent pages from `k` on. -/
def FreeRun (k n : ℕ) : Prop := ∀ i, k ≤ i → i < k + n → (K.pte mem i).present = false

variable (K mem) in
/-- **The search for `n` pages, before the page `y`**: the pages from `k` on are absent, and no run
starts before. -/
def EarlyInv (n y : ℕ) (f : EarlySearch) : Prop :=
  ∃ k, K.firstPage ≤ k ∧ k ≤ y ∧ y - k ≤ n ∧
    f = (if k = y then ⟨0, 0⟩ else ⟨kaddr k, 4096 * (y - k)⟩) ∧ K.FreeRun mem k (y - k) ∧
    ∀ k', K.firstPage ≤ k' → k' < k → ¬ K.FreeRun mem k' n

variable (K mem) in
/-- What the search returns. -/
def Found (n : ℕ) (f : EarlySearch) : Prop :=
  ∃ k, K.firstPage ≤ k ∧ k + n ≤ K.firstPage + 256 ∧ f = ⟨kaddr k, 4096 * n⟩ ∧ K.FreeRun mem k n

/-- Enough has been found. -/
theorem EarlyInv.found (h : K.EarlyInv mem n y f) (hn : 0 < n) (hsz : 4096 * n ≤ f.szFound)
    : ∃ k, K.firstPage ≤ k ∧ k + n = y ∧ f = ⟨kaddr k, 4096 * n⟩ ∧ K.FreeRun mem k n := by
  obtain ⟨k, hk, hky, hle, rfl, hrun, -⟩ := h
  by_cases hkey : k = y
  · rw [if_pos hkey] at hsz
    change 4096 * n ≤ 0 at hsz
    omega
  · rw [if_neg hkey] at hsz ⊢
    change 4096 * n ≤ 4096 * (y - k) at hsz
    obtain rfl : y - k = n := by omega
    exact ⟨k, hk, by omega, rfl, hrun⟩

/-- A page that is present ends the run. -/
theorem EarlyInv.present (h : K.EarlyInv mem n y f) (hsz : ¬ 4096 * n ≤ f.szFound)
    (hy : (K.pte mem y).present = true) : K.EarlyInv mem n (y + 1) ⟨0, 0⟩ := by
  obtain ⟨k, hk, hky, hle, rfl, hrun, hno⟩ := h
  refine ⟨y + 1, by omega, le_rfl, by omega, by rw [if_pos rfl], fun i hi hi' => by omega, ?_⟩
  intro k' hk' hlt hfree
  obtain hlt' | hge := Nat.lt_or_ge k' k
  · exact hno k' hk' hlt' hfree
  · have hend : y < k' + n := by
      by_cases hkey : k = y
      · omega
      · rw [if_neg hkey] at hsz
        change ¬ 4096 * n ≤ 4096 * (y - k) at hsz
        omega
    rw [hfree y (by omega) hend] at hy
    cases hy

/-- A page that is absent goes on with it. -/
theorem EarlyInv.absent (hn : 0 < n) (h : K.EarlyInv mem n y f)
    (hsz : ¬ 4096 * n ≤ f.szFound) (hy : (K.pte mem y).present = false) :
    K.EarlyInv mem n (y + 1) ⟨if f.vaddr = 0 then kaddr y else f.vaddr, f.szFound + 4096⟩ := by
  obtain ⟨k, hk, hky, hle, rfl, hrun, hno⟩ := h
  have hfree : K.FreeRun mem k (y + 1 - k) := by
    intro i hi hi'
    obtain hlt | rfl := Nat.lt_or_eq_of_le (show i ≤ y by omega)
    · exact hrun i hi (by omega)
    · exact hy
  have hshort : y - k < n := by
    by_cases hkey : k = y
    · omega
    · rw [if_neg hkey] at hsz
      change ¬ 4096 * n ≤ 4096 * (y - k) at hsz
      omega
  refine ⟨k, hk, by omega, by omega, ?_, hfree, hno⟩
  rw [if_neg (show k ≠ y + 1 by omega)]
  by_cases hkey : k = y
  · subst hkey
    rw [if_pos rfl]
    change EarlySearch.mk (kaddr k) (0 + 4096) = _
    congr 1
    omega
  · rw [if_neg hkey]
    have hpos : kaddr k ≠ 0 := by
      rw [kaddr]
      omega
    change EarlySearch.mk (if kaddr k = 0 then kaddr y else kaddr k) (4096 * (y - k) + 4096) = _
    rw [if_neg hpos]
    congr 1
    omega

theorem areaEnd_eq (K : KernelImage) : K.areaEnd = kaddr (K.firstPage + 256) := by
  have h := (area_eq K).1
  have hs : KINITTMPMAP_SIZE = 0x100000 := rfl
  rw [areaEnd, h, kaddr, kaddr]
  omega

theorem kaddr_lt_iff : kaddr p < kaddr q ↔ p < q := by
  simp only [kaddr]
  omega

/-- **The search goes through the area and the page behind it.** -/
theorem searchWalk_inv (h : K.Linked mem) (hend : (K.pte mem (K.firstPage + 256)).present = true)
    (hn : 0 < n) :
    (K.searchWalk mem (4096 * n)).Inv K.firstPage (K.firstPage + 257) (K.EarlyInv mem n)
      (K.Found mem n) := by
  obtain ⟨-, hbase, htop⟩ := area_eq K
  have hno : ∀ k, K.FreeRun mem k n → k ≤ K.firstPage + 256 → k + n ≤ K.firstPage + 256 := by
    intro k hrun hk
    by_contra hc
    rw [hrun _ hk (by omega)] at hend
    cases hend
  constructor
  case start => rfl
  case lo_lt => omega
  case leave =>
    intro i4 i3 i2 i1 h4 h3 h2 h1
    change decide (K.areaEnd < kvaddr i4 i3 i2 i1) = true ↔ _
    rw [decide_eq_true_iff, areaEnd_eq, kvaddr_eq_kaddr h4 h3 h2 h1, kaddr_lt_iff]
    omega
  case pml4e =>
    intro q f hq hq' _
    exact kdAssert_of_pos (h.pml4e_present (by omega) (by omega)) _ _
  case pdpte =>
    intro q f hq hq' _
    exact kdAssert_of_pos (h.pdpte_present (by omega) (by omega)) _ _
  case pde =>
    intro q f hq hq' _
    exact kdAssert_of_pos (h.pde_present (by omega) (by omega)) _ _
  case pte =>
    intro i4 i3 i2 i1 f h4 h3 h2 h1 hlo hhi hinv
    have hpte : elem mem K.ptt (pttIndex i4 i3 i2 i1) = K.pte mem (spell i4 i3 i2 i1) := by
      rw [elem_pttIndex h4 h3 h2 h1 (hbase.trans hlo), KernelImage.pte]
    change ∃ fl, (if 4096 * n ≤ f.szFound then _ else _) = _ ∧ _
    by_cases hsz : 4096 * n ≤ f.szFound
    · rw [if_pos hsz]
      obtain ⟨k, hk, hkn, rfl, hrun⟩ := hinv.found hn hsz
      exact ⟨_, rfl, k, hk, hno k hrun (by omega), rfl, hrun⟩
    · rw [if_neg hsz, if_neg (show ¬ K.areaEnd < kvaddr i4 i3 i2 i1 by
        rw [areaEnd_eq, kvaddr_eq_kaddr h4 h3 h2 h1, kaddr_lt_iff]; omega), hpte]
      cases hy : (K.pte mem (spell i4 i3 i2 i1)).present with
      | true => exact ⟨_, rfl, hinv.present hsz hy⟩
      | false =>
        refine ⟨_, rfl, ?_⟩
        rw [kvaddr_eq_kaddr h4 h3 h2 h1]
        exact hinv.absent hn hsz hy
  case out =>
    intro i4 i3 i2 i1 f h4 h3 h2 h1 hhi hinv
    change ∃ fl, (if 4096 * n ≤ f.szFound then _ else _) = _ ∧ _
    by_cases hsz : 4096 * n ≤ f.szFound
    · obtain ⟨k, hk, hkn, rfl, hrun⟩ := hinv.found hn hsz
      have := hno k hrun (by omega)
      omega
    · rw [if_neg hsz, if_pos (show K.areaEnd < kvaddr i4 i3 i2 i1 by
        rw [areaEnd_eq, kvaddr_eq_kaddr h4 h3 h2 h1, kaddr_lt_iff]; omega)]
      exact ⟨_, rfl, rfl⟩

theorem kaddr_add_le_iff : kaddr k + 4096 * n ≤ kaddr q ↔ k + n ≤ q := by
  simp only [kaddr]
  omega

theorem pml4x_kaddr (hp' : p < 2 ^ 36) : pml4x (kaddr p) = p / 2 ^ 27 := by
  rw [pml4x_eq, pageNo_kaddr hp']

/-- The last page of a window. -/
theorem kaddr_last (hn : 0 < n) : kaddr k + 4096 * n - 4096 = kaddr (k + n - 1) := by
  simp only [kaddr]
  omega

/-- **A walk over the pages of a window**, which breaks behind it: page by page the state becomes
`g 1`, `g 2`, …. -/
theorem window_run {σ : Type} {w : Walk σ} {g : ℕ → σ} (hk : basePage ≤ k) (hkn : k + n ≤ 2 ^ 36)
    (hn : 0 < n) (hstart : w.start = kaddr k)
    (hleave : ∀ va, w.leave va = decide (kaddr k + 4096 * n ≤ va))
    (hupper : ∀ q, k ≤ q → q < k + n → w.pml4e (q / 2 ^ 27) (g (q - k)) = .ok () ∧
      w.pdpte (q / 2 ^ 27) (q / 2 ^ 18 % 512) (g (q - k)) = .ok () ∧
      w.pde (q / 2 ^ 27) (q / 2 ^ 18 % 512) (q / 2 ^ 9 % 512) (g (q - k)) = .ok ())
    (hpte : ∀ i4 i3 i2 i1 m, pttIndex i4 i3 i2 i1 = k + m - basePage → m < n →
      ¬ kaddr k + 4096 * n ≤ kvaddr i4 i3 i2 i1 →
      w.pte i4 i3 i2 i1 (g m) = .ok (.next (g (m + 1))))
    (hout : ∀ i4 i3 i2 i1 s, kaddr k + 4096 * n ≤ kvaddr i4 i3 i2 i1 →
      w.pte i4 i3 i2 i1 s = .ok (.brk s)) :
    ∃ x, w.run (kaddr k + 4096 * n - 4096) (g 0) = .ok (.done x (g n)) := by
  have hinv : w.Inv k (k + n) (fun q s => s = g (q - k)) fun _ => False := by
    constructor
    case start => rw [hstart, pageNo_kaddr (by omega)]
    case lo_lt => omega
    case leave =>
      intro i4 i3 i2 i1 h4 h3 h2 h1
      rw [hleave, decide_eq_true_iff, kvaddr_eq_kaddr h4 h3 h2 h1, kaddr_add_le_iff]
    case pml4e => exact fun hq hq' hs => hs ▸ (hupper _ hq hq').1
    case pdpte => exact fun hq hq' hs => hs ▸ (hupper _ hq hq').2.1
    case pde => exact fun hq hq' hs => hs ▸ (hupper _ hq hq').2.2
    case pte =>
      rintro i4 i3 i2 i1 _ h4 h3 h2 h1 hlo hhi rfl
      refine ⟨_, hpte i4 i3 i2 i1 _ ?_ (by omega) ?_, ?_⟩
      · rw [elem_pttIndex h4 h3 h2 h1 (hk.trans hlo), Nat.add_sub_cancel' hlo]
      · rw [kvaddr_eq_kaddr h4 h3 h2 h1, kaddr_add_le_iff]
        omega
      · exact congrArg g (Nat.sub_add_comm hlo).symm
    case out =>
      rintro i4 i3 i2 i1 s h4 h3 h2 h1 hhi -
      refine ⟨_, hout i4 i3 i2 i1 s ?_, rfl⟩
      rwa [kvaddr_eq_kaddr h4 h3 h2 h1, kaddr_add_le_iff]
  have hlast : pml4x (kaddr k + 4096 * n - 4096) = (k + n - 1) / 2 ^ 27 := by
    rw [kaddr_last hn, pml4x_kaddr (by omega)]
  obtain ⟨r, hr, hholds⟩ := hinv.reaches hkn hlast (congrArg g (Nat.sub_self k).symm)
  cases r with
  | ret s => exact hholds.elim
  | done x s =>
    obtain rfl : s = g (k + n - k) := hholds
    rw [Nat.add_sub_cancel_left] at hr
    exact ⟨x, hr⟩

/-- The entry, made absent. -/
def clear (e : Entry) : Entry := { e with mask := e.mask &&& ~~~PTE_P.setWidth 12 }

/-! ### The two functions -/

/-- The memory with the `n` pages from `k` on aimed at `paddr` and what follows it. -/
def aimed (K : KernelImage) (mem : Mem) (k n paddr : ℕ) (mask : BitVec 16) : Mem :=
  K.editPtes mem k (fun j e => e.aim mask (paddr + 4096 * j)) n

/-- The memory with the `n` pages from `k` on made absent. -/
def cleared (K : KernelImage) (mem : Mem) (k n : ℕ) : Mem := K.editPtes mem k (fun _ => clear) n

section Calls

variable {k n paddr : ℕ} {mask : BitVec 16}

/-- **The search finds a window, or there is no room.** -/
theorem searchWalk_run (h : K.Linked mem) (hend : (K.pte mem (K.firstPage + 256)).present = true)
    (hn : 0 < n) : ∃ r, (K.searchWalk mem (4096 * n)).run (K.areaEnd + 1) ⟨0, 0⟩ = .ok r ∧
      r.Holds (fun _ => ∀ k, K.firstPage ≤ k → k + n ≤ K.firstPage + 256 → ¬ K.FreeRun mem k n)
        (K.Found mem n) := by
  obtain ⟨-, hbase, htop⟩ := area_eq K
  have hlast : pml4x (K.areaEnd + 1) = (K.firstPage + 257 - 1) / 2 ^ 27 := by
    rw [pml4x_eq, areaEnd_eq, kaddr, pageNo]
    omega
  have hstart : K.EarlyInv mem n K.firstPage ⟨0, 0⟩ :=
    ⟨K.firstPage, le_rfl, le_rfl, by omega, (if_pos rfl).symm, fun i hi hi' => by omega,
      fun k hk hlt => by omega⟩
  obtain ⟨r, hr, hholds⟩ := (searchWalk_inv h hend hn).reaches htop hlast hstart
  refine ⟨r, hr, ?_⟩
  cases r with
  | ret f => exact hholds
  | done i f =>
    obtain ⟨k, hk, hky, -, -, hrun, hno⟩ := hholds
    intro k' hk' hk'n
    refine hno k' hk' ?_
    by_contra hc
    rw [hrun (K.firstPage + 256) (by omega) (by omega)] at hend
    cases hend

/-- The window is filled. -/
theorem fillWindow_eq (h : K.Linked mem) (hk : basePage ≤ k) (hkn : k + n ≤ 2 ^ 36) (hn : 0 < n)
    (hfree : K.FreeRun mem k n) : K.fillWindow (kaddr k) (4096 * n) paddr mask mem =
      .ok (kaddr k, K.aimed mem k n paddr mask) := by
  suffices hrun : ∃ x, (K.fillWalk (kaddr k) (4096 * n) paddr mask).run
      (kaddr k + 4096 * n - 4096) (mem, 0) = .ok (.done x (K.aimed mem k n paddr mask, 4096 * n)) by
    obtain ⟨x, hx⟩ := hrun
    exact bind_eq_ok_iff.mpr ⟨_, hx, rfl⟩
  refine window_run (g := fun m => (K.aimed mem k m paddr mask, 4096 * m)) hk hkn hn rfl
    (fun _ => rfl) (fun q hq hq' => ?_) (fun i4 i3 i2 i1 m hidx hm hin => ?_)
    fun i4 i3 i2 i1 s hout => if_pos hout
  · have hlink : K.Linked (K.aimed mem k (q - k) paddr mask) := h.editPtes (by omega)
    exact ⟨kdAssert_of_pos (hlink.pml4e_present (by omega) (by omega)) _ _,
      kdAssert_of_pos (hlink.pdpte_present (by omega) (by omega)) _ _,
      kdAssert_of_pos (hlink.pde_present (by omega) (by omega)) _ _⟩
  · have habs : (K.pte (K.aimed mem k m paddr mask) (k + m)).present = false := by
      rw [aimed, pte_editPtes hk (by omega) (by omega) (by omega), if_neg (by omega)]
      exact hfree _ (by omega) (by omega)
    simp only [fillWalk, if_neg hin, hidx]
    rw [show elem _ K.ptt (k + m - basePage) = K.pte _ (k + m) from rfl, kdAssert_of_pos habs]
    rfl

/-- **`hn_tmpmap_early` hands out absent pages of the area**, unless there are not enough in a
row. -/
theorem hnTmpmapEarly_cases (h : K.Linked mem)
    (hend : (K.pte mem (K.firstPage + 256)).present = true) (hn : 0 < n) (hp : paddr % 4096 = 0)
    (hmask : mask &&& PTE_P ≠ 0) :
    (∃ k, K.firstPage ≤ k ∧ k + n ≤ K.firstPage + 256 ∧ K.FreeRun mem k n ∧
      K.hnTmpmapEarly paddr (4096 * n) mask mem = .ok (kaddr k, K.aimed mem k n paddr mask)) ∨
    ((∀ k, K.firstPage ≤ k → k + n ≤ K.firstPage + 256 → ¬ K.FreeRun mem k n) ∧
      ∃ msg, K.hnTmpmapEarly paddr (4096 * n) mask mem = .error (.panic msg [])) := by
  obtain ⟨-, hbase, htop⟩ := area_eq K
  by_cases hsize : KINITTMPMAP_SIZE < 4096 * n
  · refine .inr ⟨fun k hk hkn => ?_, _, if_pos hsize⟩
    simp only [KINITTMPMAP_SIZE] at hsize
    omega
  have hpages : K.hnTmpmapEarly paddr (4096 * n) mask mem =
      (K.searchWalk mem (4096 * n)).run (K.areaEnd + 1) ⟨0, 0⟩ >>= fun
        | .done _ _ => .error (.panic "Out of TMPMAP virtual memory" [])
        | .ret f => K.fillWindow f.vaddr (4096 * n) paddr mask mem := by
    rw [hnTmpmapEarly, if_neg hsize, if_neg (not_not.mpr hp), if_neg (by omega), if_neg hmask]
  rw [hpages]
  obtain ⟨r, hr, hholds⟩ := searchWalk_run h hend hn
  cases r with
  | done i f => exact .inr ⟨hholds, _, by rw [hr]; rfl⟩
  | ret f =>
    obtain ⟨k, hk, hkn, hf, hrun⟩ := hholds
    have hv : f.vaddr = kaddr k := by rw [hf]
    refine .inl ⟨k, hk, hkn, hrun, bind_eq_ok_iff.mpr ⟨_, hr, ?_⟩⟩
    dsimp only
    rw [hv, fillWindow_eq h (by omega) (by omega) hn hrun]

/-- **`hn_tmpunmap_early` makes the pages of the window absent.** -/
theorem hnTmpunmapEarly_eq (hk : basePage ≤ k) (hkn : k + n ≤ 2 ^ 36) (hn : 0 < n) :
    K.hnTmpunmapEarly (kaddr k) (4096 * n) mem = .ok (K.cleared mem k n) := by
  obtain ⟨x, hx⟩ := window_run (w := K.clearWalk (kaddr k) (4096 * n))
    (g := K.cleared mem k) hk hkn hn rfl (fun _ => rfl)
    (fun _ _ _ => ⟨rfl, rfl, rfl⟩) (fun i4 i3 i2 i1 m hidx hm hin => by
      simp only [clearWalk, if_neg hin, hidx]
      rfl)
    fun i4 i3 i2 i1 s hout => if_pos hout
  rw [hnTmpunmapEarly, if_neg (by rw [kaddr]; omega)]
  exact bind_eq_ok_iff.mpr ⟨_, hx, rfl⟩

end Calls

end KernelImage

end Pbos.Hal
