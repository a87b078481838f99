import Pbos.Hal.VmUnmap
import Pbos.Lib.OrdMap

/-!
# Mm/Mmap — virtual memory regions and the calls that keep them

A context records what is mapped in its user half as regions (`mm_vmr_t`), kept in a tree under the
address they start at.  `mm_mmap` and `mm_unmmap` do the bookkeeping around the page table walks;
`mm_merge_mapped_area`, `mm_split_mapped_area` and `mm_set_page_access` touch the regions only,
since `kh_set_page_access` does nothing yet.

A region is an object of the context's `kima_vmr_pool`.  Whether `kima_alloc` has a block is an
input, `new`: what it returns, at any call.

`mm_mmap` arms a guard before it looks for overlaps.  The guard removes whatever region starts at
the page of `vaddr`, the caller's or not, and never gives the object back: `mmMmap_failed_iff`.
`mm_unmmap` refuses every size that is not zero once it has found the region, having refused zero
before: `mmUnmmap_mmMmap`.
-/

namespace Pbos.Mm

open Pbos.Hal

/-! ## Contexts -/

/-- `mm_vmr_t`, with the address of the object itself. -/
structure Vmr where
  node : ℕ
  size : ℕ
  access : UInt32
  deriving DecidableEq, Repr

/-- `mm_context_t`.  `vmrPool` lists the blocks of `kima_vmr_pool` that are in use. -/
structure MmContext where
  pageTable : Frame
  vmrTree : OrdMap ℕ Vmr
  vmrPool : List ℕ

variable {ctxt : MmContext} {range : VRange} {flags : UInt32}

namespace MmContext

variable (ctxt : MmContext)

/-- `kima_alloc` has returned `vmr.node`; construct a region there and insert it at `key`. -/
def insertVmr (key : ℕ) (vmr : Vmr) : Except Fault MmContext :=
  if ctxt.vmrTree.find key = none then
    .ok { ctxt with
      vmrTree := ctxt.vmrTree.insert key vmr
      vmrPool := vmr.node :: ctxt.vmrPool }
  else .error (.panic "Calling insert_unwrap with insertion failed" [])

/-- What `remove_vmr_guard` does. -/
def removeVmr (key : ℕ) : MmContext := { ctxt with vmrTree := ctxt.vmrTree.erase key }

/-- Remove a region and give its object back. -/
def freeVmr (key : ℕ) (vmr : Vmr) : MmContext :=
  { ctxt with vmrTree := ctxt.vmrTree.erase key, vmrPool := ctxt.vmrPool.erase vmr.node }

/-- Change the region at `key`. -/
def modifyVmr (key : ℕ) (f : Vmr → Vmr) : MmContext :=
  { ctxt with vmrTree := ctxt.vmrTree.modify key f }

end MmContext

/-- The contexts by address, and the memory the page table walks work on. -/
structure MmState (σ : Type) where
  ctxts : ℕ → MmContext
  vm : VmState σ

/-- Replace a context. -/
def MmState.setCtxt {σ : Type} (s : MmState σ) (p : ℕ) (ctxt : MmContext) : MmState σ :=
  { s with ctxts := Function.update s.ctxts p ctxt }

/-- Replace the memory. -/
def MmState.setVm {σ : Type} (s : MmState σ) (vm : VmState σ) : MmState σ := { s with vm := vm }

section Model

/-! ## Arguments -/

/-- `aligned_vaddr` and `aligned_size`. -/
def aligned (r : VRange) : VRange := ⟨pgFloor r.vaddr, pgCeil r.size⟩

/-- `vaddr_limit`: the last byte, counted from the page `vaddr` is in. -/
def vaddrLimit (r : VRange) : ℕ := (pgFloor r.vaddr + (r.size - 1)) % 2 ^ 64

/-- `is_user_space`. -/
def isUserSpace (r : VRange) : Bool := mmIsUserSpace (pgFloor r.vaddr)

/-- The overflow check. -/
def Overflows (r : VRange) : Prop := 2 ^ 64 - 1 - pgFloor r.vaddr < pgCeil r.size

/-- The check that a range stays on one side of the user space boundary. -/
def Crosses (r : VRange) : Prop := isUserSpace r ≠ mmIsUserSpace (vaddrLimit r)

instance (r : VRange) : Decidable (Overflows r) := inferInstanceAs (Decidable (_ < _))

instance (r : VRange) : Decidable (Crosses r) := inferInstanceAs (Decidable (_ ≠ _))

/-- The arguments `kh_mmap` is called with. -/
def alignedArgs (c : MmapArgs) : MmapArgs :=
  { c with toVRange := aligned c.toVRange, paddr := pgFloor c.paddr }

/-- What `mm_mmap` refuses before it looks at a region. -/
def Refused (c : MmapArgs) : Prop :=
  c.size = 0 ∨ Overflows c.toVRange ∨ Crosses c.toVRange ∨
    (isUserSpace c.toVRange = false ∧ hasFlag c.access MM_PAGE_USER = true)

instance (c : MmapArgs) : Decidable (Refused c) := inferInstanceAs (Decidable (_ ∨ _ ∨ _ ∨ _))

/-- Whether the call keeps regions: a user space range without `MMAP_IGNORE_VMR`. -/
def keepsVmr (r : VRange) (flags : UInt32) : Bool := !hasFlag flags MMAP_IGNORE_VMR && isUserSpace r

/-! ## `mm_mmap` -/

/-- `((char *)vmr->rb_value) + (vmr->size - 1)`. -/
def lastByte (e : ℕ × Vmr) : ℕ := (e.1 + (e.2.size + (2 ^ 64 - 1))) % 2 ^ 64

/-- The check for regions in the way: the nearest one below the first byte, and below the last. -/
def Blocked (t : OrdMap ℕ Vmr) (r : VRange) : Prop :=
  t.size ≠ 0 ∧
    ((∃ e ∈ t.findMaxLteq (pgFloor r.vaddr), pgFloor r.vaddr ≤ lastByte e) ∨
      ∃ e ∈ t.findMaxLteq (vaddrLimit r), vaddrLimit r ≤ lastByte e)

instance (t : OrdMap ℕ Vmr) (r : VRange) : Decidable (Blocked t r) :=
  inferInstanceAs (Decidable (_ ∧ (_ ∨ _)))

/-- Look for regions in the way, and record a new one. -/
def addVmr (new : Option ℕ) (c : MmapArgs) (ctxt : MmContext) :
    Except Fault (KmResult × MmContext) :=
  if Blocked ctxt.vmrTree c.toVRange then .ok (.invalidArgs, ctxt)
  else
    match new with
    | none => .ok (.noMem, ctxt)
    | some node => (ctxt.insertVmr c.vaddr ⟨node, c.size, c.access⟩).map fun ctxt => (.ok, ctxt)

variable {σ : Type} (A : Platform σ)

/-- `KM_RETURN_IF_FAILED`, with the memory as it is. -/
def unlessFailed (r : KmResult) (vm : VmState σ) (next : Except Fault (KmResult × VmState σ)) :
    Except Fault (KmResult × VmState σ) :=
  if r = .ok then next else .ok (r, vm)

/-- `mm_mmap`.  A failure after `remove_vmr_guard` is armed runs it. -/
def mmMmap (new : Option ℕ) (ctxt : Option ℕ) (c : MmapArgs) (s : MmState σ) :
    Except Fault (KmResult × MmState σ) :=
  match ctxt with
  | none => .ok (.invalidArgs, s)
  | some p =>
    if Refused c then .ok (.invalidArgs, s)
    else if keepsVmr c.toVRange c.flags then do
      let (added, ctxt) ← addVmr new c (s.ctxts p)
      let (r, vm) ← unlessFailed added s.vm (khMmap A (alignedArgs c) ctxt.pageTable s.vm)
      let ctxt := if r = .ok then ctxt else ctxt.removeVmr (pgFloor c.vaddr)
      .ok (r, (s.setCtxt p ctxt).setVm vm)
    else do
      let (r, vm) ← khMmap A (alignedArgs c) (s.ctxts p).pageTable s.vm
      .ok (r, s.setVm vm)

/-! ## `mm_unmmap` -/

/-- `mm_unmmap`. -/
def mmUnmmap (ctxt : Option ℕ) (r : VRange) (flags : UInt32) (s : MmState σ) :
    Except Fault (KmResult × MmState σ) :=
  match ctxt with
  | none => .ok (.invalidArgs, s)
  | some p =>
    if r.size = 0 ∨ Overflows r ∨ Crosses r then .ok (.invalidArgs, s)
    else if keepsVmr r flags then
      match (s.ctxts p).vmrTree.find r.vaddr with
      | none => .ok (.invalidArgs, s)
      | some vmr =>
        if r.size ≠ 0 then .ok (.invalidArgs, s)
        else do
          let vm ← khUnmmap A ⟨pgFloor r.vaddr, pgCeil vmr.size⟩ flags (s.ctxts p).pageTable s.vm
          .ok (.ok, (s.setCtxt p ((s.ctxts p).freeVmr r.vaddr vmr)).setVm vm)
    else do
      let vm ← khUnmmap A (aligned r) flags (s.ctxts p).pageTable s.vm
      .ok (.ok, s.setVm vm)

end Model

section Areas

/-! ## Calls on the regions only -/

variable {σ : Type}

/-- `mm_merge_mapped_area`. -/
def mmMergeMappedArea (p a b : ℕ) (s : MmState σ) : KmResult × MmState σ :=
  if b ≤ a then (.invalidArgs, s)
  else
    match (s.ctxts p).vmrTree.find a, (s.ctxts p).vmrTree.find b with
    | some vmrA, some vmrB =>
      if (a + vmrA.size) % 2 ^ 64 ≠ b then (.invalidArgs, s)
      else
        let grow := fun v : Vmr => { v with size := (v.size + vmrB.size) % 2 ^ 64 }
        (.ok, s.setCtxt p (((s.ctxts p).modifyVmr a grow).freeVmr b vmrB))
    | _, _ => (.invalidArgs, s)

/-- `mm_split_mapped_area`. -/
def mmSplitMappedArea (new : Option ℕ) (p area splitPoint : ℕ) (s : MmState σ) :
    Except Fault (KmResult × MmState σ) :=
  if splitPoint ≤ area then .ok (.invalidArgs, s)
  else
    match (s.ctxts p).vmrTree.find area with
    | none => .ok (.invalidArgs, s)
    | some vmr =>
      let limit := (area + vmr.size) % 2 ^ 64
      if limit ≤ splitPoint then .ok (.invalidArgs, s)
      else
        match new with
        | none => .ok (.noMem, s)
        | some node =>
          ((s.ctxts p).insertVmr splitPoint ⟨node, limit - splitPoint, vmr.access⟩).map fun ctxt =>
            (.ok, s.setCtxt p (ctxt.modifyVmr area fun v => { v with size := splitPoint - area }))

/-- `mm_set_page_access`. -/
def mmSetPageAccess (ctxt : Option ℕ) (r : VRange) (access : UInt32) (s : MmState σ) :
    KmResult × MmState σ :=
  match ctxt with
  | none => (.invalidArgs, s)
  | some p =>
    if r.size = 0 ∨ Crosses r then (.invalidArgs, s)
    else if isUserSpace r then
      match (s.ctxts p).vmrTree.find r.vaddr with
      | none => (.invalidArgs, s)
      | some vmr =>
        if vmr.size ≠ r.size then (.invalidArgs, s)
        else
          let set := fun v : Vmr => { v with access := access }
          (.ok, s.setCtxt p ((s.ctxts p).modifyVmr r.vaddr set))
    else (.ok, s)

end Areas

/-! ## How `mm_mmap` ends -/

section Cases

variable {σ : Type} {A : Platform σ} {new : Option ℕ} {p : ℕ} {c : MmapArgs} {s s' : MmState σ}
  {r : KmResult}

@[simp] theorem setCtxt_self (s : MmState σ) (p : ℕ) (ctxt : MmContext) :
    (s.setCtxt p ctxt).ctxts p = ctxt := Function.update_self ..

@[simp] theorem setVm_ctxts (s : MmState σ) (vm : VmState σ) : (s.setVm vm).ctxts = s.ctxts := rfl

/-- The context once `mm_mmap` has recorded the range. -/
def withVmr (c : MmapArgs) (node : ℕ) (ctxt : MmContext) : MmContext :=
  { ctxt with
    vmrTree := ctxt.vmrTree.insert c.vaddr ⟨node, c.size, c.access⟩
    vmrPool := node :: ctxt.vmrPool }

/-- How `addVmr` ends. -/
theorem addVmr_cases {ctxt' : MmContext} (h : addVmr new c ctxt = .ok (r, ctxt')) :
    (Blocked ctxt.vmrTree c.toVRange ∧ r = .invalidArgs ∧ ctxt' = ctxt) ∨
      (¬ Blocked ctxt.vmrTree c.toVRange ∧ new = none ∧ r = .noMem ∧ ctxt' = ctxt) ∨
      ∃ node, ¬ Blocked ctxt.vmrTree c.toVRange ∧ new = some node ∧
        ctxt.vmrTree.find c.vaddr = none ∧ r = .ok ∧ ctxt' = withVmr c node ctxt := by
  unfold addVmr at h
  split at h
  · cases h
    exact .inl ⟨‹_›, rfl, rfl⟩
  · cases new with
    | none =>
      cases h
      exact .inr (.inl ⟨‹_›, rfl, rfl, rfl⟩)
    | some node =>
      simp only [MmContext.insertVmr] at h
      split at h
      · cases h
        exact .inr (.inr ⟨node, ‹_›, rfl, ‹_›, rfl, rfl⟩)
      · cases h

/-- **How a call that keeps regions ends**: refused, with a region in the way or no memory for a new
one, or with the answer of `kh_mmap`. -/
theorem mmMmap_cases (hkeep : keepsVmr c.toVRange c.flags = true)
    (h : mmMmap A new (some p) c s = .ok (r, s')) :
    (Refused c ∧ r = .invalidArgs ∧ s' = s) ∨
      (¬ Refused c ∧ r ≠ .ok ∧ (Blocked (s.ctxts p).vmrTree c.toVRange ∨ new = none) ∧
        s' = s.setCtxt p ((s.ctxts p).removeVmr (pgFloor c.vaddr))) ∨
      ∃ node vm, ¬ Refused c ∧ ¬ Blocked (s.ctxts p).vmrTree c.toVRange ∧ new = some node ∧
        (s.ctxts p).vmrTree.find c.vaddr = none ∧
        khMmap A (alignedArgs c) (s.ctxts p).pageTable s.vm = .ok (r, vm) ∧
        s' = (s.setCtxt p (if r = .ok then withVmr c node (s.ctxts p)
          else (withVmr c node (s.ctxts p)).removeVmr (pgFloor c.vaddr))).setVm vm := by
  simp only [mmMmap] at h
  split at h
  · cases h
    exact .inl ⟨‹_›, rfl, rfl⟩
  · rename_i hrefused
    obtain ⟨⟨added, ctxt⟩, hadd, h⟩ := of_bind h
    obtain ⟨⟨res, vm⟩, hmap, h⟩ := of_bind h
    cases h
    obtain ⟨hb, rfl, rfl⟩ | ⟨-, hnew, rfl, rfl⟩ | ⟨node, hb, hnew, hfind, rfl, rfl⟩ :=
      addVmr_cases hadd
    · cases hmap
      exact .inr (.inl ⟨hrefused, by simp, .inl hb, rfl⟩)
    · cases hmap
      exact .inr (.inl ⟨hrefused, by simp, .inr hnew, rfl⟩)
    · exact .inr (.inr ⟨node, vm, hrefused, hb, hnew, hfind, hmap, rfl⟩)

/-- A call that keeps no regions leaves every context as it was. -/
theorem mmMmap_ctxts (hkeep : keepsVmr c.toVRange c.flags = false)
    (h : mmMmap A new (some p) c s = .ok (r, s')) : s'.ctxts = s.ctxts := by
  simp only [mmMmap, hkeep] at h
  split at h
  · cases h
    rfl
  · obtain ⟨⟨res, vm⟩, -, h⟩ := of_bind h
    cases h
    rfl

/-- The bookkeeping lets a call through to `kh_mmap`. -/
def Reaches (new : Option ℕ) (c : MmapArgs) (ctxt : MmContext) : Prop :=
  ¬ Refused c ∧ (keepsVmr c.toVRange c.flags = true →
    ¬ Blocked ctxt.vmrTree c.toVRange ∧ new ≠ none)

/-- A call that does not get that far returns an error and leaves the memory alone. -/
theorem mmMmap_of_not_reaches (h : ¬ Reaches new c (s.ctxts p)) :
    ∃ r s', mmMmap A new (some p) c s = .ok (r, s') ∧ s'.vm = s.vm := by
  simp only [mmMmap]
  by_cases href : Refused c
  · exact ⟨_, _, if_pos href, rfl⟩
  rw [if_neg href]
  simp only [Reaches, href, not_false_eq_true, true_and, Classical.not_imp] at h
  obtain ⟨hkeep, hstop⟩ := h
  rw [if_pos hkeep]
  obtain ⟨r, hr, hadd⟩ : ∃ r, r ≠ .ok ∧ addVmr new c (s.ctxts p) = .ok (r, s.ctxts p) := by
    by_cases hb : Blocked (s.ctxts p).vmrTree c.toVRange
    · exact ⟨.invalidArgs, by decide, if_pos hb⟩
    · obtain rfl : new = none := by simpa [hb] using hstop
      exact ⟨.noMem, by decide, if_neg hb⟩
  simp only [hadd, bind, Except.bind, unlessFailed, if_neg hr]
  exact ⟨_, _, rfl, rfl⟩

/-- A call that gets that far ends as `kh_mmap` does. -/
theorem mmMmap_of_reaches (h : Reaches new c (s.ctxts p))
    (hfind : keepsVmr c.toVRange c.flags = true → (s.ctxts p).vmrTree.find c.vaddr = none) :
    ∃ s' : KmResult → MmState σ, mmMmap A new (some p) c s =
      (khMmap A (alignedArgs c) (s.ctxts p).pageTable s.vm).map fun x =>
        (x.1, (s' x.1).setVm x.2) := by
  obtain ⟨href, hpass⟩ := h
  simp only [mmMmap, if_neg href]
  cases hkeep : keepsVmr c.toVRange c.flags with
  | false =>
    refine ⟨fun _ => s, ?_⟩
    cases khMmap A (alignedArgs c) (s.ctxts p).pageTable s.vm <;> rfl
  | true =>
    obtain ⟨hb, hnew⟩ := hpass hkeep
    obtain ⟨node, rfl⟩ := Option.ne_none_iff_exists'.mp hnew
    have hadd : addVmr (some node) c (s.ctxts p) = .ok (.ok, withVmr c node (s.ctxts p)) := by
      simp only [addVmr, if_neg hb, MmContext.insertVmr, hfind hkeep]
      rfl
    refine ⟨fun r => s.setCtxt p (if r = .ok then withVmr c node (s.ctxts p)
      else (withVmr c node (s.ctxts p)).removeVmr (pgFloor c.vaddr)), ?_⟩
    have hroot : (withVmr c node (s.ctxts p)).pageTable = (s.ctxts p).pageTable := rfl
    simp only [hadd, bind, Except.bind, hroot]
    cases khMmap A (alignedArgs c) (s.ctxts p).pageTable s.vm <;> rfl

theorem setCtxt_pageTable (h : ctxt.pageTable = (s.ctxts p).pageTable) (y : ℕ) :
    ((s.setCtxt p ctxt).ctxts y).pageTable = (s.ctxts y).pageTable := by
  by_cases hy : y = p
  · rw [hy, setCtxt_self, h]
  · simp only [MmState.setCtxt, Function.update_of_ne hy]

/-- **What a call does to the memory**: nothing, or what `kh_mmap` does.  The contexts keep their
page tables. -/
theorem mmMmap_vm (h : mmMmap A new (some p) c s = .ok (r, s')) :
    (∀ y, (s'.ctxts y).pageTable = (s.ctxts y).pageTable) ∧
      (r ≠ .ok ∧ s'.vm = s.vm ∨ Reaches new c (s.ctxts p) ∧
        khMmap A (alignedArgs c) (s.ctxts p).pageTable s.vm = .ok (r, s'.vm)) := by
  cases hkeep : keepsVmr c.toVRange c.flags with
  | false =>
    refine ⟨fun y => by rw [mmMmap_ctxts hkeep h], ?_⟩
    simp only [mmMmap, hkeep] at h
    split at h
    · cases h
      exact .inl ⟨by decide, rfl⟩
    · rename_i href
      obtain ⟨⟨res, vm⟩, hmap, h⟩ := of_bind h
      cases h
      exact .inr ⟨⟨href, fun hk => by rw [hkeep] at hk; cases hk⟩, hmap⟩
  | true =>
    obtain ⟨-, rfl, rfl⟩ | ⟨-, hr, -, rfl⟩ | ⟨node, vm, href, hb, rfl, -, hmap, rfl⟩ :=
      mmMmap_cases hkeep h
    · exact ⟨fun _ => rfl, .inl ⟨by decide, rfl⟩⟩
    · exact ⟨setCtxt_pageTable rfl, .inl ⟨hr, rfl⟩⟩
    · refine ⟨setCtxt_pageTable ?_, .inr ⟨⟨href, fun _ => ⟨hb, by simp⟩⟩, hmap⟩⟩
      split <;> rfl

/-- **What a call does to the regions**: nothing, or the new one is added, or the one at its first
page removed, or both. -/
theorem mmMmap_vmrTree {Q : ℕ → Vmr → Prop} (h : mmMmap A new (some p) c s = .ok (r, s'))
    (hQ : (s.ctxts p).vmrTree.All Q) (hnew : ∀ node, Q c.vaddr ⟨node, c.size, c.access⟩) :
    (s'.ctxts p).vmrTree.All Q ∧ (s'.ctxts p).pageTable = (s.ctxts p).pageTable := by
  cases hkeep : keepsVmr c.toVRange c.flags with
  | false =>
    rw [mmMmap_ctxts hkeep h]
    exact ⟨hQ, rfl⟩
  | true =>
    obtain ⟨-, -, rfl⟩ | ⟨-, -, -, rfl⟩ | ⟨node, vm, -, -, -, -, -, rfl⟩ := mmMmap_cases hkeep h
    · exact ⟨hQ, rfl⟩
    · rw [setCtxt_self]
      exact ⟨hQ.erase _, rfl⟩
    · rw [setVm_ctxts, setCtxt_self]
      split
      · exact ⟨hQ.insert (hnew node), rfl⟩
      · exact ⟨(hQ.insert (hnew node)).erase _, rfl⟩

/-- Erasing a key changes a map that has it. -/
theorem erase_eq_self_iff {t : OrdMap ℕ Vmr} {k : ℕ} : t.erase k = t ↔ t.find k = none := by
  constructor
  · intro h
    rw [← h, OrdMap.find_erase, if_pos rfl]
  · intro h
    refine OrdMap.ext_find fun k' => ?_
    rw [OrdMap.find_erase]
    split
    · rename_i hk
      rw [hk, h]
    · rfl

/-- **When a failed `mm_mmap` on user space leaves the regions and their objects as they were**:
exactly when it is refused outright, when it keeps no regions, or when no region starts at its first
page and it fails before it has an object of its own. -/
theorem mmMmap_failed_iff (huser : isUserSpace c.toVRange = true)
    (h : mmMmap A new (some p) c s = .ok (r, s')) (hr : r ≠ .ok) :
    ((s'.ctxts p).vmrTree = (s.ctxts p).vmrTree ∧ (s'.ctxts p).vmrPool = (s.ctxts p).vmrPool) ↔
      Refused c ∨ hasFlag c.flags MMAP_IGNORE_VMR = true ∨
        ((s.ctxts p).vmrTree.find (pgFloor c.vaddr) = none ∧
          (Blocked (s.ctxts p).vmrTree c.toVRange ∨ new = none)) := by
  cases hignore : hasFlag c.flags MMAP_IGNORE_VMR with
  | true =>
    have hkeep : keepsVmr c.toVRange c.flags = false := by rw [keepsVmr, hignore]; rfl
    simp [mmMmap_ctxts hkeep h]
  | false =>
    have hkeep : keepsVmr c.toVRange c.flags = true := by rw [keepsVmr, hignore, huser]; rfl
    obtain ⟨href, rfl, rfl⟩ | ⟨href, -, hstop, rfl⟩ | ⟨node, vm, href, hb, rfl, -, -, rfl⟩ :=
      mmMmap_cases hkeep h
    · simp [href]
    · simp [href, hstop, MmContext.removeVmr, erase_eq_self_iff]
    · simp [href, hb, hr, MmContext.removeVmr, withVmr]

/-- A context with one region of `size` bytes at `vaddr`, above the page table of `belowSlots`. -/
def oneRegion (vaddr size : ℕ) : MmState Unit where
  ctxts _ := ⟨1, OrdMap.empty.insert vaddr ⟨100, size, 0x25⟩, [100]⟩
  vm := belowSlots [0]

/-- What `mm_mmap` returns, where the regions start afterwards, and which objects are in use. -/
def mmapOutcome (new : Option ℕ) (c : MmapArgs) (s : MmState Unit) :
    Option (KmResult × List ℕ × List ℕ) :=
  (mmMmap noPages new (some 0) c s).toOption.map fun x =>
    (x.1, (x.2.ctxts 0).vmrTree.keys, (x.2.ctxts 0).vmrPool)

theorem mmMmap_failed_iff_inTheWay : ∃ s',
    mmMmap noPages (some 200) (some 0) twoPages (oneRegion 0x4000 0x2000) = .ok (.invalidArgs, s') ∧
      (s'.ctxts 0).vmrTree = ((oneRegion 0x4000 0x2000).ctxts 0).vmrTree ∧
      (s'.ctxts 0).vmrPool = [100] := by
  obtain ⟨r, s', h, rfl⟩ : ∃ r s', mmMmap noPages (some 200) (some 0) twoPages
      (oneRegion 0x4000 0x2000) = .ok (r, s') ∧ r = .invalidArgs := by decide +kernel
  exact ⟨s', h, (mmMmap_failed_iff (by decide) h (by decide)).mpr
    (.inr (.inr ⟨by decide +kernel, .inl (by decide +kernel)⟩))⟩

/-- Two pages on either side of the boundary of two page tables. -/
def acrossTables : MmapArgs := { twoPages with vaddr := 0x1ff000 }

/-- The region in the way is removed when it starts where the new one would; and when `kh_mmap` runs
out of pages the new object stays allocated. -/
theorem mmMmap_failed_removes_or_leaks :
    mmapOutcome (some 200) twoPages (oneRegion 0x5000 0x1000) = some (.invalidArgs, [], [100]) ∧
    mmapOutcome (some 200) acrossTables (oneRegion 0x5000 0x1000) =
      some (.noMem, [0x5000], [200, 100]) := by
  constructor <;> decide +kernel

/-! ## `mm_unmmap` after `mm_mmap` -/

/-- `mm_unmmap` that keeps regions changes nothing and always reports an error. -/
theorem mmUnmmap_eq_invalidArgs (hkeep : keepsVmr range flags = true) (ctxt : Option ℕ)
    (s : MmState σ) :
    mmUnmmap A ctxt range flags s = .ok (.invalidArgs, s) := by
  cases ctxt with
  | none => rfl
  | some p =>
    simp only [mmUnmmap]
    split
    · rfl
    · rename_i hargs
      split
      · rfl
      · rw [if_pos fun h => hargs (.inl h)]

/-- The bookkeeping lets a call of `mm_unmmap` through to `kh_unmmap`. -/
def UnmapReaches (range : VRange) (flags : UInt32) : Prop :=
  ¬ (range.size = 0 ∨ Overflows range ∨ Crosses range) ∧ keepsVmr range flags = false

/-- What `mm_unmmap` does to the memory: nothing, or what `kh_unmmap` does.  The contexts stay. -/
theorem mmUnmmap_vm (h : mmUnmmap A (some p) range flags s = .ok (r, s')) :
    s'.ctxts = s.ctxts ∧ (s'.vm = s.vm ∨ UnmapReaches range flags ∧
      khUnmmap A (aligned range) flags (s.ctxts p).pageTable s.vm = .ok s'.vm) := by
  cases hkeep : keepsVmr range flags with
  | true =>
    obtain ⟨-, rfl⟩ := ok_mk_inj ((mmUnmmap_eq_invalidArgs hkeep (some p) s).symm.trans h)
    exact ⟨rfl, .inl rfl⟩
  | false =>
    simp only [mmUnmmap, hkeep] at h
    split at h
    · cases h
      exact ⟨rfl, .inl rfl⟩
    · rename_i hargs
      obtain ⟨vm, hunmap, h⟩ := of_bind h
      cases h
      exact ⟨rfl, .inr ⟨⟨hargs, hkeep⟩, hunmap⟩⟩

/-- **What `mm_mmap` maps in user space, `mm_unmmap` does not unmap.**  After any successful call
the one that would undo it reports `KM_RESULT_INVALID_ARGS`, and the new region stays. -/
theorem mmUnmmap_mmMmap (hvmr : hasFlag c.flags MMAP_IGNORE_VMR = false)
    (huser : mmIsUserSpace c.vaddr = true) (hva : 4096 ∣ c.vaddr)
    (h : mmMmap A new (some p) c s = .ok (.ok, s')) :
    mmUnmmap A (some p) c.toVRange c.flags s' = .ok (.invalidArgs, s') ∧
      (s'.ctxts p).vmrTree ≠ (s.ctxts p).vmrTree := by
  have hlt : c.vaddr < 2 ^ 64 := by
    simp only [mmIsUserSpace, decide_eq_true_eq] at huser
    omega
  have hkeep : keepsVmr c.toVRange c.flags = true := by
    rw [keepsVmr, hvmr, isUserSpace, pgFloor_of_dvd hlt hva, huser]
    rfl
  refine ⟨mmUnmmap_eq_invalidArgs hkeep _ _, fun heq => ?_⟩
  obtain ⟨-, hr, -⟩ | ⟨-, hr, -⟩ | ⟨node, vm, -, -, -, hfind, -, rfl⟩ := mmMmap_cases hkeep h
  · cases hr
  · exact hr rfl
  · rw [← heq] at hfind
    simp [withVmr] at hfind

theorem mmUnmmap_mmMmap_twoPages : ∃ s',
    mmMmap noPages (some 200) (some 0) twoPages (oneRegion 0x1000 0x1000) = .ok (.ok, s') ∧
      mmUnmmap noPages (some 0) ⟨0x5000, 0x2000⟩ 0 s' = .ok (.invalidArgs, s') := by
  obtain ⟨r, s', h, rfl⟩ : ∃ r s', mmMmap noPages (some 200) (some 0) twoPages
      (oneRegion 0x1000 0x1000) = .ok (r, s') ∧ r = .ok := by decide +kernel
  exact ⟨s', h, (mmUnmmap_mmMmap (by decide) (by decide) (by decide) h).1⟩

/-- What `mm_mmap` and the `mm_unmmap` after it return, where the regions start then, and what
`kh_getmap` says of an address. -/
def roundTrip (c : MmapArgs) (s : MmState Unit) (va : ℕ) :
    Except Fault (KmResult × KmResult × List ℕ × ℕ × Option UInt32) := do
  let (r, s) ← mmMmap noPages (some 200) (some 0) c s
  let (r', s) ← mmUnmmap noPages (some 0) c.toVRange c.flags s
  let (answer, _) ← khGetmap noPages (s.ctxts 0).pageTable va s.vm.mem
  .ok (r, r', (s.ctxts 0).vmrTree.keys, answer)

theorem mmUnmmap_refuses :
    (khGetmap noPages 1 0x5000 (belowSlots [0]).mem).toOption.map Prod.fst = some (0, none) ∧
    (khGetmap noPages 1 0x6000 (belowSlots [0]).mem).toOption.map Prod.fst = some (0, none) ∧
    (roundTrip twoPages (oneRegion 0x1000 0x1000) 0x5000).toOption =
      some (.ok, .invalidArgs, [0x1000, 0x5000], 0x80000, some 0x27) := by
  refine ⟨?_, ?_, ?_⟩ <;> decide +kernel

end Cases

end Pbos.Mm
