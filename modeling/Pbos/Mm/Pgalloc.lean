import Pbos.Km.Panic
import Pbos.Lib.OrdMap

/-!
# Mm/Pgalloc — the physical page allocator

Physical memory is split into areas (`ki_pmad_t`), and every page of an area has a descriptor
(`hn_mad_t`, the MAD).  A MAD counts the references to its page; the unreferenced MADs of an area
are meant to hang on the area's `free_list`.

Initialisation fixes the areas, their query trees and the page of each MAD; these form `PmadTree`.
What the calls change — list heads, links, reference counts — is `PgState`, one map a field.  The
MAD spinlocks are left out: the calls of one processor never contend for them.
-/

namespace Pbos

/-! ## Areas and descriptors -/

/-- `ki_pmad_t`: a region of physical memory, with the MAD of each page it manages. -/
structure KiPmad where
  len : ℕ
  type : UInt8
  queryTree : OrdMap ℕ ℕ
  deriving DecidableEq

/-- `ki_get_pmad`: the area that holds an address.  The end of the area is a 64-bit sum. -/
def kiGetPmad (tree : OrdMap ℕ KiPmad) (addr : ℕ) : Option (ℕ × KiPmad) :=
  match tree.findMaxLteq addr with
  | some node => if addr < (node.1 + node.2.len) % 2 ^ 64 then some node else none
  | none => none

/-- `ki_pmad_tree` with the MADs below it.  Every MAD is filed under the address of its own page,
and is a node of the query tree of one area.  Areas may overlap; a page then has several MADs. -/
structure PmadTree where
  tree : OrdMap ℕ KiPmad
  rbValue : ℕ → ℕ
  home : ℕ → ℕ
  rbValue_of_find : ∀ {area pmad addr mad}, tree.find area = some pmad →
    pmad.queryTree.find addr = some mad → rbValue mad = addr
  home_of_find : ∀ {area pmad addr mad}, tree.find area = some pmad →
    pmad.queryTree.find addr = some mad → home mad = area

/-- What holds of each MAD that is listed holds of each that is found. -/
theorem forall_find {tree : OrdMap ℕ KiPmad} {p : ℕ → KiPmad → ℕ → ℕ → Prop}
    (h : ∀ a ∈ tree.entries, ∀ m ∈ a.2.queryTree.entries, p a.1 a.2 m.1 m.2) {area pmad addr mad}
    (harea : tree.find area = some pmad) (haddr : pmad.queryTree.find addr = some mad) :
    p area pmad addr mad :=
  h _ (tree.find_eq_some_iff.mp harea) _ (pmad.queryTree.find_eq_some_iff.mp haddr)

/-- What the allocator changes: `free_list` by area, the links and `ref_count` by MAD. -/
structure PgState where
  freeList : ℕ → Option ℕ
  nextFree : ℕ → Option ℕ
  prevFree : ℕ → Option ℕ
  refCount : ℕ → ℕ

namespace PgState

variable (s : PgState)

/-- `area->free_list = v`. -/
@[simps] def setFreeList (area : ℕ) (v : Option ℕ) : PgState :=
  { s with freeList := fun b => if b = area then v else s.freeList b }

/-- `if (q) q->next_free = v`. -/
@[simps] def setNextFree (q v : Option ℕ) : PgState :=
  { s with nextFree := fun y => if q = some y then v else s.nextFree y }

/-- `if (q) q->prev_free = v`. -/
@[simps] def setPrevFree (q v : Option ℕ) : PgState :=
  { s with prevFree := fun y => if q = some y then v else s.prevFree y }

/-- `mad->ref_count = n`. -/
@[simps] def setRefCount (mad n : ℕ) : PgState :=
  { s with refCount := fun y => if y = mad then n else s.refCount y }

end PgState

/-! ## The calls -/

variable (P : PmadTree) (s : PgState)

/-- `kh_get_mad`: the descriptor of a page. -/
def khGetMad (pgaddr : ℕ) : Except Fault ℕ :=
  match kiGetPmad P.tree pgaddr with
  | none => .error (.panic "No PMAD corresponds to physical address %p" [pgaddr])
  | some (_, pmad) =>
    match pmad.queryTree.find pgaddr with
    | some mad => .ok mad
    | none => .error (.panic "Physical memory block not found: %p" [pgaddr])

/-- The area pointer the callers of `kh_get_mad` hold; it is null only where `kh_get_mad` panics. -/
def areaOf (addr : ℕ) : ℕ := ((kiGetPmad P.tree addr).map (·.1)).getD 0

/-- The list surgery of `ki_set_page_used`: take a MAD off the list it hangs on. -/
def unlinkFree (area mad : ℕ) : PgState :=
  let s := if s.freeList area = some mad then s.setFreeList area (s.nextFree mad) else s
  let s := s.setNextFree (s.prevFree mad) (s.nextFree mad)
  let s := s.setPrevFree (s.nextFree mad) (s.prevFree mad)
  (s.setPrevFree (some mad) none).setNextFree (some mad) none

/-- `ki_set_page_used`: count one more reference; the first one takes the page off the list. -/
def kiSetPageUsed (pgaddr : ℕ) : Except Fault PgState :=
  match khGetMad P pgaddr with
  | .error e => .error e
  | .ok mad =>
    let s' := s.setRefCount mad ((s.refCount mad + 1) % 2 ^ 64)
    .ok (if s.refCount mad = 0 then unlinkFree s' (areaOf P pgaddr) mad else s')

/-- The list surgery of `ki_set_page_free`.  The head of the list learns about the MAD, and the MAD
about the head; the head pointer of the area stays as it is. -/
def linkFree (area mad : ℕ) : PgState :=
  let s := s.setPrevFree (s.freeList area) (some mad)
  s.setNextFree (some mad) (s.freeList area)

/-- `ki_set_page_free`: drop one reference, if there is one. -/
def kiSetPageFree (addr : ℕ) : Except Fault PgState :=
  match khGetMad P addr with
  | .error e => .error e
  | .ok mad =>
    if s.refCount mad = 0 then .ok s
    else
      let s' := s.setRefCount mad (s.refCount mad - 1)
      if s'.refCount mad = 0 then
        let s'' := linkFree s' (areaOf P addr) mad
        if s''.prevFree mad = none then .ok s''
        else .error (.assertion "kernel/mm/pgalloc.cc" 89)
      else .ok s'

/-- `ki_alloc_free_page`: the page at the head of the first non-empty list of the wanted type; the
null pointer is `0`. -/
def kiAllocFreePage (type : UInt8) : ℕ :=
  match P.tree.entries.findSome? fun i => if i.2.type = type then s.freeList i.1 else none with
  | some mad => P.rbValue mad
  | none => 0

/-- `mm_pgalloc`. -/
def mmPgalloc (memtype : UInt8) : Except Fault (ℕ × PgState) :=
  let addr := kiAllocFreePage P s memtype
  if addr ≠ 0 then (kiSetPageUsed P s addr).map fun s' => (addr, s') else .ok (0, s)

/-- `mm_pgfree`. -/
def mmPgfree (ptr : ℕ) : Except Fault PgState := kiSetPageFree P s ptr

/-- `mm_refpg`. -/
def mmRefpg (ptr : ℕ) : Except Fault PgState := kiSetPageUsed P s ptr

/-- A call of the allocator's interface. -/
inductive PgCall
  | pgalloc (memtype : UInt8)
  | refpg (ptr : ℕ)
  | pgfree (ptr : ℕ)

/-- The reference a call takes on a page does not overflow its count. -/
def NoOverflow (ptr : ℕ) : Prop :=
  ∀ mad, khGetMad P ptr = .ok mad → s.refCount mad + 1 < 2 ^ 64

/-- One call that returns, taking no count past its width. -/
def PgStep : PgCall → PgState → Prop
  | .pgalloc memtype, s' => ∃ addr, mmPgalloc P s memtype = .ok (addr, s') ∧
      (addr ≠ 0 → NoOverflow P s addr)
  | .refpg ptr, s' => mmRefpg P s ptr = .ok s' ∧ NoOverflow P s ptr
  | .pgfree ptr, s' => mmPgfree P s ptr = .ok s'

/-! ## Areas and their MADs -/

namespace PmadTree

variable (P : PmadTree)

/-- `mad` describes a page of `area`. -/
def IsMad (area mad : ℕ) : Prop :=
  ∃ pmad, P.tree.find area = some pmad ∧ ∃ addr, pmad.queryTree.find addr = some mad

variable {P} {area area' mad pgaddr : ℕ}

/-- A MAD belongs to one area. -/
theorem IsMad.area_eq (h : P.IsMad area mad) (h' : P.IsMad area' mad) : area = area' := by
  obtain ⟨pmad, hp, addr, ha⟩ := h
  obtain ⟨pmad', hp', addr', ha'⟩ := h'
  exact (P.home_of_find hp ha).symm.trans (P.home_of_find hp' ha')

/-- What `ki_get_pmad` returns is an area of the tree. -/
theorem find_of_getPmad {addr : ℕ} {node : ℕ × KiPmad} (h : kiGetPmad P.tree addr = some node) :
    P.tree.find node.1 = some node.2 := by
  unfold kiGetPmad at h
  split at h
  · rename_i n hn
    split at h
    · cases h
      exact P.tree.find_of_mem (P.tree.findMaxLteq_eq_some_iff.mp hn).1
    · cases h
  · cases h

/-- **`kh_get_mad` finds a MAD of the area, filed under its page.** -/
theorem isMad_of_khGetMad (h : khGetMad P pgaddr = .ok mad) :
    P.IsMad (areaOf P pgaddr) mad ∧ P.rbValue mad = pgaddr := by
  unfold khGetMad at h
  split at h
  · cases h
  · rename_i area pmad hp
    split at h
    · rename_i m hm
      cases h
      have hfind := find_of_getPmad hp
      have harea : areaOf P pgaddr = area := by rw [areaOf, hp]; rfl
      exact ⟨⟨pmad, harea ▸ hfind, pgaddr, hm⟩, P.rbValue_of_find hfind hm⟩
    · cases h

end PmadTree

/-! ## What a call can do -/

section Inversion

variable {P : PmadTree} {s s' : PgState} {pgaddr : ℕ}

theorem kiSetPageUsed_cases (h : kiSetPageUsed P s pgaddr = .ok s') :
    ∃ mad, khGetMad P pgaddr = .ok mad ∧
      (s.refCount mad = 0 ∧ s' = unlinkFree (s.setRefCount mad 1) (areaOf P pgaddr) mad ∨
        s.refCount mad ≠ 0 ∧ s' = s.setRefCount mad ((s.refCount mad + 1) % 2 ^ 64)) := by
  unfold kiSetPageUsed at h
  split at h
  · cases h
  · rename_i mad hmad
    refine ⟨mad, hmad, ?_⟩
    by_cases h0 : s.refCount mad = 0
    · simp only [h0] at h
      exact .inl ⟨h0, (Except.ok.inj h).symm⟩
    · simp only [h0] at h
      exact .inr ⟨h0, (Except.ok.inj h).symm⟩

theorem kiSetPageFree_cases (h : kiSetPageFree P s pgaddr = .ok s') :
    ∃ mad, khGetMad P pgaddr = .ok mad ∧ (s.refCount mad = 0 ∧ s' = s ∨
        s.refCount mad = 1 ∧ s' = linkFree (s.setRefCount mad 0) (areaOf P pgaddr) mad ∨
        1 < s.refCount mad ∧ s' = s.setRefCount mad (s.refCount mad - 1)) := by
  unfold kiSetPageFree at h
  split at h
  · cases h
  · rename_i mad hmad
    refine ⟨mad, hmad, ?_⟩
    rcases Nat.lt_trichotomy (s.refCount mad) 1 with hlt | heq | hgt
    · have h0 : s.refCount mad = 0 := by omega
      rw [if_pos h0] at h
      exact .inl ⟨h0, (Except.ok.inj h).symm⟩
    · refine .inr (.inl ⟨heq, ?_⟩)
      simp only [heq, Nat.one_ne_zero, ↓reduceIte, PgState.setRefCount_refCount] at h
      split at h
      · exact (Except.ok.inj h).symm
      · cases h
    · refine .inr (.inr ⟨hgt, ?_⟩)
      have h0 : s.refCount mad ≠ 0 := by omega
      have h1 : s.refCount mad - 1 ≠ 0 := by omega
      simp only [h0, ↓reduceIte, PgState.setRefCount_refCount, h1] at h
      exact (Except.ok.inj h).symm

theorem mmPgalloc_cases {memtype : UInt8} {addr : ℕ} (h : mmPgalloc P s memtype = .ok (addr, s')) :
    kiAllocFreePage P s memtype = addr ∧
      (addr = 0 ∧ s' = s ∨ addr ≠ 0 ∧ kiSetPageUsed P s addr = .ok s') := by
  unfold mmPgalloc at h
  by_cases h0 : kiAllocFreePage P s memtype = 0
  · simp only [h0, ne_eq, not_true_eq_false, ↓reduceIte, Except.ok.injEq, Prod.mk.injEq] at h
    exact ⟨h0.trans h.1, .inl ⟨h.1.symm, h.2.symm⟩⟩
  · simp only [ne_eq, h0] at h
    cases hu : kiSetPageUsed P s (kiAllocFreePage P s memtype) with
    | error e => rw [hu] at h; cases h
    | ok s₁ =>
      rw [hu] at h
      cases h
      exact ⟨rfl, .inr ⟨h0, hu⟩⟩

/-- **The three things a call can do to a MAD**: take the first reference, drop the last one, or
move the count between positive values. -/
inductive MadStep (P : PmadTree) (s : PgState) : PgState → Prop
  | none : MadStep P s s
  | first {area mad : ℕ} : P.IsMad area mad → s.refCount mad = 0 →
      MadStep P s (unlinkFree (s.setRefCount mad 1) area mad)
  | last {area mad : ℕ} : P.IsMad area mad → s.refCount mad = 1 →
      MadStep P s (linkFree (s.setRefCount mad 0) area mad)
  | count {area mad n : ℕ} : P.IsMad area mad → s.refCount mad ≠ 0 → n ≠ 0 →
      MadStep P s (s.setRefCount mad n)

theorem madStep_of_used (h : kiSetPageUsed P s pgaddr = .ok s') (hover : NoOverflow P s pgaddr) :
    MadStep P s s' := by
  obtain ⟨mad, hmad, ⟨h0, rfl⟩ | ⟨h0, rfl⟩⟩ := kiSetPageUsed_cases h
  · exact .first (PmadTree.isMad_of_khGetMad hmad).1 h0
  · refine .count (PmadTree.isMad_of_khGetMad hmad).1 h0 ?_
    rw [Nat.mod_eq_of_lt (hover mad hmad)]
    exact Nat.succ_ne_zero _

/-- **Every call is such a step.** -/
theorem PgStep.madStep {call : PgCall} (h : PgStep P s call s') : MadStep P s s' := by
  cases call with
  | pgalloc memtype =>
    obtain ⟨addr, h, hover⟩ := h
    obtain ⟨-, ⟨-, rfl⟩ | ⟨h0, hu⟩⟩ := mmPgalloc_cases h
    · exact .none
    · exact madStep_of_used hu (hover h0)
  | refpg ptr => exact madStep_of_used h.1 h.2
  | pgfree ptr =>
    obtain ⟨mad, hmad, ⟨-, rfl⟩ | ⟨h1, rfl⟩ | ⟨h1, rfl⟩⟩ := kiSetPageFree_cases h
    · exact .none
    · exact .last (PmadTree.isMad_of_khGetMad hmad).1 h1
    · exact .count (PmadTree.isMad_of_khGetMad hmad).1 (by omega) (by omega)

end Inversion

end Pbos
