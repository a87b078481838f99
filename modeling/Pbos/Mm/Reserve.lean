import Pbos.Hal.Vmalloc
import Pbos.Mm.Frames
import Pbos.Mm.Mmap

/-!
# Mm/Reserve — mapping frames over a reserved range

`kima_vpgalloc` and `ps_thread_alloc_kernel_stack` reserve a range with `kh_vmalloc` and then map a
fresh frame over each of its pages with `mm_mmap`.  A reserved PTE is present and names the frame 0,
so every `mm_mmap` calls `mm_pgfree(0)` before it overwrites one.  That goes unnoticed exactly when
the page at the address 0 has a MAD without references: `mmMmap_reserved_iff`.
-/

namespace Pbos.Mm

open Pbos.Hal Radix List OrdMap

variable {P : PmadTree} {ndebug : Bool} {direct : Frame → Bool}
  {tmpmap : Frame → Mem → Except Fault Mem} {root : Frame}

/-! ## `mm_pgfree(0)` -/

/-- The page at the address 0 has a MAD, and nobody refers to it. -/
def ZeroUnused (P : PmadTree) (pg : PgState) : Prop :=
  ∃ mad, khGetMad P 0 = .ok mad ∧ pg.refCount mad = 0

/-- **Freeing the null page goes unnoticed** exactly when it has an unused MAD. -/
theorem mmPgfree_zero_iff {pg : PgState} :
    (∃ pg', mmPgfree P pg 0 = .ok pg' ∧ pg'.refCount = pg.refCount) ↔ ZeroUnused P pg := by
  constructor
  · rintro ⟨pg', h, heq⟩
    obtain ⟨mad, hmad, ⟨h0, -⟩ | ⟨h1, rfl⟩ | ⟨h1, rfl⟩⟩ := kiSetPageFree_cases h
    · exact ⟨mad, hmad, h0⟩
    · have := congrFun heq mad
      simp [h1] at this
    · have := congrFun heq mad
      simp at this
      omega
  · rintro ⟨mad, hmad, h0⟩
    refine ⟨pg, ?_, rfl⟩
    simp only [mmPgfree, kiSetPageFree, hmad, h0, if_true]

/-- Handing out a page does not touch the null page. -/
theorem zeroUnused_pgalloc_iff {pg pg' : PgState} {addr : ℕ}
    (hcall : mmPgalloc P pg MM_PHYSICAL_MEMORY_TYPE_AVAILABLE = .ok (addr, pg')) (h0 : addr ≠ 0) :
    ZeroUnused P pg' ↔ ZeroUnused P pg := by
  obtain ⟨-, ⟨hz, -⟩ | ⟨-, hused⟩⟩ := mmPgalloc_cases hcall
  · exact absurd hz h0
  obtain ⟨mad', hmad', hcases⟩ := kiSetPageUsed_cases hused
  refine exists_congr fun mad => and_congr_right fun hmad => ?_
  have hne : mad ≠ mad' := by
    rintro rfl
    exact h0 ((PmadTree.isMad_of_khGetMad hmad').2.symm.trans (PmadTree.isMad_of_khGetMad hmad).2)
  obtain ⟨-, rfl⟩ | ⟨-, rfl⟩ := hcases <;> simp [hne]

/-! ## Reserved ranges -/

/-- From the page `k` on, the range is reserved: its tables are there, its PTEs are present and name
the frame 0. -/
structure Reserved (direct : Frame → Bool) (root : Frame) (r : VRange) (k : ℕ) (mem : Mem) :
    Prop where
  tree : Tree Entry.child mem root 3
  direct : ∀ f, Table mem root f → direct f = true
  last : (path mem root [Fin.ofNat 512 (r.stop / 2 ^ 27)]).isSome
  pte : ∀ q, r.first + k ≤ q → q < r.stop → ∃ ptt, path mem root (tables q) = some ptt ∧
    (mem ptt (slot q)).present = true ∧ (mem ptt (slot q)).address = 0

/-- **What `kh_vmalloc` returns is reserved.** -/
theorem reserved_of_khVmalloc {v : VmallocArgs} {s s' : VmState PgState} {va : ℕ}
    (htree : Tree Entry.child s.mem root 3) (hdirect : ∀ f, Table s.mem root f → direct f = true)
    (hfree : FreePages P direct root s.mem s.pg)
    (hmapped : hasFlag v.access MM_PAGE_MAPPED = true)
    (h : khVmalloc (pgPlatform P ndebug direct tmpmap) v root s = .ok (va, s')) (hva : va ≠ 0)
    (hrange : (v.reserve va).InHalf) :
    Reserved direct root (v.reserve va).toVRange 0 s'.mem := by
  have hmap := khVmalloc_eq hdirect h hva
  have hstart : MappedUpTo (pgPlatform P ndebug direct tmpmap) (v.reserve va) root s.mem
      (v.reserve va).first s := ⟨htree, hdirect, fun p hp => (if_neg (by omega)).symm⟩
  obtain ⟨-, ⟨hend, -⟩, hlast⟩ | ⟨hno, -⟩ := khMmap_reached
    (walkInv_mappedUpTo freshUnder_freePages hrange hmapped) hrange (by decide : 0 < 2 ^ 64)
    ⟨hstart, hfree⟩ hmap
  swap
  · cases hno
  refine ⟨hend.tree, hend.direct, hlast, fun q hq hq' => ?_⟩
  have hmapping := hend.mapping q (hq'.trans hrange.stop_lt)
  rw [if_pos ⟨by omega, hq'⟩] at hmapping
  cases hptt : path s'.mem root (tables q) with
  | none =>
    rw [mapping, leaf_eq_none hptt] at hmapping
    cases hmapping
  | some ptt =>
    rw [mapping, leaf_eq_some hptt] at hmapping
    obtain ⟨hpte, hpres⟩ := Option.filter_eq_some_iff.mp hmapping
    obtain hpte := Option.some.inj hpte
    refine ⟨ptt, rfl, by rw [hpte]; exact present_pte hmapped _, ?_⟩
    rw [hpte]
    simp [MmapArgs.pte, MmapArgs.pi, MmapArgs.piDiff, VmallocArgs.reserve, pgRoundDown]

/-! ## One page -/

/-- The `mm_mmap` that maps the frame `f` over the page `k` of a range. -/
def pageArgs (va k f : ℕ) (access flags : UInt32) : MmapArgs where
  vaddr := va + 4096 * k
  size := 4096
  paddr := f
  access := access
  flags := flags

section Page

variable {r : VRange} {k f : ℕ} {access flags : UInt32} {s : VmState PgState}

theorem pgCeil_page : pgCeil 4096 = 4096 := by decide

theorem InHalf.page (hr : r.InHalf) (hk : 4096 * k < r.size) :
    (alignedArgs (pageArgs r.vaddr k f access flags)).toVRange = ⟨r.vaddr + 4096 * k, 4096⟩ ∧
      (⟨r.vaddr + 4096 * k, 4096⟩ : VRange).InHalf := by
  have hv := hr.vaddr_dvd
  have hs := hr.size_dvd
  have hlt : r.vaddr + 4096 * k < 2 ^ 64 := by have := hr.half; omega
  refine ⟨?_, ⟨?_, ?_, ?_, ?_⟩⟩
  · simp only [alignedArgs, aligned, pageArgs, pgFloor_of_dvd hlt (by omega), pgCeil_page]
  · simp only
    omega
  · simp
  · exact Nat.succ_pos _
  · have := hr.half
    simp only
    omega

/-- **Mapping a frame over a reserved page frees the null page**, and reserves one page less. -/
theorem Reserved.map (h : Reserved direct root r k s.mem) (hr : r.InHalf) (hk : 4096 * k < r.size)
    (hremap : hasFlag flags MMAP_NO_REMAP = false) (hrc : hasFlag flags MMAP_NO_RC = false) :
    ∃ mem, Reserved direct root r (k + 1) mem ∧
      khMmap (pgPlatform P ndebug direct tmpmap) (alignedArgs (pageArgs r.vaddr k f access flags))
        root s = (mmPgfree P s.pg 0).map fun pg => (.ok, ⟨mem, pg, 0 :: s.freed⟩) := by
  obtain ⟨hrange, hhalf⟩ : (alignedArgs (pageArgs r.vaddr k f access flags)).toVRange = _ ∧ _ :=
    InHalf.page hr hk
  have hflags : (alignedArgs (pageArgs r.vaddr k f access flags)).flags = flags := rfl
  generalize alignedArgs (pageArgs r.vaddr k f access flags) = c at hrange hflags ⊢
  obtain ⟨hpage, hlt⟩ := hr.pageNo_add hk
  have hcHalf : c.InHalf := by rw [hrange]; exact hhalf
  have hfirst : c.first = r.first + k := by rw [hrange]; exact hpage
  have hstop : c.stop = r.first + k + 1 := by
    rw [VRange.stop, hfirst, show c.size = 4096 from congrArg VRange.size hrange]
  obtain ⟨ptt, hptt, hpres, haddr⟩ := h.pte (r.first + k) le_rfl hlt
  have hlast : (path s.mem root [Fin.ofNat 512 (c.stop / 2 ^ 27)]).isSome := by
    rw [hstop]
    by_cases hend : r.first + k + 1 = r.stop
    · rw [hend]
      exact h.last
    · obtain ⟨g, hg, -⟩ := h.pte (r.first + k + 1) (by omega) (by omega)
      have hg' : path s.mem root ([Fin.ofNat 512 ((r.first + k + 1) / 2 ^ 27)] ++
          [Fin.ofNat 512 ((r.first + k + 1) / 2 ^ 18)] ++
          [Fin.ofNat 512 ((r.first + k + 1) / 2 ^ 9)]) = some g := hg
      obtain ⟨_, hpdt, -⟩ := path_concat_eq_some hg'
      obtain ⟨_, hpdpt, -⟩ := path_concat_eq_some hpdt
      rw [hpdpt]
      rfl
  obtain ⟨va, hmap⟩ := khMmap_onePage (A := pgPlatform P ndebug direct tmpmap) hcHalf
    (by rw [hrange]) h.tree h.direct (hfirst ▸ hptt) hlast
  rw [hfirst] at hmap
  have hpath : ∀ π : List (Fin 512), π.length ≤ 3 →
      path (write s.mem ptt (slot (r.first + k)) (c.pte c.paddr)) root π = path s.mem root π :=
    fun _ hπ => follow_write h.tree hptt rfl hπ
  refine ⟨write s.mem ptt (slot (r.first + k)) (c.pte c.paddr), ⟨h.tree.congr hpath,
    fun g hg => h.direct g ((isTable_congr hpath).mp hg), ?_, fun q hq hq' => ?_⟩, ?_⟩
  · rw [hpath _ (by simp)]
    exact h.last
  · obtain ⟨g, hg, hp, ha⟩ := h.pte q (by omega) hq'
    have hne : ¬ (g = ptt ∧ slot q = slot (r.first + k)) := by
      rintro ⟨rfl, hslot⟩
      have htables := h.tree (by simp) (by simp) hg hptt
      have := eq_of_tables_slot (hq'.trans hr.stop_lt) (hlt.trans hr.stop_lt) htables hslot
      omega
    exact ⟨g, (hpath _ (by simp)).trans hg, by rw [write_of_ne hne]; exact hp,
      by rw [write_of_ne hne]; exact ha⟩
  · rw [hmap, hflags, Platform.drop, if_pos hpres, hremap, hrc, haddr]
    have hzero : unpgaddr 0 = 0 := by decide
    simp only [Platform.free, pgPlatform, hzero]
    cases mmPgfree P s.pg 0 <;> rfl

end Page

/-! ## The whole range -/

/-- Replace the state of the allocator. -/
def MmState.setPg (s : MmState PgState) (pg : PgState) : MmState PgState :=
  s.setVm { s.vm with pg := pg }

section Range

variable (P ndebug direct tmpmap) (ctxt va : ℕ) (access flags : UInt32)

/-- `k` pages of the range have been mapped, each to a page fresh from `mm_pgalloc`. -/
inductive MappedOver (s : MmState PgState) : ℕ → MmState PgState → Prop
  | zero : MappedOver s 0 s
  | succ {k f : ℕ} {new : Option ℕ} {s' s'' : MmState PgState} {pg : PgState} {r : KmResult} :
      MappedOver s k s' → mmPgalloc P s'.vm.pg MM_PHYSICAL_MEMORY_TYPE_AVAILABLE = .ok (f, pg) →
      f ≠ 0 → mmMmap (pgPlatform P ndebug direct tmpmap) new (some ctxt)
        (pageArgs va k f access flags) (s'.setPg pg) = .ok (r, s'') →
      MappedOver s (k + 1) s''

/-- However many pages have been mapped, mapping a fresh frame over the next one returns, and
changes no reference count. -/
def MapsQuietly (size : ℕ) (s : MmState PgState) : Prop :=
  ∀ k s', MappedOver P ndebug direct tmpmap ctxt va access flags s k s' → 4096 * k < size →
    ∀ f pg new, mmPgalloc P s'.vm.pg MM_PHYSICAL_MEMORY_TYPE_AVAILABLE = .ok (f, pg) → f ≠ 0 →
      ∃ r s'', mmMmap (pgPlatform P ndebug direct tmpmap) new (some ctxt)
        (pageArgs va k f access flags) (s'.setPg pg) = .ok (r, s'') ∧
          s''.vm.pg.refCount = pg.refCount

variable {P ndebug direct tmpmap ctxt access flags} {r : VRange} {k f : ℕ} {new : Option ℕ}
  {s s' : MmState PgState}

/-- The regions of a context end where they start or after. -/
def VmrsOk (t : OrdMap ℕ Vmr) : Prop := t.All fun k v => k ≤ lastByte (k, v)

/-- A page that the regions let through does not start one. -/
theorem find_eq_none_of_reaches (hr : r.InHalf) (hk : 4096 * k < r.size)
    (hok : VmrsOk (s.ctxts ctxt).vmrTree)
    (h : Reaches new (pageArgs r.vaddr k f access flags) (s.ctxts ctxt))
    (hkeep : keepsVmr (pageArgs r.vaddr k f access flags).toVRange
      (pageArgs r.vaddr k f access flags).flags = true) :
    (s.ctxts ctxt).vmrTree.find (pageArgs r.vaddr k f access flags).vaddr = none := by
  refine Option.eq_none_iff_forall_ne_some.mpr fun v hv => (h.2 hkeep).1 ?_
  have hfloor : pgFloor (r.vaddr + 4096 * k) = r.vaddr + 4096 * k := by
    have := hr.vaddr_dvd
    have := hr.half
    exact pgFloor_of_dvd (by omega) (by omega)
  have hsize : (s.ctxts ctxt).vmrTree.size ≠ 0 :=
    (length_pos_of_mem ((find_eq_some_iff _).mp hv)).ne'
  change (s.ctxts ctxt).vmrTree.find (r.vaddr + 4096 * k) = some v at hv
  rw [← hfloor] at hv
  exact ⟨hsize, .inl ⟨_, OrdMap.findMaxLteq_self _ hv, hok _ v hv⟩⟩

section

variable (h : Reserved direct (s.ctxts ctxt).pageTable r k s.vm.mem) (hr : r.InHalf)
  (hk : 4096 * k < r.size) (hremap : hasFlag flags MMAP_NO_REMAP = false)
  (hrc : hasFlag flags MMAP_NO_RC = false) (hok : VmrsOk (s.ctxts ctxt).vmrTree)

include h hr hk hremap hrc hok

/-- **A call that gets as far as `kh_mmap`** frees the null page and maps the page. -/
theorem Reserved.mmMmap_eq (hreach : Reaches new (pageArgs r.vaddr k f access flags) (s.ctxts ctxt))
    : ∃ (mem : Mem) (s' : MmState PgState), Reserved direct (s.ctxts ctxt).pageTable r (k + 1) mem ∧
      mmMmap (pgPlatform P ndebug direct tmpmap) new (some ctxt) (pageArgs r.vaddr k f access flags)
        s = (mmPgfree P s.vm.pg 0).map fun pg => (.ok, s'.setVm ⟨mem, pg, 0 :: s.vm.freed⟩) := by
  obtain ⟨state, hmm⟩ := mmMmap_of_reaches hreach
    (find_eq_none_of_reaches hr hk hok hreach)
  obtain ⟨mem, hres, hkh⟩ := h.map hr hk hremap hrc
  refine ⟨mem, state .ok, hres, ?_⟩
  rw [hmm, hkh]
  cases mmPgfree P s.vm.pg 0 <;> rfl

/-- **Mapping the next page of a reserved range** is quiet, if the null page is unused. -/
theorem Reserved.step (hzero : ZeroUnused P s.vm.pg) :
    ∃ res s', mmMmap (pgPlatform P ndebug direct tmpmap) new (some ctxt)
        (pageArgs r.vaddr k f access flags) s = .ok (res, s') ∧ s'.vm.pg = s.vm.pg ∧
      Reserved direct (s.ctxts ctxt).pageTable r (k + 1) s'.vm.mem := by
  by_cases hreach : Reaches new (pageArgs r.vaddr k f access flags) (s.ctxts ctxt)
  · obtain ⟨mem, s', hres, hmm⟩ := h.mmMmap_eq hr hk hremap hrc hok hreach
    obtain ⟨mad, hmad, href⟩ := hzero
    have hfree : mmPgfree P s.vm.pg 0 = .ok s.vm.pg := by
      simp only [mmPgfree, kiSetPageFree, hmad, href, if_true]
    rw [hmm, hfree]
    exact ⟨_, _, rfl, rfl, hres⟩
  · obtain ⟨res, s', hmm, hvm⟩ :=
      mmMmap_of_not_reaches hreach
    refine ⟨res, s', hmm, by rw [hvm], ?_⟩
    rw [hvm]
    exact ⟨h.tree, h.direct, h.last, fun q hq => h.pte q (by omega)⟩

/-- …and is not, otherwise. -/
theorem Reserved.zeroUnused
    (hreach : Reaches new (pageArgs r.vaddr k f access flags) (s.ctxts ctxt)) {res : KmResult}
    (hmm : mmMmap (pgPlatform P ndebug direct tmpmap) new (some ctxt)
      (pageArgs r.vaddr k f access flags) s = .ok (res, s'))
    (href : s'.vm.pg.refCount = s.vm.pg.refCount) : ZeroUnused P s.vm.pg := by
  obtain ⟨mem, s₁, -, hmm'⟩ := h.mmMmap_eq hr hk hremap hrc hok hreach
  rw [hmm'] at hmm
  rw [← mmPgfree_zero_iff]
  cases hpg : mmPgfree P s.vm.pg 0 with
  | error e =>
    rw [hpg] at hmm
    cases hmm
  | ok pg =>
    rw [hpg] at hmm
    cases hmm
    exact ⟨pg, rfl, href⟩

end

/-- What holds after any number of pages. -/
theorem MappedOver.reserved
    (hover : MappedOver P ndebug direct tmpmap ctxt r.vaddr access flags s k s') (hr : r.InHalf)
    (hsize : 4096 * k ≤ r.size) (hremap : hasFlag flags MMAP_NO_REMAP = false)
    (hrc : hasFlag flags MMAP_NO_RC = false) (hok : VmrsOk (s.ctxts ctxt).vmrTree)
    (hzero : ZeroUnused P s.vm.pg)
    (h : Reserved direct (s.ctxts ctxt).pageTable r 0 s.vm.mem) :
    (s'.ctxts ctxt).pageTable = (s.ctxts ctxt).pageTable ∧ VmrsOk (s'.ctxts ctxt).vmrTree ∧
      ZeroUnused P s'.vm.pg ∧ Reserved direct (s.ctxts ctxt).pageTable r k s'.vm.mem := by
  induction hover with
  | zero => exact ⟨rfl, hok, hzero, h⟩
  | @succ k f new s₁ s₂ pg res _ halloc hf hmm ih =>
    have hk : 4096 * k < r.size := by omega
    obtain ⟨hroot, hok₁, hzero₁, h₁⟩ := ih (by omega)
    have hzero₂ : ZeroUnused P (s₁.setPg pg).vm.pg := (zeroUnused_pgalloc_iff halloc hf).mpr hzero₁
    obtain ⟨res', s₂', hmm', hpg, h₂⟩ := Reserved.step (s := s₁.setPg pg) (hroot.symm ▸ h₁) hr hk
      hremap hrc hok₁ hzero₂
    obtain ⟨rfl, rfl⟩ := ok_mk_inj (hmm'.symm.trans hmm)
    have hnew : ∀ node, (pageArgs r.vaddr k f access flags).vaddr ≤ lastByte
        ((pageArgs r.vaddr k f access flags).vaddr, ⟨node, 4096, access⟩) := by
      have := hr.half
      simp only [lastByte, pageArgs]
      omega
    obtain ⟨hok₂, hroot₂⟩ := mmMmap_vmrTree hmm hok₁ hnew
    exact ⟨hroot₂.trans hroot, hok₂, hpg ▸ hzero₂, hroot ▸ h₂⟩

end Range

/-- **When a reserved range can be mapped page by page.**  Exactly when the memory map gives the
page at the address 0 a MAD, and nobody refers to that page.  That the range is reserved follows if
`kh_vmalloc` is given pages that are no tables; where areas overlap `mm_pgalloc` may hand out a page
twice, and it is assumed. -/
theorem mmMmap_reserved_iff {storage : ℕ} {entries : List MemmapEntry} {tree : OrdMap ℕ KiPmad}
    {v : VmallocArgs} {ctxt va : ℕ} {access flags : UInt32} {s : MmState PgState}
    {vm : VmState PgState} (hboot : hnMmInitPmadlist storage entries = .ok tree)
    (hareas : InitAreas tree P) (hmapped : hasFlag v.access MM_PAGE_MAPPED = true)
    (hvmalloc : khVmalloc (pgPlatform P ndebug direct tmpmap) v (s.ctxts ctxt).pageTable s.vm =
      .ok (va, vm)) (hva : va ≠ 0) (hrange : (⟨va, v.size⟩ : VRange).InHalf)
    (htables : Tree Entry.child s.vm.mem (s.ctxts ctxt).pageTable 3 ∧
        (∀ f, Table s.vm.mem (s.ctxts ctxt).pageTable f → direct f = true) ∧
        FreePages P direct (s.ctxts ctxt).pageTable s.vm.mem s.vm.pg ∨
      Reserved direct (s.ctxts ctxt).pageTable ⟨va, v.size⟩ 0 vm.mem)
    (hremap : hasFlag flags MMAP_NO_REMAP = false) (hrc : hasFlag flags MMAP_NO_RC = false)
    (hok : VmrsOk (s.ctxts ctxt).vmrTree)
    (hreach : ∃ f pg new, mmPgalloc P vm.pg MM_PHYSICAL_MEMORY_TYPE_AVAILABLE = .ok (f, pg) ∧
      f ≠ 0 ∧ Reaches new (pageArgs va 0 f access flags) (s.ctxts ctxt)) :
    MapsQuietly P ndebug direct tmpmap ctxt va access flags v.size (s.setVm vm) ↔
      (∃ entry ∈ entries, entry.CoversZero) ∧
        ∀ mad, khGetMad P 0 = .ok mad → vm.pg.refCount mad = 0 := by
  have hres : Reserved direct (s.ctxts ctxt).pageTable ⟨va, v.size⟩ 0 vm.mem := by
    rcases htables with ⟨htree, hdirect, hfree⟩ | hres
    · exact reserved_of_khVmalloc htree hdirect hfree hmapped hvmalloc hva hrange
    · exact hres
  have hzero : ((∃ entry ∈ entries, entry.CoversZero) ∧
      ∀ mad, khGetMad P 0 = .ok mad → vm.pg.refCount mad = 0) ↔ ZeroUnused P vm.pg := by
    rw [← khGetMad_zero_iff hboot hareas]
    constructor
    · rintro ⟨⟨mad, hmad⟩, h⟩
      exact ⟨mad, hmad, h mad hmad⟩
    · rintro ⟨mad, hmad, h⟩
      exact ⟨⟨mad, hmad⟩, fun mad' hmad' => Except.ok.inj (hmad.symm.trans hmad') ▸ h⟩
  rw [hzero]
  constructor
  · intro hquiet
    obtain ⟨f, pg, new, halloc, hf, hreach⟩ := hreach
    obtain ⟨r, s', hmm, href⟩ := hquiet 0 _ .zero hrange.size_pos f pg new halloc hf
    rw [← zeroUnused_pgalloc_iff halloc hf]
    exact Reserved.zeroUnused (s := (s.setVm vm).setPg pg) hres hrange
      hrange.size_pos hremap hrc hok hreach hmm href
  · intro hzero k s' hover hk f pg new halloc hf
    obtain ⟨hroot, hok', hzero', h'⟩ := MappedOver.reserved (r := ⟨va, v.size⟩) hover hrange hk.le
      hremap hrc hok hzero hres
    obtain ⟨res, s'', hmm, hpg, -⟩ := Reserved.step (s := s'.setPg pg)
      (hroot.symm ▸ h') hrange hk hremap hrc hok' ((zeroUnused_pgalloc_iff halloc hf).mpr hzero')
    exact ⟨res, s'', hmm, by rw [hpg]; rfl⟩

/-! ## Two memory maps -/

/-- The MADs of two pages of usable memory. -/
def usableMads : OrdMap ℕ ℕ := ⟨[(0x1000, 1), (0x2000, 2)], by decide⟩

/-- The page at the address 0, if `zero`, and two pages of usable memory. -/
def bootMap (zero : Bool) : List MemmapEntry :=
  [if zero then ⟨0, 0x3000, .usable⟩ else ⟨0x1000, 0x2000, .usable⟩]

/-- The areas of `bootMap`; the MAD of a page has its number. -/
def bootPages : Bool → PmadTree
  | true =>
    { tree := ⟨[(0, ⟨0x1000, 1, ⟨[(0, 0)], by decide⟩⟩),
      (0x1000, ⟨0x2000, 0, usableMads⟩)], by simp⟩
      rbValue := (· * 0x1000)
      home := fun mad => if mad = 0 then 0 else 0x1000
      rbValue_of_find := @forall_find _ _ (by decide)
      home_of_find := @forall_find _ _ (by decide) }
  | false =>
    { tree := ⟨[(0x1000, ⟨0x2000, 0, usableMads⟩)], by simp⟩
      rbValue := (· * 0x1000)
      home := fun _ => 0x1000
      rbValue_of_find := @forall_find _ _ (by decide)
      home_of_find := @forall_find _ _ (by decide) }

theorem usableMads_isSome (addr : ℕ) : (usableMads.find addr).isSome = true ↔
    (0 : UInt8) ≠ MM_PHYSICAL_MEMORY_TYPE_CRITICAL ∧
      ∃ i, addr = 0x1000 + i * 4096 ∧ addr < (0x1000 + 0x2000) % 2 ^ 64 := by
  have hkeys : usableMads.keys = [0x1000, 0x2000] := rfl
  rw [Option.isSome_iff_exists, ← mem_keys_iff, hkeys]
  simp only [mem_cons, not_mem_nil, or_false]
  constructor
  · rintro (rfl | rfl)
    · exact ⟨by decide, 0, rfl, by decide⟩
    · exact ⟨by decide, 1, rfl, by decide⟩
  · rintro ⟨-, i, rfl, h⟩
    omega

theorem initAreas_bootPages (zero : Bool) : ∃ tree,
    hnMmInitPmadlist 16 (bootMap zero) = .ok tree ∧ InitAreas tree (bootPages zero) := by
  cases zero with
  | true =>
    refine ⟨⟨[(0, ⟨0x1000, 1, OrdMap.empty⟩),
      (0x1000, ⟨0x2000, 0, OrdMap.empty⟩)], by simp⟩, by rfl,
      fun area => ?_, fun {area pmad} hfind addr => ?_⟩
    · rw [← find_mapVal, ← find_mapVal]
      rfl
    · simp only [bootPages, find_eq_some_iff, mem_cons, not_mem_nil,
        or_false] at hfind
      obtain ⟨rfl, rfl⟩ | ⟨rfl, rfl⟩ := hfind
      · rw [Option.isSome_iff_exists, ← mem_keys_iff]
        simp only [OrdMap.keys, map_cons, map_nil, mem_singleton]
        constructor
        · rintro rfl
          exact ⟨by decide, 0, rfl, by decide⟩
        · rintro ⟨-, i, rfl, h⟩
          omega
      · exact usableMads_isSome addr
  | false =>
    refine ⟨⟨[(0x1000, ⟨0x2000, 0, OrdMap.empty⟩)], by simp⟩, by rfl, fun area => ?_,
      fun {area pmad} hfind addr => ?_⟩
    · rw [← find_mapVal, ← find_mapVal]
      rfl
    · simp only [bootPages, find_eq_some_iff, mem_singleton] at hfind
      obtain ⟨rfl, rfl⟩ := hfind
      exact usableMads_isSome addr

/-- The page tables of one page of kernel addresses. -/
def kernelTables : Mem := fun f i =>
  if f = 0x100 ∧ i = 256 then tableEntry 0x101
  else if f = 0x101 ∧ i = 0 then tableEntry 0x102
  else if f = 0x102 ∧ i = 0 then tableEntry 0x103
  else Entry.zero

theorem path_kernelTables {π : List (Fin 512)} {f : Frame}
    (h : path kernelTables 0x100 π = some f) : (π = [] ∧ f = 0x100) ∨ (π = [256] ∧ f = 0x101) ∨
      (π = [256, 0] ∧ f = 0x102) ∨ (π = [256, 0, 0] ∧ f = 0x103) := by
  induction π using List.reverseRecOn generalizing f with
  | nil => exact .inl ⟨rfl, (Option.some.inj h).symm⟩
  | append_singleton π i ih =>
    obtain ⟨g, hg, hi, rfl⟩ := path_concat_eq_some h
    have hentry : (kernelTables g i).present = false ∨ (g = 0x100 ∧ i = 256) ∨
        (g = 0x101 ∧ i = 0) ∨ (g = 0x102 ∧ i = 0) := by
      unfold kernelTables
      split_ifs with h1 h2 h3
      · exact .inr (.inl h1)
      · exact .inr (.inr (.inl h2))
      · exact .inr (.inr (.inr h3))
      · exact .inl (by decide)
    obtain hno | ⟨rfl, rfl⟩ | ⟨rfl, rfl⟩ | ⟨rfl, rfl⟩ := hentry
    · exact absurd hi (by simp [hno])
    all_goals
      obtain ⟨rfl, hf⟩ | ⟨rfl, hf⟩ | ⟨rfl, hf⟩ | ⟨rfl, hf⟩ := ih hg <;>
        first | exact absurd hf (by decide) | decide +kernel

theorem tree_kernelTables : Tree Entry.child kernelTables 0x100 3 := by
  intro π ρ f _ _ hπ hρ
  obtain ⟨rfl, rfl⟩ | ⟨rfl, rfl⟩ | ⟨rfl, rfl⟩ | ⟨rfl, rfl⟩ := path_kernelTables hπ <;>
  obtain ⟨rfl, hf⟩ | ⟨rfl, hf⟩ | ⟨rfl, hf⟩ | ⟨rfl, hf⟩ := path_kernelTables hρ <;>
    first | rfl | exact absurd hf (by decide)

/-- The kernel's tables; of the two usable pages the first is free, and `refs` is the number of
references to the page at the address 0. -/
def atBoot (refs : ℕ) : MmState PgState where
  ctxts _ := ⟨0x100, OrdMap.empty, []⟩
  vm := ⟨kernelTables,
    { freeList := fun b => if b = 0x1000 then some 1 else none
      nextFree := fun _ => none
      prevFree := fun _ => none
      refCount := fun mad => if mad = 0 then refs else if mad = 1 then 0 else 1 }, []⟩

/-- The platform of `bootMap`, with all of memory in the direct map. -/
def bootPlatform (zero : Bool) : Platform PgState :=
  pgPlatform (bootPages zero) false (fun _ => true) fun _ => .ok

/-- One page of kernel addresses. -/
def onePageAt : VmallocArgs := ⟨0xffff800000000000, 0xffff800000010000, 0x1000, 0x7, 0⟩

/-- Reserve a page and map a fresh frame over it: the page, what `mm_mmap` returns, and the
references to the page at the address 0 afterwards. -/
def reserveAndMap (zero : Bool) (refs : ℕ) : Except Fault (ℕ × KmResult × ℕ) := do
  let (va, vm) ← khVmalloc (bootPlatform zero) onePageAt 0x100 (atBoot refs).vm
  let (f, pg) ← mmPgalloc (bootPages zero) vm.pg MM_PHYSICAL_MEMORY_TYPE_AVAILABLE
  let (r, s) ← mmMmap (bootPlatform zero) none (some 0) (pageArgs va 0 f 0x7 0)
    (((atBoot refs).setVm vm).setPg pg)
  .ok (va, r, s.vm.pg.refCount 0)

theorem freePages_atBoot (refs : ℕ) : FreePages (bootPages true) (fun _ => true) 0x100
    (atBoot refs).vm.mem (atBoot refs).vm.pg := by
  have hmem : ∀ {area mad}, mad ∈ (if area = 0x1000 then [1] else []) → area = 0x1000 ∧
    mad = 1 := by
    intro area mad h
    split at h
    · exact ⟨‹_›, mem_singleton.mp h⟩
    · cases h
  refine ⟨fun b => if b = 0x1000 then [1] else [], ⟨fun area => ⟨none, ⟨fun _ => ?_, ?_, ?_,
    fun m hm => ?_, fun m hm => ?_⟩, by simp⟩, fun _ _ _ _ => ⟨rfl, by simp [atBoot]⟩,
    fun _ m hm => ?_⟩, fun _ _ hm => ?_, fun _ _ _ => rfl, fun _ _ hm => ?_⟩
  · simp only [atBoot]
    split <;> rfl
  · split <;> simp [DList.Chain, atBoot]
  · split <;> simp
  · obtain ⟨rfl, rfl⟩ := hmem hm
    exact ⟨_, rfl, 0x1000, rfl⟩
  · obtain ⟨rfl, rfl⟩ := hmem hm
    rfl
  · obtain ⟨rfl, rfl⟩ := hmem hm
    rfl
  · obtain ⟨rfl, rfl⟩ := hmem hm
    exact ⟨by decide, by decide⟩
  · obtain ⟨rfl, rfl⟩ := hmem hm
    rintro ⟨π, -, hπ⟩
    obtain ⟨-, hf⟩ | ⟨-, hf⟩ | ⟨-, hf⟩ | ⟨-, hf⟩ := path_kernelTables hπ <;>
      exact absurd hf (by decide)

theorem mmMmap_reserved_atBoot : ∃ vm,
    khVmalloc (bootPlatform true) onePageAt 0x100 (atBoot 0).vm = .ok (0xffff800000000000, vm) ∧
      MapsQuietly (bootPages true) false (fun _ => true) (fun _ => .ok) 0 0xffff800000000000 0x7 0
        0x1000 ((atBoot 0).setVm vm) := by
  obtain ⟨va, vm, hv, rfl, hrefs, f, pg, ha, rfl⟩ : ∃ va vm,
      khVmalloc (bootPlatform true) onePageAt 0x100 (atBoot 0).vm = .ok (va, vm) ∧
      va = 0xffff800000000000 ∧ vm.pg.refCount 0 = 0 ∧
      ∃ f pg, mmPgalloc (bootPages true) vm.pg 0 = .ok (f, pg) ∧ f = 0x1000 := by decide +kernel
  obtain ⟨tree, hboot, hareas⟩ := initAreas_bootPages true
  refine ⟨vm, hv, (mmMmap_reserved_iff (s := atBoot 0) hboot hareas (by decide) hv (by decide)
    ⟨by decide, by decide, by decide, by decide⟩
    (.inl ⟨tree_kernelTables, fun _ _ => rfl, freePages_atBoot 0⟩) (by decide) (by decide) all_empty
    ⟨0x1000, pg, none, ha, by decide, by decide, by decide⟩).mpr
    ⟨⟨⟨0, 0x3000, .usable⟩, mem_singleton.mpr rfl, rfl, trivial⟩, fun mad hmad => ?_⟩⟩
  obtain rfl : mad = 0 := (Except.ok.inj hmad).symm
  exact hrefs

/-- Where no area covers the address 0 the kernel panics; where someone refers to the page there,
the reference is lost. -/
theorem mmMmap_reserved_panics :
    ((∃ tree, hnMmInitPmadlist 16 (bootMap false) = .ok tree ∧ InitAreas tree (bootPages false)) ∧
      reserveAndMap false 0 = .error (.panic "No PMAD corresponds to physical address %p" [0])) ∧
    (∃ tree, hnMmInitPmadlist 16 (bootMap true) = .ok tree ∧ InitAreas tree (bootPages true)) ∧
      reserveAndMap true 1 = .ok (0xffff800000000000, .ok, 0) := by
  refine ⟨⟨initAreas_bootPages false, ?_⟩, initAreas_bootPages true, ?_⟩ <;> decide +kernel

end Pbos.Mm
