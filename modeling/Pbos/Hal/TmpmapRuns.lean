import Pbos.Hal.TmpmapEarly

/-!
# Hal/TmpmapRuns — sequences of early windows

Which windows of `mm_kernel_init_tmpmap_area` are in use is written nowhere but into its PTEs.
`Held` says how the PTEs and the windows a caller holds belong together; `hn_tmpmap_early` and
`hn_tmpunmap_early` keep it (`Held.map`, `Held.unmap`), and with it everything the callers rely on
(`Held.good`).
-/

namespace Pbos.Hal

open Radix KernelImage List

/-- The tables, the windows that are mapped, and those that were unmapped. -/
structure EarlyState where
  mem : Mem
  live : List Window
  freed : List Window

/-- The page is one of the window's. -/
def Window.Covers (w : Window) (p : ℕ) : Prop := w.vaddr ≤ kaddr p ∧ kaddr p < w.vaddr + w.size

section Model

variable (K : KernelImage)

def TmpCall.runEarly : TmpCall → EarlyState → Except Fault EarlyState
  | map paddr size mask, s => (K.hnTmpmapEarly paddr size mask s.mem).map fun r =>
    { s with mem := r.2, live := ⟨r.1, size, paddr⟩ :: s.live }
  | unmap w, s => (K.hnTmpunmapEarly w.vaddr w.size s.mem).map fun mem =>
    { mem, live := s.live.erase w, freed := w :: s.freed }

/-- What the callers of the functions have to see to. -/
def TmpCall.LegalEarly (s : EarlyState) : TmpCall → Prop
  | map paddr size mask => paddr % 4096 = 0 ∧ 0 < size ∧ size % 4096 = 0 ∧ mask &&& PTE_P ≠ 0
  | unmap w => w ∈ s.live

/-- A sequence of calls. -/
def earlyRuns (cs : List TmpCall) (s : EarlyState) : Except Fault EarlyState :=
  cs.foldlM (fun s c => c.runEarly K s) s

/-- Every call is legal when it is made. -/
def LegalEarlyRun (cs : List TmpCall) (s : EarlyState) : Prop :=
  ∀ cs₁ c cs₂ s', cs = cs₁ ++ c :: cs₂ → earlyRuns K cs₁ s = .ok s' → c.LegalEarly s'

/-- **What has to hold between two calls**, `mem` being the memory at the start. -/
structure EarlyState.Good (mem : Mem) (s : EarlyState) : Prop where
  disjoint : s.live.Pairwise Window.Apart
  inside : ∀ w ∈ s.live, K.area ≤ w.vaddr ∧ w.vaddr + w.size ≤ K.areaEnd
  translates : ∀ w ∈ s.live, ∀ j, 4096 * j < w.size → ∃ e,
    mapping s.mem K.pml4t (pageNo (w.vaddr + 4096 * j)) = some e ∧
      e.address = pgRoundDown (w.paddr + 4096 * j)
  /-- Every other kernel page is mapped as it was. -/
  mapped : ∀ p, basePage ≤ p → p < 2 ^ 36 → (∀ w ∈ s.live, ¬ w.Covers p) →
    mapping s.mem K.pml4t p = mapping mem K.pml4t p
  /-- A PTE that no window has been given is as it was. -/
  others : ∀ p, basePage ≤ p → p < 2 ^ 36 → (∀ w ∈ s.live ++ s.freed, ¬ w.Covers p) →
    K.pte s.mem p = K.pte mem p
  /-- Nothing but page tables is written. -/
  tables : ∀ f, ¬ K.IsPtt f → s.mem f = mem f

/-- There are no `n` consecutive absent pages in the area. -/
def NoRun (mem : Mem) (n : ℕ) : Prop :=
  ∀ k, K.firstPage ≤ k → k + n ≤ K.firstPage + 256 → ¬ K.FreeRun mem k n

end Model

/-! ## The invariant -/

/-- **The PTEs of the area are those of the windows**, and no others were changed. -/
structure Held (K : KernelImage) (mem : Mem) (s : EarlyState) : Prop where
  windows : ∀ w ∈ s.live, ∃ k n, 0 < n ∧ K.firstPage ≤ k ∧ k + n ≤ K.firstPage + 256 ∧
    w.vaddr = kaddr k ∧ w.size = 4096 * n ∧ ∀ j < n, (K.pte s.mem (k + j)).present = true ∧
      (K.pte s.mem (k + j)).address = pgRoundDown (w.paddr + 4096 * j)
  disjoint : s.live.Pairwise Window.Apart
  absent : ∀ p, K.firstPage ≤ p → p < K.firstPage + 256 → (∀ w ∈ s.live, ¬ w.Covers p) →
    (K.pte s.mem p).present = false
  outside : ∀ p, basePage ≤ p → p < 2 ^ 36 → (p < K.firstPage ∨ K.firstPage + 256 ≤ p) →
    K.pte s.mem p = K.pte mem p
  others : ∀ p, basePage ≤ p → p < 2 ^ 36 → (∀ w ∈ s.live ++ s.freed, ¬ w.Covers p) →
    K.pte s.mem p = K.pte mem p
  tables : ∀ f, ¬ K.IsPtt f → s.mem f = mem f

section Steps

variable {K : KernelImage} {mem : Mem} {s : EarlyState} {w : Window} {k n p paddr : ℕ}
  {mask : BitVec 16}

theorem covers_iff (hv : w.vaddr = kaddr k) (hz : w.size = 4096 * n) :
    w.Covers p ↔ k ≤ p ∧ p < k + n := by
  rw [Window.Covers, hv, kaddr, kaddr]
  omega

/-- Windows that share no page are apart. -/
theorem apart_of_pages {w' : Window} {k' n' : ℕ} (hv : w.vaddr = kaddr k) (hz : w.size = 4096 * n)
    (hv' : w'.vaddr = kaddr k') (hz' : w'.size = 4096 * n')
    (h : ∀ p, k ≤ p → p < k + n → k' ≤ p → ¬ p < k' + n') : w.Apart w' := by
  intro x h1 h2 h3 h4
  rw [hv, kaddr] at h1 h2
  rw [hv', kaddr] at h3 h4
  exact h ((x - 0xffff000000000000) / 4096) (by omega) (by omega) (by omega) (by omega)

theorem Held.linked (h : Held K mem s) (hlink : K.Linked mem) : K.Linked s.mem :=
  hlink.congr h.tables

/-- A page of a window is present. -/
theorem Held.present (h : Held K mem s) (hw : w ∈ s.live) (hp : w.Covers p) :
    (K.pte s.mem p).present = true := by
  obtain ⟨k, n, -, -, -, hv, hz, hpages⟩ := h.windows w hw
  obtain ⟨hk, hkn⟩ := (covers_iff hv hz).mp hp
  have := (hpages (p - k) (by omega)).1
  rwa [Nat.add_sub_cancel' hk] at this

/-- **A window is mapped.** -/
theorem Held.map (h : Held K mem s) (hn : 0 < n) (hk : K.firstPage ≤ k)
    (hkn : k + n ≤ K.firstPage + 256) (hrun : K.FreeRun s.mem k n) (hmask : mask &&& PTE_P ≠ 0) :
    Held K mem { s with
      mem := K.aimed s.mem k n paddr mask, live := ⟨kaddr k, 4096 * n, paddr⟩ :: s.live } := by
  obtain ⟨-, hbase, htop⟩ := area_eq K
  have hpte : ∀ p, basePage ≤ p → p < 2 ^ 36 → K.pte (K.aimed s.mem k n paddr mask) p =
      if k ≤ p ∧ p < k + n then (K.pte s.mem p).aim mask (paddr + 4096 * (p - k))
      else K.pte s.mem p := fun p hp hp' => pte_editPtes (by omega) (by omega) hp hp'
  have hother : ∀ w ∈ s.live, ∀ p, w.Covers p → ¬ (k ≤ p ∧ p < k + n) := by
    rintro w hw p hcov ⟨hp, hp'⟩
    have := h.present hw hcov
    rw [hrun p hp hp'] at this
    cases this
  have hnew : ∀ p, Window.Covers ⟨kaddr k, 4096 * n, paddr⟩ p ↔ k ≤ p ∧ p < k + n := fun p =>
    covers_iff rfl rfl
  constructor
  case windows =>
    intro w hw
    obtain rfl | hw := mem_cons.mp hw
    · refine ⟨k, n, hn, hk, hkn, rfl, rfl, fun j hj => ?_⟩
      rw [hpte _ (by omega) (by omega), if_pos (by omega), Nat.add_sub_cancel_left]
      exact ⟨present_of_mask hmask rfl, rfl⟩
    · obtain ⟨k', n', hn', hk', hkn', hv, hz, hpages⟩ := h.windows w hw
      refine ⟨k', n', hn', hk', hkn', hv, hz, fun j hj => ?_⟩
      have hout := hother w hw (k' + j) ((covers_iff hv hz).mpr (by omega))
      rw [hpte _ (by omega) (by omega), if_neg hout]
      exact hpages j hj
  case disjoint =>
    refine pairwise_cons.mpr ⟨fun w hw => ?_, h.disjoint⟩
    obtain ⟨k', n', -, -, -, hv, hz, -⟩ := h.windows w hw
    refine apart_of_pages rfl rfl hv hz fun p h1 h2 h3 h4 => ?_
    exact hother w hw p ((covers_iff hv hz).mpr ⟨h3, h4⟩) ⟨h1, h2⟩
  case absent =>
    intro p hp hp' hcov
    have hout := (hnew p).not.mp (hcov _ mem_cons_self)
    rw [hpte _ (by omega) (by omega), if_neg hout]
    exact h.absent p hp hp' fun w hw => hcov w (mem_cons_of_mem _ hw)
  case outside =>
    intro p hp hp' hout
    rw [hpte _ hp hp', if_neg (by omega)]
    exact h.outside p hp hp' hout
  case others =>
    intro p hp hp' hcov
    have hout := (hnew p).not.mp (hcov _ mem_cons_self)
    rw [hpte _ hp hp', if_neg hout]
    exact h.others p hp hp' fun w hw => hcov w (mem_cons_of_mem _ hw)
  case tables =>
    intro f hf
    exact (editPtes_of_not_isPtt (by omega) hf).trans (h.tables f hf)

theorem clear_present (e : Entry) : (clear e).present = false := by
  have h : (~~~PTE_P.setWidth 12).setWidth 16 &&& PTE_P = 0 := by decide
  rw [Entry.present, Entry.has, clear, BitVec.setWidth_and, BitVec.and_assoc, h]
  simp

/-- **A window is unmapped.** -/
theorem Held.unmap (h : Held K mem s) (hw : w ∈ s.live) (hk : K.firstPage ≤ k)
    (hkn : k + n ≤ K.firstPage + 256) (hv : w.vaddr = kaddr k) (hz : w.size = 4096 * n) :
    Held K mem ⟨K.cleared s.mem k n, s.live.erase w, w :: s.freed⟩ := by
  obtain ⟨-, hbase, htop⟩ := area_eq K
  have hpte : ∀ p, basePage ≤ p → p < 2 ^ 36 → K.pte (K.cleared s.mem k n) p =
      if k ≤ p ∧ p < k + n then clear (K.pte s.mem p) else K.pte s.mem p :=
    fun p hp hp' => pte_editPtes (by omega) (by omega) hp hp'
  have hcovw : ∀ p, w.Covers p ↔ k ≤ p ∧ p < k + n := fun p => covers_iff hv hz
  have hperm := perm_cons_erase hw
  have hdisj : (w :: s.live.erase w).Pairwise Window.Apart :=
    h.disjoint.perm hperm fun hap x h1 h2 h3 h4 => hap x h3 h4 h1 h2
  obtain ⟨hapart, hrest⟩ := pairwise_cons.mp hdisj
  constructor
  case windows =>
    intro w' hw'
    obtain ⟨k', n', hn', hk', hkn', hv', hz', hpages⟩ := h.windows w' (mem_of_mem_erase hw')
    refine ⟨k', n', hn', hk', hkn', hv', hz', fun j hj => ?_⟩
    have hout : ¬ (k ≤ k' + j ∧ k' + j < k + n) := by
      rw [← hcovw]
      intro hc
      have hc' := (covers_iff hv' hz').mpr ⟨Nat.le_add_right k' j, by omega⟩
      exact hapart w' hw' (kaddr (k' + j)) hc.1 hc.2 hc'.1 hc'.2
    rw [hpte _ (by omega) (by omega), if_neg hout]
    exact hpages j hj
  case disjoint => exact hrest
  case absent =>
    intro p hp hp' hcov
    rw [hpte _ (by omega) (by omega)]
    split
    · exact clear_present _
    · rename_i hout
      refine h.absent p hp hp' fun w' hw' => ?_
      obtain rfl | hw' := mem_cons.mp (hperm.mem_iff.mp hw')
      · exact (hcovw p).not.mpr hout
      · exact hcov w' hw'
  case outside =>
    intro p hp hp' hout
    rw [hpte _ hp hp', if_neg (by omega)]
    exact h.outside p hp hp' hout
  case others =>
    intro p hp hp' hcov
    have hout := (hcovw p).not.mp (hcov w (mem_append_right _ mem_cons_self))
    rw [hpte _ hp hp', if_neg hout]
    refine h.others p hp hp' fun w' hw' => ?_
    obtain hw' | hw' := mem_append.mp hw'
    · obtain rfl | hw' := mem_cons.mp (hperm.mem_iff.mp hw')
      · exact (hcovw p).not.mpr hout
      · exact hcov w' (mem_append_left _ hw')
    · exact hcov w' (mem_append_right _ (mem_cons_of_mem _ hw'))
  case tables =>
    intro f hf
    exact (editPtes_of_not_isPtt (by omega) hf).trans (h.tables f hf)

/-- **The callers get what they rely on.** -/
theorem Held.good (h : Held K mem s) (hlink : K.Linked mem)
    (hfree : ∀ p, K.firstPage ≤ p → p < K.firstPage + 256 → (K.pte mem p).present = false) :
    s.Good K mem := by
  obtain ⟨harea, hbase, htop⟩ := area_eq K
  have hlink' := h.linked hlink
  refine ⟨h.disjoint, fun w hw => ?_, fun w hw j hj => ?_, fun p hp hp' hcov => ?_, h.others,
    h.tables⟩
  · obtain ⟨k, n, -, hk, hkn, hv, hz, -⟩ := h.windows w hw
    rw [areaEnd_eq, harea, hv, kaddr, kaddr, kaddr]
    omega
  · obtain ⟨k, n, -, hk, hkn, hv, hz, hpages⟩ := h.windows w hw
    have hpage : pageNo (w.vaddr + 4096 * j) = k + j := by
      rw [hv, show kaddr k + 4096 * j = kaddr (k + j) by simp only [kaddr]; omega]
      exact pageNo_kaddr (by omega)
    obtain ⟨hpresent, haddr⟩ := hpages j (by omega)
    refine ⟨_, ?_, haddr⟩
    rw [hpage, hlink'.mapping_eq (by omega) (by omega), Option.filter_some, if_pos hpresent]
  · rw [hlink'.mapping_eq hp hp', hlink.mapping_eq hp hp']
    by_cases hin : K.firstPage ≤ p ∧ p < K.firstPage + 256
    · rw [Option.filter_some, Option.filter_some, h.absent p hin.1 hin.2 hcov, hfree p hin.1 hin.2]
      rfl
    · rw [h.outside p hp hp' (by omega)]

end Steps

/-! ## Sequences -/

section Runs

variable {K : KernelImage} {mem : Mem} {cs : List TmpCall} {c : TmpCall} {s : EarlyState}

theorem earlyRuns_concat : earlyRuns K (cs ++ [c]) s = earlyRuns K cs s >>= c.runEarly K := by
  simp [earlyRuns]

theorem LegalEarlyRun.init (h : LegalEarlyRun K (cs ++ [c]) s) : LegalEarlyRun K cs s :=
  fun cs₁ c' cs₂ s' hcs hrun => h cs₁ c' (cs₂ ++ [c]) s' (by rw [hcs]; simp) hrun

/-- **One call.**  It keeps the invariant, or there is no room for the window. -/
theorem Held.step (h : Held K mem s) (hlink : K.Linked mem)
    (hend : (K.pte mem (K.firstPage + 256)).present = true) (hc : c.LegalEarly s) :
    (∃ s', c.runEarly K s = .ok s' ∧ Held K mem s') ∨
      ∃ paddr size mask msg, c = .map paddr size mask ∧ c.runEarly K s = .error (.panic msg []) ∧
        NoRun K s.mem (size / 4096) := by
  obtain ⟨-, hbase, htop⟩ := area_eq K
  cases c with
  | map paddr size mask =>
    obtain ⟨hp, hpos, hsize, hmask⟩ := hc
    obtain ⟨n, rfl⟩ : ∃ n, size = 4096 * n := ⟨size / 4096, by omega⟩
    have hn : 0 < n := by omega
    have hbehind : (K.pte s.mem (K.firstPage + 256)).present = true := by
      rw [h.outside _ (by omega) (by omega) (.inr le_rfl)]
      exact hend
    obtain ⟨k, hk, hkn, hrun, heq⟩ | ⟨hno, msg, heq⟩ :=
      hnTmpmapEarly_cases (h.linked hlink) hbehind hn hp hmask
    · exact .inl ⟨_, by rw [TmpCall.runEarly, heq]; rfl, h.map hn hk hkn hrun hmask⟩
    · refine .inr ⟨paddr, _, mask, msg, rfl, by rw [TmpCall.runEarly, heq]; rfl, ?_⟩
      rw [Nat.mul_div_cancel_left _ (by decide)]
      exact hno
  | unmap w =>
    obtain ⟨k, n, hn, hk, hkn, hv, hz, -⟩ := h.windows w hc
    have heq : K.hnTmpunmapEarly (kaddr k) (4096 * n) s.mem = .ok (K.cleared s.mem k n) :=
      hnTmpunmapEarly_eq (hbase.trans hk) (by omega) hn
    exact .inl ⟨_, by rw [TmpCall.runEarly, hv, hz, heq]; rfl, h.unmap hc hk hkn hv hz⟩

/-- **Any sequence of calls**, up to one there is no room for. -/
theorem held_runs (hlink : K.Linked mem)
    (hfree : ∀ p, K.firstPage ≤ p → p < K.firstPage + 256 → (K.pte mem p).present = false)
    (hend : (K.pte mem (K.firstPage + 256)).present = true)
    (hlegal : LegalEarlyRun K cs ⟨mem, [], []⟩) :
    (∃ s, earlyRuns K cs ⟨mem, [], []⟩ = .ok s ∧ Held K mem s) ∨
      ∃ cs₁ paddr size mask cs₂ s msg, cs = cs₁ ++ .map paddr size mask :: cs₂ ∧
        earlyRuns K cs₁ ⟨mem, [], []⟩ = .ok s ∧ Held K mem s ∧
        (TmpCall.map paddr size mask).runEarly K s = .error (.panic msg []) ∧
        NoRun K s.mem (size / 4096) := by
  induction cs using List.reverseRecOn with
  | nil =>
    refine .inl ⟨_, rfl, nofun, .nil, fun p hp hp' _ => hfree p hp hp', ?_, ?_, ?_⟩
    · exact fun _ _ _ _ => rfl
    · exact fun _ _ _ _ => rfl
    · exact fun _ _ => rfl
  | append_singleton cs c ih =>
    obtain ⟨s, hs, hheld⟩ | ⟨cs₁, paddr, size, mask, cs₂, s, msg, rfl, hrest⟩ := ih hlegal.init
    · obtain ⟨s', hs', hheld'⟩ | ⟨paddr, size, mask, msg, rfl, hpanic, hno⟩ :=
        hheld.step hlink hend (hlegal cs c [] s rfl hs)
      · refine .inl ⟨s', ?_, hheld'⟩
        rw [earlyRuns_concat, hs]
        exact hs'
      · exact .inr ⟨cs, paddr, size, mask, [], s, msg, rfl, hs, hheld, hpanic, hno⟩
    · exact .inr ⟨cs₁, paddr, size, mask, cs₂ ++ [c], s, msg, by simp, hrest⟩

theorem tmpmapEarly_runs {K : KernelImage} {mem : Mem} {cs : List TmpCall} (hlink : K.Linked mem)
    (hfree : ∀ p, K.firstPage ≤ p → p < K.firstPage + 256 → (K.pte mem p).present = false)
    (hend : (K.pte mem (K.firstPage + 256)).present = true)
    (hlegal : LegalEarlyRun K cs ⟨mem, [], []⟩) :
    (∃ s, earlyRuns K cs ⟨mem, [], []⟩ = .ok s ∧ s.Good K mem) ∨
      ∃ cs₁ paddr size mask cs₂ s msg, cs = cs₁ ++ .map paddr size mask :: cs₂ ∧
        earlyRuns K cs₁ ⟨mem, [], []⟩ = .ok s ∧ s.Good K mem ∧
        (TmpCall.map paddr size mask).runEarly K s = .error (.panic msg []) ∧
        NoRun K s.mem (size / 4096) := by
  obtain ⟨s, hs, hheld⟩ | ⟨cs₁, paddr, size, mask, cs₂, s, msg, hcs, hs, hheld, hpanic, hno⟩ :=
    held_runs hlink hfree hend hlegal
  · exact .inl ⟨s, hs, hheld.good hlink hfree⟩
  · exact .inr ⟨cs₁, paddr, size, mask, cs₂, s, msg, hcs, hs, hheld.good hlink hfree, hpanic, hno⟩

end Runs

/-! ## Two windows -/

/-- An image whose area starts at `KERNEL_VBASE`. -/
def image : KernelImage where
  pml4t := 1
  pdpt := 2
  pdt := 3
  ptt := 16
  area := KERNEL_VBASE
  apart j hj := by
    refine ⟨?_, ?_, fun m hm => ?_⟩
    all_goals
      intro h
      have := congrArg BitVec.toNat h
      simp only [BitVec.ofNat_eq_ofNat, BitVec.toNat_add, BitVec.toNat_ofNat] at this
      omega
  area_dvd := by decide
  area_ge := le_rfl
  area_le := by decide

/-- Its tables, with nothing mapped but the page behind the area. -/
def imageMem : Mem := fun f i =>
  if f = 1 ∧ i = 511 then ⟨PTE_P.setWidth 12, 2, false⟩
  else if f = 2 ∧ 510 ≤ i then ⟨PTE_P.setWidth 12, 3 + BitVec.ofNat 40 (i - 510), false⟩
  else if f = 3 then ⟨PTE_P.setWidth 12, 16 + BitVec.ofNat 40 i, false⟩
  else if f = 4 then ⟨PTE_P.setWidth 12, 16 + BitVec.ofNat 40 (512 + i), false⟩
  else if f = 16 ∧ i = 256 then ⟨PTE_P.setWidth 12, 0, false⟩
  else Entry.zero

theorem linked_imageMem : image.Linked imageMem where
  pml4e := by decide
  pdpte i hi hi' := by
    obtain rfl | rfl : i = 510 ∨ i = 511 := by omega
    all_goals decide
  pde j hj := by
    have hpdt : elem imageMem image.pdt j = ⟨PTE_P.setWidth 12, 16 + BitVec.ofNat 40 j, false⟩ := by
      obtain hlt | ⟨m, hm, rfl⟩ : j < 512 ∨ ∃ m < 512, j = 512 + m :=
        (Nat.lt_or_ge j 512).imp_right fun h => ⟨j - 512, by omega, by omega⟩
      · rw [elem, Nat.div_eq_of_lt hlt]
        change Entry.mk _ (16 + BitVec.ofNat 40 (j % 512)) _ = _
        rw [Nat.mod_eq_of_lt hlt]
      · rw [elem, show (512 + m) / 512 = 1 by omega]
        change Entry.mk _ (16 + BitVec.ofNat 40 (512 + (512 + m) % 512)) _ = _
        rw [show (512 + m) % 512 = m by omega]
    have hmask : PTE_P &&& PTE_P ≠ 0 := by decide
    rw [hpdt]
    exact ⟨present_of_mask hmask rfl, rfl⟩

/-- The pages of the area are absent, and the one behind it is present. -/
theorem area_imageMem : (∀ p, image.firstPage ≤ p → p < image.firstPage + 256 →
    (image.pte imageMem p).present = false) ∧
    (image.pte imageMem (image.firstPage + 256)).present = true := by
  have hfirst : image.firstPage = basePage := by decide
  rw [hfirst]
  refine ⟨fun p hp hp' => ?_, by decide⟩
  obtain ⟨j, rfl⟩ := Nat.exists_eq_add_of_le hp
  rw [KernelImage.pte, Nat.add_sub_cancel_left, elem, Nat.div_eq_of_lt (by omega)]
  have hne : Fin.ofNat 512 j ≠ 256 := fun h => by
    have : j % 512 = 256 := congrArg Fin.val h
    omega
  change (if image.ptt + 0 = 16 ∧ Fin.ofNat 512 j = 256 then _ else Entry.zero).present = false
  rw [if_neg fun h => hne h.2]
  decide

/-- The theorem at a sequence of two windows. -/
theorem tmpmapEarly_runs_two :
    let cs : List TmpCall := [.map 0x200000 0x2000 PTE_P, .map 0x5000 0x1000 PTE_P]
    (∃ s, earlyRuns image cs ⟨imageMem, [], []⟩ = .ok s ∧ s.Good image imageMem) ∨
      ∃ cs₁ paddr size mask cs₂ s msg, cs = cs₁ ++ .map paddr size mask :: cs₂ ∧
        earlyRuns image cs₁ ⟨imageMem, [], []⟩ = .ok s ∧ s.Good image imageMem ∧
        (TmpCall.map paddr size mask).runEarly image s = .error (.panic msg []) ∧
        NoRun image s.mem (size / 4096) := by
  refine tmpmapEarly_runs linked_imageMem area_imageMem.1 area_imageMem.2
    fun cs₁ c cs₂ s hcs _ => ?_
  have hc : c ∈ [TmpCall.map 0x200000 0x2000 PTE_P, .map 0x5000 0x1000 PTE_P] :=
    hcs ▸ mem_append_right _ mem_cons_self
  simp only [mem_cons, not_mem_nil, or_false] at hc
  obtain rfl | rfl := hc
  all_goals exact ⟨rfl, by decide, rfl, by decide⟩

end Pbos.Hal
