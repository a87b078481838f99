import Pbos.Mm.Probe

/-!
# Mm/ProbeCover — what a successful probe says of a buffer

`mm_probe_and_lock_pages` rounds the pointer down and the size up, each for itself, and checks the
pages from the one on as far as the other goes.  A buffer that does not start at a page may reach
one page further.  In user space the last region may also end at the last byte instead of behind it.

In the kernel half the access of a page is read from a variable that `mm_getmap` leaves alone where
nothing is mapped: such a page is judged by the page before it, and the first one by what happened
to be in the variable.  `probe_covers_iff` and `probe_pages_iff` say for which buffers that makes no
difference.
-/

namespace Pbos.Mm

open Pbos.Hal Radix Thread

variable {env : ProbeEnv} {b : VRange} {required : UInt32} {s s' : State MutexId Access}
  {size n page : ℕ} {access : UInt32}

/-! ## User buffers -/

/-- No two regions have a byte in common. -/
def Apart (t : OrdMap ℕ Vmr) : Prop :=
  ∀ v ∈ t.entries, ∀ w ∈ t.entries, ∀ x, v.1 ≤ x → x < v.1 + v.2.size → w.1 ≤ x →
    x < w.1 + w.2.size → v = w

/-- The regions consist of whole pages. -/
def WholePages (t : OrdMap ℕ Vmr) : Prop :=
  ∀ v ∈ t.entries, v.1 % 4096 = 0 ∧ v.2.size % 4096 = 0

/-- The byte lies in a region that grants what is required. -/
def Covered (t : OrdMap ℕ Vmr) (required : UInt32) (x : ℕ) : Prop :=
  ∃ v ∈ t.entries, v.1 ≤ x ∧ x < v.1 + v.2.size ∧ misses required v.2.access = false

/-- **An accepted user buffer is covered up to the end of the last region.** -/
theorem Accepts.covered (h : Accepts env b required) (huser : isUserSpace b = true) :
    ∃ l ∈ env.vmrTree.entries, probeLimit b ≤ vmrEnd l ∧
      ∀ x, b.vaddr ≤ x → x < vmrEnd l → Covered env.vmrTree required x := by
  obtain ⟨-, ⟨hkernel, -⟩ | ⟨-, hall, l, hl, hend⟩⟩ := h
  · rw [huser] at hkernel
    cases hkernel
  refine ⟨l, range_subset _ _ (List.mem_of_getLast? hl), hend, fun x hx hlt => ?_⟩
  obtain ⟨v, hv, hle⟩ := exists_range_le hl
  obtain ⟨w, hw, hcov⟩ := hall.covers ⟨v, hv, hle.trans hx⟩ hl hlt
  exact ⟨w, range_subset _ _ hw, hcov⟩

/-- One region from the address 0 on, with every right. -/
def lowRegion (size : ℕ) : ProbeEnv where
  vmrTree := ⟨[(0, ⟨0, size, MM_PAGE_READ ||| MM_PAGE_WRITE ||| MM_PAGE_EXEC⟩)], by simp⟩
  getmap _ := none
  pgAccess := 0

theorem mem_lowRegion {v : ℕ × Vmr} (hv : v ∈ (lowRegion size).vmrTree.entries) :
    v.1 = 0 ∧ v.2.size = size := by
  obtain rfl := List.mem_singleton.mp hv
  exact ⟨rfl, rfl⟩

theorem apart_lowRegion (size : ℕ) : Apart (lowRegion size).vmrTree := by
  intro v hv w hw _ _ _ _ _
  exact (List.mem_singleton.mp hv).trans (List.mem_singleton.mp hw).symm

theorem range_lowRegion (size : ℕ) (b : VRange) :
    range (lowRegion size).vmrTree b = (lowRegion size).vmrTree.entries := by
  have hfind : ∀ x, (lowRegion size).vmrTree.findMaxLteq x =
      some (0, ⟨0, size, MM_PAGE_READ ||| MM_PAGE_WRITE ||| MM_PAGE_EXEC⟩) := fun x => by
    rw [OrdMap.findMaxLteq_eq_some_iff]
    exact ⟨List.mem_singleton.mpr rfl, Nat.zero_le x, fun a ha _ =>
      Nat.le_of_eq (mem_lowRegion ha).1⟩
  rw [range, hfind, hfind]
  rfl

theorem not_covered_lowRegion {x : ℕ} (hx : size ≤ x) :
    ¬ Covered (lowRegion size).vmrTree 0 x := by
  rintro ⟨v, hv, -, hlt, -⟩
  obtain ⟨h0, hs⟩ := mem_lowRegion hv
  omega

/-- Every probe of the buffer that succeeds, of regions as `C` has them, covers it. -/
def CoversAll (C : OrdMap ℕ Vmr → Prop) (b : VRange) : Prop :=
  ∀ (env : ProbeEnv) (required : UInt32) (s s' : State MutexId Access), Apart env.vmrTree →
    C env.vmrTree → (mmProbeAndLockPages env b required).run s = (.ok .ok, s') →
    ∀ x, b.vaddr ≤ x → x < b.vaddr + b.size → Covered env.vmrTree required x

section User

variable {C : OrdMap ℕ Vmr → Prop} {e : ℕ}

theorem coversAll_of_le (huser : isUserSpace b = true)
    (hend : ∀ t v, C t → v ∈ t.entries → probeLimit b ≤ vmrEnd v → OneSide b → e ≤ vmrEnd v)
    (h : ¬ OneSide b ∨ b.size = 0 ∨ b.vaddr + b.size ≤ e) : CoversAll C b := by
  intro env required s s' _ hC hrun x hx hlt
  have hacc := probe_ok_iff.mp ⟨s', hrun⟩
  obtain ⟨l, hl, hlimit, hcov⟩ := hacc.covered huser
  have hle := hend _ l hC hl hlimit hacc.1
  rcases h with h | h | h
  · exact absurd hacc.1 h
  · omega
  · exact hcov x hx (by omega)

theorem le_of_coversAll (huser : isUserSpace b = true) (hC : C (lowRegion e).vmrTree)
    (he : OneSide b → probeLimit b ≤ e ∧ e < 2 ^ 64) (h : CoversAll C b) :
    ¬ OneSide b ∨ b.size = 0 ∨ b.vaddr + b.size ≤ e := by
  by_contra hne
  obtain ⟨hside, hpos, hlt⟩ := not_or.mp hne |>.imp_right not_or.mp
  have hside := not_not.mp hside
  obtain ⟨hle, hlt64⟩ := he hside
  have haccepts : Accepts (lowRegion e) b 0 := by
    refine ⟨hside, .inr ⟨huser, ?_⟩⟩
    rw [range_lowRegion]
    refine ⟨⟨rfl, trivial⟩, _, rfl, ?_⟩
    change probeLimit b ≤ (0 + e) % 2 ^ 64
    rw [Nat.zero_add, Nat.mod_eq_of_lt hlt64]
    exact hle
  obtain ⟨s', hrun⟩ := (probe_ok_iff (s := .start)).mpr haccepts
  refine not_covered_lowRegion ?_ (h (lowRegion e) 0 _ s' (apart_lowRegion e) hC hrun
    (b.vaddr + b.size - 1) (by omega) (by omega))
  omega

end User

/-- The limit is the last byte of a page. -/
theorem probeLimit_mod (hv : b.vaddr < 2 ^ 64) (hside : OneSide b) (huser : isUserSpace b = true) :
    (probeLimit b + 1) % 4096 = 0 ∧ probeLimit b + 1 < 2 ^ 64 := by
  have hlimit : probeLimit b < 2 ^ 47 := by
    have := hside.2 ▸ huser
    simp only [mmIsUserSpace, decide_eq_true_eq] at this
    exact this
  have hfloor := pgFloor_eq hv
  have hceil := pgCeil_eq b.size
  have hdef : probeLimit b = (pgFloor b.vaddr + (pgCeil b.size + (2 ^ 64 - 1))) % 2 ^ 64 := rfl
  omega

/-- **Which user buffers a successful probe covers.**  Whatever the regions are: those whose last
byte lies before the limit.  If the regions consist of whole pages: those that end with it or
before. -/
theorem probe_covers_iff (b : VRange) (huser : mmIsUserSpace b.vaddr = true) :
    (CoversAll (fun _ => True) b ↔ ¬ OneSide b ∨ b.size = 0 ∨ b.vaddr + b.size ≤ probeLimit b) ∧
    (CoversAll WholePages b ↔ ¬ OneSide b ∨ b.size = 0 ∨ b.vaddr + b.size ≤ probeLimit b + 1) := by
  have hv : b.vaddr < 2 ^ 47 := by simpa [mmIsUserSpace] using huser
  have huser' : isUserSpace b = true := by
    have hfloor : pgFloor b.vaddr = b.vaddr / 4096 * 4096 := pgFloor_eq (by omega)
    simp only [isUserSpace, mmIsUserSpace, decide_eq_true_eq]
    omega
  have hlast := probeLimit_mod (b := b) (by omega)
  refine ⟨⟨le_of_coversAll huser' trivial fun hside => ⟨Nat.le_refl _, ?_⟩,
      coversAll_of_le huser' fun _ _ _ _ hle _ => hle⟩,
    ⟨fun h => ?_, coversAll_of_le huser' fun t v hC hv' hle hside => ?_⟩⟩
  · have := hlast hside huser'
    omega
  · by_cases hside : OneSide b
    · refine le_of_coversAll huser' (fun v hv' => ?_) (fun _ => ⟨Nat.le_succ _, ?_⟩) h
      · obtain ⟨h0, hs⟩ := mem_lowRegion hv'
        have := hlast hside huser'
        omega
      · exact (hlast hside huser').2
    · exact .inl hside
  · obtain ⟨h1, h2⟩ := hC v hv'
    have := hlast hside huser'
    have hdef : vmrEnd v = (v.1 + v.2.size) % 2 ^ 64 := rfl
    omega

/-- Sixteen bytes at the start of a page are covered. -/
theorem probe_covers_start : CoversAll (fun _ => True) ⟨0x1000, 0x10⟩ :=
  ((probe_covers_iff ⟨0x1000, 0x10⟩ (by decide)).1).mpr (.inr (.inr (by decide)))

/-- A buffer that reaches into the next page is let through with a region for the first page. -/
theorem probe_misses_second_page : ∃ s',
    (mmProbeAndLockPages ⟨⟨[(0x1000, ⟨0, 0x1000, MM_PAGE_WRITE⟩)], by simp⟩, fun _ => none, 0⟩
      ⟨0x1ff0, 0x20⟩ MM_PAGE_WRITE).run .start = (.ok .ok, s') ∧
    ∀ v ∈ [((0x1000 : ℕ), (⟨0, 0x1000, MM_PAGE_WRITE⟩ : Vmr))],
      ¬ (v.1 ≤ 0x2000 ∧ 0x2000 < v.1 + v.2.size) := by
  exact ⟨⟨[.area 0x1000], [], [], []⟩, rfl, by decide⟩

/-! ## Kernel ranges -/

/-- The access of a page is enough. -/
def PageOk (required access : UInt32) : Prop :=
  hasFlag access MM_PAGE_MAPPED = true ∧
    (hasFlag required MM_PAGE_USER = true → hasFlag access MM_PAGE_USER = true) ∧
    misses required access = false

instance (required access : UInt32) : Decidable (PageOk required access) :=
  inferInstanceAs (Decidable (_ ∧ _ ∧ _))

/-- **The tables of a context are in the direct map**, so that `kh_getmap` opens no window. -/
def DirectTables {σ : Type} (A : Platform σ) (mem : Mem) (root : Frame) : Prop :=
  ∀ f, Table mem root f → A.direct f = true

/-- A probe of the context whose PML4 is `root`: `mm_getmap` is `kh_getmap`, and `pg_access` holds
`garbage` at first. -/
def ProbeEnv.ofTables {σ : Type} (A : Platform σ) (t : OrdMap ℕ Vmr) (garbage : UInt32) (mem : Mem)
    (root : Frame) : ProbeEnv :=
  ⟨t, fun va => (khGetmap A root va mem).toOption.bind fun answer => answer.1.2, garbage⟩

/-- **Every page that the range meets is mapped**, with the access required. -/
def AllMapped (mem : Mem) (root : Frame) (b : VRange) (required : UInt32) : Prop :=
  ∀ q, q % 4096 = 0 → q < 2 ^ 64 →
    (∃ x, b.vaddr ≤ x ∧ x < b.vaddr + b.size ∧ q ≤ x ∧ x < q + 4096) →
    ∃ pte, mapping mem root (pageNo q) = some pte ∧ PageOk required (pteAccess pte)

section Pages

variable {n page : ℕ} {access : UInt32}

theorem probePages_succ : probePages env required (n + 1) page access =
    if PageOk required ((env.getmap page).getD access) then
      probePages env required n (page + 4096) ((env.getmap page).getD access)
    else .accessViolation := by
  rw [probePages]
  generalize (env.getmap page).getD access = g
  by_cases h : PageOk required g
  · obtain ⟨h1, h2, h3⟩ := h
    rw [if_neg (by simp_all), if_pos ⟨h1, h2, h3⟩]
  · rw [if_neg h, if_pos]
    by_contra hc
    simp only [Bool.or_eq_true, Bool.not_eq_true', Bool.and_eq_true, not_or, not_and,
      Bool.not_eq_false, Bool.not_eq_true] at hc
    exact h ⟨hc.1.1, hc.1.2, hc.2⟩

/-- A page that is not mapped is judged by the one before it. -/
theorem probePages_of_pageOk (hok : PageOk required access)
    (h : ∀ k < n, ∀ a, env.getmap (page + 4096 * k) = some a → PageOk required a) :
    probePages env required n page access = .ok := by
  induction n generalizing page access with
  | zero => rfl
  | succ n ih =>
    have hfirst : PageOk required ((env.getmap page).getD access) := by
      cases hg : env.getmap page with
      | none => exact hok
      | some a => exact h 0 (Nat.succ_pos n) a hg
    rw [probePages_succ, if_pos hfirst]
    refine ih hfirst fun k hk a ha => h (k + 1) (Nat.succ_lt_succ hk) a ?_
    rwa [show page + 4096 * (k + 1) = page + 4096 + 4096 * k by omega]

/-- Pages that are all mapped are judged by themselves. -/
theorem probePages_of_mapped
    (h : ∀ k < n, ∃ a, env.getmap (page + 4096 * k) = some a ∧ PageOk required a) :
    probePages env required n page access = .ok := by
  cases n with
  | zero => rfl
  | succ n =>
    obtain ⟨a, ha, hok⟩ := h 0 (Nat.succ_pos n)
    have hfirst : (env.getmap page).getD access = a := by
      rw [show env.getmap page = some a from ha]
      rfl
    rw [probePages_succ, hfirst, if_pos hok]
    refine probePages_of_pageOk hok fun k hk a' ha' => ?_
    obtain ⟨a'', ha'', hok''⟩ := h (k + 1) (Nat.succ_lt_succ hk)
    rw [show page + 4096 * (k + 1) = page + 4096 + 4096 * k by omega, ha'] at ha''
    exact Option.some.inj ha'' ▸ hok''

end Pages

/-- When a probe of a kernel range succeeds. -/
theorem run_kernel (hkernel : isUserSpace b = false) :
    (∃ s', (mmProbeAndLockPages env b required).run s = (.ok .ok, s')) ↔
      OneSide b ∧ hasFlag env.pgAccess MM_PAGE_USER = false ∧
        probePages env required (pgCeil b.size / 4096) (pgFloor b.vaddr) env.pgAccess = .ok := by
  rw [probe_ok_iff, Accepts, hkernel]
  simp

/-! ### Three page tables -/

/-- All of memory is in the direct map. -/
def directAll (σ : Type) : Platform σ where
  ndebug := false
  direct _ := true
  tmpmap _ mem := .ok mem
  pgalloc _ pg := .ok (0, pg)
  pgfree pg _ := .ok pg

/-- A PTE with every right. -/
def fullPte : Entry := ⟨(PTE_P ||| PTE_RW ||| PTE_U).setWidth 12, 0, false⟩

theorem pageOk_fullPte (required : UInt32) : PageOk required (pteAccess fullPte) := by
  have h : pteAccess fullPte = 0x2f := by decide
  rw [h]
  refine ⟨by decide, fun _ => by decide, ?_⟩
  simp [misses, show hasFlag 0x2f MM_PAGE_READ = true by decide,
    show hasFlag 0x2f MM_PAGE_WRITE = true by decide, show hasFlag 0x2f MM_PAGE_EXEC = true by
      decide]

/-- Nothing is mapped. -/
def noTables : Mem := fun _ _ => Entry.zero

theorem mapping_noTables (root : Frame) (p : ℕ) : mapping noTables root p = none := by
  have hpath : follow Entry.child noTables root (tables p) = none := by
    simp only [tables, follow_cons, noTables, Entry.child_zero]
    rfl
  rw [mapping, leaf_eq_none hpath]
  rfl

/-- Every page is mapped. -/
def allTables : Mem := fun f _ =>
  if f = 1 then tableEntry 2 else if f = 2 then tableEntry 3 else if f = 3 then tableEntry 4
  else fullPte

theorem mapping_allTables (p : ℕ) : mapping allTables 1 p = some fullPte := by
  have hpath : follow Entry.child allTables 1 (tables p) = some 4 := by
    simp [tables, follow_cons, allTables, child_tableEntry]
  have hpte : allTables 4 (slot p) = fullPte := by simp [allTables]
  rw [mapping, leaf_eq_some hpath, hpte]
  rfl

/-- One page is mapped, the one these indices lead to. -/
def onePath (i₄ i₃ i₂ i₁ : Fin 512) : Mem := fun f i =>
  if f = 1 then if i = i₄ then tableEntry 2 else Entry.zero
  else if f = 2 then if i = i₃ then tableEntry 3 else Entry.zero
  else if f = 3 then if i = i₂ then tableEntry 4 else Entry.zero
  else if i = i₁ then fullPte else Entry.zero

theorem follow_onePath {i₄ i₃ i₂ i₁ j₄ j₃ j₂ : Fin 512} :
    follow Entry.child (onePath i₄ i₃ i₂ i₁) 1 [j₄, j₃, j₂] =
      if j₄ = i₄ ∧ j₃ = i₃ ∧ j₂ = i₂ then some 4 else none := by
  have hchild (c : Prop) [Decidable c] (g : Frame) :
      (if c then tableEntry g else Entry.zero).child = if c then some g else none := by
    rw [apply_ite Entry.child, child_tableEntry, Entry.child_zero]
  have h₁ (i : Fin 512) : (onePath i₄ i₃ i₂ i₁ 1 i).child = if i = i₄ then some 2 else none :=
    hchild _ 2
  have h₂ (i : Fin 512) : (onePath i₄ i₃ i₂ i₁ 2 i).child = if i = i₃ then some 3 else none :=
    hchild _ 3
  have h₃ (i : Fin 512) : (onePath i₄ i₃ i₂ i₁ 3 i).child = if i = i₂ then some 4 else none :=
    hchild _ 4
  rw [follow_cons, h₁]
  by_cases e₄ : j₄ = i₄
  · rw [if_pos e₄, Option.bind_some, follow_cons, h₂]
    by_cases e₃ : j₃ = i₃
    · rw [if_pos e₃, Option.bind_some, follow_cons, h₃]
      by_cases e₂ : j₂ = i₂
      · rw [if_pos e₂, if_pos ⟨e₄, e₃, e₂⟩]
        rfl
      · rw [if_neg e₂, if_neg fun h => e₂ h.2.2]
        rfl
    · rw [if_neg e₃, if_neg fun h => e₃ h.2.1]
      rfl
  · rw [if_neg e₄, if_neg fun h => e₄ h.1]
    rfl

/-- The tables that map the page `p` and no other. -/
def singlePage (p : ℕ) : Mem :=
  onePath (.ofNat 512 (p / 2 ^ 27)) (.ofNat 512 (p / 2 ^ 18)) (.ofNat 512 (p / 2 ^ 9)) (slot p)

theorem mapping_singlePage {p q : ℕ} (hp : p < 2 ^ 36) (hq : q < 2 ^ 36) :
    mapping (singlePage p) 1 q = if q = p then some fullPte else none := by
  have hpte : singlePage p 4 (slot q) = if slot q = slot p then fullPte else Entry.zero := rfl
  by_cases ht : tables q = tables p
  · have hpath : follow Entry.child (singlePage p) 1 (tables q) = some 4 := by
      rw [ht]
      exact follow_onePath.trans (if_pos ⟨rfl, rfl, rfl⟩)
    rw [mapping, leaf_eq_some hpath, hpte]
    by_cases hs : slot q = slot p
    · rw [if_pos hs, if_pos (eq_of_tables_slot hq hp ht hs)]
      rfl
    · rw [if_neg hs, if_neg fun e => hs (by rw [e])]
      rfl
  · have hpath : follow Entry.child (singlePage p) 1 (tables q) = none := by
      refine follow_onePath.trans (if_neg fun h => ht ?_)
      rw [tables, h.1, h.2.1, h.2.2, tables]
    rw [mapping, leaf_eq_none hpath, if_neg fun e => ht (by rw [e])]
    rfl

/-! ### The ranges for which a probe decides it -/

section OfTables

variable {σ : Type} {A : Platform σ} {t : OrdMap ℕ Vmr} {garbage : UInt32} {mem : Mem}
  {root : Frame}

theorem directTables_directAll (mem : Mem) (root : Frame) :
    DirectTables (directAll σ) mem root := fun _ _ => rfl

/-- **What a probe reads of a page is its PTE.** -/
theorem getmap_ofTables (hdirect : DirectTables A mem root) (va : ℕ) :
    (ProbeEnv.ofTables A t garbage mem root).getmap va =
      (mapping mem root (pageNo va)).map pteAccess := by
  simp only [ProbeEnv.ofTables, khGetmap_eq hdirect]
  cases mapping mem root (pageNo va) <;> rfl

theorem not_allMapped_noTables (hv : b.vaddr < 2 ^ 64) (hpos : 0 < b.size) :
    ¬ AllMapped noTables 1 b required := by
  intro h
  have hfloor := pgFloor_eq hv
  obtain ⟨pte, hpte, -⟩ := h (pgFloor b.vaddr) (by omega) (by omega)
    ⟨b.vaddr, by omega, by omega, by omega, by omega⟩
  rw [mapping_noTables] at hpte
  cases hpte

/-- Where no page is mapped, `probePages` passes what the initial value passes. -/
theorem probePages_noTables (hok : PageOk required access) :
    probePages (ProbeEnv.ofTables (directAll σ) t garbage noTables root) required n page access =
      .ok := by
  refine probePages_of_pageOk hok fun k _ a ha => ?_
  rw [getmap_ofTables (directTables_directAll _ _), mapping_noTables] at ha
  cases ha

/-- Where the first page is mapped, `probePages` passes whatever follows. -/
theorem probePages_singlePage (hn : 0 < n) :
    probePages (ProbeEnv.ofTables (directAll σ) t garbage (singlePage (pageNo page)) 1) required n
      page access = .ok := by
  have hget (va : ℕ) :
      (ProbeEnv.ofTables (directAll σ) t garbage (singlePage (pageNo page)) 1).getmap va =
        if pageNo va = pageNo page then some (pteAccess fullPte) else none := by
    rw [getmap_ofTables (directTables_directAll _ _),
      mapping_singlePage (pageNo_lt _) (pageNo_lt _)]
    split <;> rfl
  obtain ⟨n, rfl⟩ := Nat.exists_eq_add_one.mpr hn
  rw [probePages_succ, hget, if_pos rfl, Option.getD_some, if_pos (pageOk_fullPte required)]
  refine probePages_of_pageOk (pageOk_fullPte required) fun k _ a ha => ?_
  rw [hget] at ha
  split at ha
  · exact Option.some.inj ha ▸ pageOk_fullPte required
  · cases ha

/-- A range of two pages needs the second. -/
theorem not_allMapped_singlePage (hv : b.vaddr < 2 ^ 64) (hover : ¬ Overflows b)
    (hceil : 4096 ≤ pgCeil b.size) (htwo : 4096 < b.vaddr % 4096 + b.size) :
    ¬ AllMapped (singlePage (pageNo (pgFloor b.vaddr))) 1 b required := by
  intro h
  have hfloor := pgFloor_eq hv
  rw [Overflows] at hover
  obtain ⟨pte, hpte, -⟩ := h (pgFloor b.vaddr + 4096) (by omega) (by omega)
    ⟨pgFloor b.vaddr + 4096, by omega, by omega, by omega, by omega⟩
  have hne : pageNo (pgFloor b.vaddr + 4096) ≠ pageNo (pgFloor b.vaddr) := by
    simp only [pageNo]
    omega
  rw [mapping_singlePage (pageNo_lt _) (pageNo_lt _), if_neg hne] at hpte
  cases hpte

/-- Every page that the loop checks has a byte of the range. -/
theorem AllMapped.probePages (h : AllMapped mem root b required)
    (hdirect : DirectTables A mem root) (hv : b.vaddr < 2 ^ 64) (hs : b.size < 2 ^ 64)
    (hover : ¬ Overflows b) (access : UInt32) :
    probePages (ProbeEnv.ofTables A t garbage mem root) required (pgCeil b.size / 4096)
      (pgFloor b.vaddr) access = .ok := by
  refine probePages_of_mapped fun k hk => ?_
  have hfloor := pgFloor_eq hv
  have hceil := pgCeil_eq b.size
  rw [Overflows] at hover
  obtain ⟨pte, hpte, hok⟩ := h (pgFloor b.vaddr + 4096 * k) (by omega) (by omega)
    ⟨max b.vaddr (pgFloor b.vaddr + 4096 * k), by omega, by omega, by omega, by omega⟩
  exact ⟨pteAccess pte, by rw [getmap_ofTables hdirect, hpte]; rfl, hok⟩

/-- A range within one page is checked for what it is, unless the initial value passes too. -/
theorem allMapped_of_probePages (hdirect : DirectTables A mem root) (hv : b.vaddr < 2 ^ 64)
    (hpos : 0 < b.size) (hone : b.vaddr % 4096 + b.size ≤ 4096) (hbad : ¬ PageOk required garbage)
    (h : probePages (ProbeEnv.ofTables A t garbage mem root) required (pgCeil b.size / 4096)
      (pgFloor b.vaddr) garbage = .ok) : AllMapped mem root b required := by
  have hfloor := pgFloor_eq hv
  have hceil := pgCeil_eq b.size
  rw [show pgCeil b.size / 4096 = 0 + 1 by omega, probePages_succ,
    getmap_ofTables hdirect] at h
  intro q hq _ ⟨x, hx1, hx2, hx3, hx4⟩
  rw [show q = pgFloor b.vaddr by omega]
  cases hm : mapping mem root (pageNo (pgFloor b.vaddr)) with
  | none =>
    rw [hm, Option.map_none, Option.getD_none, if_neg hbad] at h
    cases h
  | some pte =>
    refine ⟨pte, rfl, ?_⟩
    by_contra hc
    rw [hm, Option.map_some, Option.getD_some, if_neg hc] at h
    cases h

end OfTables

/-- **Which kernel ranges a probe decides**, where `pg_access` holds `garbage` at first, over the
contexts whose tables are in the direct map.  A success means that every page of the range is mapped
only if no success is possible, the range is empty, or it stays within one page and the garbage is
not by itself enough.  A range whose pages are all mapped is accepted only if it does not wrap,
stays in the kernel half and the garbage lacks `MM_PAGE_USER`. -/
theorem probe_pages_iff (σ : Type) (t : OrdMap ℕ Vmr) (b : VRange) (required garbage : UInt32)
    (hkernel : isUserSpace b = false) (hv : b.vaddr < 2 ^ 64) (hs : b.size < 2 ^ 64) :
    ((∀ (A : Platform σ) mem root s s', DirectTables A mem root →
          (mmProbeAndLockPages (.ofTables A t garbage mem root) b required).run s = (.ok .ok, s') →
          AllMapped mem root b required) ↔
        ¬ OneSide b ∨ hasFlag garbage MM_PAGE_USER = true ∨ b.size = 0 ∨
          b.vaddr % 4096 + b.size ≤ 4096 ∧ ¬ PageOk required garbage) ∧
      ((∀ (A : Platform σ) mem root s, DirectTables A mem root → AllMapped mem root b required →
          ∃ s', (mmProbeAndLockPages (.ofTables A t garbage mem root) b required).run s =
            (.ok .ok, s')) ↔
        OneSide b ∧ hasFlag garbage MM_PAGE_USER = false) := by
  have hceil := pgCeil_eq b.size
  refine ⟨⟨fun h => ?_, ?_⟩, fun h => ?_, fun ⟨hside, hclean⟩ A mem root s hdirect hall => ?_⟩
  · by_contra hc
    simp only [not_or, not_not, not_and, Bool.not_eq_true] at hc
    obtain ⟨hside, hclean, hsize, hone⟩ := hc
    have hpos : 0 < b.size := Nat.pos_of_ne_zero hsize
    have hrun (mem : Mem) (hok : probePages (.ofTables (directAll σ) t garbage mem 1) required
        (pgCeil b.size / 4096) (pgFloor b.vaddr) garbage = .ok) : AllMapped mem 1 b required := by
      obtain ⟨s', hrun⟩ := (run_kernel hkernel (s := .start)).mpr ⟨hside, hclean, hok⟩
      exact h _ mem 1 _ s' (directTables_directAll mem 1) hrun
    by_cases hzero : pgCeil b.size / 4096 = 0
    · exact not_allMapped_noTables hv hpos (hrun noTables (by rw [hzero]; rfl))
    · by_cases hgarbage : PageOk required garbage
      · exact not_allMapped_noTables hv hpos (hrun noTables (probePages_noTables hgarbage))
      · have htwo : 4096 < b.vaddr % 4096 + b.size := by
          by_contra hle
          exact hgarbage (hone (not_lt.mp hle))
        exact not_allMapped_singlePage hv hside.1 (by omega) htwo
          (hrun _ (probePages_singlePage (Nat.pos_of_ne_zero hzero)))
  · rintro hcond A mem root s s' hdirect hrun
    obtain ⟨hside, hclean, hok⟩ := (run_kernel hkernel).mp ⟨s', hrun⟩
    obtain hno | hgarbage | hsize | ⟨hone, hbad⟩ := hcond
    · exact absurd hside hno
    · rw [show hasFlag garbage MM_PAGE_USER = false from hclean] at hgarbage
      cases hgarbage
    · rintro q - - ⟨x, hx1, hx2, -⟩
      omega
    · by_cases hsize : b.size = 0
      · rintro q - - ⟨x, hx1, hx2, -⟩
        omega
      · exact allMapped_of_probePages hdirect hv (Nat.pos_of_ne_zero hsize) hone hbad hok
  · have hall : AllMapped allTables 1 b required := fun q _ _ _ =>
      ⟨fullPte, mapping_allTables _, pageOk_fullPte required⟩
    have hrun := h (directAll σ) allTables 1 .start (directTables_directAll _ _) hall
    obtain ⟨hside, hclean, -⟩ := (run_kernel hkernel).mp hrun
    exact ⟨hside, hclean⟩
  · exact (run_kernel hkernel).mpr ⟨hside, hclean, hall.probePages hdirect hv hs hside.1 garbage⟩

/-- A range within one page is accepted if the garbage is zero. -/
theorem probe_pages_one :
    ∃ s', (mmProbeAndLockPages (.ofTables (directAll Unit) ⟨[], .nil⟩ 0 allTables 1)
      ⟨0xffff800000000000, 0x10⟩ MM_PAGE_READ).run .start = (.ok .ok, s') :=
  (probe_pages_iff Unit ⟨[], .nil⟩ ⟨0xffff800000000000, 0x10⟩ MM_PAGE_READ 0 (by decide) (by decide)
    (by decide)).2.mpr ⟨⟨by decide, by decide⟩, rfl⟩ (directAll Unit) allTables 1 .start
      (directTables_directAll _ _) fun _ _ _ _ => ⟨fullPte, mapping_allTables _, pageOk_fullPte _⟩

/-- Of two pages the first is mapped and the second is not: the probe accepts both.  With other
garbage it refuses them although everything is mapped. -/
theorem probe_pages_misjudged :
    ((mmProbeAndLockPages (.ofTables (directAll Unit) ⟨[], .nil⟩ 0 (singlePage (2 ^ 35)) 1)
        ⟨0xffff800000000000, 0x2000⟩ MM_PAGE_READ).run .start = (.ok .ok, .start) ∧
      mapping (singlePage (2 ^ 35)) 1 (pageNo 0xffff800000001000) = none) ∧
    ((mmProbeAndLockPages (.ofTables (directAll Unit) ⟨[], .nil⟩ MM_PAGE_USER allTables 1)
        ⟨0xffff800000000000, 0x2000⟩ MM_PAGE_READ).run .start = (.ok .accessViolation, .start) ∧
      AllMapped allTables 1 ⟨0xffff800000000000, 0x2000⟩ MM_PAGE_READ) := by
  refine ⟨⟨rfl, ?_⟩, rfl, fun q _ _ _ => ?_⟩
  · rw [mapping_singlePage (by decide) (pageNo_lt _)]
    rfl
  · exact ⟨fullPte, mapping_allTables _, pageOk_fullPte _⟩

end Pbos.Mm
