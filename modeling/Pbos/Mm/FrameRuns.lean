import Pbos.Mm.FrameRefs
import Pbos.Mm.Reserve

/-!
# Mm/FrameRuns — mapped frames over whole runs

A run of `mm_pgalloc`, `mm_pgfree`, `mm_mmap` and `mm_unmmap` on several contexts.
`MapCall.Allowed` is what the callers see to, `MapCall.Meets` the condition under which a call
leaves every mapped frame a reference (`mapped_referenced`).  Without it a page that is mapped once
more to its own frame is enough to free the frame (`remapped_unreferenced`).
-/

namespace Pbos.Mm

open Pbos.Hal Radix

variable {P : PmadTree} {ndebug : Bool} {direct : Frame → Bool}
  {tmpmap : Frame → Mem → Except Fault Mem} {pg : PgState} {k f : ℕ} {l : List (ℕ × ℕ)}

/-! ## Runs -/

/-- A call that changes mappings or references. -/
inductive MapCall
  | pgalloc (memtype : UInt8)
  | pgfree (ptr : ℕ)
  | mmap (new ctxt : Option ℕ) (c : MmapArgs)
  | unmmap (ctxt : Option ℕ) (r : VRange) (flags : UInt32)

/-- The page tables of the contexts `C`. -/
def MmState.roots (s : MmState PgState) (C : Set ℕ) : Set Frame :=
  Set.image (fun x => (s.ctxts x).pageTable) C

section Calls

variable (P ndebug direct tmpmap) in
/-- The state after a call. -/
def MapCall.run : MapCall → MmState PgState → Except Fault (MmState PgState)
  | .pgalloc memtype, s => (mmPgalloc P s.vm.pg memtype).map fun x => s.setPg x.2
  | .pgfree ptr, s => (mmPgfree P s.vm.pg ptr).map s.setPg
  | .mmap new ctxt c, s =>
    (mmMmap (pgPlatform P ndebug direct tmpmap) new ctxt c s).map Prod.snd
  | .unmmap ctxt r flags, s =>
    (mmUnmmap (pgPlatform P ndebug direct tmpmap) ctxt r flags s).map Prod.snd

variable (P) (C D : Set ℕ)

/-- Every frame that one of the contexts maps has references, the pages `D` apart. -/
def MmState.Referenced (s : MmState PgState) : Prop := Mm.Referenced P (s.roots C) D s.vm

/-- What callers see to: they name contexts, map frames that have references, without `MMAP_NO_RC`
and away from `D`, and free no frame that is mapped. -/
def MapCall.Allowed (s : MmState PgState) : MapCall → Prop
  | .pgalloc _ => True
  | .pgfree ptr => ∀ f, InUse (s.roots C) D s.vm.mem f → unpgaddr f ≠ ptr
  | .mmap _ ctxt c => ∀ x ∈ ctxt, x ∈ C ∧ hasFlag c.flags MMAP_NO_RC = false ∧
      (∀ f, Maps (alignedArgs c) f → 1 ≤ frameRefs P s.vm.pg f) ∧
      ∀ k < (aligned c.toVRange).size / 4096, (aligned c.toVRange).first + k ∉ D
  | .unmmap ctxt _ flags => ∀ x ∈ ctxt, x ∈ C ∧ hasFlag flags MMAP_NO_RC = false

/-- **The condition on a call**, if it gets as far as the walk. -/
def MapCall.Meets (s : MmState PgState) : MapCall → Prop
  | .pgalloc _ => True
  | .pgfree _ => True
  | .mmap new ctxt c => ∀ x ∈ ctxt, Reaches new c (s.ctxts x) →
      Fits P (s.roots C) (s.ctxts x).pageTable D (alignedArgs c) s.vm
  | .unmmap ctxt r flags => ∀ x ∈ ctxt, UnmapReaches r flags → (aligned r).OneHalf ∧
      (pml4x (aligned r).vaddr < pml4x (aligned r).limit → ∀ f, InUse (s.roots C) D s.vm.mem f →
        f ≠ 0 ∧ ¬ Table s.vm.mem (s.ctxts x).pageTable f)

variable {P C D} {s s' : MmState PgState}

theorem roots_congr (h : ∀ x, (s'.ctxts x).pageTable = (s.ctxts x).pageTable) :
    s'.roots C = s.roots C := Set.image_congr fun x _ => h x

theorem mem_roots {x : ℕ} (hx : x ∈ C) : (s.ctxts x).pageTable ∈ s.roots C := ⟨x, hx, rfl⟩

theorem alignedArgs_paddr_lt (c : MmapArgs) : (alignedArgs c).paddr < 2 ^ 64 :=
  Nat.and_lt_two_pow _ (by decide)

/-- `mm_pgalloc` and `mm_pgfree` leave the mapped frames their references. -/
theorem referenced_setPg (hs : TablesSound P direct (s.roots C) s.vm)
    (href : s.Referenced P C D)
    (hfree : ∀ L, FreeAt P direct (TableIn s.vm.mem (s.roots C)) s.vm.pg L →
      ∃ L', FreeAt P direct (TableIn s.vm.mem (s.roots C)) pg L')
    (hrefs : ∀ f, InUse (s.roots C) D s.vm.mem f → frameRefs P pg f = frameRefs P s.vm.pg f) :
    TablesSound P direct ((s.setPg pg).roots C) (s.setPg pg).vm ∧
      (s.setPg pg).Referenced P C D := by
  obtain ⟨L, hL⟩ := hs.free
  refine ⟨⟨hs.contexts, hs.inDirect, hfree L hL⟩, fun f hf => ?_⟩
  change 1 ≤ frameRefs P pg f
  rw [hrefs f hf]
  exact href f hf

/-- **A call that meets the condition leaves the mapped frames their references.** -/
theorem MapCall.run_referenced {call : MapCall} (hs : TablesSound P direct (s.roots C) s.vm)
    (href : s.Referenced P C D) (hallow : call.Allowed P C D s) (hmeets : call.Meets P C D s)
    (h : call.run P ndebug direct tmpmap s = .ok s') :
    TablesSound P direct (s'.roots C) s'.vm ∧ s'.Referenced P C D := by
  cases call with
  | pgalloc memtype =>
    obtain ⟨⟨addr, pg⟩, hcall, rfl⟩ := map_eq_ok_iff.mp h
    obtain ⟨L, hL⟩ := hs.free
    exact referenced_setPg hs href (fun _ h => h.pgalloc_any hcall) fun f hf =>
      frameRefs_pgalloc hL.lists hcall (offLists_of_frameRefs hL.lists (href f hf))
  | pgfree ptr =>
    obtain ⟨pg, hcall, rfl⟩ := map_eq_ok_iff.mp h
    refine referenced_setPg hs href (fun L h => ⟨L, h.pgfree hcall⟩) fun f hf => ?_
    rw [frameRefs_pgfree hcall, if_neg (hallow f hf)]
  | mmap new ctxt c =>
    obtain ⟨⟨r, t⟩, hcall, rfl⟩ := map_eq_ok_iff.mp h
    cases ctxt with
    | none =>
      cases hcall
      exact ⟨hs, href⟩
    | some x =>
      obtain ⟨hx, hrc, hmaps, -⟩ := hallow x rfl
      obtain ⟨hroots, ⟨-, hvm⟩ | ⟨hreach, hmap⟩⟩ := mmMmap_vm hcall
      all_goals rw [MmState.Referenced, roots_congr hroots]
      · rw [hvm]
        exact ⟨hs, href⟩
      · exact khMmap_referenced (c := alignedArgs c) hs (mem_roots hx) href hrc hmaps
          (alignedArgs_paddr_lt c) (hmeets x rfl hreach) hmap
  | unmmap ctxt r flags =>
    obtain ⟨⟨res, t⟩, hcall, rfl⟩ := map_eq_ok_iff.mp h
    cases ctxt with
    | none =>
      cases hcall
      exact ⟨hs, href⟩
    | some x =>
      obtain ⟨hx, -⟩ := hallow x rfl
      obtain ⟨hctxts, hvm | ⟨hreach, hunmap⟩⟩ := mmUnmmap_vm hcall
      all_goals
        have hroots : t.roots C = s.roots C := roots_congr fun y => by rw [hctxts]
        rw [MmState.Referenced, hroots]
      · rw [hvm]
        exact ⟨hs, href⟩
      · obtain ⟨hhalf, hapart⟩ := hmeets x rfl hreach
        exact khUnmmap_referenced hs (mem_roots hx) hhalf href hapart hunmap

variable (P ndebug direct tmpmap C D) in
/-- One call of a run that meets the condition. -/
def MapStep (s : MmState PgState) (call : MapCall) (s' : MmState PgState) : Prop :=
  call.Allowed P C D s ∧ call.Meets P C D s ∧ call.run P ndebug direct tmpmap s = .ok s'

/-- **When the mapped frames keep their references.**  A run whose calls meet the condition keeps
them after every call.  A successful `mm_mmap` keeps them exactly when every frame that is mapped
afterwards has more references than PTEs in the range. -/
theorem mapped_referenced {calls : List MapCall} (hs : TablesSound P direct (s.roots C) s.vm)
    (href : s.Referenced P C D) (hrun : Run (MapStep P ndebug direct tmpmap C D) s calls s') :
    s'.Referenced P C D ∧ ∀ new x c s'', (MapCall.mmap new (some x) c).Allowed P C D s' →
      (aligned c.toVRange).InHalf →
      mmMmap (pgPlatform P ndebug direct tmpmap) new (some x) c s' = .ok (.ok, s'') →
      (s''.Referenced P C D ↔
        Outlasts P (s'.roots C) (s'.ctxts x).pageTable D (alignedArgs c) s'.vm) := by
  obtain ⟨hs', href'⟩ := hrun.invariant
    (I := fun s => TablesSound P direct (s.roots C) s.vm ∧ s.Referenced P C D)
    (fun _ _ _ ⟨hs, href⟩ ⟨hallow, hmeets, h⟩ =>
      MapCall.run_referenced hs href hallow hmeets h) ⟨hs, href⟩
  refine ⟨href', fun new x c s'' hallow hhalf hcall => ?_⟩
  obtain ⟨hx, hrc, hmaps, hD⟩ := hallow x rfl
  obtain ⟨hroots, ⟨hr, -⟩ | ⟨-, hmap⟩⟩ := mmMmap_vm hcall
  · exact absurd rfl hr
  · rw [MmState.Referenced, roots_congr hroots]
    exact khMmap_referenced_iff hs' (mem_roots hx) href' hrc hmaps
      (alignedArgs_paddr_lt c) hhalf hD hmap

end Calls

/-! ## Frames that are mapped and free -/

section Boot

theorem mapping_kernelTables (p : ℕ) : mapping kernelTables 0x100 p = none := by
  cases hm : mapping kernelTables 0x100 p with
  | none => rfl
  | some e =>
    obtain ⟨t, i, hat, rfl, hpres⟩ := exists_pteAt hm
    obtain ⟨hπ, -⟩ | ⟨hπ, -⟩ | ⟨hπ, -⟩ | ⟨-, rfl⟩ := path_kernelTables (pteAt_eq_some_iff.mp hat).1
    · exact absurd (congrArg List.length hπ) (by simp)
    · exact absurd (congrArg List.length hπ) (by simp)
    · exact absurd (congrArg List.length hπ) (by simp)
    · have hzero : kernelTables 0x103 i = Entry.zero := by simp [kernelTables]
      rw [hzero] at hpres
      cases hpres

theorem contexts_kernelTables : Contexts kernelTables {0x100} := by
  refine ⟨fun r hr => hr ▸ tree_kernelTables, fun r r' π ρ f hr hr' hπ hρ h h' => ?_⟩
  obtain rfl : r = 0x100 := hr
  obtain rfl : r' = 0x100 := hr'
  rw [tree_kernelTables hπ hρ h h']

theorem roots_atBoot : (atBoot 0).roots {0} = {0x100} := Set.image_singleton

theorem tablesSound_atBoot :
    TablesSound (bootPages true) (fun _ => true) ((atBoot 0).roots {0}) (atBoot 0).vm := by
  rw [roots_atBoot]
  refine ⟨contexts_kernelTables, fun _ _ => rfl, (freePages_atBoot 0).imp fun L h => h.congr ?_⟩
  rintro f ⟨r, hr, hf⟩
  obtain rfl : r = 0x100 := hr
  exact hf

theorem not_inUse_kernelTables (f : Frame) : ¬ InUse ((atBoot 0).roots {0}) ∅ kernelTables f := by
  rw [roots_atBoot]
  rintro ⟨r, hr, p, -, -, e, he, -⟩
  obtain rfl : r = 0x100 := hr
  rw [mapping_kernelTables] at he
  cases he

theorem referenced_atBoot : (atBoot 0).Referenced (bootPages true) {0} ∅ :=
  fun f hf => absurd hf (not_inUse_kernelTables f)

/-- Map the frame at the address `f` over the page `k` of the kernel's half. -/
def pageCall (k f : ℕ) : MapCall := .mmap none (some 0) (pageArgs 0xffff800000000000 k f 0x7 0)

theorem maps_pageArgs {va : ℕ} {access flags : UInt32} {g : Frame} (hf : f < 2 ^ 64)
    (hd : 4096 ∣ f) (h : Maps (alignedArgs (pageArgs va k f access flags)) g) :
    g = pgRoundDown f := by
  obtain ⟨-, j, hj, rfl⟩ := h
  have hj : j < pgCeil 4096 / 4096 := hj
  rw [pgCeil_page] at hj
  obtain rfl : j = 0 := by omega
  simp only [MmapArgs.pte, MmapArgs.pi, Nat.zero_mul, Nat.add_zero, alignedArgs, pageArgs,
    pgFloor_of_dvd hf hd, Nat.mod_eq_of_lt hf]

theorem allowed_pageCall {s : MmState PgState} (hf : f < 2 ^ 64) (hd : 4096 ∣ f)
    (hrefs : 1 ≤ frameRefs (bootPages true) s.vm.pg (pgRoundDown f)) :
    (pageCall k f).Allowed (bootPages true) {0} ∅ s := by
  intro x hx
  have hrc : hasFlag 0 MMAP_NO_RC = false := by decide
  refine ⟨(Option.some.inj hx).symm, hrc, fun g hg => ?_, fun _ _ hin => hin⟩
  rw [maps_pageArgs hf hd hg]
  exact hrefs

/-- The call of the run, on the memory map with two usable pages. -/
def bootRun : MapCall → MmState PgState → Except Fault (MmState PgState) :=
  MapCall.run (bootPages true) false (fun _ => true) fun _ => .ok

/-- One call that callers may make. -/
def BootStep (s : MmState PgState) (call : MapCall) (s' : MmState PgState) : Prop :=
  call.Allowed (bootPages true) {0} ∅ s ∧ bootRun call s = .ok s'

/-- A page maps the frame 1 that has no reference. -/
theorem not_referenced {s : MmState PgState} {p : ℕ} (hp : p < 2 ^ 36)
    (h0 : frameRefs (bootPages true) s.vm.pg 1 = 0)
    (hmap : (mapping s.vm.mem (s.ctxts 0).pageTable p).map Entry.address = some 1) :
    ¬ s.Referenced (bootPages true) {0} ∅ := by
  obtain ⟨e, he, haddr⟩ := Option.map_eq_some_iff.mp hmap
  intro href
  have hpos := href 1 ⟨_, mem_roots rfl, p, hp, fun hin => hin, e, he, haddr⟩
  omega

/-- The condition is met where nothing is mapped. -/
theorem meets_pageCall (hrefs : 1 ≤ frameRefs (bootPages true) pg 1) :
    (pageCall 0 0x1000).Meets (bootPages true) {0} ∅ ((atBoot 0).setPg pg) := by
  intro x _ _
  refine ⟨⟨by decide, by decide, by decide, by decide⟩, fun f hf => ?_, fun f => ?_,
    fun hlt => absurd hlt (by decide)⟩
  · change mappedTimes kernelTables 0x100 _ f < _
    rcases hf.source with hf | hf
    · exact absurd hf (not_inUse_kernelTables f)
    · obtain rfl := maps_pageArgs (by decide) (by decide) hf
      exact hrefs
  · change mappedTimes kernelTables 0x100 _ f ≤ _
    exact Nat.zero_le _

theorem mapped_referenced_onePage : ∃ s',
    Run (MapStep (bootPages true) false (fun _ => true) (fun _ => .ok) {0} ∅) (atBoot 0)
      [.pgalloc 0, pageCall 0 0x1000] s' ∧ s'.Referenced (bootPages true) {0} ∅ := by
  obtain ⟨s, hs, hone, t, ht, -⟩ : ∃ s, bootRun (.pgalloc 0) (atBoot 0) = .ok s ∧
      1 ≤ frameRefs (bootPages true) s.vm.pg 1 ∧
      ∃ t, bootRun (pageCall 0 0x1000) s = .ok t ∧ True := by decide +kernel
  have halloc : (mmPgalloc (bootPages true) (atBoot 0).vm.pg 0).map
      (fun x => (atBoot 0).setPg x.2) = .ok s := hs
  obtain ⟨⟨addr, pg⟩, -, rfl⟩ := map_eq_ok_iff.mp halloc
  have hsteps : Run (MapStep (bootPages true) false (fun _ => true) (fun _ => .ok) {0} ∅) (atBoot 0)
      [.pgalloc 0, pageCall 0 0x1000] t :=
    .cons ⟨trivial, trivial, hs⟩ (.cons ⟨allowed_pageCall (by decide) (by decide) hone,
      meets_pageCall hone, ht⟩ (.nil _))
  exact ⟨t, hsteps, (mapped_referenced tablesSound_atBoot referenced_atBoot hsteps).1⟩

/-- **A page that is mapped to the frame it maps already frees the frame.**  So does one of two
pages that map it, when it is mapped to another frame. -/
theorem remapped_unreferenced :
    TablesSound (bootPages true) (fun _ => true) ((atBoot 0).roots {0}) (atBoot 0).vm ∧
    (atBoot 0).Referenced (bootPages true) {0} ∅ ∧
    (∃ s', Run BootStep (atBoot 0) [.pgalloc 0, pageCall 0 0x1000, pageCall 0 0x1000] s' ∧
      ¬ s'.Referenced (bootPages true) {0} ∅) ∧
    ∃ s', Run BootStep (atBoot 0) [.pgalloc 0, pageCall 0 0x1000, pageCall 1 0x1000,
        pageCall 0 0x2000] s' ∧ ¬ s'.Referenced (bootPages true) {0} ∅ := by
  refine ⟨tablesSound_atBoot, referenced_atBoot, ?_, ?_⟩
  · obtain ⟨s, hs, hone, t, ht, hone', u, hu, h0, hmap⟩ : ∃ s, bootRun (.pgalloc 0) (atBoot 0) =
        .ok s ∧ 1 ≤ frameRefs (bootPages true) s.vm.pg 1 ∧
        ∃ t, bootRun (pageCall 0 0x1000) s = .ok t ∧ 1 ≤ frameRefs (bootPages true) t.vm.pg 1 ∧
        ∃ u, bootRun (pageCall 0 0x1000) t = .ok u ∧ frameRefs (bootPages true) u.vm.pg 1 = 0 ∧
        (mapping u.vm.mem (u.ctxts 0).pageTable (2 ^ 35)).map Entry.address = some 1 := by
      decide +kernel
    exact ⟨u, .cons ⟨trivial, hs⟩ (.cons ⟨allowed_pageCall (by decide) (by decide) hone, ht⟩
      (.cons ⟨allowed_pageCall (by decide) (by decide) hone', hu⟩ (.nil _))),
      not_referenced (by decide) h0 hmap⟩
  · obtain ⟨s, hs, hone, t, ht, hone', u, hu, htwo, v, hv, h0, hmap⟩ : ∃ s, bootRun (.pgalloc 0)
        (atBoot 0) = .ok s ∧ 1 ≤ frameRefs (bootPages true) s.vm.pg 1 ∧
        ∃ t, bootRun (pageCall 0 0x1000) s = .ok t ∧ 1 ≤ frameRefs (bootPages true) t.vm.pg 1 ∧
        ∃ u, bootRun (pageCall 1 0x1000) t = .ok u ∧ 1 ≤ frameRefs (bootPages true) u.vm.pg 2 ∧
        ∃ v, bootRun (pageCall 0 0x2000) u = .ok v ∧ frameRefs (bootPages true) v.vm.pg 1 = 0 ∧
        (mapping v.vm.mem (v.ctxts 0).pageTable (2 ^ 35 + 1)).map Entry.address = some 1 := by
      decide +kernel
    exact ⟨v, .cons ⟨trivial, hs⟩ (.cons ⟨allowed_pageCall (by decide) (by decide) hone, ht⟩
      (.cons ⟨allowed_pageCall (by decide) (by decide) hone', hu⟩
      (.cons ⟨allowed_pageCall (by decide) (by decide) htwo, hv⟩ (.nil _)))),
      not_referenced (by decide) h0 hmap⟩

end Boot

end Pbos.Mm
