import Pbos.Hal.Context
import Pbos.Hal.VmEdits
import Pbos.Lib.Replica
import Pbos.Mm.Frames

/-!
# Mm/GlobalRuns — CPUs that map kernel pages and switch contexts

Each CPU runs a context of its own.  A PML4 entry that `kh_mmap` installs in the upper half of one
context gets to another one only by a copy at a switch, and the copy goes from the context the CPU
leaves to the one it enters, whichever of them is newer.  `Replica.Log` follows which contexts have
everything: `installed_after_switch_iff` says that a switch leaves the new context with all entries
installed so far exactly when the CPU leaves a context that is up to date.
-/

namespace Pbos.Mm

open Pbos.Hal Radix Function

variable {P : PmadTree} {ndebug : Bool} {direct : Frame → Bool}
  {tmpmap : Frame → Mem → Except Fault Mem} {R X : Set Frame} {mem : Mem} {root f : Frame}
  {c : MmapArgs} {s s' t t' : VmState PgState} {vm : VmState PgState} {res : KmResult} {r : Frame}
  {e : Entry}

/-! ## Contexts that share the upper half -/

variable (P direct R X) in
/-- A table lies on the same path in every context that has it, all tables are in the direct map,
and the pages that `mm_pgalloc` has left are none of them, and none of `X`. -/
structure SharedSound (s : VmState PgState) : Prop where
  aligned : Aligned Entry.child s.mem 3 R
  inDirect : ∀ f, TableIn s.mem R f → direct f = true
  free : ∃ L, FreeAt P direct (fun f => TableIn s.mem R f ∨ f ∈ X) s.pg L

theorem SharedSound.of_path (h : SharedSound P direct R X s)
    (hpath : ∀ r ∈ R, ∀ π f, π.length ≤ 3 → path s'.mem r π = some f → path s.mem r π = some f)
    (hfree : ∃ L, FreeAt P direct (fun f => TableIn s.mem R f ∨ f ∈ X) s'.pg L) :
    SharedSound P direct R X s' := by
  have htable : ∀ f, TableIn s'.mem R f → TableIn s.mem R f := by
    rintro f ⟨r, hr, π, hπ, hf⟩
    exact ⟨r, hr, π, hπ, hpath r hr π f hπ hf⟩
  exact ⟨h.aligned.mono hpath, fun f hf => h.inDirect f (htable f hf),
    hfree.imp fun L hL => hL.congr fun f => Or.imp_left (htable f)⟩

/-- A table below the PML4s is none of them. -/
theorem SharedSound.ne_root (h : SharedSound P direct R X s) (hroot : root ∈ R)
    {α : List (Fin 512)} (hα : path s.mem root α = some f) (hlen : α.length ≤ 3) (hne : f ≠ root)
    (hr : r ∈ R) : r ≠ f := by
  rintro rfl
  obtain rfl := h.aligned.eq_nil hroot hr hlen hα
  exact hne (Option.some.inj hα).symm

/-! ## What `kh_mmap` does to the PML4s -/

variable (P direct R X mem root) in
/-- A walk in the context of `root` that began in `mem` has installed PML4 entries only there, and
below them tables that are new. -/
structure Grafted (t : VmState PgState) : Prop extends SharedSound P direct R X t where
  tables : ∀ f, TableIn mem R f → TableIn t.mem R f
  other : ∀ r ∈ R, r ≠ root → t.mem r = mem r
  own : ∀ i, t.mem root i = mem root i ∨ (mem root i).present = false ∧
    ((t.mem root i).present = true →
      ¬ TableIn mem R (t.mem root i).address ∧ (t.mem root i).address ∉ X)

theorem Grafted.start (h : SharedSound P direct R X s) : Grafted P direct R X s.mem root s :=
  ⟨h, fun _ hf => hf, fun _ _ _ => rfl, fun _ => .inl rfl⟩

section

variable (h : Grafted P direct R X mem root t) (hsound : SharedSound P direct R X t')
  (htables : ∀ f, TableIn t.mem R f → TableIn t'.mem R f)

include h hsound htables

/-- An edit below the PML4s. -/
theorem Grafted.below (hsame : ∀ r ∈ R, t'.mem r = t.mem r) (hroot : root ∈ R) :
    Grafted P direct R X mem root t' := by
  refine ⟨hsound, fun f hf => htables f (h.tables f hf),
    fun r hr hne => (hsame r hr).trans (h.other r hr hne), fun i => ?_⟩
  rw [hsame root hroot]
  exact h.own i

/-- An edit of a PML4 entry that was absent. -/
theorem Grafted.at_root {i : Fin 512} (hsame : ∀ r ∈ R, r ≠ root → t'.mem r = t.mem r)
    (hroot : ∀ j, t'.mem root j = if j = i then e else t.mem root j)
    (hi : (t.mem root i).present = false)
    (he : e.present = true → ¬ TableIn t.mem R e.address ∧ e.address ∉ X) :
    Grafted P direct R X mem root t' := by
  refine ⟨hsound, fun f hf => htables f (h.tables f hf),
    fun r hr hne => (hsame r hr hne).trans (h.other r hr hne), fun j => ?_⟩
  rw [hroot]
  split
  · rename_i hj
    subst hj
    have habsent : (mem root j).present = false := (h.own j).elim (fun heq => heq ▸ hi) And.left
    exact .inr ⟨habsent, fun hp => (he hp).imp_left fun ht hold => ht (h.tables _ hold)⟩
  · exact h.own j

end

section Edits

variable {α : List (Fin 512)} {x : Fin 512} {pg : PgState} {page : ℕ}

section

variable (h : Grafted P direct R X mem root t) (hroot : root ∈ R) (hα : path t.mem root α = some f)

include h hroot hα

/-- A table is hung below an absent entry. -/
theorem Grafted.hang (hlen : α.length < 3) (hnone : (t.mem f x).present = false)
    (hpage : mmPgalloc P t.pg MM_PHYSICAL_MEMORY_TYPE_AVAILABLE = .ok (page, pg))
    (hne : pgRoundDown page ≠ 0) :
    ¬ TableIn t.mem R (pgRoundDown page) ∧ direct (pgRoundDown page) = true ∧
      Grafted P direct R X mem root ⟨link t.mem f x (tableEntry (pgRoundDown page))
        (pgRoundDown page) Entry.zero, pg, t.freed⟩ := by
  obtain ⟨L, hL⟩ := h.free
  obtain ⟨-, hdirect, hfresh, L', hL', -⟩ := hL.pgalloc hpage fun h0 => hne (by rw [h0]; rfl)
  obtain ⟨hfresh, hX⟩ := not_or.mp hfresh
  generalize pgRoundDown page = g at *
  have hchild := Entry.child_eq_none hnone
  have htable : ∀ u, TableIn (link t.mem f x (tableEntry g) g Entry.zero) R u →
      TableIn t.mem R u ∨ u = g :=
    fun u => TableOf.of_link (child_tableEntry g) Entry.child_zero hfresh
  have hsound : SharedSound P direct R X
      ⟨link t.mem f x (tableEntry g) g Entry.zero, pg, t.freed⟩ := by
    refine ⟨h.aligned.link (child_tableEntry g) Entry.child_zero hfresh, fun u hu => ?_, L',
      hL'.congr fun u hu => ?_⟩
    · rcases htable u hu with hu | rfl
      · exact h.inDirect u hu
      · exact hdirect
    · rcases hu with hu | hu
      · exact (htable u hu).imp_left .inl
      · exact .inl (.inr hu)
  have hgrown := (h.aligned.forest.link hchild (child_tableEntry g) Entry.child_zero hfresh).2
  have hroots : ∀ r ∈ R, ∀ j, link t.mem f x (tableEntry g) g Entry.zero r j =
      if r = f ∧ j = x then tableEntry g else t.mem r j := fun r hr j => by
    have hrg : r ≠ g := by
      rintro rfl
      exact hfresh ⟨r, hr, [], Nat.zero_le 3, follow_nil⟩
    rw [link, fill_of_ne hrg]
    rfl
  refine ⟨hfresh, hdirect, ?_⟩
  by_cases hf : f = root
  · subst hf
    refine h.at_root (e := tableEntry g) hsound (fun _ => hgrown.tableOf)
      (fun r hr hrf => funext fun j => ?_) (fun j => ?_) hnone fun _ => ⟨hfresh, hX⟩
    · exact (hroots r hr j).trans (if_neg fun hx => hrf hx.1)
    · exact (hroots f hroot j).trans (if_congr (and_iff_right rfl) rfl rfl)
  · refine h.below hsound (fun _ => hgrown.tableOf) (fun r hr => funext fun j => ?_) hroot
    exact (hroots r hr j).trans (if_neg fun hx => h.ne_root hroot hα hlen.le hf hr hx.1)

/-- An entry is written that leads on to no other table than before. -/
theorem Grafted.write_of_path (hlen : α.length ≤ 3) (hpath : ∀ r ∈ R, ∀ π, π.length ≤ 3 → path
    (write t.mem f x e) r π = path t.mem r π)
    (habsent : f = root → (t.mem root x).present = false ∧ e.present = false)
    (hmem : t'.mem = write t.mem f x e)
    (hfree : ∃ L, FreeAt P direct (fun f => TableIn t.mem R f ∨ f ∈ X) t'.pg L) :
    Grafted P direct R X mem root t' := by
  rw [← hmem] at hpath
  have hsound : SharedSound P direct R X t' :=
    h.toSharedSound.of_path (fun r hr π u hπ hu => (hpath r hr π hπ).symm.trans hu) hfree
  have htables : ∀ u, TableIn t.mem R u → TableIn t'.mem R u := by
    rintro u ⟨r, hr, π, hπ, hu⟩
    exact ⟨r, hr, π, hπ, (hpath r hr π hπ).trans hu⟩
  by_cases hf : f = root
  · subst hf
    obtain ⟨hx, he⟩ := habsent rfl
    refine h.at_root (e := e) hsound htables (fun r _ hrf => funext fun j => ?_)
      (fun j => ?_) hx fun hp => absurd hp (by simp [he])
    · rw [hmem, write_of_ne fun hx => hrf hx.1]
    · rw [hmem]
      exact if_congr (and_iff_right rfl) rfl rfl
  · refine h.below hsound htables (fun r hr => funext fun j => ?_) hroot
    rw [hmem, write_of_ne fun hx => h.ne_root hroot hα hlen hf hr hx.1]

end

/-- **What `kh_mmap` does along its walk.** -/
theorem editInv_grafted (hroot : root ∈ R) :
    EditInv (pgPlatform P ndebug direct tmpmap) c root (Grafted P direct R X mem root)
      (Grafted P direct R X mem root) where
  tree h := h.aligned.forest.tree hroot
  direct h hf := h.inDirect _ ⟨root, hroot, hf⟩
  link h hα hlen hnone hpage hne := by
    obtain ⟨hfresh, hdirect, h'⟩ := h.hang hroot hα hlen hnone hpage hne
    exact ⟨fun ht => hfresh ⟨root, hroot, ht⟩, hdirect, h'⟩
  fail {s α f x page pg} h hα hlen hnone hpage _ := by
    have habsent : Entry.present { s.mem f x with address := 0 } = false := hnone
    obtain ⟨L, hL⟩ := h.free
    refine h.write_of_path hroot hα hlen.le (fun r hr π _ => ?_) (fun hf => ?_) rfl
      (hL.pgalloc_any hpage)
    · exact follow_write_of_child
        ((Entry.child_eq_none habsent).trans (Entry.child_eq_none hnone).symm)
    · exact ⟨hf ▸ hnone, habsent⟩
  put {s α f x pi s'} h hα hlen hdrop := by
    obtain ⟨va, hdrop⟩ := hdrop
    have hfree : ∃ L, FreeAt P direct (fun f => TableIn s.mem R f ∨ f ∈ X) s'.pg L := by
      rcases Platform.drop_cases hdrop with ⟨rfl, -⟩ | ⟨-, -, hfree⟩
      · exact h.free
      · exact h.free.imp fun L hL => hL.pgfree (Platform.free_eq hfree).2.2
    refine h.write_of_path hroot hα hlen.le
      (fun r hr π hπ => h.aligned.forest.follow_write hroot hα hlen hr hπ) (fun hf => ?_) rfl hfree
    rw [h.aligned.eq_nil hroot hroot hlen.le (hf ▸ hα)] at hlen
    exact absurd hlen (by decide)

end Edits

variable (P direct R X mem root) in
/-- What a call of `kh_mmap` in the context of `root` leaves, whether it succeeds or gives up: every
present PML4 entry was there before, or was absent and now names a new table. -/
structure Regrafted (t : VmState PgState) : Prop extends SharedSound P direct R X t where
  other : ∀ r ∈ R, r ≠ root → t.mem r = mem r
  own : ∀ i, (t.mem root i).present = true → t.mem root i = mem root i ∨
    (mem root i).present = false ∧ ¬ TableIn mem R (t.mem root i).address ∧
      (t.mem root i).address ∉ X

theorem Grafted.regrafted (h : Grafted P direct R X mem root t) :
    Regrafted P direct R X mem root t :=
  ⟨h.toSharedSound, h.other, fun i hp => (h.own i).imp_right fun ho => ⟨ho.1, ho.2 hp⟩⟩

/-- Giving up clears entries. -/
theorem Grafted.unmmap {r : VRange} {flags : UInt32} (h : Grafted P direct R X mem root t)
    (hroot : root ∈ R)
    (hunmap : khUnmmap (pgPlatform P ndebug direct tmpmap) r flags root t = .ok t') :
    Regrafted P direct R X mem root t' := by
  obtain ⟨hclear, hfree⟩ := khUnmmap_scrubbed
    (I := fun u => ∃ L, FreeAt P direct (fun f => TableIn t.mem R f ∨ f ∈ X) u.pg L)
    (fun hu hfree => hu.imp fun L hL => hL.pgfree (Platform.free_eq hfree).2.2) (fun _ hu => hu)
    (h.aligned.forest.tree hroot) (fun f hf => h.inDirect f ⟨root, hroot, hf⟩) h.free hunmap
  refine ⟨h.toSharedSound.of_path (fun _ _ _ _ _ hf => hclear.path_mono hf) hfree,
    fun r hr hne => funext fun i => ?_, fun i hp => ?_⟩
  · rcases hclear.entry r i with heq | ⟨hv, -⟩
    · rw [heq, h.other r hr hne]
    · obtain ⟨π, hπ, hpath⟩ := hv.table
      obtain rfl := h.aligned.eq_nil hroot hr hπ hpath
      exact absurd (Option.some.inj hpath).symm hne
  · have heq := hclear.eq_of_present hp
    rw [heq] at hp ⊢
    exact (h.own i).imp_right fun ho => ⟨ho.1, ho.2 hp⟩

/-- **`kh_mmap` installs PML4 entries for new tables in its own context, and changes no other
PML4**, whatever it is asked for. -/
theorem khMmap_regrafted (h : SharedSound P direct R X s) (hroot : root ∈ R)
    (hmap : khMmap (pgPlatform P ndebug direct tmpmap) c root s = .ok (res, s')) :
    Regrafted P direct R X s.mem root s' ∧
      (res = .ok → ∀ i, (s.mem root i).present = true → s'.mem root i = s.mem root i) := by
  rcases khMmap_of_editInv (editInv_grafted hroot) (.start h) hmap with
    ⟨-, h'⟩ | ⟨rfl, t, ht, hunmap⟩
  · refine ⟨h'.regrafted, fun _ i hi => (h'.own i).resolve_right fun ho => ?_⟩
    rw [hi] at ho
    cases ho.1
  · exact ⟨ht.unmmap hroot hunmap, fun hres => by cases hres⟩

/-! ## Runs of several CPUs -/

section Cpus

variable {ι : Type} [DecidableEq ι] {pageTable : Frame → ℕ}

/-- The tables, the context each CPU runs (`mm_cur_contexts`) and the frame it has loaded as its
PML4.  The kernel has no `log`: it is the history, for the statements. -/
structure CpuState (ι : Type) where
  vm : VmState PgState
  curContexts : ι → Frame
  cr3 : ι → Frame
  log : Replica.Log Frame (Fin 512 × Entry)

/-- A call on one of the CPUs. -/
inductive CpuCall (ι : Type)
  | mmap (cpu : ι) (c : MmapArgs)
  | switchContext (cpu : ι) (context : Frame)

/-- The PML4 entries of the upper half that a call has installed. -/
def newEntries (mem mem' : Mem) (r : Frame) : Set (Fin 512 × Entry) :=
  {x | x ∈ globalEntries mem' r ∧ (mem r x.1).present = false}

variable (P ndebug direct tmpmap R pageTable) in
/-- A CPU maps pages in the context it runs, or switches to another one. -/
def CpuStep (s : CpuState ι) : CpuCall ι → CpuState ι → Prop
  | .mmap cpu c, s' =>
    ∃ res vm, khMmap (pgPlatform P ndebug direct tmpmap) c (s.curContexts cpu) s.vm =
      .ok (res, vm) ∧
    s' = { s with
      vm := vm
      log := s.log.install (s.curContexts cpu)
        (newEntries s.vm.mem vm.mem (s.curContexts cpu))
        (¬ s.log.installed ∩ globalEntries s.vm.mem (s.curContexts cpu) ⊆
          globalEntries vm.mem (s.curContexts cpu)) }
  | .switchContext cpu context, s' =>
    context ∈ R ∧ ∃ cr3 mem, mmSwitchContext (pgPlatform P ndebug direct tmpmap) pageTable context
      (s.curContexts cpu) s.vm.mem = .ok (cr3, mem) ∧
    s' = ⟨{ s.vm with mem := mem }, update s.curContexts cpu context,
      update s.cr3 cpu cr3, s.log.copy context (s.curContexts cpu)⟩

/-- **The property**: after a switch the CPU runs a context with every entry installed so far. -/
def HasInstalled (s' : CpuState ι) : CpuCall ι → Prop
  | .mmap _ _ => True
  | .switchContext cpu _ => s'.log.installed ⊆ globalEntries s'.vm.mem (s'.curContexts cpu)

/-- The CPU leaves a context that is up to date. -/
def LeavesUpToDate (s : CpuState ι) : CpuCall ι → Prop
  | .mmap _ _ => True
  | .switchContext cpu _ => s.curContexts cpu ∈ s.log.upToDate

/-- The tables that entries have been installed for. -/
def installedTables (l : Replica.Log Frame (Fin 512 × Entry)) : Set Frame :=
  {f | ∃ x ∈ l.installed, x.2.address = f}

variable (P direct R) in
/-- The invariant of all runs: the log is right. -/
structure Coherent (s : CpuState ι) : Prop where
  cur : ∀ cpu, s.curContexts cpu ∈ R
  sound : SharedSound P direct R (installedTables s.log) s.vm
  tracks : s.log.Tracks R (globalEntries s.vm.mem)

variable {s s' : CpuState ι} {call : CpuCall ι}

/-- The table of a PML4 entry is one of the context's. -/
theorem tableIn_of_globalEntries (hr : r ∈ R) {x : Fin 512 × Entry}
    (hx : x ∈ globalEntries mem r) : TableIn mem R x.2.address := by
  obtain ⟨-, heq, hpres⟩ := hx
  refine ⟨r, hr, [x.1], by simp, ?_⟩
  have hpath : path mem r ([] ++ [x.1]) = some (mem r x.1).address :=
    path_present follow_nil (by rw [heq]; exact hpres)
  rwa [heq] at hpath

omit [DecidableEq ι] in
theorem Coherent.mmap (h : Coherent P direct R s) {cpu : ι}
    (hmap : khMmap (pgPlatform P ndebug direct tmpmap) c (s.curContexts cpu) s.vm = .ok (res, vm)) :
    Coherent P direct R { s with
      vm := vm
      log := s.log.install (s.curContexts cpu) (newEntries s.vm.mem vm.mem (s.curContexts cpu))
        (¬ s.log.installed ∩ globalEntries s.vm.mem (s.curContexts cpu) ⊆
          globalEntries vm.mem (s.curContexts cpu)) } := by
  have hr := h.cur cpu
  generalize s.curContexts cpu = r at *
  have hgraft := (khMmap_regrafted h.sound hr hmap).1
  have hnew : ∀ x ∈ newEntries s.vm.mem vm.mem r, ¬ TableIn s.vm.mem R x.2.address := by
    rintro x ⟨⟨-, heq, hpres⟩, habsent⟩
    rcases hgraft.own x.1 (by rw [heq]; exact hpres) with hold | ⟨-, hfresh, -⟩
    · rw [← hold, heq, hpres] at habsent
      cases habsent
    · rwa [heq] at hfresh
  refine ⟨h.cur, ⟨hgraft.aligned, hgraft.inDirect, ?_⟩, h.tracks.install hr ?_ ?_ ?_ ?_⟩
  · refine hgraft.free.imp fun L hL => hL.congr fun f hf => ?_
    rcases hf with hf | ⟨x, hx | hx, rfl⟩
    · exact .inl hf
    · exact .inr ⟨x, hx, rfl⟩
    · exact .inl (tableIn_of_globalEntries hr hx.1)
  · intro g hg hne
    unfold globalEntries
    rw [hgraft.other g hg hne]
  · exact fun x hx => hx.1
  · rintro x ⟨hglobal, heq, hpres⟩ hinst
    rcases hgraft.own x.1 (by rw [heq]; exact hpres) with hold | ⟨-, -, hfresh⟩
    · exact ⟨hglobal, hold.symm.trans heq, hpres⟩
    · exact absurd ⟨x, hinst, by rw [heq]⟩ hfresh
  · exact fun g hg x hx hheld => hnew x hx (tableIn_of_globalEntries hg hheld)

theorem Coherent.switchContext (h : Coherent P direct R s) {cpu : ι} {context cr3 : Frame}
    (hcontext : context ∈ R) :
    Coherent P direct R ⟨{ s.vm with
        mem := khMmCopyGlobalMappings context (s.curContexts cpu) s.vm.mem },
      update s.curContexts cpu context, update s.cr3 cpu cr3,
      s.log.copy context (s.curContexts cpu)⟩ := by
  have hprev := h.cur cpu
  have htable : ∀ f, TableIn (khMmCopyGlobalMappings context (s.curContexts cpu) s.vm.mem) R f →
      TableIn s.vm.mem R f := fun f => tableIn_of_copy h.sound.aligned hcontext hprev
  refine ⟨fun cpu' => ?_, ⟨aligned_copy h.sound.aligned hcontext hprev,
    fun f hf => h.sound.inDirect f (htable f hf),
    h.sound.free.imp fun L hL => hL.congr fun f => Or.imp_left (htable f)⟩,
    h.tracks.copy hprev globalEntries_copy_dest fun g _ hne => globalEntries_copy_of_ne hne⟩
  simp only [update_apply]
  split
  · exact hcontext
  · exact h.cur cpu'

/-- **Every step keeps the log right**, and a switch is as the property has it exactly when the CPU
leaves a context that is up to date. -/
theorem Coherent.step (h : Coherent P direct R s)
    (hstep : CpuStep P ndebug direct tmpmap R pageTable s call s') :
    Coherent P direct R s' ∧ (HasInstalled s' call ↔ LeavesUpToDate s call) := by
  cases call with
  | mmap cpu c =>
    obtain ⟨res, vm, hmap, rfl⟩ := hstep
    exact ⟨h.mmap hmap, Iff.rfl⟩
  | switchContext cpu context =>
    obtain ⟨hcontext, cr3, mem, hswitch, rfl⟩ := hstep
    obtain ⟨cr3', heq⟩ := mmSwitchContext_eq (A := pgPlatform P ndebug direct tmpmap)
      h.sound.aligned hcontext (h.cur cpu) pageTable h.sound.inDirect
    obtain ⟨rfl, rfl⟩ := ok_mk_inj (heq.symm.trans hswitch)
    refine ⟨h.switchContext hcontext, ?_⟩
    simp only [HasInstalled, update_self]
    exact h.tracks.installed_subset_copy_iff (h.cur cpu) globalEntries_copy_dest

/-- Nothing has been installed yet. -/
def CpuState.start (vm : VmState PgState) (curContexts cr3 : ι → Frame) : CpuState ι :=
  ⟨vm, curContexts, cr3, .start⟩

omit [DecidableEq ι] in
theorem coherent_start {curContexts cr3 : ι → Frame}
    (hvm : SharedSound P direct R ∅ vm) (hcur : ∀ cpu, curContexts cpu ∈ R) :
    Coherent P direct R (CpuState.start vm curContexts cr3) := by
  refine ⟨hcur, ⟨hvm.aligned, hvm.inDirect, hvm.free.imp fun L hL => hL.congr ?_⟩,
    Replica.Log.tracks_start⟩
  rintro f (hf | ⟨x, hx, -⟩)
  · exact .inl hf
  · exact hx.elim

/-- **A switch leaves the CPU with every entry installed so far exactly when the context it comes
from is up to date**, so the runs in which each switch does are those in which each switch leaves
such a context.  A context is up to date, as the log has it, if everything was installed in it or
reached it by copies, and no `kh_mmap` that gave up has cleared an entry of it.  A switch always
goes through, and a `kh_mmap` that succeeds clears no entry. -/
theorem installed_after_switch_iff {vm : VmState PgState} {curContexts cr3 : ι → Frame}
    (hvm : SharedSound P direct R ∅ vm) (hcur : ∀ cpu, curContexts cpu ∈ R)
    (calls : List (CpuCall ι)) (s : CpuState ι) :
    (Run (fun s call s' => CpuStep P ndebug direct tmpmap R pageTable s call s' ∧
        HasInstalled s' call) (.start vm curContexts cr3) calls s ↔
      Run (fun s call s' => CpuStep P ndebug direct tmpmap R pageTable s call s' ∧
        LeavesUpToDate s call) (.start vm curContexts cr3) calls s) ∧
    (Run (CpuStep P ndebug direct tmpmap R pageTable) (.start vm curContexts cr3) calls s →
      (∀ cpu, ∀ context ∈ R,
        ∃ s', CpuStep P ndebug direct tmpmap R pageTable s (.switchContext cpu context) s') ∧
      ∀ cpu c vm', khMmap (pgPlatform P ndebug direct tmpmap) c (s.curContexts cpu) s.vm =
        .ok (.ok, vm') → globalEntries s.vm.mem (s.curContexts cpu) ⊆
          globalEntries vm'.mem (s.curContexts cpu)) := by
  have hstart : Coherent P direct R (CpuState.start vm curContexts cr3) := coherent_start hvm hcur
  refine ⟨Run.congr_of_invariant (fun s call s' hs => and_congr_right fun h => (hs.step h).2)
    (fun s call s' hs h => (hs.step h.1).1) hstart, fun hrun => ?_⟩
  have h := hrun.invariant (fun s call s' hs h => (hs.step h).1) hstart
  refine ⟨fun cpu context hcontext => ?_, fun cpu c vm' hmap x hx => ?_⟩
  · obtain ⟨cr3', heq⟩ := mmSwitchContext_eq (A := pgPlatform P ndebug direct tmpmap)
      h.sound.aligned hcontext (h.cur cpu) pageTable h.sound.inDirect
    exact ⟨_, hcontext, cr3', _, heq, rfl⟩
  · obtain ⟨hglobal, heq, hpres⟩ := hx
    have hkept := (khMmap_regrafted h.sound (h.cur cpu) hmap).2 rfl x.1 (by rw [heq]; exact hpres)
    exact ⟨hglobal, hkept.trans heq, hpres⟩

end Cpus

/-! ## Two CPUs

Both run on the three pages of `threePages`. -/

section TwoCpus

/-- Empty PML4s, and all three pages free. -/
def emptyTables : VmState PgState where
  mem _ _ := Entry.zero
  pg :=
    { freeList := fun b => if b = 0x1000 then some 1 else none
      nextFree := fun m => if m = 1 then some 2 else if m = 2 then some 3 else none
      prevFree := fun m => if m = 2 then some 1 else if m = 3 then some 2 else none
      refCount := fun _ => 0 }
  freed := []

theorem path_emptyTables {π : List (Fin 512)}
    (h : path emptyTables.mem r π = some f) : π = [] ∧ r = f := by
  cases π with
  | nil => exact ⟨rfl, Option.some.inj h⟩
  | cons i π =>
    rw [path, follow_cons, show (emptyTables.mem r i).child = none from Entry.child_zero] at h
    cases h

theorem freeAt_emptyTables : FreeAt threePages (fun _ => true)
    (fun f => TableIn emptyTables.mem {0x100, 0x101} f ∨ f ∈ (∅ : Set Frame)) emptyTables.pg
    fun b => if b = 0x1000 then [1, 2, 3] else [] := by
  have hmem : ∀ {area mad : ℕ}, mad ∈ (if area = 0x1000 then [1, 2, 3] else []) →
      area = 0x1000 ∧ (mad = 1 ∨ mad = 2 ∨ mad = 3) := by
    intro area mad h
    split at h
    · exact ⟨‹_›, by simpa using h⟩
    · cases h
  refine ⟨⟨fun area => ⟨none, ⟨fun _ => ?_, ?_, ?_, fun m hm => ?_, fun _ _ => rfl⟩, nofun⟩,
    fun area m hm hoff => ?_, fun _ m hm => ?_⟩, fun _ _ hm => ?_, fun _ _ _ => rfl,
    fun _ _ hm => ?_⟩
  · simp only [emptyTables]
    split <;> rfl
  · split <;> simp [DList.Chain, emptyTables]
  · split <;> simp
  · obtain ⟨rfl, rfl | rfl | rfl⟩ := hmem hm
    · exact ⟨_, rfl, 0x1000, rfl⟩
    · exact ⟨_, rfl, 0x2000, rfl⟩
    · exact ⟨_, rfl, 0x3000, rfl⟩
  · have hoff : m ∉ [1, 2, 3] := hoff 0x1000
    simp only [List.mem_cons, not_or] at hoff
    simp [emptyTables, hoff]
  · obtain ⟨rfl, rfl | rfl | rfl⟩ := hmem hm <;> rfl
  · obtain ⟨rfl, rfl | rfl | rfl⟩ := hmem hm <;> exact ⟨by decide, by decide⟩
  · obtain ⟨rfl, hmad⟩ := hmem hm
    rintro (⟨r, hr, π, -, hπ⟩ | hf)
    · obtain ⟨-, rfl⟩ := path_emptyTables hπ
      obtain rfl | rfl | rfl := hmad <;> revert hr <;> decide
    · exact hf

theorem sharedSound_emptyTables :
    SharedSound threePages (fun _ => true) {0x100, 0x101} ∅ emptyTables := by
  refine ⟨fun r r' π ρ f _ _ _ _ hπ hρ => ?_, fun _ _ => rfl, _, freeAt_emptyTables⟩
  rw [(path_emptyTables hπ).1, (path_emptyTables hρ).1]

/-- The CPUs run the contexts `0x100` and `0x101`. -/
def twoCpus : CpuState Bool :=
  .start emptyTables (fun cpu => bif cpu then 0x101 else 0x100) fun _ => 0

/-- The first page of the upper half. -/
def firstGlobalPage : MmapArgs := ⟨⟨0xffff800000000000, 0x1000⟩, 0x5000, 0x7, 0⟩

/-- The kernel on the three pages. -/
abbrev TwoCpuStep : CpuState Bool → CpuCall Bool → CpuState Bool → Prop :=
  CpuStep threePages false (fun _ => true) (fun _ => .ok) {0x100, 0x101} fun _ => 0

theorem khMmap_firstGlobalPage : ∃ vm, khMmap (pgPlatform threePages false (fun _ => true)
    fun _ => .ok) firstGlobalPage 0x100 emptyTables = .ok (.ok, vm) ∧
      vm.mem 0x100 256 = tableEntry 1 ∧ (vm.mem 0x101 256).present = false := by
  obtain ⟨res, vm, hmap, rfl, hentry⟩ : ∃ res vm, khMmap (pgPlatform threePages false
      (fun _ => true) fun _ => .ok) firstGlobalPage 0x100 emptyTables = .ok (res, vm) ∧ res = .ok ∧
      vm.mem 0x100 256 = tableEntry 1 ∧ (vm.mem 0x101 256).present = false := by decide +kernel
  exact ⟨vm, hmap, hentry⟩

theorem twoCpus_mem (cpu : Bool) : twoCpus.curContexts cpu ∈ ({0x100, 0x101} : Set Frame) := by
  cases cpu
  · exact .inl rfl
  · exact .inr rfl

/-- A CPU that has mapped a page takes the entry along. -/
theorem installed_after_own_switch : ∃ s, Run (fun s call s' => TwoCpuStep s call s' ∧
    HasInstalled s' call) twoCpus [.mmap false firstGlobalPage, .switchContext false 0x101] s := by
  obtain ⟨vm, hmap, -⟩ := khMmap_firstGlobalPage
  have hfirst : TwoCpuStep twoCpus (.mmap false firstGlobalPage) _ := ⟨_, vm, hmap, rfl⟩
  obtain ⟨s, hswitch⟩ := ((installed_after_switch_iff sharedSound_emptyTables twoCpus_mem _ _).2
    (.cons hfirst (.nil _))).1 false 0x101 (.inr rfl)
  exact ⟨s, (installed_after_switch_iff sharedSound_emptyTables twoCpus_mem _ _).1.mpr
    (.cons ⟨hfirst, trivial⟩ (.cons ⟨hswitch, trivial,
      fun _ hlost => hlost fun x hx => hx.1.elim, absurd rfl⟩ (.nil _)))⟩

/-- **The other CPU loses the entry**: it enters the context that has it, and overwrites it with the
upper half of the context that it leaves. -/
theorem switch_overwrites_installed : ∃ s x,
    Run TwoCpuStep twoCpus [.mmap false firstGlobalPage, .switchContext true 0x100] s ∧
      x ∈ s.log.installed ∧ ∀ cpu, x ∉ globalEntries s.vm.mem (s.curContexts cpu) := by
  obtain ⟨vm, hmap, hentry, habsent⟩ := khMmap_firstGlobalPage
  have hfirst : TwoCpuStep twoCpus (.mmap false firstGlobalPage) _ := ⟨_, vm, hmap, rfl⟩
  have hcoherent := (Coherent.step (coherent_start sharedSound_emptyTables twoCpus_mem) hfirst).1
  obtain ⟨cr3, hswitch⟩ := mmSwitchContext_eq
    (A := pgPlatform threePages false (fun _ => true) fun _ => .ok)
    hcoherent.sound.aligned (.inl rfl) (hcoherent.cur true) (fun _ => 0) hcoherent.sound.inDirect
  refine ⟨_, (256, tableEntry 1), .cons hfirst (.cons ⟨.inl rfl, cr3, _, hswitch, rfl⟩ (.nil _)),
    .inr ⟨⟨by decide +kernel, hentry, by decide⟩, rfl⟩, fun cpu => ?_⟩
  have hcur : update twoCpus.curContexts true 0x100 cpu = 0x100 := by
    cases cpu <;> rfl
  change (256, tableEntry 1) ∉ globalEntries (khMmCopyGlobalMappings 0x100 0x101 vm.mem)
    (update twoCpus.curContexts true 0x100 cpu)
  rw [hcur, globalEntries_copy_dest]
  rintro ⟨-, heq, hpres⟩
  rw [heq, hpres] at habsent
  cases habsent

end TwoCpus

end Pbos.Mm
