import Pbos.Hal.VmShared
import Pbos.Mm.Frames

/-!
# Mm/FrameRefs — references to the frames that are mapped

Mapping a frame takes no reference to it, but mapping another one over it drops one: `kh_mmap` calls
`mm_pgfree` for every present PTE it overwrites.  So a frame loses a reference with each of its PTEs
that goes, and with enough of them the last one, while others still map it.

`Walked` counts this along the walk, over all contexts at once.  `Fits` is the condition on a call:
the references of a frame outnumber its PTEs in the range, if it is mapped elsewhere or by the call
itself.  Under it `kh_mmap` leaves every mapped frame a reference (`khMmap_referenced`), and when it
succeeds it does so only then (`khMmap_referenced_iff`).
-/

namespace Pbos.Mm

open Pbos.Hal Radix

variable {P : PmadTree} {ndebug : Bool} {direct : Frame → Bool}
  {tmpmap : Frame → Mem → Except Fault Mem} {R : Set Frame} {root f g : Frame} {mem : Mem}
  {pg pg' : PgState} {L : ℕ → List ℕ} {mad : ℕ} {q m n k page : ℕ} {α : List (Fin 512)}
  {x : Fin 512}

/-! ## The references of a frame -/

/-- `ref_count` of a frame; one that has no MAD has no references. -/
def frameRefs (P : PmadTree) (pg : PgState) (f : Frame) : ℕ :=
  match khGetMad P (unpgaddr f) with
  | .ok mad => pg.refCount mad
  | .error _ => 0

/-- The frame hangs on none of the lists. -/
def OffLists (P : PmadTree) (L : ℕ → List ℕ) (f : Frame) : Prop :=
  ∀ mad, khGetMad P (unpgaddr f) = .ok mad → Off L mad

theorem frameRefs_eq (h : khGetMad P (unpgaddr f) = .ok mad) :
    frameRefs P pg f = pg.refCount mad := by
  rw [frameRefs, h]

theorem frameRefs_eq_zero {e : Fault} (h : khGetMad P (unpgaddr f) = .error e) :
    frameRefs P pg f = 0 := by
  rw [frameRefs, h]

theorem unpgaddr_injective : Function.Injective unpgaddr := fun f g h => by
  rw [unpgaddr, unpgaddr, Nat.shiftLeft_eq, Nat.shiftLeft_eq] at h
  exact BitVec.eq_of_toNat_eq (Nat.eq_of_mul_eq_mul_right (by decide) h)

/-- **`mm_pgfree` takes one reference from its frame**, and none from others. -/
theorem frameRefs_pgfree {ptr : ℕ} (h : mmPgfree P pg ptr = .ok pg') (f : Frame) :
    frameRefs P pg' f = if unpgaddr f = ptr then frameRefs P pg f - 1 else frameRefs P pg f := by
  obtain ⟨mad, hmad, hcases⟩ := kiSetPageFree_cases h
  have hcount : ∀ m, pg'.refCount m = if m = mad then pg.refCount m - 1 else pg.refCount m := by
    intro m
    obtain ⟨h0, rfl⟩ | ⟨h1, rfl⟩ | ⟨-, rfl⟩ := hcases
    · split
      · rename_i heq
        rw [heq, h0]
      · rfl
    · rw [linkFree_refCount, PgState.setRefCount_refCount]
      split
      · rename_i heq
        rw [heq, h1]
      · rfl
    · rw [PgState.setRefCount_refCount]
      split
      · rename_i heq
        rw [heq]
      · rfl
  cases hf : khGetMad P (unpgaddr f) with
  | error e => rw [frameRefs_eq_zero hf, frameRefs_eq_zero hf, ite_self]
  | ok m =>
    rw [frameRefs_eq hf, frameRefs_eq hf, hcount]
    refine if_congr ⟨?_, ?_⟩ rfl rfl
    · rintro rfl
      exact (PmadTree.isMad_of_khGetMad hf).2.symm.trans (PmadTree.isMad_of_khGetMad hmad).2
    · rintro rfl
      exact Except.ok.inj (hf.symm.trans hmad)

/-- `mm_pgalloc` leaves the references of a frame on no list alone. -/
theorem frameRefs_pgalloc (h : StaleFree P pg L) {t : UInt8} {addr : ℕ}
    (hcall : mmPgalloc P pg t = .ok (addr, pg')) (hoff : OffLists P L f) :
    frameRefs P pg' f = frameRefs P pg f := by
  by_cases h0 : addr = 0
  · obtain ⟨-, ⟨-, rfl⟩ | ⟨hne, -⟩⟩ := mmPgalloc_cases hcall
    · rfl
    · exact absurd h0 hne
  obtain ⟨area, pmad, mad, -, -, hmem, -, -, rfl⟩ := h.pgalloc_eq hcall h0
  cases hf : khGetMad P (unpgaddr f) with
  | error e => rw [frameRefs_eq_zero hf, frameRefs_eq_zero hf]
  | ok m =>
    have hne : m ≠ mad := fun heq => hoff m hf area (heq ▸ hmem)
    rw [frameRefs_eq hf, frameRefs_eq hf, unlinkFree_refCount, PgState.setRefCount_refCount,
      if_neg hne]

/-- A frame with references is on no list. -/
theorem offLists_of_frameRefs (h : StaleFree P pg L) (hf : 1 ≤ frameRefs P pg f) :
    OffLists P L f := fun mad hmad => by
  rw [frameRefs_eq hmad] at hf
  exact h.off_of_refCount (by omega)

/-! ## Pages that map a frame -/

/-- How many of the `n` pages from `q` on map the frame. -/
def mappedFrom (mem : Mem) (root : Frame) (q n : ℕ) (f : Frame) : ℕ :=
  (List.range n).countP fun k => (mapping mem root (q + k)).map Entry.address == some f

theorem mappedFrom_succ (mem : Mem) (root : Frame) (q n : ℕ) (f : Frame) :
    mappedFrom mem root q (n + 1) f = mappedFrom mem root q n f +
      if (mapping mem root (q + n)).map Entry.address = some f then 1 else 0 := by
  rw [mappedFrom, List.range_succ, List.countP_append, List.countP_singleton]
  simp only [beq_iff_eq]
  rfl

theorem mappedFrom_mono (h : m ≤ n) :
    mappedFrom mem root q m f ≤ mappedFrom mem root q n f := by
  induction n, h using Nat.le_induction with
  | base => exact le_rfl
  | succ n _ ih =>
    rw [mappedFrom_succ]
    exact ih.trans (Nat.le_add_right _ _)

theorem mappedFrom_lt {e : Entry} (hm : m ≤ k) (hk : k < n)
    (h : mapping mem root (q + k) = some e) :
    mappedFrom mem root q m e.address < mappedFrom mem root q n e.address := by
  calc mappedFrom mem root q m e.address
      ≤ mappedFrom mem root q k e.address := mappedFrom_mono hm
    _ < mappedFrom mem root q (k + 1) e.address := by
        rw [mappedFrom_succ, h, Option.map_some, if_pos rfl]
        exact Nat.lt_succ_self _
    _ ≤ mappedFrom mem root q n e.address := mappedFrom_mono hk

/-! ## The walk of `kh_mmap` -/

section Walk

variable {c : MmapArgs} {q : ℕ} {s s' : VmState PgState}

variable (P direct R root mem pg c) in
/-- A walk that began in `mem` and `pg` has done the pages before `q`.  A frame that had references
has lost one for each of these pages that mapped it; the tables that are new had none. -/
structure Walked (q : ℕ) (s : VmState PgState) : Prop where
  first_le : c.first ≤ q
  le_stop : q ≤ c.stop
  pages : Overlaid mem R root c q s.mem
  inDirect : ∀ f, TableIn s.mem R f → direct f = true
  tables : ∀ f, TableIn s.mem R f → TableIn mem R f ∨ frameRefs P pg f = 0
  free : ∃ L, FreeAt P direct (TableIn s.mem R) s.pg L ∧
    ∀ f, 1 ≤ frameRefs P pg f → OffLists P L f
  refs : ∀ f, 1 ≤ frameRefs P pg f →
    frameRefs P s.pg f = frameRefs P pg f - mappedFrom mem root c.first (q - c.first) f

variable (h : Walked P direct R root mem pg c q s) (hroot : root ∈ R)

include h hroot in
/-- A table that is missing is allocated. -/
theorem Walked.hang (hα : path s.mem root α = some f) (hlen : α.length < 3)
    (hnone : (s.mem f x).present = false)
    (hpage : mmPgalloc P s.pg MM_PHYSICAL_MEMORY_TYPE_AVAILABLE = .ok (page, pg'))
    (hne : pgRoundDown page ≠ 0) :
    ¬ TableIn s.mem R (pgRoundDown page) ∧ direct (pgRoundDown page) = true ∧
      Walked P direct R root mem pg c q ⟨link s.mem f x (tableEntry (pgRoundDown page))
        (pgRoundDown page) Entry.zero, pg', s.freed⟩ := by
  have h0 : page ≠ 0 := fun h0 => hne (by rw [h0]; rfl)
  obtain ⟨L, hfree, hoff⟩ := h.free
  obtain ⟨hpg, hdirect, hfresh, L', hfree', hsub⟩ := hfree.pgalloc hpage h0
  have htable : ∀ t, TableIn (link s.mem f x (tableEntry (pgRoundDown page)) (pgRoundDown page)
      Entry.zero) R t → TableIn s.mem R t ∨ t = pgRoundDown page := fun t ht =>
    TableOf.of_link (child_tableEntry _) Entry.child_zero hfresh ht
  refine ⟨hfresh, hdirect, h.first_le, h.le_stop, h.pages.hang hroot hα hlen hnone hfresh,
    fun t ht => ?_, fun t ht => ?_, ⟨L', hfree'.congr htable, fun g hg m hm b hb => ?_⟩,
    fun g hg => ?_⟩
  · rcases htable t ht with ht | rfl
    · exact h.inDirect t ht
    · exact hdirect
  · rcases htable t ht with ht | rfl
    · exact h.tables t ht
    · refine .inr (Nat.eq_zero_of_not_pos fun hpos => ?_)
      obtain ⟨area, pmad, mad, -, -, hmem, hmad, rfl, -⟩ := hfree.lists.pgalloc_eq hpage h0
      refine hoff _ hpos mad ?_ area hmem
      rw [hpg.unpgaddr_pgRoundDown, hfree.lists.found area mad hmem]
  · exact hoff g hg m hm b (hsub b hb)
  · rw [frameRefs_pgalloc hfree.lists hpage (hoff g hg)]
    exact h.refs g hg

include h hroot in
/-- There is no page for it. -/
theorem Walked.giveUp (hα : path s.mem root α = some f) (hlen : α.length < 3)
    (hnone : (s.mem f x).present = false)
    (hpage : mmPgalloc P s.pg MM_PHYSICAL_MEMORY_TYPE_AVAILABLE = .ok (page, pg'))
    (hzero : pgRoundDown page = 0) :
    Walked P direct R root mem pg c q
      ⟨write s.mem f x { s.mem f x with address := 0 }, pg', s.freed⟩ := by
  have habsent : Entry.present { s.mem f x with address := 0 } = false := hnone
  obtain ⟨L, hfree, hoff⟩ := h.free
  have h0 : page = 0 := by
    by_contra h0
    obtain ⟨hpg, -⟩ := hfree.pgalloc hpage h0
    have := hpg.unpgaddr_pgRoundDown
    rw [hzero] at this
    exact h0 this.symm
  obtain ⟨-, ⟨-, rfl⟩ | ⟨hne, -⟩⟩ := mmPgalloc_cases hpage
  swap
  · exact absurd h0 hne
  have htable : ∀ t, TableIn (write s.mem f x { s.mem f x with address := 0 }) R t →
      TableIn s.mem R t := by
    rintro t ⟨r, hr, π, hπ, ht⟩
    refine ⟨r, hr, π, hπ, ?_⟩
    rwa [follow_write_of_child ((Entry.child_eq_none habsent).trans
      (Entry.child_eq_none hnone).symm)] at ht
  exact ⟨h.first_le, h.le_stop, h.pages.keep_absent hroot hα hlen hnone habsent,
    fun t ht => h.inDirect t (htable t ht), fun t ht => h.tables t (htable t ht),
    ⟨L, hfree.congr htable, hoff⟩, h.refs⟩

include h hroot in
/-- **The PTE of the next page**: the frame it mapped loses a reference. -/
theorem Walked.put (hc : c.InHalf) (hrc : hasFlag c.flags MMAP_NO_RC = false) (hstop : q < c.stop)
    (hf : path s.mem root (Hal.tables q) = some f) {va : ℕ}
    (hdrop : (pgPlatform P ndebug direct tmpmap).drop c.flags va (s.mem f (slot q)) s = .ok s') :
    Walked P direct R root mem pg c (q + 1)
      { s' with mem := write s.mem f (slot q) (c.pte (c.pi (q - c.first))) } := by
  have hlt : q < 2 ^ 36 := hstop.trans hc.stop_lt
  have hfirst := h.first_le
  have htable : ∀ t, TableIn (write s.mem f (slot q) (c.pte (c.pi (q - c.first)))) R t →
      TableIn s.mem R t := by
    rintro t ⟨r, hr, π, hπ, ht⟩
    exact ⟨r, hr, π, hπ, (path_put h.pages.contexts hroot hf r hr π hπ).symm.trans ht⟩
  have hnext : mapping mem root q = (some (s.mem f (slot q))).filter Entry.present := by
    rw [← h.pages.mapping_next hroot hlt]
    exact mapping_of_pteAt (pteAt_eq_some_iff.mpr ⟨hf, rfl⟩)
  have hcount : ∀ g, mappedFrom mem root c.first (q + 1 - c.first) g =
      mappedFrom mem root c.first (q - c.first) g +
        if (mapping mem root q).map Entry.address = some g then 1 else 0 := fun g => by
    rw [Nat.sub_add_comm hfirst, mappedFrom_succ, Nat.add_sub_cancel' hfirst]
  obtain ⟨L, hfree, hoff⟩ := h.free
  refine ⟨hfirst.trans (Nat.le_succ q), hstop, h.pages.put hroot hfirst hlt hf,
    fun t ht => h.inDirect t (htable t ht), fun t ht => h.tables t (htable t ht), ?_, ?_⟩
  · rcases Platform.drop_cases hdrop with ⟨rfl, -⟩ | ⟨-, -, hpg⟩
    · exact ⟨L, hfree.congr htable, hoff⟩
    · exact ⟨L, (hfree.pgfree (Platform.free_eq hpg).2.2).congr htable, hoff⟩
  · intro g hg
    rw [hcount, hnext]
    rcases Platform.drop_cases hdrop with ⟨rfl, habsent | hno⟩ | ⟨hpres, -, hpg⟩
    · rw [Option.filter_some, habsent, if_neg Bool.false_ne_true]
      exact h.refs g hg
    · rw [hrc] at hno
      cases hno
    · have hfree' := frameRefs_pgfree (P := P) (Platform.free_eq hpg).2.2 g
      rw [Option.filter_some, if_pos hpres, Option.map_some, hfree', h.refs g hg]
      by_cases hgf : (s.mem f (slot q)).address = g
      · rw [if_pos (by rw [hgf]), if_pos (by rw [hgf])]
        omega
      · rw [if_neg fun heq => hgf (unpgaddr_injective heq).symm,
          if_neg fun heq => hgf (Option.some.inj heq), Nat.add_zero]

/-- **The references along the walk of `kh_mmap`.** -/
theorem walkInv_walked (hroot : root ∈ R) (hc : c.InHalf)
    (hrc : hasFlag c.flags MMAP_NO_RC = false) :
    WalkInv (pgPlatform P ndebug direct tmpmap) c root (Walked P direct R root mem pg c)
      fun s => ∃ q, Walked P direct R root mem pg c q s where
  tree h := h.pages.contexts.tree hroot
  direct h hf := h.inDirect _ ⟨root, hroot, hf⟩
  link h hα hpre _ hnone hpage hne := by
    obtain ⟨hfresh, hdirect, h'⟩ :=
      h.hang hroot hα (length_lt_of_prefix_tables hpre) hnone hpage hne
    exact ⟨fun ht => hfresh ⟨root, hroot, ht⟩, hdirect, h'⟩
  fail h hα hpre _ hnone hpage hzero :=
    ⟨_, h.giveUp hroot hα (length_lt_of_prefix_tables hpre) hnone hpage hzero⟩
  put h _ hstop hf hdrop := by
    obtain ⟨va, hdrop⟩ := hdrop
    exact h.put hroot hc hrc hstop hf hdrop

end Walk

/-! ## Frames in use -/

section Property

variable {D : Set ℕ} {c : MmapArgs} {r : VRange} {q : ℕ} {s s' : VmState PgState}

variable (P direct R) in
/-- The contexts share tables at the same level only, all tables are in the direct map, and the
pages that `mm_pgalloc` has left are none of them. -/
structure TablesSound (s : VmState PgState) : Prop where
  contexts : Contexts s.mem R
  inDirect : ∀ f, TableIn s.mem R f → direct f = true
  free : ∃ L, FreeAt P direct (TableIn s.mem R) s.pg L

variable (R D) in
/-- A page of one of the contexts maps the frame.  `D` is for pages that are mapped at boot for good
and count no references, as the direct map. -/
def InUse (mem : Mem) (f : Frame) : Prop :=
  ∃ r ∈ R, ∃ p < 2 ^ 36, p ∉ D ∧ ∃ e, mapping mem r p = some e ∧ e.address = f

variable (P R D) in
/-- **The property**: a frame that is mapped has references. -/
def Referenced (s : VmState PgState) : Prop := ∀ f, InUse R D s.mem f → 1 ≤ frameRefs P s.pg f

/-- The call maps the frame. -/
def Maps (c : MmapArgs) (f : Frame) : Prop :=
  hasFlag c.access MM_PAGE_MAPPED = true ∧
    ∃ k < c.size / 4096, (c.pte (c.pi k)).address = f

variable (R root D c) in
/-- The frame is mapped once the call has returned: by the call itself, or by a PTE that is none of
the range's. -/
def StillUsed (mem : Mem) (f : Frame) : Prop :=
  Maps c f ∨ ∃ r ∈ R, ∃ p < 2 ^ 36, p ∉ D ∧
    (∀ k < c.size / 4096, pteAt mem r p ≠ pteAt mem root (c.first + k)) ∧
    ∃ e, mapping mem r p = some e ∧ e.address = f

variable (P R root D c) in
/-- A frame that is mapped once the call has returned has more references than PTEs in the range. -/
def Outlasts (s : VmState PgState) : Prop :=
  ∀ f, StillUsed R root D c s.mem f → mappedTimes s.mem root c.toVRange f < frameRefs P s.pg f

variable (P R root D c) in
/-- **The condition on a call of `kh_mmap`.**  It may run out of pages, and then some PTEs of the
range stay as they are (`times`), and a range over several PML4 entries is walked by `kh_unmmap`,
which gives back tables of the context and the frame 0 (`apart`). -/
structure Fits (s : VmState PgState) : Prop where
  half : c.InHalf
  outlasts : Outlasts P R root D c s
  times : ∀ f, mappedTimes s.mem root c.toVRange f ≤ frameRefs P s.pg f
  apart : pml4x c.vaddr < pml4x c.limit →
    ∀ f, InUse R D s.mem f ∨ Maps c f → f ≠ 0 ∧ ¬ Table s.mem root f

theorem mappedFrom_stop (mem : Mem) (root : Frame) (c : MmapArgs) (f : Frame) :
    mappedFrom mem root c.first (c.stop - c.first) f = mappedTimes mem root c.toVRange f := by
  rw [VRange.stop, Nat.add_sub_cancel_left]
  rfl

theorem StillUsed.source (h : StillUsed R root D c mem f) : InUse R D mem f ∨ Maps c f := by
  obtain h | ⟨r, hr, p, hp, hD, -, h⟩ := h
  · exact .inr h
  · exact .inl ⟨r, hr, p, hp, hD, h⟩

section Walked

variable (h : Walked P direct R root s.mem s.pg c q s') (hroot : root ∈ R)

include h in
theorem Walked.sound : TablesSound P direct R s' :=
  ⟨h.pages.contexts, h.inDirect, h.free.imp fun _ h => h.1⟩

include h in
theorem Walked.maps (hk : c.first + k < q)
    (hpres : (c.pte (c.pi k)).present = true) : Maps c (c.pte (c.pi k)).address := by
  have hle := h.le_stop
  unfold VRange.stop at hle
  exact ⟨(pte_present c _).symm.trans hpres, k, by omega, rfl⟩

include h in
theorem Walked.refs_ge (hf : 1 ≤ frameRefs P s.pg f) :
    frameRefs P s.pg f - mappedTimes s.mem root c.toVRange f ≤ frameRefs P s'.pg f := by
  have hle := h.le_stop
  have hmono : mappedFrom s.mem root c.first (q - c.first) f ≤
      mappedTimes s.mem root c.toVRange f := by
    rw [← mappedFrom_stop]
    exact mappedFrom_mono (by omega)
  rw [h.refs f hf]
  omega

include h hroot in
/-- **What is mapped on the way has references left**: its PTEs outside the range and the new ones
are few enough, and so are those the walk has not come to. -/
theorem Walked.referenced (href : Referenced P R D s)
    (hmaps : ∀ f, Maps c f → 1 ≤ frameRefs P s.pg f) (hout : Outlasts P R root D c s)
    (htimes : q = c.stop ∨ ∀ f, mappedTimes s.mem root c.toVRange f ≤ frameRefs P s.pg f) :
    Referenced P R D s' := by
  rintro f ⟨r, hr, p, hp, hD, e, he, rfl⟩
  rcases h.pages.mapped hroot hr he with ⟨k, hk, rfl⟩ | ⟨hold, hne⟩
  · obtain ⟨-, -, -, -, hpres⟩ := exists_pteAt he
    have hnew := h.maps hk hpres
    have hlt := hout _ (.inl hnew)
    have hge := h.refs_ge (hmaps _ hnew)
    omega
  · have hpos := href _ ⟨r, hr, p, hp, hD, e, hold, rfl⟩
    by_cases hin : ∃ k < c.size / 4096, pteAt s.mem r p = pteAt s.mem root (c.first + k)
    · obtain ⟨k, hk, heq⟩ := hin
      have hq : q ≤ c.first + k := Nat.le_of_not_lt fun hlt => hne k hlt heq
      have hfirst := h.first_le
      have htimes := htimes.resolve_left fun hstop => by
        rw [hstop, VRange.stop] at hq
        omega
      have hmap : mapping s.mem root (c.first + k) = some e := by
        rw [mapping_eq_pteAt, ← heq, ← mapping_eq_pteAt, hold]
      have hlt := mappedFrom_lt (m := q - c.first) (n := c.stop - c.first) (by omega)
        (by rw [VRange.stop]; omega) hmap
      rw [mappedFrom_stop] at hlt
      have hle := htimes e.address
      rw [h.refs _ hpos]
      omega
    · have hkept : StillUsed R root D c s.mem e.address :=
        .inr ⟨r, hr, p, hp, hD, fun k hk heq => hin ⟨k, hk, heq⟩, e, hold, rfl⟩
      have hlt := hout _ hkept
      have hge := h.refs_ge hpos
      omega

end Walked

/-! ## The two walks -/

variable {res : KmResult} {flags : UInt32}

/-- **`kh_unmmap` leaves the mapped frames their references**, if it walks one PML4 entry only or no
table of the context is mapped. -/
theorem khUnmmap_referenced (hs : TablesSound P direct R s) (hroot : root ∈ R) (hr : r.OneHalf)
    (href : Referenced P R D s)
    (hapart : pml4x r.vaddr < pml4x r.limit → ∀ f, InUse R D s.mem f → f ≠ 0 ∧ ¬ Table s.mem root f)
    (h : khUnmmap (pgPlatform P ndebug direct tmpmap) r flags root s = .ok s') :
    TablesSound P direct R s' ∧ Referenced P R D s' := by
  by_cases hle : pml4x r.limit ≤ pml4x r.vaddr
  · rw [khUnmmap_of_le hr hle] at h
    cases h
    exact ⟨hs, href⟩
  obtain ⟨hscrub, l, hl, hfree, hrefs⟩ := khUnmmap_scrubbed
    (I := fun t => ∃ l, t.freed = l ++ s.freed ∧ (∃ L, FreeAt P direct (TableIn s.mem R) t.pg L) ∧
      ∀ f, f ∉ l → frameRefs P t.pg f = frameRefs P s.pg f)
    (fun {f t t'} ⟨l, hl, ⟨L, hL⟩, hrefs⟩ hfree => by
      obtain ⟨-, hfreed, hpg⟩ := Platform.free_eq hfree
      refine ⟨f :: l, by rw [hfreed, hl]; rfl, ⟨L, hL.pgfree hpg⟩, fun g hg => ?_⟩
      have hne : g ≠ f := List.ne_of_not_mem_cons hg
      rw [frameRefs_pgfree hpg, if_neg fun heq => hne (unpgaddr_injective heq),
        hrefs g (List.not_mem_of_not_mem_cons hg)])
    (fun _ h => h) (hs.contexts.tree hroot) (fun f hf => hs.inDirect f ⟨root, hroot, hf⟩)
    ⟨[], rfl, hs.free, fun _ _ => rfl⟩ h
  refine ⟨⟨hscrub.contexts hs.contexts, fun f hf => hs.inDirect f (hscrub.tableIn hf),
    hfree.imp fun _ h => h.congr fun f hf => hscrub.tableIn hf⟩, fun f hf => ?_⟩
  have hf' : InUse R D s.mem f := by
    obtain ⟨r, hr, p, hp, hD, e, he, hef⟩ := hf
    exact ⟨r, hr, p, hp, hD, e, hscrub.mapping_mono he, hef⟩
  obtain ⟨hzero, htable⟩ := hapart (by omega) f hf'
  obtain ⟨l', hl', hmem⟩ := hscrub.freed hr
  obtain rfl : l' = l := List.append_cancel_right (hl'.symm.trans hl)
  rw [hrefs f fun hin => (hmem f hin).elim hzero htable]
  exact href f hf'

section Mmap

variable (hs : TablesSound P direct R s) (hroot : root ∈ R) (href : Referenced P R D s)
  (hrc : hasFlag c.flags MMAP_NO_RC = false) (hmaps : ∀ f, Maps c f → 1 ≤ frameRefs P s.pg f)
  (hpaddr : c.paddr < 2 ^ 64)

include hs hroot hrc hpaddr in
/-- How `kh_mmap` ends. -/
theorem khMmap_walked (hc : c.InHalf)
    (h : khMmap (pgPlatform P ndebug direct tmpmap) c root s = .ok (res, s')) :
    res = .ok ∧ Walked P direct R root s.mem s.pg c c.stop s' ∨
      res = .noMem ∧ ∃ s'', (∃ q, Walked P direct R root s.mem s.pg c q s'') ∧
        khUnmmap (pgPlatform P ndebug direct tmpmap) c.toVRange 0 root s'' = .ok s' := by
  have hstart : Walked P direct R root s.mem s.pg c c.first ⟨s.mem, s.pg, s.freed⟩ :=
    { first_le := le_rfl
      le_stop := hc.first_lt_stop.le
      pages := .start hs.contexts
      inDirect := hs.inDirect
      tables _ := .inl
      free := hs.free.imp fun _ h => ⟨h, fun _ => offLists_of_frameRefs h.lists⟩
      refs f _ := by rw [Nat.sub_self]; rfl }
  exact khMmap_of_walkInv (walkInv_walked hroot hc hrc) hc hpaddr hstart h

include hs hroot href hrc hmaps hpaddr

/-- **`kh_mmap` leaves the mapped frames their references**, under the condition. -/
theorem khMmap_referenced (hfit : Fits P R root D c s)
    (h : khMmap (pgPlatform P ndebug direct tmpmap) c root s = .ok (res, s')) :
    TablesSound P direct R s' ∧ Referenced P R D s' := by
  rcases khMmap_walked hs hroot hrc hpaddr hfit.half h with
    ⟨-, hw⟩ | ⟨-, s'', ⟨q, hw⟩, hunmap⟩
  · exact ⟨hw.sound, hw.referenced hroot href hmaps hfit.outlasts (.inl rfl)⟩
  · refine khUnmmap_referenced hw.sound hroot hfit.half.oneHalf
      (hw.referenced hroot href hmaps hfit.outlasts (.inr hfit.times)) (fun hlt f hf => ?_) hunmap
    have hsource : InUse R D s.mem f ∨ Maps c f := by
      obtain ⟨r, hr, p, hp, hD, e, he, rfl⟩ := hf
      rcases hw.pages.mapped hroot hr he with ⟨k, hk, rfl⟩ | ⟨hold, -⟩
      · obtain ⟨-, -, -, -, hpres⟩ := exists_pteAt he
        exact .inr (hw.maps hk hpres)
      · exact .inl ⟨r, hr, p, hp, hD, e, hold, rfl⟩
    obtain ⟨hzero, htable⟩ := hfit.apart hlt f hsource
    refine ⟨hzero, fun ⟨π, hπ, ht⟩ => htable ⟨π, hπ, ?_⟩⟩
    have hpos : 1 ≤ frameRefs P s.pg f := hsource.elim (href f) (hmaps f)
    rcases hw.tables f ⟨root, hroot, π, hπ, ht⟩ with hold | h0
    · exact hw.pages.grown.back hroot hπ ht hold
    · omega

/-- **A call that succeeds leaves the mapped frames references exactly when they have enough.** -/
theorem khMmap_referenced_iff (hc : c.InHalf) (hD : ∀ k < c.size / 4096, c.first + k ∉ D)
    (h : khMmap (pgPlatform P ndebug direct tmpmap) c root s = .ok (.ok, s')) :
    Referenced P R D s' ↔ Outlasts P R root D c s := by
  obtain ⟨-, hw⟩ | ⟨hno, -⟩ := khMmap_walked hs hroot hrc hpaddr hc h
  swap
  · cases hno
  refine ⟨fun href' f hf => ?_, fun hout => hw.referenced hroot href hmaps hout (.inl rfl)⟩
  have hpos : 1 ≤ frameRefs P s.pg f := hf.source.elim (href f) (hmaps f)
  have huse : InUse R D s'.mem f := by
    obtain ⟨hmapped, k, hk, rfl⟩ | ⟨r, hr, p, hp, hpD, hne, e, he, rfl⟩ := hf
    · have hlt : c.first + k < c.stop := by rw [VRange.stop]; omega
      exact ⟨root, hroot, c.first + k, hlt.trans hc.stop_lt, hD k hk, _,
        hw.pages.mapping_done hlt (present_pte hmapped _), rfl⟩
    · refine ⟨r, hr, p, hp, hpD, e, hw.pages.mapping_kept hroot hr he fun k hk => hne k ?_, rfl⟩
      rw [VRange.stop] at hk
      omega
  have hge := href' f huse
  rw [hw.refs f hpos, mappedFrom_stop] at hge
  omega

end Mmap

end Property

end Pbos.Mm
