import Pbos.Hal.MmapEarlyTree
import Pbos.Hal.VmallocSearch

/-!
# Hal/VmallocFound — what `kh_vmalloc` and `mm_vmalloc_early` find

Both add up the sizes of absent entries, wherever they lie, and return the first page that is seen
to be free if the sum is enough; `mm_vmalloc_early` returns the start of the absent entry, which may
lie before `minaddr`.  `vmalloc_good_iff` says when the range that is returned is free and within
the bounds.
-/

namespace Pbos.Hal

open Radix KernelImage

variable {body : ℕ → FreeArea → Except Fault (Turn FreeArea)} {stop : ℕ → FreeArea → Bool}
  {α : List (Fin 512)} {σ : Type} {e va : ℕ → ℕ} {S : ℕ}

/-! ## `mm_vmalloc_early` -/

namespace KernelImage

variable (K : KernelImage) (v : VmallocArgs)

/-- One turn of an upper loop: leave, count an absent entry as free, or search the table below a
present one, through a window, with the loop `inner`. -/
def searchEarly (stop : Bool) (e : Entry) (va len : ℕ)
    (inner : ℕ → FreeArea → Except Fault (Exit FreeArea)) (t : FreeArea) :
    Except Fault (Turn FreeArea) :=
  if stop then .ok (.brk t)
  else if !e.present then .ok (.next (t.add va len))
  else do
    let (w, mem) ← K.hnTmpmapEarly (unpgaddr e.address) PAGESIZE (PTE_P ||| PTE_RW) t.mem
    let t ← match ← inner w { t with mem := mem } with
      | .done _ t => .ok t
      | .ret t => .ok t
    let mem ← K.hnTmpunmapEarly w PAGESIZE t.mem
    .ok (.next { t with mem := mem })

/-- One turn of the loop over PTEs, which is that of `kh_vmalloc` at the table the window shows. -/
def earlyFindPte (i4 i3 i2 ptt i1 : ℕ) (t : FreeArea) : Except Fault (Turn FreeArea) :=
  findPte v i4 i3 i2 (K.shown t.mem ptt) i1 t

/-- One turn of the loop over PDEs. -/
def earlyFindPde (i4 i3 pdt i2 : ℕ) (t : FreeArea) : Except Fault (Turn FreeArea) :=
  let pdt_vaddr := v.range.entryVaddr i4 i3 i2 0
  let first := v.range.firstPtx i4 i3 i2
  K.searchEarly (v.size ≤ t.szFound ∨ v.addrLimit ≤ pdt_vaddr)
    (entryAt t.mem (K.shown t.mem pdt) i2) pdt_vaddr (uvaddr 0 0 1 0 0)
    (fun ptt => forLoop (K.earlyFindPte v i4 i3 i2 ptt) (512 - first) first) t

/-- One turn of the loop over PDPTEs. -/
def earlyFindPdpte (i4 pdpt i3 : ℕ) (t : FreeArea) : Except Fault (Turn FreeArea) :=
  let pdpt_vaddr := v.range.entryVaddr i4 i3 0 0
  let first := v.range.firstPdx i4 i3
  K.searchEarly (v.size ≤ t.szFound ∨ v.addrLimit ≤ pdpt_vaddr)
    (entryAt t.mem (K.shown t.mem pdpt) i3) pdpt_vaddr (uvaddr 0 1 0 0 0)
    (fun pdt => forLoop (K.earlyFindPde v i4 i3 pdt) (512 - first) first) t

/-- One turn of the loop over PML4 entries, which does not ask for `addr_limit`. -/
def earlyFindPml4e (pml4t : Frame) (i4 : ℕ) (t : FreeArea) : Except Fault (Turn FreeArea) :=
  let first := v.range.firstPdptx i4
  K.searchEarly (v.size ≤ t.szFound) (entryAt t.mem pml4t i4) (v.range.entryVaddr i4 0 0 0)
    (uvaddr 1 0 0 0 0) (fun pdpt => forLoop (K.earlyFindPdpte v i4 pdpt) (512 - first) first) t

/-- `mm_vmalloc_early`: the address that is returned, `0` for null.  Nothing is reserved. -/
def mmVmallocEarly (pml4t : Frame) (mem : Mem) : Except Fault (ℕ × Mem) :=
  if addrPrefix v.minaddr ≠ addrPrefix v.maxaddr then
    .error (.panic
      "The address prefix of the minimum address and the maximum address does not match" [])
  else do
    let t ← match ← forLoop (K.earlyFindPml4e v pml4t) (pml4x v.maxaddr + 1 - pml4x v.minaddr)
        (pml4x v.minaddr) ⟨mem, 0, 0⟩ with
      | .done _ t => .ok t
      | .ret t => .ok t
    .ok (if v.size ≤ t.szFound then t.pFound else 0, t.mem)

end KernelImage

/-! ## The two searches -/

section Kh

variable {σ : Type} {A : Platform σ} {v : VmallocArgs} {mem : Mem} {root : Frame} (hb : v.InBounds)
  (hfit : v.Fits) (hdirect : ∀ f, Table mem root f → A.direct f = true) {f : Frame}

include hb

/-- `kh_vmalloc` takes an address before `minaddr` for `minaddr`. -/
theorem max_vaddrOf (b : ℕ) : max (v.vaddrOf b) v.minaddr = v.vaddrOf (max v.lo b) := by
  have hlo := hb.vaddrOf_lo
  rw [← hlo]
  simp only [VmallocArgs.vaddrOf]
  omega

omit hb in
include hdirect in
/-- A turn of an upper loop of `kh_vmalloc`. -/
theorem searchEntry_turns (len : ℕ) (inner : ℕ → Frame → FreeArea → Except Fault (Exit FreeArea))
    (hbody : ∀ y t, body y t =
      searchEntry A v (stop y t) (entryAt t.mem f y) (va y) len (inner y) t)
    (hα : path mem root α = some f) (hlen : α.length < 3)
    (hinner : ∀ y g, y < 512 → path mem root (α ++ [Fin.ofNat 512 y]) = some g →
      v.lo < e y + S → Finds v mem root (max · v.minaddr) (· = mem) (inner y g) (e y) (e y + S)) :
    Turns v mem root f (max · v.minaddr) (· = mem) e S len va stop body where
  leave y t hs := (hbody y t).trans (if_pos hs)
  count y t hy hs hmem _ habsent := by
    rw [hbody, searchEntry, hmem, hs, habsent]
    rfl
  enter y t hy hs hmem hlo hpres ht := by
    have hg := path_present hα hpres
    have hg' : A.direct (entryAt mem f y).address = true :=
      hdirect _ ⟨_, by rw [List.length_append]; exact hlen, hg⟩
    obtain ⟨z, t', hok, hmem', ht'⟩ := hinner y _ hy hg hlo t hmem ht
    refine ⟨t', ?_, hmem', ht'⟩
    rw [hbody, searchEntry, hmem, hs, hpres]
    refine bind_eq_ok_iff.mpr ⟨mem, if_pos hg', ?_⟩
    obtain rfl := hmem
    exact bind_eq_ok_iff.mpr ⟨_, hok, rfl⟩

include hfit hdirect in
/-- **The search of `kh_vmalloc`** comes to an end. -/
theorem findPml4e_loop : ∃ p, Finds v mem root (max · v.minaddr) (· = mem)
    (forLoop (findPml4e A v root) (pml4x v.maxaddr + 1 - pml4x v.minaddr) (pml4x v.minaddr)) 0
    p := by
  refine ⟨_, (searchEntry_turns hdirect _ (fun i4 pdpt => forLoop (findPdpte A v i4 pdpt)
    (512 - v.range.firstPdptx i4) (v.range.firstPdptx i4)) (fun _ _ => rfl) follow_nil
    (by decide : 0 < 3) fun i4 g h4 hg hlo => ?_).finds level_pml4e
    (scan_pml4e hb)⟩
  refine pdpteLoop_finds hb hfit h4 hlo hg (searchEntry_turns hdirect _
    (fun i3 pdt => forLoop (findPde A v i4 i3 pdt) (512 - v.range.firstPdx i4 i3)
      (v.range.firstPdx i4 i3)) (fun _ _ => rfl) hg (by decide : 1 < 3) fun i3 g h3 hg hlo => ?_)
  refine pdeLoop_finds hb hfit h4 h3 hlo hg (searchEntry_turns hdirect _
    (fun i2 ptt => forLoop (findPte v i4 i3 i2 ptt) (512 - v.range.firstPtx i4 i3 i2)
      (v.range.firstPtx i4 i3 i2)) (fun _ _ => rfl) hg (Nat.lt_succ_self 2)
    fun i2 f h2 hf hlo => ?_)
  refine pteLoop_finds hb hfit h4 h3 h2 (fun _ => f) (fun p hle => ?_) hlo hf
    fun i1 t _ hmem _ _ => by rw [hmem]
  rw [max_vaddrOf hb, max_eq_right hle]

end Kh

section Early

variable {K : KernelImage} {v : VmallocArgs} {mem : Mem} {root : Frame}
  (hT : EarlyTables K root mem) (hb : v.InBounds) (hfit : v.Fits)
  (hout : ∀ p, v.lo ≤ p → p < v.limitPage → ¬ K.InArea p) {W : List (ℕ × Frame)} {f : Frame}

include hT

/-- A turn of an upper loop of `mm_vmalloc_early`. -/
theorem searchEarly_turns (len : ℕ) (inner : ℕ → ℕ → FreeArea → Except Fault (Exit FreeArea))
    (table : FreeArea → Frame) (hbody : ∀ y t, body y t =
      K.searchEarly (stop y t) (entryAt t.mem (table t) y) (va y) len (inner y) t)
    (hα : path mem root α = some f) (hlen : α.length < 3) (hW : W.length < 3)
    (htable : ∀ t : FreeArea, K.Shade W mem t.mem → table t = f)
    (hinner : ∀ y g k, y < 512 → path mem root (α ++ [Fin.ofNat 512 y]) = some g →
      v.lo < e y + S → Finds v mem root id (K.Shade ((k, g) :: W) mem)
        (inner y (kaddr k)) (e y) (e y + S)) :
    Turns v mem root f id (K.Shade W mem) e S len va stop body := by
  have hread : ∀ y (t : FreeArea), K.Shade W mem t.mem →
      entryAt t.mem (table t) y = entryAt mem f y := fun y t hs => by
    rw [htable t hs, entryAt, hs.frame (hT.not_isPtt hα hlen)]
    rfl
  refine ⟨fun y t hs => (hbody y t).trans (if_pos hs), fun y t hy hstop hs _ habsent => ?_,
    fun y t hy hstop hs hlo hpres ht => ?_⟩
  · rw [hbody, searchEarly, hread y t hs, hstop, habsent]
    rfl
  · obtain ⟨k, shaded, hopen, hs', hclose⟩ :=
      hnTmpmapEarly_open hT.able hs hW (entryAt mem f y).address
    obtain ⟨z, t', hok, hs'', ht'⟩ :=
      hinner y _ k hy (path_present hα hpres) hlo { t with mem := shaded } hs' ht
    obtain ⟨shaded₃, hunmap, hs₃⟩ := hclose hs''
    refine ⟨{ t' with mem := shaded₃ }, ?_, hs₃, ht'⟩
    rw [hbody, searchEarly, hread y t hs, hstop, hpres]
    refine bind_eq_ok_iff.mpr ⟨_, hopen, ?_⟩
    refine bind_eq_ok_iff.mpr ⟨_, hok, ?_⟩
    exact bind_eq_ok_iff.mpr ⟨t', rfl, bind_eq_ok_iff.mpr ⟨_, hunmap, rfl⟩⟩

include hb hfit hout in
/-- **The search of `mm_vmalloc_early`** comes to an end, and all windows are closed. -/
theorem earlyFindPml4e_loop : ∃ p, Finds v mem root id (K.Shade [] mem)
    (forLoop (K.earlyFindPml4e v root) (pml4x v.maxaddr + 1 - pml4x v.minaddr) (pml4x v.minaddr))
    0 p := by
  refine ⟨_, (searchEarly_turns (W := []) hT _ (fun i4 pdpt => forLoop (K.earlyFindPdpte v i4 pdpt)
    (512 - v.range.firstPdptx i4) (v.range.firstPdptx i4)) (fun _ => root) (fun _ _ => rfl)
    follow_nil (by decide : 0 < 3) (by decide : 0 < 3) (fun _ _ => rfl)
    fun i4 g j h4 hg hlo => ?_).finds level_pml4e (scan_pml4e hb)⟩
  refine pdpteLoop_finds hb hfit h4 hlo hg (searchEarly_turns hT _
    (fun i3 pdt => forLoop (K.earlyFindPde v i4 i3 pdt) (512 - v.range.firstPdx i4 i3)
      (v.range.firstPdx i4 i3)) (fun t => K.shown t.mem (kaddr j)) (fun _ _ => rfl) hg
    (by decide : 1 < 3) (by decide : 1 < 3) (fun t hs => hs.shown) fun i3 g k h3 hg hlo => ?_)
  refine pdeLoop_finds hb hfit h4 h3 hlo hg (searchEarly_turns hT _
    (fun i2 ptt => forLoop (K.earlyFindPte v i4 i3 i2 ptt) (512 - v.range.firstPtx i4 i3 i2)
      (v.range.firstPtx i4 i3 i2)) (fun t => K.shown t.mem (kaddr k)) (fun _ _ => rfl) hg
    (Nat.lt_succ_self 2) (Nat.lt_succ_self 2) (fun t hs => hs.shown) fun i2 f l h2 hf hlo => ?_)
  refine pteLoop_finds hb hfit h4 h3 h2 (fun t => K.shown t.mem (kaddr l))
    (fun p hle => rfl) hlo hf fun i1 t h1 hs hle hlt => ?_
  have hpath : path mem root (tables (spell i4 i3 i2 i1)) = some f := by
    rw [tables_spell h3 h2 h1]
    exact hf
  have hpage : spell i4 i3 i2 i1 < 2 ^ 36 := by
    rw [spell]
    omega
  have hslot := hT.not_areaSlot hpath hpage (hout _ hle hlt)
  rw [slot_spell] at hslot
  rw [hs.shown, entryAt, hs.read hslot]
  rfl

end Early

/-! ## What is returned -/

section Found

variable {v : VmallocArgs} {mem : Mem} {root : Frame} {take : ℕ → ℕ}

/-- What has been found is the address of the first free page, if it is not null. -/
theorem Searched.found {p : ℕ} {t : FreeArea} (h : Searched v mem root take p t)
    (hp : t.pFound ≠ 0) :
    ∃ q, v.First mem root take q ∧ t.pFound = take (v.vaddrOf (gapStart mem root q)) :=
  ((h.resolve_left fun h => hp h.1).resolve_right fun h => hp h.1).2

/-- Where `kh_vmalloc` takes the first free page to be. -/
theorem VmallocArgs.First.max_eq {q : ℕ} (hb : v.InBounds)
    (h : v.First mem root (max · v.minaddr) q) :
    max (v.vaddrOf (gapStart mem root q)) v.minaddr = v.vaddrOf q := by
  rw [max_vaddrOf hb]
  obtain heq | rfl := h.gapStart_eq
  · rw [heq, max_eq_right h.lo_le]
  · rw [max_eq_left gapStart_le]

/-- **`kh_vmalloc` returns null, or tries to reserve the range at null or at the first page that is
seen to be free.** -/
theorem khVmalloc_cases {A : Platform σ} {s : VmState σ} (hb : v.InBounds)
    (hfit : v.Fits) (hdirect : ∀ f, Table s.mem root f → A.direct f = true) :
    khVmalloc A v root s = .ok (0, s) ∨
      ∃ p, (p = 0 ∨ ∃ q, v.First s.mem root (max · v.minaddr) q ∧ p = v.vaddrOf q) ∧
        khVmalloc A v root s = (do
          let (r, s) ← khMmap A (v.reserve p) root s
          if r = .ok then .ok (p, s) else .error (.panic "Unwrap failed!" [])) := by
  obtain ⟨p, hfinds⟩ := findPml4e_loop hb hfit hdirect
  obtain ⟨y, t, hloop, hmem, ht⟩ := hfinds ⟨s.mem, 0, 0⟩ rfl searched_zero
  have hkh : khVmalloc A v root s = takeFound A v root t s := by
    rw [khVmalloc, if_neg fun h => h.2 hb.addrPrefix_maxaddr, hloop]
    rfl
  rw [hkh, takeFound, hmem]
  by_cases hsz : v.size ≤ t.szFound
  · rw [if_pos hsz]
    refine .inr ⟨t.pFound, or_iff_not_imp_left.mpr fun hp => ?_, rfl⟩
    obtain ⟨q, hfirst, hq⟩ := ht.found hp
    exact ⟨q, hfirst, hq.trans (hfirst.max_eq hb)⟩
  · rw [if_neg hsz]
    exact .inl rfl

/-- **`mm_vmalloc_early` returns null, or the start of the gap of the first page that is seen to be
free**. -/
theorem mmVmallocEarly_cases {K : KernelImage} (hT : EarlyTables K root mem) (hb : v.InBounds)
    (hfit : v.Fits) (hout : ∀ p, v.lo ≤ p → p < v.limitPage → ¬ K.InArea p) :
    ∃ p mem', K.mmVmallocEarly v root mem = .ok (p, mem') ∧
      (p ≠ 0 → ∃ q, v.First mem root id q ∧ p = v.vaddrOf (gapStart mem root q)) := by
  obtain ⟨p, hfinds⟩ := earlyFindPml4e_loop hT hb hfit hout
  obtain ⟨y, t, hloop, -, ht⟩ := hfinds ⟨mem, 0, 0⟩ shade_refl searched_zero
  refine ⟨if v.size ≤ t.szFound then t.pFound else 0, t.mem, ?_, fun hp => ?_⟩
  · rw [KernelImage.mmVmallocEarly, if_neg fun h => h hb.addrPrefix_maxaddr, hloop]
    rfl
  · by_cases hsz : v.size ≤ t.szFound
    · rw [if_pos hsz] at hp ⊢
      exact ht.found hp
    · exact absurd (if_neg hsz) hp

end Found

/-! ## Main result -/

/-- **What is asked of an address that is returned**: the range is within the bounds, and no page of
it is mapped. -/
structure VmallocArgs.Good (v : VmallocArgs) (mem : Mem) (root : Frame) (p : ℕ) : Prop where
  aligned : p % 4096 = 0
  minaddr_le : v.minaddr ≤ p
  le_maxaddr : p + v.size ≤ v.maxaddr
  free : ∀ a, p ≤ a → a < p + v.size → mapping mem root (pageNo a) = none

/-- The lowest page that is not mapped, gaps at null apart, where the range would be good, and the
search sees it. -/
structure VmallocArgs.Lowest (v : VmallocArgs) (mem : Mem) (root : Frame) (take : ℕ → ℕ) (q : ℕ) :
    Prop where
  lo_le : v.lo ≤ q
  mapped : ∀ p, v.lo ≤ p → p < q → mapping mem root p = none → v.Null mem root take p
  good : v.Good mem root (v.vaddrOf q)
  seen : v.Seen mem root q
  notNull : ¬ v.Null mem root take q

section Main

variable {v : VmallocArgs} {mem : Mem} {root : Frame} {p q q' : ℕ} {take : ℕ → ℕ}
  (hb : v.InBounds)

include hb

theorem VmallocArgs.Good.fits (h : v.Good mem root p) (hp : p ≠ 0) : v.Fits := by
  obtain ⟨-, hmax, -⟩ := hb.facts
  have := h.aligned
  have := h.minaddr_le
  have := h.le_maxaddr
  rw [VmallocArgs.Fits, pgCeil_eq]
  omega

theorem VmallocArgs.Good.le_limitPage (h : v.Good mem root (v.vaddrOf q)) : q ≤ v.limitPage := by
  have hle := h.le_maxaddr
  obtain ⟨hhi, _, _⟩ := hb.vaddrOf_hi
  rw [VmallocArgs.vaddrOf] at hle hhi
  rw [VmallocArgs.limitPage]
  omega

/-- If the range at the first page seen to be free is good, the pages that were not seen do not lie
before it. -/
theorem VmallocArgs.First.lowest (h : v.First mem root take q)
    (hgood : v.Good mem root (v.vaddrOf q)) : v.Lowest mem root take q where
  lo_le := h.lo_le
  mapped p hlo hlt hfree := by
    by_contra hnull
    have hseen : ¬ v.Seen mem root p := fun hseen => hnull (h.before p hlo hlt hseen hfree)
    have hlimit : v.limitPage ≤ p := by
      refine le_trans (not_lt.mp fun hlt => hseen (.inr hlt)) gapStart_le
    have := hgood.le_limitPage hb
    omega
  good := hgood
  seen := h.seen
  notNull := h.notNull

theorem VmallocArgs.Lowest.eq_of_first (h : v.Lowest mem root take q)
    (hfirst : v.First mem root take q') : q' = q := by
  have hpage : q < 2 ^ 36 := by
    have := h.good.le_limitPage hb
    have := hb.vaddrOf_hi.2.1
    rw [VmallocArgs.limitPage] at *
    omega
  have hsize := hb.size_pos
  have hfree : mapping mem root q = none := by
    have := h.good.free (v.vaddrOf q) le_rfl (by omega)
    rwa [hb.pageNo_vaddrOf hpage] at this
  rcases lt_trichotomy q' q with hlt | heq | hlt
  · exact absurd (h.mapped q' hfirst.lo_le hlt hfirst.free) hfirst.notNull
  · exact heq
  · exact absurd (hfirst.before q h.lo_le hlt h.seen hfree) h.notNull

/-- The lowest page is not at null itself. -/
theorem VmallocArgs.Lowest.fits (h : v.Lowest mem root take q)
    (htake : v.minaddr = 0 → take 0 = 0) : v.Fits := by
  refine h.good.fits hb fun hzero => h.notNull ?_
  have hgap : v.vaddrOf (gapStart mem root q) = 0 := by
    have hle : gapStart mem root q ≤ q := gapStart_le
    rw [VmallocArgs.vaddrOf] at hzero ⊢
    omega
  have hmin := h.good.minaddr_le
  rw [VmallocArgs.Null, hgap]
  exact htake (by omega)

/-- An address that `kh_vmalloc` returns is that of the first page seen to be free. -/
theorem khVmalloc_first {A : Platform σ} {s s' : VmState σ} (hfit : v.Fits)
    (hdirect : ∀ f, Table s.mem root f → A.direct f = true)
    (h : khVmalloc A v root s = .ok (p, s')) (hp : p ≠ 0) :
    ∃ q, v.First s.mem root (max · v.minaddr) q ∧ p = v.vaddrOf q := by
  obtain hnull | ⟨p', hp', hrun⟩ := khVmalloc_cases hb hfit hdirect
  · rw [h] at hnull
    exact absurd (Prod.ext_iff.mp (Except.ok.inj hnull)).1 hp
  · obtain ⟨⟨r, s''⟩, _, hret⟩ := of_bind (hrun.symm.trans h)
    dsimp only at hret
    split at hret
    · obtain rfl := (Prod.ext_iff.mp (Except.ok.inj hret)).1
      exact hp'.resolve_left hp
    · cases hret

/-- **The range that `kh_vmalloc` returns** is good if and only if the one at the lowest unmapped
page is. -/
theorem khVmalloc_good {A : Platform σ} {s s' : VmState σ}
    (hdirect : ∀ f, Table s.mem root f → A.direct f = true)
    (h : khVmalloc A v root s = .ok (p, s')) (hp : p ≠ 0) :
    v.Good s.mem root p ↔ ∃ q, v.Lowest s.mem root (max · v.minaddr) q := by
  constructor
  · intro hgood
    obtain ⟨q, hfirst, rfl⟩ := khVmalloc_first hb (hgood.fits hb hp) hdirect h hp
    exact ⟨q, hfirst.lowest hb hgood⟩
  · rintro ⟨q, hlowest⟩
    obtain ⟨q', hfirst, rfl⟩ := khVmalloc_first hb (hlowest.fits hb (by simp)) hdirect h hp
    rw [hlowest.eq_of_first hb hfirst]
    exact hlowest.good

section Early

variable {K : KernelImage} {mem' : Mem} (hT : EarlyTables K root mem)
  (hout : ∀ a, v.minaddr ≤ a → a < v.maxaddr → ¬ K.InArea (pageNo a))

include hT hout

/-- `mm_vmalloc_early` returns, and an address other than null is that of the gap of the first page
seen to be free. -/
theorem mmVmallocEarly_first (hfit : v.Fits) :
    ∃ p mem', K.mmVmallocEarly v root mem = .ok (p, mem') ∧
    (p ≠ 0 → ∃ q, v.First mem root id q ∧ p = v.vaddrOf (gapStart mem root q)) := by
  refine mmVmallocEarly_cases hT hb hfit fun q hlo hlt => ?_
  obtain ⟨hhi, hlt36, _⟩ := hb.vaddrOf_hi
  have hlo' := hb.vaddrOf_lo
  rw [VmallocArgs.limitPage] at hlt
  rw [VmallocArgs.vaddrOf] at hhi hlo'
  have hq := hout (v.vaddrOf q) (by rw [VmallocArgs.vaddrOf]; omega)
    (by rw [VmallocArgs.vaddrOf]; omega)
  rwa [hb.pageNo_vaddrOf (by omega)] at hq

/-- **The range that `mm_vmalloc_early` returns** is good if and only if the one at the lowest
unmapped page is, and no gap reaches there from before the bounds. -/
theorem mmVmallocEarly_good (h : K.mmVmallocEarly v root mem = .ok (p, mem')) (hp : p ≠ 0) :
    v.Good mem root p ↔ ∃ q, v.Lowest mem root id q ∧ gapStart mem root q = q := by
  have hfirst : v.Fits → ∃ q, v.First mem root id q ∧ p = v.vaddrOf (gapStart mem root q) := by
    intro hfit
    obtain ⟨p', mem'', hok, hfirst⟩ := mmVmallocEarly_first hb hT hout hfit
    obtain ⟨rfl, _⟩ := Prod.ext_iff.mp (Except.ok.inj (hok.symm.trans h))
    exact hfirst hp
  constructor
  · intro hgood
    obtain ⟨q, hq, rfl⟩ := hfirst (hgood.fits hb hp)
    have hgap : gapStart mem root q = q := by
      obtain heq | rfl := hq.gapStart_eq
      · exact heq
      · have hle := hgood.minaddr_le
        have hlo := hb.vaddrOf_lo
        have hgap := @gapStart_le mem root v.lo
        rw [← hlo, VmallocArgs.vaddrOf, VmallocArgs.vaddrOf] at hle
        omega
    rw [hgap] at hgood
    exact ⟨q, hq.lowest hb hgood, hgap⟩
  · rintro ⟨q, hlowest, hgap⟩
    obtain ⟨q', hq, rfl⟩ := hfirst (hlowest.fits hb fun _ => rfl)
    rw [hlowest.eq_of_first hb hq, hgap]
    exact hlowest.good

end Early

omit hb in
/-- **When the range returned by `kh_vmalloc` and `mm_vmalloc_early` is free and in bounds**:
exactly when the range at the lowest page that is not mapped is. -/
theorem vmalloc_good_iff {σ : Type} {A : Platform σ} {s : VmState σ} {K : KernelImage}
    (hb : v.InBounds) (hdirect : ∀ f, Table s.mem root f → A.direct f = true)
    (hT : EarlyTables K root mem)
    (hout : ∀ a, v.minaddr ≤ a → a < v.maxaddr → ¬ K.InArea (pageNo a)) :
    ((∀ p s', khVmalloc A v root s = .ok (p, s') → p ≠ 0 →
        (v.Good s.mem root p ↔ ∃ q, v.Lowest s.mem root (max · v.minaddr) q)) ∧
      ∀ q, v.Lowest s.mem root (max · v.minaddr) q → khVmalloc A v root s = .ok (0, s) ∨
        ∃ p, (p = 0 ∨ p = v.vaddrOf q) ∧ khVmalloc A v root s = (do
          let (r, s) ← khMmap A (v.reserve p) root s
          if r = .ok then .ok (p, s) else .error (.panic "Unwrap failed!" []))) ∧
    (∀ p mem', K.mmVmallocEarly v root mem = .ok (p, mem') → p ≠ 0 →
        (v.Good mem root p ↔ ∃ q, v.Lowest mem root id q ∧ gapStart mem root q = q)) ∧
      ((∃ q, v.Lowest mem root id q) → ∃ p mem', K.mmVmallocEarly v root mem = .ok (p, mem')) := by
  refine ⟨⟨fun p s' h hp => khVmalloc_good hb hdirect h hp, fun q hlowest => ?_⟩,
    fun p mem' h hp => mmVmallocEarly_good hb hT hout h hp, fun ⟨q, hlowest⟩ => ?_⟩
  · refine (khVmalloc_cases hb (hlowest.fits hb (by simp)) hdirect).imp_right ?_
    rintro ⟨p, hp, hrun⟩
    refine ⟨p, hp.imp_right fun ⟨q', hfirst, hq'⟩ => ?_, hrun⟩
    rw [hq', hlowest.eq_of_first hb hfirst]
  · obtain ⟨p, mem', hok, _⟩ := mmVmallocEarly_first hb hT hout (hlowest.fits hb fun _ => rfl)
    exact ⟨p, mem', hok⟩

end Main

/-! ### Runs -/

/-- Frames are handed out one after the other. -/
def counter : Platform ℕ := { bump with pgalloc := fun _ n => .ok (n * 4096, n + 1) }

/-- Two pages are asked for where nothing is mapped. -/
def emptyRange : VmallocArgs := ⟨0xffff800000000000, 0xffff800000010000, 0x2000, 0x07, 0⟩

theorem inBounds_of_decide {v : VmallocArgs}
    (h : v.minaddr % 4096 = 0 ∧ (v.maxaddr - v.minaddr) % 4096 = 0 ∧ 0 < v.maxaddr - v.minaddr ∧
      2 ^ 64 - 2 ^ 47 ≤ v.minaddr ∧ v.minaddr + (v.maxaddr - v.minaddr) < 2 ^ 64 ∧ 0 < v.size) :
    v.InBounds where
  half := ⟨h.1, h.2.1, h.2.2.1, .inr ⟨h.2.2.2.1, h.2.2.2.2.1⟩⟩
  size_pos := h.2.2.2.2.2

theorem lowest_emptyRange {take : ℕ → ℕ} (htake : take 0xffff800000000000 ≠ 0) :
    emptyRange.Lowest imageMem 1 take emptyRange.lo where
  lo_le := le_rfl
  mapped p hlo hlt := absurd hlo hlt.not_ge
  notNull := htake
  good := by
    refine ⟨by decide, by decide, by decide, fun a hle hlt => ?_⟩
    have hp : pageNo a / 2 ^ 27 = 256 := by
      rw [show emptyRange.vaddrOf emptyRange.lo = 0xffff800000000000 by decide] at hle hlt
      rw [show emptyRange.size = 0x2000 from rfl] at hlt
      rw [pageNo]
      omega
    have hpml4e : path imageMem 1 [Fin.ofNat 512 (pageNo a / 2 ^ 27)] = none := by
      rw [hp]
      decide
    exact mapping_of_path_eq_none (path_eq_none_of_above hpml4e ⟨[_, _], rfl⟩)
  seen := .inl (by decide)

theorem vmalloc_good_iff_empty :
    (∃ p s', khVmalloc counter emptyRange 1 ⟨imageMem, 0x2000, []⟩ = .ok (p, s') ∧ p ≠ 0 ∧
      emptyRange.Good imageMem 1 p) ∧
    ∃ p mem', image.mmVmallocEarly emptyRange 1 imageMem = .ok (p, mem') ∧ p ≠ 0 ∧
      emptyRange.Good imageMem 1 p := by
  have hmain := vmalloc_good_iff (A := counter) (s := ⟨imageMem, 0x2000, []⟩) (v := emptyRange)
    (inBounds_of_decide (by decide)) (fun _ _ => rfl) earlyTables_imageMem
    fun a hle hlt harea => by
      have hbase := harea.bounds.1
      rw [show emptyRange.minaddr = 0xffff800000000000 from rfl] at hle
      rw [show emptyRange.maxaddr = 0xffff800000010000 from rfl] at hlt
      rw [pageNo, basePage_eq] at hbase
      omega
  have hkh : (khVmalloc counter emptyRange 1 ⟨imageMem, 0x2000, []⟩).map Prod.fst =
      .ok 0xffff800000000000 := by decide +kernel
  have hearly : (image.mmVmallocEarly emptyRange 1 imageMem).map Prod.fst =
      .ok 0xffff800000000000 := by decide +kernel
  obtain ⟨⟨p, s'⟩, hkh, rfl⟩ := map_eq_ok_iff.mp hkh
  obtain ⟨⟨p', mem'⟩, hearly, rfl⟩ := map_eq_ok_iff.mp hearly
  exact ⟨⟨_, s', hkh, by decide, (hmain.1.1 _ _ hkh (by decide)).mpr
      ⟨_, lowest_emptyRange (by decide)⟩⟩,
    ⟨_, mem', hearly, by decide, (hmain.2.1 _ _ hearly (by decide)).mpr
      ⟨_, lowest_emptyRange (by decide), by decide⟩⟩⟩

/-- The last page but one of the first PML4 entry of the kernel half. -/
def topPage : EarlyMmap := { earlyPage with vaddr := 0xffff807fffffe000 }

theorem earlyTables_topPage : EarlyTables image 1 (memAfter topPage) := by
  have hreserved : topPage.Reserved image 1 imageMem :=
    ⟨reserved_earlyPage.distinct, reserved_earlyPage.unused⟩
  exact (earlyTables_imageMem.after ⟨by decide, by decide, by decide, by decide⟩ hreserved
    (fun h => absurd h.1 (by decide)) (by decide) (by decide)).1

/-- Two pages are asked for, from the one before it on. -/
def holedRange : VmallocArgs := ⟨0xffff807fffffd000, 0xffff808000010000, 0x2000, 0x07, 0⟩

/-- One page is asked for, up to the end of the PML4 entry. -/
def topRange : VmallocArgs := ⟨0xffff807ffffff000, 0xffff808000000000, 0x1000, 0x07, 0⟩

/-- One page is asked for, from the middle of an absent PDPTE on. -/
def gapRange : VmallocArgs := ⟨0xffff800040001000, 0xffff800040010000, 0x1000, 0x07, 0⟩

/-- All of the first two PML4 entries is asked for. -/
def nullRange : VmallocArgs := ⟨0, 2 ^ 40, 2 ^ 40, 0x07, 0⟩

/-- **Where the range at the lowest unmapped page is not good.**  With a page in use behind it,
`mm_vmalloc_early` returns a range with a mapped page, and `kh_vmalloc` panics.  An absent PML4
entry at `maxaddr` is returned by both.  Besides, `mm_vmalloc_early` returns an address before
`minaddr`, and a free entry at null is passed over. -/
theorem vmalloc_not_good :
    let mem := memAfter topPage
    EarlyTables image 1 mem ∧
    (holedRange.InBounds ∧
      (image.mmVmallocEarly holedRange 1 mem).map Prod.fst = .ok 0xffff807fffffd000 ∧
      ¬ holedRange.Good mem 1 0xffff807fffffd000 ∧
      (khVmalloc counter holedRange 1 ⟨mem, 0x2000, []⟩).map Prod.fst = .error
        (.panic "Remapping address %p with MMAP_NO_REMAP" [0xffff807fffffe000])) ∧
    (topRange.InBounds ∧
      (image.mmVmallocEarly topRange 1 mem).map Prod.fst = .ok 0xffff808000000000 ∧
      (khVmalloc counter topRange 1 ⟨mem, 0x2000, []⟩).map Prod.fst = .ok 0xffff808000000000 ∧
      ¬ topRange.Good mem 1 0xffff808000000000) ∧
    (gapRange.InBounds ∧
      (image.mmVmallocEarly gapRange 1 mem).map Prod.fst = .ok 0xffff800040000000 ∧
      ¬ gapRange.Good mem 1 0xffff800040000000) ∧
    (image.mmVmallocEarly nullRange 1 mem).map Prod.fst = .ok (2 ^ 39) ∧
      ¬ nullRange.Good mem 1 (2 ^ 39) := by
  refine ⟨earlyTables_topPage, ⟨inBounds_of_decide (by decide), by decide +kernel, fun hgood => ?_,
    by decide +kernel⟩, ⟨inBounds_of_decide (by decide), by decide +kernel, by decide +kernel,
    fun hgood => absurd hgood.le_maxaddr (by decide)⟩,
    ⟨inBounds_of_decide (by decide), by decide +kernel,
    fun hgood => absurd hgood.minaddr_le (by decide)⟩, by decide +kernel,
    fun hgood => absurd hgood.le_maxaddr (by decide)⟩
  have hmapped : mapping (memAfter topPage) 1 (pageNo 0xffff807fffffe000) ≠ none := by
    decide +kernel
  exact hmapped (hgood.free 0xffff807fffffe000 (by decide) (by decide))

end Pbos.Hal
