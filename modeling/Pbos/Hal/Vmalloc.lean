import Pbos.Hal.VmMap

/-!
# Hal/Vmalloc — reserving virtual memory

`kh_vmalloc` looks for entries that are not present, from `minaddr` on, until their sizes add up to
what is asked for, and maps the range from the first one on to the null page.  The sizes are added
up over the whole search; a page in use in between does not start it anew.

A reserved page has a PTE that is present and holds the address 0 (`khVmalloc_eq`).  To map one
page whose tables are all there is to release what its PTE held and to overwrite it
(`khMmap_onePage`).
-/

namespace Pbos.Hal

open Radix

variable {σ : Type} (A : Platform σ) {f g : Frame} {x : ℕ} {s : VmState σ}

/-! ## `kh_vmalloc` -/

/-- What `kh_vmalloc` is asked for, its context apart. -/
structure VmallocArgs where
  minaddr : ℕ
  maxaddr : ℕ
  size : ℕ
  access : UInt32
  flags : UInt32

/-- The state of the search: `p_found`, `0` for null, and `sz_found`. -/
structure FreeArea where
  mem : Mem
  pFound : ℕ
  szFound : ℕ

/-- Count `len` free bytes, the first of which are at `va`. -/
def FreeArea.add (t : FreeArea) (va len : ℕ) : FreeArea :=
  { t with
    pFound := if t.pFound = 0 then va else t.pFound
    szFound := (t.szFound + len) % 2 ^ 64 }

section Search

variable (v : VmallocArgs)

/-- `addr_limit`. -/
def VmallocArgs.addrLimit : ℕ :=
  (pgCeil v.maxaddr + (2 ^ 64 - pgCeil v.size) + (2 ^ 64 - 1)) % 2 ^ 64

/-- The range that starts at `minaddr`, for its prefix and its first indices. -/
def VmallocArgs.range : VRange := ⟨v.minaddr, v.size⟩

/-- One turn of the loop over PTEs. -/
def findPte (i4 i3 i2 : ℕ) (ptt : Frame) (i1 : ℕ) (t : FreeArea) : Except Fault (Turn FreeArea) :=
  let ptt_vaddr := v.range.entryVaddr i4 i3 i2 i1
  if v.size ≤ t.szFound ∨ v.addrLimit ≤ ptt_vaddr then .ok (.brk t)
  else if !(entryAt t.mem ptt i1).present then .ok (.next (t.add ptt_vaddr (uvaddr 0 0 0 1 0)))
  else .ok (.next t)

/-- One turn of an upper loop: leave, count an absent entry as free, or search the table below a
present one with the loop `inner`. -/
def searchEntry (stop : Bool) (e : Entry) (va len : ℕ)
    (inner : Frame → FreeArea → Except Fault (Exit FreeArea)) (t : FreeArea) :
    Except Fault (Turn FreeArea) :=
  if stop then .ok (.brk t)
  else if !e.present then .ok (.next (t.add (max va v.minaddr) len))
  else do
    let mem ← A.reach e.address t.mem
    match ← inner e.address { t with mem := mem } with
    | .done _ t => .ok (.next t)
    | .ret t => .ok (.ret t)

/-- One turn of the loop over PDEs. -/
def findPde (i4 i3 : ℕ) (pdt : Frame) (i2 : ℕ) (t : FreeArea) : Except Fault (Turn FreeArea) :=
  let pdt_vaddr := v.range.entryVaddr i4 i3 i2 0
  let first := v.range.firstPtx i4 i3 i2
  searchEntry A v (v.size ≤ t.szFound ∨ v.addrLimit ≤ pdt_vaddr) (entryAt t.mem pdt i2) pdt_vaddr
    (uvaddr 0 0 1 0 0) (fun ptt => forLoop (findPte v i4 i3 i2 ptt) (512 - first) first) t

/-- One turn of the loop over PDPTEs. -/
def findPdpte (i4 : ℕ) (pdpt : Frame) (i3 : ℕ) (t : FreeArea) : Except Fault (Turn FreeArea) :=
  let pdpt_vaddr := v.range.entryVaddr i4 i3 0 0
  let first := v.range.firstPdx i4 i3
  searchEntry A v (v.size ≤ t.szFound ∨ v.addrLimit ≤ pdpt_vaddr) (entryAt t.mem pdpt i3) pdpt_vaddr
    (uvaddr 0 1 0 0 0) (fun pdt => forLoop (findPde A v i4 i3 pdt) (512 - first) first) t

/-- One turn of the loop over PML4 entries, which does not ask for `addr_limit`. -/
def findPml4e (pml4t : Frame) (i4 : ℕ) (t : FreeArea) : Except Fault (Turn FreeArea) :=
  let first := v.range.firstPdptx i4
  searchEntry A v (v.size ≤ t.szFound) (entryAt t.mem pml4t i4) (v.range.entryVaddr i4 0 0 0)
    (uvaddr 1 0 0 0 0) (fun pdpt => forLoop (findPdpte A v i4 pdpt) (512 - first) first) t

/-- The arguments of the `kh_mmap` that reserves `size` bytes at `vaddr`. -/
def VmallocArgs.reserve (vaddr : ℕ) : MmapArgs where
  vaddr := vaddr
  size := v.size
  paddr := 0
  access := v.access
  flags := v.flags ||| MMAP_NO_REMAP

/-- Reserve what the search has found, if it has found enough. -/
def takeFound (pml4t : Frame) (t : FreeArea) (s : VmState σ) : Except Fault (ℕ × VmState σ) :=
  if v.size ≤ t.szFound then do
    let (r, s) ← khMmap A (v.reserve t.pFound) pml4t { s with mem := t.mem }
    if r = .ok then .ok (t.pFound, s) else .error (.panic "Unwrap failed!" [])
  else .ok (0, { s with mem := t.mem })

/-- `kh_vmalloc`: the address that is returned, `0` for null. -/
def khVmalloc (pml4t : Frame) (s : VmState σ) : Except Fault (ℕ × VmState σ) :=
  if A.ndebug = false ∧ addrPrefix v.minaddr ≠ addrPrefix v.maxaddr then
    .error (.panic
      "The address prefix of the minimum address and the maximum address does not match" [])
  else do
    match ← forLoop (findPml4e A v pml4t) (pml4x v.maxaddr + 1 - pml4x v.minaddr) (pml4x v.minaddr)
        ⟨s.mem, 0, 0⟩ with
    | .done _ t => takeFound A v pml4t t s
    | .ret t => takeFound A v pml4t t s

end Search

/-! ## The search changes nothing -/

section Keeps

variable {A} {v : VmallocArgs} {mem : Mem} {root : Frame} {t : FreeArea} {fl : Turn FreeArea}
  {i4 : ℕ} {α : List (Fin 512)}

theorem findPte_mem {i3 i2 : ℕ} {ptt : Frame} {i1 : ℕ} (ht : t.mem = mem)
    (h : findPte v i4 i3 i2 ptt i1 t = .ok fl) : fl.Holds (·.mem = mem) := by
  simp only [findPte] at h
  split at h
  · cases h
    exact ht
  split at h
  · cases h
    exact ht
  · cases h
    exact ht

/-- Tables are entered through the direct map. -/
theorem searchEntry_mem (hdirect : ∀ f, Table mem root f → A.direct f = true) {stop : Bool}
    {va len : ℕ} {inner : Frame → FreeArea → Except Fault (Exit FreeArea)}
    (hlen : α.length < 3) (hα : path mem root α = some f) (ht : t.mem = mem)
    (hinner : ∀ g t r, path mem root (α ++ [Fin.ofNat 512 x]) = some g → t.mem = mem →
      inner g t = .ok r → r.Holds (·.mem = mem) (·.mem = mem))
    (h : searchEntry A v stop (entryAt t.mem f x) va len inner t = .ok fl) :
    fl.Holds (·.mem = mem) := by
  subst ht
  unfold searchEntry at h
  split at h
  · cases h
    exact rfl
  split at h
  · cases h
    exact rfl
  · rename_i hpres
    have htable : path t.mem root (α ++ [Fin.ofNat 512 x]) = some (entryAt t.mem f x).address :=
      path_present hα (by simpa [entryAt] using hpres)
    obtain ⟨m, hm, h⟩ := of_bind h
    rw [Platform.reach, if_pos (hdirect _
      ⟨_, by rw [List.length_append]; exact hlen, htable⟩)] at hm
    cases hm
    obtain ⟨r, hr, h⟩ := of_bind h
    have hloop := hinner _ _ r htable rfl hr
    cases r with
    | done y t' =>
      cases h
      exact hloop
    | ret t' =>
      cases h
      exact hloop

section

variable (hdirect : ∀ f, Table mem root f → A.direct f = true)

include hdirect

/-- **The search leaves the memory as it is.** -/
theorem findPml4e_mem (ht : t.mem = mem) (h : findPml4e A v root i4 t = .ok fl) :
    fl.Holds (·.mem = mem) := by
  simp only [findPml4e] at h
  refine searchEntry_mem (α := []) hdirect (by simp) rfl ht (fun pdpt t r hpdpt ht hr => ?_) h
  refine forLoop_keeps (fun i3 t _ ht h => ?_) ht hr
  simp only [findPdpte] at h
  refine searchEntry_mem hdirect (by simp) hpdpt ht (fun pdt t r hpdt ht hr => ?_) h
  refine forLoop_keeps (fun i2 t _ ht h => ?_) ht hr
  simp only [findPde] at h
  exact searchEntry_mem hdirect (by simp) hpdt ht
    (fun ptt t r _ ht hr => forLoop_keeps (fun _ _ _ ht h => findPte_mem ht h) ht hr) h

end

/-- **A range that `kh_vmalloc` returns has been mapped to the null page.** -/
theorem khVmalloc_eq {s' : VmState σ} {p : ℕ}
    (hdirect : ∀ f, Table s.mem root f → A.direct f = true)
    (h : khVmalloc A v root s = .ok (p, s')) (hp : p ≠ 0) :
    khMmap A (v.reserve p) root s = .ok (.ok, s') := by
  have htake : ∀ t : FreeArea, t.mem = s.mem → takeFound A v root t s = .ok (p, s') →
      khMmap A (v.reserve p) root s = .ok (.ok, s') := by
    intro t ht h
    unfold takeFound at h
    split at h
    · obtain ⟨⟨r, s₁⟩, hmap, h⟩ := of_bind h
      dsimp only at h
      split at h
      · rename_i hr
        cases h
        rw [ht] at hmap
        exact hr ▸ hmap
      · cases h
    · exact absurd (congrArg Prod.fst (Except.ok.inj h)).symm hp
  unfold khVmalloc at h
  split at h
  · cases h
  · obtain ⟨r, hr, h⟩ := of_bind h
    have hloop := forLoop_keeps
      (fun _ _ _ ht h => findPml4e_mem hdirect ht h) rfl hr
    cases r with
    | done y t => exact htake t hloop h
    | ret t => exact htake t hloop h

end Keeps

/-! ## Mapping one page whose tables are there -/

section OnePage

variable {A} {c : MmapArgs} {mem : Mem} {root : Frame}

/-- The entry above a table. -/
theorem path_concat_eq_some {α : List (Fin 512)} {i : Fin 512}
    (h : path mem root (α ++ [i]) = some g) :
    ∃ f, path mem root α = some f ∧ (mem f i).present = true ∧ (mem f i).address = g := by
  obtain ⟨f, hf, hg⟩ := follow_concat_eq_some.mp h
  rw [Entry.child] at hg
  split at hg
  · exact ⟨f, hf, ‹_›, Option.some.inj hg⟩
  · cases hg

/-- Entering a table that is there. -/
theorem descend_present {missing : String} {pi : ℕ}
    {inner : Frame → VmState σ × ℕ → Except Fault (Exit (VmState σ × ℕ))}
    (hpres : (entryAt s.mem f x).present = true) (hg : (entryAt s.mem f x).address = g)
    (hdirect : A.direct g = true) :
    descend A c missing f x inner (s, pi) = (inner g (s, pi)).map fun
      | .done _ t => .next t
      | .ret t => .ret t := by
  have htable : ensureTable A c.flags missing f x s = .ok (some g, s) := by
    simp only [ensureTable, hpres, hg, Platform.reach, hdirect]
    rfl
  simp only [descend, htable, bind, Except.bind]
  cases inner g (s, pi) with
  | error e => rfl
  | ok r => cases r <;> rfl

variable {s : VmState σ} {ptt : Frame}

/-- The memory and the address of the next page, once the PTE at `i1` is written. -/
def putPte (c : MmapArgs) (ptt : Frame) (i1 pi : ℕ) (s : VmState σ) : VmState σ × ℕ :=
  (s.store ptt i1 (c.pte pi), (pi + c.piDiff) % 2 ^ 64)

section Levels

variable {i4 i3 i2 i1 pi : ℕ} {pdpt pdt : Frame} (hc : c.InHalf)
  (hfirst : c.first = spell i4 i3 i2 i1)
  (hstop : c.stop = spell i4 i3 i2 i1 + 1) (h4 : i4 < 512) (h3 : i3 < 512) (h2 : i2 < 512)
  (h1 : i1 < 512)

include hfirst h3 h2 h1 in
theorem indices_vaddr : pml4x c.vaddr = i4 ∧ pdptx c.vaddr = i3 ∧ pdx c.vaddr = i2 ∧
    ptx c.vaddr = i1 := by
  rw [pml4x_eq, pdptx_eq, pdx_eq, ptx_eq]
  change c.first / 2 ^ 27 = i4 ∧ c.first / 2 ^ 18 % 512 = i3 ∧ c.first / 2 ^ 9 % 512 = i2 ∧
    c.first % 512 = i1
  rw [hfirst, spell]
  omega

include hc hfirst hstop h4 h3 h2 h1

theorem pteLoop_onePage : forLoop (mapPte A c i4 i3 i2 ptt) (512 - c.firstPtx i4 i3 i2)
      (c.firstPtx i4 i3 i2) (s, pi) =
    (A.drop c.flags (c.entryVaddr i4 i3 i2 i1) (entryAt s.mem ptt i1) s).map fun s' =>
      .done (i1 + 1) (putPte c ptt i1 pi s') := by
  obtain ⟨e4, e3, e2, e1⟩ := indices_vaddr hfirst h3 h2 h1
  rw [VRange.firstPtx, if_pos ⟨e4.symm, e3.symm, e2.symm⟩, e1,
    show 512 - i1 = 511 - i1 + 1 by omega]
  refine forLoop_once ?_ fun s' hpos => ?_
  · simp only [mapPte, hc.limit_le_entryVaddr h4 h3 h2 h1]
    rw [if_neg (by omega)]
    rfl
  · simp only [mapPte, hc.limit_le_entryVaddr h4 h3 h2 (by omega : i1 + 1 < 512)]
    rw [if_pos (by rw [hstop]; unfold spell; omega)]

theorem pdeLoop_onePage (hpres : (entryAt s.mem pdt i2).present = true)
    (haddr : (entryAt s.mem pdt i2).address = ptt) (hptt : A.direct ptt = true) :
    forLoop (mapPde A c i4 i3 pdt) (512 - c.firstPdx i4 i3) (c.firstPdx i4 i3) (s, pi) =
      (A.drop c.flags (c.entryVaddr i4 i3 i2 i1) (entryAt s.mem ptt i1) s).map fun s' =>
        .done (i2 + 1) (putPte c ptt i1 pi s') := by
  obtain ⟨e4, e3, e2, -⟩ := indices_vaddr hfirst h3 h2 h1
  rw [VRange.firstPdx, if_pos ⟨e4.symm, e3.symm⟩, e2, show 512 - i2 = 511 - i2 + 1 by omega]
  refine forLoop_once ?_ fun s' hpos => ?_
  · simp only [mapPde, hc.limit_le_entryVaddr h4 h3 h2 (by decide : 0 < 512)]
    rw [if_neg (by rw [hstop]; unfold spell; omega), descend_present hpres haddr hptt,
      pteLoop_onePage hc hfirst hstop h4 h3 h2 h1]
    cases A.drop c.flags (c.entryVaddr i4 i3 i2 i1) (entryAt s.mem ptt i1) s <;> rfl
  · simp only [mapPde, hc.limit_le_entryVaddr h4 h3 (by omega : i2 + 1 < 512) (by decide : 0 < 512)]
    rw [if_pos (by rw [hstop]; unfold spell; omega)]

theorem pdpteLoop_onePage (hpres : (entryAt s.mem pdpt i3).present = true)
    (haddr : (entryAt s.mem pdpt i3).address = pdt) (hpdt : A.direct pdt = true)
    (hpres' : (entryAt s.mem pdt i2).present = true)
    (haddr' : (entryAt s.mem pdt i2).address = ptt) (hptt : A.direct ptt = true) :
    forLoop (mapPdpte A c i4 pdpt) (512 - c.firstPdptx i4) (c.firstPdptx i4) (s, pi) =
      (A.drop c.flags (c.entryVaddr i4 i3 i2 i1) (entryAt s.mem ptt i1) s).map fun s' =>
        .done (i3 + 1) (putPte c ptt i1 pi s') := by
  obtain ⟨e4, e3, -, -⟩ := indices_vaddr hfirst h3 h2 h1
  rw [VRange.firstPdptx, if_pos e4.symm, e3, show 512 - i3 = 511 - i3 + 1 by omega]
  refine forLoop_once ?_ fun s' hpos => ?_
  · simp only [mapPdpte, hc.limit_le_entryVaddr h4 h3 (by decide : 0 < 512) (by decide : 0 < 512)]
    rw [if_neg (by rw [hstop]; unfold spell; omega), descend_present hpres haddr hpdt,
      pdeLoop_onePage hc hfirst hstop h4 h3 h2 h1 hpres' haddr' hptt]
    cases A.drop c.flags (c.entryVaddr i4 i3 i2 i1) (entryAt s.mem ptt i1) s <;> rfl
  · simp only [mapPdpte, hc.limit_le_entryVaddr h4 (by omega : i3 + 1 < 512) (by decide : 0 < 512)
      (by decide : 0 < 512)]
    rw [if_pos (by rw [hstop]; unfold spell; omega)]

omit hstop h4 in
/-- The PML4 entry after the one of the page, which `addr_limit` may lie in, has nothing to
visit. -/
theorem mapPml4e_after {t : VmState σ × ℕ} (hi : spell (i4 + 1) 0 0 0 = c.stop)
    (h4' : i4 + 1 < 512) (hpres : (entryAt t.1.mem root (i4 + 1)).present = true)
    (hdirect : A.direct (entryAt t.1.mem root (i4 + 1)).address = true) :
    mapPml4e A c root (i4 + 1) t = .ok (.next t) := by
  obtain ⟨e4, -, -, -⟩ := indices_vaddr hfirst h3 h2 h1
  have hbrk : ∀ pdpt : Frame, mapPdpte A c (i4 + 1) pdpt 0 t = .ok (.brk t) := fun pdpt => by
    simp only [mapPdpte, hc.limit_le_entryVaddr h4' (by decide : 0 < 512) (by decide : 0 < 512)
      (by decide : 0 < 512), hi, le_refl, if_true]
  obtain ⟨s, pi⟩ := t
  rw [mapPml4e, descend_present hpres rfl hdirect, VRange.firstPdptx, if_neg (by omega)]
  rw [show 512 - 0 = 511 + 1 from rfl, forLoop, hbrk]
  rfl

variable (pi) in
/-- The loop over PML4 entries visits the entry of the page, and the next one if the page is the
last of its own. -/
theorem pml4Loop_onePage (ht : Tree Entry.child s.mem root 3)
    (hdirect : ∀ f, Table s.mem root f → A.direct f = true)
    (hptt : path s.mem root [Fin.ofNat 512 i4, Fin.ofNat 512 i3, Fin.ofNat 512 i2] = some ptt)
    (hlast : (path s.mem root [Fin.ofNat 512 (c.stop / 2 ^ 27)]).isSome) :
    ∃ y, forLoop (mapPml4e A c root) (c.stop / 2 ^ 27 + 1 - i4) i4 (s, pi) =
      (A.drop c.flags (c.entryVaddr i4 i3 i2 i1) (entryAt s.mem ptt i1) s).map fun s' =>
        .done y (putPte c ptt i1 pi s') := by
  have htables : path s.mem root ([] ++ [Fin.ofNat 512 i4] ++ [Fin.ofNat 512 i3] ++
      [Fin.ofNat 512 i2]) = some ptt := hptt
  obtain ⟨pdt, hpdt, hp2, ha2⟩ := path_concat_eq_some htables
  obtain ⟨pdpt, hpdpt, hp3, ha3⟩ := path_concat_eq_some hpdt
  obtain ⟨f, hroot, hp4, ha4⟩ := path_concat_eq_some hpdpt
  obtain rfl : root = f := Option.some.inj hroot
  have hturn : mapPml4e A c root i4 (s, pi) =
      (A.drop c.flags (c.entryVaddr i4 i3 i2 i1) (entryAt s.mem ptt i1) s).map fun s' =>
        .next (putPte c ptt i1 pi s') := by
    rw [mapPml4e, descend_present hp4 ha4 (hdirect _ ⟨_, by simp, hpdpt⟩),
      pdpteLoop_onePage hc hfirst hstop h4 h3 h2 h1 hp3 ha3 (hdirect _ ⟨_, by simp, hpdt⟩) hp2 ha2
        (hdirect _ ⟨_, by simp, htables⟩)]
    cases A.drop c.flags (c.entryVaddr i4 i3 i2 i1) (entryAt s.mem ptt i1) s <;> rfl
  have hlt := hc.stop_lt
  by_cases hboundary : c.stop / 2 ^ 27 = i4
  · refine ⟨i4 + 1, ?_⟩
    rw [hboundary, show i4 + 1 - i4 = 0 + 1 by omega]
    exact forLoop_once hturn fun _ h => absurd h (lt_irrefl 0)
  · have hnext : c.stop / 2 ^ 27 = i4 + 1 := by rw [hstop] at hboundary ⊢; unfold spell at *; omega
    refine ⟨i4 + 1 + 1, ?_⟩
    rw [hnext, show i4 + 1 + 1 - i4 = 1 + 1 by omega, forLoop, hturn]
    cases hd : A.drop c.flags (c.entryVaddr i4 i3 i2 i1) (entryAt s.mem ptt i1) s with
    | error e => rfl
    | ok s' =>
      rw [hnext] at hlast
      obtain ⟨g, hg⟩ := Option.isSome_iff_exists.mp hlast
      obtain ⟨f, hroot', hpres, haddr⟩ := path_concat_eq_some (α := []) hg
      obtain rfl : root = f := Option.some.inj hroot'
      have hne : root ≠ ptt := by
        intro h
        have hnil : path s.mem root [] = some ptt := congrArg some h
        cases ht (π := []) (by simp) (by simp) hnil hptt
      have hmem : entryAt (putPte c ptt i1 pi s').1.mem root (i4 + 1) =
          entryAt s.mem root (i4 + 1) := by
        rw [← Platform.drop_mem hd]
        exact write_of_ne fun h => hne h.1
      have hafter : mapPml4e A c root (i4 + 1) (putPte c ptt i1 pi s') =
          .ok (.next (putPte c ptt i1 pi s')) :=
        mapPml4e_after hc hfirst h3 h2 h1 (by rw [hstop] at hnext ⊢; unfold spell at *; omega)
          (by omega) (hmem ▸ hpres) (hmem ▸ haddr ▸ hdirect _ ⟨_, by simp, hg⟩)
      change forLoop (mapPml4e A c root) 1 (i4 + 1) (putPte c ptt i1 pi s') = _
      rw [forLoop, hafter]
      rfl

end Levels

/-- **Mapping one page whose tables are there** is to release what its PTE held and to overwrite
it. -/
theorem khMmap_onePage (hc : c.InHalf) (hsize : c.size = 4096)
    (ht : Tree Entry.child s.mem root 3) (hdirect : ∀ f, Table s.mem root f → A.direct f = true)
    (hptt : path s.mem root (tables c.first) = some ptt)
    (hlast : (path s.mem root [Fin.ofNat 512 (c.stop / 2 ^ 27)]).isSome) :
    ∃ va, khMmap A c root s = (A.drop c.flags va (s.mem ptt (slot c.first)) s).map fun s' =>
      (.ok, { s' with mem := write s.mem ptt (slot c.first) (c.pte c.paddr) }) := by
  have hlt := hc.stop_lt
  have hstop : c.stop = c.first + 1 := by rw [VRange.stop, hsize]
  obtain ⟨i4, i3, i2, i1, hfirst, h4, h3, h2, h1⟩ : ∃ i4 i3 i2 i1, c.first = spell i4 i3 i2 i1 ∧
      i4 < 512 ∧ i3 < 512 ∧ i2 < 512 ∧ i1 < 512 :=
    ⟨c.first / 2 ^ 27, c.first / 2 ^ 18 % 512, c.first / 2 ^ 9 % 512, c.first % 512, by
      unfold spell; omega, by omega, by omega, by omega, by omega⟩
  have hi4 : pageNo c.vaddr / 2 ^ 27 = i4 := by
    change c.first / 2 ^ 27 = i4
    rw [hfirst, spell]
    omega
  rw [hfirst, tables_spell h3 h2 h1] at hptt
  obtain ⟨y, hloop⟩ := pml4Loop_onePage c.paddr hc hfirst (hfirst ▸ hstop) h4 h3 h2 h1
    ht hdirect hptt hlast
  refine ⟨c.entryVaddr i4 i3 i2 i1, ?_⟩
  unfold khMmap
  rw [if_neg (fun h => hc.size_pos.ne' h.2), if_neg (fun h => hc.not_crossesSpaces h.2),
    hc.pml4x_limit, pml4x_eq, hi4, hloop, hfirst, slot_spell]
  change _ = (A.drop c.flags _ (entryAt s.mem ptt i1) s).map _
  cases hd : A.drop c.flags (c.entryVaddr i4 i3 i2 i1) (entryAt s.mem ptt i1) s with
  | error e => rfl
  | ok s' =>
    rw [← Platform.drop_mem hd]
    rfl

end OnePage

end Pbos.Hal
