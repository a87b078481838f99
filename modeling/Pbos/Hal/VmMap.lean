import Pbos.Hal.VmWalk

/-!
# Hal/VmMap — `kh_getmap` after `kh_mmap`

`mapping` is what a context says of a page: its PTE, if there is one and it is present.  `kh_getmap`
reads it off, a table hung below an empty entry does not change it, and writing a PTE changes it at
one page.  So a `kh_mmap` that succeeds changes it on the pages of its range, where the frames it
was given lie below physical address `2 ^ 52`.
-/

namespace Pbos.Hal

open Radix Entry

variable {σ : Type} {A : Platform σ} {c : MmapArgs} {root : Frame} {mem : Mem} {α : List (Fin 512)}
  {f : Frame} {i : Fin 512} {k : ℕ}

/-! ## What a context says of a page -/

/-- The PTE of a page, if it is present. -/
def mapping (mem : Mem) (root : Frame) (p : ℕ) : Option Entry :=
  (leaf Entry.child mem root (tables p) (slot p)).filter Entry.present

/-- What `kh_getmap` returns for it. -/
def answer : Option Entry → ℕ × Option UInt32
  | none => (0, none)
  | some pte => (unpgaddr pte.address, some (pteAccess pte))

theorem path_present (hα : path mem root α = some f)
    (h : (mem f i).present = true) : path mem root (α ++ [i]) = some (mem f i).address :=
  (follow_concat hα).trans (child_eq_some h)

theorem path_absent (hα : path mem root α = some f)
    (h : (mem f i).present = false) (β : List (Fin 512)) : path mem root (α ++ i :: β) = none := by
  rw [← List.singleton_append, ← List.append_assoc, path, follow_append, follow_concat hα,
    child_eq_none h]
  rfl

theorem path_eq_none_of_above {α β : List (Fin 512)} (h : path mem root α = none)
    (hαβ : α <+: β) : path mem root β = none := by
  obtain ⟨γ, rfl⟩ := hαβ
  change follow Entry.child mem root (α ++ γ) = none
  rw [follow_append, show follow Entry.child mem root α = none from h, Option.bind_none]

theorem mapping_eq_none_iff {p : ℕ} (h : path mem root (tables p) = some f) :
    mapping mem root p = none ↔ (mem f (slot p)).present = false := by
  rw [mapping, leaf_eq_some h, Option.filter_some, ite_eq_right_iff, Bool.eq_false_iff]
  simp only [reduceCtorEq]

/-- **`kh_getmap` reads the mapping of the page.** -/
theorem khGetmap_eq (hdirect : ∀ f, Table mem root f → A.direct f = true) (va : ℕ) :
    khGetmap A root va mem = .ok (answer (mapping mem root (pageNo va)), mem) := by
  have hreach : ∀ {α f}, path mem root α = some f → α.length ≤ 3 → A.reach f mem = .ok mem :=
    fun hf hα => if_pos (hdirect _ ⟨_, hα, hf⟩)
  have h3 : Fin.ofNat 512 (pdptx va) = Fin.ofNat 512 (pageNo va / 2 ^ 18) := by
    rw [pdptx_eq, ofNat_eq_iff, Nat.mod_mod]
  have h2 : Fin.ofNat 512 (pdx va) = Fin.ofNat 512 (pageNo va / 2 ^ 9) := by
    rw [pdx_eq, ofNat_eq_iff, Nat.mod_mod]
  have h1 : Fin.ofNat 512 (ptx va) = slot (pageNo va) := by
    rw [ptx_eq, slot, ofNat_eq_iff, Nat.mod_mod]
  simp only [khGetmap, entryAt, pml4x_eq, h3, h2, h1, mapping, tables, bind, Except.bind]
  generalize Fin.ofNat 512 (pageNo va / 2 ^ 27) = i4
  generalize Fin.ofNat 512 (pageNo va / 2 ^ 18) = i3
  generalize Fin.ofNat 512 (pageNo va / 2 ^ 9) = i2
  generalize slot (pageNo va) = i1
  have hroot : path mem root [] = some root := rfl
  cases hp4 : (mem root i4).present with
  | false =>
    have hnone : path mem root [i4, i3, i2] = none := path_absent hroot hp4 _
    rw [leaf_eq_none hnone]
    rfl
  | true =>
    have hf4 : path mem root [i4] = some _ := path_present hroot hp4
    simp only [hreach hf4 (by simp)]
    cases hp3 : (mem (mem root i4).address i3).present with
    | false =>
      have hnone : path mem root [i4, i3, i2] = none := path_absent hf4 hp3 _
      rw [leaf_eq_none hnone]
      rfl
    | true =>
      have hf3 : path mem root [i4, i3] = some _ := path_present hf4 hp3
      simp only [hreach hf3 (by simp)]
      cases hp2 : (mem (mem (mem root i4).address i3).address i2).present with
      | false =>
        have hnone : path mem root [i4, i3, i2] = none := path_absent hf3 hp2 _
        rw [leaf_eq_none hnone]
        rfl
      | true =>
        have hf2 : path mem root [i4, i3, i2] = some _ := path_present hf3 hp2
        rw [leaf_eq_some hf2]
        simp only [hreach hf2 (by simp)]
        generalize mem (mem (mem (mem root i4).address i3).address i2).address i1 = pte
        cases hp1 : pte.present <;> simp [Option.filter, hp1, answer]

/-! ## What the edits of the walk change -/

section Edits

variable {α : List (Fin 512)} {f g : Frame} {x : Fin 512} {e : Entry} {p q : ℕ}
  (ht : Tree Entry.child mem root 3)

include ht

section

variable (hα : path mem root α = some f) (hlen : α.length < 3) (hnone : (mem f x).present = false)

include hα hlen hnone

/-- A fresh table maps nothing. -/
theorem mapping_link_of_child (he : e.child = some g) (hfresh : ¬ Table mem root g) :
    mapping (link mem f x e g Entry.zero) root p = mapping mem root p := by
  unfold mapping
  rw [leaf_link ht hα hlen (child_eq_none hnone) he child_zero hfresh (length_tables p)]
  split
  · rename_i hp
    rw [leaf_eq_none (by rw [hp]; exact path_absent hα hnone [])]
    rfl
  · rfl

theorem mapping_link (hfresh : ¬ Table mem root g) :
    mapping (link mem f x (tableEntry g) g Entry.zero) root p = mapping mem root p :=
  mapping_link_of_child ht hα hlen hnone (child_tableEntry g) hfresh

end

/-- **A PTE speaks for its page alone.** -/
theorem mapping_write (hf : path mem root (tables q) = some f) (hp : p < 2 ^ 36) (hq : q < 2 ^ 36) :
    mapping (write mem f (slot q) e) root p =
      if p = q then (some e).filter Entry.present else mapping mem root p := by
  unfold mapping
  rw [leaf_write ht hf (length_tables q) (length_tables p)]
  by_cases hpq : p = q
  · rw [if_pos hpq, if_pos (by rw [hpq]; exact ⟨rfl, rfl⟩)]
  · rw [if_neg hpq, if_neg fun h => hpq (eq_of_tables_slot hp hq h.1 h.2)]

end Edits

/-! ## The walk, page by page -/

variable (A root) in
/-- Frames that `mm_pgalloc` returns are not part of the page table and are reached through the
direct map, as long as the allocator keeps an invariant `I` together with the tables. -/
structure Platform.FreshUnder (I : Mem → σ → Prop) : Prop where
  alloc {mem : Mem} {pg pg' : σ} {page : ℕ} : I mem pg → A.pgalloc mem pg = .ok (page, pg') →
    pgRoundDown page ≠ 0 → ¬ Table mem root (pgRoundDown page) ∧ A.direct (pgRoundDown page) = true
  link {mem : Mem} {pg pg' : σ} {page : ℕ} {α : List (Fin 512)} {f : Frame} {x : Fin 512} :
    I mem pg → A.pgalloc mem pg = .ok (page, pg') → pgRoundDown page ≠ 0 →
    Tree Entry.child mem root 3 → path mem root α = some f → α.length < 3 →
    (mem f x).present = false →
    I (link mem f x (tableEntry (pgRoundDown page)) (pgRoundDown page) Entry.zero) pg'
  free {mem : Mem} {pg pg' : σ} {addr : ℕ} : I mem pg → A.pgfree pg addr = .ok pg' → I mem pg'
  put {mem : Mem} {pg : σ} {q : ℕ} {f : Frame} (e : Entry) : I mem pg →
    Tree Entry.child mem root 3 → path mem root (tables q) = some f →
    I (write mem f (slot q) e) pg

theorem Platform.freshUnder_true (h : ∀ {mem pg pg' page}, A.pgalloc mem pg = .ok (page, pg') →
    pgRoundDown page ≠ 0 → ¬ Table mem root (pgRoundDown page) ∧
      A.direct (pgRoundDown page) = true) : A.FreshUnder root fun _ _ => True where
  alloc _ := h
  link _ _ _ _ _ _ _ := trivial
  free _ _ := trivial
  put _ _ _ _ := trivial

variable (A c root mem) in
/-- The pages of the range before `q` are mapped as asked, and all others as they were in `mem`. -/
structure MappedUpTo (q : ℕ) (s : VmState σ) : Prop where
  tree : Tree Entry.child s.mem root 3
  direct : ∀ f, Table s.mem root f → A.direct f = true
  mapping : ∀ p, p < 2 ^ 36 → mapping s.mem root p =
    if c.first ≤ p ∧ p < q then some (c.pte (c.pi (p - c.first))) else mapping mem root p

/-- A PTE is present if it was asked for as mapped. -/
theorem pte_present (c : MmapArgs) (pi : ℕ) :
    (c.pte pi).present = hasFlag c.access MM_PAGE_MAPPED := by
  simp only [Entry.present, Entry.has, MmapArgs.pte, hnPgaccessToPgmask]
  generalize hasFlag c.access MM_PAGE_MAPPED = m
  generalize hasFlag c.access MM_PAGE_WRITE = w
  generalize hasFlag c.access MM_PAGE_NOCACHE = n
  generalize hasFlag c.access MM_PAGE_USER = u
  revert m w n u
  decide

theorem present_pte (h : hasFlag c.access MM_PAGE_MAPPED = true) (pi : ℕ) :
    (c.pte pi).present = true := (pte_present c pi).trans h

/-- **What one step of the walk keeps.** -/
theorem walkInv_mappedUpTo {I : Mem → σ → Prop} (hA : A.FreshUnder root I) (hc : c.InHalf)
    (hmapped : hasFlag c.access MM_PAGE_MAPPED = true) :
    WalkInv A c root (fun q s => MappedUpTo A c root mem q s ∧ I s.mem s.pg) (fun _ => True) where
  tree h := h.1.tree
  direct h hf := h.1.direct _ hf
  link {q s α f x page pg} h hα hpre _ hnone hpage hne := by
    obtain ⟨h, hI⟩ := h
    have hlen := length_lt_of_prefix_tables hpre
    obtain ⟨hfresh, hdirect⟩ := hA.alloc hI hpage hne
    have hchild := child_eq_none hnone
    refine ⟨hfresh, hdirect, ⟨Tree.link h.tree (child_tableEntry _) child_zero hfresh,
      fun f' hf' => ?_, fun p hp => ?_⟩, hA.link hI hpage hne h.tree hα hlen hnone⟩
    · rcases (isTable_link_iff h.tree hα hlen hchild (child_tableEntry _) child_zero
        hfresh).mp hf' with hf' | rfl
      · exact h.direct _ hf'
      · exact hdirect
    · exact (mapping_link h.tree hα hlen hnone hfresh).trans (h.mapping p hp)
  fail _ _ _ _ _ _ _ := trivial
  put {q s f s'} h hfirst hstop hf hdrop := by
    obtain ⟨h, hI⟩ := h
    have hq : q < 2 ^ 36 := hstop.trans hc.stop_lt
    have hpath : ∀ π : List (Fin 512), π.length ≤ 3 →
        path (write s.mem f (slot q) (c.pte (c.pi (q - c.first)))) root π = path s.mem root π :=
      fun _ hπ => follow_write h.tree hf rfl hπ
    refine ⟨⟨h.tree.congr hpath, fun f' hf' => h.direct _ ((isTable_congr hpath).mp hf'),
      fun p hp => ?_⟩, hA.put _ ?_ h.tree hf⟩
    · refine (mapping_write h.tree hf hp hq).trans ?_
      by_cases hpq : p = q
      · rw [if_pos hpq, if_pos (by omega), hpq, Option.filter_some, if_pos (present_pte hmapped _)]
      · rw [if_neg hpq, h.mapping p hp]
        exact if_congr (by omega) rfl rfl
    · obtain ⟨va, hdrop⟩ := hdrop
      obtain ⟨rfl, -⟩ | ⟨-, -, hfree⟩ := Platform.drop_cases hdrop
      · exact hI
      · exact hA.free hI (Platform.free_eq hfree).2.2

/-! ## The frames and the access that are reported -/

theorem unpgaddr_pgRoundDown {addr : ℕ} (h : addr % 4096 = 0) (hlt : addr < 2 ^ 52) :
    unpgaddr (pgRoundDown addr) = addr := by
  rw [unpgaddr, pgRoundDown, BitVec.toNat_ofNat]
  omega

theorem pgRoundDown_unpgaddr (f : Frame) : pgRoundDown (unpgaddr f) = f := by
  rw [pgRoundDown, unpgaddr, Nat.shiftLeft_shiftRight, BitVec.ofNat_toNat, BitVec.setWidth_eq]

/-- **`kh_getmap` reports WRITE, USER and EXEC as they were asked for.** -/
theorem hasFlag_pteAccess (pi : ℕ) :
    hasFlag (pteAccess (c.pte pi)) MM_PAGE_WRITE = hasFlag c.access MM_PAGE_WRITE ∧
    hasFlag (pteAccess (c.pte pi)) MM_PAGE_USER = hasFlag c.access MM_PAGE_USER ∧
    hasFlag (pteAccess (c.pte pi)) MM_PAGE_EXEC = hasFlag c.access MM_PAGE_EXEC := by
  simp only [pteAccess, Entry.has, MmapArgs.pte, hnPgaccessToPgmask]
  generalize hasFlag c.access MM_PAGE_MAPPED = m
  generalize hasFlag c.access MM_PAGE_WRITE = w
  generalize hasFlag c.access MM_PAGE_NOCACHE = n
  generalize hasFlag c.access MM_PAGE_USER = u
  generalize hasFlag c.access MM_PAGE_EXEC = x
  revert m w n u x
  decide

/-- The addresses of the two halves. -/
def Canonical (va : ℕ) : Prop := va < 2 ^ 47 ∨ 2 ^ 64 - 2 ^ 47 ≤ va ∧ va < 2 ^ 64

namespace VRange

variable {r : VRange} {va : ℕ}

/-- The page of an address is one of the range exactly when the address is in it. -/
theorem InHalf.mem_iff (h : r.InHalf) (hva : Canonical va) :
    r.first ≤ pageNo va ∧ pageNo va < r.stop ↔ r.vaddr ≤ va ∧ va < r.vaddr + r.size := by
  have := h.vaddr_dvd
  have := h.size_dvd
  unfold Canonical at hva
  unfold stop first pageNo
  rcases h.half with h | h <;> omega

theorem InHalf.pageNo_add (h : r.InHalf) (hk : 4096 * k < r.size) :
    pageNo (r.vaddr + 4096 * k) = r.first + k ∧ r.first + k < r.stop := by
  have := h.size_dvd
  unfold stop first pageNo
  rcases h.half with h | h <;> omega

end VRange

/-! ## Main result -/

/-- **After a `kh_mmap` that succeeds, `kh_getmap` answers with the mapping asked for on the range
and as before everywhere else.** -/
theorem khGetmap_khMmap {I : Mem → σ → Prop} {s s' : VmState σ} (hA : A.FreshUnder root I)
    (hI : I s.mem s.pg) (hc : c.InHalf)
    (hpos : c.paddr ≠ 0) (halign : c.paddr % 4096 = 0) (hfit : c.paddr + c.size ≤ 2 ^ 52)
    (hmapped : hasFlag c.access MM_PAGE_MAPPED = true) (htree : Tree Entry.child s.mem root 3)
    (hdirect : ∀ f, Table s.mem root f → A.direct f = true)
    (h : khMmap A c root s = .ok (.ok, s')) :
    (∀ k, 4096 * k < c.size → ∃ access, khGetmap A root (c.vaddr + 4096 * k) s'.mem =
        .ok ((c.paddr + 4096 * k, some access), s'.mem) ∧
      hasFlag access MM_PAGE_WRITE = hasFlag c.access MM_PAGE_WRITE ∧
      hasFlag access MM_PAGE_USER = hasFlag c.access MM_PAGE_USER ∧
      hasFlag access MM_PAGE_EXEC = hasFlag c.access MM_PAGE_EXEC) ∧
    ∀ va, Canonical va → ¬ (c.vaddr ≤ va ∧ va < c.vaddr + c.size) →
      (khGetmap A root va s'.mem).map Prod.fst = (khGetmap A root va s.mem).map Prod.fst := by
  have hstart : MappedUpTo A c root s.mem c.first s :=
    ⟨htree, hdirect, fun p hp => (if_neg (by omega)).symm⟩
  obtain ⟨-, hend, -⟩ : _ ∧ MappedUpTo A c root s.mem c.stop s' ∧ I s'.mem s'.pg := by
    rcases khMmap_of_walkInv (walkInv_mappedUpTo hA hc hmapped) hc (by omega) ⟨hstart, hI⟩ h
      with hok | ⟨hno, -⟩
    · exact hok
    · cases hno
  refine ⟨fun k hk => ?_, fun va hva hout => ?_⟩
  · obtain ⟨hpage, hlt⟩ := hc.pageNo_add hk
    have hk' : c.paddr + 4096 * k < 2 ^ 52 := by omega
    refine ⟨_, ?_, hasFlag_pteAccess (c.pi k)⟩
    rw [khGetmap_eq hend.direct, hpage, hend.mapping _ (hlt.trans hc.stop_lt),
      if_pos ⟨by omega, hlt⟩, Nat.add_sub_cancel_left]
    have haddr : unpgaddr (c.pte (c.pi k)).address = c.paddr + 4096 * k := by
      have hpi : c.pi k = c.paddr + 4096 * k := by
        rw [MmapArgs.pi, MmapArgs.piDiff, if_pos hpos, PAGESIZE]
        omega
      rw [MmapArgs.pte, hpi, unpgaddr_pgRoundDown (by omega) hk']
    rw [answer, haddr]
  · rw [khGetmap_eq hend.direct, khGetmap_eq hdirect, hend.mapping _ (pageNo_lt va),
      if_neg fun hin => hout ((hc.mem_iff hva).mp hin)]
    rfl

/-! ### Two runs -/

/-- The tables below frame `n` name only tables below frame `n`. -/
def closedBelow (mem : Mem) (n : ℕ) : Bool :=
  (List.range n).all fun f => (List.range 512).all fun i =>
    !(entryAt mem (BitVec.ofNat 40 f) i).present ||
      decide ((entryAt mem (BitVec.ofNat 40 f) i).address.toNat < n)

/-- An allocator that hands out frame after frame, as long as all tables lie below. -/
def bump : Platform ℕ where
  ndebug := false
  direct _ := true
  tmpmap _ mem := .ok mem
  pgalloc mem n := .ok
    (if 1 < n ∧ n < 2 ^ 40 ∧ closedBelow mem n then (n * 4096, n + 1) else (0, n))
  pgfree n _ := .ok n

theorem toNat_lt_of_closedBelow {n : ℕ} (h : closedBelow mem n = true) {g : Frame}
    {π : List (Fin 512)} (hf : f.toNat < n) (hg : path mem f π = some g) : g.toNat < n := by
  induction π generalizing f with
  | nil => exact Option.some.inj hg ▸ hf
  | cons i π ih =>
    cases hp : (mem f i).present with
    | false =>
      rw [path, follow_cons, child_eq_none hp] at hg
      cases hg
    | true =>
      rw [path, follow_cons, child_eq_some hp] at hg
      refine ih ?_ hg
      have hentry := List.all_eq_true.mp (List.all_eq_true.mp h f.toNat (List.mem_range.mpr hf)) i
      simpa [entryAt, hp] using hentry

theorem fresh_bump : bump.FreshUnder 1 fun _ _ => True := by
  refine Platform.freshUnder_true fun h hne => ⟨?_, rfl⟩
  simp only [bump] at h
  split at h
  · rename_i hn
    cases h
    rintro ⟨π, -, hπ⟩
    have hlt := toNat_lt_of_closedBelow hn.2.2 (by simpa using hn.1) hπ
    rw [pgRoundDown, BitVec.toNat_ofNat] at hlt
    omega
  · cases h
    exact absurd rfl hne

/-- What `kh_getmap` answers after a `kh_mmap` that succeeds. -/
def getmapAfter (A : Platform σ) (c : MmapArgs) (root : Frame) (s : VmState σ) (va : ℕ) :
    Option (ℕ × Option UInt32) :=
  match khMmap A c root s with
  | .ok (.ok, s') => (khGetmap A root va s'.mem).toOption.map Prod.fst
  | _ => none

/-- A context without any page, whose PML4 is frame 1; the allocator is at frame 2. -/
def blank : VmState ℕ := ⟨fun _ _ => Entry.zero, 2, []⟩

/-- Two pages, writable and for users. -/
def twoPages : MmapArgs where
  vaddr := 0x5000
  size := 0x2000
  paddr := 0x80000
  access := 0x25
  flags := 0

theorem tree_blank : Tree Entry.child blank.mem 1 3 := by
  have hnil : ∀ {π f}, path blank.mem 1 π = some f → π = [] := by
    intro π f h
    cases π with
    | nil => rfl
    | cons i π => exact absurd h (by simp [follow_cons, blank, child_zero])
  intro π ρ f _ _ hπ hρ
  rw [hnil hπ, hnil hρ]

theorem inHalf_twoPages : twoPages.InHalf := ⟨by decide, by decide, by decide, by decide⟩

theorem khGetmap_khMmap_twoPages : ∃ s', khMmap bump twoPages 1 blank = .ok (.ok, s') ∧
    ∃ access, khGetmap bump 1 0x6000 s'.mem = .ok ((0x81000, some access), s'.mem) ∧
      hasFlag access MM_PAGE_WRITE = true ∧ hasFlag access MM_PAGE_USER = true ∧
      hasFlag access MM_PAGE_EXEC = false := by
  obtain ⟨r, s', h, rfl⟩ : ∃ r s', khMmap bump twoPages 1 blank = .ok (r, s') ∧ r = .ok := by
    decide +kernel
  exact ⟨s', h, (khGetmap_khMmap fresh_bump trivial inHalf_twoPages (by decide) (by decide)
    (by decide) (by decide) tree_blank (fun _ _ => rfl) h).1 1 (by decide)⟩

/-- An allocator that has run out of pages. -/
def noPages : Platform Unit :=
  ⟨false, fun _ => true, fun _ => .ok, fun _ _ => .ok (0, ()), fun _ _ => .ok ()⟩

/-- One page table, below the given entries of the PML4. -/
def belowSlots (slots : List (Fin 512)) : VmState Unit where
  mem f i :=
    if f = 1 ∧ i ∈ slots then tableEntry 2
    else if f = 2 ∧ i = 0 then tableEntry 3
    else if f = 3 ∧ i = 0 then tableEntry 4
    else Entry.zero
  pg := ()
  freed := []

/-- Two pages of which the second has no frame number of 40 bits. -/
def topPages : MmapArgs := { twoPages with paddr := 2 ^ 52 - 4096 }

/-- Beyond the last frame number `kh_getmap` returns null; and where two PML4 entries share a table,
a page outside the range is mapped as well. -/
theorem khMmap_wraps_and_shares :
    (noPages.FreshUnder 1 (fun _ _ => True) ∧ topPages.InHalf ∧ topPages.paddr ≠ 0 ∧
      topPages.paddr % 4096 = 0 ∧ topPages.paddr < 2 ^ 52 ∧
      hasFlag topPages.access MM_PAGE_MAPPED = true ∧
      hasFlag topPages.flags MMAP_NO_REMAP = false ∧ 4096 * 1 < topPages.size ∧
      getmapAfter noPages topPages 1 (belowSlots [0]) (topPages.vaddr + 4096 * 1) =
        some (0, some 0x27)) ∧
    (noPages.FreshUnder 1 (fun _ _ => True) ∧ twoPages.InHalf ∧ twoPages.paddr ≠ 0 ∧
      twoPages.paddr % 4096 = 0 ∧ twoPages.paddr + twoPages.size ≤ 2 ^ 52 ∧
      hasFlag twoPages.access MM_PAGE_MAPPED = true ∧
      hasFlag twoPages.flags MMAP_NO_REMAP = false ∧ Canonical 0x8000005000 ∧
      ¬ (twoPages.vaddr ≤ 0x8000005000 ∧ 0x8000005000 < twoPages.vaddr + twoPages.size) ∧
      (khGetmap noPages 1 0x8000005000 (belowSlots [0, 1]).mem).toOption.map Prod.fst =
        some (0, none) ∧
      getmapAfter noPages twoPages 1 (belowSlots [0, 1]) 0x8000005000 =
        some (0x80000, some 0x27)) := by
  have hfresh : noPages.FreshUnder 1 fun _ _ => True :=
    Platform.freshUnder_true fun h hne => absurd (congrArg pgRoundDown (ok_mk_inj h).1).symm hne
  refine ⟨⟨hfresh, ⟨by decide, by decide, by decide, by decide⟩, by decide, by decide, by decide,
    by decide, by decide, by decide, by decide +kernel⟩, hfresh, inHalf_twoPages, by decide,
    by decide, by decide, by decide, by decide, .inl (by decide), by decide, by decide +kernel,
    by decide +kernel⟩

end Pbos.Hal
