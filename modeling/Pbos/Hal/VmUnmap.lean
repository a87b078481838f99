import Pbos.Hal.VmMap

/-!
# Hal/VmUnmap — what `kh_unmmap` leaves mapped

The loop over PML4 entries stops before the entry that holds the end of the range, and below an
entry it visits the walk takes the page directory pointer table for the tables under it.  So a range
inside one PML4 entry is not walked at all, and a walk never reaches a PTE: it clears entries of
upper tables (`Scrubbed`) and gives back frames of tables.

`Unmaps` is what unmapping a range should do.  It is done where there is nothing to do but to give
back tables that are empty, and for a range inside one PML4 entry only there; in no case is an
ordinary page unmapped.
-/

namespace Pbos.Hal

open Radix

variable {σ : Type} {A : Platform σ} {root : Frame} {r : VRange} {s s' : VmState σ}
  {k i4 i3 i2 i1 : ℕ} {e : Entry} {f g : Frame} {mem : Mem} {i : Fin 512}

/-! ## Ranges -/

namespace VRange

/-- Whole pages inside one half of the address space. -/
structure OneHalf (r : VRange) : Prop where
  vaddr_dvd : r.vaddr % 4096 = 0
  size_dvd : r.size % 4096 = 0
  size_pos : 0 < r.size
  half : r.vaddr + r.size ≤ 2 ^ 47 ∨ 2 ^ 64 - 2 ^ 47 ≤ r.vaddr ∧ r.vaddr + r.size ≤ 2 ^ 64

theorem InHalf.oneHalf (h : r.InHalf) : r.OneHalf :=
  ⟨h.vaddr_dvd, h.size_dvd, h.size_pos, h.half.imp_right fun hk => ⟨hk.1, hk.2.le⟩⟩

variable (h : r.OneHalf)

include h

theorem OneHalf.not_crossesSpaces : ¬ r.crossesSpaces := by
  have := h.size_pos
  rcases h.half with h | h <;> simp [crossesSpaces, mmIsUserSpace] <;> omega

theorem OneHalf.pageNo_add (hk : 4096 * k < r.size) :
    pageNo (r.vaddr + 4096 * k) = r.first + k ∧ r.first + k < 2 ^ 36 := by
  unfold first pageNo
  rcases h.half with h | h <;> omega

/-- The walk meets no `break` below an entry it visits. -/
theorem OneHalf.entryVaddr_lt_limit (h4 : i4 < pml4x r.limit) (h3 : i3 < 512)
    (h2 : i2 < 512) (h1 : i1 < 512) : ¬ r.limit ≤ r.entryVaddr i4 i3 i2 i1 := by
  have hin : r.InHalf := by
    refine ⟨h.vaddr_dvd, h.size_dvd, h.size_pos, h.half.imp_right fun hk => ⟨hk.1, ?_⟩⟩
    rcases Nat.lt_or_eq_of_le hk.2 with hlt | heq
    · exact hlt
    · rw [limit, heq] at h4
      exact absurd h4 (Nat.not_lt_zero _)
  have hlt : i4 < 512 := by rw [hin.pml4x_limit] at h4; have := hin.stop_lt; omega
  rw [hin.limit_le_entryVaddr hlt h3 h2 h1, spell]
  rw [hin.pml4x_limit] at h4
  omega

end VRange

/-! ## The property -/

/-- How many PTEs of the range are present and map `f`. -/
def mappedTimes (mem : Mem) (root : Frame) (r : VRange) (f : Frame) : ℕ :=
  (List.range (r.size / 4096)).countP fun k =>
    (mapping mem root (r.first + k)).map Entry.address == some f

variable (A root r s) in
/-- Every page of the range is unmapped, every other page is left alone, and each frame the range
mapped is given back once for each PTE. -/
structure Unmaps (s' : VmState σ) : Prop where
  cleared : ∀ k, 4096 * k < r.size →
    (khGetmap A root (r.vaddr + 4096 * k) s'.mem).map (fun a => a.1.1) = .ok 0
  kept : ∀ va, Canonical va → ¬ (r.vaddr ≤ va ∧ va < r.vaddr + r.size) →
    (khGetmap A root va s'.mem).map Prod.fst = (khGetmap A root va s.mem).map Prod.fst
  freed : ∀ f, 0 < mappedTimes s.mem root r f →
    s'.freed.count f = s.freed.count f + mappedTimes s.mem root r f

/-- The tables named by the `n` PML4 entries from `i4` on that have nothing present in them, the
last entry apart. -/
def emptyTables (mem : Mem) (root : Frame) (i4 n : ℕ) : List Frame :=
  ((List.range' i4 n).filter fun i =>
    (entryAt mem root i).present && unneeded mem (entryAt mem root i).address).map
      fun i => (entryAt mem root i).address

/-- `mm_pgfree` takes these frames, one after the other. -/
def Platform.Frees (A : Platform σ) : σ → List Frame → Prop
  | _, [] => True
  | pg, f :: fs => ∃ pg', A.pgfree pg (unpgaddr f) = .ok pg' ∧ A.Frees pg' fs

variable (A root r s) in
/-- No page of the range is mapped, none of the entries that the walk visits in page directory
pointer tables is present, and the ones of these tables that are empty can be given back. -/
structure NothingMapped : Prop where
  absent : ∀ k, 4096 * k < r.size → mapping s.mem root (r.first + k) = none
  idle : ∀ i4, pml4x r.vaddr ≤ i4 → i4 < pml4x r.limit → (entryAt s.mem root i4).present = true →
    ∀ j, r.firstPdptx i4 ≤ j → j < 512 →
      (entryAt s.mem (entryAt s.mem root i4).address j).present = false
  frees : A.Frees s.pg
    (emptyTables s.mem root (pml4x r.vaddr) (pml4x r.limit - pml4x r.vaddr))

theorem pdptx_lt (va : ℕ) : pdptx va < 512 := by rw [pdptx_eq]; omega

theorem pml4x_lt (va : ℕ) : pml4x va < 512 := by rw [pml4x_eq]; have := pageNo_lt va; omega

theorem path_singleton (h : (entryAt s.mem root i4).present = true) :
    path s.mem root [Fin.ofNat 512 i4] = some (entryAt s.mem root i4).address :=
  path_present (α := []) rfl h

/-- The PTE of a page depends on the entries on the way to it only. -/
theorem mapping_congr {mem' : Mem} {p : ℕ} (h : ∀ {α i β g}, tables p ++ [slot p] = α ++ i :: β →
    path mem root α = some g → mem' g i = mem g i) : mapping mem' root p = mapping mem root p := by
  have hpath : path mem' root (tables p) = path mem root (tables p) :=
    follow_congr fun α i β g hsplit hg => by
      rw [h (β := β ++ [slot p]) (by rw [hsplit]; simp) hg]
  unfold mapping
  cases hg : path mem root (tables p) with
  | none => rw [leaf_eq_none hg, leaf_eq_none (hpath.trans hg)]
  | some g => rw [leaf_eq_some hg, leaf_eq_some (hpath.trans hg), h rfl hg]

theorem Entry.present_of_mask (h : e.mask = 0) : e.present = false := by
  rw [present, has, h]
  rfl

theorem Platform.lower_of_direct (h : A.direct f = true) :
    A.lower f g mem = .ok (f, mem) := if_pos h

/-! ## A walk that has nothing to unmap -/

theorem unneeded_iff : unneeded mem f = true ↔ ∀ j < 511, (entryAt mem f j).present = false := by
  simp [unneeded]

variable (A root r s) in
/-- The walk has come to the PML4 entry `y`: entries before it that named an empty table are
cleared, and the other empty tables can be given back. -/
structure Emptied (y : ℕ) (t : VmState σ) : Prop where
  entry : ∀ f i, t.mem f i = s.mem f i ∨ f = root ∧ i.val < y ∧ (t.mem f i).present = false ∧
    ∀ j, (s.mem (s.mem root i).address j).present = false
  frees : A.Frees t.pg (emptyTables s.mem root y (pml4x r.limit - y))

section Emptied

variable {t : VmState σ} (ht : Tree Entry.child s.mem root 3)
  (hdirect : ∀ f, Table s.mem root f → A.direct f = true)

theorem emptyTables_cons (h : i4 < pml4x r.limit) :
    emptyTables mem root i4 (pml4x r.limit - i4) =
      if (entryAt mem root i4).present = true ∧
          unneeded mem (entryAt mem root i4).address = true then
        (entryAt mem root i4).address ::
          emptyTables mem root (i4 + 1) (pml4x r.limit - (i4 + 1))
      else emptyTables mem root (i4 + 1) (pml4x r.limit - (i4 + 1)) := by
  rw [show pml4x r.limit - i4 = pml4x r.limit - (i4 + 1) + 1 by omega]
  simp only [emptyTables, List.range'_succ, List.filter_cons, Bool.and_eq_true]
  split <;> rfl

/-- The walk passes an entry without giving anything back. -/
theorem Emptied.next (h : Emptied A root r s i4 t) (h4 : i4 < pml4x r.limit)
    (hkeep : ¬ ((entryAt s.mem root i4).present = true ∧
      unneeded s.mem (entryAt s.mem root i4).address = true)) :
    Emptied A root r s (i4 + 1) t := by
  refine ⟨fun f i => (h.entry f i).imp_right fun ⟨hf, hi, hrest⟩ => ⟨hf, by omega, hrest⟩, ?_⟩
  have hfrees := h.frees
  rwa [emptyTables_cons h4, if_neg hkeep] at hfrees

include ht hdirect in
/-- A PML4 entry below which no visited entry is present. -/
theorem unmapPml4e_idle (hn : NothingMapped A root r s) (hi4 : pml4x r.vaddr ≤ i4)
    (hi4' : i4 < pml4x r.limit) (h : Emptied A root r s i4 t) :
    ∃ t', unmapPml4e A r 0 root i4 t = .ok (.next t') ∧ Emptied A root r s (i4 + 1) t' := by
  have hlt : i4 < 512 := hi4'.trans (pml4x_lt _)
  have hroot : entryAt t.mem root i4 = entryAt s.mem root i4 := by
    rcases h.entry root (Fin.ofNat 512 i4) with heq | ⟨-, hval, -⟩
    · exact heq
    · rw [Fin.val_ofNat, Nat.mod_eq_of_lt hlt] at hval
      exact absurd hval (lt_irrefl i4)
  unfold unmapPml4e
  rw [hroot]
  cases hp : (entryAt s.mem root i4).present with
  | false => exact ⟨t, rfl, h.next hi4' (by simp [hp])⟩
  | true =>
    have hpath := path_singleton hp
    have hreach : A.reach (entryAt s.mem root i4).address t.mem = .ok t.mem :=
      if_pos (hdirect _ ⟨_, by simp, hpath⟩)
    have hne : (entryAt s.mem root i4).address ≠ root := fun heq => by
      rw [heq] at hpath
      exact absurd (ht (by simp) (by simp) hpath follow_nil) (by simp)
    have hbelow : ∀ j, entryAt t.mem (entryAt s.mem root i4).address j =
        entryAt s.mem (entryAt s.mem root i4).address j := fun j =>
      (h.entry _ _).resolve_right fun hr => hne hr.1
    have habsent := hn.idle i4 hi4 hi4' hp
    obtain ⟨y, hy⟩ := forLoop_idle (n := 512 - r.firstPdptx i4) (x := r.firstPdptx i4) (s := t)
      (fun i3 t => unmapPdpte A r 0 (entryAt t.mem root i4) i4
        (entryAt s.mem root i4).address i3 t) fun i3 hi3 hi3' => by
      unfold unmapPdpte
      rw [hbelow, habsent i3 hi3 (by omega)]
      split
      · exact .inr rfl
      · exact .inl rfl
    have hempty : unneeded t.mem (entryAt s.mem root i4).address =
        unneeded s.mem (entryAt s.mem root i4).address := by simp only [unneeded, hbelow]
    simp only [Bool.not_true, Bool.false_eq_true, ↓reduceIte, hreach, bind, Except.bind, hy, hroot,
      hempty]
    cases hun : unneeded s.mem (entryAt s.mem root i4).address with
    | false => exact ⟨t, rfl, h.next hi4' (by simp [hun])⟩
    | true =>
      have hfrees := h.frees
      rw [emptyTables_cons hi4', if_pos ⟨hp, hun⟩] at hfrees
      obtain ⟨pg', hpg', hrest⟩ := hfrees
      have hall : ∀ j, (s.mem (entryAt s.mem root i4).address j).present = false := by
        intro j
        have hj : Fin.ofNat 512 j.val = j := Fin.ext (Nat.mod_eq_of_lt j.isLt)
        rcases Nat.lt_or_eq_of_le (Nat.le_of_lt_succ j.isLt) with hj' | hj'
        · exact hj ▸ unneeded_iff.mp hun j.val hj'
        · refine hj ▸ habsent j.val ?_ j.isLt
          rw [VRange.firstPdptx]
          have := pdptx_lt r.vaddr
          split <;> omega
      have hrun : A.free (entryAt s.mem root i4).address
          (t.store root i4 { entryAt s.mem root i4 with mask := 0 }) =
          .ok { t.store root i4 { entryAt s.mem root i4 with mask := 0 } with
            pg := pg', freed := (entryAt s.mem root i4).address :: t.freed } := by
        rw [Platform.free, show (t.store root i4 _).pg = t.pg from rfl, hpg']
        rfl
      simp only [↓reduceIte, hrun, Except.map]
      refine ⟨_, rfl, fun g i => ?_, hrest⟩
      by_cases hg : g = root ∧ i = Fin.ofNat 512 i4
      · obtain ⟨rfl, rfl⟩ := hg
        refine .inr ⟨rfl, ?_, ?_, hall⟩
        · rw [Fin.val_ofNat, Nat.mod_eq_of_lt hlt]
          exact Nat.lt_succ_self i4
        · simp only [VmState.store, write_self]
          exact Entry.present_of_mask rfl
      · simp only [VmState.store, write_of_ne hg]
        obtain heq | ⟨hf, hi, hrest⟩ := h.entry g i
        · exact .inl heq
        · exact .inr ⟨hf, by omega, hrest⟩

include ht hdirect in
theorem khUnmmap_idle (hr : r.OneHalf) (hn : NothingMapped A root r s) :
    ∃ s', khUnmmap A r 0 root s = .ok s' ∧ ∃ y, Emptied A root r s y s' := by
  obtain ⟨o, ho, hend⟩ : ∃ o, forLoop (unmapPml4e A r 0 root) (pml4x r.limit - pml4x r.vaddr)
      (pml4x r.vaddr) s = .ok o ∧
        o.Holds (fun t => ∃ y, Emptied A root r s y t) fun _ => False := by
    refine forLoop_reaches (I := Emptied A root r s) (fun y t hy hy' h => ?_) (fun _ h => ⟨_, h⟩)
      ⟨fun _ _ => .inl rfl, hn.frees⟩
    obtain ⟨t', hrun, h'⟩ := unmapPml4e_idle ht hdirect hn hy (by omega) h
    exact ⟨_, hrun, h'⟩
  unfold khUnmmap
  rw [if_neg fun h => hr.not_crossesSpaces h.2, ho]
  cases o with
  | done y t => exact ⟨t, rfl, hend⟩
  | ret t => exact absurd hend id

/-- Tables that were empty are no way to any page. -/
theorem Emptied.path_mono (h : Emptied A root r s i4 t) {α : List (Fin 512)}
    (hα : path t.mem g α = some f) : path s.mem g α = some f := by
  refine follow_mono (fun g i x hx => ?_) hα
  rcases h.entry g i with heq | ⟨-, -, hp, -⟩
  · rw [← heq]
    exact hx
  · rw [Entry.child_eq_none hp] at hx
    cases hx

include ht in
/-- **Giving back empty tables changes no mapping.** -/
theorem Emptied.mapping_eq (h : Emptied A root r s i4 t) (p : ℕ) :
    mapping t.mem root p = mapping s.mem root p := by
  rcases h.entry root (Fin.ofNat 512 (p / 2 ^ 27)) with heq | ⟨-, -, hp, hnone⟩
  · have hkeep : ∀ {α i β g}, tables p ++ [slot p] = α ++ i :: β → path s.mem root α = some g →
        t.mem g i = s.mem g i := by
      intro α i β g hsplit hg
      rcases h.entry g i with heq' | ⟨rfl, -⟩
      · exact heq'
      · have hlen : α.length ≤ 3 := by
          have := congrArg List.length hsplit
          simp at this
          omega
        obtain rfl := ht hlen (by simp) hg follow_nil
        rw [← (List.cons.inj hsplit).1]
        exact heq
    exact mapping_congr hkeep
  · have hgone : path t.mem root (tables p) = none := path_absent (α := []) rfl hp _
    have hempty : path s.mem root (tables p) = none := by
      cases hp' : (s.mem root (Fin.ofNat 512 (p / 2 ^ 27))).present with
      | false => exact path_absent (α := []) rfl hp' _
      | true =>
        have hpath : path s.mem root ([] ++ [_]) = some _ := path_present rfl hp'
        exact path_absent hpath (hnone _) _
    rw [mapping, leaf_eq_none hgone, mapping, leaf_eq_none hempty]

end Emptied

/-- A range inside one PML4 entry is not walked. -/
theorem khUnmmap_of_le (hr : r.OneHalf) (hle : pml4x r.limit ≤ pml4x r.vaddr) (flags : UInt32) :
    khUnmmap A r flags root s = .ok s := by
  unfold khUnmmap
  rw [if_neg fun h => hr.not_crossesSpaces h.2, Nat.sub_eq_zero_of_le hle]
  rfl

variable {flags : UInt32}

/-! ## What a walk can do -/

section Walk

variable (r root s) in
/-- The entries a walk may clear: the PML4 entries it visits and the tables they name. -/
def Visited (f : Frame) (i : Fin 512) : Prop :=
  ∃ i4, pml4x r.vaddr ≤ i4 ∧ i4 < pml4x r.limit ∧
    (f = root ∧ i = Fin.ofNat 512 i4 ∨ path s.mem root [Fin.ofNat 512 i4] = some f)

variable (r root s) in
/-- The walk has cleared some entries it visits and given back frames, of tables if the range lies
inside one half of the address space. -/
structure Scrubbed (t : VmState σ) : Prop where
  entry : ∀ f i, t.mem f i = s.mem f i ∨ Visited root r s f i ∧ (t.mem f i).present = false ∧
    ((t.mem f i).address = 0 ∨ (t.mem f i).address = (s.mem f i).address)
  freed : r.OneHalf → ∃ l, t.freed = l ++ s.freed ∧ ∀ f ∈ l, f = 0 ∨ Table s.mem root f

variable {t t' : VmState σ} {f g : Frame} {e : Entry} {x : ℕ} {fl : Turn (VmState σ)}

theorem Visited.table (h : Visited root r s f i) : Table s.mem root f := by
  obtain ⟨i4, -, -, ⟨rfl, -⟩ | hf⟩ := h
  · exact ⟨[], by simp, follow_nil⟩
  · exact ⟨_, by simp, hf⟩

theorem Scrubbed.eq_of_present (h : Scrubbed root r s t) (hp : (t.mem f i).present = true) :
    t.mem f i = s.mem f i := by
  rcases h.entry f i with heq | ⟨-, hp', -⟩
  · exact heq
  · rw [hp] at hp'
    cases hp'

theorem Scrubbed.address (h : Scrubbed root r s t) (f : Frame) (i : Fin 512) :
    (t.mem f i).address = 0 ∨ (t.mem f i).address = (s.mem f i).address := by
  rcases h.entry f i with heq | ⟨-, -, haddr⟩
  · exact .inr (by rw [heq])
  · exact haddr

theorem Scrubbed.free (h : Scrubbed root r s t) (hf : r.OneHalf → f = 0 ∨ Table s.mem root f)
    (hfree : A.free f t = .ok t') : Scrubbed root r s t' := by
  obtain ⟨hmem, hfreed, -⟩ := Platform.free_eq hfree
  refine ⟨hmem ▸ h.entry, fun hr => ?_⟩
  obtain ⟨l, hl, hl'⟩ := h.freed hr
  exact ⟨f :: l, by rw [hfreed, hl]; rfl, List.forall_mem_cons.mpr ⟨hf hr, hl'⟩⟩

theorem Scrubbed.store (h : Scrubbed root r s t) (hv : Visited root r s f (Fin.ofNat 512 x))
    (he : e.present = false) (haddr : e.address = 0 ∨ e.address = (entryAt t.mem f x).address) :
    Scrubbed root r s (t.store f x e) := by
  refine ⟨fun g i => ?_, h.freed⟩
  by_cases hg : g = f ∧ i = Fin.ofNat 512 x
  · obtain ⟨rfl, rfl⟩ := hg
    refine .inr ⟨hv, ?_⟩
    simp only [VmState.store, write_self]
    refine ⟨he, ?_⟩
    rcases haddr with haddr | haddr
    · exact .inl haddr
    · rw [haddr]
      exact h.address _ _
  · simp only [VmState.store, write_of_ne hg]
    exact h.entry g i

variable {I : VmState σ → Prop} (hfree : ∀ {f s s'}, I s → A.free f s = .ok s' → I s')
  (hmem : ∀ {s} (mem : Mem), I s → I { s with mem := mem })

variable (r root s I) in
/-- The walk is below the PML4 entry `i4`, which is as it was.  `I` is anything that storing entries
and giving back frames keep. -/
structure Inside (i4 : ℕ) (t : VmState σ) : Prop extends Scrubbed root r s t where
  root_eq : entryAt t.mem root i4 = entryAt s.mem root i4
  kept : I t

include hfree hmem in
/-- The table below an entry is given up. -/
theorem Scrubbed.release (h : Scrubbed root r s t) (hI : I t)
    (hv : Visited root r s f (Fin.ofNat 512 x)) (hg : r.OneHalf → g = 0 ∨ Table s.mem root g)
    (hrun : (A.free g (t.store f x { entryAt t.mem f x with mask := 0 })).map Turn.next = .ok fl) :
    ∃ t', fl = .next t' ∧ Scrubbed root r s t' ∧ I t' ∧
      t'.mem = write t.mem f (Fin.ofNat 512 x) { entryAt t.mem f x with mask := 0 } := by
  obtain ⟨t', hfree', rfl⟩ := map_eq_ok_iff.mp hrun
  have hstore := h.store (e := { entryAt t.mem f x with mask := 0 }) hv
    (Entry.present_of_mask rfl) (.inr rfl)
  exact ⟨t', rfl, hstore.free hg hfree', hfree (hmem _ hI) hfree', (Platform.free_eq hfree').1⟩

variable {i4 : ℕ} (ht : Tree Entry.child s.mem root 3) (hdirect : A.direct f = true)
  (h4 : pml4x r.vaddr ≤ i4) (h4' : i4 < pml4x r.limit)
  (hp : (entryAt s.mem root i4).present = true) (hf : (entryAt s.mem root i4).address = f)

include hp hf in
/-- A present entry of the table names a table of the context. -/
theorem Inside.table (h : Inside root r s I i4 t) (hx : (entryAt t.mem f x).present = true) :
    Table s.mem root (entryAt s.mem f x).address := by
  have hpath : path s.mem root [Fin.ofNat 512 i4] = some f := hf ▸ path_singleton hp
  refine ⟨[Fin.ofNat 512 i4] ++ [Fin.ofNat 512 x], by simp, path_present hpath ?_⟩
  rw [← h.eq_of_present hx]
  exact hx

include ht h4 h4' hp hf in
/-- The table named by the PML4 entry is visited, and is not the PML4. -/
theorem visited_below (i : Fin 512) : Visited root r s f i ∧ root ≠ f := by
  have hpath : path s.mem root [Fin.ofNat 512 i4] = some f := hf ▸ path_singleton hp
  refine ⟨⟨i4, h4, h4', .inr hpath⟩, ?_⟩
  rintro rfl
  exact absurd (ht (by simp) (by simp) hpath follow_nil) (by simp)

include hfree hmem ht h4 h4' hp hf in
theorem Inside.release (h : Inside root r s I i4 t) (hg : r.OneHalf → g = 0 ∨ Table s.mem root g)
    (hrun : (A.free g (t.store f x { entryAt t.mem f x with mask := 0 })).map Turn.next = .ok fl) :
    fl.Goes r.OneHalf (Inside root r s I i4) := by
  obtain ⟨hv, hne⟩ := visited_below ht h4 h4' hp hf (Fin.ofNat 512 x)
  obtain ⟨t', rfl, hs, hI, heq⟩ := h.toScrubbed.release hfree hmem h.kept hv hg hrun
  refine ⟨hs, ?_, hI⟩
  rw [entryAt, heq, write_of_ne fun hg => hne hg.1]
  exact h.root_eq

include hfree hmem ht h4 h4' hp hf in
/-- What is taken for a PTE is an entry that names a page directory. -/
theorem unmapPte_inside (h3 : i3 < 512) (h2 : i2 < 512) (h1 : i1 < 512)
    (h : Inside root r s I i4 t) (hrun : unmapPte A r flags i4 i3 i2 f i1 t = .ok fl) :
    fl.Goes r.OneHalf (Inside root r s I i4) := by
  simp only [unmapPte] at hrun
  split at hrun
  · rename_i hle
    cases hrun
    exact ⟨fun hr => hr.entryVaddr_lt_limit h4' h3 h2 h1 hle, h⟩
  obtain ⟨t', hd, rfl⟩ := map_eq_ok_iff.mp hrun
  obtain ⟨hv, hne⟩ := visited_below ht h4 h4' hp hf (Fin.ofNat 512 i1)
  have h' : Scrubbed root r s t' ∧ I t' := by
    rcases Platform.drop_cases hd with ⟨rfl, -⟩ | ⟨hpres, -, hd⟩
    · exact ⟨h.toScrubbed, h.kept⟩
    · refine ⟨h.toScrubbed.free (fun _ => .inr ?_) hd, hfree h.kept hd⟩
      rw [entryAt, h.eq_of_present hpres]
      exact h.table hp hf hpres
  refine ⟨h'.1.store hv (Entry.present_of_mask rfl) (.inl rfl), ?_, hmem _ h'.2⟩
  rw [← h.root_eq, ← Platform.drop_mem hd]
  exact write_of_ne fun hg => hne hg.1

include hfree hmem ht hdirect h4 h4' hp hf in
theorem unmapPde_inside (h3 : i3 < 512) (h2 : i2 < 512) (h : Inside root r s I i4 t)
    (hrun : unmapPde A r flags i4 i3 f f i2 t = .ok fl) :
    fl.Goes r.OneHalf (Inside root r s I i4) := by
  simp only [unmapPde, Platform.lower_of_direct hdirect] at hrun
  split at hrun
  · rename_i hle
    cases hrun
    exact ⟨fun hr => hr.entryVaddr_lt_limit h4' h3 h2 (by decide) hle, h⟩
  split at hrun
  · cases hrun
    exact h
  rename_i hpres
  have hpres : (entryAt t.mem f i2).present = true := by simpa using hpres
  obtain ⟨x, hx, hrun⟩ := of_bind hrun
  cases hx
  obtain ⟨o, ho, hrun⟩ := of_bind hrun
  obtain ⟨y, t', rfl, h', -⟩ := forLoop_goes (fun y u fl hfirst hy hu hb =>
    unmapPte_inside hfree hmem ht h4 h4' hp hf h3 h2 (by omega) hu hb) h ho
  dsimp only at hrun
  split at hrun
  · refine h'.release hfree hmem ht h4 h4' hp hf (fun _ => ?_) hrun
    exact (h'.address f _).imp_right fun haddr => by
      rw [entryAt, haddr]
      exact h.table hp hf hpres
  · cases hrun
    exact h'

include hfree hmem ht hdirect h4 h4' hp hf in
/-- Inside one half of the address space a page directory is never given up: its entry is looked up
past the end of the table. -/
theorem unmapPdpte_inside (h3 : i3 < 512) (h : Inside root r s I i4 t)
    (hrun : unmapPdpte A r flags (entryAt t.mem root i4) i4 f i3 t = .ok fl) :
    fl.Goes r.OneHalf (Inside root r s I i4) := by
  simp only [unmapPdpte, h.root_eq, hf, Platform.lower_of_direct hdirect] at hrun
  split at hrun
  · rename_i hle
    cases hrun
    exact ⟨fun hr => hr.entryVaddr_lt_limit h4' h3 (by decide) (by decide) hle, h⟩
  split at hrun
  · cases hrun
    exact h
  obtain ⟨x, hx, hrun⟩ := of_bind hrun
  cases hx
  obtain ⟨o, ho, hrun⟩ := of_bind hrun
  obtain ⟨y, t', rfl, h', hend⟩ := forLoop_goes (fun y u fl hfirst hy hu hb =>
    unmapPde_inside hfree hmem ht hdirect h4 h4' hp hf h3 (by omega) hu hb) h ho
  dsimp only at hrun
  split at hrun
  · split at hrun
    · rename_i hy
      refine h'.release hfree hmem ht h4 h4' hp hf (fun hr => ?_) hrun
      have := hend hr
      omega
    · cases hrun
  · cases hrun
    exact h'

end Walk

section Whole

variable {I : VmState σ → Prop} (hfree : ∀ {f s s'}, I s → A.free f s = .ok s' → I s')
  (hmem : ∀ {s} (mem : Mem), I s → I { s with mem := mem }) (ht : Tree Entry.child s.mem root 3)
  (hdirect : ∀ f, Table s.mem root f → A.direct f = true)

include hfree hmem ht hdirect

theorem unmapPml4e_scrubbed (h4 : pml4x r.vaddr ≤ i4) (h4' : i4 < pml4x r.limit)
    {t : VmState σ} (h : Scrubbed root r s t ∧ I t) {fl : Turn (VmState σ)}
    (hrun : unmapPml4e A r flags root i4 t = .ok fl) :
    fl.Goes r.OneHalf fun t => Scrubbed root r s t ∧ I t := by
  unfold unmapPml4e at hrun
  split at hrun
  · cases hrun
    exact h
  rename_i hpres
  have hpres : (entryAt t.mem root i4).present = true := by simpa using hpres
  have heq : entryAt t.mem root i4 = entryAt s.mem root i4 := h.1.eq_of_present hpres
  have hp : (entryAt s.mem root i4).present = true := heq ▸ hpres
  have htable : Table s.mem root (entryAt s.mem root i4).address := ⟨_, by simp, path_singleton hp⟩
  obtain ⟨mem, hreach, hrun⟩ := of_bind hrun
  rw [heq, Platform.reach, if_pos (hdirect _ htable)] at hreach
  cases hreach
  obtain ⟨o, ho, hrun⟩ := of_bind hrun
  rw [heq] at ho hrun
  obtain ⟨y, t', rfl, h', -⟩ := forLoop_goes
    (fun y u fl hfirst hy hu hb =>
    unmapPdpte_inside hfree hmem ht (hdirect _ htable) h4 h4' hp rfl (by omega) hu hb)
    ⟨h.1, heq, h.2⟩ ho
  dsimp only at hrun
  split at hrun
  · obtain ⟨t'', rfl, hs, hI, -⟩ := h'.toScrubbed.release hfree hmem h'.kept
      ⟨i4, h4, h4', .inl ⟨rfl, rfl⟩⟩ (fun _ => .inr (by rw [h'.root_eq]; exact htable)) hrun
    exact ⟨hs, hI⟩
  · cases hrun
    exact ⟨h'.toScrubbed, h'.kept⟩

/-- **A walk clears entries of upper tables and gives back frames, and nothing else**; what these
keep, it keeps. -/
theorem khUnmmap_scrubbed (h0 : I s) (h : khUnmmap A r flags root s = .ok s') :
    Scrubbed root r s s' ∧ I s' := by
  unfold khUnmmap at h
  split at h
  · cases h
  obtain ⟨o, ho, h⟩ := of_bind h
  obtain ⟨y, t, rfl, hs, -⟩ := forLoop_goes (fun y u fl hy hy' hu hb =>
    unmapPml4e_scrubbed hfree hmem ht hdirect hy (by omega) hu hb)
    ⟨⟨fun _ _ => .inl rfl, fun _ => ⟨[], rfl, nofun⟩⟩, h0⟩ ho
  cases h
  exact hs

end Whole

theorem Scrubbed.path_mono (h : Scrubbed root r s s') {α : List (Fin 512)}
    (hα : path s'.mem g α = some f) : path s.mem g α = some f := by
  refine follow_mono (fun g i x hx => ?_) hα
  rcases h.entry g i with heq | ⟨-, hp, -⟩
  · rw [← heq]
    exact hx
  · rw [Entry.child_eq_none hp] at hx
    cases hx

/-- **Below the PML4 entries that are not visited everything is as it was.** -/
theorem Scrubbed.mapping_eq (h : Scrubbed root r s s') (ht : Tree Entry.child s.mem root 3) {p : ℕ}
    (hp : p < 2 ^ 36) (hout : ¬ (pml4x r.vaddr ≤ p / 2 ^ 27 ∧ p / 2 ^ 27 < pml4x r.limit)) :
    mapping s'.mem root p = mapping s.mem root p := by
  have hlimit := pml4x_lt r.limit
  have hkeep : ∀ {α i β g}, tables p ++ [slot p] = α ++ i :: β → path s.mem root α = some g →
      s'.mem g i = s.mem g i := by
    intro α i β g hsplit hg
    rcases h.entry g i with heq | ⟨⟨i4, hlo, hhi, hvis⟩, -⟩
    · exact heq
    have hlen : α.length ≤ 3 := by
      have := congrArg List.length hsplit
      simp at this
      omega
    have hhead : Fin.ofNat 512 (p / 2 ^ 27) = Fin.ofNat 512 i4 := by
      rcases hvis with ⟨rfl, rfl⟩ | hvis
      · obtain rfl := ht hlen (by simp) hg follow_nil
        exact (List.cons.inj hsplit).1
      · obtain rfl := ht hlen (by simp) hg hvis
        exact (List.cons.inj hsplit).1
    rw [ofNat_eq_iff] at hhead
    omega
  exact mapping_congr hkeep

/-! ## Main result -/

theorem mappedTimes_pos (hr : r.OneHalf) (hk : 4096 * k < r.size)
    (h : mapping mem root (r.first + k) = some e) : 0 < mappedTimes mem root r e.address := by
  have := hr.size_dvd
  refine List.countP_pos_iff.mpr ⟨k, List.mem_range.mpr (by omega), ?_⟩
  rw [h]
  simp

/-- **When `kh_unmmap` unmaps its range.**  It does where no page is mapped and the walk meets no
entry below a PML4 entry; inside one PML4 entry it does only there; and a range it has unmapped held
no ordinary page, only frames of tables or frame 0. -/
theorem khUnmmap_unmaps (hr : r.OneHalf) (ht : Tree Entry.child s.mem root 3)
    (hdirect : ∀ f, Table s.mem root f → A.direct f = true) :
    (NothingMapped A root r s → ∃ s', khUnmmap A r 0 root s = .ok s' ∧ Unmaps A root r s s') ∧
    (pml4x r.limit ≤ pml4x r.vaddr →
      (∃ s', khUnmmap A r 0 root s = .ok s' ∧ Unmaps A root r s s') → NothingMapped A root r s) ∧
    ((∃ s', khUnmmap A r 0 root s = .ok s' ∧ Unmaps A root r s s') →
      ∀ k e, 4096 * k < r.size → mapping s.mem root (r.first + k) = some e →
        e.address = 0 ∨ Table s.mem root e.address) := by
  refine ⟨fun hn => ?_, fun hle ⟨s', hrun, hu⟩ => ⟨fun k hk => ?_, fun i4 h4 h4' => ?_, ?_⟩,
    fun ⟨s', hrun, hu⟩ k e hk he => ?_⟩
  · obtain ⟨s', hrun, y, hempty⟩ := khUnmmap_idle ht hdirect hr hn
    have hgetmap : ∀ va, khGetmap A root va s'.mem =
        .ok (answer (mapping s.mem root (pageNo va)), s'.mem) := fun va => by
      rw [khGetmap_eq (fun f ⟨π, hπ, hf⟩ => hdirect f ⟨π, hπ, hempty.path_mono hf⟩),
        hempty.mapping_eq ht]
    refine ⟨s', hrun, fun k hk => ?_, fun va _ _ => ?_, fun f hf => ?_⟩
    · rw [hgetmap, (hr.pageNo_add hk).1, hn.absent k hk]
      rfl
    · rw [hgetmap, khGetmap_eq hdirect]
      rfl
    · obtain ⟨k, hk, hmap⟩ := List.countP_pos_iff.mp hf
      rw [hn.absent k (by have := List.mem_range.mp hk; omega)] at hmap
      cases hmap
  · rw [khUnmmap_of_le hr hle] at hrun
    cases hrun
    cases he : mapping s.mem root (r.first + k) with
    | none => rfl
    | some e =>
      have hpos := mappedTimes_pos hr hk he
      have := hu.freed _ hpos
      omega
  · omega
  · rw [Nat.sub_eq_zero_of_le hle]
    trivial
  · have hscrub := (khUnmmap_scrubbed (fun _ _ => trivial) (fun _ _ => trivial)
      ht hdirect trivial hrun).1
    obtain ⟨hpage, hlt⟩ := hr.pageNo_add hk
    by_cases hvis : pml4x r.vaddr ≤ (r.first + k) / 2 ^ 27 ∧ (r.first + k) / 2 ^ 27 < pml4x r.limit
    · obtain ⟨l, hl, hl'⟩ := hscrub.freed hr
      have hpos := mappedTimes_pos hr hk he
      have hcount := hu.freed _ hpos
      rw [hl, List.count_append] at hcount
      exact hl' _ (List.count_pos_iff.mp (by omega))
    · have hclear := hu.cleared k hk
      rw [khGetmap_eq (fun f ⟨π, hπ, hf⟩ => hdirect f ⟨π, hπ, hscrub.path_mono hf⟩), hpage,
        hscrub.mapping_eq ht hlt hvis, he] at hclear
      have hzero : unpgaddr e.address = 0 := Except.ok.inj hclear
      rw [unpgaddr] at hzero
      refine .inl (BitVec.eq_of_toNat_eq ?_)
      change e.address.toNat = 0
      omega

/-- Two pages on either side of the boundary of two PML4 entries. -/
def straddle : VRange := ⟨2 ^ 39 - 4096, 8192⟩

theorem path_blank (p : ℕ) : path blank.mem 1 (tables p) = none := by
  simp [tables, follow_cons, blank, Entry.child_zero]

theorem mapping_blank (p : ℕ) : mapping blank.mem 1 p = none := by
  rw [mapping, leaf_eq_none (path_blank p)]
  rfl

/-- The PML4 names one table, and that is empty. -/
def emptyTable : VmState ℕ :=
  { blank with mem := link blank.mem 1 0 (tableEntry 2) 2 Entry.zero }

theorem fresh_blank : ¬ Table blank.mem 1 2 := by
  rintro ⟨_ | ⟨i, π⟩, -, hπ⟩
  · cases hπ
  · simp [follow_cons, blank, Entry.child_zero] at hπ

theorem frees_bump (n : ℕ) (l : List Frame) : bump.Frees n l := by
  induction l with
  | nil => trivial
  | cons f l ih => exact ⟨n, rfl, ih⟩

/-- The empty table is given back. -/
theorem khUnmmap_unmaps_straddle : ∃ s', khUnmmap bump straddle 0 1 emptyTable = .ok s' ∧
    Unmaps bump 1 straddle emptyTable s' := by
  have hr : straddle.OneHalf := ⟨by decide, by decide, by decide, by decide⟩
  have htree : Tree Entry.child emptyTable.mem 1 3 :=
    Tree.link tree_blank (child_tableEntry _) Entry.child_zero fresh_blank
  refine (khUnmmap_unmaps hr htree fun _ _ => rfl).1
    ⟨fun k _ => ?_, fun i4 _ h4 _ j _ _ => ?_, ?_⟩
  · have hnone : (blank.mem 1 0).present = false := rfl
    exact (mapping_link (α := []) tree_blank follow_nil (by simp) hnone fresh_blank).trans
      (mapping_blank _)
  · have hlimit : pml4x straddle.limit = 1 := by decide
    obtain rfl : i4 = 0 := by omega
    have hzero : ∀ j, emptyTable.mem 2 j = Entry.zero := by simp [emptyTable, link]
    have haddr : (entryAt emptyTable.mem 1 0).address = 2 := rfl
    rw [haddr, entryAt, hzero]
    rfl
  · generalize emptyTables _ _ _ _ = l
    exact frees_bump _ l

/-- A context in which one page is mapped. -/
def onePage : VmState Unit :=
  { belowSlots [0] with mem := write (belowSlots [0]).mem 4 5 (twoPages.pte 0x80000) }

/-- The page stays mapped, and its frame is not given back. -/
theorem khUnmmap_leaves_page : VRange.OneHalf ⟨0x5000, 0x1000⟩ ∧
    (khUnmmap noPages ⟨0x5000, 0x1000⟩ 0 1 onePage).toOption.map
      (fun s' => ((khGetmap noPages 1 0x5000 s'.mem).toOption.map Prod.fst, s'.freed)) =
        some (some (0x80000, some 0x27), []) :=
  ⟨⟨by decide, by decide, by decide, by decide⟩, by decide +kernel⟩

end Pbos.Hal
