import Pbos.Mm.Pgalloc

/-!
# Hal/Init — the areas of physical memory at boot

`hn_mm_init_pmadlist` turns the boot loader's memory map into areas, and `hn_mm_init_areas` gives
every page of an area its MAD, reserved areas apart (`InitAreas`).  Whether the page at the address
0 has one is settled by the memory map alone: `khGetMad_zero_iff`.
-/

namespace Pbos.Hal

open List

def MM_PHYSICAL_MEMORY_TYPE_AVAILABLE : UInt8 := 0
def MM_PHYSICAL_MEMORY_TYPE_HARDWARE : UInt8 := 1
def MM_PHYSICAL_MEMORY_TYPE_CRITICAL : UInt8 := 2
def MM_PHYSICAL_MEMORY_TYPE_BOOTDATA : UInt8 := 3
def MM_PHYSICAL_MEMORY_TYPE_BAD : UInt8 := 4
def MM_PHYSICAL_MEMORY_TYPE_ACPI : UInt8 := 6

/-- `LIMINE_MEMMAP_USABLE` and the other types of an entry; `unknown` stands for any other
number. -/
inductive MemmapType
  | usable | bootloaderReclaimable | acpiReclaimable | acpiNvs | framebuffer | executableAndModules
  | reserved | badMemory | unknown
  deriving DecidableEq, Repr

/-- `limine_memmap_entry`. -/
structure MemmapEntry where
  base : ℕ
  length : ℕ
  type : MemmapType
  deriving DecidableEq, Repr

/-! ## `hn_mm_init_pmadlist` -/

variable {areas : List (ℕ × KiPmad)} {entries : List MemmapEntry} {entry : MemmapEntry}

/-- `hn_push_pmad`, with room for `storage` areas. -/
def hnPushPmad (storage : ℕ) (tree : OrdMap ℕ KiPmad) (area : ℕ × KiPmad) :
    Except Fault (OrdMap ℕ KiPmad) :=
  if storage ≤ tree.size + 1 then .error (.panic "Too many memory map entries" [])
  else if (∃ d ∈ tree.findMaxLteq area.1, area.1 < (d.1 + d.2.len) % 2 ^ 64) then
    .error (.panic "Overlapped memory regions detected" [])
  else if tree.find area.1 = none then .ok (tree.insert area.1 area.2)
  else .error (.panic "Calling insert_unwrap with insertion failed" [])

/-- An area before its MADs are made. -/
def newPmad (rbValue len : ℕ) (type : UInt8) : ℕ × KiPmad := (rbValue, ⟨len, type, OrdMap.empty⟩)

/-- The areas an entry gives rise to.  The page at the address 0 is split off usable memory. -/
def pmadsOf (entry : MemmapEntry) : Except Fault (List (ℕ × KiPmad)) :=
  match entry.type with
  | .usable | .bootloaderReclaimable =>
    if entry.base = 0 then
      .ok [newPmad 0 4096 MM_PHYSICAL_MEMORY_TYPE_HARDWARE,
        newPmad 4096 ((entry.length + (2 ^ 64 - 4096)) % 2 ^ 64) MM_PHYSICAL_MEMORY_TYPE_AVAILABLE]
    else .ok [newPmad entry.base entry.length MM_PHYSICAL_MEMORY_TYPE_AVAILABLE]
  | .acpiReclaimable | .acpiNvs =>
    .ok [newPmad entry.base entry.length MM_PHYSICAL_MEMORY_TYPE_ACPI]
  | .framebuffer => .ok [newPmad entry.base entry.length MM_PHYSICAL_MEMORY_TYPE_HARDWARE]
  | .executableAndModules => .ok [newPmad entry.base entry.length MM_PHYSICAL_MEMORY_TYPE_BOOTDATA]
  | .reserved => .ok [newPmad entry.base entry.length MM_PHYSICAL_MEMORY_TYPE_CRITICAL]
  | .badMemory => .ok [newPmad entry.base entry.length MM_PHYSICAL_MEMORY_TYPE_BAD]
  | .unknown => .error (.panic "Unknown memory map type, perhaps a bootloader bug" [])

/-- `hn_mm_init_pmadlist`: the areas, by their first address. -/
def hnMmInitPmadlist (storage : ℕ) (entries : List MemmapEntry) :
    Except Fault (OrdMap ℕ KiPmad) :=
  if storage < entries.length then .error (.panic "Too many initial memory maps" [])
  else entries.foldlM (fun tree entry => do (← pmadsOf entry).foldlM (hnPushPmad storage) tree)
    OrdMap.empty

section Areas

variable {storage : ℕ} {tree tree' : OrdMap ℕ KiPmad} {k : ℕ} {pmad : KiPmad}

theorem hnPushPmad_find {area : ℕ × KiPmad} (h : hnPushPmad storage tree area = .ok tree') :
    tree'.find k = some pmad ↔ tree.find k = some pmad ∨ (k, pmad) = area := by
  unfold hnPushPmad at h
  split at h
  · cases h
  split at h
  · cases h
  split at h
  · rename_i hnone
    cases h
    rw [OrdMap.find_insert]
    split
    · rename_i hk
      rw [hk, hnone, Prod.ext_iff]
      simp [eq_comm]
    · rename_i hk
      simp [Prod.ext_iff, hk]
  · cases h

theorem foldlM_hnPushPmad_find (h : areas.foldlM (hnPushPmad storage) tree = .ok tree') :
    tree'.find k = some pmad ↔ tree.find k = some pmad ∨ (k, pmad) ∈ areas := by
  induction areas generalizing tree with
  | nil =>
    cases h
    simp
  | cons area areas ih =>
    obtain ⟨t, ht, h⟩ := of_bind h
    rw [ih h, hnPushPmad_find ht, mem_cons, or_assoc]

/-- **The areas are those of the entries.** -/
theorem hnMmInitPmadlist_find (h : hnMmInitPmadlist storage entries = .ok tree) :
    tree.find k = some pmad ↔
      ∃ entry ∈ entries, ∃ areas, pmadsOf entry = .ok areas ∧ (k, pmad) ∈ areas := by
  have hfold : ∀ {es : List MemmapEntry} {t : OrdMap ℕ KiPmad}, es.foldlM
      (fun tree entry => do (← pmadsOf entry).foldlM (hnPushPmad storage) tree) t = .ok tree →
      (tree.find k = some pmad ↔ t.find k = some pmad ∨
        ∃ entry ∈ es, ∃ areas, pmadsOf entry = .ok areas ∧ (k, pmad) ∈ areas) := by
    intro es
    induction es with
    | nil =>
      intro t h
      cases h
      simp
    | cons e es ih =>
      intro t h
      obtain ⟨t', ht', h⟩ := of_bind h
      obtain ⟨areas, hareas, ht'⟩ := of_bind ht'
      rw [ih h, foldlM_hnPushPmad_find ht', or_assoc]
      simp [hareas]
  unfold hnMmInitPmadlist at h
  split at h
  · cases h
  · rw [hfold h]
    simp

end Areas

/-! ## Areas that overlap

A new area is compared with the one below it, and not with the one above.  Whether the areas end up
disjoint therefore depends on the order of the memory map. -/

/-- The address lies in the area. -/
def InArea (area : ℕ × KiPmad) (addr : ℕ) : Prop := area.1 ≤ addr ∧ addr < area.1 + area.2.len

/-- **No address lies in two areas, and `ki_get_pmad` finds the area an address lies in.** -/
structure DisjointAreas (tree : OrdMap ℕ KiPmad) : Prop where
  disjoint : ∀ x ∈ tree.entries, ∀ y ∈ tree.entries, ∀ addr < 2 ^ 64, InArea x addr →
    InArea y addr → x = y
  getPmad : ∀ addr < 2 ^ 64, ∀ area, kiGetPmad tree addr = some area ↔
    area ∈ tree.entries ∧ InArea area addr

/-- Every area ends at or before the start of the next, empty ones included. -/
def Separated (tree : OrdMap ℕ KiPmad) : Prop :=
  ∀ x ∈ tree.entries, ∀ y ∈ tree.entries, x.1 < y.1 → x.1 + x.2.len ≤ y.1

/-- No area reaches the end of the address space. -/
def Bounded (areas : List (ℕ × KiPmad)) : Prop := ∀ x ∈ areas, x.1 + x.2.len < 2 ^ 64

section Disjoint

variable {storage : ℕ} {tree tree' : OrdMap ℕ KiPmad} {area : ℕ × KiPmad}

theorem getPmad_iff {addr : ℕ} : kiGetPmad tree addr = some area ↔
    tree.findMaxLteq addr = some area ∧ addr < (area.1 + area.2.len) % 2 ^ 64 := by
  rw [kiGetPmad]
  cases tree.findMaxLteq addr with
  | none => simp
  | some node =>
    simp only [Option.ite_none_right_eq_some, Option.some.injEq]
    constructor
    · rintro ⟨hlt, rfl⟩
      exact ⟨rfl, hlt⟩
    · rintro ⟨rfl, hlt⟩
      exact ⟨hlt, rfl⟩

/-- What lies in an area is found there and nowhere else. -/
theorem disjointAreas_of_separated (hsep : Separated tree) (hb : Bounded tree.entries) :
    DisjointAreas tree where
  disjoint x hx y hy addr _ hxa hya := by
    obtain hlt | heq | hgt := lt_trichotomy x.1 y.1
    · have := hsep x hx y hy hlt
      have := hxa.2
      have := hya.1
      omega
    · exact tree.eq_of_mem_of_key_eq hx hy heq
    · have := hsep y hy x hx hgt
      have := hxa.1
      have := hya.2
      omega
  getPmad addr _ area := by
    rw [getPmad_iff]
    constructor
    · rintro ⟨hfind, hlt⟩
      obtain ⟨hmem, hle, -⟩ := tree.findMaxLteq_eq_some_iff.mp hfind
      rw [Nat.mod_eq_of_lt (hb area hmem)] at hlt
      exact ⟨hmem, hle, hlt⟩
    · rintro ⟨hmem, hle, hlt⟩
      refine ⟨tree.findMaxLteq_eq_some_iff.mpr ⟨hmem, hle, fun x hx hxa => ?_⟩, ?_⟩
      · by_contra hgt
        have := hsep area hmem x hx (not_le.mp hgt)
        omega
      · rwa [Nat.mod_eq_of_lt (hb area hmem)]

/-- **The areas are disjoint only if they are separated**: the first address of the upper one would
lie in the lower one too, or be looked for in an empty area. -/
theorem DisjointAreas.separated (h : DisjointAreas tree) (hlt : ∀ x ∈ tree.entries, x.1 < 2 ^ 64) :
    Separated tree := by
  intro x hx y hy hxy
  by_contra hover
  have hxa : InArea x y.1 := ⟨hxy.le, not_le.mp hover⟩
  have hfind := (getPmad_iff.mp ((h.getPmad y.1 (hlt y hy) x).mpr ⟨hx, hxa⟩)).1
  exact absurd ((tree.findMaxLteq_eq_some_iff.mp hfind).2.2 y hy le_rfl) (not_le.mpr hxy)

/-- An area that reaches the end of the address space is never found. -/
theorem DisjointAreas.bounded (h : DisjointAreas tree)
    (hlt : ∀ x ∈ tree.entries, x.1 < 2 ^ 64 ∧ x.2.len < 2 ^ 64) : Bounded tree.entries := by
  intro x hx
  obtain ⟨hbase, hlen⟩ := hlt x hx
  by_contra hover
  have hxa : InArea x x.1 := ⟨le_rfl, by omega⟩
  have hend := (getPmad_iff.mp ((h.getPmad x.1 hbase x).mpr ⟨hx, hxa⟩)).2
  omega

end Disjoint

/-! ### One push after the other -/

/-- The areas that are pushed for an entry, in their order. -/
def pushes (entries : List MemmapEntry) : List (ℕ × KiPmad) :=
  entries.flatMap fun entry => ((pmadsOf entry).toOption).getD []

/-- **No area is pushed below another and reaches it.** -/
def EndsBelow (areas : List (ℕ × KiPmad)) : Prop :=
  areas.Pairwise fun earlier later => later.1 < earlier.1 → later.1 + later.2.len ≤ earlier.1

section Pushes

variable {storage : ℕ} {tree tree' : OrdMap ℕ KiPmad} {area : ℕ × KiPmad}

theorem foldlM_pushes
    (h : entries.foldlM (fun tree entry => do (← pmadsOf entry).foldlM (hnPushPmad storage) tree)
      tree = .ok tree') : (pushes entries).foldlM (hnPushPmad storage) tree = .ok tree' := by
  induction entries generalizing tree with
  | nil => exact h
  | cons entry entries ih =>
    obtain ⟨t, ht, h⟩ := of_bind h
    obtain ⟨areas, hareas, ht⟩ := of_bind ht
    rw [pushes, List.flatMap_cons, hareas, Except.toOption, Option.getD_some, List.foldlM_append,
      ht]
    exact ih h

theorem mem_of_hnPushPmad {x : ℕ × KiPmad} (h : hnPushPmad storage tree area = .ok tree') :
    x ∈ tree'.entries ↔ x ∈ tree.entries ∨ x = area := by
  rw [← tree'.find_eq_some_iff, ← tree.find_eq_some_iff]
  exact hnPushPmad_find h

/-- **What a push preserves.** -/
theorem Separated.push (hsep : Separated tree) (hb : Bounded tree.entries)
    (habove : ∀ x ∈ tree.entries, area.1 < x.1 → area.1 + area.2.len ≤ x.1)
    (h : hnPushPmad storage tree area = .ok tree') : Separated tree' := by
  intro x hx y hy hxy
  obtain hx | rfl := (mem_of_hnPushPmad h).mp hx
  · obtain hy | rfl := (mem_of_hnPushPmad h).mp hy
    · exact hsep x hx y hy hxy
    · obtain ⟨d, hd⟩ : ∃ d, tree.findMaxLteq y.1 = some d := by
        refine Option.ne_none_iff_exists'.mp fun hnone => ?_
        exact absurd (tree.findMaxLteq_eq_none_iff.mp hnone x hx) (not_lt.mpr hxy.le)
      obtain ⟨hdmem, -, hdmax⟩ := tree.findMaxLteq_eq_some_iff.mp hd
      have hdy : d.1 + d.2.len ≤ y.1 := by
        unfold hnPushPmad at h
        split at h
        · cases h
        split at h
        · cases h
        · rename_i hno
          by_contra hover
          exact hno ⟨d, hd, by rw [Nat.mod_eq_of_lt (hb d hdmem)]; omega⟩
      obtain hlt | heq := (hdmax x hx hxy.le).lt_or_eq
      · have := hsep x hx d hdmem hlt
        omega
      · rw [tree.eq_of_mem_of_key_eq hx hdmem heq]
        exact hdy
  · obtain hy | rfl := (mem_of_hnPushPmad h).mp hy
    · exact habove y hy hxy
    · omega

/-- What a run of pushes preserves. -/
theorem Separated.foldlM (hsep : Separated tree)
    (hb : Bounded tree.entries) (hbs : Bounded areas)
    (habove : ∀ x ∈ tree.entries, ∀ y ∈ areas, y.1 < x.1 → y.1 + y.2.len ≤ x.1)
    (hends : EndsBelow areas) (h : areas.foldlM (hnPushPmad storage) tree = .ok tree') :
    Separated tree' := by
  induction areas generalizing tree with
  | nil => exact Except.ok.inj h ▸ hsep
  | cons area areas ih =>
    obtain ⟨t, ht, h⟩ := of_bind h
    obtain ⟨hfirst, hends⟩ := pairwise_cons.mp hends
    have hstep := hsep.push hb (fun x hx => habove x hx area mem_cons_self) ht
    refine ih hstep ?_ (fun x hx => hbs x (mem_cons_of_mem _ hx)) ?_ hends h
    · intro x hx
      obtain hx | rfl := (mem_of_hnPushPmad ht).mp hx
      · exact hb x hx
      · exact hbs x mem_cons_self
    · intro x hx y hy
      obtain hx | rfl := (mem_of_hnPushPmad ht).mp hx
      · exact habove x hx y (mem_cons_of_mem _ hy)
      · exact hfirst y hy

theorem mem_pushes (h : area ∈ pushes entries) :
    ∃ entry ∈ entries, ∃ areas, pmadsOf entry = .ok areas ∧ area ∈ areas := by
  obtain ⟨entry, hentry, hmem⟩ := mem_flatMap.mp h
  refine ⟨entry, hentry, ?_⟩
  cases hareas : pmadsOf entry with
  | ok areas =>
    rw [hareas] at hmem
    exact ⟨areas, rfl, hmem⟩
  | error e =>
    rw [hareas] at hmem
    cases hmem

/-- Areas start and end where 64-bit numbers say. -/
theorem pmadsOf_lt (hbase : entry.base < 2 ^ 64) (hlen : entry.length < 2 ^ 64)
    (h : pmadsOf entry = .ok areas) :
    ∀ x ∈ areas, x.1 < 2 ^ 64 ∧ x.2.len < 2 ^ 64 := by
  have hone (type : UInt8) : ∀ x ∈ [newPmad entry.base entry.length type],
      x.1 < 2 ^ 64 ∧ x.2.len < 2 ^ 64 := by
    intro x hx
    rw [mem_singleton.mp hx]
    exact ⟨hbase, hlen⟩
  unfold pmadsOf at h
  split at h
  case h_9 => cases h
  case h_1 | h_2 =>
    split at h
    · cases h
      intro x hx
      simp only [mem_cons, not_mem_nil, or_false] at hx
      obtain rfl | rfl := hx
      · exact ⟨by decide, by decide⟩
      · exact ⟨show 4096 < 2 ^ 64 by decide, Nat.mod_lt _ (by decide)⟩
    · exact Except.ok.inj h ▸ hone _
  all_goals exact Except.ok.inj h ▸ hone _

/-- **When the areas of a memory map are disjoint**, so that `ki_get_pmad` finds every address where
it lies: no area reaches the end of the address space, and none that is pushed below another reaches
it. For entries by ascending address the second never happens. -/
theorem disjointAreas_iff {entries : List MemmapEntry}
    (hentries : ∀ entry ∈ entries, entry.base < 2 ^ 64 ∧ entry.length < 2 ^ 64)
    (h : hnMmInitPmadlist storage entries = .ok tree) :
    DisjointAreas tree ↔ Bounded (pushes entries) ∧ EndsBelow (pushes entries) := by
  have hfold : (pushes entries).foldlM (hnPushPmad storage) OrdMap.empty = .ok tree := by
    unfold hnMmInitPmadlist at h
    split at h
    · cases h
    · exact foldlM_pushes h
  have hmem (x : ℕ × KiPmad) : x ∈ tree.entries ↔ x ∈ pushes entries := by
    rw [← tree.find_eq_some_iff, foldlM_hnPushPmad_find hfold, OrdMap.find_eq_some_iff]
    exact or_iff_right not_mem_nil
  have hlt : ∀ x ∈ tree.entries, x.1 < 2 ^ 64 ∧ x.2.len < 2 ^ 64 := by
    intro x hx
    obtain ⟨entry, hentry, areas, hareas, hx⟩ := mem_pushes ((hmem x).mp hx)
    exact pmadsOf_lt (hentries entry hentry).1 (hentries entry hentry).2 hareas x hx
  constructor
  · intro hdis
    have hsep := hdis.separated fun x hx => (hlt x hx).1
    refine ⟨fun x hx => hdis.bounded hlt x ((hmem x).mpr hx), ?_⟩
    refine pairwise_of_forall_mem_list fun x hx y hy hyx => ?_
    exact hsep y ((hmem y).mpr hy) x ((hmem x).mpr hx) hyx
  · rintro ⟨hb, hends⟩
    have hempty : ∀ x ∈ (OrdMap.empty : OrdMap ℕ KiPmad).entries, False := fun x hx => by cases hx
    have hsep : Separated tree :=
      Separated.foldlM (fun x hx => (hempty x hx).elim) (fun x hx => (hempty x hx).elim) hb
        (fun x hx => (hempty x hx).elim) hends hfold
    exact disjointAreas_of_separated hsep fun x hx => hb x ((hmem x).mp hx)

/-- Two areas, the lower one first. -/
def ascending : List MemmapEntry := [⟨0x1000, 0x1000, .usable⟩, ⟨0x3000, 0x1000, .usable⟩]

theorem disjointAreas_ascending : ∃ tree, hnMmInitPmadlist 32 ascending = .ok tree ∧
    DisjointAreas tree := by
  have hrun : hnMmInitPmadlist 32 ascending = .ok ⟨[newPmad 0x1000 0x1000 0,
      newPmad 0x3000 0x1000 0], by decide⟩ := rfl
  refine ⟨_, hrun, (disjointAreas_iff (by decide) hrun).mpr ⟨?_, ?_⟩⟩
  · intro x hx
    obtain rfl | rfl := mem_pair.mp (show x ∈ [newPmad 0x1000 0x1000 0,
      newPmad 0x3000 0x1000 0] from hx) <;> decide
  · exact .cons (fun y hy => by rw [mem_singleton.mp hy]; decide) (.cons nofun .nil)

/-- The upper area comes first, and the lower one goes over it. -/
def descending : List MemmapEntry := [⟨0x3000, 0x1000, .usable⟩, ⟨0x1000, 0x5000, .usable⟩]

/-- Both are accepted; `0x3000` lies in both, and `0x4000` is not found although it lies in one. -/
theorem areas_overlap : ∃ tree, hnMmInitPmadlist 32 descending = .ok tree ∧
    (∃ x ∈ tree.entries, ∃ y ∈ tree.entries, x.1 ≠ y.1 ∧ InArea x 0x3000 ∧ InArea y 0x3000) ∧
    (∃ x ∈ tree.entries, InArea x 0x4000) ∧ kiGetPmad tree 0x4000 = none := by
  have hrun : hnMmInitPmadlist 32 descending = .ok ⟨[newPmad 0x1000 0x5000 0,
      newPmad 0x3000 0x1000 0], by decide⟩ := rfl
  refine ⟨_, hrun, ⟨newPmad 0x1000 0x5000 0, by simp, newPmad 0x3000 0x1000 0, by simp, by decide,
    ⟨by decide, by decide⟩, by decide, by decide⟩, ?_, rfl⟩
  exact ⟨newPmad 0x1000 0x5000 0, by simp, by decide, by decide⟩

end Pushes

/-! ## The page at the address 0 -/

/-- What `hn_mm_init_areas` makes of the areas: every page of an area has a MAD there, but those of
reserved areas have none. -/
structure InitAreas (tree : OrdMap ℕ KiPmad) (P : PmadTree) : Prop where
  areas : ∀ area, (P.tree.find area).map (fun pmad => (pmad.len, pmad.type)) =
    (tree.find area).map fun pmad => (pmad.len, pmad.type)
  mads : ∀ {area pmad}, P.tree.find area = some pmad → ∀ addr,
    (pmad.queryTree.find addr).isSome = true ↔ pmad.type ≠ MM_PHYSICAL_MEMORY_TYPE_CRITICAL ∧
      ∃ i, addr = area + i * 4096 ∧ addr < (area + pmad.len) % 2 ^ 64

/-- **Disjoint areas have every MAD found** through the address of its page. -/
theorem khGetMad_of_disjointAreas {tree : OrdMap ℕ KiPmad} {P : PmadTree} {area mad : ℕ}
    (hdis : DisjointAreas tree) (hP : InitAreas tree P) (h : P.IsMad area mad) :
    khGetMad P (P.rbValue mad) = .ok mad := by
  obtain ⟨pmad, hfind, addr, hquery⟩ := h
  obtain ⟨-, i, hi, hlt⟩ := (hP.mads hfind addr).mp (by rw [hquery]; rfl)
  have hend : (area + pmad.len) % 2 ^ 64 ≤ area + pmad.len := Nat.mod_le _ _
  have hlen : ∀ {k p}, P.tree.find k = some p → ∃ p', (k, p') ∈ tree.entries ∧ p'.len = p.len := by
    intro k p hk
    have hareas := hP.areas k
    rw [hk, Option.map_some, eq_comm, Option.map_eq_some_iff] at hareas
    obtain ⟨p', hp', heq⟩ := hareas
    exact ⟨p', tree.find_eq_some_iff.mp hp', congrArg Prod.fst heq⟩
  obtain ⟨pmad', hmem', hlen'⟩ := hlen hfind
  have hin : InArea (area, pmad') addr := ⟨by dsimp only; omega, by dsimp only; omega⟩
  have hget := (hdis.getPmad addr (by omega) (area, pmad')).mpr ⟨hmem', hin⟩
  have hmax := (tree.findMaxLteq_eq_some_iff.mp (getPmad_iff.mp hget).1).2.2
  have harea : kiGetPmad P.tree addr = some (area, pmad) := by
    refine getPmad_iff.mpr ⟨P.tree.findMaxLteq_eq_some_iff.mpr ⟨P.tree.find_eq_some_iff.mp hfind,
      by omega, fun x hx hxa => ?_⟩, hlt⟩
    obtain ⟨p', hp', -⟩ := hlen (P.tree.find_of_mem hx)
    exact hmax (x.1, p') hp' hxa
  rw [P.rbValue_of_find hfind hquery, khGetMad, harea]
  simp [hquery]

/-- The entry gives the page at the address 0 a MAD. -/
def MemmapEntry.CoversZero (entry : MemmapEntry) : Prop :=
  entry.base = 0 ∧
    match entry.type with
    | .usable | .bootloaderReclaimable => True
    | .reserved | .unknown => False
    | _ => entry.length % 2 ^ 64 ≠ 0

/-- An entry gives rise to an area at 0 that has MADs exactly when it covers the page there. -/
theorem coversZero_iff : entry.CoversZero ↔
    ∃ areas, pmadsOf entry = .ok areas ∧ ∃ pmad, (0, pmad) ∈ areas ∧ pmad.len % 2 ^ 64 ≠ 0 ∧
      pmad.type ≠ MM_PHYSICAL_MEMORY_TYPE_CRITICAL := by
  obtain ⟨base, length, type⟩ := entry
  by_cases hb : base = 0
  · subst hb
    cases type <;>
      simp [MemmapEntry.CoversZero, pmadsOf, newPmad, MM_PHYSICAL_MEMORY_TYPE_HARDWARE,
        MM_PHYSICAL_MEMORY_TYPE_CRITICAL, MM_PHYSICAL_MEMORY_TYPE_ACPI,
        MM_PHYSICAL_MEMORY_TYPE_BOOTDATA, MM_PHYSICAL_MEMORY_TYPE_BAD]
  · cases type <;> simp [MemmapEntry.CoversZero, pmadsOf, newPmad, hb, Ne.symm hb]

/-- **Whether the page at the address 0 has a MAD** is settled by the memory map. -/
theorem khGetMad_zero_iff {storage : ℕ} {tree : OrdMap ℕ KiPmad}
    {P : PmadTree} (h : hnMmInitPmadlist storage entries = .ok tree) (hP : InitAreas tree P) :
    (∃ mad, khGetMad P 0 = .ok mad) ↔ ∃ entry ∈ entries, entry.CoversZero := by
  have hnearest : ∀ e, P.tree.findMaxLteq 0 = some e ↔ e.1 = 0 ∧ P.tree.find 0 = some e.2 := by
    intro e
    rw [OrdMap.findMaxLteq_eq_some_iff, OrdMap.find_eq_some_iff]
    constructor
    · rintro ⟨hmem, hle, -⟩
      have h0 : e.1 = 0 := Nat.le_zero.mp hle
      exact ⟨h0, h0 ▸ hmem⟩
    · rintro ⟨h0, hmem⟩
      have he : e = (0, e.2) := Prod.ext h0 rfl
      exact ⟨he ▸ hmem, h0.le, fun a _ ha => by omega⟩
  have hmad : (∃ mad, khGetMad P 0 = .ok mad) ↔ ∃ pmad, tree.find 0 = some pmad ∧
      pmad.len % 2 ^ 64 ≠ 0 ∧ pmad.type ≠ MM_PHYSICAL_MEMORY_TYPE_CRITICAL := by
    have hareas := hP.areas 0
    cases hfind : P.tree.find 0 with
    | none =>
      have hno : P.tree.findMaxLteq 0 = none := by
        refine Option.eq_none_iff_forall_ne_some.mpr fun e he => ?_
        rw [hnearest, hfind] at he
        cases he.2
      rw [hfind] at hareas
      have htree : tree.find 0 = none := Option.map_eq_none_iff.mp hareas.symm
      simp [khGetMad, kiGetPmad, hno, htree]
    | some pmad =>
      have hnear : P.tree.findMaxLteq 0 = some (0, pmad) := (hnearest _).mpr ⟨rfl, hfind⟩
      rw [hfind] at hareas
      obtain ⟨pmad', htree, heq⟩ := Option.map_eq_some_iff.mp hareas.symm
      obtain ⟨hlen, htype⟩ := Prod.mk.inj heq
      have hquery := hP.mads hfind 0
      simp only [htree, khGetMad, kiGetPmad, hnear, Nat.zero_add, Option.some.injEq,
        exists_eq_left', hlen, htype] at hquery ⊢
      by_cases h0 : pmad.len % 2 ^ 64 = 0
      · rw [if_neg (by omega)]
        exact iff_of_false (by simp) fun h => h.1 h0
      · have hpos : 0 < pmad.len % 2 ^ 64 := Nat.pos_of_ne_zero h0
        have hzero : ∃ i, 0 = i * 4096 ∧ 0 < pmad.len % 2 ^ 64 := ⟨0, rfl, hpos⟩
        rw [if_pos hpos, and_iff_right h0]
        simp only [hzero] at hquery
        cases hq : pmad.queryTree.find 0 with
        | none => simpa [hq] using hquery
        | some mad => simpa [hq] using hquery
  rw [hmad]
  simp only [hnMmInitPmadlist_find h, coversZero_iff]
  constructor
  · rintro ⟨pmad, ⟨e, he, areas, hareas, hmem⟩, hlen, htype⟩
    exact ⟨e, he, areas, hareas, pmad, hmem, hlen, htype⟩
  · rintro ⟨e, he, areas, hareas, pmad, hmem, hlen, htype⟩
    exact ⟨pmad, ⟨e, he, areas, hareas, hmem⟩, hlen, htype⟩

end Pbos.Hal
