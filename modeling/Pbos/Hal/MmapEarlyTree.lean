import Pbos.Hal.MmapEarly

/-!
# Hal/MmapEarlyTree — what `hn_mm_mmap_early` does to a tree of tables

`Descent` follows a call down the tables as long as each level asks the entry it uses: no page is
mapped otherwise than before, and the frames that were taken are the new tables.  Then the PTE is
written.  `mmapEarly_maps_iff` says when the whole is what the call is for: as a rule, where the
first PDPTE speaks for the one that is used.  `mmapEarly_loses_pages` shows what happens elsewhere.
-/

namespace Pbos.Hal

open Radix KernelImage List

/-! ## The tree of tables -/

/-- **The tables are those of two contexts**, the one at `root` and the kernel's, which share what
lies on the same path. -/
structure EarlyTables (K : KernelImage) (root : Frame) (mem : Mem) : Prop where
  able : K.Able mem
  aligned : Aligned Entry.child mem 3 {root, K.pml4t}

/-- A table of the context at `root`, or of the kernel. -/
abbrev KernelImage.Uses (K : KernelImage) (root : Frame) (mem : Mem) (t : Frame) : Prop :=
  TableOf Entry.child mem 3 {root, K.pml4t} t

namespace EarlyTables

variable {K : KernelImage} {root f g : Frame} {mem : Mem} {α : List (Fin 512)} {x p q paddr : ℕ}

/-- The kernel's initial tables are reached from its PML4. -/
theorem isTable_of_kernelTable (h : K.Linked mem) (hf : K.KernelTable f) : Table mem K.pml4t f := by
  have hbase := basePage_eq
  have hpdpt : path mem K.pml4t [511] = some K.pdpt :=
    h.pml4e.2 ▸ path_present (α := []) rfl h.pml4e.1
  obtain rfl | rfl | ⟨m, hm, rfl⟩ | ⟨j, hj, rfl⟩ := hf
  · exact ⟨[], by simp, rfl⟩
  · exact ⟨_, by simp, hpdpt⟩
  · have hpdpte := h.pdpte (510 + m) (by omega) (by omega)
    have hpdt := path_present hpdpt hpdpte.1
    rw [hpdpte.2, Nat.add_sub_cancel_left] at hpdt
    exact ⟨_, by simp, hpdt⟩
  · have hptt := h.path_tables (p := basePage + 512 * j) (by omega) (by omega)
    rw [Nat.add_sub_cancel_left, Nat.mul_div_cancel_left _ (by decide)] at hptt
    exact ⟨_, by simp, hptt⟩

/-- A table above the page tables is no page table of the kernel. -/
theorem not_isPtt (h : EarlyTables K root mem) (hα : path mem root α = some f)
    (hlen : α.length < 3) : ¬ K.IsPtt f := by
  rintro ⟨j, hj, rfl⟩
  have hbase := basePage_eq
  have hptt := h.able.linked.path_tables (p := basePage + 512 * j) (by omega) (by omega)
  rw [Nat.add_sub_cancel_left, Nat.mul_div_cancel_left _ (by decide)] at hptt
  have heq := h.aligned (by simp) (by simp) hlen.le (length_tables _).le hα hptt
  rw [heq, length_tables] at hlen
  omega

theorem tree (h : EarlyTables K root mem) : Tree Entry.child mem root 3 :=
  h.aligned.forest.tree (by simp)

/-- The PTE of a page outside the area is none of the area's. -/
theorem not_areaSlot (h : EarlyTables K root mem) (hf : path mem root (tables q) = some f)
    (hq : q < 2 ^ 36) (hout : ¬ K.InArea q) : ¬ K.AreaSlot f (slot q) := by
  rintro ⟨p, hp, hslot⟩
  obtain ⟨hpf, hps⟩ := Prod.mk.inj hslot
  have hpath := h.able.linked.path_tables hp.bounds.1 hp.bounds.2
  rw [hpf] at hpath
  have htables := h.aligned (by simp) (by simp) (length_tables _).le (length_tables _).le hpath hf
  have hslot' : slot p = slot q := by
    have hbase := basePage_eq
    have hge := hp.bounds.1
    rw [← hps]
    exact ofNat_eq_iff.mpr (by omega)
  exact hout (eq_of_tables_slot hp.bounds.2 hq htables hslot' ▸ hp)

theorem has_tableFrom (e : Entry) : (EarlyMmap.tableFrom paddr e).has PTE_RW = true ∧
    (EarlyMmap.tableFrom paddr e).has PTE_U = false := by
  simp only [EarlyMmap.tableFrom, Entry.has]
  decide

theorem present_of_path {α β : List (Fin 512)} {i : Fin 512} (hα : path mem root α = some f)
    (h : path mem root (α ++ i :: β) ≠ none) : (mem f i).present = true := by
  by_contra hp
  exact h (path_absent hα (Bool.not_eq_true _ ▸ hp) β)

/-- The entries on the way along `π` that are present have the bit: what it stands for is allowed
below. -/
def OpenFor (mem : Mem) (root : Frame) (π : List (Fin 512)) (bit : BitVec 16) : Prop :=
  ∀ α i β f, π = α ++ i :: β → path mem root α = some f → (mem f i).present = true →
    (mem f i).has bit = true

/-- **How far a call has come**: the table `f` is reached along `π`, the frames `used` have become
tables on the way, and no page is mapped otherwise than it was in `mem`. -/
structure Descent (K : KernelImage) (root : Frame) (mem mem' : Mem) (π : List (Fin 512)) (f : Frame)
    (used : List Frame) : Prop where
  tables : EarlyTables K root mem'
  path : path mem' root π = some f
  mapping : ∀ p, mapping mem' root p = Hal.mapping mem root p
  news : ∀ t, K.Uses root mem' t → K.Uses root mem t ∨ t ∈ used
  isTable : ∀ t ∈ used, Table mem' root t
  kept : ∀ β i t, β.length < 3 → Hal.path mem root β = some t → (mem t i).present = true →
    Hal.path mem' root β = some t ∧ mem' t i = mem t i
  same : used = [] → mem' = mem
  missing : used ≠ [] → Hal.path mem root π = none
  /-- A new table can be written, but is not for users. -/
  writable : ∀ ρ, ρ.length ≤ 3 → OpenFor mem root ρ PTE_RW → OpenFor mem' root ρ PTE_RW
  closed : used ≠ [] → ¬ OpenFor mem' root π PTE_U

theorem descent_nil (h : EarlyTables K root mem) : Descent K root mem mem [] root [] where
  tables := h
  path := rfl
  mapping _ := rfl
  news _ ht := .inl ht
  isTable := nofun
  kept _ _ _ _ ht _ := ⟨ht, rfl⟩
  same _ := rfl
  missing hne := absurd rfl hne
  writable _ _ ho := ho
  closed hne := absurd rfl hne

theorem OpenFor.of_append {ρ : List (Fin 512)} {bit : BitVec 16}
    (h : OpenFor mem root (α ++ ρ) bit) : OpenFor mem root α bit :=
  fun β i γ t hsplit => h β i (γ ++ ρ) t (by rw [hsplit, append_assoc, cons_append])

variable {mem₀ : Mem} {used : List Frame}

/-- A frame that is set aside and not used yet is no table. -/
theorem Descent.fresh (h : Descent K root mem₀ mem α f used) (hg : ¬ K.Uses root mem₀ g)
    (hused : g ∉ used) : ¬ K.Uses root mem g := fun ht => (h.news g ht).elim hg hused

section

variable (h : Descent K root mem₀ mem α f used) (hlen : α.length < 3)
  (hfresh : ¬ K.Uses root mem (pgRoundDown paddr))

include h hlen hfresh

theorem Descent.passable : K.Passable (!(entryAt mem f x).present) f x paddr mem := by
  have hupper := h.tables.not_isPtt h.path hlen
  cases hp : (entryAt mem f x).present with
  | true => exact ⟨hupper, nofun, nofun⟩
  | false =>
    refine ⟨hupper, fun _ hk => ?_, fun _ => h.tables.able.write hp fun hs => hupper hs.isPtt⟩
    exact hfresh ⟨K.pml4t, by simp, isTable_of_kernelTable h.tables.able.linked hk⟩

/-- **One level, where the entry asked speaks for the one that is used.** -/
theorem Descent.step {y : ℕ} (hasked : (entryAt mem f y).present = (entryAt mem f x).present) :
    ∃ m g mem', K.LevelPass y x paddr m f mem g mem' ∧
      Descent K root mem₀ mem' (α ++ [Fin.ofNat 512 x]) g (newTable m paddr ++ used) := by
  have hpass := h.passable (x := x) hlen hfresh
  refine ⟨_, _, _, ⟨rfl, hasked ▸ hpass, rfl, rfl⟩, ?_⟩
  rw [hasked]
  have hroot : ¬ Table mem root (pgRoundDown paddr) := fun ht => hfresh ⟨root, by simp, ht⟩
  cases hp : (entryAt mem f x).present with
  | true =>
    exact ⟨h.tables, path_present h.path hp, h.mapping, h.news, h.isTable, h.kept, h.same,
      fun hne => path_eq_none_of_above (h.missing hne) ⟨_, rfl⟩, h.writable,
      fun hne ho => h.closed hne ho.of_append⟩
  | false =>
    rw [hp] at hpass
    have hpresent : (EarlyMmap.tableFrom paddr (entryAt mem f x)).present = true :=
      present_of_mask (show (PTE_P ||| PTE_RW) &&& PTE_P ≠ 0 by decide) rfl
    have hchild := Entry.child_eq_some hpresent
    have hnone : Hal.path mem root (α ++ [Fin.ofNat 512 x]) = none := path_absent h.path hp []
    have hpaths : ∀ π : List (Fin 512), π.length ≤ 3 → Hal.path (hang true f x paddr mem) root π =
        if π = α ++ [Fin.ofNat 512 x] then some (pgRoundDown paddr) else Hal.path mem root π :=
      fun π hπ => follow_link h.tables.tree h.path hlen (Entry.child_eq_none hp) hchild
        Entry.child_zero hroot hπ
    have hold : ∀ {π t}, π.length ≤ 3 → Hal.path mem root π = some t →
        Hal.path (hang true f x paddr mem) root π = some t := fun {π t} hπ ht => by
      refine (hpaths π hπ).trans ((if_neg ?_).trans ht)
      rintro rfl
      cases hnone.symm.trans ht
    have hend : Hal.path (hang true f x paddr mem) root (α ++ [Fin.ofNat 512 x]) =
        some (pgRoundDown paddr) :=
      (hpaths _ (by rw [length_append, length_singleton]; omega)).trans (if_pos rfl)
    have hkeep : ∀ {β t i}, β.length ≤ 3 → Hal.path mem root β = some t →
        ¬ (t = f ∧ i = Fin.ofNat 512 x) → hang true f x paddr mem t i = mem t i :=
      fun {β t i} hβ ht hentry =>
        (fill_of_ne fun heq : t = pgRoundDown paddr => hroot ⟨β, hβ, heq ▸ ht⟩).trans
          (write_of_ne hentry)
    have hentry : hang true f x paddr mem f (Fin.ofNat 512 x) =
        EarlyMmap.tableFrom paddr (entryAt mem f x) :=
      (fill_of_ne fun heq : f = pgRoundDown paddr => hroot ⟨α, hlen.le, heq ▸ h.path⟩).trans
        write_self
    refine ⟨⟨hpass.able h.tables.able, ?_⟩, hend, fun p => ?_, fun t ht => ?_, fun t ht => ?_,
      fun β i t hβ ht hpres => ?_, nofun, fun _ => ?_, fun ρ hρ ho β i γ t hsplit ht hpres => ?_,
      fun _ ho => ?_⟩
    · exact h.tables.aligned.link hchild Entry.child_zero hfresh
    · exact (mapping_link_of_child h.tables.tree h.path hlen hp hchild hroot).trans (h.mapping p)
    · obtain ht | rfl := TableOf.of_link hchild Entry.child_zero hfresh ht
      · exact (h.news t ht).imp_right (mem_cons_of_mem _)
      · exact .inr mem_cons_self
    · obtain rfl | ht := mem_cons.mp ht
      · exact ⟨_, by rw [length_append, length_singleton]; omega, hend⟩
      · obtain ⟨π, hπ, hpath⟩ := h.isTable t ht
        exact ⟨π, hπ, hold hπ hpath⟩
    · obtain ⟨hβ', heq⟩ := h.kept β i t hβ ht hpres
      refine ⟨hold hβ.le hβ', (hkeep hβ.le hβ' ?_).trans heq⟩
      rintro ⟨rfl, rfl⟩
      rw [← heq, show mem t (Fin.ofNat 512 x) = entryAt mem t x from rfl, hp] at hpres
      cases hpres
    · by_contra hsome
      obtain ⟨t, ht⟩ := Option.ne_none_iff_exists'.mp fun hα =>
        hsome (path_eq_none_of_above hα ⟨_, rfl⟩)
      have hpres := present_of_path (β := []) ht hsome
      obtain ⟨hα, heq⟩ := h.kept α _ t hlen ht hpres
      obtain rfl : f = t := Option.some.inj (h.path.symm.trans hα)
      rw [← heq, show mem f (Fin.ofNat 512 x) = entryAt mem f x from rfl, hp] at hpres
      cases hpres
    · have hβ : β.length ≤ 3 := by
        rw [hsplit, length_append] at hρ
        omega
      rw [Bool.not_false] at ht hpres ⊢
      rw [hpaths β hβ] at ht
      by_cases hnew : β = α ++ [Fin.ofNat 512 x]
      · rw [if_pos hnew] at ht
        cases ht
        rw [show hang true f x paddr mem (pgRoundDown paddr) i =
          Entry.zero from fill_self] at hpres
        cases hpres
      · rw [if_neg hnew] at ht
        by_cases hfx : t = f ∧ i = Fin.ofNat 512 x
        · rw [hfx.1, hfx.2, hentry]
          exact (has_tableFrom _).1
        · rw [hkeep hβ ht hfx] at hpres ⊢
          exact h.writable ρ hρ ho β i γ t hsplit ht hpres
    · rw [Bool.not_false] at ho
      have huser := ho α _ [] f rfl (hold hlen.le h.path) (by rw [hentry]; exact hpresent)
      rw [hentry, (has_tableFrom _).2] at huser
      cases huser

end

end EarlyTables

/-! ## Main result -/

/-- The frames set aside for a PDPT, a page directory and a page table. -/
abbrev EarlyMmap.frames (c : EarlyMmap) : List Frame :=
  [pgRoundDown c.pdptePaddr, pgRoundDown c.pdePaddr, pgRoundDown c.ptePaddr]

/-- The frames set aside are different ones, and none is in use as a table. -/
structure EarlyMmap.Reserved (c : EarlyMmap) (K : KernelImage) (root : Frame) (mem : Mem) :
    Prop where
  distinct : c.frames.Nodup
  unused : ∀ g ∈ c.frames, ¬ K.Uses root mem g

variable {c : EarlyMmap} {f : Frame}

theorem EarlyMmap.Reserved.ne {K : KernelImage} {root : Frame} {mem : Mem}
    (h : c.Reserved K root mem) : pgRoundDown c.pdptePaddr ≠ pgRoundDown c.pdePaddr ∧
      pgRoundDown c.pdptePaddr ≠ pgRoundDown c.ptePaddr ∧
      pgRoundDown c.pdePaddr ≠ pgRoundDown c.ptePaddr := by
  simpa [and_assoc] using h.distinct

/-- **What `hn_mm_mmap_early` is for**: the page is mapped as asked, no other page is mapped
otherwise than before, and the bits of the result tell which frames have become tables. -/
structure EarlyMmap.Done (c : EarlyMmap) (root : Frame) (mem : Mem) (r : BitVec 8) (mem' : Mem) :
    Prop where
  page : ∃ e, mapping mem' root (pageNo c.vaddr) = some e ∧ unpgaddr e.address = c.paddr ∧
    hasFlag (pteAccess e) MM_PAGE_WRITE = hasFlag c.access MM_PAGE_WRITE ∧
    hasFlag (pteAccess e) MM_PAGE_USER = hasFlag c.access MM_PAGE_USER ∧
    hasFlag (pteAccess e) MM_PAGE_EXEC = hasFlag c.access MM_PAGE_EXEC
  /-- The tables above the page allow it, too. -/
  write : hasFlag c.access MM_PAGE_WRITE = true →
    EarlyTables.OpenFor mem' root (tables (pageNo c.vaddr)) PTE_RW
  user : hasFlag c.access MM_PAGE_USER = true →
    EarlyTables.OpenFor mem' root (tables (pageNo c.vaddr)) PTE_U
  others : ∀ p < 2 ^ 36, p ≠ pageNo c.vaddr → mapping mem' root p = mapping mem root p
  pdpt : r.getLsbD 2 = true ↔ Table mem' root (pgRoundDown c.pdptePaddr)
  pdt : r.getLsbD 1 = true ↔ Table mem' root (pgRoundDown c.pdePaddr)
  ptt : r.getLsbD 0 = true ↔ Table mem' root (pgRoundDown c.ptePaddr)

section Main

variable {K : KernelImage} {root f : Frame} {mem : Mem} {c : EarlyMmap}

theorem tables_pageNo (v : ℕ) : tables (pageNo v) =
    [Fin.ofNat 512 (pml4x v), Fin.ofNat 512 (pdptx v), Fin.ofNat 512 (pdx v)] := by
  obtain ⟨h3, h2, h1, hspell⟩ := digits v
  rw [← hspell, tables_spell h3 h2 h1]

theorem slot_pageNo (v : ℕ) : slot (pageNo v) = Fin.ofNat 512 (ptx v) := by
  rw [← (digits v).2.2.2, slot_spell]

/-- The bits of the result. -/
theorem flags_iff (m₄ m₃ m₂ : Bool) :
    let r := flagOf m₄ 0b100 ||| (flagOf m₃ 0b010 ||| flagOf m₂ 0b001)
    r.getLsbD 2 = m₄ ∧ r.getLsbD 1 = m₃ ∧ r.getLsbD 0 = m₂ := by
  revert m₄ m₃ m₂
  decide

/-- The last step of the call: the PTE is written and the windows are closed. -/
theorem EarlyTables.put {e : Entry} {mem' : Mem} {q : ℕ} (h : EarlyTables K root mem)
    (hq : q < 2 ^ 36) (hf : path mem root (tables q) = some f) (he : e.present = true)
    (hs : K.Shade [] (write mem f (slot q) e) mem') : mapping mem' root q = some e ∧
    (∀ p < 2 ^ 36, p ≠ q → mapping mem' root p = mapping mem root p) ∧
    (∀ t, Table mem' root t ↔ Table mem root t) ∧
    ∀ bit, OpenFor mem' root (tables q) bit ↔ OpenFor mem root (tables q) bit := by
  have hpath : ∀ π : List (Fin 512), π.length ≤ 3 → path mem' root π = path mem root π :=
    fun π hπ => (hs.path_eq root π).trans (follow_write h.tree hf (length_tables q) hπ)
  refine ⟨?_, fun p hp hpq => ?_, fun t => isTable_congr hpath, fun bit =>
    forall₄_congr fun α i β t => forall_congr' fun hsplit => ?_⟩
  · rw [hs.mapping_eq, mapping_write h.tree hf hq hq, if_pos rfl, Option.filter_some, if_pos he]
  · rw [hs.mapping_eq, mapping_write h.tree hf hp hq, if_neg hpq]
  · have hα : α.length < 3 := by
      have := congrArg List.length hsplit
      rw [length_tables, length_append, length_cons] at this
      omega
    rw [hpath α hα.le]
    refine forall_congr' fun ht => ?_
    have hne : t ≠ f := by
      rintro rfl
      rw [h.tree hα.le (length_tables q).le ht hf, length_tables] at hα
      omega
    have hkeep : mem' t i = mem t i := by
      rw [hs.frame (h.not_isPtt ht hα)]
      exact write_of_ne fun hc => hne hc.1
    rw [hkeep]

/-- The first PDPTE below the entry `x` speaks for the one at `y`. -/
def SpeaksFor (mem : Mem) (root : Frame) (x y : ℕ) : Prop :=
  (entryAt mem root x).present = true →
    (entryAt mem (entryAt mem root x).address 0).present =
      (entryAt mem (entryAt mem root x).address y).present
  deriving Decidable

/-- So it does in a new PDPT. -/
theorem SpeaksFor.hung {x y paddr : ℕ} {m : Bool} {mem' : Mem} (hasked : SpeaksFor mem root x y)
    (h : K.LevelPass x x paddr m root mem f mem') :
    (entryAt mem' f 0).present = (entryAt mem' f y).present := by
  obtain ⟨hm, -, rfl, rfl⟩ := h
  cases m with
  | false => exact hasked (by simpa using hm)
  | true =>
    have hzero : ∀ y, entryAt (hang true root x paddr mem) (below true root x paddr mem) y =
        Entry.zero := fun _ => fill_self
    rw [hzero, hzero]

/-- The frames that become tables. -/
def EarlyMmap.taken (c : EarlyMmap) (m₄ m₃ m₂ : Bool) : List Frame :=
  newTable m₂ c.ptePaddr ++ (newTable m₃ c.pdePaddr ++ newTable m₄ c.pdptePaddr)

/-- **The way to the page is made**, and what is left is its PTE. -/
theorem exists_descent (h : EarlyTables K root mem) (hc : c.range.InHalf)
    (hres : c.Reserved K root mem) (hout : ¬ K.InArea (pageNo c.vaddr))
    (hasked : SpeaksFor mem root (pml4x c.vaddr) (pdptx c.vaddr)) :
    ∃ mem₁ f₁ m₄ m₃ m₂ mem',
      EarlyTables.Descent K root mem mem₁ (tables (pageNo c.vaddr)) f₁ (c.taken m₄ m₃ m₂) ∧
      c.pml4eEffect root mem = (flagOf m₄ 0b100 ||| (flagOf m₃ 0b010 ||| flagOf m₂ 0b001),
        write mem₁ f₁ (slot (pageNo c.vaddr)) (c.pte 0)) ∧
      K.hnMmMmapEarly c root mem = .ok ((c.pml4eEffect root mem).1, mem') ∧
      K.Shade [] (c.pml4eEffect root mem).2 mem' := by
  obtain ⟨h32, h31, h21⟩ := hres.ne
  obtain ⟨m₄, f₃, mem₃, hturn4, hdes3⟩ := (EarlyTables.descent_nil h).step (x := pml4x c.vaddr)
    (by decide) (hres.unused (pgRoundDown c.pdptePaddr) (by simp)) rfl
  rw [append_nil] at hdes3
  obtain ⟨m₃, f₂, mem₂, hturn3, hdes2⟩ := hdes3.step (by simp)
    (hdes3.fresh (hres.unused (pgRoundDown c.pdePaddr) (by simp))
      (by simp [Ne.symm h32])) (hasked.hung hturn4)
  obtain ⟨m₂, f₁, mem₁, hturn2, hdes1⟩ := hdes2.step (x := pdx c.vaddr) (by simp)
    (hdes2.fresh (hres.unused (pgRoundDown c.ptePaddr) (by simp))
      (by simp [Ne.symm h31, Ne.symm h21])) rfl
  have hπ : [] ++ [Fin.ofNat 512 (pml4x c.vaddr)] ++ [Fin.ofNat 512 (pdptx c.vaddr)] ++
      [Fin.ofNat 512 (pdx c.vaddr)] = tables (pageNo c.vaddr) := (tables_pageNo _).symm
  rw [hπ] at hdes1
  have hleaf := hdes1.tables.not_areaSlot hdes1.path (pageNo_lt _) hout
  rw [slot_pageNo] at hleaf
  obtain ⟨mem', hrun, hs⟩ := hnMmMmapEarly_eq hc h.able hturn4 hturn3 hturn2 hleaf
  refine ⟨mem₁, f₁, m₄, m₃, m₂, mem', hdes1, ?_, hrun, hs⟩
  simp only [EarlyMmap.pml4eEffect, EarlyMmap.pdpteEffect, EarlyMmap.pdeEffect,
    EarlyMmap.pteEffect, ← hturn4.missing, ← hturn4.table, ← hturn4.tables, ← hturn3.missing,
    ← hturn3.table, ← hturn3.tables, ← hturn2.missing, ← hturn2.table, ← hturn2.tables, slot_pageNo]

/-- **The tables allow the access**: those that are there, and for users none is to be made. -/
def EarlyMmap.Granted (c : EarlyMmap) (root : Frame) (mem : Mem) : Prop :=
  (hasFlag c.access MM_PAGE_WRITE = true →
    EarlyTables.OpenFor mem root (tables (pageNo c.vaddr)) PTE_RW) ∧
  (hasFlag c.access MM_PAGE_USER = true →
    EarlyTables.OpenFor mem root (tables (pageNo c.vaddr)) PTE_U ∧
      path mem root (tables (pageNo c.vaddr)) ≠ none)

/-- A page at a page-aligned address is to be mapped. -/
structure EarlyMmap.Plain (c : EarlyMmap) : Prop where
  mapped : hasFlag c.access MM_PAGE_MAPPED = true
  align : c.paddr % 4096 = 0
  fit : c.paddr < 2 ^ 52

/-- **What the call has done is what it is for**, if the tables allow the access. -/
theorem EarlyMmap.done_iff {mem₁ mem' : Mem} {f₁ : Frame} {m₄ m₃ m₂ : Bool}
    (hdes : EarlyTables.Descent K root mem mem₁ (tables (pageNo c.vaddr)) f₁ (c.taken m₄ m₃ m₂))
    (hres : c.Reserved K root mem) (hplain : c.Plain)
    (hs : K.Shade [] (write mem₁ f₁ (slot (pageNo c.vaddr)) (c.pte 0)) mem') :
    c.Done root mem (flagOf m₄ 0b100 ||| (flagOf m₃ 0b010 ||| flagOf m₂ 0b001)) mem' ↔
      c.Granted root mem := by
  obtain ⟨hmapped, halign, hfit⟩ := hplain
  obtain ⟨hpage, hothers, htable, hopen⟩ :=
    hdes.tables.put (pageNo_lt _) hdes.path (present_pte hmapped _) hs
  have hback : ∀ {bit}, EarlyTables.OpenFor mem₁ root (tables (pageNo c.vaddr)) bit →
      EarlyTables.OpenFor mem root (tables (pageNo c.vaddr)) bit := by
    intro bit ho α i β t hsplit ht hp
    have hα : α.length < 3 := by
      have := congrArg List.length hsplit
      rw [length_tables, length_append, length_cons] at this
      omega
    obtain ⟨ht', heq⟩ := hdes.kept α i t hα ht hp
    rw [← heq] at hp ⊢
    exact ho α i β t hsplit ht' hp
  refine ⟨fun hdone => ⟨fun hf => hback ((hopen _).mp (hdone.write hf)), fun hf => ?_⟩,
    fun hgrant => ?_⟩
  · have ho := (hopen _).mp (hdone.user hf)
    refine ⟨hback ho, ?_⟩
    have hused := not_not.mp fun hne => hdes.closed hne ho
    rw [← hdes.same hused, hdes.path]
    nofun
  obtain ⟨hbit2, hbit1, hbit0⟩ := flags_iff m₄ m₃ m₂
  have hnew : ∀ g ∈ c.frames, (Table mem' root g ↔ g ∈ c.taken m₄ m₃ m₂) := by
    intro g hg
    rw [htable]
    refine ⟨fun ht => ?_, hdes.isTable g⟩
    exact (hdes.news g ⟨root, by simp, ht⟩).resolve_left (hres.unused g hg)
  have hpaddr : unpgaddr (c.pte 0).address = c.paddr := by
    rw [EarlyMmap.pte, Nat.mod_eq_of_lt (by omega)]
    exact unpgaddr_pgRoundDown halign hfit
  obtain ⟨hw, hu, hx⟩ := hasFlag_pteAccess
    ((c.paddr + 0) % 2 ^ 64)
  refine ⟨⟨_, hpage, hpaddr, hw, hu, hx⟩, fun hf => (hopen _).mpr ?_, fun hf => (hopen _).mpr ?_,
    fun p hp hpq => (hothers p hp hpq).trans (hdes.mapping p), ?_, ?_, ?_⟩
  · exact hdes.writable _ (length_tables _).le (hgrant.1 hf)
  · obtain ⟨ho, hpath⟩ := hgrant.2 hf
    rwa [hdes.same (not_not.mp fun hne => hpath (hdes.missing hne))]
  all_goals obtain ⟨h32, h31, h21⟩ := hres.ne
  · rw [hbit2]
    simp [hnew, taken, h32, h31]
  · rw [hbit1]
    simp [hnew, taken, Ne.symm h32, h21]
  · rw [hbit0]
    simp [hnew, taken, Ne.symm h31, Ne.symm h21]

/-- Tables with fewer paths. -/
theorem EarlyTables.mono {mem' : Mem} (h : EarlyTables K root mem) (hable : K.Able mem')
    (hpath : ∀ r ∈ ({root, K.pml4t} : Set Frame), ∀ π t, π.length ≤ 3 →
      follow Entry.child mem' r π = some t → follow Entry.child mem r π = some t) :
    EarlyTables K root mem' ∧ ∀ t, K.Uses root mem' t → K.Uses root mem t :=
  ⟨⟨hable, h.aligned.mono hpath⟩,
    fun t ⟨r, hr, π, hπ, ht⟩ => ⟨r, hr, π, hπ, hpath r hr π t hπ ht⟩⟩

/-- The PTE of a page that is not mapped can be written. -/
theorem EarlyTables.write {e : Entry} {q : ℕ} (h : EarlyTables K root mem) (hq : q < 2 ^ 36)
    (hout : ¬ K.InArea q) (hf : path mem root (tables q) = some f)
    (hnone : mapping mem root q = none) : EarlyTables K root (Radix.write mem f (slot q) e) ∧
    ∀ t, K.Uses root (Radix.write mem f (slot q) e) t → K.Uses root mem t := by
  refine h.mono (h.able.write ((mapping_eq_none_iff hf).mp hnone) (h.not_areaSlot hf hq hout))
    fun r hr π t hπ ht => ?_
  rwa [h.aligned.forest.follow_write (by simp) hf (length_tables q) hr hπ] at ht

/-- **The tables after a call that has mapped a new page.** -/
theorem EarlyTables.after (h : EarlyTables K root mem) (hc : c.range.InHalf)
    (hres : c.Reserved K root mem) (hout : ¬ K.InArea (pageNo c.vaddr))
    (hasked : SpeaksFor mem root (pml4x c.vaddr) (pdptx c.vaddr))
    (hnone : mapping mem root (pageNo c.vaddr) = none) :
    EarlyTables K root (c.pml4eEffect root mem).2 ∧
      ∀ t, K.Uses root (c.pml4eEffect root mem).2 t → K.Uses root mem t ∨ t ∈ c.frames := by
  obtain ⟨mem₁, f₁, m₄, m₃, m₂, mem', hdes, heffect, -⟩ := exists_descent h hc hres hout hasked
  obtain ⟨htables, hmono⟩ := hdes.tables.write (pageNo_lt _) hout hdes.path
    ((hdes.mapping _).trans hnone)
  rw [heffect]
  refine ⟨htables, fun t ht => (hdes.news t (hmono t ht)).imp_right fun hused => ?_⟩
  simp only [EarlyMmap.taken, mem_append, mem_newTable] at hused
  simp only [mem_cons, not_mem_nil, or_false]
  tauto

/-! ### Where the first PDPTE does not speak for the one that is used -/

theorem able_write_of_not_kernelTable {i : Fin 512} {e : Entry} (h : K.Able mem)
    (hf : ¬ K.KernelTable f) : K.Able (write mem f i e) := by
  refine h.keep (fun f' i hf' _ => write_of_ne ?_) fun f' i hs => write_of_ne ?_
  · rintro ⟨rfl, -⟩
    exact hf hf'
  · rintro ⟨rfl, -⟩
    exact hf (.inr (.inr (.inr hs.isPtt)))

/-- A level whose table is none of the kernel's can be gone through. -/
theorem passable_of_not_kernelTable {x paddr : ℕ} {missing : Bool} (h : K.Able mem)
    (hf : ¬ K.KernelTable f) (hg : missing = true → ¬ K.KernelTable (pgRoundDown paddr)) :
    K.Passable missing f x paddr mem :=
  ⟨fun hp => hf (.inr (.inr (.inr hp))), hg, fun _ => able_write_of_not_kernelTable h hf⟩

/-- The PDPT of the page, its PML4 entry being there. -/
def EarlyMmap.pdpt (c : EarlyMmap) (root : Frame) (mem : Mem) : Frame :=
  (entryAt mem root (pml4x c.vaddr)).address

/-- The tables without the page directory of the page. -/
def EarlyMmap.cut (c : EarlyMmap) (root : Frame) (mem : Mem) : Mem :=
  write mem (c.pdpt root mem) (Fin.ofNat 512 (pdptx c.vaddr))
    { entryAt mem (c.pdpt root mem) (pdptx c.vaddr) with mask := 0 }

/-- **The page directory is replaced** although it is there: the first PDPTE is absent. -/
structure EarlyMmap.Replaces (c : EarlyMmap) (root : Frame) (mem : Mem) : Prop where
  pml4e : (entryAt mem root (pml4x c.vaddr)).present = true
  first : (entryAt mem (c.pdpt root mem) 0).present = false
  pdpte : (entryAt mem (c.pdpt root mem) (pdptx c.vaddr)).present = true

/-- **What is not there is taken for a page directory**: the first PDPTE is present. -/
structure EarlyMmap.Strays (c : EarlyMmap) (root : Frame) (mem : Mem) : Prop where
  pml4e : (entryAt mem root (pml4x c.vaddr)).present = true
  first : (entryAt mem (c.pdpt root mem) 0).present = true
  pdpte : (entryAt mem (c.pdpt root mem) (pdptx c.vaddr)).present = false

theorem EarlyMmap.speaksFor_or (c : EarlyMmap) (root : Frame) (mem : Mem) :
    SpeaksFor mem root (pml4x c.vaddr) (pdptx c.vaddr) ∨ c.Replaces root mem ∨
      c.Strays root mem := by
  by_cases hp : (entryAt mem root (pml4x c.vaddr)).present = true
  · cases h0 : (entryAt mem (c.pdpt root mem) 0).present <;>
      cases hx : (entryAt mem (c.pdpt root mem) (pdptx c.vaddr)).present
    · exact .inl fun _ => h0.trans hx.symm
    · exact .inr (.inl ⟨hp, h0, hx⟩)
    · exact .inr (.inr ⟨hp, h0, hx⟩)
    · exact .inl fun _ => h0.trans hx.symm
  · exact .inl fun h => absurd h hp

/-- **Nothing else breaks** where the call goes wrong: the PDPT in which a page directory is
replaced is none of the kernel's own, and what is taken for a page directory is no table and has no
entry for the page. -/
structure EarlyMmap.Harmless (c : EarlyMmap) (K : KernelImage) (root : Frame) (mem : Mem) :
    Prop where
  replaced : c.Replaces root mem → ¬ K.KernelTable (c.pdpt root mem)
  strayed : c.Strays root mem →
    let g := (entryAt mem (c.pdpt root mem) (pdptx c.vaddr)).address
    ¬ K.Uses root mem g ∧ (entryAt mem g (pdx c.vaddr)).present = false

section Wrong

variable (h : EarlyTables K root mem) (hc : c.range.InHalf) (hres : c.Reserved K root mem)

include h

theorem EarlyTables.not_kernelTable (hg : ¬ K.Uses root mem f) : ¬ K.KernelTable f := fun hk =>
  hg ⟨K.pml4t, by simp, isTable_of_kernelTable h.able.linked hk⟩

omit h in
theorem path_pdpt (hp : (entryAt mem root (pml4x c.vaddr)).present = true) :
    path mem root [Fin.ofNat 512 (pml4x c.vaddr)] = some (c.pdpt root mem) :=
  path_present (α := []) rfl hp

include hc hres

/-- A call whose PML4 entry is there and whose page table is to be made. -/
theorem EarlyTables.run_of_missing (hp : (entryAt mem root (pml4x c.vaddr)).present = true)
    {m₃ : Bool} {f₂ : Frame} {mem₂ : Mem}
    (h3 : K.LevelPass 0 (pdptx c.vaddr) c.pdePaddr m₃ (c.pdpt root mem) mem f₂ mem₂)
    (hk : ¬ K.KernelTable f₂) (hm₂ : (entryAt mem₂ f₂ (pdx c.vaddr)).present = false) :
    ∃ mem', K.hnMmMmapEarly c root mem = .ok ((c.pml4eEffect root mem).1, mem') ∧
      K.Shade [] (c.pml4eEffect root mem).2 mem' := by
  have hptt := h.not_kernelTable (hres.unused (pgRoundDown c.ptePaddr) (by simp))
  have hpass4 : K.Passable (!(entryAt mem root (pml4x c.vaddr)).present) root (pml4x c.vaddr)
      c.pdptePaddr mem := by
    rw [hp]
    exact ⟨h.not_isPtt (α := []) rfl (by simp), nofun, nofun⟩
  have hpass2 : K.Passable (!(entryAt mem₂ f₂ (pdx c.vaddr)).present) f₂ (pdx c.vaddr) c.ptePaddr
      mem₂ := passable_of_not_kernelTable (h3.tables ▸ h3.passable.able h.able) hk fun _ => hptt
  refine hnMmMmapEarly_eq hc h.able ⟨rfl, hpass4, by rw [hp]; rfl, by rw [hp]; rfl⟩ h3
    ⟨rfl, hpass2, rfl, rfl⟩ fun hs => ?_
  rw [hm₂] at hs
  exact hptt (.inr (.inr (.inr hs.isPtt)))

omit h hc hres in
theorem EarlyMmap.effect_of_present (hp : (entryAt mem root (pml4x c.vaddr)).present = true) :
    c.pml4eEffect root mem = (flagOf false 0b100 ||| (c.pdpteEffect (c.pdpt root mem) mem).1,
      (c.pdpteEffect (c.pdpt root mem) mem).2) := by
  simp only [pml4eEffect, hp, Bool.not_true]
  rfl

omit hc hres in
/-- Without the page directory, only its own entry is another one. -/
theorem EarlyMmap.Replaces.cut_eq (hrep : c.Replaces root mem) :
    entryAt (c.cut root mem) root = entryAt mem root ∧ c.pdpt root (c.cut root mem) =
      c.pdpt root mem ∧ (entryAt (c.cut root mem) (c.pdpt root mem) 0).present = false ∧
      (entryAt (c.cut root mem) (c.pdpt root mem) (pdptx c.vaddr)).present = false := by
  have hroot : root ≠ c.pdpt root mem := fun heq => by
    have hpath := path_pdpt hrep.pml4e
    rw [← heq] at hpath
    cases h.tree (π := []) (by simp) (by simp) rfl hpath
  have hpml4e : entryAt (c.cut root mem) root = entryAt mem root :=
    funext fun _ => write_of_ne fun hc => hroot hc.1
  have hpdpte : entryAt (c.cut root mem) (c.pdpt root mem) (pdptx c.vaddr) = _ := write_self
  have hfirst : entryAt (c.cut root mem) (c.pdpt root mem) 0 = entryAt mem (c.pdpt root mem) 0 := by
    refine write_of_ne fun hc => ?_
    have hpdpte := hrep.pdpte
    rw [entryAt, ← hc.2, show mem (c.pdpt root mem) (Fin.ofNat 512 0) =
      entryAt mem (c.pdpt root mem) 0 from rfl, hrep.first] at hpdpte
    cases hpdpte
  refine ⟨hpml4e, by rw [pdpt, hpml4e, pdpt], by rw [hfirst, hrep.first], ?_⟩
  rw [hpdpte]
  simp [Entry.present, Entry.has]

omit hc hres in
/-- The call finds the tables as if the page directory were not there. -/
theorem EarlyMmap.Replaces.effect_eq (hrep : c.Replaces root mem) :
    c.pml4eEffect root mem = c.pml4eEffect root (c.cut root mem) := by
  obtain ⟨hpml4e, hpdpt, hfirst, -⟩ := hrep.cut_eq h
  have hhang : hang true (c.pdpt root mem) (pdptx c.vaddr) c.pdePaddr (c.cut root mem) =
      hang true (c.pdpt root mem) (pdptx c.vaddr) c.pdePaddr mem := by
    simp only [hang, if_true, link, cut, write_write, entryAt, write_self, tableFrom]
  rw [effect_of_present hrep.pml4e, effect_of_present (by rw [hpml4e, hrep.pml4e]), hpdpt]
  simp only [pdpteEffect, hrep.first, hfirst, Bool.not_false, hhang, below, if_true]

variable (hout : ¬ K.InArea (pageNo c.vaddr)) (hplain : c.Plain)

include hout hplain

/-- **With the page directory replaced**, the call does what it is for if the tables allow it
without the page directory, and no other page was mapped by that. -/
theorem EarlyMmap.Replaces.maps_iff (hrep : c.Replaces root mem)
    (hk : ¬ K.KernelTable (c.pdpt root mem)) :
    (∃ r mem', K.hnMmMmapEarly c root mem = .ok (r, mem') ∧ c.Done root mem r mem') ↔
      c.Granted root (c.cut root mem) ∧ ∀ p < 2 ^ 36, p ≠ pageNo c.vaddr →
        mapping (c.cut root mem) root p = mapping mem root p := by
  obtain ⟨hpml4e, hpdpt, hfirst, hpdpte⟩ := hrep.cut_eq h
  have hpdt := h.not_kernelTable (hres.unused (pgRoundDown c.pdePaddr) (by simp))
  obtain ⟨hcut, hmono⟩ := h.mono
    (show K.Able (c.cut root mem) from able_write_of_not_kernelTable h.able hk)
    fun r _ π t _ => follow_of_write (Entry.child_eq_none (by simp [Entry.present, Entry.has]))
  have hres' : c.Reserved K root (c.cut root mem) :=
    ⟨hres.distinct, fun g hg ht => hres.unused g hg (hmono g ht)⟩
  have hasked : SpeaksFor (c.cut root mem) root (pml4x c.vaddr) (pdptx c.vaddr) := fun _ => by
    change (entryAt _ (c.pdpt root (c.cut root mem)) 0).present = _
    rw [hpml4e, hpdpt, hfirst, ← hpdpte]
    rfl
  obtain ⟨mem₁, f₁, m₄, m₃, m₂, -, hdes, heffect, -⟩ := exists_descent hcut hc hres' hout hasked
  have hmissing : true = !(entryAt mem (c.pdpt root mem) 0).present := by
    rw [hrep.first]
    rfl
  obtain ⟨mem', hrun, hs⟩ := h.run_of_missing hc hres hrep.pml4e
    ⟨hmissing, passable_of_not_kernelTable h.able hk fun _ => hpdt, rfl, rfl⟩ hpdt
    (congrArg Entry.present fill_self)
  rw [hrep.effect_eq h, heffect] at hrun hs
  have hdone := done_iff hdes hres' hplain hs
  obtain ⟨-, hothers, -⟩ := hdes.tables.put (pageNo_lt _) hdes.path (present_pte hplain.mapped _) hs
  have hothers : ∀ p < 2 ^ 36, p ≠ pageNo c.vaddr →
      mapping mem' root p = mapping (c.cut root mem) root p := fun p hp hpq =>
    (hothers p hp hpq).trans (hdes.mapping p)
  constructor
  · rintro ⟨r, mem'', hrun', hd⟩
    obtain ⟨rfl, rfl⟩ := ok_mk_inj (hrun.symm.trans hrun')
    exact ⟨hdone.mp { hd with others := hothers }, fun p hp hpq =>
      (hothers p hp hpq).symm.trans (hd.others p hp hpq)⟩
  · rintro ⟨hgrant, hsame⟩
    exact ⟨_, mem', hrun, { hdone.mpr hgrant with
      others := fun p hp hpq => (hothers p hp hpq).trans (hsame p hp hpq) }⟩

omit hout hplain in
/-- **Where an absent entry is followed**, the page is not mapped. -/
theorem EarlyMmap.Strays.not_done (hstr : c.Strays root mem) (hharm : c.Harmless K root mem)
    {r : BitVec 8} {mem' : Mem} (hrun : K.hnMmMmapEarly c root mem = .ok (r, mem')) :
    ¬ c.Done root mem r mem' := by
  obtain ⟨hg, habsent⟩ := hharm.strayed hstr
  have hmissing : false = !(entryAt mem (c.pdpt root mem) 0).present := by
    rw [hstr.first]
    rfl
  obtain ⟨mem'', hrun', hs⟩ := h.run_of_missing hc hres hstr.pml4e
    ⟨hmissing, ⟨h.not_isPtt (path_pdpt hstr.pml4e) (by simp), nofun, nofun⟩, rfl, rfl⟩
    (h.not_kernelTable hg) habsent
  obtain ⟨rfl, rfl⟩ := ok_mk_inj (hrun.symm.trans hrun')
  have heffect : (c.pdpteEffect (c.pdpt root mem) mem).2 = c.pteEffect (pgRoundDown c.ptePaddr)
      (hang true (entryAt mem (c.pdpt root mem) (pdptx c.vaddr)).address (pdx c.vaddr) c.ptePaddr
        mem) := by
    simp only [pdpteEffect, pdeEffect, hstr.first, Bool.not_true, below, hang, Bool.false_eq_true,
      if_false, habsent, Bool.not_false, if_true]
  rw [effect_of_present hstr.pml4e, heffect] at hs
  have hnone : path mem root (tables (pageNo c.vaddr)) = none := by
    rw [tables_pageNo]
    exact path_absent (path_pdpt hstr.pml4e) hstr.pdpte [_]
  intro hdone
  obtain ⟨e, he, -⟩ := hdone.page
  rw [hs.mapping_eq, mapping, leaf_eq_none ((follow_congr fun α i β t hsplit ht => ?_).trans hnone)]
    at he
  · cases he
  · have hα : α.length ≤ 3 := by
      have := congrArg List.length hsplit
      rw [length_tables, length_append] at this
      omega
    have hne : ∀ {f}, ¬ K.Uses root mem f → t ≠ f := fun hf heq =>
      hf ⟨root, by simp, α, hα, heq ▸ ht⟩
    have hptt := hne (hres.unused (pgRoundDown c.ptePaddr) (by simp))
    exact congrArg Entry.child ((write_of_ne fun hc => hptt hc.1).trans
      ((fill_of_ne hptt).trans (write_of_ne fun hc => hne hg hc.1)))

end Wrong

/-- **When `hn_mm_mmap_early` does what it is for.**  Either the first PDPTE speaks for the one that
is used and the tables allow the access; or a page directory is replaced by which no other page was
mapped, and the tables allow the access without it. -/
theorem mmapEarly_maps_iff (h : EarlyTables K root mem) (hc : c.range.InHalf)
    (hres : c.Reserved K root mem) (hout : ¬ K.InArea (pageNo c.vaddr)) (hplain : c.Plain)
    (hharm : c.Harmless K root mem) :
    (∃ r mem', K.hnMmMmapEarly c root mem = .ok (r, mem') ∧ c.Done root mem r mem') ↔
      SpeaksFor mem root (pml4x c.vaddr) (pdptx c.vaddr) ∧ c.Granted root mem ∨
      c.Replaces root mem ∧ c.Granted root (c.cut root mem) ∧ ∀ p < 2 ^ 36, p ≠ pageNo c.vaddr →
        mapping (c.cut root mem) root p = mapping mem root p := by
  have hwrong : ∀ {b b' : Bool}, SpeaksFor mem root (pml4x c.vaddr) (pdptx c.vaddr) →
      (entryAt mem root (pml4x c.vaddr)).present = true →
      (entryAt mem (c.pdpt root mem) 0).present = b →
      (entryAt mem (c.pdpt root mem) (pdptx c.vaddr)).present = b' → b = b' :=
    fun hasked hp hb hb' => hb.symm.trans ((hasked hp).trans hb')
  rcases c.speaksFor_or root mem with hasked | hrep | hstr
  · obtain ⟨mem₁, f₁, m₄, m₃, m₂, mem', hdes, heffect, hrun, hs⟩ :=
      exists_descent h hc hres hout hasked
    rw [heffect] at hrun hs
    have hdone := EarlyMmap.done_iff hdes hres hplain hs
    constructor
    · rintro ⟨r, mem'', hrun', hd⟩
      obtain ⟨rfl, rfl⟩ := ok_mk_inj (hrun.symm.trans hrun')
      exact .inl ⟨hasked, hdone.mp hd⟩
    · rintro (⟨-, hgrant⟩ | ⟨hrep, -⟩)
      · exact ⟨_, mem', hrun, hdone.mpr hgrant⟩
      · cases hwrong hasked hrep.pml4e hrep.first hrep.pdpte
  · rw [hrep.maps_iff h hc hres hout hplain (hharm.replaced hrep)]
    refine ⟨fun hg => .inr ⟨hrep, hg⟩, ?_⟩
    rintro (⟨hasked, -⟩ | ⟨-, hg⟩)
    · cases hwrong hasked hrep.pml4e hrep.first hrep.pdpte
    · exact hg
  · refine iff_of_false (fun ⟨r, mem', hrun, hd⟩ => hstr.not_done h hc hres hharm hrun hd) ?_
    rintro (⟨hasked, -⟩ | ⟨hrep, -⟩)
    · cases hwrong hasked hstr.pml4e hstr.first hstr.pdpte
    · cases hstr.first.symm.trans hrep.first

end Main

/-! ### Runs -/

/-- The path to a table of `imageMem`. -/
def imagePath (f : Frame) : List (Fin 512) :=
  if f.toNat = 1 then []
  else if f.toNat = 2 then [511]
  else if f.toNat < 16 then [511, Fin.ofNat 512 (f.toNat + 507)]
  else [511, Fin.ofNat 512 (510 + (f.toNat - 16) / 512), Fin.ofNat 512 (f.toNat - 16)]

/-- An entry above the last level leads to the table whose path it ends. -/
theorem child_imageMem {f g : Frame} {i : Fin 512} (hf : (imagePath f).length < 3)
    (h : (imageMem f i).child = some g) : imagePath g = imagePath f ++ [i] ∧ g.toNat < 1040 := by
  have hpt : ∀ m < 2, ∀ g : Frame, 16 + BitVec.ofNat 40 (512 * m + i) = g →
      imagePath g = [511, Fin.ofNat 512 (510 + m)] ++ [i] ∧ g.toNat < 1040 := by
    rintro m hm g rfl
    have hnat : (16 + BitVec.ofNat 40 (512 * m + i) : Frame).toNat = 16 + (512 * m + i) := by
      simp only [BitVec.ofNat_eq_ofNat, BitVec.toNat_add, BitVec.toNat_ofNat]
      omega
    have hlast : Fin.ofNat 512 (512 * m + i) = i := Fin.ext (by rw [Fin.val_ofNat]; omega)
    refine ⟨?_, by rw [hnat]; omega⟩
    rw [imagePath, hnat, if_neg (by omega), if_neg (by omega), if_neg (by omega),
      Nat.add_sub_cancel_left, show (512 * m + i) / 512 = m by omega, hlast]
    rfl
  have hset : ∀ a : Frame, (⟨PTE_P.setWidth 12, a, false⟩ : Entry).child = some a :=
    fun _ => by simp [Entry.child, Entry.present, Entry.has, PTE_P]
  rw [imageMem] at h
  split_ifs at h with h1 h2 h3 h4 h5
  · obtain ⟨rfl, rfl⟩ := h1
    cases h
    decide
  · obtain ⟨rfl, hi⟩ := h2
    obtain rfl := Option.some.inj ((hset _).symm.trans h)
    obtain rfl | rfl : i = 510 ∨ i = 511 := by omega
    all_goals decide
  · subst h3
    exact hpt 0 (by decide) g (by simpa [hset] using h)
  · subst h4
    exact hpt 1 (by decide) g (Option.some.inj ((hset _).symm.trans h))
  · obtain ⟨rfl, -⟩ := h5
    exact absurd hf (by decide)
  · cases h

/-- Every table of the image is reached by one path. -/
theorem path_imageMem {π : List (Fin 512)} (hπ : π.length ≤ 3) (h : path imageMem 1 π = some f) :
    π = imagePath f ∧ f.toNat < 1040 := by
  induction π using List.reverseRecOn generalizing f with
  | nil =>
    cases h
    decide
  | append_singleton π i ih =>
    rw [length_append] at hπ
    obtain ⟨g, hg, hchild⟩ := follow_concat_eq_some.mp h
    obtain ⟨rfl, -⟩ := ih (by omega) hg
    obtain ⟨hf, hlt⟩ := child_imageMem (by simpa using hπ) hchild
    exact ⟨hf.symm, hlt⟩

theorem able_imageMem : image.Able imageMem where
  linked := linked_imageMem
  behind := area_imageMem.2
  room := by
    refine ⟨{image.firstPage, image.firstPage + 1, image.firstPage + 2}, by decide, fun p hp => ?_⟩
    simp only [Finset.mem_insert, Finset.mem_singleton] at hp
    have hin : image.InArea p := ⟨by omega, by omega⟩
    exact ⟨hin, area_imageMem.1 p hin.1 hin.2⟩

theorem earlyTables_imageMem : EarlyTables image 1 imageMem := by
  refine ⟨able_imageMem, fun r r' π ρ f hr hr' hπ hρ h1 h2 => ?_⟩
  have hone : ∀ r, r ∈ ({1, image.pml4t} : Set Frame) → r = 1 := fun r hr => by
    simpa [image] using hr
  rw [hone r hr] at h1
  rw [hone r' hr'] at h2
  exact (path_imageMem hπ h1).1.trans (path_imageMem hρ h2).1.symm

theorem not_tableOf_imageMem (hf : 1040 ≤ f.toNat) : ¬ image.Uses 1 imageMem f := by
  rintro ⟨r, hr, π, hπ, h⟩
  obtain rfl : r = 1 := by simpa [image] using hr
  have := (path_imageMem hπ h).2
  omega

/-- A page of the kernel half, far from the image. -/
def earlyPage : EarlyMmap where
  vaddr := 0xffff800040000000
  paddr := 0x80000
  access := 0x07
  pdptePaddr := 0x1000000
  pdePaddr := 0x1001000
  ptePaddr := 0x1002000

theorem reserved_earlyPage : earlyPage.Reserved image 1 imageMem := by
  refine ⟨by decide, fun g hg => not_tableOf_imageMem ?_⟩
  simp only [mem_cons, not_mem_nil, or_false] at hg
  obtain rfl | rfl | rfl := hg
  all_goals decide

theorem inHalf_earlyPage : earlyPage.range.InHalf := ⟨by decide, by decide, by decide, by decide⟩

/-- The entries on the way to it: there are none. -/
theorem openFor_earlyPage (bit : BitVec 16) :
    EarlyTables.OpenFor imageMem 1 (tables (pageNo earlyPage.vaddr)) bit := by
  intro α i β f hsplit hf hp
  cases α with
  | nil =>
    cases hf
    obtain ⟨rfl, -⟩ := List.cons.inj hsplit
    cases hp
  | cons j α =>
    obtain ⟨rfl, -⟩ := List.cons.inj hsplit
    cases hf

theorem mmapEarly_maps_iff_page : ∃ r mem',
    image.hnMmMmapEarly earlyPage 1 imageMem = .ok (r, mem') ∧ earlyPage.Done 1 imageMem r mem' :=
  (mmapEarly_maps_iff earlyTables_imageMem inHalf_earlyPage reserved_earlyPage
    (fun h => absurd h.1 (by decide)) ⟨by decide, by decide, by decide⟩
    ⟨fun h => absurd h.pml4e (by decide), fun h => absurd h.pml4e (by decide)⟩).mpr
    (.inl ⟨by decide, fun _ => openFor_earlyPage _, fun h => absurd h (by decide)⟩)

/-- The page behind it. -/
def nextPage : EarlyMmap where
  vaddr := 0xffff800040001000
  paddr := 0x81000
  access := 0x07
  pdptePaddr := 0x1003000
  pdePaddr := 0x1004000
  ptePaddr := 0x1005000

/-- A page below the first PDPTE. -/
def lowPage : EarlyMmap := { earlyPage with vaddr := 0xffff800000000000 }

/-- One below the second. -/
def secondGb : EarlyMmap := { nextPage with vaddr := 0xffff800040000000 }

/-- The tables after a first call. -/
def memAfter (c : EarlyMmap) : Mem := (c.pml4eEffect 1 imageMem).2

theorem earlyTables_memAfter (hc : c = earlyPage ∨ c = lowPage) :
    EarlyTables image 1 (memAfter c) ∧
      ∀ f : Frame, 0x1003 ≤ f.toNat → ¬ image.Uses 1 (memAfter c) f := by
  have hafter : EarlyTables image 1 (memAfter c) ∧
      ∀ t, image.Uses 1 (memAfter c) t → image.Uses 1 imageMem t ∨ t ∈ c.frames := by
    obtain rfl | rfl := hc
    · exact earlyTables_imageMem.after inHalf_earlyPage reserved_earlyPage
        (fun h => absurd h.1 (by decide)) (by decide) (by decide)
    · exact earlyTables_imageMem.after ⟨by decide, by decide, by decide, by decide⟩
        ⟨reserved_earlyPage.distinct, reserved_earlyPage.unused⟩
        (fun h => absurd h.1 (by decide)) (by decide) (by decide)
  refine ⟨hafter.1, fun f hf ht => ?_⟩
  obtain ht | ht := hafter.2 f ht
  · exact not_tableOf_imageMem (by omega) ht
  · have hres : f ∈ [(0x1000 : Frame), 0x1001, 0x1002] := by
      obtain rfl | rfl := hc <;> exact ht
    simp only [mem_cons, not_mem_nil, or_false] at hres
    obtain rfl | rfl | rfl := hres
    all_goals exact absurd hf (by decide)

/-- The page with `MM_PAGE_USER`. -/
def userPage : EarlyMmap := { earlyPage with access := 0x27 }

/-- The last page of all. -/
def lastPage : EarlyMmap := { earlyPage with vaddr := 0xfffffffffffff000 }

/-- **Where the first PDPTE does not speak for the one that is used.**  With the first absent, a
page directory in use is replaced, and a page is lost; with the first present, an absent entry is
followed, and the page is not mapped.  Besides, new tables are not for users, and for the last page
nothing is done. -/
theorem mmapEarly_loses_pages :
    (EarlyTables image 1 (memAfter earlyPage) ∧ nextPage.Reserved image 1 (memAfter earlyPage) ∧
      mapping (memAfter earlyPage) 1 (pageNo earlyPage.vaddr) = some (earlyPage.pte 0) ∧
      (image.hnMmMmapEarly nextPage 1 (memAfter earlyPage)).map
        (fun r => mapping r.2 1 (pageNo earlyPage.vaddr)) = .ok none) ∧
    (EarlyTables image 1 (memAfter lowPage) ∧ secondGb.Reserved image 1 (memAfter lowPage) ∧
      (image.hnMmMmapEarly secondGb 1 (memAfter lowPage)).map
        (fun r => mapping r.2 1 (pageNo secondGb.vaddr)) = .ok none) ∧
    (EarlyTables image 1 imageMem ∧ userPage.Reserved image 1 imageMem ∧
      (image.hnMmMmapEarly userPage 1 imageMem).map
        (fun r => (entryAt r.2 1 (pml4x userPage.vaddr)).has PTE_U) = .ok false) ∧
    (lastPage.Reserved image 1 imageMem ∧
      (image.hnMmMmapEarly lastPage 1 imageMem).map
        (fun r => (r.1, mapping r.2 1 (pageNo lastPage.vaddr))) = .ok (0, none)) := by
  have hreserved : ∀ {c₁ c : EarlyMmap}, c₁ = earlyPage ∨ c₁ = lowPage →
      c = nextPage ∨ c = secondGb → c.Reserved image 1 (memAfter c₁) := by
    intro c₁ c hc₁ hc
    have hframes : c.frames = [0x1003, 0x1004, 0x1005] := by
      obtain rfl | rfl := hc <;> decide
    refine ⟨by rw [hframes]; decide, fun g hg => (earlyTables_memAfter hc₁).2 g ?_⟩
    rw [hframes] at hg
    simp only [mem_cons, not_mem_nil, or_false] at hg
    obtain rfl | rfl | rfl := hg
    all_goals decide
  exact ⟨⟨(earlyTables_memAfter (.inl rfl)).1, hreserved (.inl rfl) (.inl rfl), by decide +kernel,
      by decide +kernel⟩,
    ⟨(earlyTables_memAfter (.inr rfl)).1, hreserved (.inr rfl) (.inr rfl), by decide +kernel⟩,
    ⟨earlyTables_imageMem, ⟨reserved_earlyPage.distinct, reserved_earlyPage.unused⟩,
      by decide +kernel⟩,
    ⟨reserved_earlyPage.distinct, reserved_earlyPage.unused⟩, by decide +kernel⟩

end Pbos.Hal
