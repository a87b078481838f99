import Pbos.Hal.VmUnmap

/-!
# Hal/VmShared — contexts that share tables

Every context has a PML4 of its own, but the tables of the kernel half hang below several of them.
So a PTE may be that of a page in many contexts.  `pteAt` says where the PTE of a page is, and the
edits of a walk in one context are followed in all of them: a PTE written is seen in every context
that has it (`mapping_put`), and a fresh table maps nothing anywhere (`mapping_hang`).  `Overlaid`
is what a walk of `kh_mmap` has done on its way; `Scrubbed`, what one of `kh_unmmap` leaves, is seen
from all contexts too.
-/

namespace Pbos.Hal

open Radix

/-- The table and the index of the PTE of a page, if there is a table for it. -/
def pteAt (mem : Mem) (r : Frame) (p : ℕ) : Option (Frame × Fin 512) :=
  (path mem r (tables p)).map fun t => (t, slot p)

/-- The contexts whose PML4s are `R` share tables at the same level only. -/
abbrev Contexts (mem : Mem) (R : Set Frame) : Prop := Forest Entry.child mem 3 R

/-- A table of one of the contexts. -/
abbrev TableIn (mem : Mem) (R : Set Frame) (f : Frame) : Prop := TableOf Entry.child mem 3 R f

variable {mem mem' : Mem} {R : Set Frame} {r root f g t : Frame} {p q : ℕ} {i x : Fin 512}
  {e : Entry} {α : List (Fin 512)}

theorem pteAt_eq_some_iff :
    pteAt mem r p = some (t, i) ↔ path mem r (tables p) = some t ∧ slot p = i := by
  rw [pteAt, Option.map_eq_some_iff]
  constructor
  · rintro ⟨t', ht', heq⟩
    cases heq
    exact ⟨ht', rfl⟩
  · rintro ⟨ht, rfl⟩
    exact ⟨t, ht, rfl⟩

/-- A page is mapped by the entry at its place. -/
theorem mapping_eq_pteAt (mem : Mem) (r : Frame) (p : ℕ) :
    mapping mem r p = ((pteAt mem r p).map fun x => mem x.1 x.2).filter Entry.present := by
  rw [pteAt, Option.map_map]
  rfl

theorem mapping_of_pteAt (h : pteAt mem r p = some (t, i)) :
    mapping mem r p = (some (mem t i)).filter Entry.present := by
  rw [mapping_eq_pteAt, h]
  rfl

theorem mapping_of_pteAt_none (h : pteAt mem r p = none) : mapping mem r p = none := by
  rw [mapping_eq_pteAt, h]
  rfl

theorem exists_pteAt (h : mapping mem r p = some e) :
    ∃ t i, pteAt mem r p = some (t, i) ∧ mem t i = e ∧ e.present = true := by
  rw [mapping_eq_pteAt, Option.filter_eq_some_iff, Option.map_eq_some_iff] at h
  obtain ⟨⟨⟨t, i⟩, hat, hmem⟩, hpres⟩ := h
  exact ⟨t, i, hat, hmem, hpres⟩

/-- **The pages of one context have different PTEs.** -/
theorem Contexts.page_eq (h : Contexts mem R) (hr : r ∈ R) (hp : p < 2 ^ 36) (hq : q < 2 ^ 36)
    (hat : pteAt mem r p = some (t, i)) (hat' : pteAt mem r q = some (t, i)) : p = q := by
  obtain ⟨ht, rfl⟩ := pteAt_eq_some_iff.mp hat
  obtain ⟨ht', hs⟩ := pteAt_eq_some_iff.mp hat'
  exact eq_of_tables_slot hp hq (h.tree hr (by simp) (by simp) ht ht') hs.symm

theorem pteAt_of_extends (h : Extends Entry.child mem mem' 3 R) (hr : r ∈ R)
    (hat : pteAt mem r p = some (t, i)) : pteAt mem' r p = some (t, i) := by
  obtain ⟨ht, hs⟩ := pteAt_eq_some_iff.mp hat
  exact pteAt_eq_some_iff.mpr ⟨h.mono hr (by simp) ht, hs⟩

theorem tableIn_of_pteAt (hr : r ∈ R) (hat : pteAt mem r p = some (t, i)) : TableIn mem R t :=
  ⟨r, hr, tables p, by simp, (pteAt_eq_some_iff.mp hat).1⟩

section Edits

variable (h : Contexts mem R) (hroot : root ∈ R) (hr : r ∈ R)

section

variable (hf : path mem root (tables q) = some f)

include hf

include h hroot in
theorem path_put : ∀ r ∈ R, ∀ π, π.length ≤ 3 → path (write mem f (slot q) e) r π = path mem r π :=
  fun _ hr _ hπ => h.follow_write hroot hf (length_tables q) hr hπ

include h hroot hr in
theorem pteAt_put (p : ℕ) : pteAt (write mem f (slot q) e) r p = pteAt mem r p := by
  rw [pteAt, pteAt, path_put h hroot hf r hr _ (length_tables p).le]

include h hroot hr in
/-- **A PTE that is written** is seen wherever it is shared, and nothing else changes. -/
theorem mapping_put (p : ℕ) : mapping (write mem f (slot q) e) r p =
      if pteAt mem r p = some (f, slot q) then (some e).filter Entry.present
      else mapping mem r p := by
  rw [mapping_eq_pteAt, mapping_eq_pteAt, pteAt_put h hroot hr hf]
  by_cases hat : pteAt mem r p = some (f, slot q)
  · rw [if_pos hat, hat, Option.map_some, write_self]
  · rw [if_neg hat]
    cases hx : pteAt mem r p with
    | none => rfl
    | some x =>
      have hne : ¬ (x.1 = f ∧ x.2 = slot q) := fun heq => hat (by rw [hx, ← heq.1, ← heq.2])
      rw [Option.map_some, Option.map_some, write_of_ne hne]

end

section

variable (hα : path mem root α = some f) (hlen : α.length < 3)

include hα hlen

include h hroot hr in
/-- A table above the page tables holds no PTE. -/
theorem ne_of_pteAt (hat : pteAt mem r p = some (t, i)) : t ≠ f := by
  rintro rfl
  have := h.depth hr hroot (length_tables p).le hlen.le (pteAt_eq_some_iff.mp hat).1 hα
  rw [length_tables] at this
  omega

include h hroot hr in
/-- **A fresh table hung below an empty entry maps nothing**, in no context. -/
theorem mapping_hang (hnone : (mem f x).present = false) (hfresh : ¬ TableIn mem R g) (p : ℕ) :
    mapping (link mem f x (tableEntry g) g Entry.zero) r p = mapping mem r p := by
  have hchild := Entry.child_eq_none hnone
  cases hat : pteAt mem r p with
  | some y =>
    obtain ⟨t, i⟩ := y
    have htg : t ≠ g := fun heq => hfresh (heq ▸ tableIn_of_pteAt hr hat)
    have htf : ¬ (t = f ∧ i = x) := fun heq => ne_of_pteAt h hroot hr hα hlen hat heq.1
    obtain ⟨ht, hs⟩ := pteAt_eq_some_iff.mp hat
    have hat' : pteAt (link mem f x (tableEntry g) g Entry.zero) r p = some (t, i) :=
      pteAt_eq_some_iff.mpr ⟨follow_link_mono hchild hfresh hr (length_tables p).le ht, hs⟩
    rw [mapping_of_pteAt hat, mapping_of_pteAt hat', link, fill_of_ne htg, write_of_ne htf]
  | none =>
    rw [mapping_of_pteAt_none hat]
    cases hat' : pteAt (link mem f x (tableEntry g) g Entry.zero) r p with
    | none => exact mapping_of_pteAt_none hat'
    | some y =>
      obtain ⟨t, i⟩ := y
      obtain ⟨ht, hs⟩ := pteAt_eq_some_iff.mp hat'
      rcases follow_link_cases (child_tableEntry g) Entry.child_zero hfresh hr (length_tables p).le
        ht with hold | ⟨rfl, -⟩
      · rw [pteAt_eq_some_iff.mpr ⟨hold, hs⟩] at hat
        cases hat
      · rw [mapping_of_pteAt hat', link, fill_self]
        rfl

include h hroot hr in
/-- An absent entry above the page tables maps nothing either. -/
theorem mapping_keep_absent (hnone : (mem f x).present = false) (he : e.present = false) (p : ℕ) :
    mapping (write mem f x e) r p = mapping mem r p := by
  have hpath : path (write mem f x e) r (tables p) = path mem r (tables p) :=
    follow_write_of_child ((Entry.child_eq_none he).trans (Entry.child_eq_none hnone).symm)
  have hat' : pteAt (write mem f x e) r p = pteAt mem r p := by rw [pteAt, pteAt, hpath]
  cases hat : pteAt mem r p with
  | none => rw [mapping_of_pteAt_none hat, mapping_of_pteAt_none (hat'.trans hat)]
  | some y =>
    obtain ⟨t, i⟩ := y
    have htf : ¬ (t = f ∧ i = x) := fun heq => ne_of_pteAt h hroot hr hα hlen hat heq.1
    rw [mapping_of_pteAt hat, mapping_of_pteAt (hat'.trans hat), write_of_ne htf]

end

end Edits

/-! ## Mapping in one of the contexts -/

section Overlaid

variable {c : MmapArgs} {mem'' : Mem}

variable (mem R root c) in
/-- A walk over the pages of `c` in the context of `root`, which began in `mem`, has done those
before `q`: their PTEs are written, and what has another PTE is mapped as it was. -/
structure Overlaid (q : ℕ) (mem' : Mem) : Prop where
  contexts : Contexts mem' R
  grown : Extends Entry.child mem mem' 3 R
  done : ∀ k, c.first + k < q → ∃ t i, pteAt mem' root (c.first + k) = some (t, i) ∧
    mem' t i = c.pte (c.pi k)
  rest : ∀ r ∈ R, ∀ p, (∀ k, c.first + k < q → pteAt mem' r p ≠ pteAt mem' root (c.first + k)) →
    mapping mem' r p = mapping mem r p

theorem Overlaid.start (h : Contexts mem R) : Overlaid mem R root c c.first mem :=
  ⟨h, Extends.refl, fun k hk => absurd hk (by omega), fun _ _ _ _ => rfl⟩

variable (h : Overlaid mem R root c q mem') (hroot : root ∈ R) (hr : r ∈ R)

include h hroot in
/-- An edit above the page tables. -/
theorem Overlaid.upper (hcontexts : Contexts mem'' R) (hgrown : Extends Entry.child mem' mem'' 3 R)
    (hpte : ∀ r ∈ R, ∀ p t i, pteAt mem' r p = some (t, i) → mem'' t i = mem' t i)
    (hmap : ∀ r ∈ R, ∀ p, mapping mem'' r p = mapping mem' r p) :
    Overlaid mem R root c q mem'' := by
  refine ⟨hcontexts, h.grown.trans hgrown, fun k hk => ?_, fun r hr p hne => ?_⟩
  · obtain ⟨t, i, hat, hmem⟩ := h.done k hk
    exact ⟨t, i, pteAt_of_extends hgrown hroot hat, (hpte root hroot _ t i hat).trans hmem⟩
  · refine (hmap r hr p).trans (h.rest r hr p fun k hk heq => hne k hk ?_)
    obtain ⟨t, i, hat, -⟩ := h.done k hk
    rw [pteAt_of_extends hgrown hroot hat, pteAt_of_extends hgrown hr (heq.trans hat)]

section

variable (hα : path mem' root α = some f) (hlen : α.length < 3) (hnone : (mem' f x).present = false)

include hα hlen hnone

include h hroot in
theorem Overlaid.hang (hfresh : ¬ TableIn mem' R g) :
    Overlaid mem R root c q (link mem' f x (tableEntry g) g Entry.zero) := by
  obtain ⟨hcontexts, hgrown⟩ := h.contexts.link (Entry.child_eq_none hnone) (child_tableEntry g)
    Entry.child_zero hfresh
  refine h.upper hroot hcontexts hgrown (fun r hr p t i hat => ?_)
    fun r hr p => mapping_hang h.contexts hroot hr hα hlen hnone hfresh p
  have htg : t ≠ g := fun heq => hfresh (heq ▸ tableIn_of_pteAt hr hat)
  have htf : ¬ (t = f ∧ i = x) := fun heq => ne_of_pteAt h.contexts hroot hr hα hlen hat heq.1
  rw [link, fill_of_ne htg, write_of_ne htf]

include h hroot in
theorem Overlaid.keep_absent (he : e.present = false) :
    Overlaid mem R root c q (write mem' f x e) := by
  have hpath : ∀ r ∈ R, ∀ π, π.length ≤ 3 → path (write mem' f x e) r π = path mem' r π :=
    fun _ _ _ _ =>
      follow_write_of_child ((Entry.child_eq_none he).trans (Entry.child_eq_none hnone).symm)
  obtain ⟨hcontexts, hgrown⟩ := h.contexts.congr hpath
  refine h.upper hroot hcontexts hgrown (fun r hr p t i hat => ?_)
    fun r hr p => mapping_keep_absent h.contexts hroot hr hα hlen hnone he p
  exact write_of_ne fun heq => ne_of_pteAt h.contexts hroot hr hα hlen hat heq.1

end

include h hroot in
/-- **The PTE of the next page.** -/
theorem Overlaid.put (hq : c.first ≤ q) (hlt : q < 2 ^ 36)
    (hf : path mem' root (tables q) = some f) :
    Overlaid mem R root c (q + 1) (write mem' f (slot q) (c.pte (c.pi (q - c.first)))) := by
  obtain ⟨hcontexts, hgrown⟩ := h.contexts.congr (path_put h.contexts hroot hf)
  have hat : pteAt mem' root q = some (f, slot q) := pteAt_eq_some_iff.mpr ⟨hf, rfl⟩
  refine ⟨hcontexts, h.grown.trans hgrown, fun k hk => ?_, fun r hr p hne => ?_⟩
  · rw [pteAt_put h.contexts hroot hroot hf]
    rcases Nat.lt_succ_iff_lt_or_eq.mp hk with hk | rfl
    · obtain ⟨t, i, hat', hmem⟩ := h.done k hk
      refine ⟨t, i, hat', (write_of_ne ?_).trans hmem⟩
      rintro ⟨rfl, rfl⟩
      exact hk.ne (h.contexts.page_eq hroot (hk.trans hlt) hlt hat' hat)
    · refine ⟨f, slot (c.first + k), hat, ?_⟩
      rw [write_self, Nat.add_sub_cancel_left]
  · have hput := mapping_put (e := c.pte (c.pi (q - c.first))) h.contexts hroot hr hf p
    simp only [pteAt_put h.contexts hroot hr hf, pteAt_put h.contexts hroot hroot hf] at hne
    have hnot : pteAt mem' r p ≠ some (f, slot q) := fun heq =>
      hne (q - c.first) (by omega) (heq.trans (by rw [Nat.add_sub_cancel' hq, hat]))
    rw [hput, if_neg hnot]
    exact h.rest r hr p fun k hk => hne k (by omega)

include h hroot in
/-- The page the walk comes to is mapped as it was. -/
theorem Overlaid.mapping_next (hlt : q < 2 ^ 36) : mapping mem' root q = mapping mem root q := by
  refine h.rest root hroot q fun k hk heq => ?_
  obtain ⟨t, i, hat, -⟩ := h.done k hk
  exact hk.ne' (h.contexts.page_eq hroot hlt (hk.trans hlt) (heq.trans hat) hat)

include h in
theorem Overlaid.mapping_done {k : ℕ} (hk : c.first + k < q)
    (hpres : (c.pte (c.pi k)).present = true) :
    mapping mem' root (c.first + k) = some (c.pte (c.pi k)) := by
  obtain ⟨t, i, hat, hmem⟩ := h.done k hk
  rw [mapping_of_pteAt hat, hmem, Option.filter_some, if_pos hpres]

include h hroot hr in
/-- **What is mapped on the way**: what the walk has written, or what was mapped and has another
PTE. -/
theorem Overlaid.mapped (hp : mapping mem' r p = some e) :
    (∃ k, c.first + k < q ∧ e = c.pte (c.pi k)) ∨ mapping mem r p = some e ∧
        ∀ k, c.first + k < q → pteAt mem r p ≠ pteAt mem root (c.first + k) := by
  by_cases hdone : ∃ k, c.first + k < q ∧ pteAt mem' r p = pteAt mem' root (c.first + k)
  · obtain ⟨k, hk, heq⟩ := hdone
    obtain ⟨t, i, hat, hmem⟩ := h.done k hk
    rw [mapping_of_pteAt (heq.trans hat), hmem] at hp
    exact .inl ⟨k, hk, (Option.some.inj (Option.filter_eq_some_iff.mp hp).1).symm⟩
  · rw [h.rest r hr p fun k hk heq => hdone ⟨k, hk, heq⟩] at hp
    refine .inr ⟨hp, fun k hk heq => hdone ⟨k, hk, ?_⟩⟩
    obtain ⟨t, i, hat, -⟩ := exists_pteAt hp
    rw [pteAt_of_extends h.grown hr hat, pteAt_of_extends h.grown hroot (heq.symm.trans hat)]

include h hroot hr in
/-- What has another PTE stays mapped. -/
theorem Overlaid.mapping_kept (hp : mapping mem r p = some e)
    (hne : ∀ k, c.first + k < q → pteAt mem r p ≠ pteAt mem root (c.first + k)) :
    mapping mem' r p = some e := by
  obtain ⟨t, i, hat, -⟩ := exists_pteAt hp
  refine (h.rest r hr p fun k hk heq => hne k hk ?_).trans hp
  rw [pteAt_of_extends h.grown hr hat] at heq
  obtain ⟨hpath, hs⟩ := pteAt_eq_some_iff.mp heq.symm
  have hback := h.grown.back hroot (by simp) hpath (tableIn_of_pteAt hr hat)
  rw [hat, pteAt_eq_some_iff.mpr ⟨hback, hs⟩]

end Overlaid

/-! ## Unmapping in one of the contexts -/

section Scrubbed

variable {σ : Type} {range : VRange} {s s' : VmState σ} (h : Scrubbed root range s s')

include h

/-- No context gains a page. -/
theorem Scrubbed.mapping_mono (hp : mapping s'.mem r p = some e) : mapping s.mem r p = some e := by
  obtain ⟨t, i, hat, hmem, hpres⟩ := exists_pteAt hp
  obtain ⟨ht, hs⟩ := pteAt_eq_some_iff.mp hat
  rw [mapping_of_pteAt (pteAt_eq_some_iff.mpr ⟨h.path_mono ht, hs⟩),
    ← h.eq_of_present (hmem ▸ hpres), hmem, Option.filter_some, if_pos hpres]

theorem Scrubbed.contexts (hR : Contexts s.mem R) : Contexts s'.mem R :=
  ⟨fun _ hr _ _ _ hπ hρ hf hf' => hR.tree hr hπ hρ (h.path_mono hf) (h.path_mono hf'),
    fun _ _ _ _ _ hr hr' hπ hρ hf hf' =>
      hR.depth hr hr' hπ hρ (h.path_mono hf) (h.path_mono hf')⟩

theorem Scrubbed.tableIn (hf : TableIn s'.mem R f) : TableIn s.mem R f := by
  obtain ⟨r, hr, π, hπ, hf⟩ := hf
  exact ⟨r, hr, π, hπ, h.path_mono hf⟩

end Scrubbed

end Pbos.Hal
