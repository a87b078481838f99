import Mathlib

/-!
# Lib/Radix — trees of tables kept in one memory

    root ──i──▸ table ──j──▸ table ──k──▸ …

A memory gives every table its entries, and `child` reads off an entry the table below it, if there
is one.  A path of indices leads from a root to a table (`follow`).  When no table is reached by two
paths (`Tree`), an edit at one path is not seen at any other: `follow_link` and `leaf_write` say
what the two edits of such a tree do, hanging a fresh table below an entry and writing an entry of a
table at the bottom.  `Forest` is the same for several roots whose trees may share tables.  When a
table lies on the same path from every root that has it (`Aligned`), a root may also take over
entries of another one (`overlay`).
-/

namespace Radix

open List

variable {F I E : Type*} (child : E → Option F)

/-- The table a path leads to. -/
def follow (mem : F → I → E) : F → List I → Option F
  | f, [] => some f
  | f, i :: π => (child (mem f i)).bind fun g => follow mem g π

variable {child} {mem mem' : F → I → E} {root f g : F} {i j : I} {π ρ α : List I} {d : ℕ} {e z : E}

@[simp] theorem follow_nil : follow child mem f [] = some f := rfl

theorem follow_cons : follow child mem f (i :: π) =
    (child (mem f i)).bind fun g => follow child mem g π := rfl

theorem follow_append : follow child mem f (π ++ ρ) =
    (follow child mem f π).bind fun g => follow child mem g ρ := by
  induction π generalizing f with
  | nil => rfl
  | cons i π ih =>
    rw [cons_append, follow_cons, follow_cons, Option.bind_assoc]
    exact congrArg _ (funext fun g => ih)

theorem follow_concat (h : follow child mem root α = some f) :
    follow child mem root (α ++ [i]) = child (mem f i) := by
  rw [follow_append, h, Option.bind_some, follow_cons]
  cases child (mem f i) <;> rfl

theorem follow_concat_eq_some : follow child mem root (π ++ [i]) = some g ↔
    ∃ f, follow child mem root π = some f ∧ child (mem f i) = some g := by
  rw [follow_append, Option.bind_eq_some_iff]
  refine exists_congr fun f => and_congr_right fun _ => ?_
  rw [follow_cons]
  cases child (mem f i) <;> rfl

/-- **A path reads only the entries it passes.** -/
theorem follow_congr (h : ∀ α i β g, π = α ++ i :: β → follow child mem f α = some g →
      child (mem' g i) = child (mem g i)) :
    follow child mem' f π = follow child mem f π := by
  induction π generalizing f with
  | nil => rfl
  | cons i π ih =>
    rw [follow_cons, follow_cons, h [] i π f rfl rfl]
    cases hc : child (mem f i) with
    | none => rfl
    | some g =>
      refine ih fun α j β g' hπ hg' => h (i :: α) j β g' (by rw [hπ]; rfl) ?_
      rw [follow_cons, hc]
      exact hg'

/-- Where every entry names what it named before or nothing, no path is new. -/
theorem follow_mono (h : ∀ g i x, child (mem' g i) = some x → child (mem g i) = some x)
    (hπ : follow child mem' f π = some g) : follow child mem f π = some g := by
  induction π generalizing f with
  | nil => exact hπ
  | cons i π ih =>
    rw [follow_cons] at hπ ⊢
    obtain ⟨x, hx, hπ⟩ := Option.bind_eq_some_iff.mp hπ
    rw [h f i x hx]
    exact ih hπ

/-! ## Trees -/

variable (child mem root d) in
/-- No table is reached by two paths of at most `d` indices. -/
def Tree : Prop := ∀ ⦃π ρ f⦄, π.length ≤ d → ρ.length ≤ d →
  follow child mem root π = some f → follow child mem root ρ = some f → π = ρ

variable (child mem root d) in
/-- A table of the tree. -/
def IsTable (f : F) : Prop := ∃ π : List I, π.length ≤ d ∧ follow child mem root π = some f

theorem Tree.congr (h : Tree child mem root d)
    (heq : ∀ π, π.length ≤ d → follow child mem' root π = follow child mem root π) :
    Tree child mem' root d := fun π ρ _ hπ hρ h1 h2 =>
  h hπ hρ ((heq π hπ).symm.trans h1) ((heq ρ hρ).symm.trans h2)

theorem isTable_congr
    (heq : ∀ π, π.length ≤ d → follow child mem' root π = follow child mem root π) :
    IsTable child mem' root d f ↔ IsTable child mem root d f :=
  ⟨fun ⟨π, hπ, hf⟩ => ⟨π, hπ, (heq π hπ).symm.trans hf⟩,
    fun ⟨π, hπ, hf⟩ => ⟨π, hπ, (heq π hπ).trans hf⟩⟩

variable (child) in
/-- The entry a path and an index lead to. -/
def leaf (mem : F → I → E) (root : F) (π : List I) (i : I) : Option E :=
  (follow child mem root π).map fun f => mem f i

theorem leaf_eq_none (h : follow child mem root π = none) : leaf child mem root π i = none := by
  rw [leaf, h]
  rfl

theorem leaf_eq_some (h : follow child mem root π = some f) :
    leaf child mem root π i = some (mem f i) := by
  rw [leaf, h]
  rfl

/-! ## Several roots -/

variable {roots : Set F} {r r' r₀ t : F}

variable (child mem d roots) in
/-- The trees of several roots.  They may share tables, but only at the same depth. -/
structure Forest : Prop where
  tree : ∀ ⦃r⦄, r ∈ roots → Tree child mem r d
  depth : ∀ ⦃r r' π ρ f⦄, r ∈ roots → r' ∈ roots → π.length ≤ d → ρ.length ≤ d →
    follow child mem r π = some f → follow child mem r' ρ = some f → π.length = ρ.length

variable (child mem d roots) in
/-- A table of one of the trees. -/
def TableOf (f : F) : Prop := ∃ r ∈ roots, IsTable child mem r d f

variable (child mem mem' d roots) in
/-- The tables of `mem` are in `mem'` where they were, and what is there besides is new. -/
structure Extends : Prop where
  mono : ∀ ⦃r π f⦄, r ∈ roots → π.length ≤ d → follow child mem r π = some f →
    follow child mem' r π = some f
  back : ∀ ⦃r π f⦄, r ∈ roots → π.length ≤ d → follow child mem' r π = some f →
    TableOf child mem d roots f → follow child mem r π = some f

theorem Extends.refl : Extends child mem mem d roots :=
  ⟨fun _ _ _ _ _ h => h, fun _ _ _ _ _ h _ => h⟩

theorem Extends.tableOf (h : Extends child mem mem' d roots) (hf : TableOf child mem d roots f) :
    TableOf child mem' d roots f := by
  obtain ⟨r, hr, π, hπ, hf⟩ := hf
  exact ⟨r, hr, π, hπ, h.mono hr hπ hf⟩

theorem Extends.trans {mem'' : F → I → E} (h : Extends child mem mem' d roots)
    (h' : Extends child mem' mem'' d roots) : Extends child mem mem'' d roots :=
  ⟨fun _ _ _ hr hπ hf => h'.mono hr hπ (h.mono hr hπ hf),
    fun _ _ _ hr hπ hf ht => h.back hr hπ (h'.back hr hπ hf (h.tableOf ht)) ht⟩

/-- Where all paths are the same, so are the trees. -/
theorem Forest.congr (h : Forest child mem d roots)
    (heq : ∀ r ∈ roots, ∀ π, π.length ≤ d → follow child mem' r π = follow child mem r π) :
    Forest child mem' d roots ∧ Extends child mem mem' d roots where
  left := ⟨fun r hr => (h.tree hr).congr (heq r hr), fun r r' π ρ _ hr hr' hπ hρ h₁ h₂ =>
    h.depth hr hr' hπ hρ ((heq r hr π hπ).symm.trans h₁) ((heq r' hr' ρ hρ).symm.trans h₂)⟩
  right := ⟨fun r π _ hr hπ hf => (heq r hr π hπ).trans hf,
    fun r π _ hr hπ hf _ => (heq r hr π hπ).symm.trans hf⟩

variable (child mem d roots) in
/-- A table lies on one path, whichever root it is reached from. -/
def Aligned : Prop := ∀ ⦃r r' π ρ f⦄, r ∈ roots → r' ∈ roots → π.length ≤ d → ρ.length ≤ d →
  follow child mem r π = some f → follow child mem r' ρ = some f → π = ρ

section

variable (h : Aligned child mem d roots)

include h

theorem Aligned.forest : Forest child mem d roots where
  tree _ hr _ _ _ hπ hρ hf hf' := h hr hr hπ hρ hf hf'
  depth _ _ _ _ _ hr hr' hπ hρ hf hf' := congrArg List.length (h hr hr' hπ hρ hf hf')

/-- No root lies below another one. -/
theorem Aligned.eq_nil (hr : r ∈ roots) (hr' : r' ∈ roots) (hπ : π.length ≤ d)
    (hf : follow child mem r π = some r') : π = [] :=
  h hr hr' hπ (Nat.zero_le d) hf follow_nil

/-- Where there are no new paths, nothing gets on two of them. -/
theorem Aligned.mono (hsub : ∀ r ∈ roots, ∀ π f, π.length ≤ d → follow child mem' r π = some f →
      follow child mem r π = some f) : Aligned child mem' d roots :=
  fun r r' π ρ f hr hr' hπ hρ hf hf' =>
    h hr hr' hπ hρ (hsub r hr π f hπ hf) (hsub r' hr' ρ f hρ hf')

end

/-! ## Writing -/

variable [DecidableEq F] [DecidableEq I]

/-- Store an entry. -/
def write (mem : F → I → E) (f : F) (i : I) (e : E) : F → I → E :=
  fun g j => if g = f ∧ j = i then e else mem g j

/-- Store one entry all over a table. -/
def fill (mem : F → I → E) (g : F) (z : E) : F → I → E := fun f i => if f = g then z else mem f i

@[simp] theorem write_self : write mem f i e f i = e := if_pos ⟨rfl, rfl⟩

theorem write_of_ne (h : ¬ (g = f ∧ j = i)) : write mem f i e g j = mem g j := if_neg h

theorem write_write {e' : E} : write (write mem f i e) f i e' = write mem f i e' := by
  funext g j
  by_cases h : g = f ∧ j = i
  · rw [h.1, h.2, write_self, write_self]
  · rw [write_of_ne h, write_of_ne h, write_of_ne h]

omit [DecidableEq I] in
@[simp] theorem fill_self : fill mem g z g i = z := if_pos rfl

omit [DecidableEq I] in
theorem fill_of_ne (h : f ≠ g) : fill mem g z f i = mem f i := if_neg h

/-- An entry that names the same table as before changes no path. -/
theorem follow_write_of_child (h : child e = child (mem f i)) :
    follow child (write mem f i e) root π = follow child mem root π := by
  refine follow_congr fun α j β g _ _ => ?_
  by_cases hg : g = f ∧ j = i
  · rw [hg.1, hg.2, write_self, h]
  · rw [write_of_ne hg]

/-- An entry that names no table makes no new path. -/
theorem follow_of_write (he : child e = none) (h : follow child (write mem f i e) r π = some t) :
    follow child mem r π = some t := by
  induction π generalizing r with
  | nil => exact h
  | cons j π ih =>
    rw [follow_cons] at h ⊢
    obtain ⟨g, hg, h⟩ := Option.bind_eq_some_iff.mp h
    have hne : ¬ (r = f ∧ j = i) := by
      rintro ⟨rfl, rfl⟩
      rw [write_self, he] at hg
      cases hg
    rw [write_of_ne hne] at hg
    rw [hg]
    exact ih h

/-! ## Writing at the bottom -/

/-- **An entry of a table at the bottom is on no path.** -/
theorem follow_write (ht : Tree child mem root d) (hα : follow child mem root α = some f)
    (hd : α.length = d) (hπ : π.length ≤ d) :
    follow child (write mem f i e) root π = follow child mem root π := by
  refine follow_congr fun α' j β g hsplit hg => ?_
  have hlen : α'.length < d := by rw [hsplit, length_append, length_cons] at hπ; omega
  by_cases hgf : g = f ∧ j = i
  · rw [ht hlen.le hd.le (hgf.1 ▸ hg) hα] at hlen
    omega
  · rw [write_of_ne hgf]

/-- **Writing an entry of a table at the bottom changes what its path leads to, and nothing
else.** -/
theorem leaf_write (ht : Tree child mem root d) (hα : follow child mem root α = some f)
    (hd : α.length = d) (hπ : π.length = d) :
    leaf child (write mem f i e) root π j =
      if π = α ∧ j = i then some e else leaf child mem root π j := by
  unfold leaf
  rw [follow_write ht hα hd hπ.le]
  by_cases h : π = α ∧ j = i
  · rw [if_pos h, h.1, h.2, hα, Option.map_some, write_self]
  · rw [if_neg h]
    cases hg : follow child mem root π with
    | none => rfl
    | some g =>
      have hgf : ¬ (g = f ∧ j = i) := fun hgf =>
        h ⟨ht hπ.le hd.le (hgf.1 ▸ hg) hα, hgf.2⟩
      rw [Option.map_some, Option.map_some, write_of_ne hgf]

/-! ## Hanging a fresh table below an entry -/

/-- Let the entry name the table `g`, and clear that table. -/
def link (mem : F → I → E) (f : F) (i : I) (e : E) (g : F) (z : E) : F → I → E :=
  fill (write mem f i e) g z

/-- An entry of a table at the bottom is on no path from any root. -/
theorem Forest.follow_write (h : Forest child mem d roots) (hr₀ : r₀ ∈ roots)
    (hα : follow child mem r₀ α = some f) (hd : α.length = d) (hr : r ∈ roots)
    (hπ : π.length ≤ d) :
    follow child (write mem f i e) r π = follow child mem r π := by
  refine follow_congr fun α' j β g hsplit hg => ?_
  have hlen : α'.length < d := by rw [hsplit, length_append, length_cons] at hπ; omega
  by_cases hgf : g = f ∧ j = i
  · have := h.depth hr hr₀ hlen.le hd.le (hgf.1 ▸ hg) hα
    omega
  · rw [write_of_ne hgf]

section Link

variable (hnone : child (mem f i) = none) (he : child e = some g) (hz : child z = none)
  (hfresh : ¬ TableOf child mem d roots g) (hr : r ∈ roots) (hr' : r' ∈ roots)

include hnone hfresh hr in
theorem follow_link_mono (hπ : π.length ≤ d) (ht : follow child mem r π = some t) :
    follow child (link mem f i e g z) r π = some t := by
  refine (follow_congr fun α' j β g' hsplit hg' => ?_).trans ht
  have hlen : α'.length ≤ d := by rw [hsplit, length_append] at hπ; omega
  have hg : g' ≠ g := fun heq => hfresh ⟨r, hr, α', hlen, heq ▸ hg'⟩
  have hne : ¬ (g' = f ∧ j = i) := by
    rintro ⟨rfl, rfl⟩
    rw [hsplit, follow_append, hg', Option.bind_some, follow_cons, hnone] at ht
    cases ht
  rw [link, fill_of_ne hg, write_of_ne hne]

include he hz hfresh hr in
/-- **What is reached behind a fresh table that has been hung below an entry**: what was reached
before, or the new table by a path through the entry. -/
theorem follow_link_cases (hπ : π.length ≤ d)
    (ht : follow child (link mem f i e g z) r π = some t) :
    follow child mem r π = some t ∨
      t = g ∧ ∃ β, π = β ++ [i] ∧ β.length ≤ d ∧ follow child mem r β = some f := by
  induction π using List.reverseRecOn generalizing t with
  | nil => exact .inl ht
  | append_singleton π j ih =>
    have hlen : π.length ≤ d := by rw [length_append] at hπ; omega
    obtain ⟨u, hu, hchild⟩ := follow_concat_eq_some.mp ht
    rcases ih hlen hu with hold | ⟨rfl, -⟩
    · have hug : u ≠ g := fun heq => hfresh ⟨r, hr, π, hlen, heq ▸ hold⟩
      rw [link, fill_of_ne hug] at hchild
      by_cases huf : u = f ∧ j = i
      · rw [huf.1, huf.2, write_self, he] at hchild
        exact .inr ⟨(Option.some.inj hchild).symm, π, by rw [huf.2], hlen, huf.1 ▸ hold⟩
      · rw [write_of_ne huf] at hchild
        exact .inl ((follow_concat hold).trans hchild)
    · rw [link, fill_self, hz] at hchild
      cases hchild

include he hz hfresh hr hr' in
/-- Two paths to one table: both were there before, or both pass the entry. -/
theorem follow_link_both (hπ : π.length ≤ d) (hρ : ρ.length ≤ d)
    (h₁ : follow child (link mem f i e g z) r π = some t)
    (h₂ : follow child (link mem f i e g z) r' ρ = some t) :
    follow child mem r π = some t ∧ follow child mem r' ρ = some t ∨
      ∃ β γ, π = β ++ [i] ∧ ρ = γ ++ [i] ∧ β.length ≤ d ∧ γ.length ≤ d ∧
        follow child mem r β = some f ∧ follow child mem r' γ = some f := by
  rcases follow_link_cases he hz hfresh hr hπ h₁ with hold | ⟨rfl, β, rfl, hβ, hβf⟩ <;>
  rcases follow_link_cases he hz hfresh hr' hρ h₂ with hold' | ⟨ht, γ, rfl, hγ, hγf⟩
  · exact .inl ⟨hold, hold'⟩
  · exact absurd ⟨r, hr, π, hπ, ht ▸ hold⟩ hfresh
  · exact absurd ⟨r', hr', ρ, hρ, hold'⟩ hfresh
  · exact .inr ⟨β, γ, rfl, rfl, hβ, hγ, hβf, hγf⟩

include he hz hfresh hnone in
theorem Forest.link (h : Forest child mem d roots) :
    Forest child (Radix.link mem f i e g z) d roots ∧
      Extends child mem (Radix.link mem f i e g z) d roots where
  left.tree r hr π ρ t hπ hρ h₁ h₂ := by
    obtain ⟨h₁, h₂⟩ | ⟨β, γ, rfl, rfl, hβ, hγ, hβf, hγf⟩ :=
      follow_link_both he hz hfresh hr hr hπ hρ h₁ h₂
    · exact h.tree hr hπ hρ h₁ h₂
    · rw [h.tree hr hβ hγ hβf hγf]
  left.depth r r' π ρ t hr hr' hπ hρ h₁ h₂ := by
    obtain ⟨h₁, h₂⟩ | ⟨β, γ, rfl, rfl, hβ, hγ, hβf, hγf⟩ :=
      follow_link_both he hz hfresh hr hr' hπ hρ h₁ h₂
    · exact h.depth hr hr' hπ hρ h₁ h₂
    · rw [length_append, length_append, h.depth hr hr' hβ hγ hβf hγf]
  right.mono _ _ _ hr hπ hf := follow_link_mono hnone hfresh hr hπ hf
  right.back r π t hr hπ ht hold := by
    rcases follow_link_cases he hz hfresh hr hπ ht with ht | ⟨rfl, -⟩
    · exact ht
    · exact absurd hold hfresh

include he hz hfresh in
theorem TableOf.of_link (ht : TableOf child (Radix.link mem f i e g z) d roots t) :
    TableOf child mem d roots t ∨ t = g := by
  obtain ⟨r, hr, π, hπ, ht⟩ := ht
  rcases follow_link_cases he hz hfresh hr hπ ht with ht | ⟨rfl, -⟩
  · exact .inl ⟨r, hr, π, hπ, ht⟩
  · exact .inr rfl

end Link

/-! ## One root -/

section Link

variable (ht : Tree child mem root d) (hα : follow child mem root α = some f) (hd : α.length < d)
  (hnone : child (mem f i) = none) (he : child e = some g) (hz : child z = none)
  (hfresh : ¬ IsTable child mem root d g)

omit [DecidableEq F] [DecidableEq I] in
include hfresh in
theorem fresh_ne (hπ : π.length ≤ d) (hg : follow child mem root π = some f) : f ≠ g :=
  fun h => hfresh ⟨π, hπ, h ▸ hg⟩

omit [DecidableEq F] [DecidableEq I] in
include hfresh in
theorem not_tableOf_singleton : ¬ TableOf child mem d {root} g := by
  rintro ⟨r, rfl, h⟩
  exact hfresh h

include ht hα hd hnone he hz hfresh in
/-- **Hanging a fresh table below an empty entry adds one path.** -/
theorem follow_link (hπ : π.length ≤ d) : follow child (link mem f i e g z) root π =
    if π = α ++ [i] then some g else follow child mem root π := by
  have hfresh' := not_tableOf_singleton hfresh
  split
  · next heq =>
    rw [heq, follow_concat (follow_link_mono hnone hfresh' rfl hd.le hα), link,
      fill_of_ne (fresh_ne hfresh hd.le hα), write_self, he]
  · next hne =>
    cases hold : follow child mem root π with
    | some t => exact follow_link_mono hnone hfresh' rfl hπ hold
    | none =>
      refine Option.eq_none_iff_forall_ne_some.mpr fun t ht' => ?_
      rcases follow_link_cases he hz hfresh' rfl hπ ht' with h | ⟨-, β, rfl, hβ, hβf⟩
      · exact absurd (hold.symm.trans h) nofun
      · exact hne (by rw [ht hβ hd.le hβf hα])

include ht hα hd hnone he hz hfresh in
theorem isTable_link_iff {f' : F} : IsTable child (link mem f i e g z) root d f' ↔
    IsTable child mem root d f' ∨ f' = g := by
  have hold : follow child mem root (α ++ [i]) = none := by rw [follow_concat hα, hnone]
  constructor
  · rintro ⟨π, hπ, hf⟩
    rw [follow_link ht hα hd hnone he hz hfresh hπ] at hf
    split at hf
    · exact .inr (Option.some.inj hf).symm
    · exact .inl ⟨π, hπ, hf⟩
  · rintro (⟨π, hπ, hf⟩ | rfl)
    · refine ⟨π, hπ, ?_⟩
      rw [follow_link ht hα hd hnone he hz hfresh hπ, if_neg, hf]
      rintro rfl
      rw [hold] at hf
      cases hf
    · have hlen : (α ++ [i]).length ≤ d := by simpa using Nat.succ_le_of_lt hd
      exact ⟨α ++ [i], hlen, by rw [follow_link ht hα hd hnone he hz hfresh hlen, if_pos rfl]⟩

include ht he hz hfresh in
theorem Tree.link : Tree child (link mem f i e g z) root d := by
  intro π ρ f' hπ hρ h1 h2
  obtain ⟨h1, h2⟩ | ⟨β, γ, rfl, rfl, hβ, hγ, hβf, hγf⟩ := follow_link_both he hz
    (not_tableOf_singleton hfresh) rfl rfl hπ hρ h1 h2
  · exact ht hπ hρ h1 h2
  · rw [ht hβ hγ hβf hγf]

include ht hα hd hnone he hz hfresh in
/-- **Below the new table there are empty entries; all others stay.** -/
theorem leaf_link (hπ : π.length = d) : leaf child (Radix.link mem f i e g z) root π j =
    if π = α ++ [i] then some z else leaf child mem root π j := by
  unfold leaf
  rw [follow_link ht hα hd hnone he hz hfresh hπ.le]
  split
  · rw [Option.map_some, Radix.link, fill_self]
  · cases hg : follow child mem root π with
    | none => rfl
    | some g' =>
      have hgf : ¬ (g' = f ∧ j = i) := by
        rintro ⟨rfl, -⟩
        rw [ht hπ.le hd.le hg hα] at hπ
        omega
      rw [Option.map_some, Option.map_some, Radix.link,
        fill_of_ne (fresh_ne hfresh hπ.le hg), write_of_ne hgf]

end Link

/-! ## Roots that share tables along the same path -/

/-- A fresh table hung below an entry lies on the path through that entry. -/
theorem Aligned.link (h : Aligned child mem d roots) (he : child e = some g) (hz : child z = none)
    (hfresh : ¬ TableOf child mem d roots g) :
    Aligned child (Radix.link mem f i e g z) d roots := by
  intro r r' π ρ t hr hr' hπ hρ h₁ h₂
  obtain ⟨h₁, h₂⟩ | ⟨β, γ, rfl, rfl, hβ, hγ, hβf, hγf⟩ :=
    follow_link_both he hz hfresh hr hr' hπ hρ h₁ h₂
  · exact h hr hr' hπ hρ h₁ h₂
  · rw [h hr hr' hβ hγ hβf hγf]

/-! ### Taking over entries of another root -/

section Overlay

variable {dest src : F} {S : I → Prop} [DecidablePred S]

omit [DecidableEq I]

variable (mem dest src S) in
/-- Let the entries of `dest` at the indices in `S` be those of `src`. -/
def overlay : F → I → E := fun f i => if f = dest ∧ S i then mem src i else mem f i

theorem overlay_of_mem (hi : S i) : overlay mem dest src S dest i = mem src i := if_pos ⟨rfl, hi⟩

theorem overlay_of_ne (hf : f ≠ dest) : overlay mem dest src S f i = mem f i :=
  if_neg fun h => hf h.1

variable (h : Aligned child mem d roots) (hdest : dest ∈ roots) (hsrc : src ∈ roots)
  (hr : r ∈ roots)

include h hdest hsrc hr in
/-- **A path from `dest` through an entry that was taken over is one of `src`**; the others are as
they were. -/
theorem Aligned.follow_overlay (hπ : (i :: π).length ≤ d) :
    follow child (overlay mem dest src S) r (i :: π) =
      follow child mem (if r = dest ∧ S i then src else r) (i :: π) := by
  have hroot : (if r = dest ∧ S i then src else r) ∈ roots := by
    split
    · exact hsrc
    · exact hr
  have hentry : overlay mem dest src S r i = mem (if r = dest ∧ S i then src else r) i := by
    unfold overlay
    split <;> rfl
  rw [follow_cons, follow_cons, hentry]
  cases hg : child (mem (if r = dest ∧ S i then src else r) i) with
  | none => rfl
  | some g =>
    refine follow_congr fun α j β g' hsplit hg' => ?_
    have hlen : (i :: α).length ≤ d := by
      rw [hsplit] at hπ
      simp only [length_cons, length_append] at hπ ⊢
      omega
    have hpath : follow child mem (if r = dest ∧ S i then src else r) (i :: α) = some g' := by
      rw [follow_cons, hg]
      exact hg'
    rw [overlay_of_ne]
    rintro rfl
    exact cons_ne_nil _ _ (h.eq_nil hroot hdest hlen hpath)

include h hdest hsrc in
theorem Aligned.overlay : Aligned child (overlay mem dest src S) d roots := by
  intro r r' π ρ f hr hr' hπ hρ hf hf'
  have hback : ∀ {r₀ i ρ'}, r₀ ∈ roots → (i :: ρ').length ≤ d →
      follow child (Radix.overlay mem dest src S) r₀ (i :: ρ') = some f →
      ∃ r₁ ∈ roots, follow child mem r₁ (i :: ρ') = some f := fun {r₀ i ρ'} hr₀ hlen hp => by
    rw [h.follow_overlay hdest hsrc hr₀ hlen] at hp
    refine ⟨_, ?_, hp⟩
    split
    · exact hsrc
    · exact hr₀
  cases π with
  | nil =>
    cases ρ with
    | nil => rfl
    | cons j ρ =>
      obtain rfl : r = f := Option.some.inj hf
      obtain ⟨r₁, hr₁, hp⟩ := hback hr' hρ hf'
      exact (h.eq_nil hr₁ hr hρ hp).symm
  | cons i π =>
    obtain ⟨r₁, hr₁, hp⟩ := hback hr hπ hf
    cases ρ with
    | nil =>
      obtain rfl : r' = f := Option.some.inj hf'
      exact h.eq_nil hr₁ hr' hπ hp
    | cons j ρ =>
      obtain ⟨r₂, hr₂, hp'⟩ := hback hr' hρ hf'
      exact h hr₁ hr₂ hπ hρ hp hp'

include h hdest hsrc in
theorem Aligned.tableOf_overlay (hf : TableOf child (Radix.overlay mem dest src S) d roots f) :
    TableOf child mem d roots f := by
  obtain ⟨r, hr, π, hπ, hf⟩ := hf
  cases π with
  | nil => exact ⟨r, hr, [], hπ, hf⟩
  | cons i π =>
    rw [h.follow_overlay hdest hsrc hr hπ] at hf
    refine ⟨_, ?_, i :: π, hπ, hf⟩
    split
    · exact hsrc
    · exact hr

end Overlay

end Radix
