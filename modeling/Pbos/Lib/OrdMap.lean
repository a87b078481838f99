import Mathlib

/-!
# Lib/OrdMap — finite maps as strictly sorted association lists

`OrdMap κ ν` is the abstract face of an ordered search tree: the entries in increasing key order,
the order carried as a field.  Everything about a map is read through `find`; `findMaxLteq` is the
predecessor search, characterised by `findMaxLteq_eq_some_iff` and `findMaxLteq_eq_none_iff`.
-/

/-- A finite map: its entries, listed in strictly increasing key order. -/
structure OrdMap (κ : Type*) (ν : Type*) [LinearOrder κ] where
  entries : List (κ × ν)
  sorted : entries.Pairwise fun a b => a.1 < b.1
  deriving DecidableEq

namespace OrdMap

open List

variable {κ ν μ : Type*} [LinearOrder κ] {k : κ} {v : ν} {e : κ × ν}

/-! ## Operations -/

/-- The map without entries. -/
def empty : OrdMap κ ν := ⟨[], List.Pairwise.nil⟩

variable (m : OrdMap κ ν)

/-- The value stored at a key. -/
def find (k : κ) : Option ν := (m.entries.find? fun e => e.1 = k).map (·.2)

/-- The entry with the greatest key not above `k`. -/
def findMaxLteq (k : κ) : Option (κ × ν) :=
  (m.entries.filter fun e => e.1 ≤ k).getLast?

/-- The entry with the least key. -/
def first : Option (κ × ν) := m.entries.head?

/-- The entry with the least key above `k`. -/
def next (k : κ) : Option (κ × ν) := m.entries.find? fun e => k < e.1

/-- The number of entries. -/
def size : ℕ := m.entries.length

/-- The keys, in increasing order. -/
def keys : List κ := m.entries.map (·.1)

/-- Store `v` at `k`, replacing what was there. -/
def insert (k : κ) (v : ν) : OrdMap κ ν where
  entries := (m.entries.filter fun e => e.1 < k) ++ (k, v) :: m.entries.filter fun e => k < e.1
  sorted := by
    refine pairwise_append.mpr ⟨m.sorted.filter _, pairwise_cons.mpr
      ⟨fun e he => ?_, m.sorted.filter _⟩, fun a ha b hb => ?_⟩
    · simpa using (mem_filter.mp he).2
    · have hak : a.1 < k := by simpa using (mem_filter.mp ha).2
      rcases mem_cons.mp hb with rfl | hb
      · exact hak
      · exact hak.trans (by simpa using (mem_filter.mp hb).2)

/-- Drop the entry at `k`. -/
def erase (k : κ) : OrdMap κ ν where
  entries := m.entries.filter fun e => e.1 ≠ k
  sorted := m.sorted.filter _

/-- Apply `f` to the value stored at `k`. -/
def modify (k : κ) (f : ν → ν) : OrdMap κ ν where
  entries := m.entries.map fun e => if e.1 = k then (e.1, f e.2) else e
  sorted := by
    refine pairwise_map.mpr (m.sorted.imp fun {a b} h => ?_)
    split <;> split <;> exact h

/-- Apply `f` to every value. -/
def mapVal (f : ν → μ) : OrdMap κ μ where
  entries := m.entries.map fun e => (e.1, f e.2)
  sorted := pairwise_map.mpr m.sorted

/-! ## Membership and `find` -/

/-- **Entries with one key are one entry.** -/
theorem eq_of_mem_of_key_eq {a b : κ × ν} (ha : a ∈ m.entries) (hb : b ∈ m.entries) (h : a.1 = b.1)
    : a = b := by
  obtain ⟨i, hi, rfl⟩ := List.getElem_of_mem ha
  obtain ⟨j, hj, rfl⟩ := List.getElem_of_mem hb
  rcases lt_trichotomy i j with hij | rfl | hij
  · exact absurd h (pairwise_iff_getElem.mp m.sorted i j hi hj hij).ne
  · rfl
  · exact absurd h (pairwise_iff_getElem.mp m.sorted j i hj hi hij).ne'

/-- **`find` reads the entries.** -/
theorem find_eq_some_iff : m.find k = some v ↔ (k, v) ∈ m.entries := by
  constructor
  · intro h
    obtain ⟨e, he, rfl⟩ := Option.map_eq_some_iff.mp h
    have hk : e.1 = k := by simpa using List.find?_some he
    exact hk ▸ mem_of_find?_eq_some he
  · intro h
    have hsome : (m.entries.find? fun e => e.1 = k).isSome := by
      rw [List.find?_isSome]
      exact ⟨(k, v), h, by simp⟩
    obtain ⟨e, he⟩ := Option.isSome_iff_exists.mp hsome
    have hk : e.1 = k := by simpa using List.find?_some he
    have : e = (k, v) := m.eq_of_mem_of_key_eq (mem_of_find?_eq_some he) h hk
    rw [find, he, this]
    rfl

/-- An entry is found at its key. -/
theorem find_of_mem (h : e ∈ m.entries) : m.find e.1 = some e.2 := m.find_eq_some_iff.mpr h

/-- **Two maps that find the same values are the same map.** -/
theorem ext_find {m m' : OrdMap κ ν} (h : ∀ k, m.find k = m'.find k) : m = m' := by
  have hmem : ∀ e, e ∈ m.entries ↔ e ∈ m'.entries := fun e => by
    rw [← find_eq_some_iff, ← find_eq_some_iff, h]
  have hnd : ∀ m : OrdMap κ ν, m.entries.Nodup := fun m =>
    m.sorted.imp fun hab heq => hab.ne (congrArg Prod.fst heq)
  have hperm : m.entries.Perm m'.entries := (perm_ext_iff_of_nodup (hnd m) (hnd m')).mpr hmem
  have heq : m.entries = m'.entries := by
    refine hperm.eq_of_pairwise (fun a b _ _ hab hba => ?_) m.sorted m'.sorted
    exact absurd (hab.trans hba) (lt_irrefl _)
  obtain ⟨l, hl⟩ := m
  obtain ⟨l', hl'⟩ := m'
  obtain rfl : l = l' := heq
  rfl

@[simp] theorem find_empty (k : κ) : (empty : OrdMap κ ν).find k = none := rfl

@[simp] theorem find_insert (k k' : κ) (v : ν) :
    (m.insert k v).find k' = if k' = k then some v else m.find k' := by
  refine Option.ext fun w => ?_
  split
  · subst k'
    rw [find_eq_some_iff]
    simp [insert, eq_comm]
  · rename_i hne
    rw [find_eq_some_iff, find_eq_some_iff]
    rcases lt_or_gt_of_ne hne with hlt | hgt
    · simp [insert, hlt, hne, hlt.not_gt]
    · simp [insert, hgt, hne, hgt.not_gt]

@[simp] theorem find_erase (k k' : κ) :
    (m.erase k).find k' = if k' = k then none else m.find k' := by
  refine Option.ext fun w => ?_
  split
  · subst k'
    rw [find_eq_some_iff]
    simp [erase]
  · rename_i hne
    rw [find_eq_some_iff, find_eq_some_iff]
    simp [erase, hne]

@[simp] theorem find_modify (k k' : κ) (f : ν → ν) :
    (m.modify k f).find k' = if k' = k then (m.find k').map f else m.find k' := by
  refine Option.ext fun w => ?_
  rw [find_eq_some_iff]
  simp only [modify, mem_map]
  constructor
  · rintro ⟨e, he, heq⟩
    by_cases hk : e.1 = k
    · rw [if_pos hk, Prod.mk.injEq] at heq
      rw [← heq.1, if_pos hk, m.find_of_mem he, ← heq.2]
      rfl
    · rw [if_neg hk] at heq
      have hk' : e.1 = k' := congrArg Prod.fst heq
      rw [← hk', if_neg hk, m.find_of_mem he, heq]
  · intro h
    by_cases hk : k' = k
    · rw [if_pos hk] at h
      obtain ⟨v, hv, rfl⟩ := Option.map_eq_some_iff.mp h
      exact ⟨(k', v), m.find_eq_some_iff.mp hv, by rw [if_pos hk]⟩
    · rw [if_neg hk] at h
      exact ⟨(k', w), m.find_eq_some_iff.mp h, by rw [if_neg hk]⟩

/-- What `modify` does depends on the value at the key only. -/
theorem modify_congr {f g : ν → ν} (h : ∀ v, m.find k = some v → f v = g v) :
    m.modify k f = m.modify k g := by
  refine ext_find fun k' => ?_
  rw [find_modify, find_modify]
  split
  · rename_i hk
    subst hk
    cases hv : m.find k' with
    | none => rfl
    | some v => exact congrArg some (h v hv)
  · rfl

@[simp] theorem find_mapVal (f : ν → μ) (k : κ) : (m.mapVal f).find k = (m.find k).map f := by
  refine Option.ext fun w => ?_
  simp only [mapVal, mem_map, Prod.mk.injEq, Option.map_eq_some_iff, find_eq_some_iff, Prod.exists]
  constructor
  · rintro ⟨k', v, hv, rfl, rfl⟩
    exact ⟨v, hv, rfl⟩
  · rintro ⟨v, hv, rfl⟩
    exact ⟨k, v, hv, rfl, rfl⟩

theorem mem_keys_iff : k ∈ m.keys ↔ ∃ v, m.find k = some v := by
  simp [keys, find_eq_some_iff]

/-! ## Properties of every entry -/

/-- Every entry satisfies `P`. -/
def All (P : κ → ν → Prop) (m : OrdMap κ ν) : Prop := ∀ k v, m.find k = some v → P k v

section All

variable {P : κ → ν → Prop} {m : OrdMap κ ν} {k : κ} {v : ν}

theorem all_empty : (empty : OrdMap κ ν).All P := fun k v h => by cases h

theorem All.insert (h : m.All P) (hv : P k v) : (m.insert k v).All P := by
  intro a w ha
  rw [find_insert] at ha
  split at ha
  · rename_i hak
    cases ha
    exact hak ▸ hv
  · exact h a w ha

theorem All.erase (h : m.All P) (k : κ) : (m.erase k).All P := by
  intro a w ha
  rw [find_erase] at ha
  split at ha
  · cases ha
  · exact h a w ha

theorem All.modify (h : m.All P) {f : ν → ν} (hf : ∀ v, m.find k = some v → P k (f v)) :
    (m.modify k f).All P := by
  intro a w ha
  rw [find_modify] at ha
  split at ha
  · rename_i hak
    subst hak
    obtain ⟨v, hv, rfl⟩ := Option.map_eq_some_iff.mp ha
    exact hf v hv
  · exact h a w ha

end All

/-! ## The predecessor search -/

/-- In a sorted list the last element is the greatest. -/
private theorem getLast?_eq_some_iff_of_pairwise {l : List (κ × ν)}
    (hl : l.Pairwise fun a b => a.1 < b.1) : l.getLast? = some e ↔ e ∈ l ∧ ∀ a ∈ l, a.1 ≤ e.1 := by
  constructor
  · intro h
    obtain ⟨l', rfl⟩ := List.getLast?_eq_some_iff.mp h
    refine ⟨by simp, fun a ha => ?_⟩
    rcases mem_append.mp ha with ha | ha
    · exact ((pairwise_append.mp hl).2.2 a ha e (by simp)).le
    · exact (congrArg Prod.fst (mem_singleton.mp ha)).le
  · rintro ⟨he, hmax⟩
    cases hb : l.getLast? with
    | none => exact absurd (List.getLast?_eq_none_iff.mp hb) (ne_nil_of_mem he)
    | some b =>
      obtain ⟨l', rfl⟩ := List.getLast?_eq_some_iff.mp hb
      rcases mem_append.mp he with he | he
      · have hlt := (pairwise_append.mp hl).2.2 e he b (by simp)
        exact absurd (hmax b (by simp)) hlt.not_ge
      · rw [mem_singleton.mp he]

/-- **The predecessor search finds the greatest key not above `k`.** -/
theorem findMaxLteq_eq_some_iff : m.findMaxLteq k = some e ↔
      e ∈ m.entries ∧ e.1 ≤ k ∧ ∀ a ∈ m.entries, a.1 ≤ k → a.1 ≤ e.1 := by
  rw [findMaxLteq, getLast?_eq_some_iff_of_pairwise (m.sorted.filter _)]
  simp only [mem_filter, decide_eq_true_eq, and_assoc, and_imp]

/-- **…and fails exactly when every key is above `k`.** -/
theorem findMaxLteq_eq_none_iff : m.findMaxLteq k = none ↔ ∀ a ∈ m.entries, k < a.1 := by
  rw [findMaxLteq]
  simp

/-- A key that is present is its own predecessor. -/
theorem findMaxLteq_self (h : m.find k = some v) : m.findMaxLteq k = some (k, v) :=
  m.findMaxLteq_eq_some_iff.mpr ⟨m.find_eq_some_iff.mp h, le_rfl, fun _ _ ha => ha⟩

theorem findMaxLteq_mapVal (f : ν → μ) (k : κ) :
    (m.mapVal f).findMaxLteq k = (m.findMaxLteq k).map fun e => (e.1, f e.2) := by
  simp [findMaxLteq, mapVal, filter_map, Function.comp_def]

/-! ## The successor -/

/-- **The successor is the least key above `k`.** -/
theorem next_eq_some_iff :
    m.next k = some e ↔ e ∈ m.entries ∧ k < e.1 ∧ ∀ a ∈ m.entries, k < a.1 → e.1 ≤ a.1 := by
  have hspec : ∀ {b}, m.next k = some b →
      b ∈ m.entries ∧ k < b.1 ∧ ∀ a ∈ m.entries, k < a.1 → b.1 ≤ a.1 := fun {b} h => by
    have hk : k < b.1 := by simpa using List.find?_some h
    obtain ⟨-, A, B, hAB, hA⟩ := List.find?_eq_some_iff_append.mp h
    refine ⟨mem_of_find?_eq_some h, hk, fun a ha hka => ?_⟩
    rw [hAB, mem_append, mem_cons] at ha
    rcases ha with ha | rfl | ha
    · exact absurd hka (by simpa using hA a ha)
    · exact le_rfl
    · have hs := m.sorted
      rw [hAB] at hs
      exact ((pairwise_cons.mp (pairwise_append.mp hs).2.1).1 a ha).le
  refine ⟨hspec, fun ⟨he, hk, hmin⟩ => ?_⟩
  cases hb : m.next k with
  | none => exact absurd hk (by simpa using List.find?_eq_none.mp hb e he)
  | some b =>
    obtain ⟨hb', hkb, hmin'⟩ := hspec hb
    rw [m.eq_of_mem_of_key_eq hb' he (le_antisymm (hmin' e he hk) (hmin b hb' hkb))]

/-- The neighbours that the map names are keys of the map. -/
theorem find_of_next {k' : κ} (h : (m.next k).map (·.1) = some k') : ∃ v, m.find k' = some v := by
  obtain ⟨e, he, rfl⟩ := Option.map_eq_some_iff.mp h
  exact ⟨e.2, m.find_of_mem (m.next_eq_some_iff.mp he).1⟩

theorem find_of_findMaxLteq {k' : κ} (h : (m.findMaxLteq k).map (·.1) = some k') :
    ∃ v, m.find k' = some v := by
  obtain ⟨e, he, rfl⟩ := Option.map_eq_some_iff.mp h
  exact ⟨e.2, m.find_of_mem (m.findMaxLteq_eq_some_iff.mp he).1⟩

theorem find_of_first (h : m.first.map (·.1) = some k) : ∃ v, m.find k = some v := by
  obtain ⟨e, he, rfl⟩ := Option.map_eq_some_iff.mp h
  exact ⟨e.2, m.find_of_mem (mem_of_mem_head? he)⟩

/-! ## Counting entries -/

/-- **A new entry is counted once.** -/
theorem countP_insert (h : m.find k = none) (v : ν) (p : κ × ν → Bool) :
    (m.insert k v).entries.countP p = m.entries.countP p + if p (k, v) then 1 else 0 := by
  have hne : ∀ e ∈ m.entries, e.1 ≠ k := fun e he hk => by
    rw [← hk, m.find_of_mem he] at h
    exact Option.some_ne_none _ h
  have hsplit : m.entries.countP p = (m.entries.filter fun e => e.1 < k).countP p +
      (m.entries.filter fun e => k < e.1).countP p := by
    have hgt : (m.entries.filter fun e => k < e.1) =
        m.entries.filter fun e => ! decide (e.1 < k) := by
      refine filter_congr fun e he => ?_
      rcases lt_or_gt_of_ne (hne e he) with hlt | hgt
      · simp [hlt, hlt.not_gt]
      · simp [hgt, hgt.not_gt]
    rw [hgt, ← List.countP_append]
    exact (filter_append_perm _ _).countP_eq p |>.symm
  simp only [insert, List.countP_append, List.countP_cons]
  omega

theorem size_insert (h : m.find k = none) (v : ν) : (m.insert k v).size = m.size + 1 := by
  simpa [size] using m.countP_insert h v fun _ => true

/-- **A dropped entry is not counted any more.** -/
theorem countP_erase (h : m.find k = some v) (p : κ × ν → Bool) :
    (m.erase k).entries.countP p + (if p (k, v) then 1 else 0) = m.entries.countP p := by
  have hback : m = (m.erase k).insert k v := by
    refine ext_find fun k' => ?_
    rw [find_insert, find_erase]
    split
    · subst k'
      exact h
    · rfl
  have hnone : (m.erase k).find k = none := by simp
  have hcount := (m.erase k).countP_insert hnone v p
  rw [← hback] at hcount
  exact hcount.symm

theorem size_erase (h : m.find k = some v) : (m.erase k).size + 1 = m.size := by
  simpa [size] using m.countP_erase h fun _ => true

end OrdMap
