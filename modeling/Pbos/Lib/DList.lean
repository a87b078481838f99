import Mathlib

/-!
# Lib/DList — doubly linked lists in a pointer memory

The memory is two link fields, `next` and `prev`, as functions of the node.  `Chain next prev p L e`
says that the nodes of `L` are linked in order, the first one's `prev` is `p` and the last one's
`next` is `e`.  A chain splits at any point (`chain_append`), is a statement about its own nodes
only (`Chain.congr`), and `Chain.unlink` is the removal of a node by patching its two neighbours;
`Chain.insert_iff` is the insertion of one, which also depends on the node's own two links.
`visits_both_iff` reads a list off its two traversals.
-/

namespace DList

open List

variable {α : Type*}

/-- The node a chain starts with, or what comes after it. -/
def headOr : List α → Option α → Option α
  | [], e => e
  | x :: _, _ => some x

/-- The node a chain ends with, or what comes before it. -/
@[simp] def lastOr : Option α → List α → Option α
  | p, [] => p
  | _, x :: xs => lastOr (some x) xs

/-- The nodes of a list, linked in order both ways, between `p` and `e`. -/
def Chain (next prev : α → Option α) : Option α → List α → Option α → Prop
  | _, [], _ => True
  | p, x :: xs, e => prev x = p ∧ next x = headOr xs e ∧ Chain next prev (some x) xs e

variable {next prev next' prev' : α → Option α} {p e p' : Option α} {A B L : List α} {x : α}

@[simp] theorem headOr_nil (e : Option α) : headOr [] e = e := rfl

@[simp] theorem headOr_cons (x : α) (xs : List α) (e : Option α) : headOr (x :: xs) e = some x :=
  rfl

theorem headOr_append (A B : List α) (e : Option α) :
    headOr (A ++ B) e = headOr A (headOr B e) := by
  cases A <;> rfl

theorem lastOr_append (p : Option α) (A B : List α) :
    lastOr p (A ++ B) = lastOr (lastOr p A) B := by
  induction A generalizing p with
  | nil => rfl
  | cons x A ih => exact ih (some x)

theorem headOr_reverse (L : List α) (p : Option α) : headOr L.reverse p = lastOr p L := by
  induction L generalizing p with
  | nil => rfl
  | cons x L ih => rw [reverse_cons, headOr_append, ih]; rfl

theorem lastOr_reverse (L : List α) (e : Option α) : lastOr e L.reverse = headOr L e := by
  rw [← headOr_reverse, reverse_reverse]

/-- What a chain ends with is a node of it, or what came before. -/
theorem lastOr_eq_or_mem (p : Option α) (A : List α) :
    (A = [] ∧ lastOr p A = p) ∨ ∃ x ∈ A, lastOr p A = some x := by
  induction A generalizing p with
  | nil => exact .inl ⟨rfl, rfl⟩
  | cons x A ih =>
    rcases ih (some x) with ⟨rfl, _⟩ | ⟨y, hy, h⟩
    · exact .inr ⟨x, by simp, rfl⟩
    · exact .inr ⟨y, mem_cons_of_mem _ hy, h⟩

/-- What a chain starts with is a node of it, or what comes after. -/
theorem headOr_eq_or_mem (B : List α) (e : Option α) :
    (B = [] ∧ headOr B e = e) ∨ ∃ x ∈ B, headOr B e = some x := by
  cases B with
  | nil => exact .inl ⟨rfl, rfl⟩
  | cons x B => exact .inr ⟨x, by simp, rfl⟩

theorem headOr_eq_none_iff : headOr A none = none ↔ A = [] := by
  cases A <;> simp

theorem mem_of_headOr_eq_some (h : headOr A none = some x) : x ∈ A := by
  cases A with
  | nil => cases h
  | cons y A => exact Option.some.inj h ▸ mem_cons_self

theorem mem_of_lastOr_eq_some (h : lastOr none A = some x) : x ∈ A := by
  rw [← headOr_reverse] at h
  exact mem_reverse.mp (mem_of_headOr_eq_some h)

theorem headOr_erase_of_ne [DecidableEq α] {y : α} (h : headOr A none = some x) (hne : x ≠ y) :
    headOr (A.erase y) none = some x := by
  cases A with
  | nil => cases h
  | cons z A =>
    obtain rfl : z = x := Option.some.inj h
    rw [erase_cons_tail (by simpa using hne)]
    rfl

theorem notMem_of_nodup_middle (h : (A ++ x :: B).Nodup) : x ∉ A :=
  fun hx => (nodup_append.mp h).2.2 x hx x mem_cons_self rfl

theorem erase_middle [DecidableEq α] (hx : x ∉ A) : (A ++ x :: B).erase x = A ++ B := by
  rw [erase_append_right _ hx, erase_cons_head]

/-! ## Chains -/

/-- **A chain splits at any point.** -/
theorem chain_append : Chain next prev p (A ++ B) e ↔
      Chain next prev p A (headOr B e) ∧ Chain next prev (lastOr p A) B e := by
  induction A generalizing p with
  | nil => simp [Chain]
  | cons x A ih => simp only [cons_append, Chain, headOr_append, ih, lastOr, and_assoc]

/-- The links of a node inside a chain. -/
theorem chain_at (h : Chain next prev p (A ++ x :: B) e) :
    prev x = lastOr p A ∧ next x = headOr B e := by
  obtain ⟨-, h⟩ := chain_append.mp h
  exact ⟨h.1, h.2.1⟩

/-- A chain says, node by node, what the two links are. -/
theorem chain_iff : Chain next prev p L e ↔
    ∀ A x B, L = A ++ x :: B → prev x = lastOr p A ∧ next x = headOr B e := by
  constructor
  · rintro h A x B rfl
    exact chain_at h
  · intro h
    induction L generalizing p with
    | nil => trivial
    | cons x L ih =>
      obtain ⟨hp, hn⟩ := h [] x L rfl
      exact ⟨hp, hn, ih fun A y B hL => h (x :: A) y B (by rw [hL, cons_append])⟩

/-- **Read backwards, a chain is a chain with its two links exchanged.** -/
theorem chain_reverse : Chain prev next e L.reverse p ↔ Chain next prev p L e := by
  simp only [chain_iff]
  constructor
  · rintro h A x B rfl
    have h' := h B.reverse x A.reverse (by simp)
    rwa [lastOr_reverse, headOr_reverse, and_comm] at h'
  · intro h A x B hL
    have h' := h B.reverse x A.reverse (by simpa using congrArg List.reverse hL)
    rwa [lastOr_reverse, headOr_reverse, and_comm] at h'

/-- **The links determine the chain**: two chains with one start and an open end are the same. -/
theorem Chain.unique {L' : List α} (h : Chain next prev p L none) (h' : Chain next prev p' L' none)
    (hhead : headOr L none = headOr L' none) : L = L' := by
  induction L generalizing p p' L' with
  | nil => exact (headOr_eq_none_iff.mp hhead.symm).symm
  | cons x L ih =>
    cases L' with
    | nil => cases hhead
    | cons y L' =>
      obtain rfl : x = y := Option.some.inj hhead
      rw [ih h.2.2 h'.2.2 (h.2.1.symm.trans h'.2.1)]

/-- **A chain only reads its own nodes.** -/
theorem Chain.congr (h : Chain next prev p L e) (hn : ∀ x ∈ L, next' x = next x)
    (hp : ∀ x ∈ L, prev' x = prev x) : Chain next' prev' p L e := by
  induction L generalizing p with
  | nil => trivial
  | cons x L ih =>
    obtain ⟨h1, h2, h3⟩ := h
    exact ⟨(hp x (by simp)).trans h1, (hn x (by simp)).trans h2,
      ih h3 (fun y hy => hn y (mem_cons_of_mem _ hy)) fun y hy => hp y (mem_cons_of_mem _ hy)⟩

/-- Redirecting the last node of a chain. -/
theorem Chain.setEnd (h : Chain next prev p L e) (hnd : L.Nodup) {e' : Option α}
    (hlast : ∀ y ∈ L, lastOr p L = some y → next' y = e')
    (hn : ∀ x ∈ L, lastOr p L ≠ some x → next' x = next x) (hp : ∀ x ∈ L, prev' x = prev x) :
    Chain next' prev' p L e' := by
  induction L generalizing p with
  | nil => trivial
  | cons x L ih =>
    obtain ⟨h1, h2, h3⟩ := h
    obtain ⟨hx, hnd⟩ := nodup_cons.mp hnd
    refine ⟨(hp x (by simp)).trans h1, ?_, ih h3 hnd (fun y hy => hlast y (mem_cons_of_mem _ hy))
      (fun y hy => hn y (mem_cons_of_mem _ hy))
      fun y hy => hp y (mem_cons_of_mem _ hy)⟩
    cases L with
    | nil => exact hlast x (by simp) rfl
    | cons y L =>
      refine (hn x (by simp) fun hl => ?_).trans h2
      rcases lastOr_eq_or_mem (some x) (y :: L) with ⟨h, -⟩ | ⟨z, hz, h⟩
      · cases h
      · rw [lastOr, h] at hl
        exact hx (Option.some.inj hl ▸ hz)

/-- Redirecting the first node of a chain. -/
theorem Chain.setStart (h : Chain next prev p L e) (hnd : L.Nodup)
    (hhead : ∀ y ∈ L, headOr L e = some y → prev' y = p')
    (hp : ∀ x ∈ L, headOr L e ≠ some x → prev' x = prev x) (hn : ∀ x ∈ L, next' x = next x) :
    Chain next' prev' p' L e := by
  simp only [← lastOr_reverse, ← @mem_reverse _ _ L] at hhead hp hn
  exact chain_reverse.mp ((chain_reverse.mpr h).setEnd (nodup_reverse.mpr hnd) hhead hp hn)

/-- What a chain ends with is outside anything apart from it. -/
theorem lastOr_ne_of_disjoint (hp : ∀ y ∈ B, p ≠ some y) (hdisj : List.Disjoint A B) :
    ∀ y ∈ B, lastOr p A ≠ some y := by
  intro y hy hl
  rcases lastOr_eq_or_mem p A with ⟨-, h⟩ | ⟨z, hz, h⟩
  · exact hp y hy (h.symm.trans hl)
  · obtain rfl : z = y := Option.some.inj (h.symm.trans hl)
    exact hdisj hz hy

/-- What a chain starts with is outside anything apart from it. -/
theorem headOr_ne_of_disjoint (he : ∀ y ∈ A, e ≠ some y) (hdisj : List.Disjoint A B) :
    ∀ y ∈ A, headOr B e ≠ some y := by
  rw [← lastOr_reverse]
  exact lastOr_ne_of_disjoint he fun y hy hyA => hdisj hyA (mem_reverse.mp hy)

/-- **Patching the neighbours**: `A` ends and `B` starts with another link.  The ends `p` and `e`
are outside, so only the neighbours inside matter. -/
theorem Chain.patch [DecidableEq α] {p₁ e₁ e' : Option α} (hA : Chain next prev p A e₁)
    (hB : Chain next prev p₁ B e) (hnd : (A ++ B).Nodup) (hp : ∀ y ∈ B, p ≠ some y)
    (he : ∀ y ∈ A, e ≠ some y)
    (hnext : ∀ y ∈ A ++ B, next' y = if lastOr p A = some y then e' else next y)
    (hprev : ∀ y ∈ A ++ B, prev' y = if headOr B e = some y then p' else prev y) :
    Chain next' prev' p A e' ∧ Chain next' prev' p' B e := by
  obtain ⟨hndA, hndB, hdisj⟩ := nodup_append'.mp hnd
  have hBprev := lastOr_ne_of_disjoint hp hdisj
  have hAnext := headOr_ne_of_disjoint he hdisj
  refine ⟨hA.setEnd hndA (fun y hy hl => ?_) (fun y hy hl => ?_) fun y hy => ?_,
    hB.setStart hndB (fun y hy hl => ?_) (fun y hy hl => ?_) fun y hy => ?_⟩
  · rw [hnext y (mem_append_left _ hy), if_pos hl]
  · rw [hnext y (mem_append_left _ hy), if_neg hl]
  · rw [hprev y (mem_append_left _ hy), if_neg (hAnext y hy)]
  · rw [hprev y (mem_append_right _ hy), if_pos hl]
  · rw [hprev y (mem_append_right _ hy), if_neg hl]
  · rw [hnext y (mem_append_right _ hy), if_neg (hBprev y hy)]

/-- **Unlinking a node**: patching its two neighbours leaves the chain without it. -/
theorem Chain.unlink [DecidableEq α] (h : Chain next prev p (A ++ x :: B) e)
    (hnd : (A ++ x :: B).Nodup) (hp : ∀ y ∈ B, p ≠ some y) (he : ∀ y ∈ A, e ≠ some y)
    (hnext : ∀ y ∈ A ++ B, next' y = if prev x = some y then next x else next y)
    (hprev : ∀ y ∈ A ++ B, prev' y = if next x = some y then prev x else prev y) :
    Chain next' prev' p (A ++ B) e := by
  obtain ⟨hA, hpx, hnx, hB⟩ := chain_append.mp h
  rw [hpx, hnx] at hnext hprev
  exact chain_append.mpr (hA.patch hB (hnd.sublist (by simp)) hp he hnext hprev)

/-- **Linking a node in**: once the two neighbours are patched, what remains is the node's own two
links. -/
theorem Chain.insert_iff [DecidableEq α] (h : Chain next prev p (A ++ B) e) (hnd : (A ++ B).Nodup)
    (hp : ∀ y ∈ B, p ≠ some y) (he : ∀ y ∈ A, e ≠ some y)
    (hnext : ∀ y ∈ A ++ B, next' y = if lastOr p A = some y then some x else next y)
    (hprev : ∀ y ∈ A ++ B, prev' y = if headOr B e = some y then some x else prev y) :
    Chain next' prev' p (A ++ x :: B) e ↔ prev' x = lastOr p A ∧ next' x = headOr B e := by
  refine ⟨chain_at, fun ⟨hpx, hnx⟩ => ?_⟩
  obtain ⟨hA, hB⟩ := chain_append.mp h
  obtain ⟨hA', hB'⟩ := hA.patch hB hnd hp he hnext hprev
  exact chain_append.mpr ⟨hA', hpx, hnx, hB'⟩

/-! ## Following the links -/

/-- The nodes met by following one of the links, `n` of them at most. -/
def walk (link : α → Option α) : ℕ → Option α → List α
  | 0, _ => []
  | _ + 1, none => []
  | n + 1, some x => x :: walk link n (link x)

/-- **Forwards, a chain is read in order.** -/
theorem Chain.walk_next {n : ℕ} (h : Chain next prev p L none) (hn : L.length ≤ n) :
    walk next n (headOr L none) = L := by
  induction L generalizing p n with
  | nil => cases n <;> rfl
  | cons x L ih =>
    obtain ⟨k, rfl⟩ := Nat.exists_eq_add_one.mpr (Nat.zero_lt_of_lt hn)
    rw [headOr_cons, walk, h.2.1, ih h.2.2 (by simpa using hn)]

/-- **Backwards, it is read in the opposite order.** -/
theorem Chain.walk_prev {n : ℕ} (h : Chain next prev none L e) (hn : L.length ≤ n) :
    walk prev n (lastOr none L) = L.reverse := by
  rw [← headOr_reverse]
  exact (chain_reverse.mpr h).walk_next (by rwa [length_reverse])

/-- Following `link` from `o` up to null visits the nodes of the list, in order. -/
def Visits (link : α → Option α) : Option α → List α → Prop
  | o, [] => o = none
  | o, x :: L => o = some x ∧ Visits link (link x) L

instance decidableVisits [DecidableEq α] (link : α → Option α) :
    (o : Option α) → (L : List α) → Decidable (Visits link o L)
  | o, [] => inferInstanceAs (Decidable (o = none))
  | o, x :: L =>
    have := decidableVisits link (link x) L
    inferInstanceAs (Decidable (o = some x ∧ Visits link (link x) L))

/-- What a traversal visits, link by link. -/
theorem visits_iff {link : α → Option α} {o : Option α} : Visits link o L ↔
    o = headOr L none ∧ ∀ A x B, L = A ++ x :: B → link x = headOr B none := by
  induction L generalizing o with
  | nil => simp [Visits]
  | cons y L ih =>
    simp only [Visits, ih]
    refine and_congr_right fun _ => ⟨fun ⟨hy, h⟩ A x B hL => ?_, fun h => ⟨h [] y L rfl,
      fun A x B hL => h (y :: A) x B (by rw [hL, cons_append])⟩⟩
    cases A with
    | nil =>
      obtain ⟨rfl, rfl⟩ := List.cons.inj hL
      exact hy
    | cons z A => exact h A x B (List.cons.inj hL).2

/-- **A linked list is what its two traversals say**: from its ends, the links lead through the
nodes in order and in the opposite order. -/
theorem visits_both_iff {first last : Option α} : Visits next first L ∧ Visits prev last L.reverse ↔
      first = headOr L none ∧ last = lastOr none L ∧ Chain next prev none L none := by
  rw [visits_iff, visits_iff, headOr_reverse, chain_iff]
  constructor
  · rintro ⟨⟨hf, hn⟩, hl, hp⟩
    refine ⟨hf, hl, fun A x B hL => ⟨?_, hn A x B hL⟩⟩
    rw [hp B.reverse x A.reverse (by simp [hL]), headOr_reverse]
  · rintro ⟨hf, hl, h⟩
    refine ⟨⟨hf, fun A x B hL => (h A x B hL).2⟩, hl, fun A x B hL => ?_⟩
    rw [(h B.reverse x A.reverse (by simpa using congrArg List.reverse hL)).1, lastOr_reverse]

end DList
