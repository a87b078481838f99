import Pbos.Kfxx.DynArrayMem

/-!
# Kfxx/DynArrayDown — moving elements down, and giving memory back

Elements that are assigned one by one go the last one first unless the ranges are apart, also when
they go down.  Such a move returns (`moveData_ok`), but leaves an element moved away among those
that should have been filled (`moveData_bad`).  Elements cannot be destroyed twice
(`destructData_twice`).
-/

namespace Pbos.Kfxx

open Moves Function List

variable {V : Type} {τ : ElemType V} {m m' : Mem V} {p q d s : ℕ × ℕ} {b n k : ℕ}
  {xs : List ((ℕ × ℕ) × ℕ × ℕ)} {x : (ℕ × ℕ) × ℕ × ℕ} {P : ℕ × ℕ → Prop}

/-- Where a destructor does something, only objects can be read. -/
theorem ElemType.Reads.isObject {c : Cell V} (h : τ.Reads c) (hd : τ.trivDestructible = false) :
    c.isObject = true :=
  h.resolve_right fun hc => by
    rw [τ.destructible_of_construct hc] at hd
    cases hd

/-- The cells of `P` are allocated and can be read. -/
def ReadsOn (τ : ElemType V) (m : Mem V) (P : ℕ × ℕ → Prop) : Prop :=
  ∀ q, P q → m.Valid q ∧ τ.Reads (m.cell q)

theorem ReadsOn.set (h : ReadsOn τ m P) {c : Cell V} (hc : τ.Reads c) :
    ReadsOn τ (m.set p c) P := fun q hq => by
  obtain ⟨hv, hr⟩ := h q hq
  refine ⟨hv, ?_⟩
  rw [Mem.set_cell, update_apply]
  split
  · exact hc
  · exact hr

theorem reads_moved : τ.Reads .moved := .inl rfl

/-- **One element assigned to another** within `P`. -/
theorem moveAssign_ok (h : ReadsOn τ m P) (h1 : P x.1) (h2 : P x.2) :
    ∃ m', moveAssignOrMoveConstruct τ m x = .ok m' ∧ m'.size = m.size ∧ m'.leak = m.leak ∧
      ReadsOn τ m' P ∧ (∀ q, q ≠ x.1 → q ≠ x.2 → m'.cell q = m.cell q) ∧
      (τ.moveAssignable = false → ∀ q, m'.cell q = if q = x.1 then .moved else m.cell q) := by
  obtain ⟨hv1, hr1⟩ := h x.1 h1
  obtain ⟨hv2, hr2⟩ := h x.2 h2
  cases ha : τ.moveAssignable with
  | true =>
    obtain ⟨m', hm', hsize, hcell, hleak⟩ := moveAssign_eq ha hv1 hv2 hr2 hr1
    refine ⟨m', hm', hsize, hleak, fun q hq => ⟨(h q hq).1.congr hsize, ?_⟩, fun q hq1 hq2 => ?_,
      nofun⟩
    · rw [hcell, move, update_apply, update_apply]
      split
      · exact reads_moved
      · split
        · exact hr2
        · exact (h q hq).2
    · rw [hcell, move_of_ne hq1 hq2]
  | false =>
    obtain ⟨m₁, hm₁, hsize₁, hleak₁, hcell₁, hraw₁⟩ : ∃ m₁, destroyAt τ m x.1 = .ok m₁ ∧
        m₁.size = m.size ∧ m₁.leak = m.leak ∧ (∀ q, q ≠ x.1 → m₁.cell q = m.cell q) ∧
        (τ.trivDestructible = true ∨ (m₁.cell x.1).isObject = false) := by
      cases hd : τ.trivDestructible with
      | true =>
        exact ⟨m, by rw [destroyAt, if_pos hd], rfl, rfl, fun _ _ => rfl, .inl rfl⟩
      | false =>
        refine ⟨_, destroyAt_eq hv1 hd (hr1.isObject hd), rfl, rfl, fun q hq => ?_, .inr ?_⟩
        · rw [Mem.set_cell, update_of_ne hq]
        · rw [Mem.set_cell, update_self]
          rfl
    have hcell : ∀ q, ((m₁.leakIf τ (m₁.cell x.1).isObject).set x.1 .moved).cell q =
        if q = x.1 then .moved else m.cell q := fun q => by
      rw [Mem.set_cell, update_apply]
      split
      · rfl
      · rename_i hq
        exact hcell₁ q hq
    refine ⟨(m₁.leakIf τ (m₁.cell x.1).isObject).set x.1 .moved, ?_, hsize₁,
      (Mem.leakIf_leak hraw₁).trans hleak₁, fun q hq => ⟨(h q hq).1.congr hsize₁, ?_⟩,
      fun q hq _ => (hcell q).trans (if_neg hq), fun _ => hcell⟩
    · rw [moveAssignOrMoveConstruct, if_neg (by simp [ha]), hm₁]
      exact constructAt_eq (hv1.congr hsize₁)
    · rw [hcell]
      split
      · exact reads_moved
      · exact (h q hq).2

theorem moveAssign_all_ok (xs : List ((ℕ × ℕ) × ℕ × ℕ)) (h : ReadsOn τ m P)
    (hx : ∀ x ∈ xs, P x.1 ∧ P x.2) :
    ∃ m', xs.foldlM (moveAssignOrMoveConstruct τ) m = .ok m' ∧ m'.size = m.size ∧
      m'.leak = m.leak ∧ ReadsOn τ m' P ∧
      (∀ q, (∀ x ∈ xs, q ≠ x.1 ∧ q ≠ x.2) → m'.cell q = m.cell q) ∧
      (τ.moveAssignable = false → ∀ q, (m.cell q = .moved ∨ ∃ x ∈ xs, x.1 = q) →
        m'.cell q = .moved) := by
  induction xs generalizing m with
  | nil =>
    refine ⟨m, rfl, rfl, rfl, h, fun _ _ => rfl, fun _ q hq => ?_⟩
    rcases hq with hq | ⟨x, hx, -⟩
    · exact hq
    · cases hx
  | cons x xs ih =>
    obtain ⟨h1, h2⟩ := hx x mem_cons_self
    obtain ⟨m₁, hm₁, hsize₁, hleak₁, hP₁, hcell₁, hself₁⟩ := moveAssign_ok h h1 h2
    obtain ⟨m₂, hm₂, hsize₂, hleak₂, hP₂, hcell₂, hself₂⟩ :=
      ih hP₁ fun y hy => hx y (mem_cons_of_mem _ hy)
    refine ⟨m₂, by rw [List.foldlM_cons, hm₁]; exact hm₂, hsize₂.trans hsize₁,
      hleak₂.trans hleak₁, hP₂, fun q hq => ?_, fun ha q hq => hself₂ ha q ?_⟩
    · obtain ⟨hq1, hq2⟩ := hq x mem_cons_self
      rw [hcell₂ q fun y hy => hq y (mem_cons_of_mem _ hy), hcell₁ q hq1 hq2]
    · rw [hself₁ ha]
      rcases hq with hq | ⟨y, hy, rfl⟩
      · left
        split
        · rfl
        · exact hq
      · rcases mem_cons.mp hy with rfl | hy
        · exact .inl (if_pos rfl)
        · exact .inr ⟨y, hy, rfl⟩

/-- **`_move_data` returns** on objects, in whatever order it goes. -/
theorem moveData_ok (h : ReadsOn τ m P) (hd : ∀ k < n, P (d.1, d.2 + k))
    (hs : ∀ k < n, P (s.1, s.2 + k)) :
    ∃ m', moveData τ m d s n = .ok m' ∧ m'.size = m.size ∧ m'.leak = m.leak ∧ ReadsOn τ m' P ∧
      ∀ q, ¬ Within d n q → ¬ Within s n q → m'.cell q = m.cell q := by
  rw [moveData]
  split
  · obtain ⟨m', hm', hmoved, hleak, hother⟩ :=
      memmove_eq fun k hk => ⟨(h _ (hd k hk)).1, (h _ (hs k hk)).1⟩
    refine ⟨m', hm', hmoved.size, hleak, fun q hq => ⟨(h q hq).1.congr hmoved.size, ?_⟩,
      fun q hq _ => hother q hq⟩
    by_cases hw : Within d n q
    · obtain ⟨h1, h2, h3⟩ := hw
      have hq' := hmoved.dst (q.2 - d.2) (by omega)
      rw [Nat.add_sub_cancel' h2, ← h1] at hq'
      rw [hq']
      exact (h _ (hs _ (by omega))).2
    · rw [hother q hw]
      exact (h q hq).2
  · obtain ⟨m', hm', hsize, hleak, hP, hcell, -⟩ := moveAssign_all_ok
      (moveOrder (τ.address d + n * τ.size ≤ τ.address s) d s n) h
      (forall_moveOrder.mpr fun k hk => ⟨hd k hk, hs k hk⟩)
    refine ⟨m', hm', hsize, hleak, hP, fun q hq hq' => hcell q fun x hx => ?_⟩
    obtain ⟨k, hk, rfl⟩ := mem_moveOrder.mp hx
    exact ⟨fun e => hq (e ▸ ⟨rfl, Nat.le_add_right .., Nat.add_lt_add_left hk _⟩),
      fun e => hq' (e ▸ ⟨rfl, Nat.le_add_right .., Nat.add_lt_add_left hk _⟩)⟩

/-- Elements can be moved down: by `memmove`, or one by one to below where they came from. -/
def ElemType.DownFits (τ : ElemType V) (d s n : ℕ) : Prop :=
  n = 0 ∨ τ.trivMoveAssignable = true ∨ τ.moveAssignable = true ∧ d + n ≤ s

/-- Without a move assignment every element that should have been filled is left moved away. -/
theorem moveData_unassignable (h : ReadsOn τ m P) (hd : ∀ k < n, P (d.1, d.2 + k))
    (hs : ∀ k < n, P (s.1, s.2 + k)) (hA : ¬ τ.trivMoveAssignable = true)
    (ha : τ.moveAssignable = false) (hm' : moveData τ m d s n = .ok m') (hk : k < n) :
    m'.cell (d.1, d.2 + k) = .moved := by
  rw [moveData, if_neg hA] at hm'
  obtain ⟨m₁, hm₁, -, -, -, -, hmoved⟩ := moveAssign_all_ok
    (moveOrder (τ.address d + n * τ.size ≤ τ.address s) d s n) h
    (forall_moveOrder.mpr fun k hk => ⟨hd k hk, hs k hk⟩)
  obtain rfl := Except.ok.inj (hm₁.symm.trans hm')
  exact hmoved ha _ (.inr ⟨row d s k, mem_moveOrder.mpr ⟨k, hk, rfl⟩, rfl⟩)

/-- Elements that are assigned one by one leave one moved away, in one place or the other. -/
theorem moveData_leaves_moved (hA : ¬ τ.trivMoveAssignable = true) (hn : n ≠ 0)
    (hm' : moveData τ m d s n = .ok m') :
    ∃ q, (Within d n q ∨ Within s n q) ∧ m'.cell q = .moved := by
  rw [moveData, if_neg hA] at hm'
  have hwithin : ∀ x ∈ moveOrder (τ.address d + n * τ.size ≤ τ.address s) d s n,
      Within d n x.1 ∧ Within s n x.2 := forall_moveOrder.mpr fun k hk =>
    ⟨⟨rfl, Nat.le_add_right .., Nat.add_lt_add_left hk _⟩,
      rfl, Nat.le_add_right .., Nat.add_lt_add_left hk _⟩
  have hmem : row d s 0 ∈ moveOrder (τ.address d + n * τ.size ≤ τ.address s) d s n :=
    mem_moveOrder.mpr ⟨0, Nat.pos_of_ne_zero hn, rfl⟩
  generalize moveOrder (τ.address d + n * τ.size ≤ τ.address s) d s n = xs at hm' hwithin hmem
  rcases eq_nil_or_concat xs with rfl | ⟨xs, x, rfl⟩
  · cases hmem
  · rw [concat_eq_append] at hm' hwithin
    obtain ⟨hx1, hx2⟩ := hwithin x mem_concat_self
    rw [List.foldlM_append] at hm'
    obtain ⟨m₁, -, hm'⟩ := of_bind hm'
    obtain ⟨m₂, hm₂, hm'⟩ := of_bind hm'
    cases hm'
    rw [moveAssignOrMoveConstruct] at hm₂
    split at hm₂
    · obtain ⟨c, -, hm₂⟩ := of_bind hm₂
      obtain ⟨c', -, hm₂⟩ := of_bind hm₂
      cases hm₂
      exact ⟨x.2, .inr hx2, update_self ..⟩
    · obtain ⟨m₃, -, hm₂⟩ := of_bind hm₂
      obtain ⟨c, -, hm₂⟩ := of_bind hm₂
      cases hm₂
      exact ⟨x.1, .inl hx1, update_self ..⟩

/-- **Moved in the wrong order**, or not by assignment at all: one of the elements that should have
been filled is left moved away. -/
theorem moveData_bad (h : ReadsOn τ m P) (hd : ∀ k < n, P (b, d.2 + k))
    (hs : ∀ k < n, P (b, s.2 + k)) (hds : d.2 ≤ s.2) (hbad : ¬ τ.DownFits d.2 s.2 n)
    (hm' : moveData τ m (b, d.2) (b, s.2) n = .ok m') :
    ∃ k, d.2 ≤ k ∧ k < d.2 + n ∧ m'.cell (b, k) = .moved := by
  simp only [ElemType.DownFits, not_or, not_and] at hbad
  obtain ⟨hn, hA, hMa⟩ := hbad
  cases ha : τ.moveAssignable with
  | false =>
    exact ⟨d.2, Nat.le_refl _, by omega,
      moveData_unassignable (d := (b, d.2)) (s := (b, s.2)) h hd hs hA ha hm' (k := 0) (by omega)⟩
  | true =>
    have hup : ¬ τ.address (b, d.2) + n * τ.size ≤ τ.address (b, s.2) := fun hle => by
      simp only [ElemType.address] at hle
      have hle' : (d.2 + n) * τ.size ≤ s.2 * τ.size := by
        rw [Nat.add_mul]
        omega
      exact hMa ha (Nat.le_of_mul_le_mul_right hle' τ.size_pos)
    obtain ⟨n, rfl⟩ := Nat.exists_eq_succ_of_ne_zero hn
    rw [moveData, if_neg hA, moveOrder, if_neg hup, range_succ_eq_map, reverse_cons, map_append,
      List.foldlM_append] at hm'
    obtain ⟨m₁, -, hm'⟩ := of_bind hm'
    obtain ⟨m₂, hm₂, hm'⟩ := of_bind hm'
    cases hm'
    rw [moveAssignOrMoveConstruct, if_pos ha] at hm₂
    obtain ⟨c, -, hm₂⟩ := of_bind hm₂
    obtain ⟨c', -, hm₂⟩ := of_bind hm₂
    cases hm₂
    have hlt := hMa ha
    exact ⟨s.2, hds, by omega, update_self ..⟩

/-! ## Destroying -/

/-- What was destroyed is no object any more, wherever it was. -/
theorem foldlM_destroy_raw {ps : List (ℕ × ℕ)} (hd : τ.trivDestructible = false)
    (h : ps.foldlM (destroyAt τ) m = .ok m') :
    (∀ q ∈ ps, m'.cell q = .raw) ∧ (∀ q, m.cell q = .raw → m'.cell q = .raw) ∧
      (∀ q ∉ ps, m'.cell q = m.cell q) := by
  induction ps generalizing m with
  | nil =>
    cases h
    exact ⟨nofun, fun _ => id, fun _ _ => rfl⟩
  | cons p ps ih =>
    obtain ⟨m₁, hm₁, h⟩ := of_bind h
    obtain ⟨hin, hkeep, hout⟩ := ih h
    rw [destroyAt, if_neg (by simp [hd])] at hm₁
    obtain ⟨c, -, hm₁⟩ := of_bind hm₁
    split at hm₁
    · cases hm₁
      have hp : m'.cell p = .raw := hkeep p (update_self ..)
      refine ⟨fun q hq => ?_, fun q hq => hkeep q ?_, fun q hq => ?_⟩
      · rcases mem_cons.mp hq with rfl | hq
        · exact hp
        · exact hin q hq
      · rw [Mem.set_cell, update_apply]
        split
        · rfl
        · exact hq
      · rw [mem_cons, not_or] at hq
        rw [hout q hq.2, Mem.set_cell, update_of_ne hq.1]
    · cases hm₁

theorem destructData_raw (hd : τ.trivDestructible = false) (h : destructData τ m p n = .ok m') :
    (∀ q, Within p n q → m'.cell q = .raw) ∧ ∀ q, ¬ Within p n q → m'.cell q = m.cell q := by
  rw [destructData, if_neg (by simp [hd])] at h
  obtain ⟨hin, -, hout⟩ := foldlM_destroy_raw hd h
  simp only [mem_cellsFrom] at hin hout
  exact ⟨hin, hout⟩

/-- **Nothing is destroyed twice** without harm. -/
theorem destructData_twice (hd : τ.trivDestructible = false) (hq : Within p n q)
    (hraw : m.cell q = .raw) : destructData τ m p n ≠ .ok m' := by
  intro h
  rw [destructData, if_neg (by simp [hd])] at h
  have hmem := mem_cellsFrom.mpr hq
  generalize cellsFrom p n = ps at h hmem
  induction ps generalizing m with
  | nil => cases hmem
  | cons p ps ih =>
    obtain ⟨m₁, hm₁, h⟩ := of_bind h
    rcases mem_cons.mp hmem with rfl | hmem
    · rw [destroyAt_raw hd hraw] at hm₁
      cases hm₁
    · refine ih ?_ h hmem
      have hstep : [p].foldlM (destroyAt τ) m = .ok m₁ := by
        rw [List.foldlM_cons, hm₁]
        rfl
      exact (foldlM_destroy_raw hd hstep).2.1 q hraw

/-- Moving elements to where nothing was touches only them. -/
theorem moveConstruct_frame (h : xs.foldlM (moveConstruct τ) m = .ok m')
    (hq : ∀ x ∈ xs, q ≠ x.1 ∧ q ≠ x.2) : m'.cell q = m.cell q := by
  induction xs generalizing m with
  | nil =>
    cases h
    rfl
  | cons x xs ih =>
    obtain ⟨m₁, hm₁, h⟩ := of_bind h
    rw [ih h fun y hy => hq y (mem_cons_of_mem _ hy)]
    obtain ⟨c, -, hm₁⟩ := of_bind hm₁
    obtain ⟨m₂, hm₂, hm₁⟩ := of_bind hm₁
    obtain ⟨old, -, hm₂⟩ := of_bind hm₂
    cases hm₁
    cases hm₂
    obtain ⟨hq1, hq2⟩ := hq x mem_cons_self
    rw [Mem.set_cell, update_of_ne hq2, Mem.set_cell, update_of_ne hq1]
    rfl

end Pbos.Kfxx
