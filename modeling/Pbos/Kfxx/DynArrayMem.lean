import Pbos.Kfxx.DynArray

/-!
# Kfxx/DynArrayMem — what moving, constructing and destroying elements does to memory

`MovedTo m m' d s n` is what every way of moving elements comes to when it goes in the right order:
the cells from `d` on hold what was at `s`, and of the others only the sources may have lost their
values.  The loops that construct and destroy elements are described cell by cell.
-/

namespace Pbos.Kfxx

open Moves Function List

variable {V : Type} {τ : ElemType V} {m m' : Mem V} {p q d s : ℕ × ℕ} {c : Cell V} {k n : ℕ}
  {xs : List ((ℕ × ℕ) × ℕ × ℕ)} {x : (ℕ × ℕ) × ℕ × ℕ} {b : Bool} {a : DynArray V} {up : Prop}
  {lo block : ℕ}

/-! ## One cell -/

@[simp] theorem Mem.set_size : (m.set p c).size = m.size := rfl

@[simp] theorem Mem.set_cell : (m.set p c).cell = update m.cell p c := rfl

@[simp] theorem Mem.set_leak : (m.set p c).leak = m.leak := rfl

theorem Mem.leakIf_leak (h : τ.trivDestructible = true ∨ b = false) :
    (m.leakIf τ b).leak = m.leak := by
  rcases h with h | h <;> simp [leakIf, h]

theorem Mem.leakIf_of_leak (hd : τ.trivDestructible = false) (h : b = true) :
    (m.leakIf τ b).leak = true := by
  simp [leakIf, hd, h]

theorem Mem.Valid.congr (h : m'.size = m.size) (hp : m.Valid p) : m'.Valid p := by
  rwa [Valid, h]

theorem Mem.valid_of_lt (hn : m.size p.1 = some n) (hp : p.2 < n) : m.Valid p := ⟨n, hn, hp⟩

theorem Mem.Valid.lt (h : m.Valid p) (hn : m.size p.1 = some n) : p.2 < n := by
  obtain ⟨k, hk, hlt⟩ := h
  rw [hn] at hk
  exact Option.some.inj hk ▸ hlt

theorem Mem.get_eq (h : m.Valid p) : m.get p = .ok (m.cell p) := if_pos h

/-- The cell can be moved from: there is an object, or none needs to be constructed. -/
def ElemType.Reads (τ : ElemType V) (c : Cell V) : Prop :=
  c.isObject = true ∨ τ.trivConstructible = true

theorem objectAt_eq (h : m.Valid p) (hr : τ.Reads (m.cell p)) :
    objectAt τ m p = .ok (m.cell p) := by
  rw [objectAt, Mem.get_eq h]
  refine if_neg fun hc => ?_
  rcases hr with hr | hr
  · rw [hr] at hc
    cases hc.1
  · rw [hr] at hc
    cases hc.2

theorem constructAt_eq (h : m.Valid p) :
    constructAt τ m p c = .ok ((m.leakIf τ (m.cell p).isObject).set p c) := by
  rw [constructAt, Mem.get_eq h]
  rfl

theorem destroyAt_eq (h : m.Valid p) (hd : τ.trivDestructible = false)
    (ho : (m.cell p).isObject = true) : destroyAt τ m p = .ok (m.set p .raw) := by
  rw [destroyAt, if_neg (by simp [hd]), Mem.get_eq h]
  exact if_pos ho

/-- Destroying what is no object is undefined. -/
theorem destroyAt_raw (hd : τ.trivDestructible = false) (ho : m.cell p = .raw) :
    destroyAt τ m p = .error .undefined := by
  rw [destroyAt, if_neg (by simp [hd]), Mem.get]
  split
  · exact if_neg (by simp [ho, Cell.isObject])
  · rfl

/-- **Moving one element** by construction. -/
theorem moveConstruct_eq (h1 : m.Valid x.1) (h2 : m.Valid x.2) (hr : τ.Reads (m.cell x.2)) :
    ∃ m', moveConstruct τ m x = .ok m' ∧ m'.size = m.size ∧ m'.cell = move .moved m.cell x ∧
      (τ.trivDestructible = true ∨ m.cell x.1 = .raw → m'.leak = m.leak) := by
  refine ⟨((m.leakIf τ (m.cell x.1).isObject).set x.1 (m.cell x.2)).set x.2 .moved, ?_, rfl, rfl,
    fun h => Mem.leakIf_leak (h.imp_right fun h => by rw [h]; rfl)⟩
  rw [moveConstruct, objectAt_eq h2 hr]
  change constructAt τ m x.1 (m.cell x.2) >>= _ = _
  rw [constructAt_eq h1]
  rfl

/-- **Moving one element** by assignment, where the destination is an object. -/
theorem moveAssign_eq (ha : τ.moveAssignable = true) (h1 : m.Valid x.1) (h2 : m.Valid x.2)
    (hr : τ.Reads (m.cell x.2)) (hr' : τ.Reads (m.cell x.1)) :
    ∃ m', moveAssignOrMoveConstruct τ m x = .ok m' ∧ m'.size = m.size ∧
      m'.cell = move .moved m.cell x ∧ m'.leak = m.leak := by
  refine ⟨(m.set x.1 (m.cell x.2)).set x.2 .moved, ?_, rfl, rfl, rfl⟩
  rw [moveAssignOrMoveConstruct, if_pos ha, objectAt_eq h2 hr, objectAt_eq h1 hr']
  rfl

/-! ## Many elements -/

theorem moveConstruct_all (hord : Ordered xs) (hv : ∀ x ∈ xs, m.Valid x.1 ∧ m.Valid x.2)
    (hr : ∀ x ∈ xs, τ.Reads (m.cell x.2)) :
    ∃ m', xs.foldlM (moveConstruct τ) m = .ok m' ∧ m'.size = m.size ∧
      m'.cell = moves .moved m.cell xs ∧
      (τ.trivDestructible = true ∨
        (∀ x ∈ xs, m.cell x.1 = .raw ∧ ∀ y ∈ xs, x.1 ≠ y.2) → m'.leak = m.leak) := by
  induction xs generalizing m with
  | nil => exact ⟨m, rfl, rfl, rfl, fun _ => rfl⟩
  | cons x xs ih =>
    obtain ⟨hx, -⟩ := pairwise_cons.mp hord.pairwise
    obtain ⟨h1, h2⟩ := hv x mem_cons_self
    obtain ⟨m₁, hm₁, hsize, hcell, hleak⟩ := moveConstruct_eq h1 h2 (hr x mem_cons_self)
    obtain ⟨m₂, hm₂, hsize', hcell', hleak'⟩ := ih hord.tail
      (fun y hy => (hv y (mem_cons_of_mem _ hy)).imp (.congr hsize) (.congr hsize))
      fun y hy => by
        rw [hcell, move_of_ne (hx y hy).1 (hx y hy).2.1]
        exact hr y (mem_cons_of_mem _ hy)
    refine ⟨m₂, by rw [List.foldlM_cons, hm₁]; exact hm₂, hsize'.trans hsize, ?_, fun h => ?_⟩
    · rw [hcell', hcell, moves_cons]
    · rw [hleak' (h.imp_right fun h y hy => ?_), hleak (h.imp_right fun h =>
        (h x mem_cons_self).1)]
      obtain ⟨hraw, hne⟩ := h y (mem_cons_of_mem _ hy)
      rw [hcell, move_of_ne (hx y hy).2.2 (hne x mem_cons_self)]
      exact ⟨hraw, fun z hz => hne z (mem_cons_of_mem _ hz)⟩

theorem moveAssign_all (ha : τ.moveAssignable = true) (hord : Ordered xs)
    (hv : ∀ x ∈ xs, m.Valid x.1 ∧ m.Valid x.2)
    (hr : ∀ x ∈ xs, τ.Reads (m.cell x.2) ∧ τ.Reads (m.cell x.1)) :
    ∃ m', xs.foldlM (moveAssignOrMoveConstruct τ) m = .ok m' ∧ m'.size = m.size ∧
      m'.cell = moves .moved m.cell xs ∧ m'.leak = m.leak := by
  induction xs generalizing m with
  | nil => exact ⟨m, rfl, rfl, rfl, rfl⟩
  | cons x xs ih =>
    obtain ⟨hx, -⟩ := pairwise_cons.mp hord.pairwise
    obtain ⟨h1, h2⟩ := hv x mem_cons_self
    obtain ⟨hr2, hr1⟩ := hr x mem_cons_self
    obtain ⟨m₁, hm₁, hsize, hcell, hleak⟩ := moveAssign_eq ha h1 h2 hr2 hr1
    obtain ⟨m₂, hm₂, hsize', hcell', hleak'⟩ := ih hord.tail
      (fun y hy => (hv y (mem_cons_of_mem _ hy)).imp (.congr hsize) (.congr hsize))
      fun y hy => by
        obtain ⟨hy2, hy1⟩ := hr y (mem_cons_of_mem _ hy)
        rw [hcell, move_of_ne (hx y hy).1 (hx y hy).2.1]
        refine ⟨hy2, ?_⟩
        by_cases e : y.1 = x.2
        · rw [e, move_src]
          exact .inl rfl
        · rwa [move_of_ne (hx y hy).2.2 e]
    refine ⟨m₂, by rw [List.foldlM_cons, hm₁]; exact hm₂, hsize'.trans hsize, ?_,
      hleak'.trans hleak⟩
    rw [hcell', hcell, moves_cons]

/-- The cell is one of the `n` from `p` on. -/
def Within (p : ℕ × ℕ) (n : ℕ) (q : ℕ × ℕ) : Prop := q.1 = p.1 ∧ p.2 ≤ q.2 ∧ q.2 < p.2 + n

theorem not_within_of_lt (h : q.2 < p.2) : ¬ Within p n q := fun hw => Nat.not_le.mpr h hw.2.1

theorem not_within_of_le (h : p.2 + n ≤ q.2) : ¬ Within p n q := fun hw => Nat.not_lt.mpr h hw.2.2

/-- **`n` elements were moved** from `s` on to `d` on. -/
structure MovedTo (m m' : Mem V) (d s : ℕ × ℕ) (n : ℕ) : Prop where
  size : m'.size = m.size
  dst : ∀ k < n, m'.cell (d.1, d.2 + k) = m.cell (s.1, s.2 + k)
  other : ∀ q, ¬ Within d n q → m'.cell q = m.cell q ∨ Within s n q ∧ m'.cell q = .moved

theorem mem_moveOrder [Decidable up] :
    x ∈ moveOrder up d s n ↔ ∃ k < n, row d s k = x := by
  rw [moveOrder]
  split <;> simp

theorem forall_moveOrder [Decidable up] {P : (ℕ × ℕ) × ℕ × ℕ → Prop} :
    (∀ x ∈ moveOrder up d s n, P x) ↔ ∀ k < n, P (row d s k) := by
  simp only [mem_moveOrder, forall_exists_index, and_imp]
  exact ⟨fun h k hk => h _ k hk rfl, fun h x k hk e => e ▸ h k hk⟩

theorem movedTo_of_moves [Decidable up] (hord : Ordered (moveOrder up d s n))
    (hsize : m'.size = m.size) (hcell : m'.cell = moves .moved m.cell (moveOrder up d s n)) :
    MovedTo m m' d s n := by
  refine ⟨hsize, fun k hk => ?_, fun q hq => ?_⟩
  · rw [hcell]
    exact moves_dst hord (mem_moveOrder.mpr ⟨k, hk, rfl⟩)
  · have hd : ∀ x ∈ moveOrder up d s n, x.1 ≠ q := forall_moveOrder.mpr fun k hk e =>
      hq (e ▸ ⟨rfl, Nat.le_add_right .., Nat.add_lt_add_left hk _⟩)
    by_cases hs : Within s n q
    · right
      refine ⟨hs, ?_⟩
      obtain ⟨h1, h2, h3⟩ := hs
      have hq : (row d s (q.2 - s.2)).2 = q := by rw [row, Nat.add_sub_cancel' h2, ← h1]
      have hsrc : moves .moved m.cell (moveOrder up d s n) (row d s (q.2 - s.2)).2 = .moved :=
        moves_src hord (mem_moveOrder.mpr ⟨_, by omega, rfl⟩) fun y hy => by rw [hq]; exact hd y hy
      rwa [hq, ← hcell] at hsrc
    · left
      rw [hcell]
      refine moves_of_ne fun x hx => ⟨(hd x hx).symm, ?_⟩
      obtain ⟨k, hk, rfl⟩ := mem_moveOrder.mp hx
      exact fun e => hs (e ▸ ⟨rfl, Nat.le_add_right .., Nat.add_lt_add_left hk _⟩)

theorem memmove_eq (hv : ∀ k < n, m.Valid (d.1, d.2 + k) ∧ m.Valid (s.1, s.2 + k)) :
    ∃ m', memmove m d s n = .ok m' ∧ MovedTo m m' d s n ∧ m'.leak = m.leak ∧
      ∀ q, ¬ Within d n q → m'.cell q = m.cell q := by
  have hcond : n = 0 ∨ m.Valid (d.1, d.2 + (n - 1)) ∧ m.Valid (s.1, s.2 + (n - 1)) := by
    rcases Nat.eq_zero_or_pos n with h0 | h0
    · exact .inl h0
    · exact .inr (hv _ (by omega))
  refine ⟨_, if_pos hcond, ⟨rfl, fun k hk => ?_, fun q hq => .inl (if_neg hq)⟩, rfl,
    fun q hq => if_neg hq⟩
  change (if _ then _ else _) = _
  rw [if_pos ⟨rfl, Nat.le_add_right .., Nat.add_lt_add_left hk _⟩, Nat.add_sub_cancel_left]

/-- **`_move_data_uninit`** to another block, or up in the same one. -/
theorem moveDataUninit_eq (h : d.1 ≠ s.1 ∨ s.2 < d.2)
    (hv : ∀ k < n, m.Valid (d.1, d.2 + k) ∧ m.Valid (s.1, s.2 + k))
    (hr : ∀ k < n, τ.Reads (m.cell (s.1, s.2 + k))) :
    ∃ m', moveDataUninit τ m d s n = .ok m' ∧ MovedTo m m' d s n ∧
      (τ.trivDestructible = true ∨ d.1 ≠ s.1 ∧ (∀ k < n, m.cell (d.1, d.2 + k) = .raw) →
        m'.leak = m.leak) := by
  rw [moveDataUninit]
  split
  · obtain ⟨m', hm', hmoved, hleak, -⟩ := memmove_eq hv
    exact ⟨m', hm', hmoved, fun _ => hleak⟩
  · have hord : Ordered (moveOrder (τ.address d + n * τ.size < τ.address s) d s n) := by
      rw [moveOrder]
      split
      · rename_i hup
        by_cases e : d.1 = s.1
        · have := Nat.mul_le_mul_right τ.size (Nat.le_of_lt (h.resolve_left (absurd e ·)))
          simp only [ElemType.address] at hup
          omega
        · exact ordered_up (.inl e)
      · exact ordered_down (h.imp_right .inr)
    obtain ⟨m', hm', hsize, hcell, hleak⟩ := moveConstruct_all hord
      (forall_moveOrder.mpr hv) (forall_moveOrder.mpr hr)
    refine ⟨m', hm', movedTo_of_moves hord hsize hcell, fun hl => hleak (hl.imp_right ?_)⟩
    rintro ⟨hne, hraw⟩ x hx
    obtain ⟨k, hk, rfl⟩ := mem_moveOrder.mp hx
    refine ⟨hraw k hk, fun y hy e => hne ?_⟩
    obtain ⟨k', -, rfl⟩ := mem_moveOrder.mp hy
    exact congrArg (fun p => p.1) e

/-- **`_move_data`** within one block, where the elements are moved by `memmove`, go below the ones
they came from, or go up. -/
theorem moveData_eq (hb : d.1 = s.1)
    (h : τ.trivMoveAssignable = true ∨ τ.moveAssignable = true ∧ (d.2 + n ≤ s.2 ∨ s.2 < d.2) ∨
      n = 0)
    (hv : ∀ k < n, m.Valid (d.1, d.2 + k) ∧ m.Valid (s.1, s.2 + k))
    (hr : ∀ k < n, τ.Reads (m.cell (s.1, s.2 + k)) ∧ τ.Reads (m.cell (d.1, d.2 + k))) :
    ∃ m', moveData τ m d s n = .ok m' ∧ MovedTo m m' d s n := by
  rw [moveData]
  split
  · obtain ⟨m', hm', hmoved, -⟩ := memmove_eq hv
    exact ⟨m', hm', hmoved⟩
  · rename_i hA
    rcases Nat.eq_zero_or_pos n with rfl | hn
    · exact ⟨m, by simp [moveOrder, pure, Except.pure], rfl, nofun, fun _ _ => .inl rfl⟩
    · obtain ⟨ha, hle⟩ := (h.resolve_left hA).resolve_right (Nat.ne_of_gt hn)
      have hord : Ordered (moveOrder (τ.address d + n * τ.size ≤ τ.address s) d s n) := by
        rw [moveOrder]
        split
        · rename_i hup
          refine ordered_up (.inr (Nat.le_of_mul_le_mul_right ?_ τ.size_pos))
          simp only [ElemType.address] at hup
          rw [Nat.add_mul]
          omega
        · exact ordered_down (.inr hle)
      obtain ⟨m', hm', hsize, hcell, -⟩ := moveAssign_all ha hord
        (forall_moveOrder.mpr hv) (forall_moveOrder.mpr hr)
      exact ⟨m', hm', movedTo_of_moves hord hsize hcell⟩

/-! ## Constructing and destroying -/

theorem mem_cellsFrom : q ∈ cellsFrom p n ↔ Within p n q := by
  rw [cellsFrom, mem_map]
  constructor
  · rintro ⟨k, hk, rfl⟩
    exact ⟨rfl, Nat.le_add_right .., Nat.add_lt_add_left (mem_range.mp hk) _⟩
  · rintro ⟨h1, h2, h3⟩
    exact ⟨q.2 - p.2, mem_range.mpr (by omega), by rw [Nat.add_sub_cancel' h2, ← h1]⟩

theorem nodup_cellsFrom (p : ℕ × ℕ) (n : ℕ) : (cellsFrom p n).Nodup :=
  List.Nodup.map (fun _ _ e => Nat.add_left_cancel (Prod.mk.inj e).2) nodup_range

/-- **Writing cells one after another**: `step` writes `c` to the cell, where `Ok` holds of what was
there. -/
theorem foldlM_write (step : Mem V → ℕ × ℕ → Except Fault (Mem V)) (Ok : Cell V → Prop)
    {ps : List (ℕ × ℕ)} (hstep : ∀ m q, m.Valid q → Ok (m.cell q) → ∃ m', step m q = .ok m' ∧
      m'.size = m.size ∧ m'.cell = update m.cell q c ∧ m'.leak = m.leak)
    (hnd : ps.Nodup) (hok : ∀ q ∈ ps, m.Valid q ∧ Ok (m.cell q)) :
    ∃ m', ps.foldlM step m = .ok m' ∧ m'.size = m.size ∧ m'.leak = m.leak ∧
      (∀ q ∈ ps, m'.cell q = c) ∧ ∀ q ∉ ps, m'.cell q = m.cell q := by
  induction ps generalizing m with
  | nil => exact ⟨m, rfl, rfl, rfl, nofun, fun _ _ => rfl⟩
  | cons p ps ih =>
    obtain ⟨hp, hnd⟩ := nodup_cons.mp hnd
    obtain ⟨hv, ho⟩ := hok p mem_cons_self
    obtain ⟨m₁, hm₁, hsize, hcell, hleak⟩ := hstep m p hv ho
    obtain ⟨m₂, hm₂, hsize', hleak', hin, hout⟩ := ih hnd fun q hq => by
      obtain ⟨hv, ho⟩ := hok q (mem_cons_of_mem _ hq)
      rw [hcell, update_of_ne fun e : q = p => hp (e ▸ hq)]
      exact ⟨hv.congr hsize, ho⟩
    refine ⟨m₂, by rw [List.foldlM_cons, hm₁]; exact hm₂, hsize'.trans hsize, hleak'.trans hleak,
      fun q hq => ?_, fun q hq => ?_⟩
    · rcases mem_cons.mp hq with rfl | hq
      · rw [hout q hp, hcell, update_self]
      · exact hin q hq
    · rw [mem_cons, not_or] at hq
      rw [hout q hq.2, hcell, update_of_ne hq.1]

/-- **`_destruct_data`** of objects. -/
theorem destructData_eq (h : τ.trivDestructible = true ∨
      ∀ q, Within p n q → m.Valid q ∧ (m.cell q).isObject = true) :
    ∃ m', destructData τ m p n = .ok m' ∧ m'.size = m.size ∧ m'.leak = m.leak ∧
      (τ.trivDestructible = true → m' = m) ∧
      (τ.trivDestructible = false → ∀ q, Within p n q → m'.cell q = .raw) ∧
      ∀ q, ¬ Within p n q → m'.cell q = m.cell q := by
  rw [destructData]
  cases hd : τ.trivDestructible with
  | true => exact ⟨m, rfl, rfl, rfl, fun _ => rfl, nofun, fun _ _ => rfl⟩
  | false =>
    have hall := h.resolve_left (by simp [hd])
    obtain ⟨m', hm', hsize, hleak, hin, hout⟩ := foldlM_write (destroyAt τ)
      (fun c => c.isObject = true)
      (fun m q hv ho => ⟨_, destroyAt_eq hv hd ho, rfl, rfl, rfl⟩) (nodup_cellsFrom p n)
      fun q hq => hall q (mem_cellsFrom.mp hq)
    simp only [mem_cellsFrom] at hin hout
    exact ⟨m', hm', hsize, hleak, nofun, fun _ => hin, hout⟩

/-- **`_construct_data`** where there is nothing yet. -/
theorem constructData_eq (h : ∀ q, Within p n q → m.Valid q ∧ m.cell q = .raw) :
    ∃ m', constructData τ m p n = .ok m' ∧ m'.size = m.size ∧
      (∀ q, Within p n q → m'.cell q = if τ.trivConstructible then .raw else .live τ.default) ∧
      ∀ q, ¬ Within p n q → m'.cell q = m.cell q := by
  rw [constructData]
  cases hc : τ.trivConstructible with
  | true => exact ⟨m, rfl, rfl, fun q hq => (h q hq).2, fun _ _ => rfl⟩
  | false =>
    obtain ⟨m', hm', hsize, -, hin, hout⟩ :=
      foldlM_write (fun m q => constructAt τ m q (.live τ.default)) (fun c => c = .raw)
      (fun m q hv ho => ⟨_, constructAt_eq hv, rfl, rfl, Mem.leakIf_leak (.inr (by rw [ho]; rfl))⟩)
      (nodup_cellsFrom p n) fun q hq => h q (mem_cellsFrom.mp hq)
    simp only [mem_cellsFrom] at hin hout
    exact ⟨m', hm', hsize, hin, hout⟩

/-! ## The allocator -/

theorem objectsFrom_eq_false {b : ℕ} (h : ∀ k, lo ≤ k → k < n → m.cell (b, k) = .raw) :
    objectsFrom m b lo n = false := by
  rw [objectsFrom, any_eq_false]
  intro k hk hobj
  rw [Bool.and_eq_true, decide_eq_true_eq] at hobj
  rw [h k hobj.1 (mem_range.mp hk)] at hobj
  cases hobj.2

theorem objectsFrom_eq_true {b : ℕ} (hlo : lo ≤ k) (hk : k < n)
    (ho : (m.cell (b, k)).isObject = true) : objectsFrom m b lo n = true :=
  any_eq_true.mpr ⟨k, mem_range.mpr hk, by simp [hlo, ho]⟩

theorem alloc_eq (bytes : ℕ) (hb : block ≠ 0) :
    ∃ m', alloc τ m bytes block = (block, m') ∧ m'.size block = some (bytes / τ.size) ∧
      (∀ b, b ≠ block → m'.size b = m.size b) ∧ (∀ k, m'.cell (block, k) = .raw) ∧
      (∀ q, q.1 ≠ block → m'.cell q = m.cell q) ∧ m'.leak = m.leak :=
  ⟨_, if_neg hb, update_self .., fun _ hne => update_of_ne hne ..,
    fun _ => if_pos rfl, fun _ hq => if_neg hq, rfl⟩

theorem realloc_eq {ptr : ℕ} (bytes : ℕ) (hs : m.size ptr = some n) (hb : block ≠ 0) :
    ∃ m', realloc τ m ptr bytes block = .ok (block, m') ∧ m'.size block = some (bytes / τ.size) ∧
      (∀ b, b ≠ block → b ≠ ptr → m'.size b = m.size b) ∧
      (∀ k, k < n → k < bytes / τ.size → m'.cell (block, k) = m.cell (ptr, k)) ∧
      (∀ k, ¬ (k < n ∧ k < bytes / τ.size) → m'.cell (block, k) = .raw) ∧
      (τ.trivDestructible = true ∨
        (∀ k, bytes / τ.size ≤ k → k < n → m.cell (ptr, k) = .raw) → m'.leak = m.leak) ∧
      (τ.trivDestructible = false → ∀ k, bytes / τ.size ≤ k → k < n →
        (m.cell (ptr, k)).isObject = true → m'.leak = true) := by
  refine ⟨{ m.leakIf τ (objectsFrom m ptr (bytes / τ.size) n) with
      size := update (update m.size ptr none) block (some (bytes / τ.size))
      cell := fun p =>
        if p.1 = block then if p.2 < n ∧ p.2 < bytes / τ.size then m.cell (ptr, p.2) else .raw
        else m.cell p },
    by rw [realloc, hs]; exact if_neg hb, update_self .., fun b hne hne' => ?_,
    fun k hk hk' => ?_, fun k hk => ?_, fun h => Mem.leakIf_leak (h.imp_right objectsFrom_eq_false),
    fun hd k hlo hk ho => Mem.leakIf_of_leak hd (objectsFrom_eq_true hlo hk ho)⟩
  · exact (update_of_ne hne ..).trans (update_of_ne hne' ..)
  · exact (if_pos rfl).trans (if_pos ⟨hk, hk'⟩)
  · exact (if_pos rfl).trans (if_neg hk)

/-- **`_clear`**, and `~DynArray`: the elements are destroyed and the block is given back. -/
theorem clearAll_eq (hd : τ.trivDestructible = true ∨
      ∀ q, Within (a.data, 0) a.length q → a.mem.Valid q ∧ (a.mem.cell q).isObject = true)
    (hb : a.capacity ≠ 0 → a.mem.size a.data = some a.capacity) : ∃ a', a.clearAll τ = .ok a' ∧
      (∀ b, b ≠ a.data ∨ a.capacity = 0 → a'.mem.size b = a.mem.size b) ∧
      (∀ q, q.1 ≠ a.data → a'.mem.cell q = a.mem.cell q) ∧
      (τ.trivDestructible = true ∨
        (∀ k, a.length ≤ k → k < a.capacity → a.mem.cell (a.data, k) = .raw) →
          a'.mem.leak = a.mem.leak) ∧
      (τ.trivDestructible = false → ∀ k, a.length ≤ k → k < a.capacity →
        (a.mem.cell (a.data, k)).isObject = true → a'.mem.leak = true) := by
  obtain ⟨m, hm, hsize, hleak, -, hraw, hout⟩ := destructData_eq hd
  have hrest : ∀ k, a.length ≤ k → m.cell (a.data, k) = a.mem.cell (a.data, k) := fun k hk =>
    hout _ (not_within_of_le (by simpa using hk))
  by_cases hc : a.capacity = 0
  · refine ⟨⟨0, 0, 0, m⟩, ?_, fun b _ => congrFun hsize b, fun q hq => hout q fun hw => hq hw.1,
      fun _ => hleak, fun _ k _ hk => ?_⟩
    · rw [DynArray.clearAll, hm]
      simp [bind, Except.bind, hc]
    · omega
  · have hb' := hb hc
    rw [← hsize] at hb'
    refine ⟨⟨0, 0, 0, { m.leakIf τ (objectsFrom m a.data 0 a.capacity) with
      size := update m.size a.data none }⟩, ?_, fun b hne => ?_,
      fun q hq => hout q fun hw => hq hw.1, fun h => ?_, fun hd' k hlo hk ho => ?_⟩
    · rw [DynArray.clearAll, hm]
      simp only [bind, Except.bind, if_neg hc, release, hb']
    · exact (update_of_ne (hne.resolve_right hc) ..).trans (congrFun hsize b)
    · refine (Mem.leakIf_leak ?_).trans hleak
      cases hd' : τ.trivDestructible with
      | true => exact .inl rfl
      | false =>
        refine .inr (objectsFrom_eq_false fun k _ hk => ?_)
        by_cases hlt : k < a.length
        · exact hraw hd' _ ⟨rfl, Nat.zero_le _, by simpa using hlt⟩
        · rw [hrest k (by omega)]
          exact h.resolve_left (by simp [hd']) k (by omega) hk
    · refine Mem.leakIf_of_leak hd' (objectsFrom_eq_true (Nat.zero_le k) hk ?_)
      rw [hrest k hlo]
      exact ho

/-! ## The blocks stay

Whatever a loop over elements does before it returns, it allocates and releases nothing. -/

theorem foldlM_size {α : Type} {step : Mem V → α → Except Fault (Mem V)} {ys : List α}
    (hstep : ∀ m y m', step m y = .ok m' → m'.size = m.size) (h : ys.foldlM step m = .ok m') :
    m'.size = m.size := by
  induction ys generalizing m with
  | nil =>
    cases h
    rfl
  | cons y ys ih =>
    obtain ⟨m₁, hm₁, h⟩ := of_bind h
    exact (ih h).trans (hstep m y m₁ hm₁)

theorem constructAt_size (h : constructAt τ m p c = .ok m') : m'.size = m.size := by
  obtain ⟨old, -, h⟩ := of_bind h
  cases h
  rfl

theorem destroyAt_size (h : destroyAt τ m p = .ok m') : m'.size = m.size := by
  rw [destroyAt] at h
  split at h
  · cases h
    rfl
  · obtain ⟨c, -, h⟩ := of_bind h
    split at h
    · cases h
      rfl
    · cases h

theorem moveConstruct_size (h : moveConstruct τ m x = .ok m') : m'.size = m.size := by
  obtain ⟨c, -, h⟩ := of_bind h
  obtain ⟨m₁, hm₁, h⟩ := of_bind h
  cases h
  rw [Mem.set_size, constructAt_size hm₁]

theorem memmove_size (h : memmove m d s n = .ok m') : m'.size = m.size := by
  rw [memmove] at h
  split at h
  · cases h
    rfl
  · cases h

theorem moveDataUninit_size (h : moveDataUninit τ m d s n = .ok m') : m'.size = m.size := by
  rw [moveDataUninit] at h
  split at h
  · exact memmove_size h
  · exact foldlM_size (fun _ _ _ => moveConstruct_size) h

theorem destructData_size (h : destructData τ m p n = .ok m') : m'.size = m.size := by
  rw [destructData] at h
  split at h
  · cases h
    rfl
  · exact foldlM_size (fun _ _ _ => destroyAt_size) h

theorem expandTo_size {construct : Bool} {newData length : ℕ}
    (h : a.expandTo construct τ newData length = .ok m') : m'.size = a.mem.size := by
  obtain ⟨-, -, h⟩ := of_bind h
  obtain ⟨m₁, hm₁, h⟩ := of_bind h
  have hsize : m₁.size = a.mem.size := by
    split at hm₁
    · rw [constructData] at hm₁
      split at hm₁
      · cases hm₁
        rfl
      · exact foldlM_size (fun _ _ _ => constructAt_size) hm₁
    · cases hm₁
      rfl
  split at h
  · exact (moveDataUninit_size h).trans hsize
  · cases h
    exact hsize

/-- `_clear` releases at most the block of the array. -/
theorem clearAll_size {a' : DynArray V} {b : ℕ} (h : a.clearAll τ = .ok a') (hb : b ≠ a.data) :
    a'.mem.size b = a.mem.size b := by
  obtain ⟨m₁, hm₁, h⟩ := of_bind h
  obtain ⟨m₂, hm₂, h⟩ := of_bind h
  cases h
  rw [← destructData_size hm₁]
  split at hm₂
  · cases hm₂
    rfl
  · rw [release] at hm₂
    split at hm₂
    · cases hm₂
    · cases hm₂
      exact update_of_ne hb ..

end Pbos.Kfxx
