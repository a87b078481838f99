import Pbos.Kfxx.RBTreeRuns

/-!
# Kfxx/RBTreeIter — going through a red-black tree

An iterator is a node with a direction; null is the end.  `++` and `--` step by `_get_next` and
`_get_prev`, and `--` takes the end back to a cached node.  In a valid tree a step moves by one
place in the list of nodes (`incr_forward`, `incr_reversed`), so a loop over the iterators goes
through the list or its reverse, and one over `_get_next` through the part up to the bounding node
(`follow_eq`).
-/

namespace Pbos.Kfxx

open RBTrees List

variable {ν κ σ : Type}

/-! ## Model -/

inductive IteratorDirection
  | forward
  | reversed
  | invalid
  deriving DecidableEq

/-- `Iterator`; the tree is an argument of its operations. -/
structure Iterator (ν : Type) where
  node : Option ν
  direction : IteratorDirection

variable [DecidableEq ν]

/-- `operator++`. -/
def Iterator.incr (t : RBState ν κ) (it : Iterator ν) : Except Fault (Iterator ν) := do
  if it.node = none then .error (.panic "Increasing the end Iterator" [])
  else if it.direction = .forward then return { it with node := ← getNext t it.node none }
  else return { it with node := ← getPrev t it.node none }

/-- `operator--`. -/
def Iterator.decr (t : RBState ν κ) (it : Iterator ν) : Except Fault (Iterator ν) := do
  if it.direction = .forward then
    if it.node = t.cachedMinNode then .error (.panic "Dereasing the begin Iterator" [])
    else if it.node = none then return { it with node := t.cachedMaxNode }
    else return { it with node := ← getPrev t it.node none }
  else
    if it.node = t.cachedMaxNode then .error (.panic "Dereasing the begin Iterator" [])
    else if it.node = none then return { it with node := t.cachedMinNode }
    else return { it with node := ← getNext t it.node none }

omit [DecidableEq ν] in
/-- `begin()`. -/
def RBState.begin (t : RBState ν κ) : Except Fault (Iterator ν) := do
  return ⟨← getMinNode t t.root, .forward⟩

/-- `begin_reversed()`. -/
def RBState.beginReversed (t : RBState ν κ) : Iterator ν := ⟨t.cachedMaxNode, .reversed⟩

omit [DecidableEq ν] in
/-- A loop that takes the `step` as long as there is a node: the nodes it comes to, and the state it
ends in. -/
def follow (node : σ → Option ν) (step : σ → Except Fault σ) : ℕ → σ → Except Fault (List ν × σ)
  | n, s =>
    match node s, n with
    | none, _ => .ok ([], s)
    | some _, 0 => .error .hang
    | some x, n + 1 => do
      let s ← step s
      let (xs, s) ← follow node step n s
      return (x :: xs, s)

/-! ## One step -/

section Step

variable [LinearOrder κ] {t : RBState ν κ} {W : CTree ν} {A B : List ν} {x : ν}
  {dir : IteratorDirection}

section

variable (h : Wf t W) (hW : W.nodes = A ++ x :: B)

include h hW

theorem incr_forward : Iterator.incr t ⟨some x, .forward⟩ = .ok ⟨B.head?, .forward⟩ := by
  simp [Iterator.incr, getNext_spec h.holds h.size hW none, bind, Except.bind, pure, Except.pure]

theorem incr_reversed (hdir : dir ≠ .forward) :
    Iterator.incr t ⟨some x, dir⟩ = .ok ⟨A.getLast?, dir⟩ := by
  simp [Iterator.incr, hdir, getPrev_spec h.holds h.size hW none, bind, Except.bind, pure,
    Except.pure]

/-- **`--` undoes `++`**, also from the end. -/
theorem decr_incr (dir : IteratorDirection) :
    ∃ it, Iterator.incr t ⟨some x, dir⟩ = .ok it ∧ Iterator.decr t it = .ok ⟨some x, dir⟩ := by
  have hnd := h.holds.nodup
  have hmin := h.cachedMinNode
  have hmax := h.cachedMaxNode
  by_cases hdir : dir = .forward
  · subst hdir
    refine ⟨_, incr_forward h hW, ?_⟩
    cases B with
    | nil =>
      have hne : (none : Option ν) ≠ t.cachedMinNode := by simp [hmin, hW]
      simp [Iterator.decr, hne, hmax, hW, pure, Except.pure]
    | cons y B =>
      have hy : W.nodes = (A ++ [x]) ++ y :: B := by simp [hW]
      have hne : some y ≠ t.cachedMinNode := fun e => by
        rw [hmin, hy] at e
        exact append_ne_nil_of_right_ne_nil A (cons_ne_nil x [])
          ((head?_eq_iff_nil (hy ▸ hnd)).mp e.symm)
      simp [Iterator.decr, hne, getPrev_spec h.holds h.size hy none, bind, Except.bind, pure,
        Except.pure]
  · refine ⟨_, incr_reversed h hW hdir, ?_⟩
    rcases eq_nil_or_concat A with rfl | ⟨A, y, rfl⟩
    · have hne : (none : Option ν) ≠ t.cachedMaxNode := by simp [hmax, hW, getLast?_cons]
      simp [Iterator.decr, hdir, hne, hmin, hW, pure, Except.pure]
    · have hy : W.nodes = A ++ y :: x :: B := by simp [hW]
      have hne : some y ≠ t.cachedMaxNode := fun e => by
        rw [hmax, hy] at e
        exact cons_ne_nil x B ((getLast?_eq_iff_nil (hy ▸ hnd)).mp e.symm)
      simp [Iterator.decr, hdir, hne, getNext_spec h.holds h.size hy none, bind, Except.bind, pure,
        Except.pure]

end

end Step

/-! ## Whole loops -/

omit [DecidableEq ν] in
/-- **A step that moves by one place in a list goes through the list.** -/
theorem follow_eq {node : σ → Option ν} {step : σ → Except Fault σ} {L : List ν} {n : ℕ}
    (s : Option ν → σ) (hs : ∀ o, node (s o) = o)
    (hstep : ∀ A x B, L = A ++ x :: B → step (s (some x)) = .ok (s B.head?)) (hn : L.length ≤ n) :
    follow node step n (s L.head?) = .ok (L, s none) := by
  induction L generalizing n with
  | nil =>
    unfold follow
    simp [hs]
  | cons x L ih =>
    obtain ⟨n, rfl⟩ := Nat.exists_eq_succ_of_ne_zero (Nat.ne_of_gt (Nat.zero_lt_of_lt hn))
    have hrest := ih (fun A y B hL => hstep (x :: A) y B (by rw [hL]; rfl))
      (Nat.le_of_succ_le_succ hn)
    unfold follow
    simp only [head?_cons, hs, hstep [] x L rfl, hrest, bind, Except.bind, pure, Except.pure]

variable [LinearOrder κ] {t : RBState ν κ} {W : CTree ν} {n : ℕ}

/-- **Going through a valid tree.**  The list of its nodes, which has each node once and increases,
is what a loop from `begin()` goes through; a reversed loop goes through it backwards; `--` undoes
`++`; and a loop over `_get_next` or `_get_prev` with a bounding node goes as far as that node. -/
theorem iterates (h : Wf t W) (hn : t.size ≤ n) :
    (W.nodes.Nodup ∧ (∀ x, x ∈ W.nodes ↔ InTree t x) ∧ Sorted t.rbValue W.nodes) ∧
    (∃ it, t.begin = .ok it ∧
      follow Iterator.node (Iterator.incr t) n it = .ok (W.nodes, ⟨none, .forward⟩)) ∧
    follow Iterator.node (Iterator.incr t) n t.beginReversed =
      .ok (W.nodes.reverse, ⟨none, .reversed⟩) ∧
    (∀ x ∈ W.nodes, ∀ dir, ∃ it, Iterator.incr t ⟨some x, dir⟩ = .ok it ∧
      Iterator.decr t it = .ok ⟨some x, dir⟩) ∧
    ∀ A L B, W.nodes = A ++ L ++ B → follow id (getNext t · L.getLast?) n L.head? = .ok (L, none) ∧
      follow id (getPrev t · L.head?) n L.getLast? = .ok (L.reverse, none) := by
  have hlen : W.nodes.length ≤ n := h.size ▸ hn
  have hnd := h.holds.nodup
  have hpart : ∀ A L B, W.nodes = A ++ L ++ B → L.length ≤ n := fun A L B hW => by
    simp only [hW, length_append] at hlen
    omega
  have hsub : ∀ A L B, W.nodes = A ++ L ++ B → L.Nodup := fun A L B hW =>
    (nodup_append.mp (nodup_append.mp (hW ▸ hnd)).1).2.1
  refine ⟨⟨hnd, fun x => h.holds.inTree_iff.symm, h.sorted⟩, ⟨⟨W.nodes.head?, .forward⟩, ?_, ?_⟩,
    ?_, fun x hx dir => ?_, fun A L B hW => ⟨?_, ?_⟩⟩
  · have hmin : getMinNode t t.root = .ok W.nodes.head? := by
      rw [getMinNode, h.holds.root, extremeNode_spec h.holds.rep (by rw [h.size]; omega)]
      rfl
    simp [RBState.begin, hmin, bind, Except.bind, pure, Except.pure]
  · exact follow_eq (Iterator.mk · .forward) (fun _ => rfl) (fun A x B hW => incr_forward h hW) hlen
  · rw [RBState.beginReversed, h.cachedMaxNode, ← head?_reverse]
    refine follow_eq (Iterator.mk · .reversed) (fun _ => rfl) (fun A x B hW => ?_)
      (by rwa [length_reverse])
    have hW' : W.nodes = B.reverse ++ x :: A.reverse := by simpa using reverse_eq_iff.mp hW
    rw [incr_reversed h hW' (by simp : IteratorDirection.reversed ≠ .forward), getLast?_reverse]
  · obtain ⟨A, B, hW⟩ := append_of_mem hx
    exact decr_incr h hW dir
  · refine follow_eq id (fun _ => rfl) (fun C x D hL => ?_) (hpart A L B hW)
    have hx : W.nodes = (A ++ C) ++ x :: (D ++ B) := by simp [hW, hL]
    have hlast := getLast?_eq_iff_nil (hL ▸ hsub A L B hW)
    rw [← hL] at hlast
    change getNext t (some x) L.getLast? = _
    rw [getNext_spec h.holds h.size hx]
    cases D <;> simp [hlast]
  · rw [← head?_reverse]
    refine follow_eq id (fun _ => rfl) (fun C x D hL => ?_)
      (@length_reverse _ L ▸ hpart A L B hW)
    have hL' : L = D.reverse ++ x :: C.reverse := by simpa using reverse_eq_iff.mp hL
    have hx : W.nodes = (A ++ D.reverse) ++ x :: (C.reverse ++ B) := by simp [hW, hL']
    have hfirst := head?_eq_iff_nil (hL' ▸ hsub A L B hW)
    rw [← hL'] at hfirst
    change getPrev t (some x) L.head? = _
    rw [getPrev_spec h.holds h.size hx]
    cases D <;> simp [hfirst]

/-- The node 0 with the right child 1. -/
def pair : RBState ℕ ℕ :=
  { p := fun x => if x = 1 then some 0 else none
    child := fun d x => if d = .right ∧ x = 0 then some 1 else none
    color := fun x => if x = 1 then .red else .black
    rbValue := id
    root := some 0, cachedMinNode := some 0, cachedMaxNode := some 1, size := 2 }

/-- A reversed loop over `pair` comes to 1 and to 0. -/
theorem iterates_pair : follow Iterator.node (Iterator.incr pair) 2 pair.beginReversed =
    .ok ([1, 0], ⟨none, .reversed⟩) :=
  (iterates (W := .node .black .nil 0 (.node .red .nil 1 .nil))
    { holds := ⟨⟨rfl, rfl, rfl, rfl, trivial, rfl, rfl, rfl, rfl, trivial, trivial⟩, rfl, by decide⟩
      redBlack := ⟨rfl, 1, by simp [Bal]⟩
      sorted := by simp [Sorted, CTree.nodes, pair]
      size := rfl
      cachedMinNode := rfl
      cachedMaxNode := rfl } le_rfl).2.2.1

end Pbos.Kfxx
