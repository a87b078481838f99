import Pbos.Kfxx.RBTreeUnlink

/-!
# Kfxx/RBTreeSearch — the descents of the red-black tree

`Wf t W` is what the operations keep: `t` links the red-black tree `W`, the keys increase from left
to right, and `_size` and the cached nodes are right.  Under it each descent ends where the order
says: `_get` at the node with the key (`getLoop_spec`), `_find_max_lteq` at the last node not above
it (`findMaxLteqLoop_spec`), and `_get_slot` at the one place where a new key belongs
(`getSlotLoop_spec`).
-/

namespace Pbos.Kfxx

open RBTrees Ctx CTree

variable {ν κ : Type} [LinearOrder κ] {cx : RBColor} {x : ν}

/-- The comparator decides the order of the keys. -/
def Comparator.Lawful : Comparator κ → Prop
  | .twoway lt => ∀ a b, lt a b = true ↔ a < b
  | .threeway cmp => ∀ a b, (cmp a b < 0 ↔ a < b) ∧ (0 < cmp a b ↔ b < a)

theorem Comparator.Lawful.twoway_eq {lt : κ → κ → Bool} (hc : (Comparator.twoway lt).Lawful)
    (a b : κ) : lt a b = decide (a < b) := by
  rw [Bool.eq_iff_iff, hc a b, decide_eq_true_iff]

/-- **A lawful comparator answers as the order does**, and its assertion holds. -/
theorem Comparator.Lawful.order_eq {c : Comparator κ} (hc : c.Lawful) (line : ℕ) (a k : κ) :
    c.order line a k = .ok (if a < k then .lt else if k < a then .gt else .eq) := by
  cases c with
  | twoway lt =>
    by_cases h : a < k
    · simp [Comparator.order, hc.twoway_eq, h, h.not_gt]
    · simp [Comparator.order, hc.twoway_eq, h]
  | threeway cmp => simp [Comparator.order, (hc a k).1, (hc a k).2]

/-- The keys increase along the list. -/
def Sorted (val : ν → κ) (L : List ν) : Prop := L.Pairwise fun x y => val x < val y

/-- What the operations keep. -/
structure Wf (t : RBState ν κ) (W : CTree ν) : Prop where
  holds : Holds t W
  redBlack : RedBlack W
  sorted : Sorted t.rbValue W.nodes
  size : t.size = W.nodes.length
  cachedMinNode : t.cachedMinNode = W.nodes.head?
  cachedMaxNode : t.cachedMaxNode = W.nodes.getLast?

variable {c : Comparator κ} {t : RBState ν κ} {T W : CTree ν} {K : Ctx ν} {key : κ} {n : ℕ}
  {q : Option ν} {A B : List ν}

/-- In a node, the left keys are below its key and the right ones above. -/
theorem Sorted.node {l r : CTree ν} {val : ν → κ}
    (h : Sorted val (CTree.node cx l x r).nodes) :
    Sorted val l.nodes ∧ Sorted val r.nodes ∧ (∀ y ∈ l.nodes, val y < val x) ∧
      ∀ y ∈ r.nodes, val x < val y := by
  obtain ⟨hl, hxr, hlx⟩ := List.pairwise_append.mp h
  obtain ⟨hx, hr⟩ := List.pairwise_cons.mp hxr
  exact ⟨hl, hr, fun y hy => hlx y hy x List.mem_cons_self, hx⟩

/-! ## `find` -/

/-- **`_get` finds the node with the key**, or none when there is none. -/
theorem getLoop_spec (key : κ) (hc : c.Lawful) (h : Rep t.toLinks q T)
    (hs : Sorted t.rbValue T.nodes) (hfuel : T.nodes.length ≤ n) :
    ∃ r, getLoop c t key n T.ptr = .ok r ∧ ∀ x, r = some x ↔ x ∈ T.nodes ∧ t.rbValue x = key := by
  induction n generalizing T q with
  | zero =>
    have hnil : T.nodes = [] := List.length_eq_zero_iff.mp (Nat.le_zero.mp hfuel)
    cases T with
    | nil => exact ⟨none, by simp [getLoop], by simp⟩
    | node cx l x r => simp [CTree.nodes] at hnil
  | succ n ih =>
    cases T with
    | nil => exact ⟨none, by simp [getLoop], by simp⟩
    | node cx l x r =>
      obtain ⟨-, hl, hr, -, hTl, hTr⟩ := h
      obtain ⟨hsl, hsr, hlx, hxr⟩ := hs.node
      simp only [CTree.nodes, List.length_append, List.length_cons] at hfuel
      have hmem : ∀ y, y ∈ (CTree.node cx l x r).nodes ↔ y ∈ l.nodes ∨ y = x ∨ y ∈ r.nodes := by
        simp [CTree.nodes]
      simp only [ptr_node, getLoop, hc.order_eq, bind, Except.bind, hl, hr]
      by_cases h1 : t.rbValue x < key
      · obtain ⟨res, hres, hiff⟩ := ih hTr hsr (by omega)
        refine ⟨res, by simpa [h1] using hres, fun y => (hiff y).trans ?_⟩
        rw [hmem]
        refine ⟨fun hy => ⟨.inr (.inr hy.1), hy.2⟩, fun hy => ⟨?_, hy.2⟩⟩
        obtain ⟨hy | rfl | hy, hk⟩ := hy
        · exact absurd (hk ▸ (hlx y hy).trans h1) (lt_irrefl _)
        · exact absurd (hk ▸ h1) (lt_irrefl _)
        · exact hy
      · by_cases h2 : key < t.rbValue x
        · obtain ⟨res, hres, hiff⟩ := ih hTl hsl (by omega)
          refine ⟨res, by simpa [h1, h2] using hres, fun y => (hiff y).trans ?_⟩
          rw [hmem]
          refine ⟨fun hy => ⟨.inl hy.1, hy.2⟩, fun hy => ⟨?_, hy.2⟩⟩
          obtain ⟨hy | rfl | hy, hk⟩ := hy
          · exact hy
          · exact absurd (hk ▸ h2) (lt_irrefl _)
          · exact absurd (hk ▸ h2.trans (hxr y hy)) (lt_irrefl _)
        · have heq : t.rbValue x = key := le_antisymm (not_lt.mp h2) (not_lt.mp h1)
          refine ⟨some x, by simp [h1, h2, pure, Except.pure], fun y => ?_⟩
          rw [hmem, ← heq]
          constructor
          · rintro ⟨⟩
            exact ⟨.inr (.inl rfl), rfl⟩
          · rintro ⟨hy | rfl | hy, hk⟩
            · exact absurd hk (hlx y hy).ne
            · rfl
            · exact absurd hk (hxr y hy).ne'

/-! ## `find_max_lteq` -/

/-- **`_find_max_lteq` finds the last node not above the key**; `maxNode` is the last one seen so
far. -/
theorem findMaxLteqLoop_spec (key : κ) (maxNode : Option ν) (hc : c.Lawful) (h : Rep t.toLinks q T)
    (hs : Sorted t.rbValue T.nodes) (hfuel : T.nodes.length ≤ n) :
    findMaxLteqLoop c t key n T.ptr maxNode =
      .ok ((T.nodes.filter fun x => t.rbValue x ≤ key).getLast?.or maxNode) := by
  induction n generalizing T q maxNode with
  | zero =>
    have hnil : T.nodes = [] := List.length_eq_zero_iff.mp (Nat.le_zero.mp hfuel)
    cases T with
    | nil => simp [findMaxLteqLoop]
    | node cx l x r => simp [CTree.nodes] at hnil
  | succ n ih =>
    cases T with
    | nil => simp [findMaxLteqLoop]
    | node cx l x r =>
      obtain ⟨-, hl, hr, -, hTl, hTr⟩ := h
      obtain ⟨hsl, hsr, hlx, hxr⟩ := hs.node
      simp only [CTree.nodes, List.length_append, List.length_cons] at hfuel
      simp only [ptr_node, findMaxLteqLoop, hc.order_eq, bind, Except.bind, hl, hr]
      have hright : ¬ t.rbValue x < key → r.nodes.filter (fun y => t.rbValue y ≤ key) = [] :=
        fun hx => by
          rw [List.filter_eq_nil_iff]
          intro y hy
          simpa using (not_lt.mp hx).trans_lt (hxr y hy)
      by_cases h1 : t.rbValue x < key
      · simp only [h1]
        rw [ih (some x) hTr hsr (by omega)]
        simp [CTree.nodes, h1.le, List.getLast?_cons]
      · by_cases h2 : key < t.rbValue x
        · simp only [h1, h2]
          rw [ih maxNode hTl hsl (by omega)]
          simp [CTree.nodes, not_le.mpr h2, hright h1]
        · have heq : t.rbValue x = key := le_antisymm (not_lt.mp h2) (not_lt.mp h1)
          simp only [pure, Except.pure]
          simp [CTree.nodes, heq, hright h1]

/-! ## `_get_slot` -/

/-- The place a key belongs to: everything before is below the key, everything after above. -/
structure Place (val : ν → κ) (key : κ) (K : Ctx ν) : Prop where
  before : ∀ y ∈ before K, val y < key
  after : ∀ y ∈ after K, key < val y

/-- **`_get_slot` finds the key, or the place where it belongs.** -/
theorem getSlotLoop_spec (slot : Slot ν) (hc : c.Lawful) (h : Rep t.toLinks (up K) T)
    (hs : Sorted t.rbValue T.nodes) (hK : Place t.rbValue key K) (hfuel : T.nodes.length ≤ n) :
    (∃ x ∈ T.nodes, t.rbValue x = key ∧
      getSlotLoop c t key n slot (up K) T.ptr = .ok (none, some x)) ∨
    ∃ K' slot', plug .nil K' = plug T K ∧ Place t.rbValue key K' ∧
      getSlotLoop c t key n slot (up K) T.ptr = .ok (some slot', up K') := by
  induction n generalizing T K slot with
  | zero =>
    have hnil : T.nodes = [] := List.length_eq_zero_iff.mp (Nat.le_zero.mp hfuel)
    cases T with
    | nil => exact .inr ⟨K, slot, rfl, hK, by simp [getSlotLoop]⟩
    | node cx l x r => simp [CTree.nodes] at hnil
  | succ n ih =>
    cases T with
    | nil => exact .inr ⟨K, slot, rfl, hK, by simp [getSlotLoop]⟩
    | node cx l x r =>
      obtain ⟨-, hl, hr, -, hTl, hTr⟩ := h
      obtain ⟨hsl, hsr, hlx, hxr⟩ := hs.node
      simp only [CTree.nodes, List.length_append, List.length_cons] at hfuel
      simp only [ptr_node, getSlotLoop, hc.order_eq, bind, Except.bind, hl, hr]
      by_cases h1 : t.rbValue x < key
      · simp only [h1]
        have hK' : Place t.rbValue key (⟨.right, cx, x, l⟩ :: K) := by
          refine ⟨fun y hy => ?_, hK.after⟩
          simp only [Ctx.before, List.mem_append, List.mem_singleton] at hy
          rcases hy with hy | hy | rfl
          · exact hK.before y hy
          · exact (hlx y hy).trans h1
          · exact h1
        rcases ih (.child .right x) (K := ⟨.right, cx, x, l⟩ :: K) hTr hsr hK'
          (by omega) with ⟨y, hy, hk, hres⟩ | ⟨K', slot', hplug, hplace, hres⟩
        · exact .inl ⟨y, by simp [CTree.nodes, hy], hk, hres⟩
        · exact .inr ⟨K', slot', hplug, hplace, hres⟩
      · by_cases h2 : key < t.rbValue x
        · simp only [h1, h2]
          have hK' : Place t.rbValue key (⟨.left, cx, x, r⟩ :: K) := by
            refine ⟨hK.before, fun y hy => ?_⟩
            simp only [Ctx.after, List.cons_append, List.mem_cons, List.mem_append] at hy
            rcases hy with rfl | hy | hy
            · exact h2
            · exact h2.trans (hxr y hy)
            · exact hK.after y hy
          rcases ih (.child .left x) (K := ⟨.left, cx, x, r⟩ :: K) hTl hsl hK'
            (by omega) with ⟨y, hy, hk, hres⟩ | ⟨K', slot', hplug, hplace, hres⟩
          · exact .inl ⟨y, by simp [CTree.nodes, hy], hk, hres⟩
          · exact .inr ⟨K', slot', hplug, hplace, hres⟩
        · have heq : t.rbValue x = key := le_antisymm (not_lt.mp h2) (not_lt.mp h1)
          refine .inl ⟨x, by simp [CTree.nodes], heq, ?_⟩
          simp only [h1, h2, ↓reduceIte, pure, Except.pure]

/-! ## How many rounds they take -/

/-- **A descent takes two rounds for each black node of a path**, and one more for a red root. -/
theorem descents_return (key : κ) {b : ℕ} (hc : c.Lawful) (h : Rep t.toLinks q T) (hb : Bal T b)
    (hn : 2 * b < n ∨ T.isBlack ∧ 2 * b ≤ n) :
    (∃ r, getLoop c t key n T.ptr = .ok r) ∧
    (∀ y, ∃ r, findMaxLteqLoop c t key n T.ptr y = .ok r) ∧
    ∀ i p, ∃ r, getSlotLoop c t key n i p T.ptr = .ok r := by
  induction T generalizing q b n with
  | nil => simp [getLoop, findMaxLteqLoop, getSlotLoop]
  | node cx l x r ihl ihr =>
    obtain ⟨-, hl, hr, -, hTl, hTr⟩ := h
    obtain ⟨hred, b, rfl, hbl, hbr⟩ := hb
    obtain ⟨n, rfl⟩ : ∃ m, n = m + 1 := ⟨n - 1, by cases cx <;> simp [isBlack] at hn <;> omega⟩
    have hdown : 2 * b < n ∨ (l.isBlack ∧ r.isBlack) ∧ 2 * b ≤ n := by
      cases cx with
      | black => exact .inl (by simp [isBlack] at hn; omega)
      | red => exact .inr ⟨hred rfl, by simpa [isBlack, Nat.lt_succ_iff] using hn⟩
    have ihl := ihl hTl hbl (hdown.imp_right fun h => ⟨h.1.1, h.2⟩)
    have ihr := ihr hTr hbr (hdown.imp_right fun h => ⟨h.1.2, h.2⟩)
    simp only [ptr_node, getLoop, findMaxLteqLoop, getSlotLoop, hc.order_eq, bind, Except.bind, hl,
      hr]
    rcases lt_trichotomy (t.rbValue x) key with hx | hx | hx
    · simp [hx, ihr]
    · simp [hx, pure, Except.pure]
    · simp [hx, hx.asymm, ihl]

/-! ## The ends of a tree -/

/-- The first or the last of a list. -/
def endOf (d : Side) (L : List ν) : Option ν :=
  match d with
  | .left => L.head?
  | .right => L.getLast?

omit [LinearOrder κ] in
/-- **The extreme nodes of a subtree are the ends of its list.** -/
theorem extremeNode_spec {d : Side} (h : Rep t.toLinks q T) (hsize : T.nodes.length ≤ t.size + 1) :
    extremeNode t d T.ptr = .ok (endOf d T.nodes) := by
  cases hptr : T.ptr with
  | none =>
    obtain rfl := ptr_eq_none_iff.mp hptr
    cases d <;> rfl
  | some x =>
    obtain ⟨cy, y, z, K, rfl, hK, hloop⟩ := extremeLoop_spec (d := d) h hptr hsize
    simp only [extremeNode, hloop, Except.map]
    cases d with
    | left => simp [endOf, nodes_plug, before_eq_nil hK, CTree.mk, CTree.nodes]
    | right => simp [endOf, nodes_plug, after_eq_nil hK, CTree.mk, CTree.nodes]

omit [LinearOrder κ] in
/-- **The caches are the two ends of the tree.** -/
theorem updateNodeCaches_spec (h : Holds t W) (hsize : W.nodes.length ≤ t.size + 1) :
    updateNodeCaches t = .ok { t with
      cachedMinNode := W.nodes.head?, cachedMaxNode := W.nodes.getLast? } := by
  simp only [updateNodeCaches, getMinNode, getMaxNode, h.root, extremeNode_spec h.rep hsize, endOf,
    bind, Except.bind, pure, Except.pure]

/-! ## The neighbours of a node -/

/-- The nearest node above a subtree that lies on side `d` of it. -/
def beyond (d : Side) : Ctx ν → Option ν
  | [] => none
  | f :: K => if f.side = d then beyond d K else some f.x

theorem beyond_right (K : Ctx ν) : beyond .right K = (after K).head? := by
  induction K with
  | nil => rfl
  | cons f K ih =>
    obtain ⟨d, c, x, s⟩ := f
    cases d with
    | left => rfl
    | right => exact ih

theorem beyond_left (K : Ctx ν) : beyond .left K = (before K).getLast? := by
  induction K with
  | nil => rfl
  | cons f K ih =>
    obtain ⟨d, c, x, s⟩ := f
    cases d with
    | left => exact ih
    | right => simp [beyond, Ctx.before]

theorem length_le_plug (T : CTree ν) (K : Ctx ν) : K.length ≤ (plug T K).nodes.length := by
  rw [nodes_plug]
  induction K with
  | nil => exact Nat.zero_le _
  | cons f K ih =>
    obtain ⟨d, c, x, s⟩ := f
    cases d <;> simp only [before, after, List.length_append, List.length_cons] at ih ⊢ <;> omega

/-- In a list without repetition, only the first element has nothing before it. -/
theorem head?_eq_iff_nil (h : (A ++ x :: B).Nodup) :
    (A ++ x :: B).head? = some x ↔ A = [] := by
  cases A with
  | nil => simp
  | cons y A =>
    have hne : y ≠ x := by
      rintro rfl
      simp at h
    simpa using hne

theorem getLast?_eq_iff_nil (h : (A ++ x :: B).Nodup) :
    (A ++ x :: B).getLast? = some x ↔ B = [] := by
  have hrev : (A ++ x :: B).reverse = B.reverse ++ x :: A.reverse := by simp
  rw [← List.head?_reverse, hrev, head?_eq_iff_nil (hrev ▸ List.nodup_reverse.mpr h),
    List.reverse_eq_nil_iff]

variable [DecidableEq ν] {d : Side} {x : ν}

omit [LinearOrder κ]

/-- **Climbing ends at the nearest node on the side in question.** -/
theorem climbLoop_spec (h : Holds t (plug T K)) (hx : T.ptr = some x) (hfuel : K.length < n) :
    climbLoop t d n x = .ok (beyond d K) := by
  induction K generalizing T x n with
  | nil =>
    obtain ⟨n, rfl⟩ := Nat.exists_eq_succ_of_ne_zero (Nat.ne_of_gt hfuel)
    rw [climbLoop, (holds_plug.mp h).1.p_ptr hx]
    rfl
  | cons f K ih =>
    obtain ⟨n, rfl⟩ := Nat.exists_eq_succ_of_ne_zero (Nat.ne_of_gt (Nat.zero_lt_of_lt hfuel))
    obtain ⟨hT, hK, hnd⟩ := holds_plug.mp h
    rw [climbLoop, hT.p_ptr hx, up_cons, beyond]
    by_cases hd : f.side = d
    · have hchild : t.child d f.x = some x := by rw [← hx, ← hd]; exact hK.2.1
      simp only [hchild, hd]
      exact ih h (ptr_mk ..) (Nat.lt_of_succ_lt_succ hfuel)
    · have hchild : t.child d f.x ≠ some x := by
        rw [Side.eq_flip_of_ne (Ne.symm hd)]
        exact (hK.sibling_ne (nodup_plug.mp hnd).2.2 (ptr_mem hx)).2
      simp only [hchild, if_false, hd]

/-- The neighbour of a node with its subtrees in sight, `b` on the side in question. -/
theorem neighbour_focus {a b : CTree ν} {line : ℕ} {last : Option ν}
    (h : Holds t (plug (.mk d cx b x a) K))
    (hsize : t.size = (plug (.mk d cx b x a) K).nodes.length) (hlast : last ≠ some x) :
    neighbour t d line (some x) last = .ok ((endOf d.flip b.nodes).or (beyond d K)) := by
  obtain ⟨-, hb, -, -, hTb, -⟩ := rep_mk.mp (holds_plug.mp h).1
  have hlen : b.nodes.length ≤ t.size + 1 := by
    rw [hsize, nodes_plug, nodes_mk]
    cases d <;> simp [CTree.join] <;> omega
  simp only [neighbour, if_neg hlast, hb]
  cases hptr : b.ptr with
  | none =>
    obtain rfl := ptr_eq_none_iff.mp hptr
    have hend : endOf d.flip (CTree.nil : CTree ν).nodes = none := by cases d <;> rfl
    rw [hend]
    refine climbLoop_spec h (ptr_mk ..) (Nat.lt_succ_of_le ?_)
    rw [hsize]
    exact length_le_plug _ K
  | some y =>
    have hne : b.nodes ≠ [] := List.ne_nil_of_mem (ptr_mem hptr)
    obtain ⟨z, hz⟩ : ∃ z, endOf d.flip b.nodes = some z := by
      cases d with
      | left => exact ⟨_, List.getLast?_eq_some_getLast hne⟩
      | right => exact ⟨_, List.head?_eq_some_head hne⟩
    change extremeNode t d.flip (some y) = _
    rw [← hptr, extremeNode_spec hTb hlen, hz, Option.some_or]

omit [DecidableEq ν] in
/-- The list of a tree, at a node. -/
theorem Holds.focus (h : Holds t W) (hW : W.nodes = A ++ x :: B) :
    ∃ cx a b K, W = plug (.node cx a x b) K ∧ A = before K ++ a.nodes ∧ B = b.nodes ++ after K := by
  obtain ⟨cx, a, b, K, rfl⟩ := exists_focus (show x ∈ W.nodes by simp [hW])
  have hnd := h.nodup
  have hsplit : (before K ++ a.nodes) ++ x :: (b.nodes ++ after K) = A ++ x :: B := by
    rw [← hW, nodes_plug]
    simp [CTree.nodes]
  have hfirst : x ∉ before K ++ a.nodes := fun hx => by
    rw [hW, ← hsplit] at hnd
    exact (List.nodup_append.mp hnd).2.2 x hx x List.mem_cons_self rfl
  have hsecond : x ∉ b.nodes ++ after K := by
    rw [hW, ← hsplit] at hnd
    exact (List.nodup_cons.mp (List.nodup_append.mp hnd).2.1).1
  obtain ⟨hA, -, hB⟩ := (List.append_cons_inj_of_notMem hfirst hsecond).mp hsplit
  exact ⟨cx, a, b, K, rfl, hA.symm, hB.symm⟩

/-- **`_get_next` goes to the next node in order.** -/
theorem getNext_spec (h : Holds t W) (hsize : t.size = W.nodes.length) (hW : W.nodes = A ++ x :: B)
    (lastNode : Option ν) :
    getNext t (some x) lastNode = .ok (if lastNode = some x then none else B.head?) := by
  obtain ⟨cx, a, b, K, rfl, -, rfl⟩ := h.focus hW
  split
  · rename_i hlast
    simp only [getNext, neighbour, if_pos hlast]
  · rename_i hlast
    rw [getNext, neighbour_focus h hsize hlast, beyond_right,
      List.head?_append]
    rfl

/-- **`_get_prev` goes to the node before.** -/
theorem getPrev_spec (h : Holds t W) (hsize : t.size = W.nodes.length) (hW : W.nodes = A ++ x :: B)
    (firstNode : Option ν) :
    getPrev t (some x) firstNode = .ok (if firstNode = some x then none else A.getLast?) := by
  obtain ⟨cx, a, b, K, rfl, rfl, -⟩ := h.focus hW
  split
  · rename_i hlast
    simp only [getPrev, neighbour, if_pos hlast]
  · rename_i hlast
    rw [getPrev, neighbour_focus h hsize hlast, beyond_left,
      List.getLast?_append]
    rfl

end Pbos.Kfxx
