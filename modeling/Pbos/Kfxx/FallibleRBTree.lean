import Pbos.Kfxx.RBTreeRuns

/-!
# Kfxx/FallibleRBTree — the red-black tree with a comparator that may fail

`FallibleRBTree` has its own code for the descents: a comparison may have no answer, a query then
has none either, and an insertion is refused.  The rebalancing is shared with `RBTree`.  Two-way
trees differ in two places from the infallible ones: `_get_slot` answers the slot, not null, when it
meets an equal key, and in a debug build `_find_max_lteq` moves on twice at a right turn.

`fallible_agrees_of_run` says what this means for a comparator that never fails: the two trees give
the same answers and stay the same as long as no key is inserted twice and no debug search runs past
the node it is looking for (`Steady`), and a three-way tree always.
-/

namespace Pbos.Kfxx

open RBTrees Ctx List

/-- A comparator whose comparisons may have no answer. -/
inductive FallibleComparator (κ : Type)
  | twoway (lt : κ → κ → Option Bool)
  | threeway (cmp : κ → κ → Option Int)

variable {ν κ : Type} {cmp : κ → κ → Int} {lt : κ → κ → Bool} {T W : CTree ν} {y : ν}
  {call : RBCall ν κ}

namespace FallibleComparator

/-- Compare a node's key with `key`; `none` when the comparator fails.  The check of the opposite
comparison is there in a debug build only, with the assertion on `line`. -/
def order (c : FallibleComparator κ) (debug : Bool) (line : ℕ) (a key : κ) :
    Except Fault (Option Ordering) :=
  match c with
  | .threeway cmp =>
    .ok ((cmp a key).map fun r => if r < 0 then .lt else if 0 < r then .gt else .eq)
  | .twoway lt =>
    match lt a key with
    | none => .ok none
    | some true =>
      if debug then
        match lt key a with
        | none => .ok none
        | some true => .error (.assertion "include/pbos/kfxx/rbtree.hh" line)
        | some false => .ok (some .lt)
      else .ok (some .lt)
    | some false => .ok ((lt key a).map fun r => if r then .gt else .eq)

/-- What `_get_slot` returns when it meets an equal key: the slot in a two-way tree, and null in a
three-way one. -/
def equalSlot (c : FallibleComparator κ) (i : Slot ν) : Option (Slot ν) :=
  match c with
  | .twoway _ => some i
  | .threeway _ => none

end FallibleComparator

namespace Fallible

variable (c : FallibleComparator κ) (debug : Bool) (t : RBState ν κ)

/-! ## The descents -/

/-- The loop of `_get`. -/
def getLoop (key : κ) : ℕ → Option ν → Except Fault (Option (Option ν))
  | _, none => .ok (some none)
  | 0, some _ => .error .hang
  | n + 1, some i => do
    match ← c.order debug 92 (t.rbValue i) key with
    | some .lt => getLoop key n (t.child .right i)
    | some .gt => getLoop key n (t.child .left i)
    | some .eq => pure (some (some i))
    | none => pure none

/-- `find`, that is `_get`. -/
def find (key : κ) : Except Fault (Option (Option ν)) :=
  getLoop c debug t key (t.size + 1) t.root

/-- The loop of `_get_slot`.  `i` is the slot, `cur` what it holds. -/
def getSlotLoop (key : κ) :
    ℕ → Slot ν → Option ν → Option ν → Except Fault (Option (Slot ν) × Option ν)
  | _, i, parent, none => .ok (some i, parent)
  | 0, _, _, some _ => .error .hang
  | n + 1, i, _, some x => do
    match ← c.order debug 164 (t.rbValue x) key with
    | some .lt => getSlotLoop key n (.child .right x) (some x) (t.child .right x)
    | some .gt => getSlotLoop key n (.child .left x) (some x) (t.child .left x)
    | some .eq => pure (c.equalSlot i, some x)
    | none => pure (none, some x)

/-- `_get_slot`, with the parent it reports. -/
def getSlot (key : κ) : Except Fault (Option (Slot ν) × Option ν) :=
  getSlotLoop c debug t key (t.size + 1) .root none t.root

/-- The loop of `_find_max_lteq`.  A three-way comparison is used without asking whether it has an
answer. -/
def findMaxLteqLoop (data : κ) : ℕ → Option ν → Option ν → Except Fault (Option (Option ν))
  | _, none, maxNode => .ok (some maxNode)
  | 0, some _, _ => .error .hang
  | n + 1, some cur, maxNode => do
    match c, ← c.order debug 314 (t.rbValue cur) data with
    | .threeway _, none => .error (.assertion "include/pbos/kfxx/option.hh" 48)
    | .twoway _, none => pure none
    | .twoway _, some .lt =>
      if debug then
        -- `cur_node` has already moved on when `max_node` is set
        match t.child .right cur with
        | none => .error .nullDeref
        | some next => findMaxLteqLoop data n (t.child .right next) (some next)
      else findMaxLteqLoop data n (t.child .right cur) (some cur)
    | .threeway _, some .lt => findMaxLteqLoop data n (t.child .right cur) (some cur)
    | _, some .gt => findMaxLteqLoop data n (t.child .left cur) maxNode
    | _, some .eq => pure (some (some cur))

/-- `find_max_lteq`. -/
def findMaxLteq (data : κ) : Except Fault (Option (Option ν)) :=
  findMaxLteqLoop c debug t data (t.size + 1) t.root none

/-! ## Insertion -/

/-- The side of `parent` on which `_insert` puts a node, if the comparator answers. -/
def insertSide (key parentKey : κ) : Except Fault (Option Side) :=
  match c with
  | .threeway cmp =>
    match cmp key parentKey with
    | none => .ok none
    | some r =>
      if r < 0 then .ok (some .left)
      else if 0 < r then .ok (some .right)
      else .error (.assertion "include/pbos/kfxx/rbtree.hh" 235)
  | .twoway lt => .ok ((lt key parentKey).map fun r => if r then .left else .right)

variable [DecidableEq ν]

/-- The part of `_insert` that links the node; `none` when the comparator fails. -/
def insertLink (parent : Option ν) (node : ν) : Except Fault (Option (RBState ν κ)) :=
  if t.root = none then .ok (some ((t.setRoot (some node)).setColor (some node) .black))
  else
    match parent with
    | none => .error .nullDeref
    | some parent => do
      match ← insertSide c (t.rbValue node) (t.rbValue parent) with
      | none => pure none
      | some d => (insertFixup (link t d parent node) node).map some

/-- `_insert`. -/
def insertAt (parent : Option ν) (node : ν) : Except Fault (Bool × RBState ν κ) := do
  kdAssert (t.child .left node = none) "include/pbos/kfxx/rbtree.hh" 218
  kdAssert (t.child .right node = none) "include/pbos/kfxx/rbtree.hh" 219
  match ← insertLink c t parent node with
  | none => pure (false, t)
  | some t => do
    let t ← updateNodeCaches t
    pure (true, { t with size := t.size + 1 })

/-- `insert`: whether the node is inserted, and the tree. -/
def insert (node : ν) : Except Fault (Bool × RBState ν κ) := do
  match ← getSlot c debug t (t.rbValue node) with
  | (none, _) => pure (false, t)
  | (some _, parent) => insertAt c t parent node

/-- A call with its answer; `none` is the answer of a query whose comparator failed. -/
def exec :
    RBCall ν κ → Except Fault (Option (RBAnswer ν) × RBState ν κ)
  | .insert x => (insert c debug t x).map fun r => (some (.inserted r.1), r.2)
  | .remove x => (remove t x).map fun t' => (some .removed, t')
  | .find key => (find c debug t key).map fun r => (r.map .found, t)
  | .findMaxLteq data => (findMaxLteq c debug t data).map fun r => (r.map .found, t)

end Fallible

/-! ## A comparator that never fails -/

/-- The comparator of an infallible tree, as one that may fail and never does. -/
def Comparator.fallible : Comparator κ → FallibleComparator κ
  | .twoway lt => .twoway fun a b => some (lt a b)
  | .threeway cmp => .threeway fun a b => some (cmp a b)

section Lawful

variable [LinearOrder κ] {c : Comparator κ} {debug : Bool} {t t' : RBState ν κ} {key data : κ}
  {n : ℕ} {i : Slot ν} {parent cur q : Option ν} {val : ν → κ} {cx : RBColor} {l r : CTree ν}
  {x : ν}

/-- It answers as the order does, in both builds. -/
theorem Comparator.Lawful.order_fallible (hc : c.Lawful) (debug : Bool) (line : ℕ) (a k : κ) :
    c.fallible.order debug line a k =
      .ok (some (if a < k then .lt else if k < a then .gt else .eq)) := by
  cases c with
  | twoway lt =>
    by_cases h : a < k
    · simp [FallibleComparator.order, Comparator.fallible, hc.twoway_eq, h, h.not_gt]
    · simp [FallibleComparator.order, Comparator.fallible, hc.twoway_eq, h]
  | threeway cmp =>
    simp [FallibleComparator.order, Comparator.fallible, (hc a k).1, (hc a k).2]

/-- **`find` answers as in the infallible tree.** -/
theorem find_fallible (hc : c.Lawful) (debug : Bool) (t : RBState ν κ) (key : κ) :
    Fallible.find c.fallible debug t key = (find c t key).map some := by
  have loop : ∀ n cur, Fallible.getLoop c.fallible debug t key n cur =
      (getLoop c t key n cur).map some := by
    intro n
    induction n with
    | zero => intro cur; cases cur <;> rfl
    | succ n ih =>
      intro cur
      cases cur with
      | none => rfl
      | some i =>
        simp only [Fallible.getLoop, getLoop, hc.order_fallible, hc.order_eq]
        split_ifs
        · exact ih _
        · exact ih _
        · rfl
  exact loop _ _

/-- A search that meets no equal key ends at the same slot. -/
theorem getSlotLoop_fallible (hc : c.Lawful) {s : Slot ν}
    (h : getSlotLoop c t key n i parent cur = .ok (some s, q)) :
    Fallible.getSlotLoop c.fallible debug t key n i parent cur = .ok (some s, q) := by
  induction n generalizing i parent cur with
  | zero =>
    cases cur with
    | none => exact h
    | some x => cases h
  | succ n ih =>
    cases cur with
    | none => exact h
    | some x =>
      simp only [Fallible.getSlotLoop, getSlotLoop, hc.order_fallible, hc.order_eq] at h ⊢
      split_ifs at h ⊢
      · exact ih h
      · exact ih h
      · cases h

/-- A three-way search is the same whatever it meets. -/
theorem getSlotLoop_threeway (hc : (Comparator.threeway cmp).Lawful) :
    Fallible.getSlotLoop (Comparator.threeway cmp).fallible debug t key n i parent cur =
      getSlotLoop (.threeway cmp) t key n i parent cur := by
  induction n generalizing i parent cur with
  | zero => cases cur <;> rfl
  | succ n ih =>
    cases cur with
    | none => rfl
    | some x =>
      simp only [Fallible.getSlotLoop, getSlotLoop, hc.order_fallible, hc.order_eq]
      split_ifs
      · exact ih
      · exact ih
      · rfl

/-- A two-way search always ends at a slot. -/
theorem getSlotLoop_twoway (hc : (Comparator.twoway lt).Lawful) :
    Fallible.getSlotLoop (Comparator.twoway lt).fallible debug t key n i parent cur ≠
      .ok (none, q) := by
  induction n generalizing i parent cur with
  | zero => cases cur <;> nofun
  | succ n ih =>
    cases cur with
    | none => nofun
    | some x =>
      simp only [Fallible.getSlotLoop, hc.order_fallible]
      split_ifs
      · exact ih
      · exact ih
      · nofun

/-! ### `insert` -/

section Insert

variable [DecidableEq ν] {x : ν}

omit [LinearOrder κ] in
/-- The second comparison of `_insert` picks the same side. -/
theorem insertSide_fallible {parentKey : κ} {d : Side} (h : insertSide c key parentKey = .ok d) :
    Fallible.insertSide c.fallible key parentKey = .ok (some d) := by
  cases c with
  | twoway lt =>
    cases h
    rfl
  | threeway cmp =>
    simp only [insertSide] at h
    simp only [Fallible.insertSide, Comparator.fallible]
    split_ifs at h ⊢ <;> cases h <;> rfl

omit [LinearOrder κ] in
theorem insertAt_fallible (h : insertAt c t parent x = .ok t') :
    Fallible.insertAt c.fallible t parent x = .ok (true, t') := by
  obtain ⟨_, hl, h⟩ := of_bind h
  obtain ⟨_, hr, h⟩ := of_bind h
  obtain ⟨t₁, h₁, h⟩ := of_bind h
  obtain ⟨t₂, h₂, h⟩ := of_bind h
  have hlink : Fallible.insertLink c.fallible t parent x = .ok (some t₁) := by
    unfold insertLink at h₁
    unfold Fallible.insertLink
    split at h₁ <;> rename_i hroot
    · cases h₁
      exact if_pos hroot
    · rw [if_neg hroot]
      cases parent with
      | none => cases h₁
      | some q =>
        obtain ⟨d, hd, h₁⟩ := of_bind h₁
        simp only [insertSide_fallible hd, bind, Except.bind]
        exact congrArg (Except.map some) h₁
  unfold Fallible.insertAt
  simp only [kdAssert_of_pos (kdAssert_eq_ok_iff.mp hl), kdAssert_of_pos (kdAssert_eq_ok_iff.mp hr),
    hlink, bind, Except.bind, h₂]
  cases h
  rfl

/-- A node that the infallible tree takes, the fallible tree takes too. -/
theorem insert_fallible_of_true (hc : c.Lawful) (h : insert c t x = .ok (true, t')) :
    Fallible.insert c.fallible debug t x = .ok (true, t') := by
  obtain ⟨⟨slot, parent⟩, hslot, h⟩ := of_bind h
  cases slot with
  | none => cases h
  | some slot =>
    obtain ⟨t₁, h₁, h⟩ := of_bind h
    cases h
    unfold Fallible.insert Fallible.getSlot
    rw [getSlotLoop_fallible hc hslot]
    exact insertAt_fallible h₁

/-- A node that the infallible tree refuses, a three-way tree refuses. -/
theorem insert_threeway_of_false (hc : (Comparator.threeway cmp).Lawful)
    (h : insert (.threeway cmp) t x = .ok (false, t')) :
    Fallible.insert (Comparator.threeway cmp).fallible debug t x = .ok (false, t') := by
  obtain ⟨⟨slot, parent⟩, hslot, h⟩ := of_bind h
  unfold Fallible.insert Fallible.getSlot
  rw [getSlotLoop_threeway hc, show getSlotLoop _ _ _ _ _ _ _ = _ from hslot]
  cases slot with
  | none => exact h
  | some slot =>
    obtain ⟨t₁, -, h⟩ := of_bind h
    cases h

/-- **A two-way tree refuses no node**: an equal key is inserted below the node that has it. -/
theorem insert_twoway_ne_false (hc : (Comparator.twoway lt).Lawful) :
    Fallible.insert (Comparator.twoway lt).fallible debug t x ≠ .ok (false, t') := by
  intro h
  obtain ⟨⟨slot, parent⟩, hslot, h⟩ := of_bind h
  cases slot with
  | none => exact getSlotLoop_twoway hc hslot
  | some slot =>
    obtain ⟨-, -, h⟩ := of_bind h
    obtain ⟨-, -, h⟩ := of_bind h
    obtain ⟨t₁, hlink, h⟩ := of_bind h
    cases t₁ with
    | some t₁ =>
      obtain ⟨t₂, -, h⟩ := of_bind h
      cases h
    | none =>
      unfold Fallible.insertLink at hlink
      split at hlink
      · cases hlink
      · cases parent with
        | none => cases hlink
        | some q =>
          obtain ⟨d, hd, hlink⟩ := of_bind hlink
          cases hd
          obtain ⟨t₂, -, h₂⟩ := map_eq_ok_iff.mp hlink
          cases h₂

end Insert

/-! ### `find_max_lteq` -/

section Step

variable {x : ν} {data : κ} {maxNode : Option ν}

theorem findMaxLteqLoop_of_gt (hc : c.Lawful) (hx : data < t.rbValue x) :
    Fallible.findMaxLteqLoop c.fallible debug t data (n + 1) (some x) maxNode =
      Fallible.findMaxLteqLoop c.fallible debug t data n (t.child .left x) maxNode := by
  rw [Fallible.findMaxLteqLoop, hc.order_fallible, if_neg hx.asymm, if_pos hx]
  cases c <;> rfl

theorem findMaxLteqLoop_of_eq (hc : c.Lawful) (hx : t.rbValue x = data) :
    Fallible.findMaxLteqLoop c.fallible debug t data (n + 1) (some x) maxNode =
      .ok (some (some x)) := by
  rw [Fallible.findMaxLteqLoop, hc.order_fallible, if_neg hx.not_lt, if_neg hx.not_gt]
  cases c <;> rfl

theorem findMaxLteqLoop_of_lt (hc : c.Lawful) (hd : debug = false ∨ ∃ cmp, c = .threeway cmp)
    (hx : t.rbValue x < data) :
    Fallible.findMaxLteqLoop c.fallible debug t data (n + 1) (some x) maxNode =
      Fallible.findMaxLteqLoop c.fallible debug t data n (t.child .right x) (some x) := by
  rw [Fallible.findMaxLteqLoop, hc.order_fallible, if_pos hx]
  cases c with
  | twoway lt =>
    obtain rfl : debug = false := hd.resolve_right nofun
    rfl
  | threeway cmp => rfl

/-- The right turn of a debug build. -/
theorem findMaxLteqLoop_of_lt_debug (hc : (Comparator.twoway lt).Lawful)
    (hx : t.rbValue x < data) :
    Fallible.findMaxLteqLoop (Comparator.twoway lt).fallible true t data (n + 1) (some x) maxNode =
      match t.child .right x with
      | none => .error .nullDeref
      | some next => Fallible.findMaxLteqLoop (Comparator.twoway lt).fallible true t data n
          (t.child .right next) (some next) := by
  rw [Fallible.findMaxLteqLoop, hc.order_fallible, if_pos hx]
  rfl

end Step

/-- Without the second move, the search is the same. -/
theorem findMaxLteq_fallible (hc : c.Lawful) (hd : debug = false ∨ ∃ cmp, c = .threeway cmp)
    (t : RBState ν κ) (data : κ) :
    Fallible.findMaxLteq c.fallible debug t data = (findMaxLteq c t data).map some := by
  have loop : ∀ n cur maxNode, Fallible.findMaxLteqLoop c.fallible debug t data n cur maxNode =
      (findMaxLteqLoop c t data n cur maxNode).map some := by
    intro n
    induction n with
    | zero => intro cur _; cases cur <;> rfl
    | succ n ih =>
      intro cur maxNode
      cases cur with
      | none => rfl
      | some x =>
        simp only [findMaxLteqLoop, hc.order_eq]
        rcases lt_trichotomy (t.rbValue x) data with hx | hx | hx
        · rw [findMaxLteqLoop_of_lt hc hd hx, if_pos hx]
          exact ih _ _
        · rw [findMaxLteqLoop_of_eq hc hx, if_neg hx.not_lt, if_neg hx.not_gt]
          rfl
        · rw [findMaxLteqLoop_of_gt hc hx, if_neg hx.asymm, if_pos hx]
          exact ih _ _
  exact loop _ _ _

/-- The last node of a subtree not above `data`, or the one seen before. -/
def lastLteq (val : ν → κ) (data : κ) (T : CTree ν) (maxNode : Option ν) : Option ν :=
  (T.nodes.filter fun x => val x ≤ data).getLast?.or maxNode

section LastLteq

variable {val : ν → κ} {data : κ} {cx : RBColor} {l r : CTree ν} {x : ν} {maxNode : Option ν}

theorem lastLteq_of_lt (hx : val x < data) :
    lastLteq val data (.node cx l x r) maxNode = lastLteq val data r (some x) := by
  simp [lastLteq, CTree.nodes, hx.le, List.getLast?_cons]

/-- Nothing in a subtree above `data` qualifies. -/
theorem lastLteq_of_above (h : ∀ y ∈ T.nodes, data < val y) :
    lastLteq val data T maxNode = maxNode := by
  rw [lastLteq, filter_eq_nil_iff.mpr fun y hy => by simpa using h y hy]
  rfl

theorem lastLteq_of_gt (hs : Sorted val (CTree.node cx l x r).nodes) (hx : data < val x) :
    lastLteq val data (.node cx l x r) maxNode = lastLteq val data l maxNode := by
  have hr : r.nodes.filter (fun y => val y ≤ data) = [] :=
    filter_eq_nil_iff.mpr fun y hy => by simpa using hx.trans (hs.node.2.2.2 y hy)
  simp [lastLteq, CTree.nodes, not_le.mpr hx, hr]

theorem lastLteq_of_eq (hs : Sorted val (CTree.node cx l x r).nodes) (hx : val x = data) :
    lastLteq val data (.node cx l x r) maxNode = some x := by
  have hr : r.nodes.filter (fun y => val y ≤ data) = [] :=
    filter_eq_nil_iff.mpr fun y hy => by simpa [← hx] using hs.node.2.2.2 y hy
  simp [lastLteq, CTree.nodes, hx, hr]

/-- What is found is not above `data`, unless it was there before. -/
theorem lastLteq_eq_some (h : lastLteq val data T maxNode = some y) :
    val y ≤ data ∨ maxNode = some y := by
  rw [lastLteq, Option.or_eq_some_iff] at h
  rcases h with h | ⟨-, h⟩
  · have hy := (mem_filter.mp (mem_of_getLast? h)).2
    exact .inl (by simpa using hy)
  · exact .inr h

end LastLteq

/-- **The debug search does not run past**: wherever it turns right, there is a right child, and
this child is not above `data`.  The search goes on behind it. -/
def Steady (val : ν → κ) (data : κ) : CTree ν → Prop
  | .nil => True
  | .node _ l x r =>
    (data < val x → Steady val data l) ∧
    (val x < data → match r with
      | .nil => False
      | .node _ _ y r => val y ≤ data ∧ Steady val data r)

theorem steady_nil : Steady val data .nil := by rw [Steady]; trivial

theorem steady_of_gt (hx : data < val x) :
    Steady val data (.node cx l x r) ↔ Steady val data l := by
  rw [Steady.eq_def]
  exact ⟨fun h => h.1 hx, fun h => ⟨fun _ => h, fun hlt => absurd hlt hx.asymm⟩⟩

theorem steady_of_eq (hx : val x = data) : Steady val data (.node cx l x r) := by
  rw [Steady.eq_def]
  exact ⟨fun h => absurd h hx.not_gt, fun h => absurd h hx.not_lt⟩

theorem not_steady_of_lt (hx : val x < data) : ¬ Steady val data (.node cx l x .nil) := by
  exact fun h => h.2 hx

theorem steady_of_lt {cy : RBColor} {rl : CTree ν} (hx : val x < data) :
    Steady val data (.node cx l x (.node cy rl y r)) ↔ val y ≤ data ∧ Steady val data r := by
  exact ⟨fun h => h.2 hx, fun h => ⟨fun hlt => absurd hlt hx.asymm, fun _ => h⟩⟩

/-- A subtree above `data` is searched to the left only. -/
theorem steady_of_above (h : ∀ y ∈ T.nodes, data < val y) : Steady val data T := by
  induction T with
  | nil => exact steady_nil
  | node cx l x r ihl _ =>
    exact (steady_of_gt (h x (by simp [CTree.nodes]))).mpr
      (ihl fun y hy => h y (by simp [CTree.nodes, hy]))

/-- **In a debug build a two-way search answers as it should exactly when it does not run past.** -/
theorem findMaxLteqLoop_debug_iff (hc : (Comparator.twoway lt).Lawful)
    {maxNode : Option ν} (h : Rep t.toLinks q T) (hs : Sorted t.rbValue T.nodes)
    (hfuel : T.nodes.length ≤ n) :
    Fallible.findMaxLteqLoop (Comparator.twoway lt).fallible true t data n T.ptr maxNode =
      .ok (some (lastLteq t.rbValue data T maxNode)) ↔ Steady t.rbValue data T := by
  induction T using Steady.induct generalizing q maxNode n with
  | case1 => cases n <;> exact iff_of_true rfl steady_nil
  | case2 cx l x r ihl ihr =>
    obtain ⟨-, hl, hr, -, hTl, hTr⟩ := h
    obtain ⟨hsl, hsr, -, -⟩ := hs.node
    simp only [CTree.nodes, length_append, length_cons] at hfuel
    obtain ⟨n, rfl⟩ : ∃ m, n = m + 1 := ⟨n - 1, by omega⟩
    rw [CTree.ptr_node]
    rcases lt_trichotomy (t.rbValue x) data with hx | hx | hx
    · rw [findMaxLteqLoop_of_lt_debug hc hx, lastLteq_of_lt hx, hr]
      cases r with
      | nil => exact iff_of_false (by simp) (not_steady_of_lt hx)
      | node cy rl y r =>
        obtain ⟨-, -, hyr, -, -, hTr⟩ := hTr
        obtain ⟨-, hsr', -, hyr'⟩ := hsr.node
        simp only [CTree.nodes, length_append, length_cons] at hfuel
        have hrest : Fallible.findMaxLteqLoop _ true t data n r.ptr (some y) = _ ↔ _ :=
          ihr hTr hsr' (by omega)
        rw [steady_of_lt hx, CTree.ptr_node]
        simp only [hyr]
        rcases lt_trichotomy (t.rbValue y) data with hy | hy | hy
        · rw [lastLteq_of_lt hy, hrest, and_iff_right hy.le]
        · have habove : ∀ z ∈ r.nodes, data < t.rbValue z := hy ▸ hyr'
          rw [lastLteq_of_eq hsr hy, hrest.mpr (steady_of_above habove), lastLteq_of_above habove]
          exact iff_of_true rfl ⟨hy.le, steady_of_above habove⟩
        · have habove : ∀ z ∈ r.nodes, data < t.rbValue z := fun z hz => hy.trans (hyr' z hz)
          rw [hrest.mpr (steady_of_above habove), lastLteq_of_above habove]
          refine iff_of_false (fun h => ?_) fun h => hy.not_ge h.1
          rcases lastLteq_eq_some (Option.some.inj (Except.ok.inj h)).symm with hle | hxy
          · exact hy.not_ge hle
          · obtain rfl : x = y := Option.some.inj hxy
            exact hx.asymm hy
    · rw [findMaxLteqLoop_of_eq hc hx, lastLteq_of_eq hs hx]
      exact iff_of_true rfl (steady_of_eq hx)
    · rw [findMaxLteqLoop_of_gt hc hx, lastLteq_of_gt hs hx, hl, steady_of_gt hx]
      exact ihl hTl hsl (by omega)

/-! ## The two trees side by side -/

/-- The calls that the two trees answer alike: in a two-way tree, an insertion of a key that is not
there, and in a debug build a search that does not run past. -/
def Fits (c : Comparator κ) (debug : Bool) (t : RBState ν κ) : RBCall ν κ → Prop
  | .insert x => (∃ cmp, c = .threeway cmp) ∨ ∀ y, InTree t y → t.rbValue y ≠ t.rbValue x
  | .findMaxLteq data => (debug = false ∨ ∃ cmp, c = .threeway cmp) ∨
      ∃ W, Holds t W ∧ Steady t.rbValue data W
  | _ => True

variable [DecidableEq ν] {m : OrdMap κ ν}

theorem insert_agrees_iff (hc : c.Lawful) (h : Wf t W) (hx : Allowed t (.insert x))
    {b : Bool} (hins : insert c t x = .ok (b, t')) :
    Fallible.insert c.fallible debug t x = .ok (b, t') ↔ Fits c debug t (.insert x) := by
  rcases insert_spec hc h (h.fresh hx) with ⟨⟨y, hy, hk⟩, hins'⟩ | ⟨habsent, t₁, _, _, _, hins', -⟩
  · cases hins.symm.trans hins'
    cases c with
    | threeway cmp => exact iff_of_true (insert_threeway_of_false hc hins) (.inl ⟨cmp, rfl⟩)
    | twoway lt =>
      refine iff_of_false (insert_twoway_ne_false hc) fun hfits => ?_
      rcases hfits with ⟨cmp, hcmp⟩ | habsent
      · cases hcmp
      · exact habsent y (h.holds.inTree_iff.mpr hy) hk
  · cases hins.symm.trans hins'
    exact iff_of_true (insert_fallible_of_true hc hins)
      (.inr fun y hy => habsent y (h.holds.inTree_iff.mp hy))

omit [DecidableEq ν] in
theorem findMaxLteq_agrees_iff (hc : c.Lawful) (h : Wf t W) {r : Option ν}
    (hfind : findMaxLteq c t data = .ok r) :
    Fallible.findMaxLteq c.fallible debug t data = .ok (some r) ↔
      Fits c debug t (.findMaxLteq data) := by
  have hfuel : W.nodes.length ≤ t.size + 1 := by rw [h.size]; omega
  by_cases hd : debug = false ∨ ∃ cmp, c = .threeway cmp
  · exact iff_of_true (by rw [findMaxLteq_fallible hc hd, hfind]; rfl) (.inl hd)
  · cases c with
    | threeway cmp => exact absurd (.inr ⟨cmp, rfl⟩) hd
    | twoway lt =>
      obtain rfl : debug = true := by simpa using fun h => hd (.inl h)
      have hloop := findMaxLteqLoop_spec data none hc h.holds.rep h.sorted hfuel
      rw [findMaxLteq, h.holds.root, hloop] at hfind
      cases hfind
      rw [Fallible.findMaxLteq, h.holds.root]
      refine (findMaxLteqLoop_debug_iff hc h.holds.rep h.sorted hfuel).trans
        ⟨fun hs => .inr ⟨W, h.holds, hs⟩, fun hfits => ?_⟩
      obtain ⟨W', hW', hs⟩ := hfits.resolve_left hd
      rwa [h.holds.rep.unique hW'.rep (h.holds.root.symm.trans hW'.root)]

/-- One call on the same tree. -/
theorem exec_agrees_iff (hc : c.Lawful) (h : Represents t m) (hcall : Allowed t call)
    {a : RBAnswer ν} (hexec : exec c t call = .ok (a, t')) :
    Fallible.exec c.fallible debug t call = .ok (some a, t') ↔ Fits c debug t call := by
  obtain ⟨W, hW, -⟩ := h
  cases call with
  | insert x =>
    obtain ⟨⟨b, t₁⟩, hins, hr⟩ := map_eq_ok_iff.mp hexec
    cases hr
    rw [← insert_agrees_iff hc hW hcall hins, Fallible.exec, map_eq_ok_iff]
    constructor
    · rintro ⟨⟨b', t'⟩, hins', hr⟩
      cases hr
      exact hins'
    · exact fun hins' => ⟨(b, t₁), hins', rfl⟩
  | remove x =>
    obtain ⟨t₁, hrem, hr⟩ := map_eq_ok_iff.mp hexec
    cases hr
    exact iff_of_true (by rw [Fallible.exec, hrem]; rfl) trivial
  | find key =>
    obtain ⟨r, hfind, hr⟩ := map_eq_ok_iff.mp hexec
    cases hr
    exact iff_of_true (by rw [Fallible.exec, find_fallible hc, hfind]; rfl) trivial
  | findMaxLteq data =>
    obtain ⟨r, hfind, hr⟩ := map_eq_ok_iff.mp hexec
    cases hr
    rw [← findMaxLteq_agrees_iff hc hW hfind, Fallible.exec, map_eq_ok_iff]
    constructor
    · rintro ⟨r', hfind', hr⟩
      obtain ⟨_ | r', hr'⟩ : ∃ o : Option (Option ν), o = r' := ⟨r', rfl⟩
      · subst hr'
        cases hr
      · subst hr'
        cases hr
        exact hfind'
    · exact fun hfind' => ⟨some r, hfind', rfl⟩

/-- The two trees driven by the same calls, each with the answer it gave last. -/
structure Twin (ν κ : Type) where
  fallible : Except Fault (Option (RBAnswer ν) × RBState ν κ)
  plain : RBAnswer ν × RBState ν κ

/-- One call on both trees; a fault of the fallible one ends the run. -/
def TwinStep (c : Comparator κ) (debug : Bool) (s : Twin ν κ) (call : RBCall ν κ) (s' : Twin ν κ) :
    Prop :=
  ∃ a t, s.fallible = .ok (a, t) ∧ Allowed s.plain.2 call ∧
    s'.fallible = Fallible.exec c.fallible debug t call ∧ exec c s.plain.2 call = .ok s'.plain

/-- The answers are the same, and so are the trees, node by node with their links and colours. -/
def Twin.Same (s : Twin ν κ) : Prop := s.fallible = .ok (some s.plain.1, s.plain.2)

/-- Both trees before the first call. -/
def Twin.empty (h : Links ν) (val : ν → κ) : Twin ν κ :=
  ⟨.ok (some .removed, Kfxx.empty h val), .removed, Kfxx.empty h val⟩

/-- The infallible tree goes its way whatever the other one does. -/
theorem twinStep_represents (hc : c.Lawful) {s s' : Twin ν κ} (h : ∃ m, Represents s.plain.2 m)
    (hs : TwinStep c debug s call s') :
    ∃ m, Represents s'.plain.2 m := by
  obtain ⟨m, hm⟩ := h
  obtain ⟨_, _, -, hcall, -, hexec⟩ := hs
  obtain ⟨a, t', m', hexec', hm', -⟩ := exec_spec hc hm hcall
  rw [Except.ok.inj (hexec.symm.trans hexec')]
  exact ⟨m', hm'⟩

/-- **The two trees agree as long as the calls fit.**  From the empty trees, the runs in which after
every call the answers and the trees are the same are the runs of fitting calls; and from the end of
such a run every allowed call has an answer of the infallible tree to compare with. -/
theorem fallible_agrees_of_run (hc : c.Lawful) (debug : Bool) (h : Links ν) (val : ν → κ)
    (calls : List (RBCall ν κ)) (s : Twin ν κ) :
    (Run (fun s call s' => TwinStep c debug s call s' ∧ s'.Same) (.empty h val) calls s ↔
      Run (fun s call s' => TwinStep c debug s call s' ∧ Fits c debug s.plain.2 call)
        (.empty h val) calls s) ∧
    (Run (fun s call s' => TwinStep c debug s call s' ∧ s'.Same) (.empty h val) calls s →
      ∀ call, Allowed s.plain.2 call → ∃ s', TwinStep c debug s call s') := by
  have hempty : ∃ m, Represents (Twin.empty h val).plain.2 m := ⟨_, represents_empty⟩
  refine ⟨Run.through_iff
    (fun _ _ _ hI hs => twinStep_represents hc hI hs) (fun s call s' hI hsame hs => ?_) hempty rfl,
    fun hrun call hcall => ?_⟩
  · obtain ⟨m, hm⟩ := hI
    obtain ⟨a, t, ht, hcall, hf, hexec⟩ := hs
    cases ht.symm.trans hsame
    rw [Twin.Same, hf]
    exact exec_agrees_iff hc hm hcall hexec
  · have hinv := hrun.invariant (I := fun s => (∃ m, Represents s.plain.2 m) ∧ s.Same)
      (fun _ _ _ hI hs => ⟨twinStep_represents hc hI.1 hs.1, hs.2⟩) ⟨hempty, rfl⟩
    obtain ⟨⟨m, hm⟩, hsame⟩ := hinv
    obtain ⟨a, t', _, hexec, -⟩ := exec_spec hc hm hcall
    exact ⟨⟨_, a, t'⟩, _, _, hsame, hcall, rfl, hexec⟩

end Lawful

/-! ### Trees of numbers -/

/-- A node in a tree of its own. -/
def lone (key : ℕ → ℕ) (x : ℕ) : RBState ℕ ℕ :=
  { ((empty blank key).setRoot (some x)).setColor (some x) .black with
    cachedMinNode := some x
    cachedMaxNode := some x
    size := 1 }

/-- The only node in the tree is that one. -/
theorem inTree_lone {key : ℕ → ℕ} {x y : ℕ} (h : InTree (lone key x) y) : x = y := by
  cases h with
  | root h => exact Option.some.inj h
  | child _ h => cases h

/-- The first insertion, in both builds. -/
theorem twinStep_first (debug : Bool) (key : ℕ → ℕ) (x : ℕ) :
    TwinStep natCmp debug (.empty blank key) (.insert x)
      ⟨.ok (some (.inserted true), lone key x), .inserted true, lone key x⟩ := by
  refine ⟨_, _, rfl, ⟨fun h => ?_, rfl, fun _ => rfl⟩, rfl, rfl⟩
  cases h with
  | root h => cases h
  | child _ h => cases h

/-- The insertions that `grown` stands for, in both trees. -/
theorem twinStep_grown {n : ℕ} (hn : n < 4) {a : RBAnswer ℕ} :
    TwinStep natCmp true ⟨.ok (some a, grown n), a, grown n⟩ (.insert (n + 1))
      ⟨.ok (some (.inserted true), grown (n + 1)), .inserted true, grown (n + 1)⟩ ∧
    Fits natCmp true (grown n) (.insert (n + 1)) := by
  obtain ⟨hnew, hexec⟩ := step_grown hn
  refine ⟨⟨_, _, rfl, hnew, ?_, hexec⟩, .inr fun y hy hk => hnew.1 ?_⟩
  · interval_cases n <;> rfl
  · have hval : (grown n).rbValue = id := by interval_cases n <;> rfl
    rw [hval, id, id] at hk
    exact hk ▸ hy

/-- The two trees rotate alike. -/
theorem fallible_agrees_rotating :
    Run (fun s call s' => TwinStep natCmp true s call s' ∧ s'.Same) (.empty blank id)
      [.insert 1, .insert 2, .insert 3, .insert 4, .remove 1, .find 4]
      ⟨.ok (some (.found (some 4)), shrunk), .found (some 4), shrunk⟩ := by
  have hremove : TwinStep natCmp true
      ⟨.ok (some (.inserted true), grown 4), .inserted true, grown 4⟩ (.remove 1)
      ⟨.ok (some .removed, shrunk), .removed, shrunk⟩ :=
    ⟨_, _, rfl, inTree_grown, rfl, rfl⟩
  exact (fallible_agrees_of_run natCmp_lawful true blank id _ _).1.mpr <|
    .cons (twinStep_grown (n := 0) (by decide)) <| .cons (twinStep_grown (n := 1) (by decide)) <|
    .cons (twinStep_grown (n := 2) (by decide)) <| .cons (twinStep_grown (n := 3) (by decide)) <|
    .cons ⟨hremove, trivial⟩ <| .cons ⟨⟨_, _, rfl, trivial, rfl, rfl⟩, trivial⟩ <| .nil _

/-- Of two nodes with one key a two-way tree takes both, and its debug search for a key above that
of the only node follows a null pointer. -/
theorem fallible_takes_equal_key :
    (∃ s : Twin ℕ ℕ, Run (TwinStep natCmp false)
      (.empty blank fun _ => 5) [.insert 1, .insert 2] s ∧
      s.plain.1 = .inserted false ∧ ∃ t, s.fallible = .ok (some (.inserted true), t)) ∧
    ∃ s : Twin ℕ ℕ, Run (TwinStep natCmp true)
      (.empty blank id) [.insert 5, .findMaxLteq 7] s ∧
      s.plain.1 = .found (some 5) ∧ s.fallible = .error .nullDeref := by
  constructor
  · refine ⟨⟨_, .inserted false, lone (fun _ => 5) 1⟩, .cons (twinStep_first false _ 1)
      (.cons ⟨_, _, rfl, ⟨fun h => ?_, rfl, fun _ => rfl⟩, rfl, rfl⟩ (.nil _)), rfl, _, rfl⟩
    cases inTree_lone h
  · exact ⟨⟨.error .nullDeref, .found (some 5), lone id 5⟩, .cons (twinStep_first true _ 5)
      (.cons ⟨_, _, rfl, trivial, rfl, rfl⟩ (.nil _)), rfl, rfl⟩

end Pbos.Kfxx
