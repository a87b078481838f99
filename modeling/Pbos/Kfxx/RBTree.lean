import Pbos.Km.Panic
import Pbos.Lib.LinkedTree

/-!
# Kfxx/RBTree — the intrusive red-black tree of the kernel

`kfxx::RBTree` links node objects that its callers own.  The nodes are pointers into a memory of
`NodeBase` fields (`Links`, with the fields `l` and `r` as `child .left` and `child .right`) and
keys `rb_value`; a null pointer is `none`, and following it is the fault `nullDeref`.

The mirror images of the source — `_lrot` and `_rrot`, `_get_min_node` and `_get_max_node`, the two
branches of the fixup loops — are one definition with a side.  The loops climb or descend the tree,
so `_size` bounds their rounds; a loop that outruns the bound is the fault `hang`.  `_size` itself
counts node objects in memory, which are fewer than `2 ^ 64`.
-/

namespace Pbos.Kfxx

open RBTrees

/-- `_RBTreeBase` and the nodes it links. -/
structure RBState (ν κ : Type) extends Links ν where
  rbValue : ν → κ
  root : Option ν
  cachedMinNode : Option ν
  cachedMaxNode : Option ν
  size : ℕ

/-- The comparator of a tree: `a < b`, or a number with the sign of `a - b`. -/
inductive Comparator (κ : Type)
  | twoway (lt : κ → κ → Bool)
  | threeway (cmp : κ → κ → Int)

variable {ν κ : Type} [DecidableEq ν]

namespace RBState

variable (t : RBState ν κ)

/-- `if (q) q->p = v`. -/
def setP (q v : Option ν) : RBState ν κ :=
  { t with p := fun y => if q = some y then v else t.p y }

/-- `x->l = v` or `x->r = v`. -/
def setChild (d : Side) (x : ν) (v : Option ν) : RBState ν κ :=
  { t with child := fun e y => if e = d ∧ y = x then v else t.child e y }

/-- `if (q) q->color = c`. -/
def setColor (q : Option ν) (c : RBColor) : RBState ν κ :=
  { t with color := fun y => if q = some y then c else t.color y }

def setRoot (v : Option ν) : RBState ν κ := { t with root := v }

/-- `_is_red`. -/
def isRed : Option ν → Bool
  | none => false
  | some x => t.color x = .red

/-- `_is_black`. -/
def isBlack : Option ν → Bool
  | none => true
  | some x => t.color x = .black

end RBState

/-- A tree without nodes, over a memory of node objects. -/
def empty (h : Links ν) (rbValue : ν → κ) : RBState ν κ := ⟨h, rbValue, none, none, none, 0⟩

/-! ## Walking -/

/-- Follow the `d` children down to the last. -/
def extremeLoop (t : RBState ν κ) (d : Side) : ℕ → ν → Except Fault ν
  | 0, _ => .error .hang
  | n + 1, node =>
    match t.child d node with
    | none => .ok node
    | some node => extremeLoop t d n node

/-- `_get_min_node` and `_get_max_node`. -/
def extremeNode (t : RBState ν κ) (d : Side) : Option ν → Except Fault (Option ν)
  | none => .ok none
  | some node => (extremeLoop t d (t.size + 1) node).map some

variable (c : Comparator κ) (d : Side) (t : RBState ν κ)

/-- `_get_min_node`. -/
def getMinNode (node : Option ν) : Except Fault (Option ν) :=
  extremeNode t .left node

/-- `_get_max_node`. -/
def getMaxNode (node : Option ν) : Except Fault (Option ν) :=
  extremeNode t .right node

/-! ## Rotations -/

/-- Replace the child `x` of `q` by `v`, as the source tells the sides apart: by `q->l == x`. -/
def replaceChild (q x : ν) (v : Option ν) : RBState ν κ :=
  if t.child .left q = some x then t.setChild .left q v else t.setChild .right q v

/-- `_lrot` and `_rrot`: `x` goes down on side `d`, and its other child takes its place. -/
def rot (line : ℕ) (t : RBState ν κ) (x : ν) : Except Fault (RBState ν κ) :=
  match t.child d.flip x with
  | none => .error (.assertion "kernel/kfxx/rbtree.cc" line)
  | some y =>
    let t := t.setChild d.flip x (t.child d y)
    let t := t.setP (t.child d y) (some x)
    let t := t.setP (some y) (t.p x)
    let t := match t.p x with
      | none => t.setRoot (some y)
      | some q => replaceChild t q x (some y)
    let t := t.setChild d y (some x)
    .ok (t.setP (some x) (some y))

/-- `_lrot`. -/
def lrot (x : ν) : Except Fault (RBState ν κ) := rot .left 25 t x

/-- `_rrot`. -/
def rrot (x : ν) : Except Fault (RBState ν κ) := rot .right 46 t x

/-- `_lrot` or `_rrot`. -/
def rotate (x : ν) : Except Fault (RBState ν κ) :=
  match d with
  | .left => lrot t x
  | .right => rrot t x

/-! ## Insertion -/

/-- The rotations of `_insert_fixup`, for a parent `p` on side `d` of `gp` and a black uncle.  The
result names the node the loop goes on with: `node` and `p` are swapped after the first rotation. -/
def insertRotate (node p gp : ν) : Except Fault (RBState ν κ × ν) := do
  let (t, node, p) ←
    if t.child d.flip p = some node then do
      let t ← rotate d t p
      pure (t, p, node)
    else pure (t, node, p)
  let t ← rotate d.flip t gp
  pure ((t.setColor (some p) .black).setColor (some gp) .red, node)

/-- The loop of `_insert_fixup`. -/
def insertFixupLoop : ℕ → RBState ν κ → ν → ν → Except Fault (RBState ν κ)
  | 0, _, _, _ => .error .hang
  | n + 1, t, node, gp =>
    match t.p gp with
    | none => .ok t
    | some p =>
      if t.isRed (some p) then
        match t.p p with
        | none => .error .nullDeref
        | some gp =>
          let d := if t.child .left gp = some p then Side.left else Side.right
          let u := t.child d.flip gp
          if t.isRed u then
            let t := (t.setColor (some p) .black).setColor u .black
            insertFixupLoop n (t.setColor (some gp) .red) gp gp
          else do
            let (t, node) ← insertRotate d t node p gp
            insertFixupLoop n t node gp
      else .ok t

/-- `_insert_fixup`. -/
def insertFixup (node : ν) : Except Fault (RBState ν κ) := do
  let t ← insertFixupLoop (t.size + 2) t node node
  match t.root with
  | none => .error .nullDeref
  | some root => pure (t.setColor (some root) .black)

/-- `_cached_min_node = _get_min_node(_root)` and the same for the maximum. -/
def updateNodeCaches : Except Fault (RBState ν κ) := do
  let min ← getMinNode t t.root
  let max ← getMaxNode t t.root
  pure { t with cachedMinNode := min, cachedMaxNode := max }

/-- Compare a node's key with `key`.  With a two-way comparator the answer "less" is checked against
the opposite comparison, by the assertion on `line`. -/
def Comparator.order (line : ℕ) (a key : κ) : Except Fault Ordering :=
  match c with
  | .threeway cmp => .ok (if cmp a key < 0 then .lt else if 0 < cmp a key then .gt else .eq)
  | .twoway lt =>
    if lt a key then
      if lt key a then .error (.assertion "include/pbos/kfxx/rbtree.hh" line) else .ok .lt
    else .ok (if lt key a then .gt else .eq)

/-- The pointer `_get_slot` stops at: `_root`, or a child pointer of a node. -/
inductive Slot (ν : Type)
  | root
  | child (d : Side) (x : ν)

/-- The loop of `_get_slot`.  `i` is the slot, `cur` what it holds. -/
def getSlotLoop (key : κ) :
    ℕ → Slot ν → Option ν → Option ν → Except Fault (Option (Slot ν) × Option ν)
  | _, i, parent, none => .ok (some i, parent)
  | 0, _, _, some _ => .error .hang
  | n + 1, _, _, some x => do
    match ← c.order 204 (t.rbValue x) key with
    | .lt => getSlotLoop key n (.child .right x) (some x) (t.child .right x)
    | .gt => getSlotLoop key n (.child .left x) (some x) (t.child .left x)
    | .eq => pure (none, some x)

/-- `_get_slot`, with the parent it reports. -/
def getSlot (key : κ) : Except Fault (Option (Slot ν) × Option ν) :=
  getSlotLoop c t key (t.size + 1) .root none t.root

/-- The side of `parent` on which `_insert` puts a node: its key is compared once more. -/
def insertSide (key parentKey : κ) : Except Fault Side :=
  match c with
  | .threeway cmp =>
    if cmp key parentKey < 0 then .ok .left
    else if 0 < cmp key parentKey then .ok .right
    else .error (.assertion "include/pbos/kfxx/rbtree.hh" 258)
  | .twoway lt => .ok (if lt key parentKey then .left else .right)

/-- Hang `node` on `parent`, as `_insert` does before the fixup. -/
def link (d : Side) (parent node : ν) : RBState ν κ :=
  let t := t.setChild d parent (some node)
  (t.setP (some node) (some parent)).setColor (some node) .red

/-- The part of `_insert` that links the node: as the root of an empty tree, or below `parent` and
followed by the fixup. -/
def insertLink (parent : Option ν) (node : ν) : Except Fault (RBState ν κ) :=
  if t.root = none then .ok ((t.setRoot (some node)).setColor (some node) .black)
  else
    match parent with
    | none => .error .nullDeref
    | some parent => do
      let d ← insertSide c (t.rbValue node) (t.rbValue parent)
      insertFixup (link t d parent node) node

/-- `_insert`. -/
def insertAt (parent : Option ν) (node : ν) : Except Fault (RBState ν κ) := do
  kdAssert (t.child .left node = none) "include/pbos/kfxx/rbtree.hh" 218
  kdAssert (t.child .right node = none) "include/pbos/kfxx/rbtree.hh" 219
  let t ← insertLink c t parent node
  let t ← updateNodeCaches t
  pure { t with size := t.size + 1 }

/-- `insert`: whether the node is inserted, and the tree. -/
def insert (node : ν) : Except Fault (Bool × RBState ν κ) := do
  match ← getSlot c t (t.rbValue node) with
  | (none, _) => pure (false, t)
  | (some _, parent) => do
    let t ← insertAt c t parent node
    pure (true, t)

/-! ## Removal -/

/-- Replace `node` by `v` where its parent, or `_root`, leads to it. -/
def replaceNode (node : ν) (v : Option ν) : Except Fault (RBState ν κ) :=
  if t.root = some node then .ok (t.setRoot v)
  else
    match t.p node with
    | none => .error .nullDeref
    | some q => .ok (replaceChild t q node v)

/-- The successor `y` takes the place of `node`, and `x` that of the successor.  The result is the
parent of `x`. -/
def transplant (node y : ν) (x : Option ν) : Except Fault (RBState ν κ × Option ν) := do
  let t := t.setP (t.child .left node) (some y)
  let t := t.setChild .left y (t.child .left node)
  let (t, p) ←
    if t.child .right node = some y then pure (t, some y)
    else
      match t.p y with
      | none => .error .nullDeref
      | some q =>
        let t := t.setP x (some q)
        let t := t.setChild .left q x
        let t := t.setChild .right y (t.child .right node)
        pure (t.setP (t.child .right node) (some y), some q)
  let t ← replaceNode t node (some y)
  let t := t.setP (some y) (t.p node)
  let cy := t.color y
  pure ((t.setColor (some y) (t.color node)).setColor (some node) cy, p)

/-- The unlinking part of `_remove_fixup`.  The results are the subtree `x` that lost a node above
it, and its parent. -/
def removeUnlink (node : ν) : Except Fault (RBState ν κ × Option ν × Option ν) := do
  let unlinkOne (x : Option ν) : Except Fault (RBState ν κ × Option ν × Option ν) := do
    let p := t.p node
    let t ← replaceNode (t.setP x p) node x
    pure (t, x, p)
  match t.child .left node, t.child .right node with
  | none, x => unlinkOne x
  | some x, none => unlinkOne (some x)
  | some _, some r => do
    let y ← extremeLoop t .left (t.size + 1) r
    let x := t.child .right y
    let (t, p) ← transplant t node y x
    pure (t, x, p)

/-- A red sibling `w` changes places with `p`; the result is the new sibling. -/
def removeSibling (p w : ν) : Except Fault (RBState ν κ × ν) := do
  if t.isRed (some w) then
    let t := (t.setColor (some w) .black).setColor (some p) .red
    let t ← rotate d t p
    match t.child d.flip p with
    | none => .error .nullDeref
    | some w => pure (t, w)
  else pure (t, w)

/-- The last rotations of `_remove_fixup`, for a sibling `w` with a red child. -/
def removeRotate (p w : ν) : Except Fault (RBState ν κ) := do
  let (t, w) ←
    if t.isBlack (t.child d.flip w) then do
      let t := t.setColor (t.child d w) .black
      let t ← rotate d.flip (t.setColor (some w) .red) w
      match t.child d.flip p with
      | none => .error .nullDeref
      | some w => pure (t, w)
    else pure (t, w)
  let t := t.setColor (some w) (t.color p)
  let t := t.setColor (some p) .black
  rotate d (t.setColor (t.child d.flip w) .black) p

/-- The loop of `_remove_fixup`, with the `x` it ends at. -/
def removeFixupLoop : ℕ → RBState ν κ → Option ν → Option ν →
    Except Fault (RBState ν κ × Option ν)
  | 0, _, _, _ => .error .hang
  | n + 1, t, x, p =>
    if x ≠ t.root ∧ t.isBlack x then
      match p with
      | none => .error .nullDeref
      | some p => do
        let d := if t.child .left p = x then Side.left else Side.right
        match t.child d.flip p with
        | none => .error .nullDeref
        | some w => do
          let (t, w) ← removeSibling d t p w
          if t.isBlack (t.child d w) ∧ t.isBlack (t.child d.flip w) then
            removeFixupLoop n (t.setColor (some w) .red) (some p) (t.p p)
          else do
            let t ← removeRotate d t p w
            pure (t, x)
    else .ok (t, x)

/-- `_remove_fixup`.  The node it returns is always the one it was given. -/
def removeFixup (node : ν) : Except Fault (RBState ν κ) := do
  let (t, x, p) ← removeUnlink t node
  if t.isBlack (some node) then do
    let (t, x) ← removeFixupLoop (t.size + 2) t x p
    pure (t.setColor x .black)
  else pure t

/-- `remove`. -/
def remove (node : ν) : Except Fault (RBState ν κ) := do
  let t ← removeFixup t node
  let t ← updateNodeCaches t
  let t := { t with size := t.size - 1 }
  pure (((t.setChild .left node none).setChild .right node none).setP (some node) none)

/-! ## Searching -/

/-- The loop of `_get`. -/
def getLoop (key : κ) : ℕ → Option ν → Except Fault (Option ν)
  | _, none => .ok none
  | 0, some _ => .error .hang
  | n + 1, some i => do
    match ← c.order 125 (t.rbValue i) key with
    | .lt => getLoop key n (t.child .right i)
    | .gt => getLoop key n (t.child .left i)
    | .eq => pure (some i)

/-- `find`, that is `_get`. -/
def find (key : κ) : Except Fault (Option ν) :=
  getLoop c t key (t.size + 1) t.root

/-- The loop of `_find_max_lteq`. -/
def findMaxLteqLoop (data : κ) : ℕ → Option ν → Option ν → Except Fault (Option ν)
  | _, none, maxNode => .ok maxNode
  | 0, some _, _ => .error .hang
  | n + 1, some cur, maxNode => do
    match ← c.order 348 (t.rbValue cur) data with
    | .lt => findMaxLteqLoop data n (t.child .right cur) (some cur)
    | .gt => findMaxLteqLoop data n (t.child .left cur) maxNode
    | .eq => pure (some cur)

/-- `find_max_lteq`. -/
def findMaxLteq (data : κ) : Except Fault (Option ν) :=
  findMaxLteqLoop c t data (t.size + 1) t.root none

/-! ## Stepping -/

/-- Climb as long as the node is a `d` child; the node above is the answer. -/
def climbLoop (t : RBState ν κ) (d : Side) : ℕ → ν → Except Fault (Option ν)
  | 0, _ => .error .hang
  | n + 1, node =>
    match t.p node with
    | none => .ok none
    | some q => if t.child d q = some node then climbLoop t d n q else .ok (some q)

/-- `_get_next` and `_get_prev`: the neighbour of `node` on side `d`, unless `node` is `last`. -/
def neighbour (d : Side) (line : ℕ) (node last : Option ν) : Except Fault (Option ν) :=
  match node with
  | none => .error (.assertion "kernel/kfxx/rbtree.cc" line)
  | some x =>
    if last = some x then .ok none
    else match t.child d x with
      | some y => extremeNode t d.flip (some y)
      | none => climbLoop t d (t.size + 1) x

/-- `_get_next`. -/
def getNext (node lastNode : Option ν) : Except Fault (Option ν) :=
  neighbour t .right 244 node lastNode

/-- `_get_prev`. -/
def getPrev (node firstNode : Option ν) : Except Fault (Option ν) :=
  neighbour t .left 261 node firstNode

end Pbos.Kfxx
