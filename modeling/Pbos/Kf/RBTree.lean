import Pbos.Km.Panic
import Pbos.Lib.LinkedTree

/-!
# Kf/RBTree — the red-black tree in C

`kf_rbtree` is written apart from `kfxx::RBTree`: the nodes carry no key, a callback `node_cmp`
compares two of them, colour and parent are reached through macros, and there are no cached ends.
The model follows `kf/rbtree.c` over a memory of its own; as before the mirror images are one
definition with a side.  `node_num` does not count the nodes (`kf_rbtree_insert` returns early for
the first one), so the loops are given a number of rounds, and a call *returns* what it returns for
every large enough number (`Returns`).
-/

namespace Pbos.Kf

open RBTrees

/-- `kf_rbtree` and the nodes it links.  `key` is what `node_cmp` compares. -/
structure KfTree (ν κ : Type) extends Links ν where
  key : ν → κ
  root : Option ν
  nodeNum : UInt64

/-- A call returns `r`: it does so for every large enough number of rounds. -/
def Returns {α : Type} (f : ℕ → Except Fault α) (r : α) : Prop := ∃ N, ∀ n, N ≤ n → f n = .ok r

theorem Returns.unique {α : Type} {f : ℕ → Except Fault α} {r r' : α} (h : Returns f r)
    (h' : Returns f r') : r = r' := by
  obtain ⟨N, hN⟩ := h
  obtain ⟨N', hN'⟩ := h'
  exact Except.ok.inj ((hN _ (Nat.le_max_left N N')).symm.trans (hN' _ (Nat.le_max_right N N')))

variable {ν κ : Type}

/-- `kf_rbtree_init`, over a memory of node objects. -/
def kfRbtreeInit (h : Links ν) (key : ν → κ) : KfTree ν κ := ⟨h, key, none, 0⟩

namespace KfTree

variable [DecidableEq ν] (t : KfTree ν κ)

/-- `kf_rbtree_setparent(n, p)`, for an `n` that may be null. -/
def setParent (n p : Option ν) : KfTree ν κ :=
  { t with p := fun y => if n = some y then p else t.p y }

/-- `n->l = v` or `n->r = v`. -/
def setChild (d : Side) (n : ν) (v : Option ν) : KfTree ν κ :=
  { t with child := fun e y => if e = d ∧ y = n then v else t.child e y }

/-- `kf_rbtree_setcolor(n, c)`, for an `n` that may be null. -/
def setColor (n : Option ν) (c : RBColor) : KfTree ν κ :=
  { t with color := fun y => if n = some y then c else t.color y }

def setRoot (v : Option ν) : KfTree ν κ := { t with root := v }

/-- `kf_rbtree_isred(n)`. -/
def isRed (n : Option ν) : Bool :=
  match n with
  | none => false
  | some x => t.color x = .red

/-- `kf_rbtree_isblack(n)`. -/
def isBlack (n : Option ν) : Bool :=
  match n with
  | none => true
  | some x => t.color x = .black

end KfTree

/-- The loop of `kf_rbtree_minnode`. -/
def kfRbtreeMinnode (t : KfTree ν κ) : ℕ → ν → Except Fault ν
  | 0, _ => .error .hang
  | n + 1, node =>
    match t.child .left node with
    | none => .ok node
    | some l => kfRbtreeMinnode t n l

variable [DecidableEq ν] (nodeCmp : κ → κ → Bool) (n : ℕ) (d : Side) (t : KfTree ν κ)

/-! ## Rotations -/

/-- `if (q->l == x) q->l = v; else q->r = v;` -/
def replaceChild (q x : ν) (v : Option ν) : KfTree ν κ :=
  if t.child .left q = some x then t.setChild .left q v else t.setChild .right q v

/-- `kf_rbtree_lrot` and `kf_rbtree_rrot`: `x` goes down on side `d`. -/
def kfRbtreeRot (line : ℕ) (t : KfTree ν κ) (x : ν) : Except Fault (KfTree ν κ) :=
  match t.child d.flip x with
  | none => .error (.assertion "kernel/kf/rbtree.c" line)
  | some y =>
    let t := t.setChild d.flip x (t.child d y)
    let t := t.setParent (t.child d y) (some x)
    let t := t.setParent (some y) (t.p x)
    let t := match t.p x with
      | none => t.setRoot (some y)
      | some q => replaceChild t q x (some y)
    let t := t.setChild d y (some x)
    .ok (t.setParent (some x) (some y))

/-- `kf_rbtree_lrot`. -/
def kfRbtreeLrot (x : ν) : Except Fault (KfTree ν κ) := kfRbtreeRot .left 145 t x

/-- `kf_rbtree_rrot`. -/
def kfRbtreeRrot (x : ν) : Except Fault (KfTree ν κ) := kfRbtreeRot .right 166 t x

/-- `kf_rbtree_lrot` or `kf_rbtree_rrot`. -/
def kfRbtreeRotate (x : ν) : Except Fault (KfTree ν κ) :=
  match d with
  | .left => kfRbtreeLrot t x
  | .right => kfRbtreeRrot t x

/-! ## Insertion -/

/-- Which child `x` is, as the source asks: `x == q->l`. -/
def sideOf (l x : Option ν) : Side := if l = x then .left else .right

/-- The rotations of `kf_rbtree_insert_fixup`, for `p` on side `d` of `gp` and a black uncle, with
the node the loop goes on with: `node` and `p` change names after the first rotation. -/
def kfInsertRotate (node p gp : ν) : Except Fault (KfTree ν κ × ν) := do
  let (t, node, p) ←
    if t.child d.flip p = some node then do
      let t ← kfRbtreeRotate d t p
      pure (t, p, node)
    else pure (t, node, p)
  let t ← kfRbtreeRotate d.flip t gp
  pure ((t.setColor (some p) .black).setColor (some gp) .red, node)

/-- The loop of `kf_rbtree_insert_fixup`. -/
def kfInsertFixupLoop : ℕ → KfTree ν κ → ν → ν → Except Fault (KfTree ν κ)
  | 0, _, _, _ => .error .hang
  | n + 1, t, node, gp =>
    match t.p gp with
    | none => .ok t
    | some p =>
      if t.isRed (some p) then
        match t.p p with
        | none => .error .nullDeref
        | some gp =>
          let d := sideOf (t.child .left gp) (some p)
          let u := t.child d.flip gp
          if t.isRed u then
            let t := (t.setColor (some p) .black).setColor u .black
            kfInsertFixupLoop n (t.setColor (some gp) .red) gp gp
          else do
            let (t, node) ← kfInsertRotate d t node p gp
            kfInsertFixupLoop n t node gp
      else .ok t

/-- `kf_rbtree_insert_fixup`. -/
def kfRbtreeInsertFixup (node : ν) : Except Fault (KfTree ν κ) := do
  let t ← kfInsertFixupLoop n t node node
  match t.root with
  | none => .error .nullDeref
  | some root => pure (t.setColor (some root) .black)

omit [DecidableEq ν] in
/-- The search of `kf_rbtree_insert`: the last node `y` it visits, or `none` if it meets an equal
one. -/
def kfInsertSearch (node : ν) : ℕ → Option ν → Option ν → Except Fault (Option (Option ν))
  | _, none, y => .ok (some y)
  | 0, some _, _ => .error .hang
  | n + 1, some x, _ =>
    if nodeCmp (t.key x) (t.key node) then kfInsertSearch node n (t.child .right x) (some x)
    else if nodeCmp (t.key node) (t.key x) then kfInsertSearch node n (t.child .left x) (some x)
    else .ok none

/-- `kf_rbtree_insert`. -/
def kfRbtreeInsert (node : ν) : Except Fault (KmResult × KfTree ν κ) := do
  kdAssert (t.child .left node = none) "kernel/kf/rbtree.c" 19
  kdAssert (t.child .right node = none) "kernel/kf/rbtree.c" 20
  -- the first node is not counted
  if t.root = none then pure (.ok, (t.setRoot (some node)).setColor (some node) .black)
  else
    match ← kfInsertSearch nodeCmp t node n t.root none with
    | none => pure (.existed, t)
    | some none => .error .nullDeref
    | some (some y) => do
      let t := if nodeCmp (t.key node) (t.key y) then t.setChild .left y (some node)
        else t.setChild .right y (some node)
      let t := (t.setParent (some node) (some y)).setColor (some node) .red
      let t ← kfRbtreeInsertFixup n t node
      pure (.ok, { t with nodeNum := t.nodeNum + 1 })

/-! ## Removal -/

/-- `if (tree->root == node) tree->root = v;` or the child pointer of its parent. -/
def replaceNode (node : ν) (v : Option ν) : Except Fault (KfTree ν κ) :=
  if t.root = some node then .ok (t.setRoot v)
  else
    match t.p node with
    | none => .error .nullDeref
    | some q => .ok (replaceChild t q node v)

/-- The first part of `kf_rbtree_remove_fixup` for a node with two children: its successor `y`
takes its place, and `x` that of the successor. -/
def kfTransplant (node y : ν) (x : Option ν) : Except Fault (KfTree ν κ × Option ν) := do
  let t := t.setParent (t.child .left node) (some y)
  let t := t.setChild .left y (t.child .left node)
  let (t, p) ←
    if t.child .right node = some y then pure (t, some y)
    else
      match t.p y with
      | none => .error .nullDeref
      | some q =>
        let t := t.setParent x (some q)
        let t := t.setChild .left q x
        let t := t.setChild .right y (t.child .right node)
        pure (t.setParent (t.child .right node) (some y), some q)
  let t ← replaceNode t node (some y)
  let t := t.setParent (some y) (t.p node)
  let color := t.color y
  pure ((t.setColor (some y) (t.color node)).setColor (some node) color, p)

/-- The first part of `kf_rbtree_remove_fixup`: the tree without `node`, the subtree `x` that lost a
node above it, and its parent. -/
def kfUnlink (node : ν) : Except Fault (KfTree ν κ × Option ν × Option ν) := do
  let unlinkOne (x : Option ν) : Except Fault (KfTree ν κ × Option ν × Option ν) := do
    let p := t.p node
    let t ← replaceNode (t.setParent x p) node x
    pure (t, x, p)
  match t.child .left node, t.child .right node with
  | none, x => unlinkOne x
  | some x, none => unlinkOne (some x)
  | some _, some r => do
    let y ← kfRbtreeMinnode t n r
    let x := t.child .right y
    let (t, p) ← kfTransplant t node y x
    pure (t, x, p)

/-- A red sibling `w` changes places with `p`; the result is the new sibling. -/
def kfRemoveSibling (p w : ν) : Except Fault (KfTree ν κ × ν) := do
  if t.isRed (some w) then
    let t := (t.setColor (some w) .black).setColor (some p) .red
    let t ← kfRbtreeRotate d t p
    match t.child d.flip p with
    | none => .error .nullDeref
    | some w => pure (t, w)
  else pure (t, w)

/-- The rotation that ends the loop of `kf_rbtree_remove_fixup`. -/
def kfRotateLast (p w : ν) : Except Fault (KfTree ν κ) :=
  let t := t.setColor (some w) (t.color p)
  let t := t.setColor (some p) .black
  kfRbtreeRotate d (t.setColor (t.child d.flip w) .black) p

/-- The last rotations of `kf_rbtree_remove_fixup`, for a sibling `w` with a red child. -/
def kfRemoveRotate (p w : ν) : Except Fault (KfTree ν κ) := do
  let (t, w) ←
    if t.isBlack (t.child d.flip w) then do
      let t := t.setColor (t.child d w) .black
      let t ← kfRbtreeRotate d.flip (t.setColor (some w) .red) w
      match t.child d.flip p with
      | none => .error .nullDeref
      | some w => pure (t, w)
    else pure (t, w)
  kfRotateLast d t p w

/-- The loop of `kf_rbtree_remove_fixup`, with the `x` it ends at. -/
def kfRemoveFixupLoop : ℕ → KfTree ν κ → Option ν → Option ν →
    Except Fault (KfTree ν κ × Option ν)
  | 0, _, _, _ => .error .hang
  | n + 1, t, x, p =>
    if x ≠ t.root ∧ t.isBlack x then
      match p with
      | none => .error .nullDeref
      | some p =>
        let d := sideOf (t.child .left p) x
        match t.child d.flip p with
        | none => .error .nullDeref
        | some w => do
          let (t, w) ← kfRemoveSibling d t p w
          if t.isBlack (t.child d w) ∧ t.isBlack (t.child d.flip w) then
            kfRemoveFixupLoop n (t.setColor (some w) .red) (some p) (t.p p)
          else do
            let t ← kfRemoveRotate d t p w
            pure (t, x)
    else .ok (t, x)

/-- `kf_rbtree_remove_fixup`.  The node it returns is always the one it was given. -/
def kfRbtreeRemoveFixup (node : ν) : Except Fault (KfTree ν κ) := do
  let (t, x, p) ← kfUnlink n t node
  if t.isBlack (some node) then do
    let (t, x) ← kfRemoveFixupLoop n t x p
    pure (t.setColor x .black)
  else pure t

/-- `kf_rbtree_remove`; what `node_free` does with the node is the caller's. -/
def kfRbtreeRemove (node : ν) : Except Fault (KfTree ν κ) := do
  let t ← kfRbtreeRemoveFixup n t node
  let t := ((t.setChild .right node none).setChild .left node none).setParent (some node) none
  pure { t with nodeNum := t.nodeNum - 1 }

end Pbos.Kf
