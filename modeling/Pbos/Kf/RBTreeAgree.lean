import Pbos.Kf.RBTree
import Pbos.Kfxx.RBTreeRuns

/-!
# Kf/RBTreeAgree — the C tree and the C++ tree are one tree

`forget` reads a `kfxx::RBTree` as a C tree.  Each function of the C tree does on it what its
counterpart does, function by function through all rebalancing cases (`kfRbtreeInsert_forget`,
`kfRbtreeRemove_forget`), and `agrees_of_run` carries this through all runs from the empty tree: the
two are the same tree with the same answers, and `node_num` falls short by the number of inserts
that found the tree empty.
-/

namespace Pbos.Kf

open RBTrees Kfxx

variable {ν κ : Type} {w x : ν} {lt : κ → κ → Bool} {parent : Option ν}

/-! ## Reading a `kfxx::RBTree` as a C tree -/

/-- The nodes of a `kfxx::RBTree`, under a count of their own. -/
def forget (t : RBState ν κ) (n : UInt64) : KfTree ν κ := ⟨t.toLinks, t.rbValue, t.root, n⟩

section Forget

variable {t t' : RBState ν κ} {k : UInt64} {d : Side} {x y node gp : ν} {m n : ℕ} {q v p : Option ν}

@[simp] theorem forget_p : (forget t k).p = t.p := by unfold forget; rfl

@[simp] theorem forget_child : (forget t k).child = t.child := by unfold forget; rfl

@[simp] theorem forget_root : (forget t k).root = t.root := by unfold forget; rfl

@[simp] theorem forget_nodeNum : (forget t k).nodeNum = k := by unfold forget; rfl

@[simp] theorem forget_isRed : (forget t k).isRed q = t.isRed q := by
  cases q <;> rfl

@[simp] theorem forget_isBlack : (forget t k).isBlack q = t.isBlack q := by
  cases q <;> rfl

variable [DecidableEq ν]

@[simp] theorem forget_setParent :
    (forget t k).setParent q v = forget (t.setP q v) k := by unfold forget; rfl

@[simp] theorem forget_setChild :
    (forget t k).setChild d x v = forget (t.setChild d x v) k := by unfold forget; rfl

@[simp] theorem forget_setColor {c : RBColor} :
    (forget t k).setColor q c = forget (t.setColor q c) k := by unfold forget; rfl

@[simp] theorem forget_replaceChild {q : ν} :
    replaceChild (forget t k) q x v = forget (Kfxx.replaceChild t q x v) k := by
  simp only [replaceChild, forget_setChild]
  exact (apply_ite (forget · k) _ _ _).symm

theorem kfRbtreeRot_forget {line line' : ℕ} (h : rot d line t x = .ok t') :
    kfRbtreeRot d line' (forget t k) x = .ok (forget t' k) := by
  simp only [rot, kfRbtreeRot] at h ⊢
  split at h
  · cases h
  · rename_i y hy
    simp only [hy, forget_setChild, forget_child, forget_setParent, forget_p,
      forget_replaceChild]
    generalize t.setChild d.flip x (t.child d y) = s at h ⊢
    generalize s.setP (s.child d y) (some x) = s at h ⊢
    generalize s.setP (some y) (s.p x) = s at h ⊢
    cases hq : s.p x with
    | none =>
      rw [hq] at h
      exact congrArg (fun s => Except.ok (forget s k)) (Except.ok.inj h)
    | some q =>
      rw [hq] at h
      exact congrArg (fun s => Except.ok (forget s k)) (Except.ok.inj h)

theorem kfRbtreeRotate_forget (h : rotate d t x = .ok t') :
    kfRbtreeRotate d (forget t k) x = .ok (forget t' k) := by
  cases d with
  | left => exact kfRbtreeRot_forget h
  | right => exact kfRbtreeRot_forget h

theorem kfInsertRotate_forget {p node' : ν} (h : insertRotate d t node p gp = .ok (t', node')) :
    kfInsertRotate d (forget t k) node p gp = .ok (forget t' k, node') := by
  simp only [insertRotate] at h
  simp only [kfInsertRotate]
  by_cases hin : t.child d.flip p = some node
  · rw [if_pos hin] at h
    rw [if_pos (show (forget t k).child d.flip p = some node from hin)]
    obtain ⟨t₁, h₁, h⟩ := of_bind h
    rw [pure_bind] at h
    obtain ⟨t₂, h₂, h⟩ := of_bind h
    cases h
    rw [kfRbtreeRotate_forget h₁]
    exact congrArg (Except.map _) (kfRbtreeRotate_forget h₂)
  · rw [if_neg hin] at h
    rw [if_neg (show ¬ (forget t k).child d.flip p = some node from hin)]
    rw [pure_bind] at h
    obtain ⟨t₂, h₂, h⟩ := of_bind h
    cases h
    exact congrArg (Except.map _) (kfRbtreeRotate_forget h₂)

theorem ite_side (l q : Option ν) : (if l = q then Side.left else Side.right) = sideOf l q := by
  rfl

theorem kfInsertFixupLoop_forget (h : insertFixupLoop m t node gp = .ok t') (hn : m ≤ n) :
    kfInsertFixupLoop n (forget t k) node gp = .ok (forget t' k) := by
  induction m generalizing t node gp n with
  | zero => cases h
  | succ m ih =>
    obtain ⟨n, rfl⟩ : ∃ l, n = l + 1 := ⟨n - 1, by omega⟩
    have hmn : m ≤ n := by omega
    unfold insertFixupLoop at h
    unfold kfInsertFixupLoop
    simp only [forget_p, forget_isRed, forget_child]
    cases hp : t.p gp with
    | none =>
      simp only [hp] at h
      cases h
      rfl
    | some p =>
      simp only [hp] at h ⊢
      by_cases hred : t.isRed (some p) = true
      swap
      · rw [if_neg hred] at h
        cases h
        exact if_neg hred
      rw [if_pos hred] at h ⊢
      cases hgp : t.p p with
      | none => simp only [hgp] at h; cases h
      | some gp =>
        simp only [hgp, ite_side] at h ⊢
        split at h <;> rename_i hu
        · rw [if_pos hu]
          exact ih h hmn
        · rw [if_neg hu]
          obtain ⟨⟨t₁, node₁⟩, h₁, h₂⟩ := of_bind h
          rw [kfInsertRotate_forget h₁]
          exact ih h₂ hmn

theorem kfRbtreeInsertFixup_forget (h : insertFixup t node = .ok t') (hn : t.size + 2 ≤ n) :
    kfRbtreeInsertFixup n (forget t k) node = .ok (forget t' k) := by
  obtain ⟨t₁, h₁, h⟩ := of_bind h
  unfold kfRbtreeInsertFixup
  rw [kfInsertFixupLoop_forget h₁ hn]
  cases hroot : t₁.root with
  | none => rw [hroot] at h; cases h
  | some root =>
    rw [hroot] at h
    cases h
    have hroot' : (forget t₁ k).root = some root := hroot
    simp only [bind, Except.bind, hroot']
    rfl

/-! ### Removal -/

omit [DecidableEq ν] in
theorem kfRbtreeMinnode_forget (h : extremeLoop t .left m x = .ok y) (hn : m ≤ n) :
    kfRbtreeMinnode (forget t k) n x = .ok y := by
  induction m generalizing x n with
  | zero => cases h
  | succ m ih =>
    obtain ⟨n, rfl⟩ : ∃ l, n = l + 1 := ⟨n - 1, by omega⟩
    unfold extremeLoop at h
    unfold kfRbtreeMinnode
    rw [forget_child]
    cases hl : t.child .left x with
    | none =>
      rw [hl] at h
      cases h
      rfl
    | some l =>
      rw [hl] at h
      exact ih h (by omega)

theorem replaceNode_forget (h : Kfxx.replaceNode t x v = .ok t') :
    replaceNode (forget t k) x v = .ok (forget t' k) := by
  unfold Kfxx.replaceNode at h
  unfold replaceNode
  by_cases hroot : t.root = some x
  · rw [if_pos hroot] at h
    cases h
    exact if_pos hroot
  · rw [if_neg hroot] at h
    rw [if_neg (show ¬ (forget t k).root = some x from hroot), forget_p]
    cases hq : t.p x with
    | none => rw [hq] at h; cases h
    | some q =>
      rw [hq] at h
      cases h
      exact congrArg Except.ok forget_replaceChild

theorem kfTransplant_forget (h : transplant t x y q = .ok (t', p)) :
    kfTransplant (forget t k) x y q = .ok (forget t' k, p) := by
  simp only [transplant, kfTransplant, forget_child, forget_setParent, forget_setChild,
    forget_p] at h ⊢
  generalize t.setP (t.child .left x) (some y) = s at h ⊢
  generalize s.setChild .left y (s.child .left x) = s at h ⊢
  split at h <;> rename_i hr
  · rw [if_pos hr]
    simp only [pure_bind] at h ⊢
    obtain ⟨s₁, h₁, h⟩ := of_bind h
    cases h
    rw [replaceNode_forget h₁]
    rfl
  · rw [if_neg hr]
    cases hp : s.p y with
    | none =>
      rw [hp] at h
      cases h
    | some q =>
      rw [hp] at h
      simp only [pure_bind] at h ⊢
      obtain ⟨s₁, h₁, h⟩ := of_bind h
      cases h
      rw [replaceNode_forget h₁]
      rfl

theorem kfUnlink_forget (h : removeUnlink t x = .ok (t', q, p)) (hn : t.size + 1 ≤ n) :
    kfUnlink n (forget t k) x = .ok (forget t' k, q, p) := by
  simp only [removeUnlink, kfUnlink, forget_child] at h ⊢
  have one (z : Option ν) (h : (do
      let s ← Kfxx.replaceNode (t.setP z (t.p x)) x z
      pure (s, z, t.p x) : Except Fault (RBState ν κ × Option ν × Option ν)) = .ok (t', q, p)) :
      (do
        let s ← replaceNode (forget (t.setP z (t.p x)) k) x z
        pure (s, z, t.p x) : Except Fault (KfTree ν κ × Option ν × Option ν)) =
        .ok (forget t' k, q, p) := by
    obtain ⟨s, hs, h⟩ := of_bind h
    cases h
    rw [replaceNode_forget hs]
    rfl
  cases hl : t.child .left x with
  | none =>
    simp only [hl] at h ⊢
    exact one _ h
  | some l =>
    cases hr : t.child .right x with
    | none =>
      simp only [hl, hr] at h ⊢
      exact one _ h
    | some r =>
      simp only [hl, hr] at h ⊢
      obtain ⟨y, hy, h⟩ := of_bind h
      obtain ⟨⟨s, p'⟩, hs, h⟩ := of_bind h
      cases h
      rw [kfRbtreeMinnode_forget hy hn]
      exact congrArg (Except.map _) (kfTransplant_forget hs)

theorem kfRemoveSibling_forget {p w' : ν} (h : removeSibling d t p w = .ok (t', w')) :
    kfRemoveSibling d (forget t k) p w = .ok (forget t' k, w') := by
  simp only [removeSibling, kfRemoveSibling, forget_isRed, forget_setColor] at h ⊢
  split at h <;> rename_i hw
  · rw [if_pos hw]
    obtain ⟨s, hs, h⟩ := of_bind h
    rw [kfRbtreeRotate_forget hs]
    split at h <;> rename_i hc
    · cases h
    · cases h
      have hc' : (forget t' k).child d.flip p = some w' := hc
      simp only [bind, Except.bind, hc']
      rfl
  · rw [if_neg hw]
    cases h
    rfl

theorem kfRotateLast_forget {p : ν} (h : rotate d (((t.setColor (some w) (t.color p)).setColor
    (some p) .black).setColor (((t.setColor (some w) (t.color p)).setColor (some p) .black).child
      d.flip w) .black) p = .ok t') :
    kfRotateLast d (forget t k) p w = .ok (forget t' k) := by
  simp only [kfRotateLast, forget_setColor]
  exact kfRbtreeRotate_forget h

theorem kfRemoveRotate_forget {p : ν} (h : removeRotate d t p w = .ok t') :
    kfRemoveRotate d (forget t k) p w = .ok (forget t' k) := by
  simp only [removeRotate, kfRemoveRotate, forget_isBlack, forget_child, forget_setColor] at h ⊢
  split at h <;> rename_i hw
  · rw [if_pos hw]
    obtain ⟨s, hs, h⟩ := of_bind h
    split at h <;> rename_i hc
    · cases h
    · rw [pure_bind] at h
      rw [kfRbtreeRotate_forget hs]
      simp only [bind, Except.bind, forget_child, hc]
      exact kfRotateLast_forget h
  · rw [if_neg hw]
    exact kfRotateLast_forget h

theorem kfRemoveFixupLoop_forget {q' : Option ν} (h : removeFixupLoop m t q p = .ok (t', q'))
    (hn : m ≤ n) : kfRemoveFixupLoop n (forget t k) q p = .ok (forget t' k, q') := by
  induction m generalizing t q p n with
  | zero => cases h
  | succ m ih =>
    obtain ⟨n, rfl⟩ : ∃ l, n = l + 1 := ⟨n - 1, by omega⟩
    have hmn : m ≤ n := by omega
    unfold removeFixupLoop at h
    unfold kfRemoveFixupLoop
    simp only [forget_root, forget_isBlack, forget_child, ite_side] at h ⊢
    split at h <;> rename_i hx
    swap
    · cases h
      exact if_neg hx
    rw [if_pos hx]
    cases p with
    | none => cases h
    | some p =>
      dsimp only at h ⊢
      generalize sideOf (t.child .left p) q = d at h ⊢
      cases hw : t.child d.flip p with
      | none =>
        rw [hw] at h
        cases h
      | some w =>
        rw [hw] at h
        dsimp only at h ⊢
        obtain ⟨⟨s, w'⟩, hs, h⟩ := of_bind h
        rw [kfRemoveSibling_forget hs]
        simp only [bind, Except.bind, forget_isBlack, forget_child]
        split at h <;> rename_i hb
        · rw [if_pos hb]
          exact ih h hmn
        · rw [if_neg hb]
          obtain ⟨s', hs', h⟩ := of_bind h
          cases h
          rw [kfRemoveRotate_forget hs']
          rfl

theorem replaceNode_size (h : Kfxx.replaceNode t x v = .ok t') : t'.size = t.size := by
  unfold Kfxx.replaceNode Kfxx.replaceChild at h
  split at h
  · cases h; rfl
  · split at h
    · cases h
    · cases h
      split <;> rfl

theorem transplant_size (h : transplant t x y q = .ok (t', p)) : t'.size = t.size := by
  simp only [transplant] at h
  split at h
  · rw [pure_bind] at h
    obtain ⟨s, hs, h⟩ := of_bind h
    cases h
    exact (replaceNode_size hs :)
  · split at h
    · cases h
    · rw [pure_bind] at h
      obtain ⟨s, hs, h⟩ := of_bind h
      cases h
      exact (replaceNode_size hs :)

theorem removeUnlink_size (h : removeUnlink t x = .ok (t', q, p)) : t'.size = t.size := by
  have one {z : Option ν} (h : (do
      let s ← Kfxx.replaceNode (t.setP z (t.p x)) x z
      pure (s, z, t.p x) : Except Fault (RBState ν κ × Option ν × Option ν)) = .ok (t', q, p)) :
      t'.size = t.size := by
    obtain ⟨s, hs, h⟩ := of_bind h
    cases h
    exact (replaceNode_size hs :)
  simp only [removeUnlink] at h
  split at h
  · exact one h
  · exact one h
  · obtain ⟨y, -, h⟩ := of_bind h
    obtain ⟨⟨s, p'⟩, hs, h⟩ := of_bind h
    cases h
    exact transplant_size hs

theorem kfRbtreeRemoveFixup_forget (h : removeFixup t x = .ok t') (hn : t.size + 2 ≤ n) :
    kfRbtreeRemoveFixup n (forget t k) x = .ok (forget t' k) := by
  simp only [removeFixup] at h
  obtain ⟨⟨s, q, p⟩, hs, h⟩ := of_bind h
  unfold kfRbtreeRemoveFixup
  rw [kfUnlink_forget hs (by omega)]
  simp only [bind, Except.bind, forget_isBlack]
  split at h <;> rename_i hb
  · obtain ⟨⟨s', q'⟩, hs', h⟩ := of_bind h
    cases h
    rw [if_pos hb, kfRemoveFixupLoop_forget hs' (by rw [removeUnlink_size hs]; exact hn)]
    rfl
  · cases h
    exact if_neg hb

/-- **`kf_rbtree_remove` does what `remove` does**, and counts down. -/
theorem kfRbtreeRemove_forget (h : remove t x = .ok t') (hn : t.size + 2 ≤ n) :
    kfRbtreeRemove n (forget t k) x = .ok (forget t' (k - 1)) := by
  obtain ⟨s, hs, h⟩ := of_bind h
  obtain ⟨s', hs', h⟩ := of_bind h
  obtain ⟨min, -, hs'⟩ := of_bind hs'
  obtain ⟨max, -, hs'⟩ := of_bind hs'
  cases hs'
  cases h
  unfold kfRbtreeRemove
  rw [kfRbtreeRemoveFixup_forget hs hn]
  have hclear : (s.setChild .right x none).setChild .left x none =
      (s.setChild .left x none).setChild .right x none := by
    simp only [RBState.setChild, RBState.mk.injEq, Links.mk.injEq, true_and, and_true]
    funext e y
    cases e <;> simp
  simp only [bind, Except.bind, forget_setChild, hclear]
  rfl

/-! ### Insertion -/

omit [DecidableEq ν] in
theorem kfInsertSearch_forget {slot : Slot ν} {cur : Option ν}
    {r : Option (Slot ν) × Option ν}
    (h : getSlotLoop (.twoway lt) t (t.rbValue x) m slot parent cur = .ok r) (hn : m ≤ n) :
    kfInsertSearch lt (forget t k) x n cur parent = .ok (r.1.map fun _ => r.2) := by
  induction m generalizing slot parent cur n with
  | zero =>
    cases cur with
    | none =>
      cases h
      cases n <;> rfl
    | some y => cases h
  | succ m ih =>
    cases cur with
    | none =>
      cases h
      cases n <;> rfl
    | some y =>
      obtain ⟨n, rfl⟩ : ∃ l, n = l + 1 := ⟨n - 1, by omega⟩
      have hmn : m ≤ n := by omega
      obtain ⟨o, ho, h⟩ := of_bind h
      unfold kfInsertSearch
      have hkey : (forget t k).key = t.rbValue := rfl
      simp only [hkey]
      simp only [Comparator.order] at ho
      split at ho <;> rename_i hlt
      · rw [if_pos hlt]
        split at ho
        · cases ho
        · cases ho
          exact ih h hmn
      · rw [if_neg hlt]
        split at ho <;> rename_i hgt
        · cases ho
          rw [if_pos hgt]
          exact ih h hmn
        · cases ho
          cases h
          exact if_neg hgt

/-- The caches are no part of what the C tree keeps. -/
theorem insertAt_forget {c : Comparator κ} (h : insertAt c t parent x = .ok t') :
    ∃ t₁, insertLink c t parent x = .ok t₁ ∧ ∀ k, forget t' k = forget t₁ k := by
  obtain ⟨-, -, h⟩ := of_bind h
  obtain ⟨-, -, h⟩ := of_bind h
  obtain ⟨t₁, h₁, h⟩ := of_bind h
  obtain ⟨t₂, h₂, h⟩ := of_bind h
  obtain ⟨min, -, h₂⟩ := of_bind h₂
  obtain ⟨max, -, h₂⟩ := of_bind h₂
  cases h₂
  cases h
  exact ⟨t₁, h₁, fun _ => rfl⟩

/-- Linking below `y`, with the side asked for once more. -/
theorem kfInsertBelow_forget (hroot : t.root ≠ none)
    (h : insertLink (.twoway lt) t (some y) x = .ok t') (hn : t.size + 2 ≤ n) :
    kfRbtreeInsertFixup n (((if lt (t.rbValue x) (t.rbValue y) then
      (forget t k).setChild .left y (some x) else (forget t k).setChild .right y (some x)).setParent
        (some x) (some y)).setColor (some x) .red) x = .ok (forget t' k) := by
  unfold insertLink at h
  rw [if_neg hroot] at h
  obtain ⟨d, hd, h⟩ := of_bind h
  refine (congrArg (kfRbtreeInsertFixup n · x) ?_).trans (kfRbtreeInsertFixup_forget h hn)
  cases hd
  split <;> rfl

/-- **`kf_rbtree_insert` does what `insert` does**, and counts the node unless the tree was
empty. -/
theorem kfRbtreeInsert_forget {b : Bool} (hx : ∀ e, t.child e x = none)
    (h : insert (.twoway lt) t x = .ok (b, t')) (hn : t.size + 2 ≤ n) :
    kfRbtreeInsert lt n (forget t k) x = .ok (if b then .ok else .existed,
      forget t' (if b = true ∧ t.root ≠ none then k + 1 else k)) := by
  obtain ⟨⟨slot, parent⟩, hslot, h⟩ := of_bind h
  have hchild (e : Side) : (forget t k).child e x = none := hx e
  unfold kfRbtreeInsert
  rw [kdAssert_of_pos (hchild .left), kdAssert_of_pos (hchild .right)]
  cases hroot : t.root with
  | none =>
    rw [getSlot, hroot] at hslot
    cases hslot
    obtain ⟨t₁, h₁, h⟩ := of_bind h
    cases h
    obtain ⟨t₂, h₂, hforget⟩ := insertAt_forget h₁
    rw [insertLink, if_pos hroot] at h₂
    cases h₂
    simp only [forget_root, hroot, hforget]
    rfl
  | some root =>
    have hsearch := kfInsertSearch_forget (k := k) hslot (show t.size + 1 ≤ n by omega)
    simp only [bind, Except.bind, forget_root, hsearch]
    cases slot with
    | none =>
      cases h
      rw [if_neg (by simp [hroot])]
      rfl
    | some slot =>
      obtain ⟨t₁, h₁, h⟩ := of_bind h
      cases h
      obtain ⟨t₂, h₂, hforget⟩ := insertAt_forget h₁
      cases parent with
      | none =>
        rw [insertLink, if_neg (by simp [hroot])] at h₂
        cases h₂
      | some y =>
        have hbelow := kfInsertBelow_forget (k := k) (by simp [hroot]) h₂ hn
        have hkey : (forget t k).key = t.rbValue := rfl
        rw [if_neg (by simp [hroot])]
        simp only [Option.map_some, hkey, hbelow, hforget]
        rfl

end Forget

/-! ## The two trees side by side -/

inductive TreeOp (ν : Type)
  | insert (x : ν)
  | remove (x : ν)

/-- The C tree and the C++ tree, driven by the same operations, and the number of inserts that found
the tree empty. -/
structure TreePair (ν κ : Type) where
  c : KfTree ν κ
  cpp : RBState ν κ
  hollow : ℕ

/-- One operation on both trees, with what the two calls return. -/
def PairStep [DecidableEq ν] (lt : κ → κ → Bool) (s : TreePair ν κ)
    (e : TreeOp ν × KmResult × Bool) (s' : TreePair ν κ) : Prop :=
  match e with
  | (.insert x, rc, r) => Allowed s.cpp (.insert x) ∧
      Returns (kfRbtreeInsert lt · s.c x) (rc, s'.c) ∧
      insert (.twoway lt) s.cpp x = .ok (r, s'.cpp) ∧
      s'.hollow = if s.c.root = none then s.hollow + 1 else s.hollow
  | (.remove x, rc, r) => Allowed s.cpp (.remove x) ∧ Returns (kfRbtreeRemove · s.c x) s'.c ∧
      remove s.cpp x = .ok s'.cpp ∧ s'.hollow = s.hollow ∧ rc = .ok ∧ r = true

section Runs

variable [LinearOrder κ] {lt : κ → κ → Bool} {s s' : TreePair ν κ}

/-- The C tree is the C++ tree, and its count falls short by the inserts into an empty tree. -/
structure Agree (s : TreePair ν κ) : Prop where
  same : s.c = forget s.cpp s.c.nodeNum
  wf : ∃ W, Wf s.cpp W
  count : s.c.nodeNum + .ofNat s.hollow = .ofNat s.cpp.size

theorem Agree.root_eq (h : Agree s) : s.c.root = s.cpp.root := by
  rw [h.same]
  rfl

variable [DecidableEq ν]

/-- **A node to insert**: both trees refuse it, or both put it into the same place. -/
theorem Agree.insert (hlt : (Comparator.twoway lt).Lawful) (h : Agree s)
    (hx : Allowed s.cpp (.insert x)) :
    ∃ b c' cpp', Returns (kfRbtreeInsert lt · s.c x) (if b then .ok else .existed, c') ∧
      insert (.twoway lt) s.cpp x = .ok (b, cpp') ∧
      Agree ⟨c', cpp', if s.c.root = none then s.hollow + 1 else s.hollow⟩ := by
  obtain ⟨W, hW⟩ := h.wf
  have hC {b : Bool} {cpp' : RBState ν κ}
      (hins : Kfxx.insert (.twoway lt) s.cpp x = .ok (b, cpp')) :
      Returns (kfRbtreeInsert lt · s.c x) (if b then .ok else .existed,
        forget cpp' (if b = true ∧ s.cpp.root ≠ none then s.c.nodeNum + 1 else s.c.nodeNum)) := by
    refine ⟨s.cpp.size + 2, fun n hn => ?_⟩
    rw [h.same]
    exact kfRbtreeInsert_forget hx.2.2 hins hn
  rcases insert_spec hlt hW (hW.fresh hx) with
    ⟨⟨y, hy, -⟩, hins⟩ | ⟨-, t', W', A, B, hins, hW', -, hA, hA'⟩
  · have hroot : s.c.root ≠ none := by
      rw [h.root_eq, hW.holds.root]
      cases W with
      | nil => cases hy
      | node => nofun
    exact ⟨_, _, _, hC hins, hins, rfl, ⟨W, hW⟩, by simpa [hroot] using h.count⟩
  · have hsize : t'.size = s.cpp.size + 1 := by
      rw [hW'.size, hW.size, hA, hA']
      simp only [List.length_append, List.length_cons]
      omega
    refine ⟨_, _, _, hC hins, hins, rfl, ⟨W', hW'⟩, ?_⟩
    have hcount := h.count
    simp only [← h.root_eq, hsize, forget_nodeNum, true_and, UInt64.ofNat_add, ← hcount]
    by_cases hroot : s.c.root = none
    · rw [if_pos hroot, if_neg (not_not.mpr hroot), UInt64.ofNat_add, UInt64.add_assoc]
    · rw [if_pos hroot]
      grind

/-- **A node to remove**: both trees take it out. -/
theorem Agree.remove (h : Agree s) (hx : Allowed s.cpp (.remove x)) :
    ∃ c' cpp', Returns (kfRbtreeRemove · s.c x) c' ∧ remove s.cpp x = .ok cpp' ∧
      Agree ⟨c', cpp', s.hollow⟩ := by
  obtain ⟨W, hW⟩ := h.wf
  obtain ⟨t', W', A, B, hrem, hW', -, hA, hA'⟩ := remove_spec hW (hW.holds.inTree_iff.mp hx)
  have hsize : s.cpp.size = t'.size + 1 := by
    rw [hW'.size, hW.size, hA, hA']
    simp only [List.length_append, List.length_cons]
    omega
  refine ⟨forget t' (s.c.nodeNum - 1), t', ⟨s.cpp.size + 2, fun n hn => ?_⟩, hrem, rfl,
    ⟨W', hW'⟩, ?_⟩
  · dsimp only
    rw [h.same]
    exact kfRbtreeRemove_forget hrem hn
  · have hcount := h.count
    rw [hsize, UInt64.ofNat_add] at hcount
    simp only [forget_nodeNum]
    grind

/-- What one operation on both trees keeps, and how the two calls answer. -/
theorem Agree.step (hlt : (Comparator.twoway lt).Lawful) {e : TreeOp ν × KmResult × Bool}
    (h : Agree s) (hs : PairStep lt s e s') :
    Agree s' ∧ e.2.1 = if e.2.2 then .ok else .existed := by
  obtain ⟨op, rc, r⟩ := e
  obtain ⟨c', cpp', hollow'⟩ := s'
  cases op with
  | insert x =>
    obtain ⟨hx, hc, hcpp, rfl⟩ := hs
    obtain ⟨b, c₁, cpp₁, hc₁, hcpp₁, hagree⟩ := h.insert hlt hx
    cases hcpp.symm.trans hcpp₁
    cases hc.unique hc₁
    exact ⟨hagree, rfl⟩
  | remove x =>
    obtain ⟨hx, hc, hcpp, rfl, rfl, rfl⟩ := hs
    obtain ⟨c₁, cpp₁, hc₁, hcpp₁, hagree⟩ := h.remove hx
    cases hcpp.symm.trans hcpp₁
    cases hc.unique hc₁
    exact ⟨hagree, rfl⟩

theorem Agree.run (hlt : (Comparator.twoway lt).Lawful) {es : List (TreeOp ν × KmResult × Bool)}
    (h : Agree s) (hrun : Run (PairStep lt) s es s') :
    Agree s' ∧ ∀ e ∈ es, e.2.1 = if e.2.2 then .ok else .existed := by
  induction hrun with
  | nil => exact ⟨h, nofun⟩
  | cons hs _ ih =>
    obtain ⟨h', ha⟩ := h.step hlt hs
    obtain ⟨h'', has⟩ := ih h'
    exact ⟨h'', List.forall_mem_cons.mpr ⟨ha, has⟩⟩

/-- Both trees, before the first operation. -/
def TreePair.empty (h : Links ν) (key : ν → κ) : TreePair ν κ :=
  ⟨kfRbtreeInit h key, Kfxx.empty h key, 0⟩

omit [DecidableEq ν] in
theorem agree_empty (h : Links ν) (key : ν → κ) : Agree (.empty h key) := by
  have hempty : Represents (Kfxx.empty h key) OrdMap.empty := represents_empty
  obtain ⟨W, hW, -⟩ := hempty
  exact ⟨rfl, ⟨W, hW⟩, rfl⟩

/-- **The C tree is the C++ tree.**  After every run from the empty tree the two link the same nodes
in the same shape and colours and have refused the same inserts, `node_num` and the inserts into an
empty tree together are the number of nodes (so `node_num` alone is, exactly when the latter are a
multiple of `2 ^ 64`), and every further operation returns on both. -/
theorem agrees_of_run (hlt : (Comparator.twoway lt).Lawful) (h : Links ν) (key : ν → κ)
    {es : List (TreeOp ν × KmResult × Bool)} (hrun : Run (PairStep lt) (.empty h key) es s) :
    (∃ W : CTree ν, W.nodes.Nodup ∧ Rep s.c.toLinks none W ∧ s.c.root = W.ptr ∧
      Rep s.cpp.toLinks none W ∧ s.cpp.root = W.ptr ∧ (∀ x ∈ W.nodes, s.c.key x = s.cpp.rbValue x) ∧
      s.c.nodeNum + .ofNat s.hollow = .ofNat W.nodes.length ∧
      (s.c.nodeNum = .ofNat W.nodes.length ↔ 2 ^ 64 ∣ s.hollow)) ∧
    (∀ e ∈ es, e.2.1 = if e.2.2 then .ok else .existed) ∧
    (∀ x, Allowed s.cpp (.insert x) → ∃ rc r s', PairStep lt s (.insert x, rc, r) s') ∧
    ∀ x, Allowed s.cpp (.remove x) → ∃ rc r s', PairStep lt s (.remove x, rc, r) s' := by
  obtain ⟨hagree, hanswers⟩ := Agree.run hlt (agree_empty h key) hrun
  refine ⟨?_, hanswers, fun x hx => ?_, fun x hx => ?_⟩
  · obtain ⟨W, hW⟩ := hagree.wf
    have hcount := hagree.count
    rw [hW.size] at hcount
    have hlinks : s.c.toLinks = s.cpp.toLinks := by rw [hagree.same]; rfl
    refine ⟨W, hW.holds.nodup, hlinks ▸ hW.holds.rep, hagree.root_eq.trans hW.holds.root,
      hW.holds.rep, hW.holds.root, fun x _ => ?_, hcount, ?_⟩
    · rw [hagree.same]
      rfl
    · rw [← hcount, UInt64.left_eq_add, ← UInt64.toNat_inj, UInt64.toNat_ofNat',
        UInt64.toNat_zero, Nat.dvd_iff_mod_eq_zero]
  · obtain ⟨b, c', cpp', hc, hcpp, -⟩ := hagree.insert hlt hx
    exact ⟨_, b, ⟨c', cpp', _⟩, hx, hc, hcpp, rfl⟩
  · obtain ⟨c', cpp', hc, hcpp, -⟩ := hagree.remove hx
    exact ⟨_, _, ⟨c', cpp', _⟩, hx, hc, hcpp, rfl, rfl, rfl⟩

end Runs

/-- One node, inserted into the empty trees. -/
theorem run_insert_five : ∃ s : TreePair ℕ ℕ,
    Run (PairStep fun a b => decide (a < b)) (.empty blank id) [(.insert 5, .ok, true)] s ∧
      Rep s.c.toLinks none (.node .black .nil 5 .nil) ∧ s.c.root = some 5 ∧ s.c.nodeNum = 0 := by
  refine ⟨⟨_, _, _⟩, .cons ⟨⟨fun h => ?_, rfl, fun _ => rfl⟩, ⟨0, fun _ _ => rfl⟩, rfl, rfl⟩
    (.nil _), ⟨rfl, rfl, rfl, rfl, trivial, trivial⟩, rfl, rfl⟩
  cases h with
  | root h => cases h
  | child _ h => cases h

/-- The insertions that `grown` stands for, in both trees. -/
theorem Agree.grow {n : ℕ} (hn : n < 4) {s : TreePair ℕ ℕ} (h : Agree s) (hs : s.cpp = grown n) :
    ∃ s', PairStep (fun a b => decide (a < b)) s (.insert (n + 1), .ok, true) s' ∧ Agree s' ∧
      s'.cpp = grown (n + 1) := by
  obtain ⟨hnew, hexec⟩ := step_grown hn
  obtain ⟨b, c', cpp', hc, hcpp, hagree⟩ := h.insert natCmp_lawful (hs ▸ hnew)
  have hins := hcpp
  rw [hs] at hins
  simp only [exec, natCmp, hins] at hexec
  cases hexec
  exact ⟨⟨c', _, _⟩, ⟨hs ▸ hnew, hc, hcpp, rfl⟩, hagree, rfl⟩

/-- Operations that rotate the trees. -/
def rotatingOps : List (TreeOp ℕ × KmResult × Bool) := [(.insert 1, .ok, true),
  (.insert 2, .ok, true), (.insert 3, .ok, true), (.insert 4, .ok, true), (.remove 1, .ok, true)]

/-- The two trees rotate alike. -/
theorem agrees_rotating : ∃ s : TreePair ℕ ℕ,
    Run (PairStep fun a b => decide (a < b)) (.empty blank id) rotatingOps s ∧
    s.cpp = shrunk ∧ ∃ W : CTree ℕ, Rep s.c.toLinks none W ∧ Rep s.cpp.toLinks none W ∧
      s.c.nodeNum + .ofNat s.hollow = .ofNat W.nodes.length := by
  obtain ⟨s₁, h₁, ha₁, hs₁⟩ := (agree_empty blank id).grow (n := 0) (by decide) rfl
  obtain ⟨s₂, h₂, ha₂, hs₂⟩ := ha₁.grow (by decide) hs₁
  obtain ⟨s₃, h₃, ha₃, hs₃⟩ := ha₂.grow (by decide) hs₂
  obtain ⟨s₄, h₄, ha₄, hs₄⟩ := ha₃.grow (by decide) hs₃
  obtain ⟨c', cpp', hc, hcpp, -⟩ := ha₄.remove (hs₄ ▸ inTree_grown)
  have hshrunk : cpp' = shrunk := by
    rw [hs₄] at hcpp
    rw [shrunk, hcpp]
    rfl
  have h₅ : PairStep (fun a b => decide (a < b)) s₄ (.remove 1, .ok, true) ⟨c', cpp', s₄.hollow⟩ :=
    ⟨hs₄ ▸ inTree_grown, hc, hcpp, rfl, rfl, rfl⟩
  have hrun : Run (PairStep fun a b => decide (a < b)) (.empty blank id) rotatingOps _ :=
    .cons h₁ <| .cons h₂ <| .cons h₃ <| .cons h₄ <| .cons h₅ <| .nil _
  obtain ⟨⟨W, -, hc, -, hcpp, -, -, hcount, -⟩, -⟩ := agrees_of_run natCmp_lawful blank id hrun
  exact ⟨_, hrun, hshrunk, W, hc, hcpp, hcount⟩

/-- The C tree holds the node, and `node_num` is zero. -/
theorem nodeNum_misses_first : ∃ s : TreePair ℕ ℕ,
    Run (PairStep fun a b => decide (a < b)) (.empty blank id) [(.insert 5, .ok, true)] s ∧
      Rep s.c.toLinks none (.node .black .nil 5 .nil) ∧ s.c.root = some 5 ∧
      s.c.nodeNum ≠ .ofNat (CTree.node .black .nil 5 .nil).nodes.length := by
  obtain ⟨s, hrun, hrep, hroot, hnum⟩ := run_insert_five
  exact ⟨s, hrun, hrep, hroot, by rw [hnum]; decide⟩

end Pbos.Kf
