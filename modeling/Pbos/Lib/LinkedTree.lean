import Pbos.Lib.RBTree

/-!
# Lib/LinkedTree — coloured trees in a pointer memory

`Links` is the memory of a tree of linked nodes: a parent pointer, two child pointers and a colour
for every node.  `Rep h q T` says that the nodes of `T` are linked as in `T`, below the parent `q`;
`RepCtx h root q K` that those of the context `K` are, around a subtree with root `q`.

A write is followed through a tree by four rules: subtrees and contexts it does not touch keep their
meaning (`Rep.congr`, `RepCtx.congr`), a subtree may be given another parent (`Rep.reparent`), and a
context another subtree (`RepCtx.rehole`).
-/

namespace RBTrees

open Ctx List

variable {ν : Type*} {a b : CTree ν}

/-- The link fields and the colour of every node. -/
structure Links (ν : Type*) where
  p : ν → Option ν
  child : Side → ν → Option ν
  color : ν → RBColor

/-- Two memories agree on a node. -/
structure Links.Same (h h' : Links ν) (x : ν) : Prop where
  p : h'.p x = h.p x
  child : ∀ e, h'.child e x = h.child e x
  color : h'.color x = h.color x

theorem Links.Same.refl (h : Links ν) (x : ν) : h.Same h x := ⟨rfl, fun _ => rfl, rfl⟩

/-- The nodes of a tree are linked as in the tree, below the parent `q`. -/
def Rep (h : Links ν) : Option ν → CTree ν → Prop
  | _, .nil => True
  | q, .node c l x r => h.p x = q ∧ h.child .left x = l.ptr ∧ h.child .right x = r.ptr ∧
      h.color x = c ∧ Rep h (some x) l ∧ Rep h (some x) r

/-- The nodes of a context are linked as in the context, around a subtree with root `q`. -/
def RepCtx (h : Links ν) (root : Option ν) : Option ν → Ctx ν → Prop
  | q, [] => root = q
  | q, f :: K => h.p f.x = up K ∧ h.child f.side f.x = q ∧ h.child f.side.flip f.x = f.sib.ptr ∧
      h.color f.x = f.color ∧ Rep h (some f.x) f.sib ∧ RepCtx h root (some f.x) K

variable {h h' : Links ν} {q q' root root' : Option ν} {T : CTree ν} {K : Ctx ν} {d : Side}
  {c : RBColor} {x : ν}

@[simp] theorem rep_nil : Rep h q .nil := trivial

theorem rep_mk :
    Rep h q (.mk d c a x b) ↔ h.p x = q ∧ h.child d x = a.ptr ∧ h.child d.flip x = b.ptr ∧
      h.color x = c ∧ Rep h (some x) a ∧ Rep h (some x) b := by
  cases d
  · exact Iff.rfl
  · simp only [CTree.mk, Rep]
    tauto

@[simp] theorem repCtx_nil : RepCtx h root q [] ↔ root = q := Iff.rfl

/-- **A tree in memory splits at a focus.** -/
theorem rep_plug : Rep h none (plug T K) ∧ root = (plug T K).ptr ↔
    Rep h (up K) T ∧ RepCtx h root T.ptr K := by
  induction K generalizing T with
  | nil => exact Iff.rfl
  | cons f K ih =>
    rw [plug, ih, rep_mk, CTree.ptr_mk]
    simp only [RepCtx]
    tauto

/-- **A tree only reads its own nodes.** -/
theorem Rep.congr (hT : Rep h q T) (hsame : ∀ x ∈ T.nodes, h.Same h' x) : Rep h' q T := by
  induction T generalizing q with
  | nil => trivial
  | node c l x r ihl ihr =>
    obtain ⟨hp, hl, hr, hc, hTl, hTr⟩ := hT
    simp only [CTree.nodes] at hsame
    have hx := hsame x (by simp)
    exact ⟨hx.p.trans hp, (hx.child _).trans hl, (hx.child _).trans hr, hx.color.trans hc,
      ihl hTl fun y hy => hsame y (by simp [hy]), ihr hTr fun y hy => hsame y (by simp [hy])⟩

/-- **The links determine the tree.** -/
theorem Rep.unique {T' : CTree ν} (hT : Rep h q T) (hT' : Rep h q' T') (hptr : T.ptr = T'.ptr) :
    T = T' := by
  induction T generalizing q q' T' with
  | nil =>
    cases T' with
    | nil => rfl
    | node => cases hptr
  | node c l x r ihl ihr =>
    cases T' with
    | nil => cases hptr
    | node c' l' y r' =>
      obtain rfl : x = y := Option.some.inj hptr
      obtain ⟨-, hl, hr, hc, hTl, hTr⟩ := hT
      obtain ⟨-, hl', hr', hc', hTl', hTr'⟩ := hT'
      rw [ihl hTl hTl' (hl.symm.trans hl'), ihr hTr hTr' (hr.symm.trans hr'), ← hc, ← hc']

/-- **Giving a tree another parent**: only the root's parent pointer changes. -/
theorem Rep.reparent (hT : Rep h q T) (hnd : T.nodes.Nodup)
    (hrest : ∀ y ∈ T.nodes, T.ptr ≠ some y → h.Same h' y)
    (htop : ∀ y, T.ptr = some y →
      h'.p y = q' ∧ (∀ e, h'.child e y = h.child e y) ∧ h'.color y = h.color y) :
    Rep h' q' T := by
  obtain rfl | ⟨c, a, x, b, rfl⟩ := T.eq_nil_or_mk .left
  · trivial
  obtain ⟨-, ha, hb, hc, hTa, hTb⟩ := rep_mk.mp hT
  obtain ⟨hp', hch', hc'⟩ := htop x (by simp)
  obtain ⟨hxa, hxb, -⟩ := CTree.nodup_mk.mp hnd
  have hne : ∀ y, y ∈ a.nodes ∨ y ∈ b.nodes → h.Same h' y := fun y hy => by
    refine hrest y (CTree.mem_nodes_mk.mpr (.inr hy)) fun e => ?_
    obtain rfl : x = y := by simpa using e
    exact hy.elim hxa hxb
  exact rep_mk.mpr ⟨hp', (hch' _).trans ha, (hch' _).trans hb, hc'.trans hc,
    hTa.congr fun y hy => hne y (.inl hy), hTb.congr fun y hy => hne y (.inr hy)⟩

/-- A context only reads its own nodes. -/
theorem RepCtx.congr (hK : RepCtx h root q K) (hsame : ∀ x ∈ nodes K, h.Same h' x) :
    RepCtx h' root q K := by
  induction K generalizing q with
  | nil => exact hK
  | cons f K ih =>
    obtain ⟨hp, hq, hs, hc, hS, hK⟩ := hK
    simp only [nodes] at hsame
    have hx := hsame f.x (by simp)
    exact ⟨hx.p.trans hp, (hx.child _).trans hq, (hx.child _).trans hs, hx.color.trans hc,
      hS.congr fun y hy => hsame y (by simp [hy]), ih hK fun y hy => hsame y (by simp [hy])⟩

/-- What a memory must do to a context to put another subtree into it: the child pointer of the node
above changes, or the root pointer when there is none. -/
def Rehole (h h' : Links ν) (root root' q' : Option ν) : Ctx ν → Prop
  | [] => root' = q'
  | f :: _ => root' = root ∧ h'.p f.x = h.p f.x ∧ h'.child f.side f.x = q' ∧
      h'.child f.side.flip f.x = h.child f.side.flip f.x ∧ h'.color f.x = h.color f.x

/-- **Putting another subtree into a context.** -/
theorem RepCtx.rehole (hK : RepCtx h root q K) (hnd : (nodes K).Nodup)
    (hrest : ∀ y ∈ nodes K, up K ≠ some y → h.Same h' y) (htop : Rehole h h' root root' q' K) :
    RepCtx h' root' q' K := by
  cases K with
  | nil => exact htop
  | cons f K =>
    obtain ⟨hp, -, hs, hc, hS, hK⟩ := hK
    obtain ⟨rfl, hp', hq', hs', hc'⟩ := htop
    simp only [nodes, cons_append, nodup_cons, mem_append, not_or] at hnd
    simp only [nodes, up_cons, ne_eq, Option.some.injEq] at hrest
    refine ⟨hp'.trans hp, hq', hs'.trans hs, hc'.trans hc, hS.congr fun y hy => ?_,
      hK.congr fun y hy => ?_⟩
    · exact hrest y (by simp [hy]) fun e => hnd.1.1 (e ▸ hy)
    · exact hrest y (by simp [hy]) fun e => hnd.1.2 (e ▸ hy)

/-- The other child of the node above a focus is another one. -/
theorem RepCtx.sibling_ne {g : Frame ν} (hK : RepCtx h root T.ptr (g :: K))
    (hdisj : ∀ y ∈ T.nodes, y ∉ nodes (g :: K)) (hx : x ∈ T.nodes) :
    g.x ≠ x ∧ h.child g.side.flip g.x ≠ some x := by
  have hxK := hdisj x hx
  simp only [nodes, cons_append, mem_cons, mem_append, not_or] at hxK
  refine ⟨fun e => hxK.1 e.symm, fun e => hxK.2.1 (CTree.ptr_mem ?_)⟩
  rw [← hK.2.2.1, e]

/-- The parent pointer of a node leads into its context. -/
theorem Rep.p_ptr (hT : Rep h q T) (hx : T.ptr = some x) : h.p x = q := by
  cases T with
  | nil => cases hx
  | node c l y r =>
    obtain rfl : y = x := Option.some.inj hx
    exact hT.1

/-- What a memory must do to a subtree to hang it on `q`. -/
def Retop (h h' : Links ν) (q : Option ν) (T : CTree ν) : Prop :=
  ∀ y, T.ptr = some y →
    h'.p y = q ∧ (∀ e, h'.child e y = h.child e y) ∧ h'.color y = h.color y

/-- **Putting a node in the place of another one**: between the two subtrees and the context that
were the other one's. -/
theorem Rep.replace {y : ν} {qa qb : Option ν} (ha : Rep h qa a) (hb : Rep h qb b)
    (hK : RepCtx h root q K) (hnd : (plug (.mk d c a y b) K).nodes.Nodup)
    (hrest : ∀ z ∈ (plug (.mk d c a y b) K).nodes, y ≠ z → a.ptr ≠ some z → b.ptr ≠ some z →
      up K ≠ some z → h.Same h' z) (hta : Retop h h' (some y) a) (htb : Retop h h' (some y) b)
    (hy : h'.p y = up K ∧ h'.child d y = a.ptr ∧ h'.child d.flip y = b.ptr ∧ h'.color y = c)
    (htop : Rehole h h' root root' (some y) K) :
    Rep h' (up K) (.mk d c a y b) ∧ RepCtx h' root' (some y) K := by
  obtain ⟨hndT, hndK, hdisj⟩ := nodup_plug.mp hnd
  obtain ⟨hya, hyb, hnda, hndb, hab⟩ := CTree.nodup_mk.mp hndT
  simp only [CTree.mem_nodes_mk] at hdisj
  have hup : ∀ z, z = y ∨ z ∈ a.nodes ∨ z ∈ b.nodes → up K ≠ some z := fun z hz e =>
    hdisj z hz (up_mem e)
  refine ⟨rep_mk.mpr ⟨hy.1, hy.2.1, hy.2.2.1, hy.2.2.2, ha.reparent hnda (fun z hz hne => ?_) hta,
    hb.reparent hndb (fun z hz hne => ?_) htb⟩, hK.rehole hndK (fun z hz hne => ?_) htop⟩
  · refine hrest z (by simp [mem_nodes_plug, hz]) (fun e => hya (e ▸ hz)) hne ?_
      (hup z (by simp [hz]))
    exact fun e => hab z hz (CTree.ptr_mem e)
  · refine hrest z (by simp [mem_nodes_plug, hz]) (fun e => hyb (e ▸ hz)) ?_ hne
      (hup z (by simp [hz]))
    exact fun e => hab z (CTree.ptr_mem e) hz
  · refine hrest z (by simp [mem_nodes_plug, hz]) (fun e => hdisj y (by simp) (e ▸ hz)) ?_ ?_ hne
    · exact fun e => hdisj z (by simp [CTree.ptr_mem e]) hz
    · exact fun e => hdisj z (by simp [CTree.ptr_mem e]) hz

/-- Painting the root of a tree. -/
theorem Rep.recolor {c' : RBColor} (hT : Rep h q (.mk d c a x b))
    (hnd : (CTree.mk d c a x b).nodes.Nodup) (hrest : ∀ y, y ≠ x → h.Same h' y)
    (hp : h'.p x = h.p x) (hchild : ∀ e, h'.child e x = h.child e x) (hc : h'.color x = c') :
    Rep h' q (.mk d c' a x b) := by
  obtain ⟨hp₀, ha, hb, -, hTa, hTb⟩ := rep_mk.mp hT
  obtain ⟨hxa, hxb, -⟩ := CTree.nodup_mk.mp hnd
  refine rep_mk.mpr ⟨hp.trans hp₀, (hchild d).trans ha, (hchild d.flip).trans hb, hc,
    hTa.congr fun y hy => hrest y ?_, hTb.congr fun y hy => hrest y ?_⟩
  · rintro rfl
    exact hxa hy
  · rintro rfl
    exact hxb hy

end RBTrees
