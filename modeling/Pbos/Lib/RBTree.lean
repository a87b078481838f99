import Mathlib

/-!
# Lib/RBTree — red-black trees seen from a node

A tree with coloured nodes, and a node of it as a subtree `T` under a context `K`, the path of
frames from the subtree up to the root: `plug T K` is the whole tree.  Rebalancing works at such a
focus, so what the red-black conditions say is split the same way: about the subtree (`Bal`), and
about the context it hangs in (`CtxBal`).

Everything is symmetric in the two sides: `mk d c a x b` is the node with subtree `a` on side `d`
and `b` on the other one, so that one statement covers both mirror images.
-/

namespace RBTrees

inductive RBColor
  | black
  | red
  deriving DecidableEq, Repr

inductive Side
  | left
  | right
  deriving DecidableEq, Repr

/-- The other side. -/
def Side.flip : Side → Side
  | .left => .right
  | .right => .left

@[simp] theorem Side.flip_flip (d : Side) : d.flip.flip = d := by cases d <;> rfl

@[simp] theorem Side.flip_ne (d : Side) : d.flip ≠ d := by cases d <;> decide

theorem Side.eq_flip_of_ne {d d' : Side} (h : d ≠ d') : d = d'.flip := by
  cases d <;> cases d' <;> first | rfl | exact absurd rfl h

@[simp] theorem Side.ne_flip (d : Side) : d ≠ d.flip := by cases d <;> decide

inductive CTree (ν : Type*)
  | nil
  | node (c : RBColor) (l : CTree ν) (x : ν) (r : CTree ν)

variable {ν : Type*} {T T' : CTree ν} {y p w : ν}

namespace CTree

variable (d : Side) (c : RBColor) (a : CTree ν) (x : ν) (b : CTree ν)

/-- The node with `a` on side `d` and `b` on the other. -/
def mk : CTree ν :=
  match d with
  | .left => node c a x b
  | .right => node c b x a

/-- Every node is `mk` from either side. -/
theorem mk_flip : mk d.flip c a x b = mk d c b x a := by cases d <;> rfl

/-- A node may be seen from the side one likes. -/
theorem exists_mk_eq (d' : Side) (c : RBColor) (a : CTree ν) (x : ν) (b : CTree ν) :
    ∃ a' b', mk d c a x b = mk d' c a' x b' := by
  cases d <;> cases d'
  · exact ⟨a, b, rfl⟩
  · exact ⟨b, a, rfl⟩
  · exact ⟨b, a, rfl⟩
  · exact ⟨a, b, rfl⟩

/-- A tree is empty or a node, seen from the side one likes. -/
theorem eq_nil_or_mk (T : CTree ν) : T = nil ∨ ∃ c a x b, T = mk d c a x b := by
  cases T with
  | nil => exact .inl rfl
  | node c l x r =>
    cases d
    · exact .inr ⟨c, l, x, r, rfl⟩
    · exact .inr ⟨c, r, x, l, rfl⟩

/-- The root node. -/
def ptr : CTree ν → Option ν
  | nil => none
  | node _ _ x _ => some x

@[simp] theorem ptr_nil : (nil : CTree ν).ptr = none := rfl

@[simp] theorem ptr_node (l : CTree ν) (x : ν) (r : CTree ν) : (node c l x r).ptr = some x := rfl

@[simp] theorem ptr_mk : (mk d c a x b).ptr = some x := by cases d <;> rfl

theorem ptr_eq_none_iff : T.ptr = none ↔ T = nil := by
  cases T <;> simp [ptr]

/-- The nodes in order. -/
def nodes : CTree ν → List ν
  | nil => []
  | node _ l x r => l.nodes ++ x :: r.nodes

/-- The nodes on side `d` of a node and those on the other side, in order. -/
def join (A B : List ν) : List ν :=
  match d with
  | .left => A ++ B
  | .right => B ++ A

@[simp] theorem nodes_nil : (nil : CTree ν).nodes = [] := rfl

theorem nodes_mk : (mk d c a x b).nodes = join d (join d a.nodes [x]) b.nodes := by
  cases d <;> simp [mk, nodes, join]

@[simp] theorem mem_nodes_mk {d : Side} {c : RBColor} {a : CTree ν} {x : ν} {b : CTree ν} :
    y ∈ (mk d c a x b).nodes ↔ y = x ∨ y ∈ a.nodes ∨ y ∈ b.nodes := by
  cases d <;> simp [mk, nodes] <;> tauto

theorem ptr_mem {x : ν} (h : T.ptr = some x) : x ∈ T.nodes := by
  cases T with
  | nil => cases h
  | node c l y r =>
    obtain rfl : y = x := Option.some.inj h
    simp [nodes]

/-- The nodes of a node are all different. -/
theorem nodup_mk {d : Side} {c : RBColor} {a : CTree ν} {x : ν} {b : CTree ν} :
    (mk d c a x b).nodes.Nodup ↔ x ∉ a.nodes ∧ x ∉ b.nodes ∧ a.nodes.Nodup ∧ b.nodes.Nodup ∧
      ∀ y ∈ a.nodes, y ∉ b.nodes := by
  cases d <;> simp only [mk, nodes] <;> grind

/-- The root is black; the empty tree counts as black. -/
def isBlack : CTree ν → Prop
  | nil => True
  | node c _ _ _ => c = .black

@[simp] theorem isBlack_nil : (nil : CTree ν).isBlack := trivial

@[simp] theorem isBlack_mk {d : Side} {c : RBColor} {a : CTree ν} {x : ν} {b : CTree ν} :
    (mk d c a x b).isBlack ↔ c = .black := by cases d <;> rfl

instance : (T : CTree ν) → Decidable T.isBlack
  | nil => inferInstanceAs (Decidable True)
  | node c _ _ _ => inferInstanceAs (Decidable (c = .black))

/-- The tree with its root painted black. -/
def blacken : CTree ν → CTree ν
  | nil => nil
  | node _ l x r => node .black l x r

@[simp] theorem blacken_mk : (mk d c a x b).blacken = mk d .black a x b := by cases d <;> rfl

theorem isBlack_blacken (T : CTree ν) : T.blacken.isBlack := by cases T <;> trivial

theorem blacken_of_isBlack (h : T.isBlack) : T.blacken = T := by
  cases T with
  | nil => rfl
  | node c l x r =>
    obtain rfl : c = .black := h
    rfl

/-- **A rotation keeps the order.** -/
theorem nodes_rotate (e c' e' : RBColor) (a : CTree ν) (x : ν) (b : CTree ν) (y : ν) (f : CTree ν) :
    (mk d e (mk d c a x b) y f).nodes = (mk d c' a x (mk d e' b y f)).nodes := by
  cases d <;> simp [mk, nodes]

end CTree

/-! ## A focus and its context -/

/-- One step of the path from a subtree to the root: the subtree is on side `side` of `x`, and `sib`
on the other. -/
structure Frame (ν : Type*) where
  side : Side
  color : RBColor
  x : ν
  sib : CTree ν

/-- The path from a subtree to the root. -/
abbrev Ctx (ν : Type*) := List (Frame ν)

/-- The whole tree. -/
@[simp] def plug : CTree ν → Ctx ν → CTree ν
  | T, [] => T
  | T, f :: K => plug (.mk f.side f.color T f.x f.sib) K

namespace Ctx

/-- The node a subtree hangs on. -/
def up : Ctx ν → Option ν
  | [] => none
  | f :: _ => some f.x

/-- The nodes of the context. -/
def nodes : Ctx ν → List ν
  | [] => []
  | f :: K => f.x :: f.sib.nodes ++ nodes K

/-- The nodes before the subtree, in order. -/
def before : Ctx ν → List ν
  | [] => []
  | ⟨.left, _, _, _⟩ :: K => before K
  | ⟨.right, _, x, s⟩ :: K => before K ++ (s.nodes ++ [x])

/-- The nodes after the subtree, in order. -/
def after : Ctx ν → List ν
  | [] => []
  | ⟨.left, _, x, s⟩ :: K => x :: s.nodes ++ after K
  | ⟨.right, _, _, _⟩ :: K => after K

/-- The subtree hangs on a black node, so that its root may be red. -/
def blackTop : Ctx ν → Prop
  | [] => False
  | f :: _ => f.color = .black

@[simp] theorem up_nil : up ([] : Ctx ν) = none := rfl

@[simp] theorem up_cons (f : Frame ν) (K : Ctx ν) : up (f :: K) = some f.x := rfl

@[simp] theorem blackTop_nil : ¬ blackTop ([] : Ctx ν) := id

@[simp] theorem blackTop_cons {f : Frame ν} {K : Ctx ν} :
    blackTop (f :: K) ↔ f.color = .black := Iff.rfl

theorem up_mem {K : Ctx ν} (h : up K = some y) : y ∈ nodes K := by
  cases K with
  | nil => cases h
  | cons f K =>
    obtain rfl : f.x = y := Option.some.inj h
    simp [nodes]

end Ctx

open Ctx

theorem plug_append (T : CTree ν) (K K' : Ctx ν) : plug T (K ++ K') = plug (plug T K) K' := by
  induction K generalizing T with
  | nil => rfl
  | cons f K ih => exact ih _

/-- **The focus may move to the sibling.** -/
theorem plug_sibling (T : CTree ν) (d : Side) (c : RBColor) (x : ν) (s : CTree ν) (K : Ctx ν) :
    plug T (⟨d, c, x, s⟩ :: K) = plug s (⟨d.flip, c, x, T⟩ :: K) := by
  rw [plug, plug, CTree.mk_flip]

/-- **The order of the whole tree**: what is before the subtree, the subtree, what is after it. -/
theorem nodes_plug (T : CTree ν) (K : Ctx ν) :
    (plug T K).nodes = before K ++ T.nodes ++ after K := by
  induction K generalizing T with
  | nil => simp [before, after]
  | cons f K ih =>
    obtain ⟨d, c, x, s⟩ := f
    rw [plug, ih]
    cases d <;> simp [CTree.mk, CTree.nodes, before, after]

theorem nodes_plug_congr (h : T.nodes = T'.nodes) (K : Ctx ν) :
    (plug T K).nodes = (plug T' K).nodes := by
  rw [nodes_plug, nodes_plug, h]

theorem mem_nodes_plug {K : Ctx ν} :
    y ∈ (plug T K).nodes ↔ y ∈ T.nodes ∨ y ∈ nodes K := by
  induction K generalizing T with
  | nil => simp [nodes]
  | cons f K ih =>
    rw [plug, ih, CTree.mem_nodes_mk]
    simp only [nodes, List.mem_cons, List.mem_append]
    tauto

theorem nodup_plug {K : Ctx ν} : (plug T K).nodes.Nodup ↔
      T.nodes.Nodup ∧ (nodes K).Nodup ∧ ∀ y ∈ T.nodes, y ∉ nodes K := by
  induction K generalizing T with
  | nil => simp [nodes]
  | cons f K ih =>
    rw [plug, ih, CTree.nodup_mk]
    simp only [CTree.mem_nodes_mk, nodes]
    grind

/-- The path to a subtree is no longer than the tree has nodes. -/
theorem length_le_nodes (T : CTree ν) (K : Ctx ν) :
    T.nodes.length + K.length ≤ (plug T K).nodes.length := by
  induction K generalizing T with
  | nil => simp
  | cons f K ih =>
    refine Nat.le_trans ?_ (ih _)
    rw [CTree.nodes_mk]
    cases f.side <;> simp [CTree.join] <;> omega

/-- The root of the whole tree does not depend on a subtree below it. -/
theorem ptr_plug_congr {K : Ctx ν} (h : K ≠ []) :
    (plug T K).ptr = (plug T' K).ptr := by
  induction K generalizing T T' with
  | nil => exact absurd rfl h
  | cons f K ih =>
    cases K with
    | nil => simp
    | cons g K => exact ih (List.cons_ne_nil g K)

/-- The root of the whole tree is a node of a context that is not empty. -/
theorem ptr_plug_cons (T : CTree ν) (f : Frame ν) (K : Ctx ν) :
    ∃ y ∈ nodes (f :: K), (plug T (f :: K)).ptr = some y := by
  induction K generalizing T f with
  | nil => exact ⟨f.x, by simp [nodes], by simp⟩
  | cons g K ih =>
    obtain ⟨y, hy, hptr⟩ := ih (.mk f.side f.color T f.x f.sib) g
    exact ⟨y, List.mem_append_right _ hy, hptr⟩

/-- **Every node of a tree can be focused on.** -/
theorem exists_focus {W : CTree ν} {x : ν} (h : x ∈ W.nodes) :
    ∃ c a b K, W = plug (.node c a x b) K := by
  suffices hK : ∀ (T : CTree ν) (K : Ctx ν), x ∈ T.nodes →
      ∃ c a b K', plug T K = plug (.node c a x b) K' from hK W [] h
  intro T
  induction T with
  | nil => intro K hx; cases hx
  | node c l y r ihl ihr =>
    intro K hx
    simp only [CTree.nodes, List.mem_append, List.mem_cons] at hx
    rcases hx with hx | rfl | hx
    · exact ihl (⟨.left, c, y, r⟩ :: K) hx
    · exact ⟨c, l, r, K, rfl⟩
    · exact ihr (⟨.right, c, y, l⟩ :: K) hx

/-- A path that always leaves to side `d` has nothing on that side. -/
theorem before_eq_nil {K : Ctx ν} (h : ∀ f ∈ K, f.side = .left) : before K = [] := by
  induction K with
  | nil => rfl
  | cons f K ih =>
    obtain ⟨d, c, x, s⟩ := f
    obtain rfl : d = .left := h _ List.mem_cons_self
    exact ih fun g hg => h g (by simp [hg])

theorem after_eq_nil {K : Ctx ν} (h : ∀ f ∈ K, f.side = .right) : after K = [] := by
  induction K with
  | nil => rfl
  | cons f K ih =>
    obtain ⟨d, c, x, s⟩ := f
    obtain rfl : d = .right := h _ List.mem_cons_self
    exact ih fun g hg => h g (by simp [hg])

/-! ## The red-black conditions -/

/-- What a node adds to the black height. -/
def RBColor.weight : RBColor → ℕ
  | .black => 1
  | .red => 0

@[simp] theorem weight_black : RBColor.black.weight = 1 := rfl

@[simp] theorem weight_red : RBColor.red.weight = 0 := rfl

/-- No red node has a red child, and every path to the bottom passes `n` black nodes. -/
def Bal : CTree ν → ℕ → Prop
  | .nil, n => n = 0
  | .node c l _ r, n => (c = .red → l.isBlack ∧ r.isBlack) ∧
      ∃ m, n = m + c.weight ∧ Bal l m ∧ Bal r m

/-- The conditions on a tree: balanced, with a black root. -/
def RedBlack (W : CTree ν) : Prop := W.isBlack ∧ ∃ n, Bal W n

/-- The conditions on a context for a subtree of black height `n`. -/
def CtxBal : Ctx ν → ℕ → Prop
  | [], _ => True
  | f :: K, n => (f.color = .red → f.sib.isBlack ∧ blackTop K) ∧ Bal f.sib n ∧
      CtxBal K (n + f.color.weight)

variable {d : Side} {c : RBColor} {a b T : CTree ν} {x : ν} {K : Ctx ν} {n : ℕ} {f g : Frame ν}

@[simp] theorem bal_nil : Bal (.nil : CTree ν) n ↔ n = 0 := Iff.rfl

theorem bal_mk : Bal (.mk d c a x b) n ↔
    (c = .red → a.isBlack ∧ b.isBlack) ∧ ∃ m, n = m + c.weight ∧ Bal a m ∧ Bal b m := by
  cases d
  · exact Iff.rfl
  · simp only [CTree.mk, Bal, and_comm]

@[simp] theorem bal_mk_red : Bal (.mk d .red a x b) n ↔
    (a.isBlack ∧ b.isBlack) ∧ Bal a n ∧ Bal b n := by
  simp [bal_mk]

@[simp] theorem bal_mk_black_succ : Bal (.mk d .black a x b) (n + 1) ↔ Bal a n ∧ Bal b n := by
  simp [bal_mk]

theorem bal_mk_black : Bal (.mk d .black a x b) n ↔ ∃ m, n = m + 1 ∧ Bal a m ∧ Bal b m := by
  simp [bal_mk]

/-- Below a black node the tree branches in full. -/
theorem Bal.two_pow_le (h : Bal T n) : 2 ^ n ≤ T.nodes.length + 1 := by
  induction T generalizing n with
  | nil => simp [bal_nil.mp h]
  | node c l x r ihl ihr =>
    obtain ⟨-, m, rfl, hl, hr⟩ := h
    have hl' := ihl hl
    have hr' := ihr hr
    cases c <;> simp [CTree.nodes, pow_succ] <;> omega

/-- **The conditions split at a focus.** -/
theorem redBlack_plug : RedBlack (plug T K) ↔
    ∃ n, Bal T n ∧ CtxBal K n ∧ (T.isBlack ∨ blackTop K) := by
  induction K generalizing T with
  | nil => simp [RedBlack, CtxBal, and_comm]
  | cons f K ih =>
    rw [plug, ih]
    constructor
    · rintro ⟨n, hbal, hK, htop⟩
      obtain ⟨hred, m, rfl, hT, hs⟩ := bal_mk.mp hbal
      refine ⟨m, hT, ⟨fun hf => ⟨(hred hf).2, htop.resolve_left (by simp [hf])⟩, hs, hK⟩, ?_⟩
      cases hc : f.color with
      | black => exact .inr hc
      | red => exact .inl (hred hc).1
    · rintro ⟨n, hT, ⟨hred, hs, hK⟩, htop⟩
      refine ⟨n + f.color.weight, bal_mk.mpr ⟨fun hf => ⟨?_, (hred hf).1⟩, n, rfl, hT, hs⟩, hK, ?_⟩
      · exact htop.resolve_right (by simp [hf])
      · cases hc : f.color with
        | black => exact .inl (by simp)
        | red => exact .inr (hred hc).2

/-- Which node a frame is made of does not matter for the balance. -/
theorem CtxBal.rename {A : Ctx ν} {s : CTree ν}
    (h : CtxBal (A ++ ⟨d, c, x, s⟩ :: K) n) : CtxBal (A ++ ⟨d, c, y, s⟩ :: K) n := by
  induction A generalizing n with
  | nil => exact h
  | cons f A ih =>
    obtain ⟨hf, hs, hA⟩ := h
    refine ⟨fun hr => ⟨(hf hr).1, ?_⟩, hs, ih hA⟩
    cases A with
    | nil => exact (hf hr).2
    | cons g A => exact (hf hr).2

/-! ## Rebalancing after an insertion

The exception is at the root of the subtree `T`: it is red, and may hang on a red node. -/

/-- Painting a red root black adds one to the black height. -/
theorem Bal.blacken_red (h : Bal T n) (hT : ¬ T.isBlack) : Bal T.blacken (n + 1) := by
  cases T with
  | nil => exact absurd trivial hT
  | node c l x r =>
    cases c with
    | black => exact absurd rfl hT
    | red =>
      obtain ⟨-, m, rfl, hl, hr⟩ := h
      exact ⟨fun h => (nomatch h), _, rfl, hl, hr⟩

/-- Painting the root black is all that a balanced tree may lack. -/
theorem Bal.redBlack_blacken (h : Bal T n) : RedBlack T.blacken := by
  refine ⟨CTree.isBlack_blacken T, ?_⟩
  by_cases hT : T.isBlack
  · exact ⟨n, (CTree.blacken_of_isBlack hT).symm ▸ h⟩
  · exact ⟨n + 1, h.blacken_red hT⟩

/-- A red frame has a frame above it. -/
theorem CtxBal.exists_grandparent (h : CtxBal (f :: K) n) (hf : f.color = .red) :
    ∃ g K', K = g :: K' := by
  cases K with
  | nil => exact absurd (h.1 hf).2 id
  | cons g K => exact ⟨g, K, rfl⟩

/-- What surrounds a subtree below a red frame, whose own frame is black. -/
theorem CtxBal.red_frame (h : CtxBal (f :: g :: K) n) (hf : f.color = .red) :
    f.sib.isBlack ∧ Bal f.sib n ∧ Bal g.sib n ∧ CtxBal K (n + 1) := by
  obtain ⟨hfr, hs, -, hu, hK⟩ := h
  rw [hf] at hu hK
  rw [show g.color = .black from (hfr hf).2] at hK
  exact ⟨(hfr hf).1, hs, hu, hK⟩

/-- **A red uncle**: parent and uncle turn black, the grandparent red, and the exception moves
up. -/
theorem Bal.insert_recolor (hT : Bal T n) (hK : CtxBal (f :: g :: K) n) (hf : f.color = .red)
    (hu : ¬ g.sib.isBlack) :
    Bal (.mk g.side .red (.mk f.side .black T f.x f.sib) g.x g.sib.blacken) (n + 1) ∧
      CtxBal K (n + 1) := by
  obtain ⟨-, hs, hu', hK⟩ := hK.red_frame hf
  simp only [bal_mk_red, CTree.isBlack_mk, bal_mk_black_succ, true_and]
  exact ⟨⟨CTree.isBlack_blacken _, ⟨hT, hs⟩, hu'.blacken_red hu⟩, hK⟩

/-- **A black uncle, the subtree outside**: one rotation ends the exception. -/
theorem Bal.insert_outer (hT : Bal T n) (hK : CtxBal (f :: g :: K) n) (hf : f.color = .red)
    (hu : g.sib.isBlack) :
    RedBlack (plug (.mk g.side .black T f.x (.mk g.side .red f.sib g.x g.sib)) K) := by
  obtain ⟨hsb, hs, hu', hK⟩ := hK.red_frame hf
  refine redBlack_plug.mpr ⟨n + 1, ?_, hK, .inl (by simp)⟩
  simp only [bal_mk_red, bal_mk_black_succ]
  exact ⟨hT, ⟨hsb, hu⟩, hs, hu'⟩

/-- **A black uncle, the subtree inside**: two rotations end the exception. -/
theorem Bal.insert_inner (hT : Bal (.mk d .red a x b) n) (hK : CtxBal (f :: g :: K) n)
    (hf : f.color = .red) (hu : g.sib.isBlack) :
    RedBlack (plug (.mk d .black (.mk d .red f.sib f.x a) x (.mk d .red b g.x g.sib)) K) := by
  obtain ⟨hsb, hs, hu', hK⟩ := hK.red_frame hf
  obtain ⟨⟨hab, hbb⟩, ha, hb⟩ := bal_mk_red.mp hT
  refine redBlack_plug.mpr ⟨n + 1, ?_, hK, .inl (by simp)⟩
  simp only [bal_mk_red, bal_mk_black_succ]
  exact ⟨⟨⟨hsb, hab⟩, hs, ha⟩, ⟨hbb, hu⟩, hb, hu'⟩

/-! ## Rebalancing after a removal

The exception is at the subtree `T`: its black height is one less than its context wants. -/

/-- A subtree of positive black height is not empty. -/
theorem Bal.exists_mk (h : Bal T (n + 1)) (d : Side) : ∃ c a x b, T = .mk d c a x b := by
  refine (CTree.eq_nil_or_mk d T).resolve_left ?_
  rintro rfl
  cases h

/-- Taking out a node with one child at most leaves no exception, or one at the child. -/
theorem Bal.take_out {S : CTree ν} (h : Bal (.mk d c .nil x S) n) (hK : CtxBal K n) :
    c = .red ∧ RedBlack (plug S K) ∨ c = .black ∧ ∃ m, Bal S m ∧ CtxBal K (m + 1) := by
  cases c with
  | red =>
    obtain ⟨⟨-, hb⟩, -, hS⟩ := bal_mk_red.mp h
    exact .inl ⟨rfl, redBlack_plug.mpr ⟨n, hS, hK, .inl hb⟩⟩
  | black =>
    obtain ⟨m, rfl, -, hS⟩ := bal_mk_black.mp h
    exact .inr ⟨rfl, m, hS, hK⟩

/-- A subtree whose root is red takes the missing black itself. -/
theorem Bal.remove_red (hT : Bal T n) (hK : CtxBal K (n + 1)) (hr : ¬ T.isBlack) :
    RedBlack (plug T.blacken K) :=
  redBlack_plug.mpr ⟨n + 1, hT.blacken_red hr, hK, .inl (CTree.isBlack_blacken T)⟩

/-- **A red sibling**: a rotation gives the subtree a black one, below a red parent. -/
theorem CtxBal.remove_sibling (hK : CtxBal (⟨d, c, p, .mk d .red a w b⟩ :: K) (n + 1)) :
    c = .black ∧ CtxBal (⟨d, .red, p, a⟩ :: ⟨d, .black, w, b⟩ :: K) (n + 1) := by
  obtain ⟨hc, hw, hK⟩ := hK
  obtain ⟨⟨hab, -⟩, ha, hb⟩ := bal_mk_red.mp hw
  have hcb : c = .black := by
    cases c with
    | black => rfl
    | red => simpa using (hc rfl).1
  subst hcb
  exact ⟨rfl, fun _ => ⟨hab, rfl⟩, ha, fun h => (nomatch h), hb, hK⟩

/-- **A black sibling with black children** turns red, and the parent inherits the exception. -/
theorem Bal.remove_recolor (hT : Bal T n)
    (hK : CtxBal (⟨d, c, p, .mk d .black a w b⟩ :: K) (n + 1)) (ha : a.isBlack)
    (hbb : b.isBlack) :
    c = .black ∧ Bal (.mk d .black T p (.mk d .red a w b)) (n + 1) ∧ CtxBal K (n + 1 + 1) ∨
      c = .red ∧ RedBlack (plug (.mk d .black T p (.mk d .red a w b)) K) := by
  obtain ⟨hc, hw, hK⟩ := hK
  obtain ⟨haw, hbw⟩ := bal_mk_black_succ.mp hw
  have hsib : Bal (.mk d .red a w b) n := bal_mk_red.mpr ⟨⟨ha, hbb⟩, haw, hbw⟩
  cases c with
  | black => exact .inl ⟨rfl, bal_mk_black_succ.mpr ⟨hT, hsib⟩, hK⟩
  | red =>
    exact .inr ⟨rfl, redBlack_plug.mpr ⟨n + 1, bal_mk_black_succ.mpr ⟨hT, hsib⟩, hK,
      .inl (by simp)⟩⟩

/-- **A black sibling with a red child inside**: a rotation moves the red child outside. -/
theorem CtxBal.remove_inner {v : ν} {a' : CTree ν}
    (hK : CtxBal (⟨d, c, p, .mk d .black (.mk d .red a v a') w b⟩ :: K) (n + 1))
    (hbb : b.isBlack) : CtxBal (⟨d, c, p, .mk d .black a v (.mk d .red a' w b)⟩ :: K) (n + 1) := by
  obtain ⟨hc, hw, hK⟩ := hK
  obtain ⟨hv, hb⟩ := bal_mk_black_succ.mp hw
  obtain ⟨⟨-, ha'b⟩, ha, ha'⟩ := bal_mk_red.mp hv
  refine ⟨fun h => ⟨by simp, (hc h).2⟩, ?_, hK⟩
  simp only [bal_mk_black_succ, bal_mk_red]
  exact ⟨ha, ⟨ha'b, hbb⟩, ha', hb⟩

/-- **A black sibling with a red child outside**: a rotation ends the exception. -/
theorem Bal.remove_outer (hT : Bal T n)
    (hK : CtxBal (⟨d, c, p, .mk d .black a w b⟩ :: K) (n + 1)) (hb : ¬ b.isBlack) :
    RedBlack (plug (.mk d c (.mk d .black T p a) w b.blacken) K) := by
  obtain ⟨hc, hw, hK⟩ := hK
  obtain ⟨haw, hbw⟩ := bal_mk_black_succ.mp hw
  refine redBlack_plug.mpr ⟨n + 1 + c.weight, ?_, hK, ?_⟩
  · refine bal_mk.mpr ⟨fun _ => ⟨by simp, CTree.isBlack_blacken b⟩, n + 1, rfl, ?_,
      hbw.blacken_red hb⟩
    exact bal_mk_black_succ.mpr ⟨hT, haw⟩
  · cases c with
    | black => exact .inl (by simp)
    | red => exact .inr (hc rfl).2

/-! ## The conditions as one reads them -/

/-- No red node has a red child. -/
def NoRedRed : CTree ν → Prop
  | .nil => True
  | .node c l _ r => (c = .red → l.isBlack ∧ r.isBlack) ∧ NoRedRed l ∧ NoRedRed r

/-- `NullPath T k`: some path from the root to the bottom passes `k` black nodes. -/
inductive NullPath : CTree ν → ℕ → Prop
  | nil : NullPath .nil 0
  | left {c : RBColor} {l r : CTree ν} {x : ν} {k : ℕ} :
      NullPath l k → NullPath (.node c l x r) (k + c.weight)
  | right {c : RBColor} {l r : CTree ν} {x : ν} {k : ℕ} :
      NullPath r k → NullPath (.node c l x r) (k + c.weight)

theorem Bal.noRedRed (h : Bal T n) : NoRedRed T := by
  induction T generalizing n with
  | nil => trivial
  | node c l x r ihl ihr =>
    obtain ⟨hc, m, -, hl, hr⟩ := h
    exact ⟨hc, ihl hl, ihr hr⟩

theorem Bal.eq_of_nullPath {k : ℕ} (h : Bal T n) (hk : NullPath T k) : k = n := by
  induction hk generalizing n with
  | nil => exact h.symm
  | left _ ih =>
    obtain ⟨-, m, rfl, hl, -⟩ := h
    rw [ih hl]
  | right _ ih =>
    obtain ⟨-, m, rfl, -, hr⟩ := h
    rw [ih hr]

end RBTrees
