import Pbos.Kfxx.RBTreeLinks

/-!
# Kfxx/RBTreeInsert — `_insert_fixup` restores the red-black conditions

The loop is followed at the focus `node`: a red subtree root whose parent may be red.  A red uncle
moves the focus two frames up (`insertFixupLoop_red`), a black one ends the loop with one
rotation (`insertRotate_outer`) or two (`insertRotate_inner`).
-/

namespace Pbos.Kfxx

open RBTrees Ctx CTree

variable {ν κ : Type} [DecidableEq ν] {t : RBState ν κ} {T : CTree ν} {K : Ctx ν} {d : Side}
  {c cf cg : RBColor} {a b s u : CTree ν} {x p gp : ν} {m n : ℕ} {node : ν} {f g : Frame ν}

/-- The rotation at the grandparent, with the two colours it sets. -/
theorem Holds.rotate_grandparent (h : Holds t (plug T (⟨d, cf, p, s⟩ :: ⟨d, cg, gp, u⟩ :: K))) :
    ∃ t', rotate d.flip t gp = .ok t' ∧
      Rebuilt t ((t'.setColor (some p) .black).setColor (some gp) .red)
        (plug T (⟨d, cf, p, s⟩ :: ⟨d, cg, gp, u⟩ :: K))
        (plug (.mk d .black T p (.mk d .red s gp u)) K) := by
  have hW : plug T (⟨d, cf, p, s⟩ :: ⟨d, cg, gp, u⟩ :: K) =
      plug (.mk d.flip cg u gp (.mk d.flip cf s p T)) K := by
    simp only [plug, mk_flip]
  rw [hW] at h ⊢
  obtain ⟨t₁, hrot, h₁⟩ := h.rebuilt_rotate
  have h₂ := h₁.holds.paint .black
  simp only [mk_flip] at h₁ h₂ ⊢
  have hfocus : plug (.mk d .black T p (.mk d cg s gp u)) K =
      plug (.mk d cg s gp u) (⟨d.flip, .black, p, T⟩ :: K) := by
    rw [← plug_sibling, plug]
  have h₃ := (hfocus ▸ h₂.holds).paint .red
  rw [← hfocus, ← plug_sibling] at h₃
  exact ⟨t₁, hrot, (h₁.trans h₂).trans h₃⟩

/-- **A black uncle, `node` outside.** -/
theorem insertRotate_outer (h : Holds t (plug T (⟨d, cf, p, s⟩ :: ⟨d, cg, gp, u⟩ :: K)))
    (hx : T.ptr = some x) :
    ∃ t', insertRotate d t x p gp = .ok (t', x) ∧
      Rebuilt t t' (plug T (⟨d, cf, p, s⟩ :: ⟨d, cg, gp, u⟩ :: K))
        (plug (.mk d .black T p (.mk d .red s gp u)) K) := by
  obtain ⟨t', hrot, hr⟩ := h.rotate_grandparent
  refine ⟨_, ?_, hr⟩
  have hne : ¬ t.child d.flip p = some x := h.child_up_ne hx
  unfold insertRotate
  rw [if_neg hne]
  simp only [pure, Except.pure, bind, Except.bind, hrot]

/-- **A black uncle, `node` inside.** -/
theorem insertRotate_inner
    (h : Holds t (plug (.mk d c a x b) (⟨d.flip, cf, p, s⟩ :: ⟨d, cg, gp, u⟩ :: K))) :
    ∃ t', insertRotate d t x p gp = .ok (t', p) ∧
      Rebuilt t t' (plug (.mk d c a x b) (⟨d.flip, cf, p, s⟩ :: ⟨d, cg, gp, u⟩ :: K))
        (plug (.mk d .black (.mk d cf s p a) x (.mk d .red b gp u)) K) := by
  have hchild : t.child d.flip p = some x := h.child_up.trans (by simp)
  have hW : plug (.mk d c a x b) (⟨d.flip, cf, p, s⟩ :: ⟨d, cg, gp, u⟩ :: K) =
      plug (.mk d cf s p (.mk d c a x b)) (⟨d, cg, gp, u⟩ :: K) := by
    simp only [plug, mk_flip]
  rw [hW] at h ⊢
  obtain ⟨t₁, hrot₁, h₁⟩ := h.rebuilt_rotate
  have hx : Holds t₁ (plug (.mk d cf s p a) (⟨d, c, x, b⟩ :: ⟨d, cg, gp, u⟩ :: K)) := h₁.holds
  obtain ⟨t₂, hrot₂, h₂⟩ := hx.rotate_grandparent
  refine ⟨_, ?_, h₁.trans h₂⟩
  unfold insertRotate
  rw [if_pos hchild]
  simp only [pure, Except.pure, bind, Except.bind, hrot₁, hrot₂]

/-- The loop stops below a black node. -/
theorem insertFixupLoop_stop (h : t.p x = none ∨ ∃ q, t.p x = some q ∧
    t.isRed (some q) = false) : insertFixupLoop (n + 1) t node x = .ok t := by
  unfold insertFixupLoop
  rcases h with h | ⟨q, h, hq⟩
  · simp only [h]
  · simp [h, hq]

/-- **A red uncle**: three nodes change colour, and the loop goes on at the grandparent. -/
theorem Holds.recolor_grandparent (h : Holds t (plug T (f :: g :: K))) :
    Rebuilt t (((t.setColor (some f.x) .black).setColor g.sib.ptr .black).setColor (some g.x) .red)
      (plug T (f :: g :: K))
      (plug (.mk g.side .red (.mk f.side .black T f.x f.sib) g.x g.sib.blacken) K) := by
  have h₁ := Holds.paint h .black
  have h₂ := (plug_sibling _ g.side g.color g.x g.sib K ▸ h₁.holds).paintBlack
  rw [← plug_sibling, plug_sibling g.sib.blacken, Side.flip_flip] at h₂
  exact (h₁.trans h₂).trans (Holds.paint (K := K) h₂.holds .red)

/-- The grandparent hangs below a black node after the rotations, so the loop stops. -/
theorem insertFixupLoop_rotated {A : CTree ν} (h : Holds t
    (plug (.mk d .black A p (.mk d .red s gp u)) K)) :
    insertFixupLoop (n + 1) t node gp = .ok t := by
  have hfocus : plug (.mk d .black A p (.mk d .red s gp u)) K =
      plug (.mk d .red s gp u) (⟨d.flip, .black, p, A⟩ :: K) := by
    rw [← plug_sibling, plug]
  refine insertFixupLoop_stop (.inr ⟨p, (hfocus ▸ h).p_eq (ptr_mk ..), ?_⟩)
  simp [RBState.isRed, h.color_eq]

/-- One round with a red parent, seen from the focus. -/
theorem insertFixupLoop_red (h : Holds t (plug T (f :: g :: K)))
    (hx : T.ptr = some x) (hf : f.color = .red) :
    insertFixupLoop (n + 1) t x x =
      if t.isRed g.sib.ptr then
        insertFixupLoop n (((t.setColor (some f.x) .black).setColor g.sib.ptr .black).setColor
          (some g.x) .red) g.x g.x
      else insertRotate g.side t x f.x g.x >>= fun r => insertFixupLoop n r.1 r.2 g.x := by
  have hp : t.p x = some f.x := h.p_eq hx
  have hred : t.isRed (some f.x) = true := by simp [RBState.isRed, h.color_up, hf]
  have hgp : t.p f.x = some g.x := h.p_up
  have hf' : Holds t (plug (.mk f.side f.color T f.x f.sib) (g :: K)) := h
  have hside := side_eq (hf'.child_up.trans (ptr_mk ..)) (hf'.child_up_ne (ptr_mk ..))
  have hu : t.child g.side.flip g.x = g.sib.ptr := hf'.child_up_flip
  rw [insertFixupLoop]
  simp only [hp, hred, hgp, hside, hu, ↓reduceIte]

section

variable (h : Holds t (plug (.mk d .red a x b) K)) (hT : Bal (.mk d .red a x b) m) (hK : CtxBal K m)

include h hT hK

/-- **The loop of `_insert_fixup`** returns, and leaves a balanced tree whose root alone may still
be red.  Each round climbs two frames of the context. -/
theorem insertFixupLoop_spec {fuel : ℕ} (hfuel : K.length < fuel) :
    ∃ t' W', insertFixupLoop fuel t x x = .ok t' ∧
      Rebuilt t t' (plug (.mk d .red a x b) K) W' ∧ ∃ m', Bal W' m' := by
  induction fuel generalizing t d a x b K m with
  | zero => omega
  | succ n ih =>
    cases K with
    | nil =>
      exact ⟨t, _, insertFixupLoop_stop (.inl (h.p_eq (ptr_mk ..))), Rebuilt.refl h, m, hT⟩
    | cons f K =>
      have hp : t.p x = some f.x := h.p_eq (ptr_mk ..)
      cases hf : f.color with
      | black =>
        refine ⟨t, _, insertFixupLoop_stop (.inr ⟨_, hp, ?_⟩), Rebuilt.refl h, ?_⟩
        · simp [RBState.isRed, h.color_up, hf]
        · exact (redBlack_plug.mpr ⟨m, hT, hK, .inr hf⟩).2
      | red =>
        obtain ⟨g, K, rfl⟩ := hK.exists_grandparent hf
        simp only [List.length_cons] at hfuel
        rw [insertFixupLoop_red h (ptr_mk ..) hf]
        have hu : t.isRed g.sib.ptr = true ↔ ¬ g.sib.isBlack :=
          (Holds.sibling (T := .mk f.side f.color _ f.x f.sib) h).isRed_iff
        by_cases hub : g.sib.isBlack
        · rw [if_neg fun hr => hu.mp hr hub]
          obtain ⟨fd, fc, p, s⟩ := f
          obtain ⟨gd, gc, gp, u⟩ := g
          obtain ⟨k, rfl⟩ : ∃ k, n = k + 1 := ⟨n - 1, by omega⟩
          subst hf
          by_cases hside : fd = gd
          · subst hside
            obtain ⟨t', hrot, hr⟩ := insertRotate_outer h (ptr_mk ..)
            refine ⟨t', _, ?_, hr, (hT.insert_outer hK rfl hub).2⟩
            simp only [hrot]
            exact insertFixupLoop_rotated hr.holds
          · obtain rfl := Side.eq_flip_of_ne hside
            obtain ⟨a', b', hmk⟩ := exists_mk_eq d gd .red a x b
            rw [hmk] at h hT ⊢
            obtain ⟨t', hrot, hr⟩ := insertRotate_inner h
            refine ⟨t', _, ?_, hr, (hT.insert_inner hK rfl hub).2⟩
            simp only [hrot]
            exact insertFixupLoop_rotated hr.holds
        · rw [if_pos (hu.mpr hub)]
          have hr := h.recolor_grandparent
          obtain ⟨hT', hK'⟩ := hT.insert_recolor hK hf hub
          obtain ⟨t', W', hloop, hr', hbal⟩ := ih hr.holds hT' hK' (by omega)
          exact ⟨t', W', hloop, hr.trans hr', hbal⟩

/-- **`_insert_fixup` restores the red-black conditions** after a red node was hung on a leaf. -/
theorem insertFixup_spec (hsize : K.length < t.size + 2) :
    ∃ t' W', insertFixup t x = .ok t' ∧ Rebuilt t t' (plug (.mk d .red a x b) K) W' ∧
      RedBlack W' := by
  obtain ⟨t₁, W₁, hloop, hr, m', hbal⟩ := insertFixupLoop_spec h hT hK hsize
  have hroot : t₁.root = W₁.ptr := hr.holds.root
  have hr' := Holds.paintBlack (K := []) hr.holds
  refine ⟨_, _, ?_, hr.trans hr', hbal.redBlack_blacken⟩
  have hmem : x ∈ W₁.nodes := by
    rw [hr.nodes]
    simp [mem_nodes_plug]
  cases W₁ with
  | nil => cases hmem
  | node c l y r =>
    simp only [insertFixup, hloop, bind, Except.bind, hroot, CTree.ptr, pure, Except.pure]

end

end Pbos.Kfxx
