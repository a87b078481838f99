import Pbos.Kfxx.RBTreeUnlink

/-!
# Kfxx/RBTreeRemove — `_remove_fixup` restores the red-black conditions

The loop is followed at the focus `x`, a subtree whose black height is one less than its context
wants, and which may be empty.  Each round gives it a black sibling first (`removeSibling_spec`);
then either the sibling turns red and the focus moves up, or the last rotations end the loop
(`removeRotate_spec`).
-/

namespace Pbos.Kfxx

open RBTrees Ctx

variable {ν κ : Type} [DecidableEq ν] {t : RBState ν κ} {T : CTree ν} {K : Ctx ν} {d : Side}
  {c cw : RBColor} {a b : CTree ν} {p w : ν} {n : ℕ}

/-! ## One round of the loop -/

/-- **A red sibling** goes up, and `x` gets a black one. -/
theorem removeSibling_spec (h : Holds t (plug T (⟨d, c, p, .mk d cw a w b⟩ :: K)))
    (hK : CtxBal (⟨d, c, p, .mk d cw a w b⟩ :: K) (n + 1)) :
    ∃ t' w' c' a' b' K', removeSibling d t p w = .ok (t', w') ∧
      Rebuilt t t' (plug T (⟨d, c, p, .mk d cw a w b⟩ :: K))
        (plug T (⟨d, c', p, .mk d .black a' w' b'⟩ :: K')) ∧
      CtxBal (⟨d, c', p, .mk d .black a' w' b'⟩ :: K') (n + 1) ∧ (c' = .red ∨ K' = K) := by
  have hs := h.sibling
  cases cw with
  | black =>
    refine ⟨t, w, c, a, b, K, ?_, Rebuilt.refl h, hK, .inr rfl⟩
    simp [removeSibling, RBState.isRed, hs.color_eq, pure, Except.pure]
  | red =>
    obtain ⟨rfl, hK'⟩ := hK.remove_sibling
    obtain ⟨ca, a₁, w', b₁, rfl⟩ := hK'.2.1.exists_mk d
    obtain rfl : ca = .black := by simpa using (hK'.1 rfl).1
    have hp₁ := hs.paint .black
    rw [← plug_sibling, plug_sibling (.mk d .black _ w b), Side.flip_flip] at hp₁
    have hp₂ := Holds.paint hp₁.holds .red
    obtain ⟨t₁, hrot, hr⟩ := hp₂.holds.rebuilt_rotate
    refine ⟨t₁, w', .red, a₁, b₁, ⟨d, .black, w, b⟩ :: K, ?_, (hp₁.trans hp₂).trans hr, hK',
      .inl rfl⟩
    have hchild : t₁.child d.flip p = some w' :=
      (Holds.child_up_flip (K := ⟨d, .black, w, b⟩ :: K)
        (g := ⟨d, .red, p, .mk d .black a₁ w' b₁⟩) hr.holds).trans (CTree.ptr_mk ..)
    have hred : t.isRed (some w) = true := by simp [RBState.isRed, hs.color_eq]
    simp only [removeSibling, hred, ↓reduceIte, hrot, bind, Except.bind, hchild, pure, Except.pure]

/-- The rotation at the parent, with the colours it sets. -/
theorem Holds.rotate_parent (h : Holds t (plug T (⟨d, c, p, .mk d cw a w b⟩ :: K))) :
    ∃ t', rotate d (((t.setColor (some w) (t.color p)).setColor (some p) .black).setColor
        (t.child d.flip w) .black) p = .ok t' ∧
      Rebuilt t t' (plug T (⟨d, c, p, .mk d cw a w b⟩ :: K))
        (plug (.mk d c (.mk d .black T p a) w b.blacken) K) := by
  have hs := h.sibling
  rw [show t.color p = c from h.color_up, show t.child d.flip w = b.ptr from hs.child_flip_eq]
  have h₁ := hs.paint c
  rw [← plug_sibling, plug_sibling (.mk d c _ w b), Side.flip_flip] at h₁
  have h₂ := Holds.paint h₁.holds .black
  have hb : ∀ b' : CTree ν, plug (.mk d .black T p (.mk d c a w b')) K =
      plug b' (⟨d.flip, c, w, a⟩ :: ⟨d.flip, .black, p, T⟩ :: K) := fun b' => by
    simp only [plug, CTree.mk_flip]
  have h₃ := (hb b ▸ h₂.holds).paintBlack
  rw [← hb, ← hb] at h₃
  obtain ⟨t', hrot, h₄⟩ := h₃.holds.rebuilt_rotate
  exact ⟨t', hrot, ((h₁.trans h₂).trans h₃).trans h₄⟩

/-- The rotation at the sibling moves its red child outside. -/
theorem Holds.rotate_sibling {v : ν} {a' : CTree ν} {ca : RBColor}
    (h : Holds t (plug T (⟨d, c, p, .mk d cw (.mk d ca a v a') w b⟩ :: K))) :
    ∃ t', rotate d.flip ((t.setColor (t.child d w) .black).setColor (some w) .red) w = .ok t' ∧
      Rebuilt t t' (plug T (⟨d, c, p, .mk d cw (.mk d ca a v a') w b⟩ :: K))
        (plug T (⟨d, c, p, .mk d .black a v (.mk d .red a' w b)⟩ :: K)) := by
  have hs := h.sibling
  rw [show t.child d w = some v from hs.child_eq.trans (CTree.ptr_mk ..)]
  have h₁ := Holds.paint (K := ⟨d, cw, w, b⟩ :: ⟨d.flip, c, p, T⟩ :: K) hs .black
  have h₂ := Holds.paint (K := ⟨d.flip, c, p, T⟩ :: K) h₁.holds .red
  have hflip : CTree.mk d .red (.mk d .black a v a') w b =
      .mk d.flip .red b w (.mk d.flip .black a' v a) := by
    simp only [CTree.mk_flip]
  obtain ⟨t', hrot, h₃⟩ := (hflip ▸ h₂.holds).rebuilt_rotate
  refine ⟨t', hrot, ?_⟩
  have h₄ := (h₁.trans h₂).trans (hflip ▸ h₃)
  simp only [CTree.mk_flip] at h₄
  rw [plug_sibling T, plug_sibling T]
  exact h₄

/-- **The last rotations** end the exception. -/
theorem removeRotate_spec (h : Holds t (plug T (⟨d, c, p, .mk d .black a w b⟩ :: K)))
    (hT : Bal T n) (hK : CtxBal (⟨d, c, p, .mk d .black a w b⟩ :: K) (n + 1))
    (hab : ¬ (a.isBlack ∧ b.isBlack)) :
    ∃ t' a' w' b', removeRotate d t p w = .ok t' ∧
      Rebuilt t t' (plug T (⟨d, c, p, .mk d .black a w b⟩ :: K))
        (plug T (⟨d, .black, p, a'⟩ :: ⟨d, c, w', b'⟩ :: K)) ∧
      RedBlack (plug T (⟨d, .black, p, a'⟩ :: ⟨d, c, w', b'⟩ :: K)) := by
  have hs := h.sibling
  have hfar : t.isBlack (t.child d.flip w) = true ↔ b.isBlack := hs.isBlack_child_flip_iff
  by_cases hb : b.isBlack
  · have ha : ¬ a.isBlack := fun ha => hab ⟨ha, hb⟩
    obtain rfl | ⟨ca, a₁, v, a₂, rfl⟩ := a.eq_nil_or_mk d
    · exact absurd trivial ha
    obtain rfl : ca = .red := by
      cases ca with
      | black => exact absurd (by simp) ha
      | red => rfl
    obtain ⟨t₁, hrot₁, h₁⟩ := h.rotate_sibling
    have hchild : t₁.child d.flip p = some v := h₁.holds.child_up_flip.trans (CTree.ptr_mk ..)
    obtain ⟨t₂, hrot₂, h₂⟩ := h₁.holds.rotate_parent
    refine ⟨t₂, _, _, _, ?_, h₁.trans h₂, hT.remove_outer (hK.remove_inner hb) (by simp)⟩
    unfold removeRotate
    rw [if_pos (hfar.mpr hb)]
    simp only [bind, Except.bind, hrot₁, hchild]
    exact hrot₂
  · obtain ⟨t₁, hrot, h₁⟩ := h.rotate_parent
    refine ⟨t₁, _, _, _, ?_, h₁, hT.remove_outer hK hb⟩
    unfold removeRotate
    rw [if_neg fun hc => hb (hfar.mp hc)]
    exact hrot

/-! ## The loop -/

/-- The loop stops at the root and at a red node. -/
theorem removeFixupLoop_stop {q : Option ν} (h : Holds t (plug T K))
    (hstop : K = [] ∨ ¬ T.isBlack) : removeFixupLoop (n + 1) t T.ptr q = .ok (t, T.ptr) := by
  refine if_neg fun hc => ?_
  rcases hstop with rfl | hred
  · exact hc.1 h.root.symm
  · exact hred (h.isBlack_iff.mp hc.2)

/-- One round, seen from the focus. -/
theorem removeFixupLoop_round (h : Holds t (plug T (⟨d, c, p, .mk d cw a w b⟩ :: K)))
    (hb : T.isBlack) : removeFixupLoop (n + 1) t T.ptr (some p) =
      removeSibling d t p w >>= fun r =>
        if r.1.isBlack (r.1.child d r.2) ∧ r.1.isBlack (r.1.child d.flip r.2) then
          removeFixupLoop n (r.1.setColor (some r.2) .red) (some p) (r.1.p p)
        else removeRotate d r.1 p r.2 >>= fun t => pure (t, T.ptr) := by
  have hnd := (nodup_plug.mp h.nodup).2.2
  have hroot : T.ptr ≠ t.root := by
    rw [h.root]
    obtain ⟨y, hy, hptr⟩ := ptr_plug_cons T ⟨d, c, p, .mk d cw a w b⟩ K
    exact fun e => hnd y (CTree.ptr_mem (e.trans hptr)) hy
  have hw : t.child d.flip p = some w := h.child_up_flip.trans (CTree.ptr_mk ..)
  have hside : (if t.child .left p = T.ptr then Side.left else Side.right) = d := by
    refine side_eq h.child_up fun e => ?_
    refine hnd w (CTree.ptr_mem (e.symm.trans hw)) ?_
    simp [nodes]
  rw [removeFixupLoop, if_pos ⟨hroot, h.isBlack_iff.mpr hb⟩]
  simp only [hside, hw]

/-- **The loop of `_remove_fixup`** returns, and painting the node it ends at black leaves a
red-black tree. -/
theorem removeFixupLoop_spec {fuel : ℕ} (h : Holds t (plug T K)) (hT : Bal T n)
    (hK : CtxBal K (n + 1)) (hfuel : K.length < fuel) :
    ∃ t' x' W', removeFixupLoop fuel t T.ptr (up K) = .ok (t', x') ∧
      Rebuilt t (t'.setColor x' .black) (plug T K) W' ∧ RedBlack W' := by
  induction fuel generalizing t T K n with
  | zero => omega
  | succ k ih =>
    by_cases hstop : K = [] ∨ ¬ T.isBlack
    · refine ⟨t, T.ptr, _, removeFixupLoop_stop h hstop, h.paintBlack, ?_⟩
      rcases hstop with rfl | hred
      · exact hT.redBlack_blacken
      · exact hT.remove_red hK hred
    obtain ⟨hne, hb⟩ := not_or.mp hstop
    have hb : T.isBlack := not_not.mp hb
    cases K with
    | nil => exact absurd rfl hne
    | cons f K =>
      obtain ⟨d, c, p, S⟩ := f
      obtain ⟨cw, a, w, b, rfl⟩ := hK.2.1.exists_mk d
      simp only [List.length_cons] at hfuel
      obtain ⟨t₁, w₁, c₁, a₁, b₁, K₁, hsib, h₁, hK₁, hc₁⟩ := removeSibling_spec h hK
      have hs := h₁.holds.sibling
      have ha : t₁.isBlack (t₁.child d w₁) = true ↔ a₁.isBlack := hs.isBlack_child_iff
      have hbb : t₁.isBlack (t₁.child d.flip w₁) = true ↔ b₁.isBlack := hs.isBlack_child_flip_iff
      rw [up_cons, removeFixupLoop_round h hb]
      simp only [hsib, bind, Except.bind, ha, hbb]
      by_cases hab : a₁.isBlack ∧ b₁.isBlack
      · have h₂ := hs.paint .red
        rw [← plug_sibling, plug_sibling (.mk d .red _ w₁ b₁), Side.flip_flip] at h₂
        have hp : t₁.p p = up K₁ := h₁.holds.p_up
        rw [if_pos hab, hp]
        rcases hT.remove_recolor hK₁ hab.1 hab.2 with ⟨rfl, hT₂, hK₂⟩ | ⟨rfl, hrb⟩
        · obtain rfl : K₁ = K := hc₁.resolve_left (by simp)
          obtain ⟨t', x', W', hloop, h₃, hrb⟩ := ih (K := K₁) h₂.holds hT₂ hK₂ (by omega)
          rw [CTree.ptr_mk] at hloop
          exact ⟨t', x', W', hloop, (h₁.trans h₂).trans h₃, hrb⟩
        · obtain ⟨j, rfl⟩ : ∃ j, k = j + 1 := ⟨k - 1, by omega⟩
          have h₂' : Holds _ (plug (.mk d .red T p (.mk d .red a₁ w₁ b₁)) K₁) := h₂.holds
          have hloop := removeFixupLoop_stop (n := j) (q := up K₁) h₂' (.inr (by simp))
          have h₃ := h₂'.paintBlack
          rw [CTree.ptr_mk] at hloop h₃
          rw [CTree.blacken_mk] at h₃
          exact ⟨_, some p, _, hloop, (h₁.trans h₂).trans h₃, hrb⟩
      · obtain ⟨t₂, a₂, w₂, b₂, hrot, h₂, hrb⟩ := removeRotate_spec h₁.holds hT hK₁ hab
        have h₃ := h₂.holds.paintBlack
        rw [CTree.blacken_of_isBlack hb] at h₃
        refine ⟨t₂, T.ptr, _, ?_, (h₁.trans h₂).trans h₃, hrb⟩
        rw [if_neg hab, hrot]
        rfl

/-- **`_remove_fixup` takes one node out of a red-black tree** and leaves a red-black tree. -/
theorem removeFixup_spec {W : CTree ν} {x : ν} (h : Holds t W) (hrb : RedBlack W) (hx : x ∈ W.nodes)
    (hsize : t.size = W.nodes.length) :
    ∃ t' W' A B, removeFixup t x = .ok t' ∧ Holds t' W' ∧ RedBlack W' ∧ Relinks t t' ∧
      W.nodes = A ++ x :: B ∧ W'.nodes = A ++ B := by
  obtain ⟨t₁, T, C, hunlink, hu⟩ := removeUnlink_spec h hrb hx hsize
  obtain ⟨A, B, hW, hnodes⟩ := hu.nodes
  rcases hu.balance with ⟨hcolor, hrb'⟩ | ⟨hcolor, n, hT, hC⟩
  · refine ⟨t₁, _, A, B, ?_, hu.holds, hrb', hu.relinks, hW, hnodes⟩
    simp [removeFixup, hunlink, bind, Except.bind, RBState.isBlack, hcolor, pure, Except.pure]
  · have hlen : C.length < t₁.size + 2 := by
      have hle := length_le_nodes T C
      rw [hnodes] at hle
      rw [hu.relinks.size, hsize, hW]
      simp only [List.length_append, List.length_cons] at hle ⊢
      omega
    obtain ⟨t₂, x', W', hloop, hr, hrb'⟩ := removeFixupLoop_spec hu.holds hT hC hlen
    refine ⟨t₂.setColor x' .black, W', A, B, ?_, hr.holds, hrb', ?_, hW, hr.nodes.trans hnodes⟩
    · simp [removeFixup, hunlink, hloop, bind, Except.bind, RBState.isBlack, hcolor, pure,
        Except.pure]
    · exact hu.relinks.trans hr.relinks

end Pbos.Kfxx
