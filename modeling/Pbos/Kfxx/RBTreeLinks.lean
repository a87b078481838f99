import Pbos.Kfxx.RBTree

/-!
# Kfxx/RBTreeLinks — the writes of the red-black tree, seen from a focus

`Holds t W` says that `t` links the nodes of `W` as in `W`, below `_root`, and `Relinks t t'` that
`t'` has the keys and the size of `t`.  The two together are the specification of every write the
fixups make: painting a node (`Holds.paint`) and rotating at one (`Holds.rebuilt_rotate`).
-/

namespace Pbos.Kfxx

open RBTrees Ctx CTree

variable {ν κ : Type} {t : RBState ν κ} {K : Ctx ν} {c : RBColor} {a b : CTree ν} {q y : ν}

/-- `t` links the nodes of `W` as in `W`. -/
structure Holds (t : RBState ν κ) (W : CTree ν) : Prop where
  rep : Rep t.toLinks none W
  root : t.root = W.ptr
  nodup : W.nodes.Nodup

/-- The keys and the size stay. -/
structure Relinks (t t' : RBState ν κ) : Prop where
  rbValue : t'.rbValue = t.rbValue
  size : t'.size = t.size

theorem Relinks.trans {t' t'' : RBState ν κ} (h : Relinks t t') (h' : Relinks t' t'') :
    Relinks t t'' := ⟨h'.rbValue.trans h.rbValue, h'.size.trans h.size⟩

/-- **A linked tree splits at a focus.** -/
theorem holds_plug {T : CTree ν} : Holds t (plug T K) ↔
    Rep t.toLinks (up K) T ∧ RepCtx t.toLinks t.root T.ptr K ∧ (plug T K).nodes.Nodup := by
  rw [← and_assoc, ← rep_plug]
  exact ⟨fun h => ⟨⟨h.rep, h.root⟩, h.nodup⟩, fun h => ⟨h.1.1, h.1.2, h.2⟩⟩

variable [DecidableEq ν] {d : Side} {x : ν}

/-! ## Painting -/

/-- **Painting a node.** -/
theorem Holds.setColor (h : Holds t (plug (.mk d c a x b) K))
    (c' : RBColor) : Holds (t.setColor (some x) c') (plug (.mk d c' a x b) K) := by
  obtain ⟨hT, hK, hnd⟩ := holds_plug.mp h
  obtain ⟨hndT, hndK, hdisj⟩ := nodup_plug.mp hnd
  have hrest : ∀ y, y ≠ x → t.toLinks.Same (t.setColor (some x) c').toLinks y := fun y hy =>
    ⟨rfl, fun _ => rfl, by simp [RBState.setColor, hy.symm]⟩
  refine holds_plug.mpr ⟨?_, ?_, ?_⟩
  · exact hT.recolor hndT hrest rfl (fun _ => rfl) (by simp [RBState.setColor])
  · rw [ptr_mk]
    rw [ptr_mk] at hK
    refine hK.congr fun y hy => hrest y ?_
    rintro rfl
    exact hdisj y (by simp) hy
  · exact nodup_plug.mpr ⟨nodup_mk.mpr (nodup_mk.mp hndT), hndK, fun y hy =>
      hdisj y (by simpa using hy)⟩

/-! ## Rotating -/

theorem replaceChild_eq {v : Option ν} (hd : t.child d q = some x)
    (hf : t.child d.flip q ≠ some x) : replaceChild t q x v = t.setChild d q v := by
  cases d with
  | left => exact if_pos hd
  | right => exact if_neg hf

/-- The two rotations differ in the line of their assertion only. -/
theorem rotate_eq (d : Side) (t : RBState ν κ) (x : ν) : ∃ line, rotate d t x = rot d line t x := by
  cases d
  · exact ⟨_, rfl⟩
  · exact ⟨_, rfl⟩

/-- Replace the subtree below `q`, or the whole tree. -/
def setUp (t : RBState ν κ) (K : Ctx ν) (v : Option ν) : RBState ν κ :=
  match K with
  | [] => t.setRoot v
  | g :: _ => t.setChild g.side g.x v

section SetUp

variable (t : RBState ν κ) (K : Ctx ν) (v : Option ν)

@[simp] theorem setUp_p : (setUp t K v).p = t.p := by cases K <;> rfl

@[simp] theorem setUp_color : (setUp t K v).color = t.color := by cases K <;> rfl

@[simp] theorem setUp_rbValue : (setUp t K v).rbValue = t.rbValue := by cases K <;> rfl

@[simp] theorem setUp_size : (setUp t K v).size = t.size := by cases K <;> rfl

variable {t K v} in
theorem setUp_child {e : Side} {z : ν} (hz : up K ≠ some z) :
    (setUp t K v).child e z = t.child e z := by
  cases K with
  | nil => rfl
  | cons g K =>
    have hne : z ≠ g.x := fun h => hz (by simp [h])
    simp [setUp, RBState.setChild, hne]

end SetUp

/-- What a rotation at `x` makes of the memory, below the context `K`. -/
def rotated (t : RBState ν κ) (d : Side) (x y : ν) (K : Ctx ν) : RBState ν κ :=
  let t := ((t.setChild d.flip x (t.child d y)).setP (t.child d y) (some x)).setP (some y) (up K)
  ((setUp t K (some y)).setChild d y (some x)).setP (some x) (some y)

theorem rot_eq {line : ℕ} (hy : t.child d.flip x = some y) (hxy : x ≠ y)
    (hb : t.child d y ≠ some x) (hp : t.p x = up K)
    (hK : ∀ g K', K = g :: K' → g.x ≠ x ∧ t.child g.side g.x = some x ∧
      t.child g.side.flip g.x ≠ some x) : rot d line t x = .ok (rotated t d x y K) := by
  have hchild : ∀ v, (t.setChild d.flip x v).child d y = t.child d y := fun v => by
    simp [RBState.setChild]
  unfold rot rotated
  simp only [hy, hchild]
  have hpx : ((t.setChild d.flip x (t.child d y)).setP (t.child d y) (some x)).p x = up K := by
    simp [RBState.setP, RBState.setChild, hb, hp]
  have hpx' : (((t.setChild d.flip x (t.child d y)).setP (t.child d y) (some x)).setP (some y)
      (up K)).p x = up K := by
    simp only [RBState.setP, Option.some.injEq, hxy.symm]
    exact hpx
  rw [hpx, hpx']
  cases K with
  | nil => rfl
  | cons g K =>
    obtain ⟨hgx, hg, hgf⟩ := hK g K rfl
    simp only [up_cons, setUp]
    rw [replaceChild_eq]
    · simpa [RBState.setP, RBState.setChild, hgx] using hg
    · simpa [RBState.setP, RBState.setChild, hgx] using hgf

section Rotated

variable {t : RBState ν κ} {d e : Side} {x y z : ν} {K : Ctx ν}

theorem rotated_p : (rotated t d x y K).p z = if x = z then some y else if y = z then up K else
    if t.child d y = some z then some x else t.p z := by
  simp [rotated, RBState.setP, RBState.setChild]

@[simp] theorem rotated_color : (rotated t d x y K).color = t.color := by
  simp [rotated, RBState.setP, RBState.setChild]

theorem rotated_child (hz : up K ≠ some z) : (rotated t d x y K).child e z =
    if e = d ∧ z = y then some x else if e = d.flip ∧ z = x then t.child d y else t.child e z := by
  simp only [rotated, RBState.setP, RBState.setChild]
  rw [setUp_child hz]

/-- The node above the focus is led to the new subtree. -/
theorem rotated_rehole (hx : up K ≠ some x) (hy : up K ≠ some y)
    (hb : ∀ z, up K = some z → t.child d y ≠ some z) :
    Rehole t.toLinks (rotated t d x y K).toLinks t.root (rotated t d x y K).root (some y) K := by
  cases K with
  | nil => rfl
  | cons g K =>
    have hgx : ¬ x = g.x := fun h => hx (by simp [h])
    have hgy : ¬ y = g.x := fun h => hy (by simp [h])
    have hgb : t.child d y ≠ some g.x := hb g.x rfl
    refine ⟨rfl, ?_, ?_, ?_, by simp⟩
    · rw [rotated_p, if_neg hgx, if_neg hgy, if_neg hgb]
    · simp [rotated, setUp, RBState.setP, RBState.setChild, Ne.symm hgy]
    · simp [rotated, setUp, RBState.setP, RBState.setChild, Ne.symm hgy, Ne.symm hgx]

/-- A node no pointer of which is written. -/
theorem rotated_same (hx : x ≠ z) (hy : y ≠ z) (hb : t.child d y ≠ some z) (hz : up K ≠ some z) :
    t.toLinks.Same (rotated t d x y K).toLinks z := by
  refine ⟨?_, fun e => ?_, by simp⟩
  · rw [rotated_p, if_neg hx, if_neg hy, if_neg hb]
  · rw [rotated_child hz, if_neg fun h => hy h.2.symm, if_neg fun h => hx h.2.symm]

end Rotated

/-- **A rotation in memory is the rotation of the tree.** -/
theorem holds_rotate {e : RBColor} {f : CTree ν} (h : Holds t
    (plug (.mk d c a x (.mk d e b y f)) K)) :
    ∃ t', rotate d t x = .ok t' ∧ Holds t' (plug (.mk d e (.mk d c a x b) y f) K) ∧
      Relinks t t' := by
  obtain ⟨hT, hK, hnd⟩ := holds_plug.mp h
  obtain ⟨hndT, hndK, hdisj⟩ := nodup_plug.mp hnd
  obtain ⟨hpx, hax, hyx, hcx, hTa, hTy⟩ := rep_mk.mp hT
  obtain ⟨hpy, hby, hfy, hcy, hTb, hTf⟩ := rep_mk.mp hTy
  rw [ptr_mk] at hK hyx
  obtain ⟨hxa, hxy', hnda, hndy, hay⟩ := nodup_mk.mp hndT
  obtain ⟨hyb, hyf, hndb, hndf, hbf⟩ := nodup_mk.mp hndy
  simp only [mem_nodes_mk, not_or] at hxy' hay
  obtain ⟨hxy, hxb, hxf⟩ := hxy'
  have hmem : ∀ z, z = x ∨ z ∈ a.nodes ∨ z = y ∨ z ∈ b.nodes ∨ z ∈ f.nodes →
      z ∉ nodes K := fun z hz => hdisj z (by simpa using hz)
  have hup : ∀ z, z = x ∨ z ∈ a.nodes ∨ z = y ∨ z ∈ b.nodes ∨ z ∈ f.nodes →
      up K ≠ some z := fun z hz e => hmem z hz (up_mem e)
  have hbptr : ∀ z, z ∉ b.nodes → t.child d y ≠ some z := fun z hz e =>
    hz (ptr_mem (hby.symm.trans e))
  have hsame : ∀ z, z = x ∨ z ∈ a.nodes ∨ z = y ∨ z ∈ b.nodes ∨ z ∈ f.nodes → x ≠ z → y ≠ z →
      t.child d y ≠ some z → t.toLinks.Same (rotated t d x y K).toLinks z := fun z hz hx hy hb =>
    rotated_same hx hy hb (hup z hz)
  obtain ⟨line, hline⟩ := rotate_eq d t x
  have hKx : ∀ g K', K = g :: K' → g.x ≠ x ∧ t.child g.side g.x = some x ∧
      t.child g.side.flip g.x ≠ some x := by
    rintro g K' rfl
    have hsib := RepCtx.sibling_ne (by simpa using hK) hdisj
      (x := x) (by simp)
    exact ⟨hsib.1, hK.2.1, hsib.2⟩
  refine ⟨_, hline.trans (rot_eq hyx hxy (hbptr x hxb) hpx hKx), ?_, ?_⟩
  · refine holds_plug.mpr ⟨rep_mk.mpr ⟨?_, ?_, ?_, ?_, rep_mk.mpr ⟨?_, ?_, ?_, ?_, ?_, ?_⟩, ?_⟩, ?_,
      ?_⟩
    · rw [rotated_p, if_neg hxy, if_pos rfl]
    · rw [rotated_child (hup y (by simp)), if_pos ⟨rfl, rfl⟩, ptr_mk]
    · rw [rotated_child (hup y (by simp)), if_neg (by simp), if_neg (fun h => hxy h.2.symm), hfy]
    · rw [rotated_color, hcy]
    · rw [rotated_p, if_pos rfl]
    · rw [rotated_child (hup x (by simp)), if_neg (fun h => hxy h.2), if_neg (by simp), hax]
    · rw [rotated_child (hup x (by simp)), if_neg (by simp), if_pos ⟨rfl, rfl⟩, hby]
    · rw [rotated_color, hcx]
    · refine hTa.congr fun z hz => hsame z (by simp [hz]) ?_ ?_ ?_
      · rintro rfl
        exact hxa hz
      · exact fun e => (hay z hz).1 e.symm
      · exact hbptr z (hay z hz).2.1
    · refine hTb.reparent hndb (fun z hz hne => hsame z (by simp [hz]) ?_ ?_ ?_) fun z hz => ?_
      · exact fun e => hxb (e ▸ hz)
      · exact fun e => hyb (e ▸ hz)
      · rwa [hby]
      · have hzb := ptr_mem hz
        have hxz : x ≠ z := fun e => hxb (e ▸ hzb)
        have hyz : y ≠ z := fun e => hyb (e ▸ hzb)
        refine ⟨?_, fun e => ?_, by simp⟩
        · rw [rotated_p, if_neg hxz, if_neg hyz, if_pos (hby.trans hz)]
        · rw [rotated_child (hup z (by simp [hzb])), if_neg fun h => hyz h.2.symm,
            if_neg fun h => hxz h.2.symm]
    · refine hTf.congr fun z hz => hsame z (by simp [hz]) ?_ ?_ ?_
      · exact fun e => hxf (e ▸ hz)
      · exact fun e => hyf (e ▸ hz)
      · exact hbptr z fun hzb => hbf z hzb hz
    · rw [ptr_mk]
      refine hK.rehole hndK (fun z hz hne => rotated_same ?_ ?_ ?_ hne)
        (rotated_rehole (hup x (by simp)) (hup y (by simp)) fun z hz => ?_)
      · rintro rfl
        exact hmem x (by simp) hz
      · rintro rfl
        exact hmem y (by simp) hz
      · exact hbptr z fun hzb => hmem z (by simp [hzb]) hz
      · exact hbptr z fun hzb => hmem z (by simp [hzb]) (up_mem hz)
    · rw [nodes_plug, nodes_rotate d c e c e, ← nodes_plug]
      exact hnd
  · exact ⟨by simp [rotated, RBState.setP, RBState.setChild],
      by simp [rotated, RBState.setP, RBState.setChild]⟩

/-! ## Rebuilding a tree -/

/-- `t` links `W`, and `t'` links `W'`, a tree of the same nodes in the same order; nothing else has
changed. -/
structure Rebuilt (t t' : RBState ν κ) (W W' : CTree ν) : Prop where
  holds : Holds t' W'
  relinks : Relinks t t'
  nodes : W'.nodes = W.nodes

section Rebuilt

variable {t t' t'' : RBState ν κ} {W W' W'' T : CTree ν} {K : Ctx ν} {d : Side} {c c' e : RBColor}
  {a b f : CTree ν} {x y : ν}

omit [DecidableEq ν] in
theorem Rebuilt.refl (h : Holds t W) : Rebuilt t t W W := ⟨h, ⟨rfl, rfl⟩, rfl⟩

omit [DecidableEq ν] in
theorem Rebuilt.trans (h : Rebuilt t t' W W') (h' : Rebuilt t' t'' W' W'') : Rebuilt t t'' W W'' :=
  ⟨h'.holds, h.relinks.trans h'.relinks, h'.nodes.trans h.nodes⟩

/-- Painting a node. -/
theorem Holds.paint (h : Holds t (plug (.mk d c a x b) K)) (c' : RBColor) :
    Rebuilt t (t.setColor (some x) c') (plug (.mk d c a x b) K) (plug (.mk d c' a x b) K) :=
  ⟨h.setColor c', ⟨rfl, rfl⟩, nodes_plug_congr (by simp only [nodes_mk]) K⟩

/-- Painting the root of a subtree black, if there is one. -/
theorem Holds.paintBlack (h : Holds t (plug T K)) :
    Rebuilt t (t.setColor T.ptr .black) (plug T K) (plug T.blacken K) := by
  obtain rfl | ⟨c, a, x, b, rfl⟩ := T.eq_nil_or_mk .left
  · have ht : t.setColor (CTree.nil : CTree ν).ptr .black = t := by simp [RBState.setColor]
    exact Rebuilt.refl h
  · rw [blacken_mk]
    exact h.paint .black

/-- Rotating at a node. -/
theorem Holds.rebuilt_rotate (h : Holds t (plug (.mk d c a x (.mk d e b y f)) K)) :
    ∃ t', rotate d t x = .ok t' ∧ Rebuilt t t' (plug (.mk d c a x (.mk d e b y f)) K)
        (plug (.mk d e (.mk d c a x b) y f) K) := by
  obtain ⟨t', hrot, hh, hr⟩ := holds_rotate h
  exact ⟨t', hrot, hh, hr, nodes_plug_congr (nodes_rotate d c e c e a x b y f) K⟩

end Rebuilt

/-! ## Reading -/

section Reading

omit [DecidableEq ν]

variable {t : RBState ν κ} {T : CTree ν} {K : Ctx ν} {d : Side} {c : RBColor} {a b : CTree ν}
  {x : ν} {g : Frame ν}

/-- The focus may move to the sibling. -/
theorem Holds.sibling {f : Frame ν} (h : Holds t (plug T (f :: K))) :
    Holds t (plug f.sib (⟨f.side.flip, f.color, f.x, T⟩ :: K)) := by
  rw [← plug_sibling]
  exact h

theorem Holds.p_eq (h : Holds t (plug T K)) (hx : T.ptr = some x) : t.p x = up K :=
  (holds_plug.mp h).1.p_ptr hx

theorem Holds.child_eq (h : Holds t (plug (.mk d c a x b) K)) : t.child d x = a.ptr :=
  (rep_mk.mp (holds_plug.mp h).1).2.1

theorem Holds.child_flip_eq (h : Holds t (plug (.mk d c a x b) K)) : t.child d.flip x = b.ptr :=
  (rep_mk.mp (holds_plug.mp h).1).2.2.1

theorem Holds.color_eq (h : Holds t (plug (.mk d c a x b) K)) : t.color x = c :=
  (rep_mk.mp (holds_plug.mp h).1).2.2.2.1

theorem Holds.isBlack_iff (h : Holds t (plug T K)) : t.isBlack T.ptr = true ↔ T.isBlack := by
  obtain rfl | ⟨c, a, x, b, rfl⟩ := T.eq_nil_or_mk .left
  · simp [RBState.isBlack]
  · simp [RBState.isBlack, h.color_eq]

theorem Holds.isRed_iff (h : Holds t (plug T K)) : t.isRed T.ptr = true ↔ ¬ T.isBlack := by
  obtain rfl | ⟨c, a, x, b, rfl⟩ := T.eq_nil_or_mk .left
  · simp [RBState.isRed]
  · cases c <;> simp [RBState.isRed, h.color_eq]

theorem Holds.isBlack_child_iff (h : Holds t (plug (.mk d c a x b) K)) :
    t.isBlack (t.child d x) = true ↔ a.isBlack := by
  rw [h.child_eq]
  exact Holds.isBlack_iff (K := ⟨d, c, x, b⟩ :: K) h

theorem Holds.isBlack_child_flip_iff (h : Holds t (plug (.mk d c a x b) K)) :
    t.isBlack (t.child d.flip x) = true ↔ b.isBlack := by
  rw [← mk_flip] at h
  exact h.isBlack_child_iff

section

variable (h : Holds t (plug T (g :: K)))

include h

/-- The other child of the node above is another node. -/
theorem Holds.child_up_ne (hx : T.ptr = some x) : t.child g.side.flip g.x ≠ some x := by
  obtain ⟨-, hK, hnd⟩ := holds_plug.mp h
  exact (hK.sibling_ne (nodup_plug.mp hnd).2.2 (ptr_mem hx)).2

theorem Holds.child_up : t.child g.side g.x = T.ptr := (holds_plug.mp h).2.1.2.1

theorem Holds.child_up_flip : t.child g.side.flip g.x = g.sib.ptr := (holds_plug.mp h).2.1.2.2.1

theorem Holds.color_up : t.color g.x = g.color := (holds_plug.mp h).2.1.2.2.2.1

theorem Holds.p_up : t.p g.x = up K := (holds_plug.mp h).2.1.1

end

end Reading

/-- The source tells the side of a child by comparing it with the left one. -/
theorem side_eq {x : Option ν} (hd : t.child d q = x) (hf : t.child d.flip q ≠ x) :
    (if t.child .left q = x then Side.left else Side.right) = d := by
  cases d with
  | left => exact if_pos hd
  | right => exact if_neg hf

end Pbos.Kfxx
