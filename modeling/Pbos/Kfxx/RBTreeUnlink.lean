import Pbos.Kfxx.RBTreeLinks

/-!
# Kfxx/RBTreeUnlink — taking a node out of the linked tree

A node with one child at most is replaced by the child (`Holds.take_out`).  A node with two children
is replaced by its successor, the end of the left spine of its right subtree, which is taken out in
its stead (`transplant_near`, `transplant_far`).
-/

namespace Pbos.Kfxx

open RBTrees Ctx List

variable {ν κ : Type} [DecidableEq ν] {t : RBState ν κ} {T S : CTree ν} {K : Ctx ν} {d : Side}
  {c : RBColor} {a b : CTree ν} {x : ν} {n : ℕ} {s : RBState ν κ} {A : Ctx ν}

omit [DecidableEq ν] in
/-- **Walking down one side** ends at the outermost node. -/
theorem extremeLoop_spec {q : Option ν} (h : Rep t.toLinks q T) (hx : T.ptr = some x)
    (hfuel : T.nodes.length ≤ n) :
    ∃ cy y z K, T = plug (.mk d cy .nil y z) K ∧ (∀ f ∈ K, f.side = d) ∧
      extremeLoop t d n x = .ok y := by
  induction n generalizing T q x with
  | zero =>
    have hmem := CTree.ptr_mem hx
    rw [length_eq_zero_iff.mp (Nat.le_zero.mp hfuel)] at hmem
    cases hmem
  | succ n ih =>
    obtain rfl | ⟨c, a, x', b, rfl⟩ := T.eq_nil_or_mk d
    · cases hx
    obtain rfl : x' = x := by simpa using hx
    obtain ⟨-, ha, -, -, hTa, -⟩ := rep_mk.mp h
    rw [extremeLoop, ha]
    cases hptr : a.ptr with
    | none =>
      obtain rfl := CTree.ptr_eq_none_iff.mp hptr
      exact ⟨c, x', b, [], rfl, by simp, rfl⟩
    | some w =>
      have hlen : a.nodes.length ≤ n := by
        rw [CTree.nodes_mk] at hfuel
        cases d <;> simp [CTree.join] at hfuel <;> omega
      obtain ⟨cy, y, z, K, rfl, hK, hloop⟩ := ih hTa hptr hlen
      refine ⟨cy, y, z, K ++ [⟨d, c, x', b⟩], by rw [plug_append]; rfl, fun f hf => ?_, hloop⟩
      rcases mem_append.mp hf with hf | hf
      · exact hK f hf
      · rw [mem_singleton.mp hf]

/-- `replaceNode` writes where the context leads to the node. -/
theorem replaceNode_eq {v : Option ν} (hroot : t.root = some x ↔ K = []) (hp : t.p x = up K)
    (hK : ∀ g K', K = g :: K' → t.child g.side g.x = some x ∧ t.child g.side.flip g.x ≠ some x) :
    replaceNode t x v = .ok (setUp t K v) := by
  unfold replaceNode
  cases K with
  | nil => rw [if_pos (hroot.mpr rfl)]; rfl
  | cons g K =>
    obtain ⟨hg, hgf⟩ := hK g K rfl
    rw [if_neg fun h => cons_ne_nil g K (hroot.mp h), hp]
    exact congrArg Except.ok (replaceChild_eq hg hgf)

omit [DecidableEq ν] in
/-- The root pointer leads to a subtree only when there is nothing above it. -/
theorem Holds.root_eq_iff (h : Holds t (plug T K)) (hx : x ∈ T.nodes) (hT : T.ptr = some x) :
    t.root = some x ↔ K = [] := by
  constructor
  · intro hr
    cases K with
    | nil => rfl
    | cons f K =>
      obtain ⟨y, hy, hptr⟩ := ptr_plug_cons T f K
      obtain rfl : y = x := Option.some.inj (hptr.symm.trans (h.root.symm.trans hr))
      exact absurd hy ((nodup_plug.mp h.nodup).2.2 y hx)
  · rintro rfl
    exact h.root.trans hT

/-- What taking out `x` writes, for a node with the one subtree `S` below the context `K`. -/
def takenOut (t : RBState ν κ) (S : CTree ν) (K : Ctx ν) : RBState ν κ :=
  setUp (t.setP S.ptr (up K)) K S.ptr

theorem setUp_rehole {t : RBState ν κ} {v : Option ν} :
    Rehole t.toLinks (setUp t K v).toLinks t.root (setUp t K v).root v K := by
  cases K with
  | nil => rfl
  | cons g K => exact ⟨rfl, rfl, by simp [setUp, RBState.setChild], by
      simp [setUp, RBState.setChild], rfl⟩

/-- **Taking out a node with one child at most.** -/
theorem Holds.take_out (h : Holds t (plug (.mk d c .nil x S) K)) :
    Holds (takenOut t S K) (plug S K) := by
  obtain ⟨hT, hK, hnd⟩ := holds_plug.mp h
  obtain ⟨hndT, hndK, hdisj⟩ := nodup_plug.mp hnd
  obtain ⟨-, -, -, -, -, hS⟩ := rep_mk.mp hT
  obtain ⟨-, hxS, -, hndS, -⟩ := CTree.nodup_mk.mp hndT
  have hdisjS : ∀ y ∈ S.nodes, y ∉ nodes K := fun y hy => hdisj y (by simp [hy])
  have hsame : ∀ y, S.ptr ≠ some y → up K ≠ some y →
      t.toLinks.Same (takenOut t S K).toLinks y := fun y hy hup => by
    refine ⟨?_, fun e => ?_, by simp [takenOut, RBState.setP]⟩
    · simp [takenOut, RBState.setP, hy]
    · rw [takenOut, setUp_child hup]
      rfl
  have hup : ∀ y ∈ S.nodes, up K ≠ some y := fun y hy e => hdisjS y hy (up_mem e)
  refine holds_plug.mpr ⟨hS.reparent hndS (fun y hy hne => hsame y hne (hup y hy)) fun y hy => ?_,
    hK.rehole hndK (fun y hy hne => hsame y ?_ hne) ?_, nodup_plug.mpr ⟨hndS, hndK, hdisjS⟩⟩
  · refine ⟨by simp [takenOut, RBState.setP, hy], fun e => ?_, by simp [takenOut, RBState.setP]⟩
    rw [takenOut, setUp_child (hup y (CTree.ptr_mem hy))]
    rfl
  · exact fun e => hdisjS y (CTree.ptr_mem e) hy
  · have hrehole := setUp_rehole (t := t.setP S.ptr (up K)) (K := K) (v := S.ptr)
    cases K with
    | nil => exact hrehole
    | cons g K =>
      obtain ⟨h1, h2, h3, h4, h5⟩ := hrehole
      refine ⟨h1, h2.trans ?_, h3, h4, h5⟩
      have hne : S.ptr ≠ some g.x := fun e => hdisjS g.x (CTree.ptr_mem e) (by simp [nodes])
      simp [RBState.setP, hne]

/-- The source reads which child is missing, and goes on with the other. -/
theorem removeUnlink_one (h : Holds t (plug (.mk d c .nil x S) K)) :
    removeUnlink t x = .ok (takenOut t S K, S.ptr, up K) := by
  obtain ⟨hT, hK, hnd⟩ := holds_plug.mp h
  obtain ⟨hndT, -, hdisj⟩ := nodup_plug.mp hnd
  have hp : t.p x = up K := h.p_eq (CTree.ptr_mk ..)
  have hxS : S.ptr ≠ some x := fun e => (CTree.nodup_mk.mp hndT).2.1 (CTree.ptr_mem e)
  have hreplace : replaceNode (t.setP S.ptr (up K)) x S.ptr = .ok (takenOut t S K) := by
    refine replaceNode_eq (h.root_eq_iff (by simp) (CTree.ptr_mk ..)) ?_ ?_
    · simp [RBState.setP, hp]
    · rintro g K' rfl
      exact ⟨h.child_up.trans (CTree.ptr_mk ..), h.child_up_ne (CTree.ptr_mk ..)⟩
  have hd : t.child d x = none := h.child_eq
  have hf : t.child d.flip x = S.ptr := h.child_flip_eq
  unfold removeUnlink
  cases d with
  | left =>
    rw [hd, show t.child .right x = S.ptr from hf]
    simp only [hp, hreplace, bind, Except.bind, pure, Except.pure]
  | right =>
    rw [hd, show t.child .left x = S.ptr from hf]
    cases hS : S.ptr <;> rw [hS] at hreplace <;>
      simp only [hp, hreplace, bind, Except.bind, pure, Except.pure]

/-! ## The successor takes the place of a node -/

/-- The end of the transplant: `y` is hung where `x` was, and the two change colours. -/
def seated (t : RBState ν κ) (x y : ν) (K : Ctx ν) : RBState ν κ :=
  let t' := (setUp t K (some y)).setP (some y) (up K)
  (t'.setColor (some y) (t.color x)).setColor (some x) (t.color y)

section Seated

variable {y z : ν} {e : Side}

theorem seated_p : (seated t x y K).p z = if y = z then up K else t.p z := by
  simp [seated, RBState.setP, RBState.setColor]

theorem seated_child (hz : up K ≠ some z) : (seated t x y K).child e z = t.child e z := by
  simp only [seated, RBState.setP, RBState.setColor]
  rw [setUp_child hz]

theorem seated_color : (seated t x y K).color z =
    if x = z then t.color y else if y = z then t.color x else t.color z := by
  simp [seated, RBState.setP, RBState.setColor]

/-- **`y` in the place of `x`**, when the memory `t` differs from a memory `r` with `x` in that
place in the links of `y` and in the parents of the two subtrees only. -/
theorem seated_holds {r : RBState ν κ} {qa qb : Option ν} (ha : Rep r.toLinks qa a)
    (hb : Rep r.toLinks qb b) (hK : RepCtx r.toLinks r.root (some x) K) (hcx : r.color x = c)
    (hnd : (plug (.mk .left c a y b) K).nodes.Nodup)
    (hx : x ∉ (plug (.mk .left c a y b) K).nodes)
    (hp : ∀ z, z ≠ y → t.p z = if a.ptr = some z ∨ b.ptr = some z then some y else r.p z)
    (hchild : ∀ e z, z ≠ y → t.child e z = r.child e z) (hyl : t.child .left y = a.ptr)
    (hyr : t.child .right y = b.ptr) (hcolor : t.color = r.color) (hroot : t.root = r.root) :
    Holds (seated t x y K) (plug (.mk .left c a y b) K) := by
  obtain ⟨hndT, -, hdisj⟩ := nodup_plug.mp hnd
  obtain ⟨hya, hyb, -⟩ := CTree.nodup_mk.mp hndT
  simp only [mem_nodes_plug, CTree.mem_nodes_mk, not_or] at hx hdisj
  have hup : ∀ z, z = y ∨ z ∈ a.nodes ∨ z ∈ b.nodes → up K ≠ some z := fun z hz e =>
    hdisj z hz (up_mem e)
  have htop : ∀ S : CTree ν, (∀ z ∈ S.nodes, x ≠ z ∧ y ≠ z ∧ up K ≠ some z) →
      (∀ z, S.ptr = some z → a.ptr = some z ∨ b.ptr = some z) →
      Retop r.toLinks (seated t x y K).toLinks (some y) S := fun S hS hptr z hz => by
    obtain ⟨hxz, hyz, hupz⟩ := hS z (CTree.ptr_mem hz)
    refine ⟨?_, fun e => ?_, ?_⟩
    · rw [seated_p, if_neg hyz, hp z hyz.symm, if_pos (hptr z hz)]
    · rw [seated_child hupz, hchild e z hyz.symm]
    · rw [seated_color, if_neg hxz, if_neg hyz, hcolor]
  have hmem : ∀ z, z ∈ a.nodes ∨ z ∈ b.nodes → x ≠ z ∧ y ≠ z ∧ up K ≠ some z := fun z hz => by
    refine ⟨?_, ?_, hup z (.inr hz)⟩
    · rintro rfl
      exact hz.elim hx.1.2.1 hx.1.2.2
    · rintro rfl
      exact hz.elim hya hyb
  suffices hrep : Rep (seated t x y K).toLinks (up K) (.mk .left c a y b) ∧
      RepCtx (seated t x y K).toLinks (seated t x y K).root (some y) K from
    holds_plug.mpr ⟨hrep.1, by rw [CTree.ptr_mk]; exact hrep.2, hnd⟩
  refine Rep.replace ha hb hK hnd ?_ (htop a (fun z hz => hmem z (.inl hz)) fun z hz => .inl hz)
    (htop b (fun z hz => hmem z (.inr hz)) fun z hz => .inr hz) ?_ ?_
  · intro z hz hyz haz hbz hupz
    refine ⟨?_, fun e => ?_, ?_⟩
    · rw [seated_p, if_neg hyz, hp z hyz.symm, if_neg (not_or.mpr ⟨haz, hbz⟩)]
    · rw [seated_child hupz, hchild e z hyz.symm]
    · have hxz : x ≠ z := by
        rintro rfl
        rw [mem_nodes_plug, CTree.mem_nodes_mk] at hz
        exact hz.elim (fun h => h.elim hx.1.1 fun h => h.elim hx.1.2.1 hx.1.2.2) hx.2
      rw [seated_color, if_neg hxz, if_neg hyz, hcolor]
  · refine ⟨by rw [seated_p, if_pos rfl], ?_, ?_, ?_⟩
    · rw [seated_child (hup y (by simp)), hyl]
    · rw [seated_child (hup y (by simp))]
      exact hyr
    · rw [seated_color, if_neg hx.1.1, if_pos rfl, hcolor, hcx]
  · cases K with
    | nil => rfl
    | cons g K =>
      have hgy : ¬ y = g.x := fun e => hup y (by simp) (by simp [e])
      have hgx : ¬ x = g.x := fun e => hx.2 (by simp [nodes, e])
      have hga : ¬ (a.ptr = some g.x ∨ b.ptr = some g.x) := by
        rintro (e | e)
        · exact hup g.x (by simp [CTree.ptr_mem e]) rfl
        · exact hup g.x (by simp [CTree.ptr_mem e]) rfl
      refine ⟨hroot, ?_, ?_, ?_, ?_⟩
      · rw [seated_p, if_neg hgy, hp g.x (Ne.symm hgy), if_neg hga]
      · simp [seated, setUp, RBState.setP, RBState.setColor, RBState.setChild]
      · simp [seated, setUp, RBState.setP, RBState.setColor, RBState.setChild,
          hchild _ g.x (Ne.symm hgy)]
      · rw [seated_color, if_neg hgx, if_neg hgy, hcolor]

end Seated

section Transplant

variable {y : ν} {z : CTree ν} {cy : RBColor}

/-- The end of `transplant`, once the links of `y` and of the subtrees are set. -/
theorem replaceNode_seated {q : Option ν} (hroot : s.root = some x ↔ K = [])
    (hp : s.p x = up K)
    (hK : ∀ g K', K = g :: K' → s.child g.side g.x = some x ∧ s.child g.side.flip g.x ≠ some x) :
    (replaceNode s x (some y) >>= fun t =>
      let t := t.setP (some y) (t.p x)
      pure ((t.setColor (some y) (t.color x)).setColor (some x) (t.color y), q)) =
      Except.ok (seated s x y K, q) := by
  rw [replaceNode_eq hroot hp hK]
  have hpx : (setUp s K (some y)).p x = up K := by rw [setUp_p, hp]
  simp only [bind, Except.bind, pure, Except.pure, hpx]
  simp [seated, RBState.setP]

theorem Relinks.seated (h : Relinks t s) : Relinks t (seated s x y K) :=
  h.trans ⟨by simp [Kfxx.seated, RBState.setP, RBState.setColor],
    by simp [Kfxx.seated, RBState.setP, RBState.setColor]⟩

theorem nodup_seated (h : (plug (.mk .left c a x (plug (.mk .left cy .nil y z) A)) K).nodes.Nodup) :
    x ∉ (plug (.mk .left c a y (plug z A)) K).nodes ∧
      (plug (.mk .left c a y (plug z A)) K).nodes.Nodup := by
  refine nodup_cons.mp (Perm.nodup_iff (perm_iff_count.mpr fun v => ?_) |>.mp h)
  simp only [nodes_plug, CTree.nodes_mk, CTree.join, CTree.nodes_nil, count_append,
    count_cons, count_nil]
  omega

/-- **The successor is the right child.** -/
theorem transplant_near (h : Holds t (plug (.mk .left c a x (.mk .left cy .nil y z)) K)) :
    ∃ t', transplant t x y z.ptr = .ok (t', some y) ∧ Holds t' (plug (.mk .left c a y z) K) ∧
      Relinks t t' ∧ t'.color x = cy := by
  obtain ⟨hT, hK, hnd⟩ := holds_plug.mp h
  obtain ⟨hndT, -, hdisj⟩ := nodup_plug.mp hnd
  obtain ⟨hpx, hax, hyx, hcx, ha, hy⟩ := rep_mk.mp hT
  obtain ⟨-, -, hzy, hcy, -, hz⟩ := rep_mk.mp hy
  have hyK : y ∉ nodes K := hdisj y (by simp)
  have hxptr : a.ptr ≠ some x := fun e => (CTree.nodup_mk.mp hndT).1 (CTree.ptr_mem e)
  obtain ⟨hxnew, hndnew⟩ := nodup_seated (A := []) hnd
  let s := (t.setP a.ptr (some y)).setChild .left y a.ptr
  have hsr : s.child .right x = some y := by simp [s]; exact hyx
  refine ⟨seated s x y K, ?_, ?_, Relinks.seated ⟨rfl, rfl⟩, ?_⟩
  · unfold transplant
    have hal : (t.setP a.ptr (some y)).child .left x = a.ptr := hax
    simp only [hax, hal]
    rw [if_pos hsr]
    refine replaceNode_seated (h.root_eq_iff (by simp) (CTree.ptr_mk ..)) ?_ ?_
    · simp [RBState.setP, RBState.setChild, hxptr, hpx]
    · rintro g K' rfl
      have hgy : g.x ≠ y := fun e => hyK (by simp [nodes, e])
      have hg : ∀ e, s.child e g.x = t.child e g.x := fun e => by
        simp [s, RBState.setP, RBState.setChild, hgy]
      exact ⟨(hg _).trans (h.child_up.trans (CTree.ptr_mk ..)),
        fun e => h.child_up_ne (CTree.ptr_mk ..) ((hg _).symm.trans e)⟩
  · refine seated_holds ha hz hK hcx hndnew hxnew (fun w hw => ?_) (fun e w hw => ?_) ?_ ?_ rfl rfl
    · by_cases hwa : a.ptr = some w
      · simp [s, RBState.setP, RBState.setChild, hwa]
      · by_cases hwz : z.ptr = some w
        · simp [s, RBState.setP, RBState.setChild, hz.p_ptr hwz]
        · simp [s, RBState.setP, RBState.setChild, hwz]
    · simp [s, RBState.setP, RBState.setChild, hw]
    · simp [s, RBState.setChild]
    · simp only [s]
      exact hzy
  · rw [seated_color, if_pos rfl]
    exact hcy

/-- The state before `y` is hung where `x` was, when the parent of `y` is another node `q`: the
subtree at `z` is hung below `q`, and the children `l` and `w` of `x` below `y`. -/
def loosened (t : RBState ν κ) (l z : Option ν) (y q w : ν) : RBState ν κ :=
  let t' := ((t.setP l (some y)).setChild .left y l).setP z (some q)
  ((t'.setChild .left q z).setChild .right y (some w)).setP (some w) (some y)

section Loosened

variable {l u : Option ν} {q w v : ν}

theorem loosened_p : (loosened t l u y q w).p v = if w = v then some y
    else if u = some v then some q else if l = some v then some y else t.p v := by
  simp [loosened, RBState.setP, RBState.setChild]

theorem loosened_child {e : Side} (hv : v ≠ y) :
    (loosened t l u y q w).child e v = if e = .left ∧ v = q then u else t.child e v := by
  simp [loosened, RBState.setP, RBState.setChild, hv]

theorem loosened_left (hq : q ≠ y) : (loosened t l u y q w).child .left y = l := by
  simp [loosened, RBState.setP, RBState.setChild, hq.symm]

theorem loosened_right : (loosened t l u y q w).child .right y = some w := by
  simp [loosened, RBState.setP, RBState.setChild]

/-- `transplant` up to there. -/
theorem transplant_eq_loosened (hl : t.child .left x = l) (hr : t.child .right x = some w)
    (hp : t.p y = some q) (hwy : w ≠ y) (hyx : y ≠ x) (hly : l ≠ some y) :
    transplant t x y u = replaceNode (loosened t l u y q w) x (some y) >>= fun t =>
      let t := t.setP (some y) (t.p x)
      pure ((t.setColor (some y) (t.color x)).setColor (some x) (t.color y), some q) := by
  have hl' : (t.setP l (some y)).child .left x = l := hl
  have hr' : ((t.setP l (some y)).setChild .left y l).child .right x = some w := by
    simpa [RBState.setP, RBState.setChild] using hr
  have hp' : ((t.setP l (some y)).setChild .left y l).p y = some q := by
    simpa [RBState.setP, RBState.setChild, hly] using hp
  have hbelow : ((((t.setP l (some y)).setChild .left y l).setP u (some q)).setChild .left q
      u).child .right x = some w := by
    simpa [RBState.setP, RBState.setChild] using hr
  have hbelow' : (((((t.setP l (some y)).setChild .left y l).setP u (some q)).setChild .left q
      u).setChild .right y (some w)).child .right x = some w := by
    simpa [RBState.setP, RBState.setChild, hyx.symm] using hr
  unfold transplant
  simp only [hl, hl']
  rw [if_neg (by rw [hr']; simpa using hwy), hp']
  simp only [hbelow, hbelow']
  rfl

end Loosened

/-- **The successor is further down**, on the left spine of the right subtree.  Its own subtree `z`
takes its place there. -/
theorem transplant_far {g : Frame ν} (hg : g.side = .left)
    (h : Holds t (plug (.mk .left c a x (plug (.mk .left cy .nil y z) (g :: A))) K)) :
    ∃ t', transplant t x y z.ptr = .ok (t', some g.x) ∧
      Holds t' (plug (.mk .left c a y (plug z (g :: A))) K) ∧
      Relinks t t' ∧ t'.color x = cy := by
  have hW : ∀ S : CTree ν, plug (.mk .left c a x (plug S (g :: A))) K =
      plug S (g :: A ++ ⟨.right, c, x, a⟩ :: K) := fun S => by
    rw [plug_append]
    rfl
  have hout := (hW _ ▸ h).take_out
  rw [← hW] at hout
  obtain ⟨hT, -, hnd⟩ := holds_plug.mp h
  obtain ⟨hndT, -, hdisj⟩ := nodup_plug.mp hnd
  obtain ⟨hpx, hax, hrx, hcx, -, -⟩ := rep_mk.mp hT
  obtain ⟨hxa, hxr, -, hndr, har⟩ := CTree.nodup_mk.mp hndT
  obtain ⟨-, -, hyA⟩ := nodup_plug.mp hndr
  simp only [mem_nodes_plug, CTree.mem_nodes_mk, CTree.nodes_nil, not_mem_nil, false_or,
    not_or] at hxr har hdisj hyA
  obtain ⟨hTo, hKo, -⟩ := holds_plug.mp hout
  obtain ⟨-, -, -, -, hao, hRo⟩ := rep_mk.mp hTo
  obtain ⟨hxnew, hndnew⟩ := nodup_seated hnd
  have hgmem : g.x ∈ nodes (g :: A) := by simp [nodes]
  obtain ⟨w, hw, hwr⟩ := ptr_plug_cons (.mk .left cy .nil y z) g A
  have hwR : (plug z (g :: A)).ptr = some w := (ptr_plug_congr (cons_ne_nil g A)).trans hwr
  have hgy : g.x ≠ y := fun e => hyA y (by simp) (e ▸ hgmem)
  have hwy : w ≠ y := fun e => hyA y (by simp) (e ▸ hw)
  have hwx : w ≠ x := fun e => hxr.2 (e ▸ hw)
  have hax' : a.ptr ≠ some x := fun e => hxa (CTree.ptr_mem e)
  have hzx : z.ptr ≠ some x := fun e => hxr.1.2 (CTree.ptr_mem e)
  have heq := transplant_eq_loosened (u := z.ptr) hax (hrx.trans hwr)
    ((hW _ ▸ h).p_eq (CTree.ptr_mk ..)) hwy (fun e => hxr.1.1 e.symm)
    fun e => (har y (CTree.ptr_mem e)).1.1 rfl
  refine ⟨seated (loosened t a.ptr z.ptr y g.x w) x y K, ?_, ?_, Relinks.seated ⟨rfl, rfl⟩, ?_⟩
  · rw [heq]
    refine replaceNode_seated (h.root_eq_iff (by simp) (CTree.ptr_mk ..)) ?_ ?_
    · rw [loosened_p, if_neg hwx, if_neg hzx, if_neg hax', hpx]
    · rintro f K' rfl
      have hfK : f.x ∈ nodes (f :: K') := by simp [nodes]
      have hfg : f.x ≠ g.x := fun e => hdisj g.x (by simp [hgmem]) (e ▸ hfK)
      have hfy : f.x ≠ y := fun e => hdisj y (by simp) (e ▸ hfK)
      have hf : ∀ e, (loosened t a.ptr z.ptr y g.x w).child e f.x = t.child e f.x := fun e => by
        rw [loosened_child hfy, if_neg fun h => hfg h.2]
      exact ⟨(hf _).trans (h.child_up.trans (CTree.ptr_mk ..)),
        fun e => h.child_up_ne (CTree.ptr_mk ..) ((hf _).symm.trans e)⟩
  · refine seated_holds hao hRo hKo hcx hndnew hxnew (fun v hv => ?_) (fun e v hv => ?_)
      (loosened_left hgy) (hwR ▸ loosened_right) rfl rfl
    · rw [loosened_p, hwR]
      change _ = if _ then _ else if z.ptr = some v then some g.x else t.p v
      by_cases hwv : w = v
      · simp [hwv]
      · by_cases hzv : z.ptr = some v
        · have hav : a.ptr ≠ some v := fun e => (har v (CTree.ptr_mem e)).1.2 (CTree.ptr_mem hzv)
          simp [hav]
        · simp [hwv, hzv]
    · rw [loosened_child hv, ← hg]
      rfl
  · rw [seated_color, if_pos rfl]
    exact (hW _ ▸ h).color_eq

end Transplant

/-! ## Unlinking -/

/-- What unlinking `x` leaves: a tree without `x`, in which the subtree `T` lacks one black node if
the node taken out was black.  Its colour is found in `x`. -/
structure Unlinked (t t' : RBState ν κ) (x : ν) (W T : CTree ν) (C : Ctx ν) : Prop where
  holds : Holds t' (plug T C)
  relinks : Relinks t t'
  nodes : ∃ A B, W.nodes = A ++ x :: B ∧ (plug T C).nodes = A ++ B
  balance : t'.color x = .red ∧ RedBlack (plug T C) ∨
    t'.color x = .black ∧ ∃ n, Bal T n ∧ CtxBal C (n + 1)

/-- A node with one child at most. -/
theorem removeUnlink_one_spec (h : Holds t (plug (.mk d c .nil x S) K))
    (hrb : RedBlack (plug (.mk d c .nil x S) K)) :
    ∃ t' T C, removeUnlink t x = .ok (t', T.ptr, up C) ∧
      Unlinked t t' x (plug (.mk d c .nil x S) K) T C := by
  obtain ⟨n, hT, hK, -⟩ := redBlack_plug.mp hrb
  refine ⟨_, S, K, removeUnlink_one h, h.take_out, ⟨by simp [takenOut, RBState.setP],
    by simp [takenOut, RBState.setP]⟩, ?_, ?_⟩
  · rw [nodes_plug, nodes_plug]
    cases d with
    | left => exact ⟨before K, S.nodes ++ after K, by simp [CTree.mk, CTree.nodes], by simp⟩
    | right => exact ⟨before K ++ S.nodes, after K, by simp [CTree.mk, CTree.nodes], by simp⟩
  · have hcolor : (takenOut t S K).color x = c := by
      rw [← h.color_eq]
      simp [takenOut, RBState.setP]
    rw [hcolor]
    exact hT.take_out hK

/-- A node with two children. -/
theorem removeUnlink_two_spec (h : Holds t (plug (.mk .left c a x b) K))
    (hrb : RedBlack (plug (.mk .left c a x b) K)) (ha : a ≠ .nil) (hb : b ≠ .nil)
    (hsize : b.nodes.length ≤ t.size + 1) :
    ∃ t' T C, removeUnlink t x = .ok (t', T.ptr, up C) ∧
      Unlinked t t' x (plug (.mk .left c a x b) K) T C := by
  obtain ⟨-, hax, hbx, -, -, hTb⟩ := rep_mk.mp (holds_plug.mp h).1
  obtain ⟨l, hl⟩ := Option.ne_none_iff_exists'.mp fun e => ha (CTree.ptr_eq_none_iff.mp e)
  obtain ⟨r, hr⟩ := Option.ne_none_iff_exists'.mp fun e => hb (CTree.ptr_eq_none_iff.mp e)
  obtain ⟨cy, y, z, A, rfl, hA, hloop⟩ := extremeLoop_spec (d := .left) hTb hr hsize
  have hW : ∀ (v : ν) (S : CTree ν), plug (.mk .left c a v (plug S A)) K =
      plug S (A ++ ⟨.right, c, v, a⟩ :: K) := fun v S => by
    rw [plug_append]
    rfl
  obtain ⟨n, hy, hC, -⟩ := redBlack_plug.mp (hW _ _ ▸ hrb)
  have hzx : t.child .right y = z.ptr := (hW _ _ ▸ h).child_flip_eq
  have htrans : ∃ t', transplant t x y z.ptr = .ok (t', up (A ++ ⟨.right, c, y, a⟩ :: K)) ∧
      Holds t' (plug (.mk .left c a y (plug z A)) K) ∧ Relinks t t' ∧ t'.color x = cy := by
    cases A with
    | nil => exact transplant_near h
    | cons g A => exact transplant_far (hA g mem_cons_self) h
  obtain ⟨t', hcall, hh, hrl, hcolor⟩ := htrans
  refine ⟨t', z, A ++ ⟨.right, c, y, a⟩ :: K, ?_, hW y z ▸ hh, hrl, ?_, ?_⟩
  · unfold removeUnlink
    rw [hax, show t.child .right x = (plug (.mk .left cy .nil y z) A).ptr from hbx, hl, hr]
    simp only [hloop, hzx, bind, Except.bind, hcall, pure, Except.pure]
  · rw [← hW, nodes_plug]
    refine ⟨before K ++ a.nodes, (plug (.mk .left cy .nil y z) A).nodes ++ after K,
      by simp [CTree.mk, CTree.nodes], ?_⟩
    simp [CTree.mk, CTree.nodes, nodes_plug, before_eq_nil hA]
  · rw [hcolor]
    exact hy.take_out hC.rename

/-- **Unlinking a node.** -/
theorem removeUnlink_spec {W : CTree ν} (h : Holds t W) (hrb : RedBlack W) (hx : x ∈ W.nodes)
    (hsize : t.size = W.nodes.length) :
    ∃ t' T C, removeUnlink t x = .ok (t', T.ptr, up C) ∧ Unlinked t t' x W T C := by
  obtain ⟨c, a, b, K, rfl⟩ := exists_focus hx
  by_cases ha : a = .nil
  · subst ha
    exact removeUnlink_one_spec (d := .left) h hrb
  by_cases hb : b = .nil
  · subst hb
    exact removeUnlink_one_spec (d := .right) h hrb
  refine removeUnlink_two_spec h hrb ha hb ?_
  rw [hsize, nodes_plug]
  simp [CTree.nodes]
  omega

end Pbos.Kfxx
