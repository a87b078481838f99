import Pbos.Kfxx.RBTreeInsert
import Pbos.Kfxx.RBTreeRemove
import Pbos.Kfxx.RBTreeSearch
import Pbos.Lib.OrdMap
import Pbos.Lib.Run

/-!
# Kfxx/RBTreeRuns — the red-black tree over whole runs

Each operation is described on the list of nodes in order: `insert` puts one node between two parts
of the list (`insert_spec`), `remove` takes one out (`remove_spec`).  From these, every run from the
empty tree keeps the red-black conditions and never faults (`redBlack_of_run`), and is a run of the
finite map of its keys, with the same answers (`refines_of_run`).
-/

namespace Pbos.Kfxx

open RBTrees Ctx

variable {ν κ : Type} {t t' : RBState ν κ} {W : CTree ν} {key : κ} {val : ν → κ} {A B : List ν}

/-! ## Fields the links do not depend on -/

theorem Holds.congr (h : Holds t W)
    (hsame : ∀ y ∈ W.nodes, t.toLinks.Same t'.toLinks y) (hroot : t'.root = t.root) : Holds t' W :=
  ⟨h.rep.congr hsame, hroot.trans h.root, h.nodup⟩

theorem Holds.of_links_eq (h : Holds t W)
    (hl : t'.toLinks = t.toLinks) (hroot : t'.root = t.root) : Holds t' W :=
  h.congr (fun y _ => hl ▸ Links.Same.refl _ y) hroot

variable [DecidableEq ν]

/-! ## Insertion -/

section Insert

variable {t : RBState ν κ} {K : Ctx ν} {f : Frame ν} {x : ν}

/-- The node is in no tree, and its links are null. -/
structure Fresh (t : RBState ν κ) (W : CTree ν) (x : ν) : Prop where
  not_mem : x ∉ W.nodes
  p : t.p x = none
  child : ∀ e, t.child e x = none

/-- **A new leaf**, before the fixup. -/
theorem link_spec (h : Holds t (plug .nil (f :: K))) (hx : Fresh t (plug .nil (f :: K)) x) :
    Holds (link t f.side f.x x) (plug (.mk .left .red .nil x .nil) (f :: K)) := by
  obtain ⟨-, hK, hnd⟩ := holds_plug.mp h
  obtain ⟨-, hndK, -⟩ := nodup_plug.mp hnd
  have hxK : x ∉ nodes (f :: K) := fun hx' => hx.not_mem (mem_nodes_plug.mpr (.inr hx'))
  have hfx : f.x ≠ x := fun e => hxK (by simp [nodes, e])
  have hsame : ∀ y, y ≠ x → f.x ≠ y → t.toLinks.Same (link t f.side f.x x).toLinks y :=
    fun y hy hf => ⟨by simp [link, RBState.setP, RBState.setColor, RBState.setChild, hy.symm],
      fun e => by simp [link, RBState.setP, RBState.setColor, RBState.setChild, hf.symm],
      by simp [link, RBState.setP, RBState.setColor, RBState.setChild, hy.symm]⟩
  refine holds_plug.mpr ⟨rep_mk.mpr ⟨?_, ?_, ?_, ?_, trivial, trivial⟩,
    hK.rehole hndK (fun y hy hne => hsame y ?_ ?_) ⟨rfl, ?_, ?_, ?_, ?_⟩, ?_⟩
  · simp [link, RBState.setP, RBState.setColor]
  · simp [link, RBState.setP, RBState.setColor, RBState.setChild, hfx.symm, hx.child]
  · simp [link, RBState.setP, RBState.setColor, RBState.setChild, hfx.symm, hx.child]
  · simp [link, RBState.setColor]
  · rintro rfl
    exact hxK hy
  · exact fun e => hne (by simp [e])
  · simp [link, RBState.setP, RBState.setColor, RBState.setChild, hfx.symm]
  · simp [link, RBState.setP, RBState.setColor, RBState.setChild]
  · simp [link, RBState.setP, RBState.setColor, RBState.setChild]
  · simp [link, RBState.setP, RBState.setColor, RBState.setChild, hfx.symm]
  · refine nodup_plug.mpr ⟨by simp [CTree.mk, CTree.nodes], hndK, fun y hy => ?_⟩
    obtain rfl : y = x := by simpa [CTree.nodes] using hy
    exact hxK

/-- The first node of a tree. -/
theorem setRoot_spec (hx : Fresh t .nil x) :
    Holds ((t.setRoot (some x)).setColor (some x) .black) (.mk .left .black .nil x .nil) := by
  refine ⟨rep_mk.mpr ⟨hx.p, hx.child _, hx.child _, ?_, trivial, trivial⟩, rfl, ?_⟩
  · simp [RBState.setColor]
  · simp [CTree.mk, CTree.nodes]

variable [LinearOrder κ] {c : Comparator κ} {W : CTree ν}

omit [DecidableEq ν] in
/-- The parent found by `_get_slot` is compared with the key once more, with the answer that its
side of the place asks for. -/
theorem insertSide_eq (hc : c.Lawful) (hplace : Place t.rbValue key (f :: K)) :
    insertSide c key (t.rbValue f.x) = .ok f.side := by
  obtain ⟨d, cf, q, s⟩ := f
  cases d with
  | left =>
    have hlt : key < t.rbValue q := hplace.after q (by simp [after])
    cases c with
    | twoway lt => simp [insertSide, (hc _ _).mpr hlt]
    | threeway cmp => simp [insertSide, (hc _ _).1.mpr hlt]
  | right =>
    have hlt : t.rbValue q < key := hplace.before q (by simp [before])
    cases c with
    | twoway lt =>
      have hf : lt key (t.rbValue q) = false := by
        rw [← Bool.not_eq_true]
        exact fun h => absurd ((hc _ _).mp h) hlt.asymm
      simp [insertSide, hf]
    | threeway cmp =>
      have hnot : ¬ cmp key (t.rbValue q) < 0 := fun h => absurd ((hc _ _).1.mp h) hlt.asymm
      simp [insertSide, hnot, (hc _ _).2.mpr hlt]

/-- **The new node is linked**; the caches and `_size` are still to be updated. -/
theorem insertLink_spec (hc : c.Lawful) (h : Holds t (plug .nil K)) (hrb : RedBlack (plug .nil K))
    (hsize : t.size = (plug .nil K).nodes.length) (hx : Fresh t (plug .nil K) x)
    (hplace : Place t.rbValue (t.rbValue x) K) :
    ∃ t' W', insertLink c t (up K) x = .ok t' ∧ Holds t' W' ∧ RedBlack W' ∧
      Relinks t t' ∧ W'.nodes = before K ++ x :: after K := by
  cases K with
  | nil =>
    have hroot : t.root = none := h.root
    refine ⟨_, _, by unfold insertLink; rw [if_pos hroot], setRoot_spec hx, ?_, ⟨rfl, rfl⟩,
      by simp [CTree.mk, CTree.nodes, before, after]⟩
    exact ⟨rfl, 1, bal_mk_black_succ.mpr ⟨rfl, rfl⟩⟩
  | cons f K =>
    obtain ⟨y, -, hptr⟩ := ptr_plug_cons CTree.nil f K
    have hroot : ¬ t.root = none := by rw [h.root, hptr]; simp
    have hr : Relinks t (link t f.side f.x x) := ⟨rfl, rfl⟩
    obtain ⟨n, hnil, hK, -⟩ := redBlack_plug.mp hrb
    obtain rfl := bal_nil.mp hnil
    have hlen : (f :: K).length < (link t f.side f.x x).size + 2 := by
      have hle := length_le_nodes CTree.nil (f :: K)
      rw [hr.size]
      omega
    obtain ⟨t', W', hfix, hreb, hrb'⟩ := insertFixup_spec (link_spec h hx)
      (bal_mk_red.mpr ⟨⟨trivial, trivial⟩, rfl, rfl⟩) hK hlen
    refine ⟨t', W', ?_, hreb.holds, hrb', hr.trans hreb.relinks, ?_⟩
    · unfold insertLink
      rw [if_neg hroot]
      simp only [up_cons, insertSide_eq hc hplace, bind, Except.bind, hfix]
    · rw [hreb.nodes, nodes_plug]
      simp [CTree.mk, CTree.nodes]

/-- **`_insert` puts the node into its place.** -/
theorem insertAt_spec (hc : c.Lawful) (h : Wf t (plug .nil K)) (hx : Fresh t (plug .nil K) x)
    (hplace : Place t.rbValue (t.rbValue x) K) :
    ∃ t' W', insertAt c t (up K) x = .ok t' ∧ Wf t' W' ∧ t'.rbValue = t.rbValue ∧
      W'.nodes = before K ++ x :: after K := by
  obtain ⟨t₁, W', hlink, hh, hrb, hr, hnodes⟩ :=
    insertLink_spec hc h.holds h.redBlack h.size hx hplace
  have hold : (plug .nil K).nodes = before K ++ after K := by simp [nodes_plug]
  have hlen : W'.nodes.length = t.size + 1 := by
    rw [h.size, hold, hnodes]
    simp only [List.length_append, List.length_cons]
    omega
  have hcaches := updateNodeCaches_spec hh (by rw [hlen, hr.size])
  refine ⟨{ t₁ with
      cachedMinNode := W'.nodes.head?, cachedMaxNode := W'.nodes.getLast?, size := t₁.size + 1 },
    W', ?_, ⟨hh.of_links_eq rfl rfl, hrb, ?_, ?_, rfl, rfl⟩, hr.rbValue, hnodes⟩
  · simp only [insertAt, kdAssert_of_pos (hx.child _), hlink, hcaches, bind, Except.bind, pure,
      Except.pure]
  · change Sorted t₁.rbValue W'.nodes
    rw [hr.rbValue, hnodes]
    obtain ⟨hsA, hsB, hAB⟩ := List.pairwise_append.mp (hold ▸ h.sorted)
    refine List.pairwise_append.mpr ⟨hsA, List.pairwise_cons.mpr ⟨hplace.after, hsB⟩,
      fun a ha b hb => ?_⟩
    rcases List.mem_cons.mp hb with rfl | hb
    · exact hplace.before a ha
    · exact hAB a ha b hb
  · change t₁.size + 1 = W'.nodes.length
    rw [hr.size, hlen]

/-- **`insert` returns.**  It refuses a key that is there, without a write; any other node is put
where its key belongs. -/
theorem insert_spec (hc : c.Lawful) (h : Wf t W) (hx : Fresh t W x) :
    (∃ y ∈ W.nodes, t.rbValue y = t.rbValue x) ∧ insert c t x = .ok (false, t) ∨
    (∀ y ∈ W.nodes, t.rbValue y ≠ t.rbValue x) ∧
      ∃ t' W' A B, insert c t x = .ok (true, t') ∧ Wf t' W' ∧ t'.rbValue = t.rbValue ∧
        W.nodes = A ++ B ∧ W'.nodes = A ++ x :: B := by
  have hfuel : W.nodes.length ≤ t.size + 1 := by rw [h.size]; omega
  have hslot : getSlot c t (t.rbValue x) =
      getSlotLoop c t (t.rbValue x) (t.size + 1) .root (up ([] : Ctx ν)) W.ptr := by
    rw [getSlot, h.holds.root]
    rfl
  have htop : Place t.rbValue (t.rbValue x) ([] : Ctx ν) := ⟨by simp [before], by simp [after]⟩
  rcases getSlotLoop_spec .root hc h.holds.rep h.sorted htop hfuel with
    ⟨y, hy, hk, hres⟩ | ⟨K, slot, rfl, hplace, hres⟩
  · refine .inl ⟨⟨y, hy, hk⟩, ?_⟩
    rw [hres] at hslot
    simp only [insert, hslot, bind, Except.bind, pure, Except.pure]
  · obtain ⟨t', W', hins, hwf, hval, hnodes⟩ := insertAt_spec hc h hx hplace
    refine .inr ⟨fun y hy => ?_, t', W', _, _, ?_, hwf, hval, by simp [nodes_plug], hnodes⟩
    · simp only [nodes_plug, CTree.nodes_nil, List.append_nil, List.mem_append] at hy
      exact hy.elim (fun hy => (hplace.before y hy).ne) fun hy => (hplace.after y hy).ne'
    · rw [hres] at hslot
      simp only [insert, hslot, hins, bind, Except.bind, pure, Except.pure]

end Insert

/-! ## Removal -/

section Remove

variable [LinearOrder κ] {t : RBState ν κ} {W : CTree ν} {x : ν}

/-- **`remove` returns** and takes the node out. -/
theorem remove_spec (h : Wf t W) (hx : x ∈ W.nodes) :
    ∃ t' W' A B, remove t x = .ok t' ∧ Wf t' W' ∧ t'.rbValue = t.rbValue ∧
      W.nodes = A ++ x :: B ∧ W'.nodes = A ++ B := by
  obtain ⟨t₁, W', A, B, hfix, hh, hrb, hr, hW, hW'⟩ := removeFixup_spec h.holds h.redBlack hx h.size
  have hlen : W.nodes.length = W'.nodes.length + 1 := by
    rw [hW, hW']
    simp only [List.length_append, List.length_cons]
    omega
  have hsize : t₁.size = W'.nodes.length + 1 := by rw [hr.size, h.size, hlen]
  have hcaches := updateNodeCaches_spec hh (by omega)
  have hxW' : x ∉ W'.nodes := by
    have hnd := h.holds.nodup
    rw [hW, List.nodup_middle] at hnd
    rw [hW']
    exact (List.nodup_cons.mp hnd).1
  let t₂ : RBState ν κ := { t₁ with
    cachedMinNode := W'.nodes.head?, cachedMaxNode := W'.nodes.getLast?, size := t₁.size - 1 }
  have hsame : ∀ y, y ≠ x → t₁.toLinks.Same
      (((t₂.setChild .left x none).setChild .right x none).setP (some x) none).toLinks y :=
    fun y hy => ⟨by simp [t₂, RBState.setP, RBState.setChild, hy.symm],
      fun e => by simp [t₂, RBState.setP, RBState.setChild, hy], rfl⟩
  refine ⟨((t₂.setChild .left x none).setChild .right x none).setP (some x) none, W', A, B, ?_,
    ⟨hh.congr (fun y hy => hsame y fun e => hxW' (e ▸ hy)) rfl, hrb, ?_, ?_, rfl, rfl⟩,
    hr.rbValue, hW, hW'⟩
  · simp only [remove, hfix, hcaches, bind, Except.bind]
    rfl
  · change Sorted t₁.rbValue W'.nodes
    rw [hr.rbValue, hW']
    have hs := h.sorted
    rw [hW] at hs
    exact hs.sublist (by simp)
  · change t₁.size - 1 = W'.nodes.length
    omega

end Remove

/-! ## Calls and answers -/

/-- A call of the tree's interface. -/
inductive RBCall (ν κ : Type)
  | insert (x : ν)
  | remove (x : ν)
  | find (key : κ)
  | findMaxLteq (data : κ)

/-- What a call returns. -/
inductive RBAnswer (ν : Type)
  | inserted (b : Bool)
  | removed
  | found (r : Option ν)

/-- The nodes that can be reached from `_root`. -/
inductive InTree (t : RBState ν κ) : ν → Prop
  | root {x : ν} : t.root = some x → InTree t x
  | child {x y : ν} {d : Side} : InTree t x → t.child d x = some y → InTree t y

omit [DecidableEq ν] in
/-- **The nodes of the tree are those reached from `_root`.** -/
theorem Holds.inTree_iff {x : ν} (h : Holds t W) :
    InTree t x ↔ x ∈ W.nodes := by
  constructor
  · intro hx
    induction hx with
    | root hroot => exact CTree.ptr_mem (h.root.symm.trans hroot)
    | @child x y d _ hy ih =>
      obtain ⟨cx, a, b, K, rfl⟩ := exists_focus ih
      obtain ⟨-, hl, hr, -, -, -⟩ := (holds_plug.mp h).1
      refine mem_nodes_plug.mpr (.inl ?_)
      cases d with
      | left => simp [CTree.nodes, CTree.ptr_mem (hl.symm.trans hy)]
      | right => simp [CTree.nodes, CTree.ptr_mem (hr.symm.trans hy)]
  · suffices hsub : ∀ (T : CTree ν) q, Rep t.toLinks q T → (∀ y, T.ptr = some y → InTree t y) →
        ∀ y ∈ T.nodes, InTree t y from
      hsub W none h.rep (fun y hy => .root (h.root.trans hy)) x
    intro T
    induction T with
    | nil => exact fun _ _ _ y hy => absurd hy List.not_mem_nil
    | node cx l y r ihl ihr =>
      rintro q ⟨-, hl, hr, -, hTl, hTr⟩ hroot z hz
      have hy := hroot y rfl
      simp only [CTree.nodes, List.mem_append, List.mem_cons] at hz
      rcases hz with hz | rfl | hz
      · exact ihl _ hTl (fun w hw => .child hy (hl.trans hw)) z hz
      · exact hy
      · exact ihr _ hTr (fun w hw => .child hy (hr.trans hw)) z hz

/-- What a caller must respect: only detached nodes with null links are inserted, and only nodes of
the tree are removed. -/
def Allowed (t : RBState ν κ) : RBCall ν κ → Prop
  | .insert x => ¬ InTree t x ∧ t.p x = none ∧ ∀ d, t.child d x = none
  | .remove x => InTree t x
  | .find _ => True
  | .findMaxLteq _ => True

/-- A call with its answer. -/
def exec (c : Comparator κ) (t : RBState ν κ) :
    RBCall ν κ → Except Fault (RBAnswer ν × RBState ν κ)
  | .insert x => (insert c t x).map fun r => (.inserted r.1, r.2)
  | .remove x => (remove t x).map fun t' => (.removed, t')
  | .find key => (find c t key).map fun r => (.found r, t)
  | .findMaxLteq data => (findMaxLteq c t data).map fun r => (.found r, t)

/-- One call that returns. -/
def RBStep (c : Comparator κ) (t : RBState ν κ) (e : RBCall ν κ × RBAnswer ν)
    (t' : RBState ν κ) : Prop :=
  Allowed t e.1 ∧ exec c t e.1 = .ok (e.2, t')

/-! ## The finite map behind the tree -/

section Map

variable [LinearOrder κ]

/-- One call on the finite map: nodes filed under their keys. -/
def MapStep (val : ν → κ) (m : OrdMap κ ν) (e : RBCall ν κ × RBAnswer ν) (m' : OrdMap κ ν) : Prop :=
  match e with
  | (.insert x, r) =>
    r = .inserted (m.find (val x)).isNone ∧
      m' = if (m.find (val x)).isNone then m.insert (val x) x else m
  | (.remove x, r) => m.find (val x) = some x ∧ r = .removed ∧ m' = m.erase (val x)
  | (.find key, r) => r = .found (m.find key) ∧ m' = m
  | (.findMaxLteq data, r) => r = .found ((m.findMaxLteq data).map (·.2)) ∧ m' = m

/-- The tree stores the map. -/
def Represents (t : RBState ν κ) (m : OrdMap κ ν) : Prop :=
  ∃ W, Wf t W ∧ m.entries = W.nodes.map fun x => (t.rbValue x, x)

variable {c : Comparator κ} {t t' : RBState ν κ} {W W' : CTree ν} {m : OrdMap κ ν} {x : ν}

section

omit [DecidableEq ν]

theorem Wf.fresh (h : Wf t W) (hx : Allowed t (.insert x)) : Fresh t W x :=
  ⟨fun hm => hx.1 (h.holds.inTree_iff.mpr hm), hx.2.1, hx.2.2⟩

/-- The map holds the nodes of the tree, each under its key. -/
theorem find_eq_some_iff_mem (hm : m.entries = W.nodes.map fun x => (t.rbValue x, x)) :
    m.find key = some x ↔ x ∈ W.nodes ∧ t.rbValue x = key := by
  rw [m.find_eq_some_iff, hm, List.mem_map]
  constructor
  · rintro ⟨y, hy, e⟩
    obtain ⟨rfl, rfl⟩ := Prod.mk.inj e
    exact ⟨hy, rfl⟩
  · rintro ⟨hx, rfl⟩
    exact ⟨x, hx, rfl⟩

/-- `find` answers as the map does. -/
theorem find_spec (hc : c.Lawful) (h : Wf t W)
    (hm : m.entries = W.nodes.map fun x => (t.rbValue x, x)) (key : κ) :
    find c t key = .ok (m.find key) := by
  obtain ⟨r, hr, hiff⟩ := getLoop_spec (n := t.size + 1) key hc h.holds.rep h.sorted
    (by rw [h.size]; omega)
  rw [find, h.holds.root, hr]
  refine congrArg Except.ok (Option.ext fun x => ?_)
  rw [hiff x, find_eq_some_iff_mem hm]

/-- `find_max_lteq` answers as the map does. -/
theorem findMaxLteq_spec (hc : c.Lawful) (h : Wf t W)
    (hm : m.entries = W.nodes.map fun x => (t.rbValue x, x)) (data : κ) :
    findMaxLteq c t data = .ok ((m.findMaxLteq data).map (·.2)) := by
  have hloop := findMaxLteqLoop_spec (n := t.size + 1) data none hc
    h.holds.rep h.sorted (by rw [h.size]; omega)
  rw [findMaxLteq, h.holds.root, hloop, OrdMap.findMaxLteq, hm]
  simp [List.filter_map, Function.comp_def]

/-- Putting a node into the list is storing it in the map. -/
theorem entries_insert (h : Sorted val (A ++ x :: B))
    (hm : m.entries = (A ++ B).map fun x => (val x, x)) :
    (m.insert (val x) x).entries = (A ++ x :: B).map fun x => (val x, x) := by
  have hAx : ∀ y ∈ A, val y < val x := fun y hy =>
    (List.pairwise_append.mp h).2.2 y hy x List.mem_cons_self
  have hxB : ∀ y ∈ B, val x < val y := (List.pairwise_cons.mp (List.pairwise_append.mp h).2.1).1
  have hA : ∀ y ∈ A, ¬ val x < val y := fun y hy => (hAx y hy).asymm
  have hB : ∀ y ∈ B, ¬ val y < val x := fun y hy => (hxB y hy).asymm
  simp only [OrdMap.insert, hm, List.filter_append, List.filter_map]
  rw [List.filter_eq_self.mpr (by simpa using hAx), List.filter_eq_nil_iff.mpr (by simpa using hB),
    List.filter_eq_nil_iff.mpr (by simpa using hA), List.filter_eq_self.mpr (by simpa using hxB)]
  simp

/-- Taking a node out of the list is dropping its key from the map. -/
theorem entries_erase (h : Sorted val (A ++ x :: B))
    (hm : m.entries = (A ++ x :: B).map fun x => (val x, x)) :
    (m.erase (val x)).entries = (A ++ B).map fun x => (val x, x) := by
  have hA : ∀ y ∈ A, val y ≠ val x := fun y hy =>
    ((List.pairwise_append.mp h).2.2 y hy x List.mem_cons_self).ne
  have hB : ∀ y ∈ B, val y ≠ val x := fun y hy =>
    ((List.pairwise_cons.mp (List.pairwise_append.mp h).2.1).1 y hy).ne'
  simp only [OrdMap.erase, hm, List.filter_append, List.filter_map, List.filter_cons]
  rw [List.filter_eq_self.mpr (by simpa using hA), List.filter_eq_self.mpr (by simpa using hB)]
  simp

end

/-- **Every allowed call returns, and does to the map what it says.**  A refused insertion writes
nothing. -/
theorem exec_spec (hc : c.Lawful) (h : Represents t m) {call : RBCall ν κ}
    (hcall : Allowed t call) :
    ∃ a t' m', exec c t call = .ok (a, t') ∧ Represents t' m' ∧ t'.rbValue = t.rbValue ∧
      MapStep t.rbValue m (call, a) m' ∧ (a = .inserted false → t' = t) := by
  obtain ⟨W, hwf, hm⟩ := h
  cases call with
  | insert x =>
    rcases insert_spec hc hwf (hwf.fresh hcall) with ⟨⟨y, hy, hk⟩, hins⟩ |
      ⟨habsent, t', W', A, B, hins, hwf', hval, hW, hW'⟩
    · have hfind : m.find (t.rbValue x) = some y := (find_eq_some_iff_mem hm).mpr ⟨hy, hk⟩
      exact ⟨.inserted false, t, m, by simp [exec, hins, Except.map], ⟨W, hwf, hm⟩, rfl,
        by simp [MapStep, hfind], fun _ => rfl⟩
    · have hfind : m.find (t.rbValue x) = none := by
        refine Option.eq_none_iff_forall_ne_some.mpr fun y hy => ?_
        obtain ⟨hy, hk⟩ := (find_eq_some_iff_mem hm).mp hy
        exact habsent y hy hk
      refine ⟨.inserted true, t', m.insert (t.rbValue x) x, by simp [exec, hins, Except.map],
        ⟨W', hwf', ?_⟩, hval, by simp [MapStep, hfind], fun e => by simp at e⟩
      have hs := hwf'.sorted
      rw [hval, hW'] at hs ⊢
      exact entries_insert hs (hW ▸ hm)
  | remove x =>
    have hx : x ∈ W.nodes := hwf.holds.inTree_iff.mp hcall
    obtain ⟨t', W', A, B, hrem, hwf', hval, hW, hW'⟩ := remove_spec hwf hx
    refine ⟨.removed, t', m.erase (t.rbValue x), by simp [exec, hrem, Except.map], ⟨W', hwf', ?_⟩,
      hval, ⟨(find_eq_some_iff_mem hm).mpr ⟨hx, rfl⟩, rfl, rfl⟩, fun e => by simp at e⟩
    rw [hval, hW']
    exact entries_erase (hW ▸ hwf.sorted) (hW ▸ hm)
  | find key =>
    exact ⟨.found (m.find key), t, m, by simp [exec, find_spec hc hwf hm, Except.map], ⟨W, hwf, hm⟩,
      rfl, ⟨rfl, rfl⟩, fun _ => rfl⟩
  | findMaxLteq data =>
    exact ⟨.found ((m.findMaxLteq data).map (·.2)), t, m,
      by simp [exec, findMaxLteq_spec hc hwf hm, Except.map], ⟨W, hwf, hm⟩, rfl, ⟨rfl, rfl⟩,
      fun _ => rfl⟩

/-! ## Runs -/

variable {h : Links ν} {val : ν → κ} {trace : List (RBCall ν κ × RBAnswer ν)}

omit [DecidableEq ν] in
theorem represents_empty : Represents (empty h val) OrdMap.empty :=
  ⟨.nil, ⟨⟨trivial, rfl, List.nodup_nil⟩, ⟨trivial, 0, rfl⟩, List.Pairwise.nil, rfl, rfl, rfl⟩, rfl⟩

/-- Every run of the tree is a run of the map. -/
theorem represents_of_run (hc : c.Lawful) (h0 : Represents t m) (hval : t.rbValue = val)
    (hrun : Run (RBStep c) t trace t') :
    ∃ m', Run (MapStep val) m trace m' ∧ Represents t' m' ∧ t'.rbValue = val := by
  induction hrun generalizing m with
  | nil t => exact ⟨m, .nil m, h0, hval⟩
  | cons hstep _ ih =>
    obtain ⟨hallowed, hexec⟩ := hstep
    obtain ⟨a, t₁, m₁, hexec', h₁, hval₁, hmap, -⟩ := exec_spec hc h0 hallowed
    obtain ⟨rfl, rfl⟩ := ok_mk_inj (hexec.symm.trans hexec')
    obtain ⟨m', hrun', h', hval'⟩ := ih h₁ (hval₁.trans hval)
    exact ⟨m', .cons (hval ▸ hmap) hrun', h', hval'⟩

/-! ### A tree of numbers -/

/-- The two-way comparison of numbers. -/
def natCmp : Comparator ℕ := .twoway fun a b => decide (a < b)

theorem natCmp_lawful : natCmp.Lawful := fun _ _ => decide_eq_true_iff

/-- Node objects nobody has linked yet. -/
def blank : Links ℕ := ⟨fun _ => none, fun _ _ => none, fun _ => .black⟩

/-- The tree of the nodes `1` to `n`, filed under their own numbers. -/
def grown : ℕ → RBState ℕ ℕ
  | 0 => empty blank id
  | n + 1 => ((insert natCmp (grown n) (n + 1)).toOption.map Prod.snd).getD (empty blank id)

theorem allowed_grown {n : ℕ} (hn : n < 4) : Allowed (grown n) (.insert (n + 1)) := by
  have hleaf : ∀ {h : Links ℕ} {q c x}, h.p x = q → h.child .left x = none →
      h.child .right x = none → h.color x = c → Rep h q (.node c .nil x .nil) :=
    fun h1 h2 h3 h4 => ⟨h1, h2, h3, h4, trivial, trivial⟩
  obtain ⟨W, hW, hx⟩ : ∃ W, Holds (grown n) W ∧ n + 1 ∉ W.nodes := by
    interval_cases n
    · exact ⟨.nil, ⟨trivial, rfl, List.nodup_nil⟩, by decide⟩
    · exact ⟨.node .black .nil 1 .nil, ⟨hleaf rfl rfl rfl rfl, rfl, by decide⟩, by decide⟩
    · exact ⟨.node .black .nil 1 (.node .red .nil 2 .nil),
        ⟨⟨rfl, rfl, rfl, rfl, trivial, hleaf rfl rfl rfl rfl⟩, rfl, by decide⟩, by decide⟩
    · exact ⟨.node .black (.node .red .nil 1 .nil) 2 (.node .red .nil 3 .nil),
        ⟨⟨rfl, rfl, rfl, rfl, hleaf rfl rfl rfl rfl, hleaf rfl rfl rfl rfl⟩, rfl, by decide⟩,
        by decide⟩
  refine ⟨fun hin => hx (hW.inTree_iff.mp hin), ?_, fun d => ?_⟩
  · interval_cases n <;> rfl
  · cases d <;> interval_cases n <;> rfl

theorem step_grown {n : ℕ} (hn : n < 4) :
    RBStep natCmp (grown n) (.insert (n + 1), .inserted true) (grown (n + 1)) :=
  ⟨allowed_grown hn, by interval_cases n <;> rfl⟩

theorem inTree_grown : InTree (grown 4) 1 := .child (d := .left) (.root rfl) rfl

/-- The first of the nodes is removed again. -/
def shrunk : RBState ℕ ℕ := (remove (grown 4) 1).toOption.getD (grown 4)

/-- Four nodes are inserted, the first is removed and the last one found.  The third insertion and
the removal rotate. -/
def rotating : List (RBCall ℕ ℕ × RBAnswer ℕ) :=
  [(.insert 1, .inserted true), (.insert 2, .inserted true), (.insert 3, .inserted true),
    (.insert 4, .inserted true), (.remove 1, .removed), (.find 4, .found (some 4))]

theorem run_rotating : Run (RBStep natCmp) (empty blank id) rotating shrunk :=
  .cons (step_grown (n := 0) (by decide)) <| .cons (step_grown (n := 1) (by decide)) <|
    .cons (step_grown (n := 2) (by decide)) <| .cons (step_grown (n := 3) (by decide)) <|
    .cons ⟨inTree_grown, rfl⟩ <| .cons ⟨trivial, rfl⟩ <| .nil _

/-- **Every run from the empty tree keeps the red-black conditions**: black root, no red node with a
red child, as many black nodes on every path, links in order, keys increasing, `_size` and the
cached nodes right.  And no allowed call faults: none follows a null pointer, fails an assertion or
hangs. -/
theorem redBlack_of_run (hc : c.Lawful) (hrun : Run (RBStep c) (empty h val) trace t) :
    (∃ W : CTree ν, Holds t W ∧ W.isBlack ∧ NoRedRed W ∧ (∃ n, ∀ k, NullPath W k → k = n) ∧
      (W.nodes.map t.rbValue).Pairwise (· < ·) ∧ t.size = W.nodes.length ∧
      t.cachedMinNode = W.nodes.head? ∧ t.cachedMaxNode = W.nodes.getLast? ∧
      ∀ x, InTree t x ↔ x ∈ W.nodes) ∧
    ∀ call, Allowed t call → ∃ a t', exec c t call = .ok (a, t') := by
  obtain ⟨m, -, hrep, -⟩ := represents_of_run hc represents_empty rfl hrun
  constructor
  · obtain ⟨W, hwf, -⟩ := hrep
    obtain ⟨hblack, n, hbal⟩ := hwf.redBlack
    exact ⟨W, hwf.holds, hblack, hbal.noRedRed, ⟨n, fun k hk => hbal.eq_of_nullPath hk⟩,
      List.pairwise_map.mpr hwf.sorted, hwf.size, hwf.cachedMinNode, hwf.cachedMaxNode,
      fun x => hwf.holds.inTree_iff⟩
  · intro call hcall
    obtain ⟨a, t', -, hexec, -⟩ := exec_spec hc hrep hcall
    exact ⟨a, t', hexec⟩

/-- The tree after these calls. -/
theorem redBlack_rotating : Run (RBStep natCmp) (empty blank id) rotating shrunk ∧
    ∃ W : CTree ℕ, Holds shrunk W ∧ W.isBlack ∧ NoRedRed W := by
  obtain ⟨⟨W, hh, hb, hr, -⟩, -⟩ := redBlack_of_run natCmp_lawful run_rotating
  exact ⟨run_rotating, W, hh, hb, hr⟩

/-- **The tree refines the finite map.**  Every run from the empty tree is a run of the map, call by
call with the same answers, and ends in a tree that stores the map, the keys of all nodes as they
were; an insertion that is refused writes nothing; and every allowed call returns. -/
theorem refines_of_run (hc : c.Lawful) (hrun : Run (RBStep c) (empty h val) trace t) :
    (∃ m, Run (MapStep val) OrdMap.empty trace m ∧ Represents t m) ∧ t.rbValue = val ∧
    (∀ x t', Allowed t (.insert x) → insert c t x = .ok (false, t') → t' = t) ∧
    ∀ call, Allowed t call → ∃ a t', exec c t call = .ok (a, t') := by
  obtain ⟨m, hmap, hrep, hval⟩ := represents_of_run hc represents_empty rfl hrun
  refine ⟨⟨m, hmap, hrep⟩, hval, fun x t' hx hins => ?_, fun call hcall => ?_⟩
  · obtain ⟨a, t₁, -, hexec, -, -, -, hfalse⟩ := exec_spec hc hrep hx
    simp only [exec, hins] at hexec
    obtain ⟨rfl, rfl⟩ := hexec
    exact hfalse rfl
  · obtain ⟨a, t', -, hexec, -⟩ := exec_spec hc hrep hcall
    exact ⟨a, t', hexec⟩

/-- The map after the same calls. -/
theorem refines_rotating : Run (RBStep natCmp) (empty blank id) rotating shrunk ∧
    ∃ m, Run (MapStep id) OrdMap.empty rotating m ∧ Represents shrunk m :=
  ⟨run_rotating, (refines_of_run natCmp_lawful run_rotating).1⟩

/-- **The descents are logarithmic.**  After any run from the empty tree, `_get`, `_find_max_lteq`
and `_get_slot` return within `2 * log₂ (size + 1)` rounds. -/
theorem descents_of_run (hc : c.Lawful) (hrun : Run (RBStep c) (empty h val) trace t)
    {n : ℕ} (hn : 2 * Nat.log 2 (t.size + 1) ≤ n) (key : κ) :
    (∃ r, getLoop c t key n t.root = .ok r) ∧
    (∃ r, findMaxLteqLoop c t key n t.root none = .ok r) ∧
    ∃ r, getSlotLoop c t key n .root none t.root = .ok r := by
  obtain ⟨-, -, ⟨W, hwf, -⟩, -⟩ := represents_of_run hc represents_empty rfl hrun
  obtain ⟨hblack, b, hbal⟩ := hwf.redBlack
  have hb : b ≤ Nat.log 2 (t.size + 1) :=
    Nat.le_log_of_pow_le Nat.one_lt_two (hwf.size ▸ hbal.two_pow_le)
  obtain ⟨hget, hmax, hslot⟩ :=
    descents_return (n := n) key hc hwf.holds.rep hbal (.inr ⟨hblack, by omega⟩)
  rw [← hwf.holds.root] at hget hmax hslot
  exact ⟨hget, hmax none, hslot .root none⟩

/-- Four rounds in a tree of three nodes. -/
theorem descents_rotating : Run (RBStep natCmp) (empty blank id) rotating shrunk ∧
    ∃ r, getLoop natCmp shrunk 5 4 shrunk.root = .ok r :=
  ⟨run_rotating, (descents_of_run natCmp_lawful run_rotating (by decide) 5).1⟩

end Map

end Pbos.Kfxx
