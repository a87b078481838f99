import Pbos.Kfxx.List
import Pbos.Lib.Run

/-!
# Kfxx/ListRuns — sequences of list operations, with re-insertion

A node taken out by `detach` keeps its links and may be put in again, and a node from elsewhere may
carry any links at all.  The state of a run is the nodes, the list and the sequence of nodes the
operations ask for (`ListOp.spec`).  `traversals_of_run` says which runs keep the list readable both
ways: exactly those in which every node put in already carries the one link that the insertion does
not write (`ListOp.Fits`).
-/

namespace Pbos.Kfxx

open DList List

variable {α : Type}

/-- The operations on one list.  Where a node is allocated, its address comes with the call; `none`
is a failed allocation. -/
inductive ListOp (α : Type)
  | pushFront (node : ℕ)
  | pushFrontData (data : α) (addr : Option ℕ)
  | pushBack (node : ℕ)
  | pushBackData (data : α) (addr : Option ℕ)
  | insertFront (node newNode : ℕ)
  | insertBack (node newNode : ℕ)
  | remove (node : ℕ)
  | detach (node : ℕ)

/-- The nodes and the list, with the sequence that the operations so far ask for. -/
structure ListState (α : Type) where
  nodes : Nodes α
  list : NodeList
  seq : List ℕ

namespace ListOp

/-- What the code does. -/
def exec (m : Nodes α) (l : NodeList) : ListOp α → Nodes α × NodeList
  | pushFront n => Kfxx.pushFront m l n
  | pushFrontData v (some a) => Kfxx.pushFront (m.allocNode a v) l a
  | pushFrontData _ none => (m, l)
  | pushBack n => Kfxx.pushBack m l n
  | pushBackData v (some a) => Kfxx.pushBack (m.allocNode a v) l a
  | pushBackData _ none => (m, l)
  | insertFront d n => Kfxx.insertFront m l d n
  | insertBack d n => Kfxx.insertBack m l d n
  | remove n => l.remove m n
  | detach n => Kfxx.detach m l n

/-- What the operation means for the sequence of nodes. -/
def spec (L : List ℕ) : ListOp α → List ℕ
  | pushFront n => n :: L
  | pushFrontData _ (some a) => a :: L
  | pushFrontData _ none => L
  | pushBack n => L ++ [n]
  | pushBackData _ (some a) => L ++ [a]
  | pushBackData _ none => L
  | insertFront d n => L.insertIdx (L.idxOf d) n
  | insertBack d n => L.insertIdx (L.idxOf d + 1) n
  | remove n => L.erase n
  | detach n => L.erase n

/-- A node put in is allocated and in no list; a node given as a place or taken out is in the list;
the allocator gives an address that is not in use. -/
def Legal (m : Nodes α) (L : List ℕ) : ListOp α → Prop
  | pushFront n | pushBack n => n ∈ m.live ∧ n ∉ L
  | pushFrontData _ (some a) | pushBackData _ (some a) => a ∉ m.live
  | pushFrontData _ none | pushBackData _ none => True
  | insertFront d n | insertBack d n => d ∈ L ∧ n ∈ m.live ∧ n ∉ L
  | remove n | detach n => n ∈ L

instance (m : Nodes α) (L : List ℕ) : (op : ListOp α) → Decidable (op.Legal m L)
  | pushFront n | pushBack n => inferInstanceAs (Decidable (n ∈ m.live ∧ n ∉ L))
  | pushFrontData _ (some a) | pushBackData _ (some a) => inferInstanceAs (Decidable (a ∉ m.live))
  | pushFrontData _ none | pushBackData _ none => inferInstanceAs (Decidable True)
  | insertFront d n | insertBack d n => inferInstanceAs (Decidable (d ∈ L ∧ n ∈ m.live ∧ n ∉ L))
  | remove n | detach n => inferInstanceAs (Decidable (n ∈ L))

/-- The link of the new node that the insertion leaves as it was is the one it should have. -/
def Fits (m : Nodes α) : ListOp α → Prop
  | pushFront n => m.prev n = none
  | pushBack n => m.next n = none
  | insertFront d n => m.prev n = m.prev d
  | insertBack d n => m.next n = m.next d
  | _ => True

end ListOp

namespace ListState

/-- One call. -/
def Step (s : ListState α) (op : ListOp α) (s' : ListState α) : Prop :=
  op.Legal s.nodes s.seq ∧
    s' = ⟨(op.exec s.nodes s.list).1, (op.exec s.nodes s.list).2, op.spec s.seq⟩

/-- Forwards from `_first` the nodes come in the order asked for, backwards from `_last` in the
opposite one, and `_length` counts them. -/
def Traversed (s : ListState α) : Prop :=
  Visits s.nodes.next s.list.first s.seq ∧ Visits s.nodes.prev s.list.last s.seq.reverse ∧
    s.list.length = s.seq.length

/-- What every call keeps: the sequence asked for is one of distinct allocated nodes. -/
structure Kept (s : ListState α) : Prop where
  nodup : s.seq.Nodup
  live : ∀ n ∈ s.seq, n ∈ s.nodes.live

/-- The two traversals and the length say that the list is linked. -/
theorem Kept.traversed_iff {s : ListState α} (h : s.Kept) :
    s.Traversed ↔ Linked s.nodes s.list s.seq := by
  rw [Traversed, ← and_assoc, visits_both_iff]
  exact ⟨fun ⟨⟨hf, hl, hc⟩, hn⟩ => ⟨hf, hl, hn, hc, h.nodup⟩,
    fun ⟨hf, hl, hn, hc, _⟩ => ⟨⟨hf, hl, hc⟩, hn⟩⟩

end ListState

/-! ## The sequence asked for -/

section Spec

variable {L A B : List ℕ} {d n : ℕ}

theorem insertIdx_length (A B : List ℕ) (n : ℕ) : (A ++ B).insertIdx A.length n = A ++ n :: B := by
  induction A with
  | nil => rfl
  | cons a A ih => rw [cons_append, length_cons, List.insertIdx_succ_cons, ih]; rfl

theorem idxOf_middle (hd : d ∉ A) : (A ++ d :: B).idxOf d = A.length := by
  rw [List.idxOf_append_of_notMem hd, List.idxOf_cons_self, Nat.add_zero]

/-- Immediately before the given node. -/
theorem spec_insertFront (hd : d ∉ A) :
    (ListOp.insertFront d n : ListOp α).spec (A ++ d :: B) = A ++ n :: d :: B := by
  rw [ListOp.spec, idxOf_middle hd, insertIdx_length]

/-- Immediately after the given node. -/
theorem spec_insertBack (hd : d ∉ A) :
    (ListOp.insertBack d n : ListOp α).spec (A ++ d :: B) = A ++ [d] ++ n :: B := by
  have hlen : A.length + 1 = (A ++ [d]).length := by simp
  have hsplit : A ++ d :: B = A ++ [d] ++ B := by simp
  rw [ListOp.spec, idxOf_middle hd, hlen, hsplit, insertIdx_length]

end Spec

namespace ListState

variable {s s' : ListState α} {op : ListOp α}

/-- With one node put in, the sequence is the old one and the node, in some order. -/
theorem Kept.insert (h : s.Kept) {n : ℕ} {m' : Nodes α} {l' : NodeList} {L' : List ℕ}
    (hperm : L'.Perm (n :: s.seq)) (hn : n ∉ s.seq) (hnew : n ∈ m'.live)
    (hlive : ∀ y ∈ s.nodes.live, y ∈ m'.live) : Kept ⟨m', l', L'⟩ := by
  refine ⟨hperm.nodup_iff.mpr (nodup_cons.mpr ⟨hn, h.nodup⟩), fun y hy => ?_⟩
  rcases mem_cons.mp (hperm.mem_iff.mp hy) with rfl | hy
  · exact hnew
  · exact hlive y (h.live y hy)

/-- Distinct nodes stay distinct, and the new ones are allocated. -/
theorem Kept.step (h : s.Kept) (hs : s.Step op s') : s'.Kept := by
  obtain ⟨hlegal, rfl⟩ := hs
  cases op with
  | pushFront n =>
    refine h.insert (.refl _) hlegal.2 ?_ ?_
    · simpa [ListOp.exec] using hlegal.1
    · simp [ListOp.exec]
  | pushFrontData v a =>
    cases a with
    | none => exact h
    | some a =>
      refine h.insert (.refl _) (fun hs => hlegal (h.live a hs)) ?_ ?_ <;>
        simp +contextual [ListOp.exec, Nodes.allocNode]
  | pushBack n =>
    refine h.insert (perm_append_singleton _ _) hlegal.2 ?_ ?_
    · simpa [ListOp.exec] using hlegal.1
    · simp [ListOp.exec]
  | pushBackData v a =>
    cases a with
    | none => exact h
    | some a =>
      refine h.insert (perm_append_singleton _ _) (fun hs => hlegal (h.live a hs)) ?_ ?_ <;>
        simp +contextual [ListOp.exec, Nodes.allocNode]
  | insertFront d n =>
    refine h.insert (perm_insertIdx _ _ List.idxOf_le_length) hlegal.2.2 ?_ ?_
    · simpa [ListOp.exec] using hlegal.2.1
    · simp [ListOp.exec]
  | insertBack d n =>
    have hidx := List.idxOf_lt_length_of_mem hlegal.1
    refine h.insert (perm_insertIdx _ _ hidx) hlegal.2.2 ?_ ?_
    · simpa [ListOp.exec] using hlegal.2.1
    · simp [ListOp.exec]
  | remove n =>
    refine ⟨h.nodup.erase n, fun y hy => ?_⟩
    obtain ⟨hne, hy⟩ := h.nodup.mem_erase_iff.mp hy
    simpa [ListOp.exec, NodeList.remove, Nodes.deleteNode] using
      (mem_erase_of_ne hne).mpr (h.live y hy)
  | detach n =>
    refine ⟨h.nodup.erase n, fun y hy => ?_⟩
    simpa [ListOp.exec] using h.live y (mem_of_mem_erase hy)

end ListState

variable {m : Nodes α} {l : NodeList} {L : List ℕ} {op : ListOp α} {a : ℕ}

/-- Allocating a node touches no list. -/
theorem Linked.allocNode (v : α) (h : Linked m l L) (ha : a ∉ L) :
    Linked (m.allocNode a v) l L := by
  have hne : ∀ y ∈ L, y ≠ a := fun y hy e => ha (e ▸ hy)
  exact h.congr (fun y hy => Function.update_of_ne (hne y hy) _ _)
    fun y hy => Function.update_of_ne (hne y hy) _ _

/-- **A call on a linked list leaves the linked list of the sequence asked for exactly when it
fits.** -/
theorem Linked.exec_iff (h : Linked m l L) (hlive : ∀ n ∈ L, n ∈ m.live) (hlegal : op.Legal m L) :
    Linked (op.exec m l).1 (op.exec m l).2 (op.spec L) ↔ op.Fits m := by
  cases op with
  | pushFront n =>
    rw [ListOp.exec, Kfxx.pushFront, h.first]
    exact Linked.prepend_iff h hlegal.2 fun _ => rfl
  | pushFrontData v a =>
    cases a with
    | none => exact iff_of_true h trivial
    | some a =>
      have ha : a ∉ L := fun ha => hlegal (hlive a ha)
      exact iff_of_true ((h.allocNode v ha).pushFront ha (by simp [Nodes.allocNode])) trivial
  | pushBack n =>
    rw [ListOp.exec, Kfxx.pushBack, h.last]
    exact Linked.append_iff (by simpa using h) (by simpa using hlegal.2) fun _ => rfl
  | pushBackData v a =>
    cases a with
    | none => exact iff_of_true h trivial
    | some a =>
      have ha : a ∉ L := fun ha => hlegal (hlive a ha)
      rw [ListOp.exec, Kfxx.pushBack, h.last]
      refine iff_of_true ((Linked.append_iff ?_ (by simpa using ha) fun _ => rfl).mpr ?_)
        trivial
      · simpa using h.allocNode v ha
      · simp [Nodes.allocNode]
  | insertFront d n =>
    obtain ⟨hd, -, hnL⟩ := hlegal
    obtain ⟨A, B, rfl⟩ := append_of_mem hd
    rw [spec_insertFront (notMem_of_nodup_middle h.nodup), ListOp.Fits, (chain_at h.chain).1]
    exact h.prepend_iff hnL (by simp)
  | insertBack d n =>
    obtain ⟨hd, -, hnL⟩ := hlegal
    obtain ⟨A, B, rfl⟩ := append_of_mem hd
    rw [spec_insertBack (notMem_of_nodup_middle h.nodup), ListOp.Fits, (chain_at h.chain).2]
    have hdest : lastOr none (A ++ [d]) = some d := by rw [lastOr_append]; rfl
    have happ := Linked.append_iff (A := A ++ [d]) (by simpa using h)
      (by simpa using hnL) (by simp)
    rwa [hdest] at happ
  | remove n =>
    obtain ⟨A, B, rfl⟩ := append_of_mem hlegal
    rw [ListOp.spec, erase_middle (notMem_of_nodup_middle h.nodup)]
    exact iff_of_true (h.detach.congr (fun _ _ => rfl) fun _ _ => rfl) trivial
  | detach n =>
    obtain ⟨A, B, rfl⟩ := append_of_mem hlegal
    rw [ListOp.spec, erase_middle (notMem_of_nodup_middle h.nodup)]
    exact iff_of_true h.detach trivial

/-- A list just constructed, among nodes with any links. -/
def ListState.new (m : Nodes α) : ListState α := ⟨m, .empty, []⟩

/-- **The runs through lists that read the same both ways are the runs of fitting calls.**  Whatever
links the nodes outside carry, after every call of such a run the forward traversal gives the
sequence asked for, the backward traversal the opposite one, and `_length` their number; and a call
that does not fit leaves a list for which this fails. -/
theorem traversals_of_run (m : Nodes α) (ops : List (ListOp α)) (s : ListState α) :
    Run (fun s op s' => s.Step op s' ∧ s'.Traversed) (.new m) ops s ↔
      Run (fun s op s' => s.Step op s' ∧ op.Fits s.nodes) (.new m) ops s :=
  Run.through_iff (I := ListState.Kept) (G := ListState.Traversed) (fun _ _ _ h hs => h.step hs)
    (fun _ _ _ h hG hs => by
      rw [(h.step hs).traversed_iff, hs.2]
      exact (h.traversed_iff.mp hG).exec_iff h.live hs.1)
    ⟨nodup_nil, nofun⟩ ⟨rfl, rfl, rfl⟩

/-- Three nodes are pushed at the back, the third is detached and put in before the second: it still
points back at the second one, and backwards the first node is never met. -/
theorem insertFront_keeps_stale_prev : ∃ s : ListState Unit,
    Run ListState.Step (.new ⟨fun _ => none, fun _ => none, fun _ => (), []⟩)
      [.pushBackData () (some 1), .pushBackData () (some 2), .pushBackData () (some 3), .detach 3,
        .insertFront 2 3] s ∧
      s.seq = [1, 3, 2] ∧ s.list.last = some 2 ∧
      walk s.nodes.prev 6 s.list.last = [2, 3, 2, 3, 2, 3] ∧ ¬ s.Traversed := by
  refine ⟨_, .cons ⟨by decide, rfl⟩ (.cons ⟨by decide, rfl⟩ (.cons ⟨by decide, rfl⟩
    (.cons ⟨by decide, rfl⟩ (.cons ⟨by decide, rfl⟩ (.nil _))))), by decide, by decide, by decide,
    fun h => absurd h.2.1 (by decide)⟩

end Pbos.Kfxx
