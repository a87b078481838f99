import Pbos.Km.Panic
import Pbos.Lib.DList

/-!
# Kfxx/List — the doubly linked list

`kfxx::List` keeps the two ends and the length; the nodes live in a memory of their own, since a
node is detached from one list and pushed into another without being copied.  `Linked m l L` says
that `l` is the list of the nodes `L`.  `Linked.detach` takes a node out; `Linked.prepend_iff` and
`Linked.append_iff` put one in, and the frame lemmas say what the operations leave alone.

`_prepend` never writes the new node's own `prev`, nor `_append` its `next`: the node is linked in
exactly when that field already holds what belongs there.
-/

namespace Pbos.Kfxx

open DList Function List

/-- The nodes of every list: their links and data by address, and which of them are allocated. -/
structure Nodes (α : Type) where
  prev : ℕ → Option ℕ
  next : ℕ → Option ℕ
  data : ℕ → α
  live : List ℕ

/-- `List<T>`, without its nodes. -/
structure NodeList where
  first : Option ℕ
  last : Option ℕ
  length : ℕ
  deriving DecidableEq, Repr

/-- A list just constructed. -/
def NodeList.empty : NodeList := ⟨none, none, 0⟩

variable {α : Type} (m : Nodes α) (l : NodeList)

namespace Nodes

variable (m : Nodes α)

def setPrev (n : ℕ) (v : Option ℕ) : Nodes α :=
  { m with prev := update m.prev n v }

def setNext (n : ℕ) (v : Option ℕ) : Nodes α :=
  { m with next := update m.next n v }

def setData (n : ℕ) (v : α) : Nodes α :=
  { m with data := update m.data n v }

/-- `_alloc_node(data)`, at the address the allocator gives. -/
def allocNode (n : ℕ) (v : α) : Nodes α where
  prev := update m.prev n none
  next := update m.next n none
  data := update m.data n v
  live := n :: m.live

/-- `_delete_node(node)`. -/
def deleteNode (n : ℕ) : Nodes α := { m with live := m.live.erase n }

end Nodes

/-- `_prepend(dest, node)`. -/
def prepend (dest : Option ℕ) (node : ℕ) : Nodes α × NodeList :=
  let before : Nodes α × Option ℕ :=
    match dest with
    | none => (m, l.first)
    | some d =>
      let m₁ := match m.prev d with
        | none => m
        | some p => m.setNext p (some node)
      (m₁.setPrev d (some node), if l.first = some d then some node else l.first)
  (before.1.setNext node dest,
    { first := before.2.or (some node), last := l.last.or (some node), length := l.length + 1 })

/-- `push_front(node)`. -/
def pushFront (node : ℕ) : Nodes α × NodeList :=
  prepend m l l.first node

/-- `insert_front(node, new_node)`. -/
def insertFront (node newNode : ℕ) : Nodes α × NodeList :=
  prepend m l (some node) newNode

/-- `_append(dest, node)`. -/
def append (dest : Option ℕ) (node : ℕ) : Nodes α × NodeList :=
  let after : Nodes α × Option ℕ :=
    match dest with
    | none => (m, l.last)
    | some d =>
      let m₁ := match m.next d with
        | none => m
        | some q => m.setPrev q (some node)
      (m₁.setNext d (some node), if l.last = some d then some node else l.last)
  (after.1.setPrev node dest,
    { first := l.first.or (some node), last := after.2.or (some node), length := l.length + 1 })

/-- `push_back(node)`. -/
def pushBack (node : ℕ) : Nodes α × NodeList :=
  append m l l.last node

/-- `insert_back(node, new_node)`. -/
def insertBack (node newNode : ℕ) : Nodes α × NodeList :=
  append m l (some node) newNode

/-- `_remove(dest)`, which is also `detach(dest)`. -/
def detach (dest : ℕ) : Nodes α × NodeList :=
  let m₁ := match m.prev dest with
    | none => m
    | some p => m.setNext p (m.next dest)
  let m₂ := match m₁.next dest with
    | none => m₁
    | some n => m₁.setPrev n (m₁.prev dest)
  (m₂, { first := if l.first = some dest then m.next dest else l.first
         last := if l.last = some dest then m.prev dest else l.last
         length := l.length - 1 })

/-- `remove(node)`. -/
def NodeList.remove (node : ℕ) : Nodes α × NodeList :=
  ((detach m l node).1.deleteNode node, (detach m l node).2)

/-- `pop_front()`. -/
def popFront : Except Fault (Nodes α × NodeList) :=
  match l.first with
  | none => .error (.assertion "include/pbos/kfxx/list.hh" 93)
  | some n => .ok ((detach m l n).1.deleteNode n, (detach m l n).2)

/-! ## The list of some nodes -/

/-- `l` is the list of the nodes `L`, linked both ways. -/
structure Linked (m : Nodes α) (l : NodeList) (L : List ℕ) : Prop where
  first : l.first = headOr L none
  last : l.last = lastOr none L
  length : l.length = L.length
  chain : Chain m.next m.prev none L none
  nodup : L.Nodup

variable {m m' : Nodes α} {l : NodeList} {L A B : List ℕ} {n y : ℕ}

theorem linked_empty : Linked m .empty [] := ⟨rfl, rfl, rfl, trivial, nodup_nil⟩

theorem Linked.congr (h : Linked m l L) (hn : ∀ y ∈ L, m'.next y = m.next y)
    (hp : ∀ y ∈ L, m'.prev y = m.prev y) : Linked m' l L :=
  { h with chain := h.chain.congr hn hp }

/-- A list of no nodes is as it was constructed. -/
theorem Linked.eq_empty (h : Linked m l []) : l = .empty := by
  obtain ⟨hf, hl, hn, -, -⟩ := h
  cases l
  simp_all [NodeList.empty]

/-- The first node has nothing before it. -/
theorem Linked.prev_head (h : Linked m l (n :: L)) : m.prev n = none := h.chain.1

/-! ## Taking a node out -/

@[simp] theorem detach_data : (detach m l n).1.data = m.data := by
  simp only [detach]
  split <;> split <;> rfl

@[simp] theorem detach_live : (detach m l n).1.live = m.live := by
  simp only [detach]
  split <;> split <;> rfl

theorem detach_next (y : ℕ) :
    (detach m l n).1.next y = if m.prev n = some y then m.next n else m.next y := by
  have h (o : Option ℕ) (m₁ : Nodes α) (v : Option ℕ) :
      (match o with | none => m₁ | some x => m₁.setPrev x v).next = m₁.next := by cases o <;> rfl
  simp only [detach, h]
  cases m.prev n with
  | none => simp
  | some p => simp [Nodes.setNext, update_apply, eq_comm]

/-- The node's own `next` survives the first write, so the second reads what was there. -/
theorem detach_prev (y : ℕ) :
    (detach m l n).1.prev y = if m.next n = some y then m.prev n else m.prev y := by
  have h : (match m.prev n with | none => m | some p => m.setNext p (m.next n)).next n =
    m.next n := by
    cases m.prev n with
    | none => rfl
    | some p => simp [Nodes.setNext, update_apply]
  have h' (v : Option ℕ) :
      (match m.prev n with | none => m | some p => m.setNext p v).prev = m.prev := by
    cases m.prev n <;> rfl
  simp only [detach, h]
  cases m.next n with
  | none => simp [h']
  | some q => simp [Nodes.setPrev, update_apply, h', eq_comm]

/-- What is not in the list keeps its links. -/
theorem Linked.detach_frame (h : Linked m l (A ++ n :: B)) (hy : y ∉ A ++ B) :
    (detach m l n).1.next y = m.next y ∧ (detach m l n).1.prev y = m.prev y := by
  obtain ⟨hp, hn⟩ := chain_at h.chain
  rw [detach_next, detach_prev, hp, hn]
  exact ⟨if_neg fun e => hy (mem_append_left _ (mem_of_lastOr_eq_some e)),
    if_neg fun e => hy (mem_append_right _ (mem_of_headOr_eq_some e))⟩

/-- **Detaching a node leaves the list of the others.** -/
theorem Linked.detach (h : Linked m l (A ++ n :: B)) :
    Linked (detach m l n).1 (detach m l n).2 (A ++ B) := by
  obtain ⟨hp, hn⟩ := chain_at h.chain
  obtain ⟨hn', hnodup⟩ := nodup_cons.mp (nodup_middle.mp h.nodup)
  obtain ⟨hnA, hnB⟩ := not_or.mp (mem_append.not.mp hn')
  refine ⟨?_, ?_, ?_, h.chain.unlink h.nodup (fun _ _ => nofun) (fun _ _ => nofun)
    (fun y _ => detach_next y) fun y _ => detach_prev y, hnodup⟩
  · change (if l.first = some n then m.next n else l.first) = _
    rw [h.first, hn]
    cases A with
    | nil => simp
    | cons x A =>
      have hx : x ≠ n := fun e => hnA (e ▸ mem_cons_self)
      simp [hx]
  · change (if l.last = some n then m.prev n else l.last) = _
    rw [h.last, hp, lastOr_append, lastOr_append, lastOr]
    rcases lastOr_eq_or_mem (some n) B with ⟨rfl, h0⟩ | ⟨x, hx, h0⟩
    · simp
    · have hxn : x ≠ n := fun e => hnB (e ▸ hx)
      have hB : lastOr (lastOr none A) B = some x := by
        cases B with
        | nil => cases hx
        | cons z B => exact h0
      rw [h0, hB, if_neg fun e => hxn (Option.some.inj e)]
  · change l.length - 1 = _
    rw [h.length]
    simp

/-! ## Putting a node in -/

@[simp] theorem prepend_data (dest : Option ℕ) : (prepend m l dest n).1.data = m.data := by
  simp only [prepend]
  split
  · rfl
  · split <;> rfl

@[simp] theorem prepend_live (dest : Option ℕ) : (prepend m l dest n).1.live = m.live := by
  simp only [prepend]
  split
  · rfl
  · split <;> rfl

theorem prepend_next (dest : Option ℕ) (y : ℕ) : (prepend m l dest n).1.next y =
    if y = n then dest else if dest.bind m.prev = some y then some n else m.next y := by
  cases dest with
  | none => simp [prepend, Nodes.setNext, update_apply]
  | some d =>
    simp only [prepend]
    split <;> simp [*, Nodes.setNext, Nodes.setPrev, update_apply, eq_comm]

/-- The node's own `prev` is not among what `_prepend` writes. -/
theorem prepend_prev (dest : Option ℕ) (y : ℕ) : (prepend m l dest n).1.prev y =
    if dest = some y then some n else m.prev y := by
  cases dest with
  | none => simp [prepend, Nodes.setNext]
  | some d =>
    simp only [prepend]
    split <;> simp [Nodes.setNext, Nodes.setPrev, update_apply, eq_comm]

/-- The ends and the length that a list has with one more node. -/
theorem prepend_list (h : Linked m l (A ++ B)) (hB : B = [] → A = []) :
    (prepend m l (headOr B none) n).2 =
      ⟨headOr (A ++ n :: B) none, lastOr none (A ++ n :: B), (A ++ n :: B).length⟩ := by
  have hlen := h.length
  have hnd := (nodup_append.mp h.nodup).2.2
  cases B with
  | nil =>
    obtain rfl := hB rfl
    simp [prepend, h.first, h.last, h.length]
  | cons d B =>
    have hfirst : (if l.first = some d then some n else l.first) =
        headOr (A ++ n :: d :: B) none := by
      cases A with
      | nil => simp [h.first]
      | cons a A => simp [h.first, hnd a (by simp) d (by simp)]
    have hlast : l.last = lastOr none (A ++ n :: d :: B) := by
      rw [h.last, lastOr_append, lastOr_append]
      rfl
    obtain ⟨z, hz⟩ : ∃ z, lastOr none (A ++ n :: d :: B) = some z := by
      rcases lastOr_eq_or_mem none (A ++ n :: d :: B) with ⟨h0, -⟩ | ⟨z, -, hz⟩
      · simp at h0
      · exact ⟨z, hz⟩
    obtain ⟨w, hw⟩ : ∃ w, headOr (A ++ n :: d :: B) none = some w := by
      cases A <;> simp
    simp only [prepend, headOr_cons, hfirst, hlast, hz, hw, Option.some_or, NodeList.mk.injEq,
      true_and, hlen, length_append, length_cons]
    omega

/-- **`_prepend` links the node in exactly when its `prev` is the node that comes before.** -/
theorem Linked.prepend_iff (h : Linked m l (A ++ B)) (hn : n ∉ A ++ B) (hB : B = [] → A = []) :
    Linked (prepend m l (headOr B none) n).1 (prepend m l (headOr B none) n).2 (A ++ n :: B) ↔
      m.prev n = lastOr none A := by
  have hbefore : (headOr B none).bind m.prev = lastOr none A := by
    cases B with
    | nil =>
      obtain rfl := hB rfl
      rfl
    | cons d B => exact (chain_at h.chain).1
  have hne : headOr B none ≠ some n := fun e =>
    hn (mem_append_right _ (mem_of_headOr_eq_some e))
  have hnd : (A ++ n :: B).Nodup := nodup_middle.mpr (nodup_cons.mpr ⟨hn, h.nodup⟩)
  have hnext : ∀ y ∈ A ++ B, (prepend m l (headOr B none) n).1.next y =
      if lastOr none A = some y then some n else m.next y := fun y hy => by
    rw [prepend_next, if_neg (fun e : y = n => hn (e ▸ hy)), hbefore]
  have hchain := h.chain.insert_iff h.nodup (fun _ _ => nofun) (fun _ _ => nofun) hnext
    fun y _ => prepend_prev (l := l) (headOr B none) y
  rw [prepend_prev, if_neg hne, prepend_next, if_pos rfl] at hchain
  rw [prepend_list h hB]
  exact ⟨fun h' => (hchain.mp h'.chain).1, fun hp => ⟨rfl, rfl, rfl, hchain.mpr ⟨hp, rfl⟩, hnd⟩⟩

/-! ## The other direction

With the two links and the two ends exchanged, `_append` is `_prepend`. -/

/-- The nodes, read backwards. -/
def Nodes.flip (m : Nodes α) : Nodes α := { m with prev := m.next, next := m.prev }

/-- The list, read backwards. -/
def NodeList.flip (l : NodeList) : NodeList := { l with first := l.last, last := l.first }

theorem append_eq_flip (dest : Option ℕ) : append m l dest n =
    ((prepend m.flip l.flip dest n).1.flip, (prepend m.flip l.flip dest n).2.flip) := by
  cases dest with
  | none => rfl
  | some d =>
    have h (o : Option ℕ) (m₁ : Nodes α) (v : Option ℕ) :
        (match o with | none => m₁.flip | some x => m₁.flip.setNext x v) =
          (match o with | none => m₁ | some x => m₁.setPrev x v).flip := by cases o <;> rfl
    simp only [prepend, h]
    rfl

theorem linked_flip : Linked m.flip l.flip L.reverse ↔ Linked m l L := by
  constructor
  · rintro ⟨hf, hl, hn, hc, hd⟩
    exact ⟨by rw [← lastOr_reverse, ← hl]; rfl, by rw [← headOr_reverse, ← hf]; rfl,
      by rw [← length_reverse, ← hn]; rfl, chain_reverse.mp hc, nodup_reverse.mp hd⟩
  · rintro ⟨hf, hl, hn, hc, hd⟩
    exact ⟨by rw [headOr_reverse, ← hl]; rfl, by rw [lastOr_reverse, ← hf]; rfl,
      by rw [length_reverse, ← hn]; rfl, chain_reverse.mpr hc, nodup_reverse.mpr hd⟩

@[simp] theorem append_live (dest : Option ℕ) : (append m l dest n).1.live = m.live := by
  rw [append_eq_flip]
  exact prepend_live dest

/-- **`_append` links the node in exactly when its `next` is the node that comes after.** -/
theorem Linked.append_iff (h : Linked m l (A ++ B)) (hn : n ∉ A ++ B) (hA : A = [] → B = []) :
    Linked (append m l (lastOr none A) n).1 (append m l (lastOr none A) n).2 (A ++ n :: B) ↔
      m.next n = headOr B none := by
  have hflip : Linked m.flip l.flip (B.reverse ++ A.reverse) := by
    rw [← reverse_append]
    exact linked_flip.mpr h
  have hpre := hflip.prepend_iff (by simpa [or_comm] using hn) (by simpa using hA)
  rw [headOr_reverse, lastOr_reverse] at hpre
  have hmid : (A ++ n :: B).reverse = B.reverse ++ n :: A.reverse := by simp
  rw [append_eq_flip, ← linked_flip, hmid]
  exact hpre

/-! ## Putting a node at an end or beside another -/

@[simp] theorem pushFront_data : (pushFront m l n).1.data = m.data := prepend_data _

@[simp] theorem pushFront_live : (pushFront m l n).1.live = m.live := prepend_live _

@[simp] theorem pushFront_first : (pushFront m l n).2.first = some n := by
  cases h : l.first <;> simp [pushFront, prepend, h]

@[simp] theorem pushBack_live : (pushBack m l n).1.live = m.live := append_live _

@[simp] theorem insertFront_live : (insertFront m l y n).1.live = m.live := prepend_live _

@[simp] theorem insertBack_live : (insertBack m l y n).1.live = m.live := append_live _

/-- What is neither the node nor in the list keeps its links. -/
theorem Linked.pushFront_frame (h : Linked m l L) (hy : y ∉ L) :
    (y ≠ n → (pushFront m l n).1.next y = m.next y) ∧ (pushFront m l n).1.prev y = m.prev y := by
  rw [Kfxx.pushFront, prepend_next, prepend_prev, h.first]
  constructor
  · intro hyn
    rw [if_neg hyn]
    cases L with
    | nil => rfl
    | cons d L => simp [h.prev_head]
  · exact if_neg fun e => hy (mem_of_headOr_eq_some e)

/-- **Pushing a node whose `prev` is null puts it before the list.** -/
theorem Linked.pushFront (h : Linked m l L) (hn : n ∉ L) (hprev : m.prev n = none) :
    Linked (pushFront m l n).1 (pushFront m l n).2 (n :: L) := by
  rw [Kfxx.pushFront, h.first]
  exact (Linked.prepend_iff h hn fun _ => rfl).mpr hprev

end Pbos.Kfxx
