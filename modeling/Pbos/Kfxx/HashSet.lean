import Pbos.Kfxx.List

/-!
# Kfxx/HashSet — the hash set, and the moves of its nodes

`kfxx::HashSet` is an array of lists of elements, each stored with its hash code.  `Filed m bs S`
says that the buckets `bs` hold exactly the nodes `S`, each in the bucket of its hash code;
`Filed.pushFront` and `Filed.detach` are the two moves of one node, and `rehash_spec` runs them over
all old buckets.
-/

namespace Pbos.Kfxx

open DList List

variable {T : Type}

/-- `element_t`. -/
structure Element (T : Type) where
  data : T
  hashCode : ℕ

/-- What the element type brings along.  `rebuild x` is what is left of an object that is destroyed
and then constructed in place from itself. -/
structure Ops (T : Type) where
  eq : T → T → Bool
  hash : T → ℕ
  moveAssignable : Bool
  rebuild : T → T

/-- `move_assign_or_move_construct(lhs, rhs)`: what it leaves in `lhs`.  Without a move assignment
the object is constructed from `lhs`, not from `rhs`. -/
def Ops.moveAssignOrMoveConstruct (o : Ops T) (lhs rhs : T) : T :=
  if o.moveAssignable then rhs else o.rebuild lhs

structure HashSet (T : Type) where
  nodes : Nodes (Element T)
  buckets : List NodeList
  size : ℕ

/-- What the allocator answers during one insertion: for the first bucket, for the new node and for
the array of new buckets. -/
structure Grants where
  firstBucket : Bool
  node : Option ℕ
  newBuckets : Bool

/-- Nothing is refused during the insertion. -/
def Grants.All (g : Grants) : Prop :=
  g.firstBucket = true ∧ g.node ≠ none ∧ g.newBuckets = true

/-- `_buckets.at(i)`. -/
def bucketAt (bs : List NodeList) (i : ℕ) : Except Fault NodeList :=
  match bs[i]? with
  | some b => .ok b
  | none => .error (.assertion "include/pbos/kfxx/dynarray.hh" 630)

/-- The loop of `_get_bucket_slot`. -/
def slotLoop (o : Ops T) (m : Nodes (Element T)) (x : T) : ℕ → Option ℕ → Except Fault (Option ℕ)
  | _, none => .ok none
  | 0, some _ => .error .hang
  | fuel + 1, some n =>
    if o.eq (m.data n).data x then .ok (some n) else slotLoop o m x fuel (m.next n)

/-- `_get_bucket_slot(bucket, data)`.  A list cannot be longer than there are nodes. -/
def getBucketSlot (o : Ops T) (m : Nodes (Element T)) (b : NodeList) (x : T) :
    Except Fault (Option ℕ) :=
  slotLoop o m x m.live.length b.first

/-- The inner loop of `_resize_buckets`, over the nodes of the old bucket `b`. -/
def rehashBucket (newSize : ℕ) : ℕ → Nodes (Element T) → NodeList → List NodeList → Option ℕ →
    Except Fault (Nodes (Element T) × NodeList × List NodeList)
  | _, m, b, new, none => .ok (m, b, new)
  | 0, _, _, _, some _ => .error .hang
  | fuel + 1, m, b, new, some j => do
    let next := m.next j
    let index := (m.data j).hashCode % newSize
    let d := detach m b j
    let c ← bucketAt new index
    let p := pushFront d.1 c j
    rehashBucket newSize fuel p.1 d.2 (new.set index p.2) next

/-- The outer loop of `_resize_buckets`, with the old buckets as it leaves them. -/
def rehash (newSize fuel : ℕ) : Nodes (Element T) → List NodeList → List NodeList →
    Except Fault (Nodes (Element T) × List NodeList × List NodeList)
  | m, [], new => .ok (m, [], new)
  | m, b :: old, new => do
    let r ← rehashBucket newSize fuel m b new b.first
    let r' ← rehash newSize fuel r.1 old r.2.2
    .ok (r'.1, r.2.1 :: r'.2.1, r'.2.2)

/-- `~List()`: delete every node from `i` on. -/
def destroyList : ℕ → Nodes (Element T) → Option ℕ → Except Fault (Nodes (Element T))
  | _, m, none => .ok m
  | 0, _, some _ => .error .hang
  | fuel + 1, m, some i => destroyList fuel (m.deleteNode i) (m.next i)

/-- Destroying the buckets of an array. -/
def destroyBuckets (fuel : ℕ) : Nodes (Element T) → List NodeList → Except Fault (Nodes (Element T))
  | m, [] => .ok m
  | m, b :: bs => do
    let m' ← destroyList fuel m b.first
    destroyBuckets fuel m' bs

namespace HashSet

/-- `HashSet(allocator)`, over a memory with no node allocated. -/
def new (prev next : ℕ → Option ℕ) (data : ℕ → Element T) : HashSet T :=
  ⟨⟨prev, next, data, []⟩, [], 0⟩

variable (o : Ops T) (s : HashSet T)

/-- `_check_capacity()`. -/
def checkCapacity : ℤ :=
  let capacity := s.buckets.length <<< 1
  if capacity < s.size then 1
  else if capacity >>> 1 > s.size then
    if capacity >>> 1 ≤ 1 then 0 else -1
  else 0

/-- `_resize_buckets(newSize, _buckets, new_buckets)` and `_buckets = std::move(new_buckets)`, which
destroys the old buckets; nothing if the new array is not granted. -/
def resizeBuckets (newSize : ℕ) (granted : Bool) : Except Fault (Option (HashSet T)) :=
  if granted then do
    let r ← rehash newSize s.nodes.live.length s.nodes s.buckets (List.replicate newSize .empty)
    let m ← destroyBuckets r.1.live.length r.1 r.2.1
    .ok (some { s with nodes := m, buckets := r.2.2 })
  else .ok none

/-- `_check_and_resize_buckets()`. -/
def checkAndResizeBuckets (granted : Bool) : Except Fault (Option (HashSet T)) :=
  let size := s.buckets.length
  if s.checkCapacity = 1 then s.resizeBuckets (if size = 0 then 1 else size <<< 1) granted
  else if s.checkCapacity = -1 then s.resizeBuckets (size >>> 1) granted
  else .ok (some s)

/-- `_insert` from the label `inserted` on; `i` is the bucket the element went to. -/
def finish (i : ℕ) (force granted : Bool) : Except Fault (HashSet T × Bool) := do
  match ← s.checkAndResizeBuckets granted with
  | some s' => .ok ({ s' with size := s'.size + 1 }, true)
  | none =>
    if force then
      let b ← bucketAt s.buckets i
      let r ← popFront s.nodes b
      .ok ({ s with nodes := r.1, buckets := s.buckets.set i r.2 }, false)
    else .ok ({ s with size := s.size + 1 }, true)

/-- The bucket that the first insertion makes. -/
def withBucket : HashSet T :=
  if s.buckets.length = 0 then { s with buckets := [.empty] } else s

/-- The equal element at `n` is replaced; its hash code stays. -/
def replaceAt (o : Ops T) (n : ℕ) (x : T) : HashSet T :=
  let e := s.nodes.data n
  { s with nodes := s.nodes.setData n { e with data := o.moveAssignOrMoveConstruct e.data x } }

/-- `bucket.push_front(element_t(data, hash_code))` at the new node `a`. -/
def pushElement (o : Ops T) (i : ℕ) (b : NodeList) (a : ℕ) (x : T) : HashSet T :=
  let r := pushFront (s.nodes.allocNode a ⟨x, o.hash x⟩) b a
  { s with nodes := r.1, buckets := s.buckets.set i r.2 }

/-- `_insert` once there is a bucket. -/
def insertIn (x : T) (force : Bool) (g : Grants) : Except Fault (HashSet T × Bool) := do
  let i := o.hash x % s.buckets.length
  let b ← bucketAt s.buckets i
  match ← getBucketSlot o s.nodes b x, g.node with
  | some n, _ => (s.replaceAt o n x).finish i force g.newBuckets
  | none, none => .ok (s, false)
  | none, some a => (s.pushElement o i b a x).finish i force g.newBuckets

/-- `_insert(data, force_resize_buckets)`. -/
def insertImpl (x : T) (force : Bool) (g : Grants) : Except Fault (HashSet T × Bool) :=
  if s.buckets.length = 0 ∧ g.firstBucket = false then .ok (s, false)
  else insertIn o s.withBucket x force g

/-- `insert(data)`. -/
def insert (x : T) (g : Grants) : Except Fault (HashSet T × Bool) :=
  insertImpl o s x true g

/-- `insert_without_resize_buckets(data)`. -/
def insertWithoutResizeBuckets (x : T) (g : Grants) : Except Fault (HashSet T × Bool) :=
  insertImpl o s x false g

/-- `_get(data)`. -/
def get (x : T) : Except Fault (Option ℕ) :=
  if s.buckets.length = 0 then .ok none
  else do
    let b ← bucketAt s.buckets (o.hash x % s.buckets.length)
    getBucketSlot o s.nodes b x

/-- `contains(data)`. -/
def contains (x : T) : Except Fault Bool :=
  (s.get o x).map Option.isSome

/-- `remove(data)`. -/
def remove (x : T) : Except Fault (HashSet T) :=
  if s.buckets.length = 0 then .ok s
  else do
    let i := o.hash x % s.buckets.length
    let b ← bucketAt s.buckets i
    match ← getBucketSlot o s.nodes b x with
    | none => .ok s
    | some n =>
      let d := detach s.nodes b n
      .ok { nodes := d.1.deleteNode n, buckets := s.buckets.set i d.2, size := s.size - 1 }

/-- `clear()`.  The count stays. -/
def clear : Except Fault (HashSet T) := do
  let m ← destroyBuckets s.nodes.live.length s.nodes s.buckets
  .ok { s with nodes := m, buckets := [] }

end HashSet

/-! ## The nodes of a bucket -/

section Buckets

variable {m m' : Nodes (Element T)} {b c : NodeList} {bs new : List NodeList} {L : List ℕ}
  {S S' : Set ℕ} {n i fuel newSize : ℕ} {o : Ops T} {x : T} {p : Option ℕ}

/-- The nodes of a bucket, first to last. -/
def nodesOf (m : Nodes (Element T)) (b : NodeList) : List ℕ := walk m.next b.length b.first

theorem Linked.nodesOf_eq (h : Linked m b L) : nodesOf m b = L := by
  rw [nodesOf, h.first]
  exact h.chain.walk_next h.length.ge

theorem bucketAt_eq (h : bs[i]? = some b) : bucketAt bs i = .ok b := by
  rw [bucketAt, h]

/-- Looking through a list finds its first equal element. -/
theorem slotLoop_eq (h : Chain m.next m.prev p L none) (hfuel : L.length ≤ fuel) :
    slotLoop o m x fuel (headOr L none) = .ok (L.find? fun n => o.eq (m.data n).data x) := by
  induction L generalizing p fuel with
  | nil => cases fuel <;> rfl
  | cons n L ih =>
    obtain ⟨k, rfl⟩ := Nat.exists_eq_add_one.mpr (Nat.zero_lt_of_lt hfuel)
    rw [headOr_cons, slotLoop, List.find?_cons]
    cases he : o.eq (m.data n).data x with
    | true => rfl
    | false =>
      rw [h.2.1]
      exact ih h.2.2 (by simpa using hfuel)

/-- The destructor of a list releases its nodes. -/
theorem destroyList_eq (h : Chain m.next m.prev p L none) (hfuel : L.length ≤ fuel) :
    destroyList fuel m (headOr L none) = .ok { m with live := m.live.diff L } := by
  induction L generalizing m p fuel with
  | nil => cases fuel <;> rfl
  | cons n L ih =>
    obtain ⟨k, rfl⟩ := Nat.exists_eq_add_one.mpr (Nat.zero_lt_of_lt hfuel)
    rw [headOr_cons, destroyList, h.2.1, diff_cons]
    exact ih h.2.2 (by simpa using hfuel)

/-- Destroying buckets releases the nodes of all of them. -/
theorem destroyBuckets_eq (h : ∀ b ∈ bs, Linked m b (nodesOf m b) ∧ b.length ≤ fuel) :
    destroyBuckets fuel m bs = .ok { m with live := m.live.diff (bs.flatMap (nodesOf m)) } := by
  induction bs generalizing m with
  | nil => rfl
  | cons b bs ih =>
    obtain ⟨hb, hf⟩ := h b (by simp)
    rw [destroyBuckets, hb.first, destroyList_eq hb.chain (hb.length ▸ hf), List.flatMap_cons,
      diff_append]
    exact ih fun c hc =>
      ⟨{ (h c (mem_cons_of_mem _ hc)).1 with }, (h c (mem_cons_of_mem _ hc)).2⟩

/-! ## Nodes filed by their hash codes -/

/-- **The buckets hold exactly the nodes `S`**, each in the bucket of its hash code. -/
def Filed (m : Nodes (Element T)) (bs : List NodeList) (S : Set ℕ) : Prop :=
  ∀ i b, bs[i]? = some b → Linked m b (nodesOf m b) ∧
    ∀ n, n ∈ nodesOf m b ↔ n ∈ S ∧ (m.data n).hashCode % bs.length = i

theorem filed_iff : Filed m bs S ↔ ∀ i b, bs[i]? = some b →
      ∃ L, Linked m b L ∧ ∀ n, n ∈ L ↔ n ∈ S ∧ (m.data n).hashCode % bs.length = i := by
  refine ⟨fun h i b hb => ⟨_, h i b hb⟩, fun h i b hb => ?_⟩
  obtain ⟨L, hL, hmem⟩ := h i b hb
  rw [hL.nodesOf_eq]
  exact ⟨hL, hmem⟩

theorem filed_replicate (k : ℕ) : Filed m (List.replicate k .empty) ∅ := by
  refine filed_iff.mpr fun i b hb => ⟨[], ?_, by simp⟩
  obtain ⟨-, rfl⟩ := mem_replicate.mp (mem_of_getElem? hb)
  exact linked_empty

/-- Only the nodes filed matter. -/
theorem Filed.congr (h : Filed m bs S)
    (hlinks : ∀ n ∈ S, m'.next n = m.next n ∧ m'.prev n = m.prev n)
    (hcode : ∀ n ∈ S, (m'.data n).hashCode = (m.data n).hashCode) : Filed m' bs S := by
  refine filed_iff.mpr fun i b hb => ?_
  obtain ⟨hL, hmem⟩ := h i b hb
  have hS : ∀ n ∈ nodesOf m b, n ∈ S := fun n hn => ((hmem n).mp hn).1
  refine ⟨_, hL.congr (fun n hn => (hlinks n (hS n hn)).1) fun n hn => (hlinks n (hS n hn)).2,
    fun n => (hmem n).trans (and_congr_right fun hn => ?_)⟩
  rw [hcode n hn]

/-- Exchanging the bucket `i`, when the others keep their nodes and links. -/
theorem Filed.set (h : Filed m bs S) (hdata : m'.data = m.data) (hL : Linked m' c L)
    (hmem : ∀ n, n ∈ L ↔ n ∈ S' ∧ (m.data n).hashCode % bs.length = i)
    (hS : ∀ n, (m.data n).hashCode % bs.length ≠ i → (n ∈ S' ↔ n ∈ S))
    (hlinks : ∀ n ∈ S, (m.data n).hashCode % bs.length ≠ i →
      m'.next n = m.next n ∧ m'.prev n = m.prev n) : Filed m' (bs.set i c) S' := by
  refine filed_iff.mpr fun j b hb => ?_
  rw [length_set, hdata]
  by_cases hji : i = j
  · subst hji
    rw [List.getElem?_set_self (by simpa using (List.getElem?_eq_some_iff.mp hb).1)] at hb
    cases hb
    exact ⟨L, hL, hmem⟩
  · rw [List.getElem?_set_ne hji] at hb
    obtain ⟨hL', hmem'⟩ := h j b hb
    have hne : ∀ n ∈ nodesOf m b, n ∈ S ∧ (m.data n).hashCode % bs.length ≠ i := fun n hn =>
      ⟨((hmem' n).mp hn).1, fun e => hji (e.symm.trans ((hmem' n).mp hn).2)⟩
    refine ⟨_, hL'.congr (fun n hn => (hlinks n (hne n hn).1 (hne n hn).2).1)
      fun n hn => (hlinks n (hne n hn).1 (hne n hn).2).2, fun n => (hmem' n).trans
        (and_congr_left fun hj => (hS n fun e => hji (e.symm.trans hj)).symm)⟩

/-- **Pushing a node into the bucket of its hash code.** -/
theorem Filed.pushFront (h : Filed m bs S) (hn : n ∉ S) (hprev : m.prev n = none)
    (hb : bs[(m.data n).hashCode % bs.length]? = some b) :
    Filed (pushFront m b n).1 (bs.set ((m.data n).hashCode % bs.length) (pushFront m b n).2)
        (insert n S) ∧
      ∀ y, y ∉ S → y ≠ n → (Kfxx.pushFront m b n).1.next y = m.next y ∧
        (Kfxx.pushFront m b n).1.prev y = m.prev y := by
  obtain ⟨hL, hmem⟩ := h _ b hb
  have hnL : n ∉ nodesOf m b := fun h' => hn ((hmem n).mp h').1
  have hframe : ∀ y, y ∉ nodesOf m b → y ≠ n → (Kfxx.pushFront m b n).1.next y = m.next y ∧
      (Kfxx.pushFront m b n).1.prev y = m.prev y := fun y hy hyn =>
    ⟨(hL.pushFront_frame hy).1 hyn, (hL.pushFront_frame hy).2⟩
  refine ⟨h.set pushFront_data (hL.pushFront hnL hprev) (fun y => ?_) (fun y hy => ?_)
    fun y hy hne => hframe y (fun h' => hne ((hmem y).mp h').2) fun e => hn (e ▸ hy),
    fun y hy => hframe y fun h' => hy ((hmem y).mp h').1⟩
  · rw [mem_cons, hmem]
    constructor
    · rintro (rfl | ⟨hy, hi⟩)
      · exact ⟨.inl rfl, rfl⟩
      · exact ⟨.inr hy, hi⟩
    · rintro ⟨rfl | hy, hi⟩
      · exact .inl rfl
      · exact .inr ⟨hy, hi⟩
  · have hyn : y ≠ n := fun e => hy (by rw [e])
    simp [hyn]

/-- **Detaching a node from the bucket of its hash code.** -/
theorem Filed.detach (h : Filed m bs S) (hn : n ∈ S)
    (hb : bs[(m.data n).hashCode % bs.length]? = some b) :
    Filed (detach m b n).1 (bs.set ((m.data n).hashCode % bs.length) (detach m b n).2)
        (S \ {n}) := by
  obtain ⟨hL, hmem⟩ := h _ b hb
  obtain ⟨A, B, hAB⟩ := append_of_mem ((hmem n).mpr ⟨hn, rfl⟩)
  rw [hAB] at hL hmem
  have hnAB : n ∉ A ++ B := (nodup_middle.mp hL.nodup).notMem
  refine h.set detach_data hL.detach (fun y => ?_) (fun y hy => ?_)
    fun y hy hne => hL.detach_frame fun h' => hne ((hmem y).mp (by simp at h' ⊢; tauto)).2
  · rw [Set.mem_sdiff, and_right_comm, ← hmem]
    constructor
    · intro hy
      exact ⟨by simp at hy ⊢; tauto, fun e => hnAB (e ▸ hy)⟩
    · rintro ⟨hy, hne⟩
      simp at hy ⊢
      tauto
  · have hyn : y ≠ n := fun e => hy (by rw [e])
    simp [hyn]

/-- Across the buckets no node is met twice. -/
theorem Filed.nodup (h : Filed m bs S) : (bs.flatMap (nodesOf m)).Nodup := by
  refine nodup_flatMap.mpr ⟨fun b hb => ?_, pairwise_iff_getElem.mpr fun i j hi hj hij => ?_⟩
  · obtain ⟨i, hi⟩ := List.getElem?_of_mem hb
    exact (h i b hi).1.nodup
  · intro n hni hnj
    have h1 := (((h i _ (List.getElem?_eq_getElem hi)).2 n).mp hni).2
    have h2 := (((h j _ (List.getElem?_eq_getElem hj)).2 n).mp hnj).2
    omega

theorem Filed.getElem? (_h : Filed m bs S) (h0 : bs.length ≠ 0) (k : ℕ) :
    ∃ b, bs[k % bs.length]? = some b :=
  ⟨_, List.getElem?_eq_getElem (Nat.mod_lt k (Nat.pos_of_ne_zero h0))⟩

/-- Across the buckets exactly the nodes filed are met. -/
theorem Filed.mem_iff (h : Filed m bs S) (h0 : bs.length ≠ 0) :
    n ∈ bs.flatMap (nodesOf m) ↔ n ∈ S := by
  rw [mem_flatMap]
  constructor
  · rintro ⟨b, hb, hn⟩
    obtain ⟨i, hi⟩ := List.getElem?_of_mem hb
    exact (((h i b hi).2 n).mp hn).1
  · intro hn
    obtain ⟨b, hb⟩ := h.getElem? h0 (m.data n).hashCode
    exact ⟨b, mem_of_getElem? hb, ((h _ b hb).2 n).mpr ⟨hn, rfl⟩⟩

/-! ## Rehashing -/

variable {M : Set ℕ} {old : List NodeList}

/-- **One old bucket**: its nodes move over, and it is left empty.  Each node is the first of its
list when it is detached, so its `prev` is null when it is pushed. -/
theorem rehashBucket_spec (hb : Linked m b L) (hnew : Filed m new M) (hdisj : ∀ n ∈ L, n ∉ M)
    (hlen : new.length = newSize) (h0 : newSize ≠ 0) (hfuel : L.length ≤ fuel) :
    ∃ m' new', rehashBucket newSize fuel m b new (headOr L none) = .ok (m', .empty, new') ∧
      new'.length = newSize ∧ Filed m' new' (M ∪ {n | n ∈ L}) ∧ m'.data = m.data ∧
      m'.live = m.live ∧ ∀ y, y ∉ L → y ∉ M → m'.next y = m.next y ∧ m'.prev y = m.prev y := by
  induction L generalizing m b new M fuel with
  | nil =>
    rw [hb.eq_empty]
    exact ⟨m, new, by cases fuel <;> rfl, hlen, by simpa using hnew, rfl, rfl,
      fun _ _ _ => ⟨rfl, rfl⟩⟩
  | cons n L ih =>
    obtain ⟨k, rfl⟩ := Nat.exists_eq_add_one.mpr (Nat.zero_lt_of_lt hfuel)
    have hd : Linked (detach m b n).1 (detach m b n).2 L := Linked.detach (A := []) hb
    have hframe {y : ℕ} (hy : y ∉ L) := Linked.detach_frame (A := []) hb hy
    have hnL : n ∉ L := (nodup_cons.mp hb.nodup).1
    have hM : ∀ y ∈ M, y ∉ L := fun y hy h' => hdisj y (mem_cons_of_mem _ h') hy
    have hnew' : Filed (detach m b n).1 new M :=
      hnew.congr (fun y hy => hframe (hM y hy)) fun y _ => by rw [detach_data]
    obtain ⟨c, hc⟩ := hnew'.getElem? (hlen ▸ h0) ((detach m b n).1.data n).hashCode
    obtain ⟨hp, hpframe⟩ := hnew'.pushFront (hdisj n (by simp))
      ((hframe hnL).2.trans hb.prev_head) hc
    have hLM : ∀ y ∈ L, y ∉ M ∧ y ≠ n := fun y hy =>
      ⟨hdisj y (mem_cons_of_mem _ hy), fun e => hnL (e ▸ hy)⟩
    obtain ⟨m', new', hrun, hlen', hF, hdata, hlive, hfr⟩ := ih
      (hd.congr (fun y hy => (hpframe y (hLM y hy).1 (hLM y hy).2).1)
        fun y hy => (hpframe y (hLM y hy).1 (hLM y hy).2).2) hp
      (fun y hy => by simpa using ⟨(hLM y hy).2, (hLM y hy).1⟩) (by rw [length_set, hlen])
      (by simpa using hfuel)
    refine ⟨m', new', ?_, hlen', ?_, by rw [hdata, pushFront_data, detach_data],
      by rw [hlive, pushFront_live, detach_live], fun y hy hyM => ?_⟩
    · rw [headOr_cons, rehashBucket, hb.chain.2.1]
      rw [detach_data, hlen] at hc hrun
      rw [bucketAt_eq hc]
      exact hrun
    · have hset : M ∪ {y | y ∈ n :: L} = insert n M ∪ {y | y ∈ L} := by
        ext y
        simp only [Set.mem_union, Set.mem_ofPred_eq, mem_cons, Set.mem_insert_iff]
        tauto
      rw [hset]
      exact hF
    · have hyn : y ≠ n := fun e => hy (e ▸ mem_cons_self)
      have hyL : y ∉ L := fun h' => hy (mem_cons_of_mem _ h')
      obtain ⟨h1, h2⟩ := hfr y hyL (by simpa using ⟨hyn, hyM⟩)
      obtain ⟨h3, h4⟩ := hpframe y hyM hyn
      obtain ⟨h5, h6⟩ := hframe hyL
      exact ⟨(h1.trans h3).trans h5, (h2.trans h4).trans h6⟩

/-- **All old buckets**: every node moves over, and the old buckets are left empty. -/
theorem rehash_spec (hold : ∀ b ∈ old, Linked m b (nodesOf m b) ∧ b.length ≤ fuel)
    (hnd : (old.flatMap (nodesOf m)).Nodup) (hnew : Filed m new M)
    (hdisj : ∀ n ∈ old.flatMap (nodesOf m), n ∉ M) (hlen : new.length = newSize)
    (h0 : newSize ≠ 0) :
    ∃ m' new', rehash newSize fuel m old new =
        .ok (m', List.replicate old.length .empty, new') ∧ new'.length = newSize ∧
      Filed m' new' (M ∪ {n | n ∈ old.flatMap (nodesOf m)}) ∧ m'.data = m.data ∧
      m'.live = m.live := by
  induction old generalizing m new M with
  | nil => exact ⟨m, new, rfl, hlen, by simpa using hnew, rfl, rfl⟩
  | cons b old ih =>
    rw [List.flatMap_cons] at hnd hdisj ⊢
    obtain ⟨-, hnd', hdis⟩ := nodup_append.mp hnd
    obtain ⟨hb, hf⟩ := hold b (by simp)
    obtain ⟨m₁, new₁, hrun, hlen₁, hF, hdata, hlive, hfr⟩ := rehashBucket_spec hb hnew
      (fun n hn => hdisj n (mem_append_left _ hn)) hlen h0 (hb.length ▸ hf)
    have hrest : ∀ c ∈ old, Linked m₁ c (nodesOf m c) := fun c hc => by
      have hmem : ∀ y ∈ nodesOf m c, y ∈ old.flatMap (nodesOf m) := fun y hy =>
        mem_flatMap.mpr ⟨c, hc, hy⟩
      have hsame : ∀ y ∈ nodesOf m c, m₁.next y = m.next y ∧ m₁.prev y = m.prev y := fun y hy =>
        hfr y (fun h' => hdis y h' y (hmem y hy) rfl) (hdisj y (mem_append_right _ (hmem y hy)))
      exact (hold c (mem_cons_of_mem _ hc)).1.congr (fun y hy => (hsame y hy).1)
        fun y hy => (hsame y hy).2
    have hflat : old.flatMap (nodesOf m₁) = old.flatMap (nodesOf m) :=
      List.flatMap_congr fun c hc => (hrest c hc).nodesOf_eq
    obtain ⟨m₂, new₂, hrun₂, hlen₂, hF₂, hdata₂, hlive₂⟩ := ih
      (fun c hc => ⟨(hrest c hc).nodesOf_eq.symm ▸ hrest c hc, (hold c (mem_cons_of_mem _ hc)).2⟩)
      (hflat ▸ hnd') hF (fun y hy => by
        rw [hflat] at hy
        rintro (h' | h')
        · exact hdisj y (mem_append_right _ hy) h'
        · exact hdis y h' y hy rfl) hlen₁
    refine ⟨m₂, new₂, ?_, hlen₂, ?_, hdata₂.trans hdata, hlive₂.trans hlive⟩
    · rw [rehash, hb.first, hrun]
      change (rehash newSize fuel m₁ old new₁ >>= fun r' => _) = _
      rw [hrun₂]
      rfl
    · rw [hflat, Set.union_assoc] at hF₂
      have hset : {n | n ∈ nodesOf m b ++ old.flatMap (nodesOf m)} =
          {n | n ∈ nodesOf m b} ∪ {n | n ∈ old.flatMap (nodesOf m)} := by
        ext y
        simp
      rw [hset]
      exact hF₂

end Buckets

end Pbos.Kfxx
