import Pbos.Kfxx.HashSet
import Pbos.Lib.Run

/-!
# Kfxx/HashSetRuns — the hash set over whole runs

`Sound s` is the invariant of the set: the buckets file exactly the allocated nodes.  From it every
call returns and keeps it, and `Sound.insertImpl`, `Sound.remove`, `Sound.get` and `Sound.clear` say
what becomes of the elements.  The number `_size` decides when the buckets are resized and nothing
else, so none of this depends on it.
-/

namespace Pbos.Kfxx

open DList Function List

variable {T : Type}

/-! ## The invariant of a set -/

/-- **The buckets file exactly the allocated nodes.** -/
structure HashSet.Sound (s : HashSet T) : Prop where
  filed : Filed s.nodes s.buckets {n | n ∈ s.nodes.live}
  nodup : s.nodes.live.Nodup
  empty : s.buckets.length = 0 → s.nodes.live = []

namespace HashSet

variable {s s' : HashSet T} {o : Ops T} {x : T} {g : Grants} {force granted : Bool} {b : NodeList}
  {i n a newSize : ℕ}

/-- The same elements at the same nodes, however they are filed. -/
structure Keeps (s s' : HashSet T) : Prop where
  live : s'.nodes.live = s.nodes.live
  data : s'.nodes.data = s.nodes.data
  size : s'.size = s.size

theorem Keeps.refl (s : HashSet T) : Keeps s s := ⟨rfl, rfl, rfl⟩

theorem sound_new (prev next : ℕ → Option ℕ) (data : ℕ → Element T) : (new prev next data).Sound :=
  ⟨fun _ _ h => (nomatch h), nodup_nil, fun _ => rfl⟩

theorem Sound.exists_bucket (h : s.Sound) (h0 : s.buckets.length ≠ 0) (k : ℕ) :
    ∃ b, s.buckets[k % s.buckets.length]? = some b :=
  h.filed.getElem? h0 k

theorem Sound.length_le (h : s.Sound) (hb : s.buckets[i]? = some b) :
    (nodesOf s.nodes b).length ≤ s.nodes.live.length := by
  obtain ⟨hL, hmem⟩ := h.filed i b hb
  exact (List.Nodup.subperm hL.nodup fun n hn => ((hmem n).mp hn).1).length_le

theorem Sound.linked (h : s.Sound) : ∀ b ∈ s.buckets,
    Linked s.nodes b (nodesOf s.nodes b) ∧ b.length ≤ s.nodes.live.length := by
  intro b hb
  obtain ⟨i, hi⟩ := List.getElem?_of_mem hb
  have hL := (h.filed i b hi).1
  exact ⟨hL, hL.length ▸ h.length_le hi⟩

/-- The nodes met across the buckets are the allocated ones. -/
theorem Sound.mem_nodes_iff (h : s.Sound) :
    n ∈ s.buckets.flatMap (nodesOf s.nodes) ↔ n ∈ s.nodes.live := by
  by_cases h0 : s.buckets.length = 0
  · rw [h.empty h0, length_eq_zero_iff.mp h0]
    simp
  · exact h.filed.mem_iff h0

/-- **Across the buckets every allocated node is met once.** -/
theorem Sound.perm (h : s.Sound) : (s.buckets.flatMap (nodesOf s.nodes)).Perm s.nodes.live :=
  (perm_ext_iff_of_nodup h.filed.nodup h.nodup).mpr fun _ => h.mem_nodes_iff

/-! ## Resizing -/

theorem destroyBuckets_replicate (fuel k : ℕ) (m : Nodes (Element T)) :
    destroyBuckets fuel m (List.replicate k .empty) = .ok m := by
  induction k with
  | zero => rfl
  | succ k ih =>
    cases fuel <;> exact ih

/-- **Resizing keeps every element, once.** -/
theorem Sound.resizeBuckets (h : s.Sound) (h0 : newSize ≠ 0) :
    ∃ s', s.resizeBuckets newSize true = .ok (some s') ∧ s'.Sound ∧ s'.buckets.length = newSize ∧
      Keeps s s' := by
  obtain ⟨m', new', hrun, hlen, hF, hdata, hlive⟩ := rehash_spec h.linked h.filed.nodup
    (filed_replicate newSize) (fun _ _ => id) (length_replicate ..) h0
  rw [Set.empty_union] at hF
  have hset : {n | n ∈ s.buckets.flatMap (nodesOf s.nodes)} = {n | n ∈ m'.live} := by
    ext n
    rw [hlive]
    exact h.mem_nodes_iff
  refine ⟨{ s with nodes := m', buckets := new' }, ?_, ⟨hset ▸ hF, hlive ▸ h.nodup,
    fun h' => absurd (hlen.symm.trans h') h0⟩, hlen, hlive, hdata, rfl⟩
  rw [HashSet.resizeBuckets, hrun]
  change (destroyBuckets m'.live.length m' (List.replicate s.buckets.length .empty) >>=
    fun m => _) = _
  rw [destroyBuckets_replicate]
  rfl

/-- The array of buckets is only halved when it has two buckets or more. -/
theorem two_le_of_checkCapacity (h : s.checkCapacity = -1) : 2 ≤ s.buckets.length := by
  by_contra hlt
  have hle : s.buckets.length <<< 1 >>> 1 ≤ 1 := by
    omega
  simp only [checkCapacity] at h
  split at h
  · cases h
  · split at h <;> cases h

theorem Sound.checkAndResizeBuckets (h : s.Sound) (h0 : s.buckets.length ≠ 0) (granted : Bool) :
    (∃ s', s.checkAndResizeBuckets granted = .ok (some s') ∧ s'.Sound ∧ s'.buckets.length ≠ 0 ∧
      Keeps s s') ∨ granted = false ∧ s.checkAndResizeBuckets granted = .ok none := by
  have hresize : ∀ k, k ≠ 0 → (∃ s', s.resizeBuckets k granted = .ok (some s') ∧ s'.Sound ∧
      s'.buckets.length ≠ 0 ∧ Keeps s s') ∨ granted = false ∧
      s.resizeBuckets k granted = .ok none := by
    intro k hk
    cases granted with
    | true =>
      obtain ⟨s', hs', hS, hlen, hkeep⟩ := h.resizeBuckets hk
      exact .inl ⟨s', hs', hS, hlen ▸ hk, hkeep⟩
    | false => exact .inr ⟨rfl, rfl⟩
  simp only [HashSet.checkAndResizeBuckets]
  split
  · exact hresize _ (by rw [Nat.shiftLeft_eq]; omega)
  · split
    · rename_i hcap
      have := two_le_of_checkCapacity hcap
      exact hresize _ (by rw [Nat.shiftRight_eq_div_pow]; omega)
    · exact .inl ⟨s, rfl, h, h0, Keeps.refl s⟩

/-! ## Looking an element up -/

/-- No stored element with this hash code is equal to `x`. -/
def Absent (o : Ops T) (s : HashSet T) (x : T) : Prop :=
  ∀ n ∈ s.nodes.live, (s.nodes.data n).hashCode = o.hash x → o.eq (s.nodes.data n).data x = false

/-- The node `n` stores an element equal to `x`, in the bucket of `x`. -/
structure Found (o : Ops T) (s : HashSet T) (x : T) (n : ℕ) : Prop where
  live : n ∈ s.nodes.live
  bucket : (s.nodes.data n).hashCode % s.buckets.length = o.hash x % s.buckets.length
  eq : o.eq (s.nodes.data n).data x = true

theorem Sound.getBucketSlot (h : s.Sound) (o : Ops T) (x : T)
    (hb : s.buckets[o.hash x % s.buckets.length]? = some b) :
    (Kfxx.getBucketSlot o s.nodes b x = .ok none ∧ Absent o s x) ∨
      ∃ n, Kfxx.getBucketSlot o s.nodes b x = .ok (some n) ∧ Found o s x n := by
  obtain ⟨hL, hmem⟩ := h.filed _ b hb
  have hslot : Kfxx.getBucketSlot o s.nodes b x =
      .ok ((nodesOf s.nodes b).find? fun n => o.eq (s.nodes.data n).data x) := by
    rw [Kfxx.getBucketSlot, hL.first]
    exact slotLoop_eq hL.chain (h.length_le hb)
  rw [hslot]
  cases hfind : (nodesOf s.nodes b).find? fun n => o.eq (s.nodes.data n).data x with
  | none =>
    refine .inl ⟨rfl, fun n hn hcode => ?_⟩
    have := List.find?_eq_none.mp hfind n ((hmem n).mpr ⟨hn, by rw [hcode]⟩)
    simpa using this
  | some n =>
    obtain ⟨hlive, hcode⟩ := (hmem n).mp (mem_of_find?_eq_some hfind)
    exact .inr ⟨n, rfl, hlive, hcode, by simpa using List.find?_some hfind⟩

/-- **`_get`** finds a stored element equal to `x` if there is one. -/
theorem Sound.get (h : s.Sound) (o : Ops T) (x : T) :
    (s.get o x = .ok none ∧ Absent o s x) ∨ ∃ n, s.get o x = .ok (some n) ∧ Found o s x n := by
  by_cases h0 : s.buckets.length = 0
  · refine .inl ⟨by rw [HashSet.get, if_pos h0], fun n hn => ?_⟩
    rw [h.empty h0] at hn
    cases hn
  · obtain ⟨b, hb⟩ := h.exists_bucket h0 (o.hash x)
    rw [HashSet.get, if_neg h0, bucketAt_eq hb]
    exact h.getBucketSlot o x hb

/-! ## Removing -/

/-- A node leaves its bucket and is released. -/
theorem Sound.drop (h : s.Sound) (hn : n ∈ s.nodes.live)
    (hb : s.buckets[(s.nodes.data n).hashCode % s.buckets.length]? = some b) (k : ℕ) :
    (HashSet.mk ((detach s.nodes b n).1.deleteNode n)
      (s.buckets.set ((s.nodes.data n).hashCode % s.buckets.length) (detach s.nodes b n).2)
      k).Sound := by
  have hset : {m | m ∈ s.nodes.live} \ {n} = {m | m ∈ s.nodes.live.erase n} := by
    ext m
    simp [h.nodup.mem_erase_iff, and_comm]
  have hlive : ((detach s.nodes b n).1.deleteNode n).live = s.nodes.live.erase n := by
    rw [Nodes.deleteNode, detach_live]
  refine ⟨?_, hlive ▸ h.nodup.erase n, fun h0 => ?_⟩
  · simp only [hlive, ← hset]
    exact (h.filed.detach hn hb).congr (fun _ _ => ⟨rfl, rfl⟩) fun _ _ => rfl
  · rw [length_set] at h0
    rw [h.empty h0] at hn
    cases hn

/-- **`remove`** takes out one element equal to `x` if there is one. -/
theorem Sound.remove (h : s.Sound) (o : Ops T) (x : T) :
    ∃ s', s.remove o x = .ok s' ∧ s'.Sound ∧ s'.buckets.length = s.buckets.length ∧
      (s' = s ∧ Absent o s x ∨ ∃ n, Found o s x n ∧ s'.nodes.live = s.nodes.live.erase n ∧
        s'.nodes.data = s.nodes.data ∧ s'.size = s.size - 1) := by
  by_cases h0 : s.buckets.length = 0
  · refine ⟨s, by rw [HashSet.remove, if_pos h0], h, rfl, .inl ⟨rfl, fun n hn => ?_⟩⟩
    rw [h.empty h0] at hn
    cases hn
  · obtain ⟨b, hb⟩ := h.exists_bucket h0 (o.hash x)
    simp only [HashSet.remove, if_neg h0, bucketAt_eq hb]
    rcases h.getBucketSlot o x hb with ⟨hslot, habs⟩ | ⟨n, hslot, hf⟩
    · exact ⟨s, by simp only [bind, Except.bind, hslot], h, rfl, .inl ⟨rfl, habs⟩⟩
    · refine ⟨⟨(detach s.nodes b n).1.deleteNode n,
        s.buckets.set (o.hash x % s.buckets.length) (detach s.nodes b n).2,
        s.size - 1⟩, by simp only [bind, Except.bind, hslot], ?_, length_set, .inr ⟨n, hf,
        by simp [Nodes.deleteNode], by simp [Nodes.deleteNode], rfl⟩⟩
      rw [← hf.bucket]
      exact h.drop hf.live (hf.bucket ▸ hb) _

/-- **`clear`** releases every node and leaves no bucket; the count stays. -/
theorem Sound.clear (h : s.Sound) :
    ∃ s', s.clear = .ok s' ∧ s'.Sound ∧ s'.nodes.live = [] ∧ s'.size = s.size := by
  have hnil : s.nodes.live.diff (s.buckets.flatMap (nodesOf s.nodes)) = [] := by
    refine eq_nil_iff_forall_not_mem.mpr fun n hn => ?_
    obtain ⟨h1, h2⟩ := h.nodup.mem_sdiff_iff.mp hn
    exact h2 (h.mem_nodes_iff.mpr h1)
  refine ⟨{ s with nodes := { s.nodes with live := [] }, buckets := [] }, ?_,
    ⟨fun _ _ h' => (nomatch h'), nodup_nil, fun _ => rfl⟩, rfl, rfl⟩
  rw [HashSet.clear, destroyBuckets_eq h.linked, hnil]
  rfl

/-! ## Inserting -/

/-- The stored element equal to `x` is replaced, as the element type allows. -/
def Replaces (o : Ops T) (s : HashSet T) (x : T) (s' : HashSet T) : Prop :=
  ∃ n, Found o s x n ∧ s'.nodes.live = s.nodes.live ∧
    s'.nodes.data = update s.nodes.data n
      ⟨o.moveAssignOrMoveConstruct (s.nodes.data n).data x, (s.nodes.data n).hashCode⟩

/-- `x` is stored at the new node `a`. -/
def Adds (o : Ops T) (s : HashSet T) (x : T) (a : ℕ) (s' : HashSet T) : Prop :=
  Absent o s x ∧ s'.nodes.live = a :: s.nodes.live ∧
    s'.nodes.data = update s.nodes.data a ⟨x, o.hash x⟩

/-- **What an insertion of `x` can end in**, with its answer.  An element that is present is
replaced, but if the new buckets are not granted then some element `f` of its bucket is dropped. -/
inductive Inserted (o : Ops T) (g : Grants) (s : HashSet T) (x : T) (s' : HashSet T) : Bool → Prop
  | added {a : ℕ} (node : g.node = some a) (adds : Adds o s x a s') (size : s'.size = s.size + 1) :
      Inserted o g s x s' true
  | refused (grants : ¬ g.All) (absent : Absent o s x) (live : s'.nodes.live = s.nodes.live)
      (data : ∀ n ∈ s.nodes.live, s'.nodes.data n = s.nodes.data n) (size : s'.size = s.size) :
      Inserted o g s x s' false
  | replaced (replaces : Replaces o s x s') (size : s'.size = s.size + 1) : Inserted o g s x s' true
  | dropped {n f : ℕ} (grants : ¬ g.All) (found : Found o s x n) (mem : f ∈ s.nodes.live)
      (live : s'.nodes.live = s.nodes.live.erase f)
      (data : s'.nodes.data = update s.nodes.data n
        ⟨o.moveAssignOrMoveConstruct (s.nodes.data n).data x, (s.nodes.data n).hashCode⟩)
      (size : s'.size = s.size) : Inserted o g s x s' false

/-- After an element went to the bucket `i`: it is counted, or, if the new buckets are not granted,
the first element of the bucket is dropped again. -/
theorem Sound.finish (h : s.Sound) (h0 : s.buckets.length ≠ 0) (hn : n ∈ s.nodes.live)
    (hi : (s.nodes.data n).hashCode % s.buckets.length = i) (force granted : Bool) :
    ∃ s' r, s.finish i force granted = .ok (s', r) ∧ s'.Sound ∧ s'.buckets.length ≠ 0 ∧
      s'.nodes.data = s.nodes.data ∧
      (r = true ∧ s'.nodes.live = s.nodes.live ∧ s'.size = s.size + 1 ∨
        r = false ∧ granted = false ∧ s'.size = s.size ∧ ∃ b f, s.buckets[i]? = some b ∧
          b.first = some f ∧ f ∈ s.nodes.live ∧ s'.nodes.live = s.nodes.live.erase f) := by
  rw [HashSet.finish]
  rcases h.checkAndResizeBuckets h0 granted with ⟨s', hs', hS, hlen, hk⟩ | ⟨rfl, hnone⟩
  · exact ⟨{ s' with size := s'.size + 1 }, true, by rw [hs']; rfl, ⟨hS.filed, hS.nodup, hS.empty⟩,
      hlen, hk.data, .inl ⟨rfl, hk.live, congrArg (· + 1) hk.size⟩⟩
  · rw [hnone]
    cases force with
    | false =>
      exact ⟨{ s with size := s.size + 1 }, true, rfl, ⟨h.filed, h.nodup, h.empty⟩, h0, rfl,
        .inl ⟨rfl, rfl, rfl⟩⟩
    | true =>
      obtain ⟨b, hb⟩ := h.exists_bucket h0 (s.nodes.data n).hashCode
      obtain ⟨hL, hmem⟩ := h.filed _ b hb
      obtain ⟨f, L, hfL⟩ : ∃ f L, nodesOf s.nodes b = f :: L :=
        exists_cons_of_ne_nil (ne_nil_of_mem ((hmem n).mpr ⟨hn, rfl⟩))
      obtain ⟨hf, hcode⟩ := (hmem f).mp (by simp [hfL])
      have hfirst : b.first = some f := by rw [hL.first, hfL]; rfl
      refine ⟨{ s with
        nodes := (detach s.nodes b f).1.deleteNode f
        buckets := s.buckets.set i (detach s.nodes b f).2 }, false, ?_, ?_,
        by simpa using h0, by simp [Nodes.deleteNode], .inr ⟨rfl, rfl, rfl, b, f, hi ▸ hb, hfirst,
        hf, by simp [Nodes.deleteNode]⟩⟩
      · rw [hi] at hb
        simp only [bind, Except.bind, if_true, bucketAt_eq hb, popFront, hfirst]
      · rw [hi] at hcode
        subst hcode
        exact h.drop hf (hi ▸ hb) _

theorem Sound.replaceAt (h : s.Sound) (o : Ops T) (n : ℕ) (x : T) : (s.replaceAt o n x).Sound := by
  refine ⟨h.filed.congr (fun _ _ => ⟨rfl, rfl⟩) fun k _ => ?_, h.nodup, h.empty⟩
  simp only [HashSet.replaceAt, Nodes.setData, update_apply]
  split
  · rename_i e
    rw [e]
  · rfl

theorem Sound.pushElement (h : s.Sound) (h0 : s.buckets.length ≠ 0) (ha : a ∉ s.nodes.live)
    (hb : s.buckets[o.hash x % s.buckets.length]? = some b) :
    (s.pushElement o (o.hash x % s.buckets.length) b a x).Sound := by
  have halloc : Filed (s.nodes.allocNode a ⟨x, o.hash x⟩) s.buckets {n | n ∈ s.nodes.live} :=
    h.filed.congr (fun n hn => by
        have hne : n ≠ a := fun e => ha (e ▸ hn)
        simp [Nodes.allocNode, hne])
      fun n hn => by
        have hne : n ≠ a := fun e => ha (e ▸ hn)
        simp [Nodes.allocNode, hne]
  have hcode : ((s.nodes.allocNode a ⟨x, o.hash x⟩).data a).hashCode = o.hash x := by
    simp [Nodes.allocNode]
  have hpush := (halloc.pushFront ha (by simp [Nodes.allocNode]) (hcode.symm ▸ hb)).1
  rw [hcode] at hpush
  have hset : Insert.insert a {n | n ∈ s.nodes.live} = {n | n ∈ a :: s.nodes.live} := by
    ext n
    simp
  refine ⟨?_, ?_, fun h' => absurd h' (by simpa [HashSet.pushElement] using h0)⟩
  · simp only [HashSet.pushElement, pushFront_live]
    rw [hset] at hpush
    exact hpush
  · simp only [HashSet.pushElement, pushFront_live]
    exact nodup_cons.mpr ⟨ha, h.nodup⟩

theorem Sound.insertIn (h : s.Sound) (h0 : s.buckets.length ≠ 0)
    (hfresh : ∀ a, g.node = some a → a ∉ s.nodes.live) (o : Ops T) (x : T) (force : Bool) :
    ∃ s' r, insertIn o s x force g = .ok (s', r) ∧ s'.Sound ∧ s'.buckets.length ≠ 0 ∧
      Inserted o g s x s' r ∧
      (r = false → (s'.nodes.live = s.nodes.live ↔ s.get o x = .ok none)) := by
  obtain ⟨b, hb⟩ := h.exists_bucket h0 (o.hash x)
  have hget : s.get o x = Kfxx.getBucketSlot o s.nodes b x := by
    rw [HashSet.get, if_neg h0, bucketAt_eq hb]
    rfl
  have hi : o.hash x % s.buckets.length < s.buckets.length := Nat.mod_lt _ (Nat.pos_of_ne_zero h0)
  simp only [HashSet.insertIn, bucketAt_eq hb]
  rcases h.getBucketSlot o x hb with ⟨hslot, habs⟩ | ⟨n, hslot, hf⟩
  · simp only [bind, Except.bind, hslot]
    cases hg : g.node with
    | none =>
      exact ⟨s, false, rfl, h, h0, .refused (fun hall => hall.2.1 hg) habs rfl (fun _ _ => rfl) rfl,
        fun _ => iff_of_true rfl (hget.trans hslot)⟩
    | some a =>
      have ha := hfresh a hg
      obtain ⟨s', r, hrun, hS, hlen, hdata, hcase⟩ := (h.pushElement h0 ha hb).finish (n := a)
        (i := o.hash x % s.buckets.length) (by simpa [HashSet.pushElement] using h0)
        (by simp [HashSet.pushElement, Nodes.allocNode])
        (by simp [HashSet.pushElement, Nodes.allocNode]) force g.newBuckets
      have hdata' : s'.nodes.data = update s.nodes.data a ⟨x, o.hash x⟩ :=
        hdata.trans (by simp [HashSet.pushElement, Nodes.allocNode])
      refine ⟨s', r, hrun, hS, hlen, ?_⟩
      rcases hcase with ⟨rfl, hlive, hsize⟩ | ⟨rfl, hgr, hsize, c, f, hc, hfirst, -, hlive⟩
      · refine ⟨.added hg ⟨habs, hlive.trans ?_, hdata'⟩ hsize, nofun⟩
        simp [HashSet.pushElement, Nodes.allocNode]
      · obtain rfl : a = f := by
          simp only [HashSet.pushElement, List.getElem?_set_self hi, Option.some.injEq] at hc
          subst hc
          rw [pushFront_first] at hfirst
          exact Option.some.inj hfirst
        have hlive' : s'.nodes.live = s.nodes.live :=
          hlive.trans (by simp [HashSet.pushElement, Nodes.allocNode])
        refine ⟨.refused (fun hall => by simp [hall.2.2] at hgr) habs hlive' (fun n hn => ?_) hsize,
          fun _ => iff_of_true hlive' (hget.trans hslot)⟩
        rw [hdata', update_of_ne fun e : n = a => ha (e ▸ hn)]
  · simp only [bind, Except.bind, hslot]
    obtain ⟨s', r, hrun, hS, hlen, hdata, hcase⟩ := (h.replaceAt o n x).finish
      h0 hf.live
      (by simpa [HashSet.replaceAt, Nodes.setData] using hf.bucket) force g.newBuckets
    refine ⟨s', r, hrun, hS, hlen, ?_⟩
    rcases hcase with ⟨rfl, hlive, hsize⟩ | ⟨rfl, hgr, hsize, -, f, -, -, hmem, hlive⟩
    · exact ⟨.replaced ⟨n, hf, hlive, hdata⟩ hsize, nofun⟩
    · refine ⟨.dropped (fun hall => by simp [hall.2.2] at hgr) hf hmem hlive hdata hsize, fun _ =>
        iff_of_false (fun e => ?_) (by rw [hget, hslot]; nofun)⟩
      have hlen : s'.nodes.live.length + 1 = s.nodes.live.length :=
        hlive ▸ length_erase_add_one hmem
      rw [e] at hlen
      omega

theorem Sound.withBucket (h : s.Sound) :
    s.withBucket.Sound ∧ s.withBucket.buckets.length ≠ 0 ∧ Keeps s s.withBucket := by
  rw [HashSet.withBucket]
  split
  · rename_i h0
    refine ⟨⟨?_, h.nodup, nofun⟩, nofun, rfl, rfl, rfl⟩
    have hset : {n | n ∈ s.nodes.live} = ∅ := by
      rw [h.empty h0]
      simp
    simp only [hset]
    exact filed_replicate 1
  · rename_i h0
    exact ⟨h, h0, Keeps.refl s⟩

theorem Sound.withBucket_eq (h : s.Sound) (hn : n ∈ s.nodes.live) : s.withBucket = s :=
  if_neg fun h0 => by
    rw [h.empty h0] at hn
    cases hn

/-- Nothing is found in the first bucket while it is empty. -/
theorem get_withBucket : s.withBucket.get o x = s.get o x := by
  rw [HashSet.withBucket]
  split
  · rename_i h0
    rw [HashSet.get, HashSet.get, if_pos h0]
    simp only [length_singleton, Nat.mod_one]
    exact slotLoop_eq (L := []) (p := none) trivial (Nat.zero_le _)
  · rfl

/-- The first bucket makes no difference to what an insertion ends in. -/
theorem Sound.inserted_of_withBucket (h : s.Sound) {r : Bool}
    (hins : Inserted o g s.withBucket x s' r) : Inserted o g s x s' r := by
  obtain ⟨-, -, hk⟩ := h.withBucket
  cases hins with
  | added node adds size =>
    rw [Adds, Absent, hk.live, hk.data] at adds
    exact .added node adds (hk.size ▸ size)
  | refused grants absent live data size =>
    rw [Absent, hk.live, hk.data] at absent
    rw [hk.live] at live
    rw [hk.live, hk.data] at data
    exact .refused grants absent live data (hk.size ▸ size)
  | replaced replaces size =>
    obtain ⟨n, hf, -⟩ := id replaces
    rw [h.withBucket_eq (hk.live ▸ hf.live)] at replaces size
    exact .replaced replaces size
  | dropped grants found mem live data size =>
    have hmem := mem
    rw [hk.live] at hmem
    rw [h.withBucket_eq hmem] at found mem live data size
    exact .dropped grants found mem live data size

/-- **`_insert`** returns and keeps the invariant whatever the allocator answers, and ends in one of
the ways an insertion can. -/
theorem Sound.insertImpl_inserted (h : s.Sound)
    (hfresh : ∀ a, g.node = some a → a ∉ s.nodes.live) (o : Ops T) (x : T) (force : Bool) :
    ∃ s' r, insertImpl o s x force g = .ok (s', r) ∧ s'.Sound ∧
      (s.buckets.length ≠ 0 ∨ r = true → s'.buckets.length ≠ 0) ∧ Inserted o g s x s' r ∧
      (r = false → (s'.nodes.live = s.nodes.live ↔ s.get o x = .ok none)) := by
  rw [HashSet.insertImpl]
  split
  · rename_i hc
    refine ⟨s, false, rfl, h, fun h' => ?_, .refused (fun hall => ?_) (fun n hn => ?_) rfl
      (fun _ _ => rfl) rfl, fun _ => iff_of_true rfl (if_pos hc.1)⟩
    · rcases h' with h' | h'
      · exact h'
      · cases h'
    · rw [hall.1] at hc
      cases hc.2
    · rw [h.empty hc.1] at hn
      cases hn
  · obtain ⟨hS, h0, hk⟩ := h.withBucket
    obtain ⟨s', r, hrun, hS', hlen, hins, hkept⟩ := hS.insertIn h0 (hk.live ▸ hfresh) o x force
    refine ⟨s', r, hrun, hS', fun _ => hlen, h.inserted_of_withBucket hins, fun hr => ?_⟩
    rw [← hk.live, hkept hr, get_withBucket]

/-- If everything is granted, `x` replaces the element equal to it or is added. -/
theorem Sound.insertImpl (h : s.Sound)
    (hfresh : ∀ a, g.node = some a → a ∉ s.nodes.live) (o : Ops T)
    (x : T) (force : Bool) :
    ∃ s' r, insertImpl o s x force g = .ok (s', r) ∧ s'.Sound ∧
      (s.buckets.length ≠ 0 ∨ r = true → s'.buckets.length ≠ 0) ∧
      ∀ a, g = ⟨true, some a, true⟩ →
        r = true ∧ s'.size = s.size + 1 ∧ (Replaces o s x s' ∨ Adds o s x a s') := by
  obtain ⟨s', r, hrun, hS, hlen, hins, -⟩ := h.insertImpl_inserted hfresh o x force
  refine ⟨s', r, hrun, hS, hlen, fun a hg => ?_⟩
  have hall : g.All := hg ▸ ⟨rfl, nofun, rfl⟩
  cases hins with
  | added node adds size =>
    obtain rfl := Option.some.inj (node.symm.trans (congrArg Grants.node hg))
    exact ⟨rfl, size, .inr adds⟩
  | refused grants => exact absurd hall grants
  | replaced replaces size => exact ⟨rfl, size, .inl replaces⟩
  | dropped grants => exact absurd hall grants

/-! ## Runs -/

/-- A call, with what the allocator answers during it. -/
inductive Call (T : Type)
  | insert (x : T) (g : Grants)
  | insertWithoutResizeBuckets (x : T) (g : Grants)
  | remove (x : T)

/-- The set after a call, and whether the call reports an insertion. -/
def Call.exec (o : Ops T) (s : HashSet T) : Call T → Except Fault (HashSet T × Bool)
  | insert x g => s.insert o x g
  | insertWithoutResizeBuckets x g => s.insertWithoutResizeBuckets o x g
  | remove x => (s.remove o x).map (·, false)

/-- A new node is not one of those allocated. -/
def Call.Fresh (s : HashSet T) : Call T → Prop
  | insert _ g => ∀ a, g.node = some a → a ∉ s.nodes.live
  | insertWithoutResizeBuckets _ g => ∀ a, g.node = some a → a ∉ s.nodes.live
  | remove _ => True

/-- One call and its answer. -/
def Step (o : Ops T) (s : HashSet T) (c : Call T × Bool) (s' : HashSet T) : Prop :=
  c.1.Fresh s ∧ c.1.exec o s = .ok (s', c.2)

/-- Every call returns, keeps the invariant, and keeps a bucket once there is one. -/
theorem Sound.exec (h : s.Sound) (o : Ops T) {c : Call T} (hc : c.Fresh s) :
    ∃ s' r, c.exec o s = .ok (s', r) ∧ s'.Sound ∧
      (s.buckets.length ≠ 0 ∨ r = true → s'.buckets.length ≠ 0) := by
  cases c with
  | insert x g =>
    obtain ⟨s', r, hrun, hS, hlen, -⟩ := h.insertImpl hc o x true
    exact ⟨s', r, hrun, hS, hlen⟩
  | insertWithoutResizeBuckets x g =>
    obtain ⟨s', r, hrun, hS, hlen, -⟩ := h.insertImpl hc o x false
    exact ⟨s', r, hrun, hS, hlen⟩
  | remove x =>
    obtain ⟨s', hrun, hS, hlen, -⟩ := h.remove o x
    refine ⟨s', false, by rw [Call.exec, hrun]; rfl, hS, fun h' => ?_⟩
    rcases h' with h' | h'
    · rwa [hlen]
    · cases h'

theorem Sound.of_run {cs : List (Call T × Bool)} (h : s.Sound) (hrun : Run (Step o) s cs s') :
    s'.Sound ∧ (s.buckets.length ≠ 0 ∨ (∃ c ∈ cs, c.2 = true) → s'.buckets.length ≠ 0) := by
  induction hrun with
  | nil s => exact ⟨h, fun h' => h'.elim id fun ⟨c, hc, _⟩ => nomatch hc⟩
  | cons hstep _ ih =>
    obtain ⟨hfresh, hexec⟩ := hstep
    obtain ⟨t, r, ht, hS, hlen⟩ := h.exec o hfresh
    obtain ⟨rfl, rfl⟩ := ok_mk_inj (ht.symm.trans hexec)
    obtain ⟨hS', hlen'⟩ := ih hS
    refine ⟨hS', fun h' => hlen' ?_⟩
    rcases h' with h' | ⟨c, hc, hr⟩
    · exact .inl (hlen (.inl h'))
    · rcases mem_cons.mp hc with rfl | hc
      · exact .inl (hlen (.inr hr))
      · exact .inr ⟨c, hc, hr⟩

/-- Every element is in the bucket of its hash code, and each bucket reads backwards as the reverse
of what it reads forwards. -/
def Placed (s : HashSet T) : Prop :=
  ∀ i b, s.buckets[i]? = some b →
    walk s.nodes.prev b.length b.last = (walk s.nodes.next b.length b.first).reverse ∧
      ∀ n ∈ walk s.nodes.next b.length b.first,
        (s.nodes.data n).hashCode % s.buckets.length = i

/-- The elements, bucket by bucket. -/
def elements (s : HashSet T) : List (Element T) :=
  (s.buckets.flatMap (nodesOf s.nodes)).map s.nodes.data

theorem Sound.placed (h : s.Sound) : s.Placed := fun i b hb => by
  obtain ⟨hL, hmem⟩ := h.filed i b hb
  refine ⟨?_, fun n hn => ((hmem n).mp hn).2⟩
  rw [hL.last]
  exact hL.chain.walk_prev hL.length.ge

/-- **The hash set over any run**, whatever the hash function and the allocator's answers: every
call returns; after it every element is in the bucket of its hash code, each bucket is linked both
ways, and there is a bucket once an insertion was reported.  Resizing the buckets of a sound set, as
every insertion has it before it resizes, neither loses nor duplicates an element. -/
theorem placed_of_run (o : Ops T) {prev next : ℕ → Option ℕ} {data : ℕ → Element T}
    {cs : List (Call T × Bool)} (h : Run (Step o) (new prev next data) cs s) :
    s.Sound ∧ s.Placed ∧ ((∃ c ∈ cs, c.2 = true) → s.buckets.length ≠ 0) ∧
      (∀ c : Call T, c.Fresh s → ∃ s' r, c.exec o s = .ok (s', r)) ∧
      ∀ t : HashSet T, t.Sound → ∀ newSize, newSize ≠ 0 →
        ∃ t', t.resizeBuckets newSize true = .ok (some t') ∧ t'.Placed ∧
          t'.buckets.length = newSize ∧ t'.elements.Perm t.elements := by
  obtain ⟨hS, hlen⟩ := (sound_new prev next data).of_run h
  refine ⟨hS, hS.placed, fun h' => hlen (.inr h'), fun c hc => ?_, fun t ht k hk => ?_⟩
  · obtain ⟨s', r, hexec, -⟩ := hS.exec o hc
    exact ⟨s', r, hexec⟩
  · obtain ⟨t', hrun, ht', hlen', hkeep⟩ := ht.resizeBuckets hk
    refine ⟨t', hrun, ht'.placed, hlen', ?_⟩
    rw [elements, hkeep.data]
    exact ((ht'.perm.trans (hkeep.live ▸ List.Perm.refl _)).trans ht.perm.symm).map _

/-- **A refused insertion** leaves the elements and the count as they were exactly if no equal
element was there: an element that replaced one stays, and the first of its bucket is dropped. -/
theorem insert_refused_iff (o : Ops T) (h : s.Sound)
    (hfresh : ∀ a, g.node = some a → a ∉ s.nodes.live)
    (hrun : s.insert o x g = .ok (s', false)) :
    s'.elements.Perm s.elements ∧ s'.size = s.size ↔ s.contains o x = .ok false := by
  obtain ⟨t, r, ht, hS, -, hins, hkept⟩ := h.insertImpl_inserted hfresh o x true
  obtain ⟨rfl, rfl⟩ := ok_mk_inj (ht.symm.trans hrun)
  have hperm : ∀ {t : HashSet T}, t.Sound → t.elements.Perm (t.nodes.live.map t.nodes.data) :=
    fun ht => ht.perm.map _
  have hcontains : s.contains o x = .ok false ↔ s.get o x = .ok none := by
    rw [contains, map_eq_ok_iff]
    simp
  rw [hcontains, ← hkept rfl]
  cases hins with
  | refused grants absent live data size =>
    refine iff_of_true ⟨(hperm hS).trans (.trans ?_ (hperm h).symm), size⟩ live
    rw [live, map_congr_left data]
  | dropped grants found mem live data size =>
    have hlen := length_erase_add_one mem
    rw [← live] at hlen
    refine iff_of_false (fun hkeep => ?_) fun e => by rw [e] at hlen; omega
    have := ((hperm hS).symm.trans (hkeep.1.trans (hperm h))).length_eq
    simp only [length_map] at this
    omega

/-- Numbers, each its own hash code. -/
def natOps : Ops ℕ := ⟨(· == ·), id, true, id⟩

def noNumbers : HashSet ℕ := new (fun _ => none) (fun _ => none) fun _ => ⟨0, 0⟩

/-- Three numbers, and a fourth that is taken out again when the second bucket is refused. -/
theorem insert_refused_fourth : ∃ s s', Run (Step natOps) noNumbers
        ([1, 2, 3].map fun k => (.insert k ⟨true, some k, true⟩, true)) s ∧
      s.elements.map Element.data = [3, 2, 1] ∧
      s.insert natOps 4 ⟨true, some 4, false⟩ = .ok (s', false) ∧
      s'.elements.Perm s.elements ∧ s'.size = s.size := by
  have hrun : ∃ s s', Run (Step natOps) noNumbers
      ([1, 2, 3].map fun k => (.insert k ⟨true, some k, true⟩, true)) s ∧
      s.elements.map Element.data = [3, 2, 1] ∧ 4 ∉ s.nodes.live ∧
      s.insert natOps 4 ⟨true, some 4, false⟩ = .ok (s', false) ∧
      s.contains natOps 4 = .ok false :=
    ⟨_, _, .cons ⟨by rintro a ⟨⟩; decide, rfl⟩ (.cons ⟨by rintro a ⟨⟩; decide, rfl⟩
      (.cons ⟨by rintro a ⟨⟩; decide, rfl⟩ (.nil _))), by decide, by decide, rfl, rfl⟩
  obtain ⟨s, s', hrun, hs, hfresh, hins, habsent⟩ := hrun
  refine ⟨s, s', hrun, hs, hins, (insert_refused_iff natOps ((sound_new ..).of_run hrun).1 ?_
    hins).mpr habsent⟩
  rintro a ⟨⟩
  exact hfresh

/-- Three numbers, one of them inserted again when the second bucket is refused: it is lost. -/
theorem insert_refused_loses : ∃ s s', Run (Step natOps) noNumbers
        ([1, 2, 3].map fun k => (.insert k ⟨true, some k, true⟩, true)) s ∧
      s.elements.map Element.data = [3, 2, 1] ∧
      s.insert natOps 3 ⟨true, none, false⟩ = .ok (s', false) ∧
      s'.elements.map Element.data = [2, 1] :=
  ⟨_, _, .cons ⟨by rintro a ⟨⟩; decide, rfl⟩ (.cons ⟨by rintro a ⟨⟩; decide, rfl⟩
    (.cons ⟨by rintro a ⟨⟩; decide, rfl⟩ (.nil _))), by decide, rfl, by decide⟩

/-- Four insertions, the last of which doubles the buckets: `1` and `3` end up in one of them. -/
theorem placed_fourInsertions :
    ∃ s, Run (Step natOps) (new (fun _ => none) (fun _ => none) fun _ => ⟨0, 0⟩)
        ([1, 2, 3, 4].map fun k => (.insert k ⟨true, some k, true⟩, true)) s ∧
      s.buckets.map (nodesOf s.nodes) = [[2, 4], [1, 3]] ∧ s.Placed ∧ s.buckets.length ≠ 0 := by
  have hrun : ∃ s, Run (Step natOps) (new (fun _ => none) (fun _ => none) fun _ => ⟨0, 0⟩)
      ([1, 2, 3, 4].map fun k => (.insert k ⟨true, some k, true⟩, true)) s ∧
      s.buckets.map (nodesOf s.nodes) = [[2, 4], [1, 3]] :=
    ⟨_, .cons ⟨by rintro a ⟨⟩; decide, rfl⟩ (.cons ⟨by rintro a ⟨⟩; decide, rfl⟩
      (.cons ⟨by rintro a ⟨⟩; decide, rfl⟩
        (.cons ⟨by rintro a ⟨⟩; decide, rfl⟩ (.nil _)))), by decide⟩
  obtain ⟨s, hrun, hs⟩ := hrun
  obtain ⟨-, hP, hlen, -⟩ := placed_of_run natOps hrun
  exact ⟨s, hrun, hs, hP, hlen ⟨_, mem_cons_self, rfl⟩⟩

end HashSet

end Pbos.Kfxx
