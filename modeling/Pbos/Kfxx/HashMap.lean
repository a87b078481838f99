import Pbos.Kfxx.HashSetRuns

/-!
# Kfxx/HashMap — the hash map against a finite map

`kfxx::HashMap` is a hash set of pairs, compared and hashed by their keys.  A pair has no move
assignment, so inserting a key that is present leaves the old pair in place, rebuilt from itself,
and counts it once more; and `clear` leaves the count as it is.

`Agrees s m` is what every call keeps: the keys stored are those of the finite map `m`.  The count
and the values agree exactly as long as no key is inserted twice and nothing is cleared away
(`refines_iff`).
-/

namespace Pbos.Kfxx

open HashSet List

variable {K V : Type} {v : Option V} {n a : ℕ}

/-- `Pair`; the value of a `QueryPair` is not constructed. -/
structure Pair (K V : Type) where
  key : K
  value : Option V

/-- `PairCmp` and `PairHasher`.  `rebuild v` is what is left of a value that is destroyed and then
constructed from itself; the key stays. -/
def pairOps [BEq K] (hash : K → ℕ) (rebuild : V → V) : Ops (Pair K V) where
  eq p q := p.key == q.key
  hash p := hash p.key
  moveAssignable := false
  rebuild p := { p with value := p.value.map rebuild }

/-- A map is its set of pairs. -/
abbrev HashMap (K V : Type) := HashSet (Pair K V)

namespace HashMap

variable [BEq K] (hash : K → ℕ) (rebuild : V → V) (s : HashMap K V)

/-- `insert(key, value)`. -/
def insert (k : K) (v : V) (g : Grants) : Except Fault (HashMap K V × Bool) :=
  HashSet.insert (pairOps hash rebuild) s ⟨k, some v⟩ g

/-- `remove(key)`. -/
def remove (k : K) : Except Fault (HashMap K V) :=
  HashSet.remove (pairOps hash rebuild) s ⟨k, none⟩

/-- `contains(key)`. -/
def contains (k : K) : Except Fault Bool :=
  HashSet.contains (pairOps hash rebuild) s ⟨k, none⟩

/-- `find(key)`: the value the iterator refers to, and none at `end()`. -/
def find (k : K) : Except Fault (Option V) :=
  (HashSet.get (pairOps hash rebuild) s ⟨k, none⟩).map fun it =>
    it.bind fun n => (s.nodes.data n).data.value

/-! ## The finite map -/

/-- A call; an insertion names the node the allocator gives it. -/
inductive Call (K V : Type)
  | insert (k : K) (v : V) (node : ℕ)
  | remove (k : K)
  | clear

/-- A call on the finite map. -/
def Call.apply (m : K → Option V) : Call K V → K → Option V
  | insert k v _ => fun j => if j == k then some v else m j
  | remove k => fun j => if j == k then none else m j
  | clear => fun _ => none

/-- **What is present after some calls**: under each key the value of its last insertion, unless it
was removed or everything was cleared since. -/
def present (cs : List (Call K V)) : K → Option V := cs.foldl Call.apply fun _ => none

/-- A call on the hash map, every allocation granted. -/
def Call.exec : Call K V → Except Fault (HashMap K V)
  | insert k v a => (HashMap.insert hash rebuild s k v ⟨true, some a, true⟩).map Prod.fst
  | remove k => HashMap.remove hash rebuild s k
  | clear => HashSet.clear s

omit [BEq K] in
/-- A new node is not one of those allocated. -/
def Call.Fresh : Call K V → Prop
  | insert _ _ a => a ∉ s.nodes.live
  | _ => True

omit [BEq K] in
instance (s : HashMap K V) : (c : Call K V) → Decidable (c.Fresh s)
  | .insert _ _ a => inferInstanceAs (Decidable (a ∉ s.nodes.live))
  | .remove _ => .isTrue trivial
  | .clear => .isTrue trivial

def Step (c : Call K V) (s' : HashMap K V) : Prop :=
  c.Fresh s ∧ c.exec hash rebuild s = .ok s'

/-- The hash map answers as the finite map `m`. -/
structure Refines (s : HashMap K V) (m : K → Option V) : Prop where
  find : ∀ k, find hash rebuild s k = .ok (m k)
  contains : ∀ k, contains hash rebuild s k = .ok (m k).isSome
  size : (s.size : ℕ∞) = {k | m k ≠ none}.encard

/-- The call inserts a key that is not present, or clears a map that is empty. -/
def Call.Fits (m : K → Option V) : Call K V → Prop
  | insert k _ _ => m k = none
  | remove _ => True
  | clear => ∀ k, m k = none

/-- Each call does, on the map the ones before it make. -/
def Fit : (K → Option V) → List (Call K V) → Prop
  | _, [] => True
  | m, c :: cs => c.Fits m ∧ Fit (c.apply m) cs

/-! ## What every call keeps -/

/-- **The keys stored are those present**, each once, and the count is not below their number. -/
structure Agrees (s : HashMap K V) (m : K → Option V) : Prop where
  sound : s.Sound
  code : ∀ n ∈ s.nodes.live, (s.nodes.data n).hashCode = hash (s.nodes.data n).data.key
  inj : ∀ n ∈ s.nodes.live, ∀ n' ∈ s.nodes.live,
    (s.nodes.data n).data.key = (s.nodes.data n').data.key → n = n'
  mem : ∀ k, m k ≠ none ↔ ∃ n ∈ s.nodes.live, (s.nodes.data n).data.key = k
  count : s.nodes.live.length ≤ s.size

/-- The values are right too, and so is the count. -/
structure Exact (s : HashMap K V) (m : K → Option V) : Prop where
  value : ∀ n ∈ s.nodes.live, (s.nodes.data n).data.value = m (s.nodes.data n).data.key
  count : s.size = s.nodes.live.length

/-- More is counted than is stored. -/
def Excess : Prop := s.nodes.live.length < s.size

variable {hash rebuild} {s s' : HashMap K V} {m : K → Option V} {k : K}

omit [BEq K] in
theorem agrees_new (prev next : ℕ → Option ℕ) (data : ℕ → Element (Pair K V)) :
    Agrees hash (.new prev next data) fun _ => none :=
  ⟨sound_new prev next data, nofun, nofun, fun _ => ⟨(absurd rfl ·), fun ⟨_, h, _⟩ => nomatch h⟩,
    le_rfl⟩

omit [BEq K] in
theorem Agrees.encard (h : Agrees hash s m) :
    {k | m k ≠ none}.encard = (s.nodes.live.length : ℕ∞) := by
  classical
  have hset : {k | m k ≠ none} =
      (s.nodes.live.map fun n => (s.nodes.data n).data.key).toFinset := by
    ext k
    simpa using h.mem k
  have hnd : (s.nodes.live.map fun n => (s.nodes.data n).data.key).Nodup :=
    h.sound.nodup.map_on h.inj
  rw [hset, Set.encard_coe_eq_coe_finsetCard, List.toFinset_card_of_nodup hnd, length_map]

variable [LawfulBEq K]

/-- Not found means not present. -/
theorem Agrees.of_absent (h : Agrees hash s m) (habs : Absent (pairOps hash rebuild) s ⟨k, v⟩) :
    m k = none := by
  by_contra hk
  obtain ⟨n, hn, rfl⟩ := (h.mem k).mp hk
  have := habs n hn (h.code n hn)
  simp [pairOps] at this

/-- Found means the key is there. -/
theorem key_of_found {t : HashMap K V} (h : Found (pairOps hash rebuild) t ⟨k, v⟩ n) :
    (t.nodes.data n).data.key = k :=
  beq_iff_eq.mp h.eq

omit [BEq K] [LawfulBEq K] in
theorem Excess.of_lt {b : ℕ} (hlive : s'.nodes.live.length = a) (hsize : s'.size = b)
    (h : a < b) :
    Excess s' := by
  rw [Excess, hlive, hsize]
  exact h

section

variable (h : Agrees hash s m)

include h

/-- **A new key**: the pair is stored and counted. -/
theorem Agrees.adds {v : V} (ha : a ∉ s.nodes.live) (hS : s'.Sound)
    (hsize : s'.size = s.size + 1) (hadd : Adds (pairOps hash rebuild) s ⟨k, some v⟩ a s') :
    m k = none ∧ Agrees hash s' ((Call.insert k v a).apply m) ∧
      (Exact s m → Exact s' ((Call.insert k v a).apply m)) ∧ (Excess s → Excess s') := by
  obtain ⟨habs, hlive, hdata⟩ := hadd
  have hk := h.of_absent habs
  have hlen : s'.nodes.live.length = s.nodes.live.length + 1 := by rw [hlive, length_cons]
  have hself : s'.nodes.data a = ⟨⟨k, some v⟩, hash k⟩ := by rw [hdata, Function.update_self]; rfl
  have hother : ∀ n ∈ s.nodes.live, s'.nodes.data n = s.nodes.data n := fun n hn => by
    rw [hdata, Function.update_of_ne fun e : n = a => ha (e ▸ hn)]
  have hkey : ∀ n ∈ s.nodes.live, (s.nodes.data n).data.key ≠ k := fun n hn e =>
    (h.mem k).mpr ⟨n, hn, e⟩ hk
  refine ⟨hk, ⟨hS, fun n hn => ?_, fun n hn n' hn' e => ?_, fun j => ?_, ?_⟩,
    fun hE => ⟨fun n hn => ?_,
    ?_⟩, fun hex => .of_lt hlen hsize (Nat.succ_lt_succ hex)⟩
  · rw [hlive] at hn
    rcases mem_cons.mp hn with rfl | hn
    · rw [hself]
    · rw [hother n hn]
      exact h.code n hn
  · rw [hlive] at hn hn'
    rcases mem_cons.mp hn with rfl | h1 <;> rcases mem_cons.mp hn' with rfl | h2
    · rfl
    · rw [hself, hother n' h2] at e
      exact absurd e.symm (hkey n' h2)
    · rw [hself, hother n h1] at e
      exact absurd e (hkey n h1)
    · rw [hother n h1, hother n' h2] at e
      exact h.inj n h1 n' h2 e
  · rw [hlive]
    by_cases hj : j = k
    · subst hj
      simp only [Call.apply, beq_self_eq_true]
      exact ⟨fun _ => ⟨a, mem_cons_self, by rw [hself]⟩, fun _ => nofun⟩
    · simp only [Call.apply, beq_eq_false_iff_ne.mpr hj, Bool.false_eq_true, if_false]
      rw [h.mem j]
      constructor
      · rintro ⟨n, hn, e⟩
        exact ⟨n, mem_cons_of_mem _ hn, by rw [hother n hn, e]⟩
      · rintro ⟨n, hn, e⟩
        rcases mem_cons.mp hn with rfl | hn
        · rw [hself] at e
          exact absurd e.symm hj
        · exact ⟨n, hn, by rw [← hother n hn, e]⟩
  · rw [hlen, hsize]
    exact Nat.succ_le_succ h.count
  · rw [hlive] at hn
    rcases mem_cons.mp hn with rfl | hn
    · simp [hself, Call.apply]
    · rw [hother n hn]
      simp only [Call.apply, beq_eq_false_iff_ne.mpr (hkey n hn)]
      exact hE.value n hn
  · rw [hsize, hE.count, hlen]

/-- **A key already present**: its old value stays, and it is counted again. -/
theorem Agrees.replaces {v : V} (hS : s'.Sound) (hsize : s'.size = s.size + 1)
    (hrep : Replaces (pairOps hash rebuild) s ⟨k, some v⟩ s') :
    m k ≠ none ∧ Agrees hash s' ((Call.insert k v a).apply m) ∧ Excess s' := by
  obtain ⟨n, hf, hlive, hdata⟩ := hrep
  have hk : m k ≠ none := (h.mem k).mpr ⟨n, hf.live, key_of_found hf⟩
  have hsame : ∀ j, (s'.nodes.data j).data.key = (s.nodes.data j).data.key ∧
      (s'.nodes.data j).hashCode = (s.nodes.data j).hashCode := fun j => by
    rw [hdata, Function.update_apply]
    split
    · rename_i e
      subst e
      exact ⟨rfl, rfl⟩
    · exact ⟨rfl, rfl⟩
  refine ⟨hk, ⟨hS, fun j hj => ?_, fun j hj j' hj' e => ?_, fun j => ?_, ?_⟩,
    .of_lt (congrArg List.length hlive) hsize (Nat.lt_succ_of_le h.count)⟩
  · rw [(hsame j).1, (hsame j).2]
    exact h.code j (hlive ▸ hj)
  · rw [(hsame j).1, (hsame j').1] at e
    exact h.inj j (hlive ▸ hj) j' (hlive ▸ hj') e
  · simp only [hlive, (hsame _).1, ← h.mem j]
    by_cases hj : j = k
    · subst hj
      simp [Call.apply, hk]
    · simp [Call.apply, hj]
  · rw [hlive, hsize]
    exact Nat.le_succ_of_le h.count

omit [BEq K] [LawfulBEq K] in
/-- **Nothing stored**: the same nodes hold the same pairs. -/
theorem Agrees.congr (hS : s'.Sound) (hlive : s'.nodes.live = s.nodes.live)
    (hdata : ∀ n ∈ s.nodes.live, s'.nodes.data n = s.nodes.data n) (hsize : s'.size = s.size) :
    Agrees hash s' m ∧ (Exact s m → Exact s' m) := by
  refine ⟨⟨hS, fun n hn => ?_, fun n hn n' hn' e => ?_, fun j => ?_, ?_⟩,
    fun hE => ⟨fun n hn => ?_, ?_⟩⟩
  · rw [hlive] at hn
    rw [hdata n hn]
    exact h.code n hn
  · rw [hlive] at hn hn'
    rw [hdata n hn, hdata n' hn'] at e
    exact h.inj n hn n' hn' e
  · rw [h.mem j, hlive]
    exact exists_congr fun n => and_congr_right fun hn => by rw [hdata n hn]
  · rw [hlive, hsize]
    exact h.count
  · rw [hlive] at hn
    rw [hdata n hn]
    exact hE.value n hn
  · rw [hlive, hsize]
    exact hE.count

/-- **A key that is removed** takes its pair and one of the count along. -/
theorem Agrees.removes (hS : s'.Sound) (hn : n ∈ s.nodes.live)
    (hkey : (s.nodes.data n).data.key = k) (hlive : s'.nodes.live = s.nodes.live.erase n)
    (hdata : s'.nodes.data = s.nodes.data) (hsize : s'.size = s.size - 1) :
    Agrees hash s' ((Call.remove k).apply m) ∧
      (Exact s m → Exact s' ((Call.remove k).apply m)) ∧ (Excess s → Excess s') := by
  have hmem : ∀ j, j ∈ s'.nodes.live ↔ j ≠ n ∧ j ∈ s.nodes.live := fun j => by
    rw [hlive, h.sound.nodup.mem_erase_iff]
  have hlen : s'.nodes.live.length = s.nodes.live.length - 1 := by
    rw [hlive, length_erase_of_mem hn]
  have hpos : 0 < s.nodes.live.length := length_pos_of_mem hn
  have hcount := h.count
  have hne : ∀ j ∈ s'.nodes.live, (s.nodes.data j).data.key ≠ k := fun j hj e => by
    obtain ⟨hjn, hj⟩ := (hmem j).mp hj
    exact hjn (h.inj j hj n hn (e.trans hkey.symm))
  refine ⟨⟨hS, fun j hj => ?_, fun j hj j' hj' e => ?_, fun j => ?_, ?_⟩,
    fun hE => ⟨fun j hj => ?_, ?_⟩,
    fun hex => .of_lt hlen hsize ?_⟩
  · rw [hdata]
    exact h.code j ((hmem j).mp hj).2
  · rw [hdata] at e
    exact h.inj j ((hmem j).mp hj).2 j' ((hmem j').mp hj').2 e
  · rw [hdata]
    by_cases hj : j = k
    · subst hj
      simp only [Call.apply, beq_self_eq_true, if_true, ne_eq, not_true_eq_false, false_iff]
      rintro ⟨j', hj', e⟩
      exact hne j' hj' e
    · simp only [Call.apply, beq_eq_false_iff_ne.mpr hj, Bool.false_eq_true, if_false]
      rw [h.mem j]
      constructor
      · rintro ⟨j', hj', e⟩
        exact ⟨j', (hmem j').mpr ⟨fun e' => hj (e.symm.trans (e' ▸ hkey)), hj'⟩, e⟩
      · rintro ⟨j', hj', e⟩
        exact ⟨j', ((hmem j').mp hj').2, e⟩
  · omega
  · rw [hdata]
    simp only [Call.apply, beq_eq_false_iff_ne.mpr (hne j hj)]
    exact hE.value j ((hmem j).mp hj).2
  · rw [hsize, hE.count, hlen]
  · rw [Excess] at hex
    omega

/-- **One call**: it returns, the keys agree afterwards, and the values and the count stay right
exactly if it fits. -/
theorem Agrees.exec (rebuild : V → V) {c : Call K V} (hc : c.Fresh s) :
    ∃ s', c.exec hash rebuild s = .ok s' ∧ Agrees hash s' (c.apply m) ∧
      (Exact s m → c.Fits m → Exact s' (c.apply m)) ∧ (Excess s ∨ ¬ c.Fits m → Excess s') := by
  cases c with
  | insert k v a =>
    obtain ⟨s', r, hrun, hS, -, hgr⟩ := h.sound.insertImpl (g := ⟨true, some a, true⟩)
      (fun _ e => Option.some.inj e ▸ hc) (pairOps hash rebuild) ⟨k, some v⟩ true
    obtain ⟨-, hsize, hrep | hadd⟩ := hgr a rfl
    · obtain ⟨hk, hA, hex⟩ := h.replaces hS hsize hrep
      exact ⟨s', by simp only [Call.exec, insert, HashSet.insert, hrun]; rfl, hA,
        fun _ hfit => absurd hfit hk, fun _ => hex⟩
    · obtain ⟨hk, hA, hE, hex⟩ := h.adds hc hS hsize hadd
      exact ⟨s', by simp only [Call.exec, insert, HashSet.insert, hrun]; rfl, hA, fun e _ => hE e,
        fun h' => h'.elim hex fun hfit => absurd hk hfit⟩
  | remove k =>
    obtain ⟨s', hrun, hS, -, ⟨rfl, habs⟩ | ⟨n, hf, hlive, hdata, hsize⟩⟩ :=
      h.sound.remove (pairOps hash rebuild) ⟨k, none⟩
    · have hm : (Call.remove k).apply m = m := funext fun j => by
        by_cases hj : j = k
        · subst hj
          simp [Call.apply, h.of_absent habs]
        · simp [Call.apply, hj]
      rw [hm]
      exact ⟨s', hrun, h, fun e _ => e, fun h' => h'.elim id fun hfit => absurd trivial hfit⟩
    · obtain ⟨hA, hE, hex⟩ := h.removes hS hf.live (key_of_found hf) hlive hdata hsize
      exact ⟨s', hrun, hA, fun e _ => hE e, fun h' => h'.elim hex fun hfit => absurd trivial hfit⟩
  | clear =>
    obtain ⟨s', hrun, hS, hlive, hsize⟩ := h.sound.clear
    have hcount := h.count
    refine ⟨s', hrun, ⟨hS, by simp [hlive], by simp [hlive], by simp [hlive, Call.apply],
      by simp [hlive]⟩, fun hE hfit => ⟨by simp [hlive], ?_⟩,
      fun h' => .of_lt (congrArg List.length hlive) hsize ?_⟩
    · have hnil : s.nodes.live = [] := eq_nil_iff_forall_not_mem.mpr fun n hn =>
        (h.mem _).mpr ⟨n, hn, rfl⟩ (hfit _)
      rw [hsize, hE.count, hlive, hnil]
    · rcases h' with hex | hfit
      · exact Nat.zero_lt_of_lt hex
      · obtain ⟨k, hk⟩ := not_forall.mp hfit
        obtain ⟨n, hn, -⟩ := (h.mem k).mp hk
        exact (length_pos_of_mem hn).trans_le hcount

/-! ## Runs -/

/-- An exact map answers as the finite map. -/
theorem Agrees.refines (hE : Exact s m) (rebuild : V → V) : Refines hash rebuild s m := by
  have hget : ∀ k, find hash rebuild s k = .ok (m k) ∧
      contains hash rebuild s k = .ok (m k).isSome := fun k => by
    rw [find, contains, HashSet.contains]
    rcases h.sound.get (pairOps hash rebuild) ⟨k, none⟩ with ⟨hg, habs⟩ | ⟨n, hg, hf⟩
    · rw [hg, h.of_absent habs]
      exact ⟨rfl, rfl⟩
    · have hkey := key_of_found hf
      have hsome : m k ≠ none := (h.mem k).mpr ⟨n, hf.live, hkey⟩
      have hval := hE.value n hf.live
      rw [hkey] at hval
      rw [hg]
      exact ⟨congrArg _ hval, congrArg _ (Option.isSome_iff_ne_none.mpr hsome).symm⟩
  exact ⟨fun k => (hget k).1, fun k => (hget k).2, by rw [h.encard, hE.count]⟩

omit [LawfulBEq K] in
/-- A map that counts more than it stores does not. -/
theorem Agrees.not_refines (hex : Excess s) : ¬ Refines hash rebuild s m := fun hR => by
    have hsize := hR.size
    rw [h.encard] at hsize
    exact absurd (Nat.cast_injective hsize) hex.ne'

theorem Agrees.of_run {cs : List (Call K V)} (hrun : Run (Step hash rebuild) s cs s') :
    Agrees hash s' (cs.foldl Call.apply m) ∧
      (Exact s m → Fit m cs → Exact s' (cs.foldl Call.apply m)) ∧
      (Excess s ∨ ¬ Fit m cs → Excess s') := by
  induction hrun generalizing m with
  | nil s => exact ⟨h, fun e _ => e, fun h' => h'.elim id fun hf => absurd trivial hf⟩
  | cons hstep _ ih =>
    obtain ⟨t, ht, hA, hE, hex⟩ := h.exec rebuild hstep.1
    obtain rfl := Except.ok.inj (ht.symm.trans hstep.2)
    obtain ⟨hA', hE', hex'⟩ := ih hA
    refine ⟨hA', fun e hf => hE' (hE e hf.1) hf.2, fun h' => hex' ?_⟩
    rcases h' with h' | h'
    · exact .inl (hex (.inl h'))
    · rcases not_and_or.mp h' with h' | h'
      · exact .inl (hex (.inr h'))
      · exact .inr h'

end

/-- **The hash map against the finite map.**  After any run in which no allocation fails, the map
answers as the finite map exactly if every insertion was of a key not present and every `clear` of
an empty map; and every further call returns. -/
theorem refines_iff {prev next : ℕ → Option ℕ} {data : ℕ → Element (Pair K V)}
    {cs : List (Call K V)} (h : Run (Step hash rebuild) (.new prev next data) cs s) :
    (Refines hash rebuild s (present cs) ↔ Fit (fun _ => none) cs) ∧
      ∀ c : Call K V, c.Fresh s → ∃ s', c.exec hash rebuild s = .ok s' := by
  obtain ⟨hA, hE, hex⟩ := (agrees_new prev next data : Agrees hash _ _).of_run h
  refine ⟨⟨fun hR => ?_, fun hfit => hA.refines (hE ⟨nofun, rfl⟩ hfit) rebuild⟩, fun c hc => ?_⟩
  · by_contra hfit
    exact hA.not_refines (hex (.inr hfit)) hR
  · obtain ⟨s', hs', -⟩ := hA.exec rebuild hc
    exact ⟨s', hs'⟩

/-- Two keys, one of them removed and inserted again. -/
theorem refines_reinserted : ∃ s, Run (Step (K := ℕ) (V := ℕ) id id)
      (.new (fun _ => none) (fun _ => none) fun _ => ⟨⟨0, none⟩, 0⟩)
        [.insert 1 10 1, .insert 2 20 2, .remove 1, .insert 1 30 1] s ∧
      find id id s 1 = .ok (some 30) ∧ s.size = 2 ∧
      Refines id id s (present [.insert 1 10 1, .insert 2 20 2, .remove 1, .insert 1 30 1]) := by
  obtain ⟨s, hrun, hsize⟩ : ∃ s, Run (Step id id)
      (.new (fun _ => none) (fun _ => none) fun _ => ⟨⟨0, none⟩, 0⟩)
      [.insert 1 10 1, .insert 2 20 2, .remove 1, .insert 1 30 1] s ∧ s.size = 2 :=
    ⟨_, .cons ⟨by decide, rfl⟩ (.cons ⟨by decide, rfl⟩
      (.cons ⟨trivial, rfl⟩ (.cons ⟨by decide, rfl⟩ (.nil _)))), rfl⟩
  have hR := (refines_iff hrun).1.mpr (by simp [Fit, Call.Fits, Call.apply])
  exact ⟨s, hrun, hR.find 1, hsize, hR⟩

/-- **A key inserted twice** keeps its first value and is counted twice, and a map that is cleared
still reports what it held. -/
theorem insert_twice_and_clear : (∃ s, Run (Step (K := ℕ) (V := ℕ) id id)
        (.new (fun _ => none) (fun _ => none) fun _ => ⟨⟨0, none⟩, 0⟩)
        [.insert 1 10 1, .insert 1 20 2] s ∧
      present [.insert 1 10 1, .insert 1 20 2] 1 = some 20 ∧
      find id id s 1 = .ok (some 10) ∧ s.size = 2) ∧
    ∃ s, Run (Step (K := ℕ) (V := ℕ) id id)
        (.new (fun _ => none) (fun _ => none) fun _ => ⟨⟨0, none⟩, 0⟩) [.insert 1 10 1, .clear] s ∧
      find id id s 1 = .ok none ∧ s.size = 1 :=
  ⟨⟨_, .cons ⟨by decide, rfl⟩ (.cons ⟨by decide, rfl⟩ (.nil _)), rfl, rfl, rfl⟩,
    ⟨_, .cons ⟨by decide, rfl⟩ (.cons ⟨trivial, rfl⟩ (.nil _)), rfl, rfl⟩⟩

end HashMap

end Pbos.Kfxx
