import Pbos.Kfxx.DynArrayRuns
import Pbos.Kfxx.DynArrayShrink

/-!
# Kfxx/DynArrayShrinkCalls — which shrinking calls are right

A call conforms if it returns, leaves on success what the list operation leaves, and leaves an array
whose destruction destroys every object that is left once.  Whether it does depends on the traits of
the element type, on the distance elements are moved and on what the allocator answers
(`ShrinkCall.Fits`, `shrink_conforms_iff`); some calls run into an assertion before that
(`ShrinkCall.Asserts`).
-/

namespace Pbos.Kfxx

open List

/-- The calls that make an array smaller. -/
inductive ShrinkCall
  | eraseRange (idxStart idxEnd : ℕ)
  | eraseRangeAndShrink (idxStart idxEnd : ℕ)
  | extractRange (idxStart idxEnd : ℕ)
  | extractRangeAndShrink (idxStart idxEnd : ℕ)
  | popFront
  | popFrontAndShrink
  | popBack
  | resize (length : ℕ)
  | resizeAndShrink (length : ℕ)
  | shrinkToFit

namespace ShrinkCall

open DynArray

variable {V : Type} (c : ShrinkCall) (τ : ElemType V) (a : DynArray V) (l : List V)
  (g : ArrayGrants)

def exec : Except Fault (Bool × DynArray V) :=
  match c with
  | eraseRange i j => a.eraseRange τ i j
  | eraseRangeAndShrink i j => a.eraseRangeAndShrink τ i j g
  | extractRange i j => a.extractRange τ i j g
  | extractRangeAndShrink i j => a.extractRangeAndShrink τ i j g
  | popFront => a.popFront τ g
  | popFrontAndShrink => a.popFrontAndShrink τ g
  | popBack => a.popBack τ g
  | resize n => a.resize τ n g
  | resizeAndShrink n => a.resizeAndShrink τ n g
  | shrinkToFit => a.shrinkToFit τ g

/-- The list operation.  Nothing can be popped from an empty list. -/
def apply : ShrinkCall → List V → Option (List V)
  | eraseRange i j, l => some (l.take i ++ l.drop j)
  | eraseRangeAndShrink i j, l => some (l.take i ++ l.drop j)
  | extractRange i j, l => some ((l.take j).drop i)
  | extractRangeAndShrink i j, l => some ((l.take j).drop i)
  | popFront, [] => none
  | popFront, _ :: l => some l
  | popFrontAndShrink, [] => none
  | popFrontAndShrink, _ :: l => some l
  | popBack, [] => none
  | popBack, x :: l => some (x :: l).dropLast
  | resize n, l => some (l.take n)
  | resizeAndShrink n, l => some (l.take n)
  | shrinkToFit, l => some l

/-- The indices lie in the array, and a new length is no larger. -/
def InRange : Prop :=
  match c with
  | eraseRange i j | eraseRangeAndShrink i j | extractRange i j | extractRangeAndShrink i j =>
    i ≤ j ∧ j ≤ l.length
  | resize n | resizeAndShrink n => n ≤ l.length
  | popFront | popFrontAndShrink | popBack | shrinkToFit => True

/-- **The call is right**: it returns, the array ends well, and on success it has the contents of
the list operation. -/
def Conforms : Prop :=
  ∃ r b, c.exec τ a g = .ok (r, b) ∧ b.Clean τ ∧
    (r = true → ∃ l', c.apply l = some l' ∧ b.contents = some (l'.map .live))

/-- The call stops the kernel in an assertion of the array. -/
def Stops : Prop :=
  ∃ line, c.exec τ a g = .error (.assertion "include/pbos/kfxx/dynarray.hh" line)

/-- **When the call stops**: nothing can be erased from the end on, elements that are moved one by
one cannot stay as many in a new block, and there is no front of an empty array. -/
def Asserts : Prop :=
  match c with
  | eraseRange i _ => l.length ≤ i
  | eraseRangeAndShrink i j =>
    l.length ≤ i ∨ τ.trivMoveAssignable = false ∧ i = j ∧ g.block ≠ 0
  | popFrontAndShrink => l = []
  | _ => False

/-- **When the call is right.** -/
def Fits : Prop :=
  match c with
  | eraseRange i j =>
    τ.DownFits i j (l.length - j) ∧ (τ.trivDestructible = true ∨ j = l.length ∨ i = j)
  | eraseRangeAndShrink i j =>
    if g.block = 0 then τ.trivDestructible = true ∨ j - i ≤ l.length - j
    else τ.DownFits i j (l.length - j) ∧
      (τ.trivDestructible = true ∨ τ.trivMoveAssignable = true ∧ (j = l.length ∨ i = j))
  | extractRange i j => i = 0 ∨ τ.DownFits 0 i (j - i)
  | extractRangeAndShrink i j =>
    j - i = l.length ∨ g.block = 0 ∨
      τ.trivDestructible = true ∧ l.take (j - i) = (l.take j).drop i
  | popFront => l ≠ [] ∧ τ.DownFits 0 1 (l.length - 1)
  | popFrontAndShrink =>
    τ.trivDestructible = true ∧ (g.block = 0 ∨ τ.DownFits 0 1 (l.length - 1))
  | popBack => l ≠ []
  | resize _ => True
  | resizeAndShrink n => n = l.length ∨ g.block = 0 ∨ τ.trivDestructible = true
  | shrinkToFit => True

/-! ## Judging a call by how it ends -/

/-- The call is right exactly under `F`, and after a success under `F` the array is tidy again. -/
def Exactly (F : Prop) : Prop :=
  (c.Conforms τ a l g ↔ F) ∧
    (F → ∀ b, c.exec τ a g = .ok (true, b) → ∃ l', c.apply l = some l' ∧ Tidy τ b l')

variable {c} {τ} {a b : DynArray V} {l l' : List V} {g} {F : Prop} {i j n : ℕ}

theorem exactly_of_true (hrun : c.exec τ a g = .ok (true, b)) (hb : Boxed τ b)
    (happ : c.apply l = some l') (hF : Tidy τ b l' ↔ F) : c.Exactly τ a l g F := by
  refine ⟨⟨fun ⟨r, b', hrun', hclean, hc⟩ => ?_, fun h => ?_⟩, fun h b' hrun' => ?_⟩
  · obtain ⟨rfl, rfl⟩ := ok_mk_inj (hrun'.symm.trans hrun)
    obtain ⟨l'', hl'', hc⟩ := hc rfl
    obtain rfl := Option.some.inj (hl''.symm.trans happ)
    exact hF.mp (hb.tidy_iff.mpr ⟨hc, hclean⟩)
  · obtain ⟨hc, hclean⟩ := hb.tidy_iff.mp (hF.mpr h)
    exact ⟨true, b, hrun, hclean, fun _ => ⟨l', happ, hc⟩⟩
  · obtain ⟨-, rfl⟩ := ok_mk_inj (hrun'.symm.trans hrun)
    exact ⟨l', happ, hF.mpr h⟩

theorem exactly_of_false (hrun : c.exec τ a g = .ok (false, b)) (hF : b.Clean τ ↔ F) :
    c.Exactly τ a l g F := by
  refine ⟨⟨?_, fun h => ⟨false, b, hrun, hF.mpr h, by simp⟩⟩, fun _ b' hrun' => ?_⟩
  · rintro ⟨r, b', hrun', hclean, -⟩
    obtain ⟨-, rfl⟩ := ok_mk_inj (hrun'.symm.trans hrun)
    exact hF.mp hclean
  · have := (ok_mk_inj (hrun'.symm.trans hrun)).1
    cases this

theorem exactly_of_fault (hrun : ∀ r, c.exec τ a g ≠ .ok r) (hF : ¬ F) : c.Exactly τ a l g F :=
  ⟨⟨fun ⟨_, _, hrun', _⟩ => absurd hrun' (hrun _), fun h => absurd h hF⟩, fun h => absurd h hF⟩

/-- A call that always answers true, where there is no list operation. -/
theorem exactly_of_none (happ : c.apply l = none)
    (hans : ∀ r b, c.exec τ a g = .ok (r, b) → r = true) (hF : ¬ F) : c.Exactly τ a l g F := by
  refine ⟨⟨fun ⟨r, b, hrun, _, hc⟩ => ?_, fun h => absurd h hF⟩, fun h => absurd h hF⟩
  obtain ⟨l', hl', -⟩ := hc (hans r b hrun)
  rw [happ] at hl'
  cases hl'

/-! ## The calls, one by one -/

theorem freshBlock_update {m : Mem V} (hfresh : FreshBlock τ a g) (hsize : m.size = a.mem.size) :
    FreshBlock τ { a with mem := m } g := fun hg => by
  rw [hsize]
  exact hfresh hg

theorem data_ne_of_length (h : Tidy τ a l) (hl : 0 < l.length) : a.data ≠ 0 :=
  h.data_ne (by have := h.le; have := h.length; omega)

/-- What is left beyond the new length after erasing. -/
theorem rest_iff_of_erased {m : Mem V} (h : Tidy τ a l) (hE : Erased τ a l i j m) :
    (τ.trivDestructible = true ∨ ∀ k, l.length - (j - i) ≤ k → k < a.capacity →
      m.cell (a.data, k) = .raw) ↔ τ.trivDestructible = true ∨ j = l.length ∨ i = j := by
  cases hdd : τ.trivDestructible with
  | true => exact ⟨fun _ => .inl rfl, fun _ => .inl rfl⟩
  | false =>
    have hle := h.le
    have hlen := h.length
    refine or_congr_right (Iff.trans ⟨fun hr k hk hkl => hr k hk (by omega), fun hr k hk hkc => ?_⟩
      (hE.left_iff hdd))
    by_cases hkl : k < l.length
    · exact hr k hk hkl
    · rw [hE.above k (by omega)]
      exact h.rest hdd k (by omega) hkc

theorem length_erased (hij : i ≤ j) (hj : j ≤ l.length) :
    (l.take i ++ l.drop j).length = l.length - (j - i) := by
  simp only [length_append, length_take, length_drop]
  omega

theorem eraseRange_exactly (h : Tidy τ a l) (hi : i < l.length) (hij : i ≤ j)
    (hj : j ≤ l.length) : (eraseRange i j).Exactly τ a l g ((eraseRange i j).Fits τ l g) := by
  obtain ⟨m, hm, hE⟩ := h.erased hi hij hj
  have hlen := h.length
  have hbox : Boxed τ { a with length := a.length - (j - i), mem := m } :=
    h.toBoxed.update hE.size (Nat.le_trans (Nat.sub_le ..) h.le)
  refine exactly_of_true ?_ hbox rfl (Iff.trans ?_
    (and_congr hE.shows_iff (rest_iff_of_erased h hE)))
  · rw [exec, DynArray.eraseRange, arrayAssert, arrayAssert, kdAssert_of_pos (by omega),
      kdAssert_of_pos (by omega)]
    simp only [bind, Except.bind, hm]
  · refine ⟨fun ht => ⟨ht.shows, ?_⟩, fun hfits => ⟨hbox, ?_, hfits.1, fun hdd k hk hkc => ?_,
      hE.leak.trans h.leak⟩⟩
    · cases hdd : τ.trivDestructible with
      | true => exact .inl rfl
      | false => exact .inr fun k hk hkc => ht.rest hdd k (by simp only; omega) hkc
    · rw [length_erased hij hj, ← hlen]
    · exact hfits.2.resolve_left (by simp [hdd]) k (by simp only at hk; omega) hkc

theorem eraseRangeAndShrink_exactly (h : Tidy τ a l) (hfresh : FreshBlock τ a g)
    (hi : i < l.length) (hij : i ≤ j) (hj : j ≤ l.length)
    (hA : ¬ (τ.trivMoveAssignable = false ∧ i = j ∧ g.block ≠ 0)) :
    (eraseRangeAndShrink i j).Exactly τ a l g ((eraseRangeAndShrink i j).Fits τ l g) := by
  obtain ⟨m, hm, hE⟩ := h.erased hi hij hj
  have hlen := h.length
  have hd : a.data ≠ 0 := data_ne_of_length h (by omega)
  have hbox : Boxed τ { a with mem := m } := h.toBoxed.update hE.size h.le
  have hexec : (eraseRangeAndShrink i j).exec τ a g = { a with mem := m }.shrinkCapacity τ
      (l.length - (j - i)) (l.length - (j - i)) g := by
    rw [exec, DynArray.eraseRangeAndShrink, arrayAssert, arrayAssert, kdAssert_of_pos (by omega),
      kdAssert_of_pos (by omega), ← hlen]
    simp only [bind, Except.bind, hm]
  have hn : l.length - (j - i) ≤ a.length := by omega
  by_cases hg : g.block = 0
  · refine exactly_of_false (hexec.trans (shrinkCapacity_refused hbox hd hn hg)) ?_
    rw [Fits, if_pos hg]
    refine ⟨fun hclean => ?_, fun hok => hbox.clean (fun _ => hE.whole hok) (fun hdd k hk hkc => ?_)
      (hE.leak.trans h.leak)⟩
    · cases hdd : τ.trivDestructible with
      | true => exact .inl rfl
      | false =>
        by_contra hgap
        rw [not_or] at hgap
        have hlt : i + (l.length - j) < a.length := by omega
        exact not_clean_of_hole (a := { a with mem := m }) hdd hlt
          (hE.hole hdd (Nat.not_le.mp hgap.2)) hclean
    · exact (hE.above k (hlen ▸ hk)).trans (h.rest hdd k hk hkc)
  · have hsettled := shrinkCapacity_granted
      hbox hd hn (length_erased hij hj) (hE.leak.trans h.leak) hE.reads
      (by
        cases hA' : τ.trivMoveAssignable with
        | true => exact .inl rfl
        | false =>
          have hne : i ≠ j := fun e => hA ⟨hA', e, hg⟩
          exact .inr (by simp only; omega))
      hg (freshBlock_update hfresh hE.size)
    rcases hsettled with ⟨b, hrun, hb, htidy⟩ | ⟨hfault, hdd, hA'⟩
    · refine exactly_of_true (hexec.trans hrun) hb rfl (htidy.trans ?_)
      rw [Fits, if_neg hg]
      refine and_congr hE.shows_iff ?_
      have hrest := rest_iff_of_erased h hE
      cases hdd : τ.trivDestructible with
      | true => simp
      | false =>
        rw [hdd] at hrest
        simp only [Bool.false_eq_true, false_or] at hrest ⊢
        exact and_congr_right fun _ => hrest
    · refine exactly_of_fault (fun r hr => hfault r (hexec.symm.trans hr)) ?_
      rw [Fits, if_neg hg]
      simp [hdd, hA']

/-- A shrinking resize of a tidy array keeps a front part of it. -/
theorem resize_exactly_of_lt (construct : Bool) (h : Tidy τ a l) (hn : n < l.length)
    (hexec : c.exec τ a g = a.resizeWith construct τ n g) (happ : c.apply l = some (l.take n))
    (hF : F) : c.Exactly τ a l g F := by
  obtain ⟨b, hrun, hb, htidy⟩ := resizeWith_settles construct
    h.toBoxed h.readsOn h.rest h.leak (h.length ▸ hn) (length_take_of_le (Nat.le_of_lt hn)) g
  refine exactly_of_true (hexec.trans hrun) hb happ (htidy.trans ⟨fun _ => hF, fun _ k v hv => ?_⟩)
  have hk : k < n := by
    have := (List.getElem?_eq_some_iff.mp hv).1
    simp only [length_take] at this
    omega
  exact h.shows k v (by rwa [List.getElem?_take_of_lt hk] at hv)

section

variable (h : Tidy τ a l)

include h

/-- A call that leaves the array as it is. -/
theorem exactly_of_same (hexec : c.exec τ a g = .ok (true, a)) (happ : c.apply l = some l) (hF : F)
    : c.Exactly τ a l g F :=
  exactly_of_true hexec h.toBoxed happ ⟨fun _ => hF, fun _ => h⟩

/-- Elements moved to the front, and the others given up by a resize. -/
theorem exactly_of_moveToFront {s : ℕ} (hn : n < l.length) (hsn : s + n ≤ l.length)
    (hexec : ∀ m r, moveData τ a.mem (a.data, 0) (a.data, s) n = .ok m →
      { a with mem := m }.resize τ n g = .ok (true, r) → c.exec τ a g = .ok (true, r))
    (happ : c.apply l = some ((l.drop s).take n)) : c.Exactly τ a l g (τ.DownFits 0 s n) := by
  have hlen := h.length
  obtain ⟨m, hm, hsize, hleak, hr, habove, hshows⟩ := h.moveToFront h.readsOn (fun _ _ => rfl) hsn
  have hbox : Boxed τ { a with mem := m } := h.toBoxed.update hsize h.le
  obtain ⟨b, hrun, hb, htidy⟩ := resizeWith_settles true
    (l := (l.drop s).take n) hbox hr (fun hdd k hk hkc => (habove k hk).trans (h.rest hdd k hk hkc))
    (hleak.trans h.leak) (by simp only; omega)
    (length_take_of_le (by rw [length_drop]; omega)) g
  exact exactly_of_true (hexec m b hm hrun) hb happ (htidy.trans hshows)

theorem extractRange_exactly (hij : i ≤ j) (hj : j ≤ l.length) :
    (extractRange i j).Exactly τ a l g ((extractRange i j).Fits τ l g) := by
  have hlen := h.length
  by_cases hall : j - i = l.length
  · have hi : i = 0 := by omega
    refine exactly_of_same h ?_ ?_ (.inl hi)
    · rw [exec, DynArray.extractRange, if_pos (hall.trans hlen.symm)]
    · rw [apply, hi, drop_zero, take_of_length_le (by omega)]
  have hall' : ¬ j - i = a.length := fun e => hall (e.trans hlen)
  by_cases hnone : j - i = 0
  · obtain ⟨b, hrun, -⟩ := resizeWith_settles false (l := ([] : List V)) h.toBoxed
      h.readsOn h.rest h.leak (n := 0) (by omega) rfl g
    refine resize_exactly_of_lt false (n := 0) h (by omega) ?_ ?_ (.inr (.inl hnone))
    · rw [exec, DynArray.extractRange, if_neg hall', if_pos hnone, resizeUninit, hrun]
      rfl
    · rw [apply, take_zero, drop_eq_nil_of_le (by rw [length_take]; omega)]
  by_cases hi : i = 0
  · subst hi
    obtain ⟨b, hrun, -⟩ := resizeWith_settles true h.toBoxed
      h.readsOn h.rest h.leak (by omega) (length_take_of_le hj) g
    refine resize_exactly_of_lt true h (by omega) ?_ rfl (.inl rfl)
    rw [exec, DynArray.extractRange, if_neg hall', if_neg hnone, Nat.sub_zero,
      DynArray.resize, hrun]
    rfl
  · have hiff : (extractRange i j).Fits τ l g ↔ τ.DownFits 0 i (j - i) := or_iff_right hi
    rw [hiff]
    refine exactly_of_moveToFront h (by omega) (by omega) (fun m r hm hrun => ?_) ?_
    · rw [exec, DynArray.extractRange, if_neg hall', if_neg hnone, if_pos hi, hm]
      simp only [bind, Except.bind, hrun]
      rfl
    · rw [apply, drop_take]

/-- The number of elements less one. -/
theorem lengthPred_eq (hl : 0 < l.length) : a.lengthPred = l.length - 1 := by
  have hlt : a.length < 2 ^ 64 := by
    have := Nat.le_mul_of_pos_right a.capacity τ.size_pos
    have := h.bound
    have := h.le
    omega
  rw [lengthPred]
  have := h.length
  omega

theorem popFront_exactly : popFront.Exactly τ a l g (popFront.Fits τ l g) := by
  cases l with
  | nil =>
    refine exactly_of_none rfl (fun r b hrun => ?_) fun hF => hF.1 rfl
    obtain ⟨m, -, hrun⟩ := of_bind hrun
    obtain ⟨r', -, hrun⟩ := of_bind hrun
    obtain ⟨_, hassert, hrun⟩ := of_bind hrun
    rw [Except.ok.inj hrun] at hassert
    exact kdAssert_eq_ok_iff.mp hassert
  | cons x l =>
    have hiff : popFront.Fits τ (x :: l) g ↔ τ.DownFits 0 1 ((x :: l).length - 1) :=
      and_iff_right (cons_ne_nil x l)
    rw [hiff]
    refine exactly_of_moveToFront h (by simp) (by rw [length_cons]; omega) (fun m r hm hrun => ?_)
      ?_
    · rw [exec, DynArray.popFront, lengthPred_eq h (by simp), hm]
      simp only [bind, Except.bind, hrun]
      rfl
    · simp [apply]

theorem popBack_exactly : popBack.Exactly τ a l g (popBack.Fits τ l g) := by
  cases l with
  | nil =>
    refine exactly_of_none rfl (fun r b hrun => ?_) fun hF => hF rfl
    obtain ⟨r', -, hrun⟩ := of_bind hrun
    exact (ok_mk_inj hrun).1.symm
  | cons x l =>
    obtain ⟨b, hrun, -⟩ := resizeWith_settles false (l := (x :: l).take l.length)
      h.toBoxed h.readsOn h.rest h.leak (n := l.length) (by simp [h.length]) (by simp) g
    refine resize_exactly_of_lt false (n := l.length) h (by simp) ?_ ?_ (cons_ne_nil x l)
    · rw [exec, DynArray.popBack, lengthPred_eq h (by simp), resizeUninit, length_cons,
        Nat.add_sub_cancel, hrun]
      rfl
    · rw [apply, List.dropLast_eq_take, length_cons, Nat.add_sub_cancel]

theorem resize_exactly (hn : n ≤ l.length) :
    (resize n).Exactly τ a l g ((resize n).Fits τ l g) := by
  rcases Nat.lt_or_eq_of_le hn with hlt | rfl
  · exact resize_exactly_of_lt _ h hlt rfl rfl trivial
  · refine exactly_of_same h ?_ (by rw [apply, take_length]) trivial
    rw [exec, DynArray.resize, resizeWith, ← h.length, if_neg (Nat.lt_irrefl _),
      if_neg (Nat.lt_irrefl _)]

end

/-- Where an element is given up, destroying it must do nothing. -/
theorem givenUp_iff {m : Mem V} (hk : n < a.capacity) (hr : τ.Reads (m.cell (a.data, n))) :
    (τ.trivDestructible = true ∨ τ.trivMoveAssignable = true ∧ ∀ k, n ≤ k → k < a.capacity →
      m.cell (a.data, k) = .raw) ↔ τ.trivDestructible = true := by
  refine or_iff_left_of_imp fun ⟨_, hraw⟩ => ?_
  by_contra hdd
  rw [Bool.not_eq_true] at hdd
  have hobj := hr.isObject hdd
  rw [hraw n (Nat.le_refl n) hk] at hobj
  cases hobj

section

variable (h : Tidy τ a l) (hfresh : FreshBlock τ a g)

include h hfresh

/-- A smaller block for a front part of the array, if the call is for that part. -/
theorem shrink_exactly (hn : n < l.length) (hexec : c.exec τ a g = a.shrinkCapacity τ n n g)
    (happ : c.apply l = some l') (hlen' : l'.length = n) :
    c.Exactly τ a l g (g.block = 0 ∨ τ.trivDestructible = true ∧ l.take n = l') := by
  have hlen := h.length
  have hd : a.data ≠ 0 := data_ne_of_length h (by omega)
  by_cases hg : g.block = 0
  · refine exactly_of_false (hexec.trans (shrinkCapacity_refused h.toBoxed hd (by omega) hg)) ?_
    exact ⟨fun _ => .inl hg, fun _ => h.clean⟩
  have hshows : a.mem.Shows a.data l' ↔ l.take n = l' := by
    refine ⟨fun hs => ext_getElem? fun k => ?_, fun e k v hv => h.shows k v ?_⟩
    · by_cases hk : k < n
      · obtain ⟨v, hv⟩ : ∃ v, l'[k]? = some v := ⟨_, List.getElem?_eq_getElem (hlen' ▸ hk)⟩
        have hl := List.getElem?_eq_getElem (Nat.lt_trans hk hn)
        have hcell := (h.shows k _ hl).symm.trans (hs k v hv)
        rw [List.getElem?_take_of_lt hk, hl, hv, Cell.live.inj hcell]
      · rw [List.getElem?_eq_none (by rw [length_take]; omega), List.getElem?_eq_none (by omega)]
    · rw [← e] at hv
      have hk : k < n := by
        have := (List.getElem?_eq_some_iff.mp hv).1
        simp only [length_take] at this
        omega
      rwa [List.getElem?_take_of_lt hk] at hv
  rcases shrinkCapacity_granted h.toBoxed hd (by omega) hlen' h.leak
    (fun k hk => (h.readsOn (a.data, k) (inUse_iff.mpr (by omega))).2) (.inr (by omega)) hg hfresh
    with ⟨b, hrun, hb, htidy⟩ | ⟨hfault, hdd, -⟩
  · refine exactly_of_true (hexec.trans hrun) hb happ (htidy.trans ?_)
    rw [or_iff_right hg, hshows, and_comm, givenUp_iff (by have := h.le; omega)
      (h.readsOn (a.data, n) (inUse_iff.mpr (by omega))).2]
  · refine exactly_of_fault (fun r hr => hfault r (hexec.symm.trans hr)) ?_
    simp [hg, hdd]

theorem extractRangeAndShrink_exactly (hij : i ≤ j) (hj : j ≤ l.length) :
    (extractRangeAndShrink i j).Exactly τ a l g ((extractRangeAndShrink i j).Fits τ l g) := by
  have hlen := h.length
  by_cases hall : j - i = l.length
  · refine exactly_of_same h ?_ ?_ (.inl hall)
    · rw [exec, DynArray.extractRangeAndShrink, if_pos (hall.trans hlen.symm)]
    · rw [apply, show i = 0 by omega, drop_zero, take_of_length_le (by omega)]
  · have hiff : (extractRangeAndShrink i j).Fits τ l g ↔
        g.block = 0 ∨ τ.trivDestructible = true ∧ l.take (j - i) = (l.take j).drop i :=
      or_iff_right hall
    rw [hiff]
    refine shrink_exactly h hfresh (by omega) ?_ rfl ?_
    · rw [exec, DynArray.extractRangeAndShrink, if_neg fun e => hall (e.trans hlen)]
    · rw [length_drop, length_take_of_le hj]

theorem resizeAndShrink_exactly (hn : n ≤ l.length) :
    (resizeAndShrink n).Exactly τ a l g ((resizeAndShrink n).Fits τ l g) := by
  have hlen := h.length
  rcases Nat.lt_or_eq_of_le hn with hlt | rfl
  · have hiff : (resizeAndShrink n).Fits τ l g ↔
        g.block = 0 ∨ τ.trivDestructible = true ∧ l.take n = l.take n := by
      rw [and_iff_left rfl]
      exact or_iff_right (Nat.ne_of_lt hlt)
    rw [hiff]
    refine shrink_exactly h hfresh hlt ?_ rfl (length_take_of_le hn)
    rw [exec, DynArray.resizeAndShrink, if_neg (by omega), if_pos (by omega)]
  · refine exactly_of_same h ?_ (by rw [apply, take_length]) (.inl rfl)
    rw [exec, DynArray.resizeAndShrink, if_neg (by omega), if_neg (by omega)]

end

theorem shrinkToFit_exactly (h : Tidy τ a l) :
    shrinkToFit.Exactly τ a l g (shrinkToFit.Fits τ l g) := by
  refine exactly_of_same h ?_ rfl trivial
  rw [exec, DynArray.shrinkToFit, if_neg (Nat.not_lt.mpr h.le)]

/-- The front element is moved out, the others are moved to the front, and the memory is asked
for. -/
theorem Tidy.popFrontAndShrink_eq {x : V} (h : Tidy τ a (x :: l)) :
    ∃ m, popFrontAndShrink.exec τ a g = (do
        let r ← { a with mem := m }.shrinkCapacity τ l.length l.length g
        if r.1 then .ok r
        else
          let m₁ ← moveData τ r.2.mem (r.2.data, 1) (r.2.data, 0) l.length
          let m₂ ← constructAt τ m₁ (r.2.data, 0) (a.mem.cell (a.data, 0))
          .ok (false, { r.2 with mem := m₂ })) ∧
      m.size = a.mem.size ∧ m.leak = a.mem.leak ∧ ReadsOn τ m a.InUse ∧
      (m.Shows a.data l ↔ τ.DownFits 0 1 l.length) := by
  have hlen : a.length = l.length + 1 := h.length
  obtain ⟨m₀, hm₀, hsize₀, hleak₀, hr₀, hsame₀⟩ : ∃ m₀,
      (if τ.trivMoveConstructible then a.mem else a.mem.set (a.data, 0) .moved) = m₀ ∧
      m₀.size = a.mem.size ∧ m₀.leak = a.mem.leak ∧ ReadsOn τ m₀ a.InUse ∧
      ∀ k, 1 ≤ k → m₀.cell (a.data, k) = a.mem.cell (a.data, k) := by
    refine ⟨_, rfl, ?_⟩
    split
    · exact ⟨rfl, rfl, h.readsOn, fun _ _ => rfl⟩
    · refine ⟨rfl, rfl, h.readsOn.set reads_moved,
        fun k hk => Function.update_of_ne (fun e => ?_) ..⟩
      have := congrArg Prod.snd e
      omega
  obtain ⟨m, hm, hsize, hleak, hr, -, hshows⟩ := h.moveToFront hr₀ hsame₀ (n := l.length)
    (by rw [length_cons]; omega)
  refine ⟨m, ?_, hsize.trans hsize₀, hleak.trans hleak₀, hr, ?_⟩
  · obtain ⟨hv, hr0⟩ := h.readsOn (a.data, 0) (inUse_iff.mpr (by omega))
    rw [exec, DynArray.popFrontAndShrink, arrayAssert, kdAssert_of_pos (by omega),
      objectAt_eq hv hr0, lengthPred_eq h (by simp), hm₀]
    simp only [bind, Except.bind, length_cons, Nat.add_sub_cancel, hm]
  · rwa [drop_one, tail_cons, take_length] at hshows

theorem popFrontAndShrink_exactly (h : Tidy τ a l) (hfresh : FreshBlock τ a g) (hl : l ≠ []) :
    popFrontAndShrink.Exactly τ a l g (popFrontAndShrink.Fits τ l g) := by
  cases l with
  | nil => exact absurd rfl hl
  | cons x l =>
    have hlen : a.length = l.length + 1 := h.length
    have hd : a.data ≠ 0 := data_ne_of_length h (by simp)
    obtain ⟨m, hstart, hsize, hleak, hr, hshows⟩ := Tidy.popFrontAndShrink_eq h
    have hbox : Boxed τ { a with mem := m } := h.toBoxed.update hsize h.le
    have hn : l.length ≤ a.length := by omega
    by_cases hg : g.block = 0
    · obtain ⟨m₁, hm₁, hsize₁, hleak₁, hr₁, -⟩ := moveData_ok (d := (a.data, 1)) (s := (a.data, 0))
        (n := l.length) hr (fun k hk => inUse_iff.mpr (by omega))
        fun k hk => inUse_iff.mpr (by omega)
      obtain ⟨hv, hr0⟩ := hr₁ (a.data, 0) (inUse_iff.mpr (by omega))
      obtain ⟨m₂, hm₂⟩ : ∃ m₂, (m₁.leakIf τ (m₁.cell (a.data, 0)).isObject).set (a.data, 0)
          (a.mem.cell (a.data, 0)) = m₂ := ⟨_, rfl⟩
      have hrun : popFrontAndShrink.exec τ a g = .ok (false, { a with mem := m₂ }) := by
        rw [hstart, shrinkCapacity_refused hbox hd hn hg]
        simp only [bind, Except.bind, Bool.false_eq_true, if_false, hm₁, constructAt_eq hv, hm₂]
      have hleak₂ : m₂.leak = (m₁.leakIf τ (m₁.cell (a.data, 0)).isObject).leak := by
        rw [← hm₂, Mem.set_leak]
      refine exactly_of_false hrun ⟨fun hclean => ⟨?_, .inl hg⟩, fun hF => ?_⟩
      · by_contra hdd
        rw [Bool.not_eq_true] at hdd
        exact not_clean_of_leak (hleak₂.trans (Mem.leakIf_of_leak hdd (hr0.isObject hdd))) hclean
      · have hdd : ¬ τ.trivDestructible = false := by
          simp [show τ.trivDestructible = true from hF.1]
        have hbox₂ : Boxed τ { a with mem := m₂ } :=
          h.toBoxed.update (by rw [← hm₂]; exact hsize₁.trans hsize) h.le
        refine hbox₂.clean (absurd · hdd) (absurd · hdd) (hleak₂.trans ?_)
        rw [Mem.leakIf_leak (.inl hF.1), hleak₁, hleak, h.leak]
    · rcases shrinkCapacity_granted hbox hd hn rfl
        (hleak.trans h.leak) (fun k hk => (hr (a.data, k) (inUse_iff.mpr (by omega))).2)
        (.inr (by simp only; omega)) hg (freshBlock_update hfresh hsize)
        with ⟨b, hrun, hb, htidy⟩ | ⟨hfault, hdd, -⟩
      · refine exactly_of_true (hstart.trans ?_) hb rfl (htidy.trans ?_)
        · rw [hrun]
          rfl
        · have hiff : popFrontAndShrink.Fits τ (x :: l) g ↔
              τ.trivDestructible = true ∧ τ.DownFits 0 1 l.length :=
            and_congr_right fun _ => or_iff_right hg
          rw [hiff, hshows, and_comm, givenUp_iff (a := { a with mem := m })
            (by have := h.le; simp only; omega) (hr (a.data, l.length)
            (inUse_iff.mpr (by omega))).2]
      · refine exactly_of_fault (fun r hr => ?_) fun hF => ?_
        · rw [hstart] at hr
          obtain ⟨r', hr', -⟩ := of_bind hr
          exact hfault r' hr'
        · rw [hF.1] at hdd
          cases hdd

/-- **The calls that stop.** -/
theorem Asserts.stops (h : Tidy τ a l) (hc : c.Asserts τ l g) : c.Stops τ a g := by
  have hlen := h.length
  cases c with
  | eraseRange i j =>
    refine ⟨327, ?_⟩
    rw [exec, DynArray.eraseRange, arrayAssert, kdAssert_of_neg
      (by rw [hlen]; exact Nat.not_lt.mpr hc)]
    rfl
  | eraseRangeAndShrink i j =>
    by_cases hi : i < l.length
    · obtain ⟨hA, rfl, hg⟩ := hc.resolve_left (Nat.not_le.mpr hi)
      obtain ⟨m, hm, hE⟩ := h.erased hi (Nat.le_refl i) (Nat.le_of_lt hi)
      obtain ⟨m₁, hm₁, -⟩ := alloc_eq (τ := τ) (m := m) (a.length * τ.size % 2 ^ 64) hg
      refine ⟨148, ?_⟩
      rw [exec, DynArray.eraseRangeAndShrink, arrayAssert, arrayAssert, kdAssert_of_pos (by omega),
        kdAssert_of_pos (by omega)]
      simp only [bind, Except.bind, hm, Nat.sub_self, Nat.sub_zero, shrinkCapacity, arrayAssert,
        kdAssert_of_pos (Nat.le_refl a.length), kdAssert_of_pos h.le, hA, Bool.false_eq_true,
        if_false, hm₁, if_neg hg, shrink, kdAssert_of_neg (Nat.lt_irrefl a.length)]
    · refine ⟨311, ?_⟩
      rw [exec, DynArray.eraseRangeAndShrink, arrayAssert, kdAssert_of_neg (by rw [hlen]; exact hi)]
      rfl
  | popFrontAndShrink =>
    obtain rfl : l = [] := hc
    refine ⟨630, ?_⟩
    rw [exec, DynArray.popFrontAndShrink, arrayAssert, kdAssert_of_neg (by rw [hlen]; simp)]
    rfl
  | _ => exact hc.elim

/-- **The calls that do not stop** are right exactly if they fit. -/
theorem exactly_fits (h : Tidy τ a l) (hin : c.InRange l) (hfresh : FreshBlock τ a g)
    (hc : ¬ c.Asserts τ l g) : c.Exactly τ a l g (c.Fits τ l g) := by
  cases c with
  | eraseRange i j => exact eraseRange_exactly h (Nat.not_le.mp hc) hin.1 hin.2
  | eraseRangeAndShrink i j =>
    obtain ⟨hi, hA⟩ := not_or.mp hc
    exact eraseRangeAndShrink_exactly h hfresh (Nat.not_le.mp hi) hin.1 hin.2 hA
  | extractRange i j => exact extractRange_exactly h hin.1 hin.2
  | extractRangeAndShrink i j => exact extractRangeAndShrink_exactly h hfresh hin.1 hin.2
  | popFront => exact popFront_exactly h
  | popFrontAndShrink => exact popFrontAndShrink_exactly h hfresh hc
  | popBack => exact popBack_exactly h
  | resize n => exact resize_exactly h hin
  | resizeAndShrink n => exact resizeAndShrink_exactly h hfresh hin
  | shrinkToFit => exact shrinkToFit_exactly h

/-! ## Refusals -/

/-- **Where a refusal leaves the elements as they were.**  Before `erase_range_and_shrink` asks for
the smaller block it has destroyed what no other element will be moved to, and moved the rest down;
`pop_front_and_shrink` moves the elements up again.  The other calls ask first. -/
def Restores (c : ShrinkCall) (τ : ElemType V) (l : List V) : Prop :=
  match c with
  | eraseRangeAndShrink i j =>
    (τ.trivDestructible = true ∨ j - i ≤ l.length - j) ∧
      (τ.trivMoveAssignable = true ∨ j = l.length) ∧ l.take i ++ l.drop j <+: l
  | popFrontAndShrink => τ.DownFits 0 1 (l.length - 1)
  | _ => True

theorem contents_iff (h : Boxed τ b) (hl : b.length = l.length) :
    b.contents = some (l.map .live) ↔ b.mem.Shows b.data l := by
  refine ⟨fun hc k v hv => ?_, h.contents hl⟩
  obtain ⟨-, v', hv', hcell⟩ := live_of_contents hc (hl ▸ (List.getElem?_eq_some_iff.mp hv).1)
  rwa [Option.some.inj (hv.symm.trans hv')]

/-- What lies above the elements that are left is as it was, if nothing was destroyed. -/
theorem eraseMove_above (hl : a.length = l.length) (hij : i ≤ j) (hj : j ≤ l.length)
    (hdd : τ.trivDestructible = true ∨ j - i ≤ l.length - j)
    (hA : τ.trivMoveAssignable = true ∨ j = l.length) (hm : a.eraseMove τ i j = .ok m)
    (hk : l.length - (j - i) ≤ k) : m.cell (a.data, k) = a.mem.cell (a.data, k) := by
  obtain ⟨m₁, hm₁, hm⟩ := of_bind hm
  obtain rfl : m₁ = a.mem := by
    split at hm₁
    · rw [destructData, if_pos (hdd.resolve_right (by omega))] at hm₁
      exact (Except.ok.inj hm₁).symm
    · exact (Except.ok.inj hm₁).symm
  rw [moveData] at hm
  split at hm
  · rw [memmove] at hm
    split at hm
    · cases hm
      exact if_neg (by simp only; omega)
    · cases hm
  · rename_i hA'
    rw [hl, hA.resolve_left hA', Nat.sub_self] at hm
    obtain rfl : a.mem = m := by simpa [moveOrder, pure, Except.pure] using hm
    rfl

theorem eraseRangeAndShrink_restores_iff (h : Tidy τ a l) (hij : i ≤ j) (hj : j ≤ l.length)
    (hrun : (eraseRangeAndShrink i j).exec τ a g = .ok (false, b)) :
    b.contents = some (l.map .live) ↔ (eraseRangeAndShrink i j).Restores τ l := by
  obtain ⟨_, hassert, hrun⟩ := of_bind hrun
  have hi : i < l.length := h.length ▸ kdAssert_eq_ok_iff.mp hassert
  obtain ⟨_, -, hrun⟩ := of_bind hrun
  obtain ⟨m, hm, hrun⟩ := of_bind hrun
  obtain rfl := eq_of_shrinkCapacity_false hrun
  obtain ⟨m', hm', hE⟩ := h.erased hi hij hj
  obtain rfl := Except.ok.inj (hm.symm.trans hm')
  have hleft : (l.take i ++ l.drop j).length = l.length - (j - i) := by
    rw [length_append, length_take, length_drop]
    omega
  refine (contents_iff (h.toBoxed.update hE.size h.le) h.length).trans
    ⟨fun hshows => ?_, fun ⟨hdd, hA, hpre⟩ k v hv => ?_⟩
  · have hlive : ∀ k < l.length, ∃ v, m.cell (a.data, k) = .live v := fun k hk =>
      ⟨_, hshows k _ (List.getElem?_eq_getElem hk)⟩
    have hdd : τ.trivDestructible = true ∨ j - i ≤ l.length - j := by
      by_contra hno
      rw [not_or, Bool.not_eq_true, Nat.not_le] at hno
      obtain ⟨v, hv⟩ := hlive (i + (l.length - j)) (by omega)
      rw [hE.hole hno.1 hno.2] at hv
      cases hv
    have hA : τ.trivMoveAssignable = true ∨ j = l.length := by
      by_contra hno
      obtain ⟨hA, hne⟩ := not_or.mp hno
      obtain ⟨m₁, -, hmove⟩ := of_bind hm
      obtain ⟨⟨_, k⟩, hw, hq⟩ := moveData_leaves_moved hA (by rw [h.length]; omega) hmove
      obtain ⟨rfl, hk⟩ : a.data = _ ∧ k < l.length := by
        have := h.length
        rcases hw with hw | hw
        · exact ⟨hw.1.symm, by have := hw.2; simp only at this; omega⟩
        · exact ⟨hw.1.symm, by have := hw.2; simp only at this; omega⟩
      obtain ⟨v, hv⟩ := hlive k hk
      cases hq.symm.trans hv
    refine ⟨hdd, hA, prefix_iff_getElem?.mpr fun k hk => ?_⟩
    have hdown := hE.shows_iff.mpr (hA.elim (fun hA => .inr (.inl hA)) fun e => .inl (by omega)) k _
      (List.getElem?_eq_getElem hk)
    have hkl : k < l.length := by omega
    rw [List.getElem?_eq_getElem hkl, ← Kfxx.Cell.live.inj
      ((hshows k _ (List.getElem?_eq_getElem hkl)).symm.trans hdown)]
  · rcases Nat.lt_or_ge k (l.length - (j - i)) with hk | hk
    · refine hE.shows_iff.mpr (hA.elim (fun hA => .inr (.inl hA)) fun e => .inl (by omega)) k v ?_
      rw [← hv, List.getElem?_eq_getElem (hleft ▸ hk)]
      exact (prefix_iff_getElem?.mp hpre k (hleft ▸ hk)).symm
    · exact (eraseMove_above h.length hij hj hdd hA hm hk).trans (h.shows k v hv)

/-- Elements that are moved one place up are there if they were before and can be moved. -/
theorem moveUp_iff {P : ℕ × ℕ → Prop} {m m' : Mem V} {d : ℕ} (hr : ReadsOn τ m P)
    (hP : ∀ k ≤ l.length, P (d, k)) (hm : moveData τ m (d, 1) (d, 0) l.length = .ok m') :
    (∀ k v, l[k]? = some v → m'.cell (d, 1 + k) = .live v) ↔ m.Shows d l ∧
      (τ.trivMoveAssignable = true ∨ τ.moveAssignable = true ∨ l.length = 0) := by
  have hdst : ∀ k < l.length, P (d, 1 + k) := fun k hk => hP _ (by omega)
  have hsrc : ∀ k < l.length, P (d, 0 + k) := fun k hk => hP _ (by omega)
  by_cases hmoves : τ.trivMoveAssignable = true ∨ τ.moveAssignable = true ∨ l.length = 0
  · obtain ⟨m₁, hm₁, hmoved⟩ := moveData_eq (d := (d, 1)) (s := (d, 0)) rfl
      (hmoves.imp_right (Or.imp_left fun ha => ⟨ha, .inr Nat.one_pos⟩))
      (fun k hk => ⟨(hr _ (hdst k hk)).1, (hr _ (hsrc k hk)).1⟩)
      fun k hk => ⟨(hr _ (hsrc k hk)).2, (hr _ (hdst k hk)).2⟩
    obtain rfl := Except.ok.inj (hm.symm.trans hm₁)
    rw [and_iff_left hmoves]
    refine forall₃_congr fun k v hv => ?_
    rw [hmoved.dst k (List.getElem?_eq_some_iff.mp hv).1, Nat.zero_add]
  · refine iff_of_false (fun hx => ?_) fun hx => hmoves hx.2
    simp only [not_or, Bool.not_eq_true] at hmoves
    have hk : 0 < l.length := Nat.pos_of_ne_zero hmoves.2.2
    have hbad := moveData_unassignable hr hdst hsrc (by simp [hmoves.1]) hmoves.2.1 hm hk
    cases (hx 0 _ (List.getElem?_eq_getElem hk)).symm.trans hbad

/-- The first element is put back in front of the others. -/
theorem shows_set_front {m : Mem V} {d : ℕ} {x : V} : (m.set (d, 0) (.live x)).Shows d (x :: l) ↔
    ∀ k v, l[k]? = some v → m.cell (d, 1 + k) = .live v := by
  refine ⟨fun hx k v hv => ?_, fun hx k v hv => ?_⟩
  · rw [← hx (k + 1) v hv, Nat.add_comm 1 k]
    exact (Function.update_of_ne (by simp) ..).symm
  · cases k with
    | zero => exact (Function.update_self ..).trans (congrArg _ (Option.some.inj hv))
    | succ k =>
      refine (Function.update_of_ne (by simp) ..).trans ?_
      rw [Nat.add_comm k 1]
      exact hx k v hv

theorem popFrontAndShrink_restores_iff (h : Tidy τ a l)
    (hrun : popFrontAndShrink.exec τ a g = .ok (false, b)) :
    b.contents = some (l.map .live) ↔ popFrontAndShrink.Restores τ l := by
  cases l with
  | nil =>
    obtain ⟨_, hassert, -⟩ := of_bind hrun
    exact absurd (kdAssert_eq_ok_iff.mp hassert) (by rw [h.length]; simp)
  | cons x l =>
    have hlen : a.length = l.length + 1 := h.length
    obtain ⟨m, hstart, hsize, -, hr, hshows⟩ := Tidy.popFrontAndShrink_eq h
    rw [hstart] at hrun
    obtain ⟨⟨r, a'⟩, hr', hrun⟩ := of_bind hrun
    cases r with
    | true => cases hrun
    | false =>
      obtain rfl := eq_of_shrinkCapacity_false hr'
      have hin : ∀ k ≤ l.length, a.InUse (a.data, k) := fun k hk => inUse_iff.mpr (by omega)
      obtain ⟨m₁, hm₁, hrun⟩ := of_bind hrun
      obtain ⟨m₂, hm₂, hrun⟩ := of_bind hrun
      obtain rfl : { a with mem := m₂ } = b := (ok_mk_inj hrun).2
      obtain ⟨m₁', hm₁', hsize₁, -⟩ := moveData_ok (d := (a.data, 1)) (s := (a.data, 0))
        (n := l.length) hr (fun k hk => hin _ (by omega)) fun k hk => hin _ (by omega)
      obtain rfl := Except.ok.inj (hm₁.symm.trans hm₁')
      rw [constructAt_eq ((hr _ (hin 0 (Nat.zero_le _))).1.congr hsize₁), h.shows 0 x rfl] at hm₂
      have hsize₂ : m₂.size = a.mem.size := by
        rw [← Except.ok.inj hm₂]
        exact hsize₁.trans hsize
      refine (contents_iff (h.toBoxed.update hsize₂ h.le) h.length).trans ?_
      obtain rfl := Except.ok.inj hm₂
      refine shows_set_front.trans ((moveUp_iff hr hin hm₁).trans ?_)
      rw [hshows]
      refine and_iff_left_of_imp fun hc => ?_
      rcases hc with h0 | hA | hMa
      · exact .inr (.inr h0)
      · exact .inl hA
      · exact .inr (.inl hMa.1)

/-- The two other calls with a smaller block ask first. -/
theorem eq_of_refused (h : Tidy τ a l) (hin : c.InRange l) (hrun : c.exec τ a g = .ok (false, b))
    (hc : c = extractRangeAndShrink i j ∨ c = resizeAndShrink n) : b = a := by
  obtain rfl | rfl := hc
  · rw [exec, DynArray.extractRangeAndShrink] at hrun
    split at hrun
    · cases hrun
    · exact eq_of_shrinkCapacity_false hrun
  · have hn : n ≤ l.length := hin
    rw [exec, DynArray.resizeAndShrink, if_neg (by rw [h.length]; omega)] at hrun
    split at hrun
    · exact eq_of_shrinkCapacity_false hrun
    · cases hrun

/-- The calls that ask for a smaller block and say whether they got it. -/
def AsksForLess : ShrinkCall → Prop
  | eraseRangeAndShrink _ _ | extractRangeAndShrink _ _ | popFrontAndShrink | resizeAndShrink _ =>
    True
  | _ => False

end ShrinkCall

open DynArray

/-- **The shrinking calls.**  On an array that holds `l` and with indices in range, a call either
stops in an assertion, or it is right exactly if it fits; and after a success it fits the array is
tidy again, so that the next call can be judged the same way. -/
theorem shrink_conforms_iff {V : Type} (τ : ElemType V) (a : DynArray V) (l : List V)
    (c : ShrinkCall) (g : ArrayGrants) (h : Tidy τ a l) (hin : c.InRange l)
    (hfresh : FreshBlock τ a g) :
    (c.Asserts τ l g → c.Stops τ a g) ∧
    (¬ c.Asserts τ l g → (c.Conforms τ a l g ↔ c.Fits τ l g) ∧
      (c.Fits τ l g → ∀ b, c.exec τ a g = .ok (true, b) →
        ∃ l', c.apply l = some l' ∧ Tidy τ b l')) :=
  ⟨fun hc => hc.stops h, fun hc => ShrinkCall.exactly_fits h hin hfresh hc⟩

/-- An array with these elements, in a block of their size. -/
def arrayOf {V : Type} (l : List V) : DynArray V :=
  ⟨l.length, l.length, 4096, ⟨fun b => if b = 4096 then some l.length else none,
    fun q => (l[q.2]?).elim .raw .live, false⟩⟩

theorem tidy_arrayOf {V : Type} {τ : ElemType V} {l : List V} (h : l.length * τ.size < 2 ^ 64) :
    Tidy τ (arrayOf l) l where
  null := rfl
  empty := nofun
  block _ := rfl
  bound := h
  le := Nat.le_refl _
  length := rfl
  shows k v hv := by
    change (l[k]?).elim Cell.raw Cell.live = _
    rw [hv]
    rfl
  rest _ _ hk hk' := absurd hk' (Nat.not_lt.mpr hk)
  leak := rfl

/-- The first of two records is erased as it should be. -/
theorem shrink_conforms_records :
    (ShrinkCall.eraseRange 0 1).Conforms recordType (arrayOf [1, 2]) [1, 2] ⟨false, 0⟩ := by
  have hfit := (shrink_conforms_iff recordType (arrayOf [1, 2]) [1, 2] (.eraseRange 0 1) ⟨false, 0⟩
    (tidy_arrayOf (by decide)) ⟨by decide, by decide⟩ nofun).2 (by simp [ShrinkCall.Asserts])
  exact hfit.1.mpr ⟨.inr (.inl rfl), .inl rfl⟩

/-- **A call that is refused memory** leaves the elements as they were exactly where it restores
them. -/
theorem shrink_refused_restores_iff {V : Type} (τ : ElemType V) (a b : DynArray V) (l : List V)
    (c : ShrinkCall) (g : ArrayGrants) (h : Tidy τ a l) (hc : c.AsksForLess) (hin : c.InRange l)
    (hrun : c.exec τ a g = .ok (false, b)) :
    b.length = a.length ∧ b.contents = some (l.map .live) ↔ c.Restores τ l := by
  suffices hcontents : b.contents = some (l.map .live) ↔ c.Restores τ l by
    refine ⟨fun hb => hcontents.mp hb.2, fun hc => ⟨?_, hcontents.mpr hc⟩⟩
    rw [h.length, ← (cells_of_contents (hcontents.mpr hc)).2, length_map]
  cases c with
  | eraseRangeAndShrink i j =>
    exact ShrinkCall.eraseRangeAndShrink_restores_iff h hin.1 hin.2 hrun
  | popFrontAndShrink => exact ShrinkCall.popFrontAndShrink_restores_iff h hrun
  | extractRangeAndShrink i j =>
    obtain rfl := ShrinkCall.eq_of_refused (n := 0) h hin hrun (.inl rfl)
    exact iff_of_true h.contents trivial
  | resizeAndShrink n =>
    obtain rfl := ShrinkCall.eq_of_refused (i := 0) (j := 0) h hin hrun (.inr rfl)
    exact iff_of_true h.contents trivial
  | _ => exact hc.elim

/-- The first of two records goes with its memory.  The refusal shows unless they are equal. -/
theorem shrink_refused_restores_iff_records : ∃ b b',
    (ShrinkCall.eraseRangeAndShrink 0 1).exec recordType (arrayOf [1, 1]) ⟨false, 0⟩ =
      .ok (false, b) ∧ b.contents = some [.live 1, .live 1] ∧
    (ShrinkCall.eraseRangeAndShrink 0 1).exec recordType (arrayOf [1, 2]) ⟨false, 0⟩ =
      .ok (false, b') ∧ ¬ (b'.length = 2 ∧ b'.contents = some [.live 1, .live 2]) := by
  have hrun : ∀ l ∈ [[1, 1], [1, 2]], ((ShrinkCall.eraseRangeAndShrink 0 1).exec recordType
      (arrayOf l) ⟨false, 0⟩).map Prod.fst = .ok false := by decide +kernel
  obtain ⟨⟨_, b⟩, hb, rfl⟩ := map_eq_ok_iff.mp (hrun [1, 1] (by simp))
  obtain ⟨⟨_, b'⟩, hb', rfl⟩ := map_eq_ok_iff.mp (hrun [1, 2] (by simp))
  have h := fun l b hl => shrink_refused_restores_iff recordType (arrayOf l) b l
    (.eraseRangeAndShrink 0 1) ⟨false, 0⟩ (tidy_arrayOf hl) trivial
  refine ⟨b, b', hb, ((h [1, 1] b (by decide) ⟨by decide, by decide⟩ hb).mpr
    ⟨.inl rfl, .inl rfl, by decide⟩).2, hb', fun hno => ?_⟩
  exact absurd ((h [1, 2] b' (by decide) ⟨by decide, by decide⟩ hb').mp hno).2.2 (by decide)

/-- Memory for the rest of the array is refused, and what was to go is gone: a record was written
over, two handles were moved away, and one was destroyed. -/
theorem shrink_refused_loses :
    ((ShrinkCall.eraseRangeAndShrink 0 1).exec recordType (arrayOf [1, 2]) ⟨false, 0⟩).map
      (fun r => (r.1, r.2.contents)) = .ok (false, some [.live 2, .live 2]) ∧
    (ShrinkCall.popFrontAndShrink.exec handleType (arrayOf [1, 2, 3]) ⟨false, 0⟩).map
      (fun r => (r.1, r.2.contents)) = .ok (false, some [.live 1, .live 3, .moved]) ∧
    ((ShrinkCall.eraseRangeAndShrink 1 2).exec handleType (arrayOf [1, 2]) ⟨false, 0⟩).map
      (fun r => (r.1, r.2.contents)) = .ok (false, some [.live 1, .raw]) :=
  ⟨by decide +kernel, by decide +kernel, by decide +kernel⟩

/-- The first of three handles erased or popped, the last one is in front and the other was moved
away.  The first of two handles erased, an object is left behind.  One of two handles given up with
the memory, it is destroyed twice.  And the second of two records extracted with the memory, the
first one is there. -/
theorem shrinking_goes_wrong :
    ((ShrinkCall.eraseRange 0 1).exec handleType (arrayOf [1, 2, 3]) ⟨false, 0⟩).map
      (fun r => (r.1, r.2.contents)) = .ok (true, some [.live 3, .moved]) ∧
    (ShrinkCall.popFront.exec handleType (arrayOf [1, 2, 3]) ⟨false, 0⟩).map
      (fun r => (r.1, r.2.contents)) = .ok (true, some [.live 3, .moved]) ∧
    ((ShrinkCall.eraseRange 0 1).exec handleType (arrayOf [1, 2]) ⟨false, 0⟩ >>=
      fun r => r.2.clearAll handleType).map (fun b => b.mem.leak) = .ok true ∧
    (ShrinkCall.resizeAndShrink 1).exec handleType (arrayOf [1, 2]) ⟨false, 8192⟩ =
      .error .undefined ∧
    ((ShrinkCall.extractRangeAndShrink 1 2).exec recordType (arrayOf [1, 2]) ⟨false, 8192⟩).map
      (fun r => (r.1, r.2.contents)) = .ok (true, some [.live 1]) :=
  ⟨by decide +kernel, by decide +kernel, by decide +kernel, rfl, by decide +kernel⟩

end Pbos.Kfxx
