import Pbos.Kfxx.DynArrayDown
import Pbos.Kfxx.DynArrayGrow

/-!
# Kfxx/DynArrayShrink — giving up elements and memory

`Tidy τ a l` says that the array holds the values `l`, that its block holds no other object, and
that none was lost: destroying the array then destroys every object once (`Tidy.clean`).  The calls
that shrink the array keep this exactly in the cases of `ShrinkCall.Fits`.
-/

namespace Pbos.Kfxx

/-- The block starts with the values of the list. -/
def Mem.Shows {V : Type} (m : Mem V) (b : ℕ) (l : List V) : Prop :=
  ∀ k v, l[k]? = some v → m.cell (b, k) = .live v

namespace DynArray

variable {V : Type} {τ : ElemType V} {a a' : DynArray V} {l : List V} {g : ArrayGrants} {m : Mem V}
  {n k i j : ℕ} {construct : Bool}

/-- **The array holds `l`** and no other object, and no object was lost. -/
structure Tidy (τ : ElemType V) (a : DynArray V) (l : List V) : Prop extends Boxed τ a where
  length : a.length = l.length
  shows : a.mem.Shows a.data l
  rest : τ.trivDestructible = false → ∀ k, a.length ≤ k → k < a.capacity →
    a.mem.cell (a.data, k) = .raw
  leak : a.mem.leak = false

/-- **If the array is destroyed now**, no object is destroyed twice and none is left over. -/
def Clean (τ : ElemType V) (a : DynArray V) : Prop :=
  ∃ a', a.clearAll τ = .ok a' ∧ a'.mem.leak = false

/-- The cells that count as elements. -/
def InUse (a : DynArray V) : ℕ × ℕ → Prop := Within (a.data, 0) a.length

theorem inUse_iff : a.InUse (a.data, k) ↔ k < a.length := by
  simp [InUse, Within]

namespace Boxed

/-- The same block with other cells and another length. -/
theorem update (h : Boxed τ a) (hsize : m.size = a.mem.size) (hn : n ≤ a.capacity) :
    Boxed τ { a with length := n, mem := m } :=
  ⟨(congrFun hsize 0).trans h.null, h.empty, fun hd => (congrFun hsize _).trans (h.block hd),
    h.bound, hn⟩

theorem contents (h : Boxed τ a) (hlen : a.length = l.length) (hs : a.mem.Shows a.data l) :
    a.contents = some (l.map .live) := by
  have hcells : a.cells = l.map .live := by
    refine List.ext_getElem ?_ fun k hk hk' => ?_
    · simp [DynArray.cells, hlen]
    · have hk'' : k < l.length := by simpa using hk'
      simp only [DynArray.cells, List.getElem_map, List.getElem_range]
      exact hs k _ (List.getElem?_eq_getElem hk'')
  rw [DynArray.contents, if_pos, hcells]
  rcases Nat.eq_zero_or_pos a.length with h0 | h0
  · exact .inl h0
  · exact .inr (h.valid (by have := h.le; omega))

/-- Destroying the array destroys its elements, and there are no other objects. -/
theorem clean (h : Boxed τ a) (hr : τ.trivDestructible = false → ReadsOn τ a.mem a.InUse)
    (hrest : τ.trivDestructible = false → ∀ k, a.length ≤ k → k < a.capacity →
      a.mem.cell (a.data, k) = .raw)
    (hleak : a.mem.leak = false) : a.Clean τ := by
  obtain ⟨a', ha', -, -, hkeep, -⟩ := clearAll_eq (by
      cases hd : τ.trivDestructible with
      | true => exact .inl rfl
      | false => exact .inr fun q hq => (hr hd q hq).imp_right (·.isObject hd))
    (fun hc => h.block (h.data_ne (Nat.pos_of_ne_zero hc)))
  refine ⟨a', ha', (hkeep ?_).trans hleak⟩
  cases hd : τ.trivDestructible with
  | true => exact .inl rfl
  | false => exact .inr (hrest hd)

end Boxed

namespace Tidy

theorem readsOn (h : Tidy τ a l) : ReadsOn τ a.mem a.InUse := by
  rintro ⟨_, k⟩ ⟨rfl, -, hk⟩
  have hk : k < a.length := by simpa using hk
  obtain ⟨v, hv⟩ : ∃ v, a.mem.cell (a.data, k) = .live v :=
    ⟨_, h.shows k _ (List.getElem?_eq_getElem (h.length ▸ hk))⟩
  exact ⟨h.valid (by have := h.le; omega), .inl (by rw [hv]; rfl)⟩

theorem contents (h : Tidy τ a l) : a.contents = some (l.map .live) :=
  h.toBoxed.contents h.length h.shows

/-- **A tidy array ends well.** -/
theorem clean (h : Tidy τ a l) : a.Clean τ := h.toBoxed.clean (fun _ => h.readsOn) h.rest h.leak

end Tidy

/-- Contents that are all values leave no element moved away. -/
theorem live_of_contents (hc : a.contents = some (l.map .live)) (hk : k < a.length) :
    a.mem.Valid (a.data, a.length - 1) ∧ ∃ v, l[k]? = some v ∧
      a.mem.cell (a.data, k) = .live v := by
  rw [DynArray.contents] at hc
  split at hc
  · rename_i hv
    have hcells : a.cells = l.map .live := Option.some.inj hc
    have hlen : a.length = l.length := by
      have := congrArg List.length hcells
      simpa [DynArray.cells] using this
    have hk' := congrArg (fun L => L[k]?) hcells
    simp only [DynArray.cells, List.getElem?_map, List.getElem?_range hk,
      List.getElem?_eq_getElem (hlen ▸ hk)] at hk'
    exact ⟨hv.resolve_left (by omega), _, List.getElem?_eq_getElem (hlen ▸ hk), Option.some.inj hk'⟩
  · cases hc

/-- An object beyond the elements is left over when the array is destroyed. -/
theorem not_clean_of_object (hd : τ.trivDestructible = false)
    (hlive : ∀ k < a.length, a.mem.Valid (a.data, k) ∧ (a.mem.cell (a.data, k)).isObject = true)
    (hb : a.mem.size a.data = some a.capacity) (hk : a.length ≤ k) (hkc : k < a.capacity)
    (ho : (a.mem.cell (a.data, k)).isObject = true) : ¬ a.Clean τ := by
  rintro ⟨b, hb', hleak⟩
  obtain ⟨a', ha', -, -, -, hleak'⟩ := clearAll_eq (.inr fun q hq => by
      obtain ⟨_, k⟩ := q
      obtain ⟨rfl, -, hk⟩ := hq
      exact hlive k (by simpa using hk)) fun _ => hb
  obtain rfl := Except.ok.inj (ha'.symm.trans hb')
  rw [hleak' hd k hk hkc ho] at hleak
  cases hleak

/-- An element that was destroyed already is destroyed again with the array. -/
theorem not_clean_of_hole (hd : τ.trivDestructible = false) (hk : k < a.length)
    (hraw : a.mem.cell (a.data, k) = .raw) : ¬ a.Clean τ := by
  rintro ⟨b, hb, -⟩
  obtain ⟨m, hm, -⟩ := of_bind hb
  have hwithin : Within (a.data, 0) a.length (a.data, k) :=
    ⟨rfl, Nat.zero_le _, by rwa [Nat.zero_add]⟩
  exact destructData_twice hd hwithin hraw hm

theorem foldlM_destroy_leak {ps : List (ℕ × ℕ)} {m' : Mem V}
    (h : ps.foldlM (destroyAt τ) m = .ok m') : m'.leak = m.leak := by
  induction ps generalizing m with
  | nil =>
    cases h
    rfl
  | cons p ps ih =>
    obtain ⟨m₁, hm₁, h⟩ := of_bind h
    rw [ih h]
    rw [destroyAt] at hm₁
    split at hm₁
    · rw [Except.ok.inj hm₁]
    · obtain ⟨c, -, hm₁⟩ := of_bind hm₁
      split at hm₁
      · rw [← Except.ok.inj hm₁]
        rfl
      · cases hm₁

/-- What was lost stays lost. -/
theorem not_clean_of_leak (h : a.mem.leak = true) : ¬ a.Clean τ := by
  rintro ⟨b, hb, hleak⟩
  obtain ⟨m₁, hm₁, hb⟩ := of_bind hb
  obtain ⟨m₂, hm₂, hb⟩ := of_bind hb
  cases hb
  have h₁ : m₁.leak = true := by
    rw [destructData] at hm₁
    split at hm₁
    · rw [← Except.ok.inj hm₁]
      exact h
    · rw [foldlM_destroy_leak hm₁]
      exact h
  split at hm₂
  · cases hm₂
    rw [h₁] at hleak
    cases hleak
  · rw [release] at hm₂
    split at hm₂
    · cases hm₂
    · cases hm₂
      simp [Mem.leakIf, h₁] at hleak

/-- **A tidy array** is one with these contents that ends well. -/
theorem Boxed.tidy_iff (h : Boxed τ a) :
    Tidy τ a l ↔ a.contents = some (l.map .live) ∧ a.Clean τ := by
  refine ⟨fun ht => ⟨ht.contents, ht.clean⟩, fun ⟨hc, hclean⟩ => ?_⟩
  have hlen : a.length = l.length := by
    rw [DynArray.contents] at hc
    split at hc
    · have := congrArg List.length (Option.some.inj hc)
      simpa [DynArray.cells] using this
    · cases hc
  have hlive : ∀ k < a.length, ∃ v, l[k]? = some v ∧ a.mem.cell (a.data, k) = .live v :=
    fun k hk => (live_of_contents hc hk).2
  refine ⟨h, hlen, fun k v hv => ?_, fun hd k hk hkc => ?_, ?_⟩
  · obtain ⟨hk, -⟩ := List.getElem?_eq_some_iff.mp hv
    obtain ⟨v', hv', hcell⟩ := hlive k (hlen ▸ hk)
    rw [hcell, Option.some.inj (hv.symm.trans hv')]
  · cases hcell : a.mem.cell (a.data, k) with
    | raw => rfl
    | _ =>
      refine absurd hclean (not_clean_of_object hd (fun k hk => ⟨h.valid ?_, ?_⟩)
        (h.block (h.data_ne (by omega))) hk hkc (by rw [hcell]; rfl))
      · have := h.le
        omega
      · obtain ⟨v, -, hv⟩ := hlive k hk
        rw [hv]
        rfl
  · cases hl : a.mem.leak with
    | false => rfl
    | true => exact absurd hclean (not_clean_of_leak hl)

/-! ## Smaller lengths and smaller blocks -/

/-- **Shrinking `resize`**: the elements beyond the new length are destroyed. -/
theorem resizeWith_shrink (construct : Bool) (hr : ReadsOn τ a.mem a.InUse) (hn : n < a.length)
    (g : ArrayGrants) :
    ∃ m, a.resizeWith construct τ n g = .ok (true, { a with length := n, mem := m }) ∧
      m.size = a.mem.size ∧ m.leak = a.mem.leak ∧
      (∀ k, k < n ∨ a.length ≤ k → m.cell (a.data, k) = a.mem.cell (a.data, k)) ∧
      (τ.trivDestructible = false → ∀ k, n ≤ k → k < a.length → m.cell (a.data, k) = .raw) := by
  have hwithin : ∀ k, Within (a.data, n) (a.length - n) (a.data, k) ↔ n ≤ k ∧ k < a.length :=
    fun k => by
      simp only [Within, true_and]
      omega
  obtain ⟨m, hm, hsize, hleak, -, hraw, hout⟩ := destructData_eq
    (by
      cases hd : τ.trivDestructible with
      | true => exact .inl rfl
      | false =>
        right
        rintro ⟨_, k⟩ ⟨rfl, h2, h3⟩
        have hk : k < a.length := ((hwithin k).mp ⟨rfl, h2, h3⟩).2
        exact (hr _ (inUse_iff.mpr hk)).imp_right (·.isObject hd))
  refine ⟨m, ?_, hsize, hleak, fun k hk => hout _ fun hw => ?_, fun hd k hk hkl =>
    hraw hd _ ((hwithin k).mpr ⟨hk, hkl⟩)⟩
  · rw [resizeWith, if_neg (by omega), if_pos hn, shrink, arrayAssert, kdAssert_of_pos hn]
    simp [bind, Except.bind, hm]
  · have := (hwithin k).mp hw
    omega

/-- **Shrinking `resize`** leaves a tidy array, if the elements that stay were there before. -/
theorem resizeWith_settles (construct : Bool) (h : Boxed τ a) (hr : ReadsOn τ a.mem a.InUse)
    (hrest : τ.trivDestructible = false → ∀ k, a.length ≤ k → k < a.capacity →
      a.mem.cell (a.data, k) = .raw)
    (hleak : a.mem.leak = false) (hn : n < a.length) (hlen : l.length = n) (g : ArrayGrants) :
    ∃ b, a.resizeWith construct τ n g = .ok (true, b) ∧ Boxed τ b ∧
      (Tidy τ b l ↔ a.mem.Shows a.data l) := by
  obtain ⟨m, hrun, hsize, hleak', hkeep, hraw⟩ := resizeWith_shrink construct hr hn g
  have hbox : Boxed τ { a with length := n, mem := m } :=
    h.update hsize (Nat.le_trans (Nat.le_of_lt hn) h.le)
  have hshows : m.Shows a.data l ↔ a.mem.Shows a.data l :=
    forall₂_congr fun k v => imp_congr_right fun hv => by
      rw [hkeep k (.inl (hlen ▸ (List.getElem?_eq_some_iff.mp hv).1))]
  refine ⟨_, hrun, hbox, fun ht => hshows.mp ht.shows, fun hs => ⟨hbox, hlen.symm, hshows.mpr hs,
    fun hd k hk hkc => ?_, hleak'.trans hleak⟩⟩
  by_cases hlt : k < a.length
  · exact hraw hd k hk hlt
  · rw [show m.cell (a.data, k) = _ from hkeep k (.inr (Nat.not_lt.mp hlt))]
    exact hrest hd k (Nat.not_lt.mp hlt) hkc

section ShrinkCapacity

variable (h : Boxed τ a) (hd : a.data ≠ 0) (hn : n ≤ a.length)

include h hd hn

omit h hd hn in
/-- A refusal changes nothing. -/
theorem eq_of_shrinkCapacity_false {c : ℕ} (hrun : a.shrinkCapacity τ n c g = .ok (false, a')) :
    a' = a := by
  obtain ⟨-, -, hrun⟩ := of_bind hrun
  obtain ⟨-, -, hrun⟩ := of_bind hrun
  dsimp only at hrun
  have htrue : ∀ {b : DynArray V} {p k}, b.takeOver τ p n k ≠ .ok (false, a') := fun h => by
    obtain ⟨_, -, h⟩ := of_bind h
    cases h
  split at hrun
  · split at hrun
    · obtain ⟨r, -, hrun⟩ := of_bind hrun
      split at hrun
      · exact (ok_mk_inj hrun).2.symm
      · cases hrun
    · split at hrun
      · exact (ok_mk_inj hrun).2.symm
      · exact absurd hrun htrue
  · split at hrun
    · exact (ok_mk_inj hrun).2.symm
    · obtain ⟨m, -, hrun⟩ := of_bind hrun
      exact absurd hrun htrue

theorem shrinkCapacity_refused (hg : g.block = 0) : a.shrinkCapacity τ n n g = .ok (false, a) := by
  have hc : n ≤ a.capacity := Nat.le_trans hn h.le
  simp only [shrinkCapacity, arrayAssert, kdAssert_of_pos hn, kdAssert_of_pos hc, bind, Except.bind,
    hg]
  cases hA : τ.trivMoveAssignable with
  | true => simp [hd, realloc, h.block hd]
  | false => simp [alloc]

omit hd in
theorem bytes_shrunk : n * τ.size % 2 ^ 64 / τ.size = n := by
  have := Nat.mul_le_mul_right τ.size (Nat.le_trans hn h.le)
  have := h.bound
  rw [Nat.mod_eq_of_lt (by omega), Nat.mul_div_cancel _ τ.size_pos]

omit hd in
/-- The array in its new block. -/
theorem boxed_new (hg : g.block ≠ 0) (h0 : m.size 0 = none) (hb : m.size g.block = some n) :
    Boxed τ ⟨n, n, g.block, m⟩ where
  null := h0
  empty e := absurd e hg
  block _ := hb
  bound := Nat.lt_of_le_of_lt (Nat.mul_le_mul_right _ (Nat.le_trans hn h.le)) h.bound
  le := Nat.le_refl _

/-- **A smaller block** by `realloc`: objects that do not fit are lost. -/
theorem shrinkCapacity_realloc (hA : τ.trivMoveAssignable = true) (hg : g.block ≠ 0) :
    ∃ m', a.shrinkCapacity τ n n g = .ok (true, ⟨n, n, g.block, m'⟩) ∧ Boxed τ ⟨n, n, g.block, m'⟩ ∧
      (∀ k < n, m'.cell (g.block, k) = a.mem.cell (a.data, k)) ∧
      (τ.trivDestructible = true ∨ (∀ k, n ≤ k → k < a.capacity →
        a.mem.cell (a.data, k) = .raw) → m'.leak = a.mem.leak) ∧
      (τ.trivDestructible = false → ∀ k, n ≤ k → k < a.capacity →
        (a.mem.cell (a.data, k)).isObject = true → m'.leak = true) := by
  have hc : n ≤ a.capacity := Nat.le_trans hn h.le
  obtain ⟨m', hm', hsize, hsize', hkeep, -, hleak, hleak'⟩ :=
    realloc_eq (n * τ.size % 2 ^ 64) (h.block hd) hg
  rw [bytes_shrunk h hn] at hsize hkeep hleak hleak'
  refine ⟨m', ?_, boxed_new h hn hg ((hsize' 0 hg.symm hd.symm).trans h.null) hsize,
    fun k hk => hkeep k (by omega) hk, hleak, hleak'⟩
  simp only [shrinkCapacity, arrayAssert, kdAssert_of_pos hn, kdAssert_of_pos hc, bind, Except.bind,
    hA, if_true, if_pos hd, hm', if_neg hg]

/-- **A smaller block** to which the elements are moved one by one. -/
theorem shrinkCapacity_move (hA : τ.trivMoveAssignable = false) (hlt : n < a.length)
    (hdd : τ.trivDestructible = true) (hr : ∀ k < n, τ.Reads (a.mem.cell (a.data, k)))
    (hg : g.block ≠ 0) (hfresh : a.mem.size g.block = none) :
    ∃ m', a.shrinkCapacity τ n n g = .ok (true, ⟨n, n, g.block, m'⟩) ∧ Boxed τ ⟨n, n, g.block, m'⟩ ∧
      (∀ k < n, m'.cell (g.block, k) = a.mem.cell (a.data, k)) ∧ m'.leak = a.mem.leak := by
  have hle := h.le
  have hc : n ≤ a.capacity := Nat.le_trans hn hle
  have hne : g.block ≠ a.data := fun e => by
    rw [e, h.block hd] at hfresh
    cases hfresh
  obtain ⟨m₁, hm₁, hsize₁, hsize₁', -, hcell₁, hleak₁⟩ :=
    alloc_eq (n * τ.size % 2 ^ 64) hg
  rw [bytes_shrunk h hn] at hsize₁
  have hb₁ : m₁.size a.data = some a.capacity := (hsize₁' _ hne.symm).trans (h.block hd)
  obtain ⟨m₂, hm₂, hmoved, hleak₂⟩ := moveDataUninit_eq (d := (g.block, 0))
    (s := (a.data, 0)) (.inl hne)
    (fun k hk => ⟨Mem.valid_of_lt hsize₁ (by simpa using hk), Mem.valid_of_lt hb₁ (by simp; omega)⟩)
    (fun k hk => by
      rw [Nat.zero_add, hcell₁ _ hne.symm]
      exact hr k hk)
  obtain ⟨a', ha', hs, hcell, hleak, -⟩ := clearAll_eq (a := { a with mem := m₂ })
    (.inl hdd) fun _ => (congrFun hmoved.size _).trans hb₁
  refine ⟨a'.mem, ?_, boxed_new h hn hg ?_ ?_, fun k hk => ?_, ?_⟩
  · simp only [shrinkCapacity, arrayAssert, kdAssert_of_pos hn, kdAssert_of_pos hc, bind,
      Except.bind, hA, Bool.false_eq_true, if_false, hm₁, if_neg hg, shrink, kdAssert_of_pos hlt,
      destructData, hdd, if_true, ne_eq, hne, hd, not_false_eq_true, and_self, hm₂, takeOver, ha']
  · rw [hs 0 (.inl hd.symm), hmoved.size, hsize₁' 0 hg.symm, h.null]
  · rw [hs _ (.inl hne), hmoved.size, hsize₁]
  · have := hmoved.dst k hk
    simp only [Nat.zero_add] at this
    rw [hcell _ hne, this, hcell₁ _ hne.symm]
  · rw [hleak (.inl hdd), hleak₂ (.inl hdd), hleak₁]

omit h hn in
/-- **Elements that are moved one by one** survive a smaller block only if destroying them does
nothing: those that are given up are destroyed twice. -/
theorem of_shrinkCapacity_move (hA : τ.trivMoveAssignable = false) (hg : g.block ≠ 0)
    (hne : g.block ≠ a.data) {r : Bool × DynArray V} (hrun : a.shrinkCapacity τ n n g = .ok r) :
    τ.trivDestructible = true := by
  obtain ⟨m₁, hm₁, -⟩ := alloc_eq (τ := τ) (m := a.mem) (n * τ.size % 2 ^ 64) hg
  obtain ⟨-, -, hrun⟩ := of_bind hrun
  obtain ⟨-, -, hrun⟩ := of_bind hrun
  rw [if_neg (by simp [hA]), hm₁] at hrun
  simp only [if_neg hg] at hrun
  obtain ⟨m₂, hm₂, hrun⟩ := of_bind hrun
  obtain ⟨_, hassert, hm₂⟩ := of_bind hm₂
  have hlt : n < a.length := kdAssert_eq_ok_iff.mp hassert
  by_contra hdd
  rw [Bool.not_eq_true] at hdd
  obtain ⟨m₃, hm₃, hm₂⟩ := of_bind hm₂
  have hraw : m₃.cell (a.data, n) = .raw := (destructData_raw hdd hm₃).1 _
    ⟨rfl, Nat.le_refl _, by simp; omega⟩
  have hMc : τ.trivMoveConstructible = false := by
    by_contra hMc
    rw [Bool.not_eq_false] at hMc
    rw [τ.destructible_of_move hMc] at hdd
    cases hdd
  rw [if_pos ⟨hne, hd⟩, moveDataUninit, if_neg (by simp [hMc])] at hm₂
  have hraw' : m₂.cell (a.data, n) = .raw := by
    rw [moveConstruct_frame hm₂, hraw]
    intro x hx
    obtain ⟨k, hk, rfl⟩ := mem_moveOrder.mp hx
    refine ⟨fun e => hne (congrArg Prod.fst e).symm, fun e => ?_⟩
    have := congrArg Prod.snd e
    simp [Moves.row] at this
    omega
  obtain ⟨b, hb', -⟩ := of_bind hrun
  obtain ⟨m₄, hm₄, -⟩ := of_bind hb'
  have hwithin : Within (a.data, 0) a.length (a.data, n) :=
    ⟨rfl, Nat.zero_le _, by rwa [Nat.zero_add]⟩
  exact destructData_twice hdd hwithin hraw' hm₄

omit h hd hn in
/-- Elements that were all kept, in a block without room for more. -/
theorem tidy_new_iff (hlen : l.length = n) (hbox : Boxed τ ⟨n, n, g.block, m⟩)
    (hcell : ∀ k < n, m.cell (g.block, k) = a.mem.cell (a.data, k)) :
    Tidy τ ⟨n, n, g.block, m⟩ l ↔ a.mem.Shows a.data l ∧ m.leak = false := by
  have hshows : m.Shows g.block l ↔ a.mem.Shows a.data l :=
    forall₂_congr fun k v => imp_congr_right fun hv => by
      rw [hcell k (hlen ▸ (List.getElem?_eq_some_iff.mp hv).1)]
  exact ⟨fun ht => ⟨hshows.mp ht.shows, ht.leak⟩, fun ⟨hs, hl⟩ =>
    ⟨hbox, hlen.symm, hshows.mpr hs, fun _ k hk hk' => absurd hk' (Nat.not_lt.mpr hk), hl⟩⟩

/-- **`_shrink_capacity`**, the block granted: it leaves the first elements as they were, and the
array is tidy if there was nothing to destroy. -/
theorem shrinkCapacity_granted (hlen : l.length = n) (hleak : a.mem.leak = false)
    (hr : ∀ k < n, τ.Reads (a.mem.cell (a.data, k)))
    (hA : τ.trivMoveAssignable = true ∨ n < a.length) (hg : g.block ≠ 0)
    (hfresh : FreshBlock τ a g) :
    (∃ b, a.shrinkCapacity τ n n g = .ok (true, b) ∧ Boxed τ b ∧
      (Tidy τ b l ↔ a.mem.Shows a.data l ∧ (τ.trivDestructible = true ∨
        τ.trivMoveAssignable = true ∧ ∀ k, n ≤ k → k < a.capacity →
          a.mem.cell (a.data, k) = .raw))) ∨
    (∀ r, a.shrinkCapacity τ n n g ≠ .ok r) ∧
      τ.trivDestructible = false ∧ τ.trivMoveAssignable = false := by
  cases hA' : τ.trivMoveAssignable with
  | true =>
    obtain ⟨m', hrun, hbox, hcell, hsafe, hlost⟩ := shrinkCapacity_realloc h hd hn hA' hg
    refine .inl ⟨_, hrun, hbox, (tidy_new_iff hlen hbox hcell).trans (and_congr_right fun _ => ?_)⟩
    refine ⟨fun hl => ?_, fun hok => (hsafe (hok.imp_right (·.2))).trans hleak⟩
    cases hdd : τ.trivDestructible with
    | true => exact .inl rfl
    | false =>
      refine .inr ⟨rfl, fun k hk hk' => ?_⟩
      cases hc : a.mem.cell (a.data, k) with
      | raw => rfl
      | _ =>
        rw [hlost hdd k hk hk' (by rw [hc]; rfl)] at hl
        cases hl
  | false =>
    have hfree : a.mem.size g.block = none := (hfresh hg).resolve_right fun hb => by
        rw [hA'] at hb
        cases hb.1
    cases hdd : τ.trivDestructible with
    | true =>
      have hlt : n < a.length := hA.resolve_left (by simp [hA'])
      obtain ⟨m', hrun, hbox, hcell, hkeep⟩ := shrinkCapacity_move h hd hn hA' hlt hdd hr hg hfree
      refine .inl ⟨_, hrun, hbox, (tidy_new_iff hlen hbox hcell).trans
        (and_congr_right fun _ => ?_)⟩
      exact ⟨fun _ => .inl rfl, fun _ => hkeep.trans hleak⟩
    | false =>
      refine .inr ⟨fun r hrun => ?_, rfl, rfl⟩
      have hne : g.block ≠ a.data := fun e => by
        rw [e, h.block hd] at hfree
        cases hfree
      rw [of_shrinkCapacity_move hd hA' hg hne hrun] at hdd
      cases hdd

end ShrinkCapacity

/-! ## Elements moved down -/

/-- **Elements are moved down** within the block: they are where they belong exactly if the type and
the distance allow it. -/
theorem shows_moveDown {P : ℕ × ℕ → Prop} {b d s : ℕ} (hr : ReadsOn τ m P)
    (hd : ∀ k < n, P (b, d + k)) (hs : ∀ k < n, P (b, s + k)) (hds : d ≤ s) (hsn : s + n ≤ l.length)
    (hlive : ∀ k v, k < d ∨ s ≤ k ∧ k < s + n → l[k]? = some v → m.cell (b, k) = .live v) :
    ∃ m', moveData τ m (b, d) (b, s) n = .ok m' ∧ m'.size = m.size ∧ m'.leak = m.leak ∧
      ReadsOn τ m' P ∧
      (∀ k, ¬ (d ≤ k ∧ k < d + n) → ¬ (s ≤ k ∧ k < s + n) → m'.cell (b, k) = m.cell (b, k)) ∧
      (m'.Shows b (l.take d ++ (l.drop s).take n) ↔ τ.DownFits d s n) := by
  obtain ⟨m', hm', hsize, hleak, hr', hframe⟩ := moveData_ok (d := (b, d)) (s := (b, s)) hr hd hs
  have hout : ∀ k, ¬ (d ≤ k ∧ k < d + n) → ¬ (s ≤ k ∧ k < s + n) →
      m'.cell (b, k) = m.cell (b, k) := fun k hk hk' =>
    hframe _ (fun hw => hk hw.2) fun hw => hk' hw.2
  refine ⟨m', hm', hsize, hleak, hr', hout, fun hshows => ?_, fun hfit k v hv => ?_⟩
  · by_contra hbad
    obtain ⟨k, hk, hkn, hmoved⟩ := moveData_bad (d := (b, d)) (s := (b, s)) hr hd hs hds hbad hm'
    have hlt : k < (l.take d ++ (l.drop s).take n).length := by
      simp only [List.length_append, List.length_take, List.length_drop]
      omega
    rw [hshows k _ (List.getElem?_eq_getElem hlt)] at hmoved
    cases hmoved
  · have hdl : (l.take d).length = d := List.length_take_of_le (by omega)
    by_cases hk : k < d
    · rw [List.getElem?_append_left (by omega), List.getElem?_take_of_lt hk] at hv
      rw [hout k (by omega) (by omega)]
      exact hlive k v (.inl hk) hv
    · rw [List.getElem?_append_right (by omega), hdl] at hv
      have hkn : k - d < n := by
        have := (List.getElem?_eq_some_iff.mp hv).1
        simp only [List.length_take] at this
        omega
      rw [List.getElem?_take_of_lt hkn, List.getElem?_drop] at hv
      obtain ⟨m₁, hm₁, hmoved⟩ := moveData_eq (d := (b, d)) (s := (b, s))
        rfl (by
          rcases hfit with h0 | hA | hMa
          · exact .inr (.inr h0)
          · exact .inl hA
          · exact .inr (.inl ⟨hMa.1, .inl hMa.2⟩))
        (fun k hk => ⟨(hr _ (hd k hk)).1, (hr _ (hs k hk)).1⟩)
        fun k hk => ⟨(hr _ (hs k hk)).2, (hr _ (hd k hk)).2⟩
      obtain rfl := Except.ok.inj (hm₁.symm.trans hm')
      have hdst := hmoved.dst (k - d) hkn
      simp only [Nat.add_sub_cancel' (Nat.not_lt.mp hk)] at hdst
      rw [hdst]
      exact hlive _ v (.inr ⟨Nat.le_add_right .., by omega⟩) hv

/-- Elements are moved down to the front, from a memory that may have lost earlier ones. -/
theorem Tidy.moveToFront {s : ℕ} (h : Tidy τ a l) (hr : ReadsOn τ m a.InUse)
    (hsame : ∀ k, s ≤ k → m.cell (a.data, k) = a.mem.cell (a.data, k)) (hsn : s + n ≤ l.length) :
    ∃ m', moveData τ m (a.data, 0) (a.data, s) n = .ok m' ∧ m'.size = m.size ∧ m'.leak = m.leak ∧
      ReadsOn τ m' a.InUse ∧ (∀ k, a.length ≤ k → m'.cell (a.data, k) = a.mem.cell (a.data, k)) ∧
      (m'.Shows a.data ((l.drop s).take n) ↔ τ.DownFits 0 s n) := by
  have hlen := h.length
  obtain ⟨m', hm', hsize, hleak, hr', hframe, hshows⟩ := shows_moveDown
    hr
    (fun k hk => inUse_iff.mpr (by omega)) (fun k hk => inUse_iff.mpr (by omega)) (Nat.zero_le s)
    hsn
    fun k v hk hv => by
      rw [hsame k (by omega)]
      exact h.shows k v hv
  exact ⟨m', hm', hsize, hleak, hr', fun k hk => by
    rw [hframe k (by omega) (by omega), hsame k (by omega)], hshows⟩

/-- **What `erase_range` does to the elements** before it changes the length. -/
structure Erased (τ : ElemType V) (a : DynArray V) (l : List V) (i j : ℕ) (m : Mem V) : Prop where
  size : m.size = a.mem.size
  leak : m.leak = a.mem.leak
  shows_iff : m.Shows a.data (l.take i ++ l.drop j) ↔ τ.DownFits i j (l.length - j)
  reads : ∀ k < l.length - (j - i), τ.Reads (m.cell (a.data, k))
  above : ∀ k, l.length ≤ k → m.cell (a.data, k) = a.mem.cell (a.data, k)
  -- what is left of the elements that were moved down or erased
  left_iff : τ.trivDestructible = false →
    ((∀ k, l.length - (j - i) ≤ k → k < l.length → m.cell (a.data, k) = .raw) ↔
      j = l.length ∨ i = j)
  whole : τ.trivDestructible = true ∨ j - i ≤ l.length - j → ReadsOn τ m a.InUse
  hole : τ.trivDestructible = false → l.length - j < j - i →
    m.cell (a.data, i + (l.length - j)) = .raw

/-- The elements to be erased that no other one will be moved to are destroyed. -/
theorem Tidy.destroyGap (h : Tidy τ a l) (hij : i ≤ j) (hj : j ≤ l.length) :
    ∃ m₁, (if a.length - j < j - i then
        destructData τ a.mem (a.data, i + (a.length - j)) (j - i - (a.length - j))
      else .ok a.mem) = .ok m₁ ∧ m₁.size = a.mem.size ∧ m₁.leak = a.mem.leak ∧
      (τ.trivDestructible = true → m₁ = a.mem) ∧
      (τ.trivDestructible = false → ∀ k, i + (l.length - j) ≤ k → k < j →
        m₁.cell (a.data, k) = .raw) ∧
      ∀ k, ¬ (i + (l.length - j) ≤ k ∧ k < j) → m₁.cell (a.data, k) = a.mem.cell (a.data, k) := by
  have hlen := h.length
  by_cases hgap : a.length - j < j - i
  · have hwithin : ∀ k, Within (a.data, i + (a.length - j)) (j - i - (a.length - j)) (a.data, k) ↔
        i + (l.length - j) ≤ k ∧ k < j := fun k => by
      simp only [Within, true_and]
      omega
    obtain ⟨m₁, hm₁, hsize, hleak, hsame, hraw, hout⟩ := destructData_eq
      (p := (a.data, i + (a.length - j))) (n := j - i - (a.length - j)) (by
        cases hdd : τ.trivDestructible with
        | true => exact .inl rfl
        | false =>
          right
          rintro ⟨_, k⟩ ⟨rfl, h2, h3⟩
          exact (h.readsOn _ (inUse_iff.mpr (by omega))).imp_right (·.isObject hdd))
    exact ⟨m₁, by rw [if_pos hgap, hm₁], hsize, hleak, hsame,
      fun hdd k hk hk' => hraw hdd _ ((hwithin k).mpr ⟨hk, hk'⟩),
      fun k hk => hout _ fun hw => hk ((hwithin k).mp hw)⟩
  · exact ⟨a.mem, if_neg hgap, rfl, rfl, fun _ => rfl, fun _ k hk hk' => by omega, fun _ _ => rfl⟩

theorem Tidy.erased (h : Tidy τ a l) (hi : i < l.length) (hij : i ≤ j) (hj : j ≤ l.length) :
    ∃ m, a.eraseMove τ i j = .ok m ∧ Erased τ a l i j m := by
  have hlen := h.length
  obtain ⟨m₁, hm₁, hsize₁, hleak₁, hsame₁, hraw₁, hout₁⟩ := h.destroyGap hij hj
  let P : ℕ × ℕ → Prop := fun q => a.InUse q ∧
    (τ.trivDestructible = true ∨ ¬ (i + (l.length - j) ≤ q.2 ∧ q.2 < j))
  have hP : ∀ k < a.length, ¬ (i + (l.length - j) ≤ k ∧ k < j) → P (a.data, k) :=
    fun k hk hk' => ⟨inUse_iff.mpr hk, .inr hk'⟩
  have hreads₁ : ReadsOn τ m₁ P := by
    rintro ⟨_, k⟩ ⟨⟨rfl, h2, h3⟩, hq⟩
    obtain ⟨hv, hr⟩ := h.readsOn (a.data, k) ⟨rfl, h2, h3⟩
    refine ⟨hv.congr hsize₁, ?_⟩
    rcases hq with hdd | hk
    · rw [hsame₁ hdd]
      exact hr
    · rw [hout₁ k hk]
      exact hr
  obtain ⟨m, hm, hsize, hleak, hreads, hframe, hshows⟩ := shows_moveDown
    (n := l.length - j) (l := l) hreads₁
    (fun k hk => hP _ (by omega) (by omega)) (fun k hk => hP _ (by omega) (by omega)) hij (by omega)
    fun k v hk hv => by
      rw [hout₁ k (by omega)]
      exact h.shows k v hv
  refine ⟨m, ?_, hsize.trans hsize₁, hleak.trans hleak₁, ?_, fun k hk => ?_, fun k hk => ?_,
    fun hdd => ⟨fun hleft => ?_, fun hend k hk hkl => ?_⟩, fun hok q hq => hreads q ⟨hq, ?_⟩,
    fun hdd hgap => ?_⟩
  · rw [eraseMove]
    simp only [hm₁]
    rwa [hlen]
  · rwa [show (l.drop j).take (l.length - j) = l.drop j from List.take_of_length_le (by simp)]
      at hshows
  · exact (hreads _ (hP k (by omega) (by omega))).2
  · rw [hframe k (by omega) (by omega), hout₁ k (by omega)]
  · by_contra hne
    have hlast := (hreads _ (hP (l.length - 1) (by omega) (by omega))).2.isObject hdd
    rw [hleft _ (by omega) (by omega)] at hlast
    cases hlast
  · rcases hend with rfl | rfl
    · rw [hframe k (by omega) (by omega)]
      exact hraw₁ hdd k (by omega) (by omega)
    · omega
  · exact hok.imp_right fun hle => by omega
  · rw [hframe _ (by omega) (by omega)]
    exact hraw₁ hdd _ (by omega) (by omega)

end DynArray

end Pbos.Kfxx
