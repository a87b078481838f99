import Pbos.Kfxx.DynArrayMem

/-!
# Kfxx/DynArrayGrow — inserting and growing

`Stored τ a l` is what the growing calls keep: the array owns a block as large as its capacity, the
first cells of it hold `l` and the others nothing.  `Grown` is the array after it made room.
-/

namespace Pbos.Kfxx

/-- An element that is constructed by default; a trivial constructor gives it no value. -/
def ElemType.defaultCell {V : Type} (τ : ElemType V) : Cell V :=
  if τ.trivConstructible then .raw else .live τ.default

theorem ElemType.reads_defaultCell {V : Type} (τ : ElemType V) : τ.Reads τ.defaultCell := by
  rw [defaultCell]
  cases h : τ.trivConstructible with
  | true => exact .inr h
  | false => exact .inl rfl

namespace DynArray

variable {V : Type} {τ : ElemType V} {a a' : DynArray V} {l : List (Cell V)} {g : ArrayGrants}
  {n k index newCapacity : ℕ} {x : V} {construct : Bool}

/-- The array owns a block as large as its capacity. -/
structure Boxed (τ : ElemType V) (a : DynArray V) : Prop where
  null : a.mem.size 0 = none
  empty : a.data = 0 → a.capacity = 0
  block : a.data ≠ 0 → a.mem.size a.data = some a.capacity
  bound : a.capacity * τ.size < 2 ^ 64
  le : a.length ≤ a.capacity

/-- **The array holds `l`** in a block of its own. -/
structure Stored (τ : ElemType V) (a : DynArray V) (l : List (Cell V)) : Prop
    extends Boxed τ a where
  cells : a.cells = l
  reads : ∀ k < a.length, τ.Reads (a.mem.cell (a.data, k))
  rest : ∀ k, a.length ≤ k → k < a.capacity → a.mem.cell (a.data, k) = .raw

/-- **The array made room** for `n` elements: the old ones are where they belong, and `new` is in
the cells after them. -/
structure Grown (τ : ElemType V) (a : DynArray V) (n : ℕ) (new : Cell V) (a' : DynArray V) :
    Prop where
  null : a'.mem.size 0 = none
  data : a'.data ≠ 0
  block : a'.mem.size a'.data = some a'.capacity
  bound : a'.capacity * τ.size < 2 ^ 64
  le : n ≤ a'.capacity
  old : ∀ k < a.length, a'.mem.cell (a'.data, k) = a.mem.cell (a.data, k)
  new : ∀ k, a.length ≤ k → k < n → a'.mem.cell (a'.data, k) = new
  rest : ∀ k, n ≤ k → k < a'.capacity → a'.mem.cell (a'.data, k) = .raw

/-- The block given is a new one, or the one that `realloc` was to make larger. -/
def FreshBlock (τ : ElemType V) (a : DynArray V) (g : ArrayGrants) : Prop :=
  g.block ≠ 0 → a.mem.size g.block = none ∨ τ.trivMoveAssignable = true ∧ g.block = a.data

/-- What `_expand_to` leaves in the cells it adds. -/
def expandedCell (τ : ElemType V) (construct : Bool) : Cell V :=
  if construct = true ∧ τ.trivConstructible = false then .live τ.default else .raw

/-- What `_grow_capacity` leaves in the cells it adds: nothing is constructed in a block that was
enlarged by `realloc`. -/
def grownCell (τ : ElemType V) (construct : Bool) : Cell V :=
  if τ.trivMoveAssignable then .raw else expandedCell τ construct

/-- **`_expand_to`**: the new elements are constructed first, then the old ones follow. -/
theorem expandTo_eq (construct : Bool) (newData : ℕ) (hlen : a.length < n)
    (hv : ∀ k < n, a.mem.Valid (newData, k))
    (hraw : ∀ k, a.length ≤ k → k < n → a.mem.cell (newData, k) = .raw)
    (hold : ∀ k < a.length, a.mem.Valid (a.data, k) ∧ τ.Reads (a.mem.cell (a.data, k))) :
    ∃ m', a.expandTo construct τ newData n = .ok m' ∧ m'.size = a.mem.size ∧
      (∀ k, a.length ≤ k → k < n → m'.cell (newData, k) = expandedCell τ construct) ∧
      (∀ k, n ≤ k → m'.cell (newData, k) = a.mem.cell (newData, k)) ∧
      (newData = a.data ∨ a.data ≠ 0 →
        ∀ k < a.length, m'.cell (newData, k) = a.mem.cell (a.data, k)) ∧
      (newData ≠ a.data → ∀ k, (a.mem.cell (a.data, k)).isObject = true →
        (m'.cell (a.data, k)).isObject = true) := by
  obtain ⟨m, hm, hsize, hin, hout⟩ : ∃ m, (if construct = true then
      constructData τ a.mem (newData, a.length) (n - a.length) else .ok a.mem) = .ok m ∧
      m.size = a.mem.size ∧
      (∀ q, Within (newData, a.length) (n - a.length) q → m.cell q = expandedCell τ construct) ∧
      ∀ q, ¬ Within (newData, a.length) (n - a.length) q → m.cell q = a.mem.cell q := by
    have hnew : ∀ q, Within (newData, a.length) (n - a.length) q →
        a.mem.Valid q ∧ a.mem.cell q = .raw := by
      rintro ⟨_, k⟩ ⟨rfl, h2, h3⟩
      exact ⟨hv k (by simp at h3; omega), hraw k h2 (by simp at h3; omega)⟩
    cases construct with
    | false => exact ⟨a.mem, rfl, rfl, fun q hq => (hnew q hq).2, fun _ _ => rfl⟩
    | true =>
      obtain ⟨m, hm, hsize, hin, hout⟩ := constructData_eq hnew
      refine ⟨m, hm, hsize, fun q hq => ?_, hout⟩
      rw [hin q hq, expandedCell]
      cases τ.trivConstructible <;> rfl
  have hin' : ∀ k, a.length ≤ k → k < n → m.cell (newData, k) = expandedCell τ construct :=
    fun k hk hkn => hin _ ⟨rfl, hk, by simp; omega⟩
  have hbelow : ∀ b k, k < a.length → m.cell (b, k) = a.mem.cell (b, k) := fun b k hk =>
    hout _ (not_within_of_lt hk)
  have habove : ∀ k, n ≤ k → m.cell (newData, k) = a.mem.cell (newData, k) := fun k hk =>
    hout _ (not_within_of_le (by simp; omega))
  rw [expandTo, arrayAssert, kdAssert_of_pos hlen]
  simp only [bind, Except.bind, hm]
  by_cases hmove : newData ≠ a.data ∧ a.data ≠ 0
  · rw [if_pos hmove]
    obtain ⟨m', hm', hmoved, -⟩ := moveDataUninit_eq (d := (newData, 0))
      (s := (a.data, 0)) (n := a.length) (.inl hmove.1)
      (fun k hk => ⟨(hv _ (by simp; omega)).congr hsize,
        (hold _ (by simpa using hk)).1.congr hsize⟩)
      fun k hk => by
        have := (hold k hk).2
        rw [← hbelow _ k hk] at this
        simpa using this
    have hnot : ∀ k, a.length ≤ k → m'.cell (newData, k) = m.cell (newData, k) := fun k hk =>
      (hmoved.other (newData, k) (not_within_of_le (by simpa using hk))).resolve_right
        fun hw => hmove.1 hw.1.1
    refine ⟨m', hm', hmoved.size.trans hsize, fun k hk hkn => (hnot k hk).trans (hin' k hk hkn),
      fun k hk => (hnot k (by omega)).trans (habove k hk), fun _ k hk => ?_, fun _ k ho => ?_⟩
    · have := hmoved.dst k hk
      simp only [Nat.zero_add] at this
      rw [this, hbelow _ k hk]
    · have hm : m.cell (a.data, k) = a.mem.cell (a.data, k) := hout _ fun hw => hmove.1 hw.1.symm
      rcases hmoved.other (a.data, k) fun hw => hmove.1 hw.1.symm with e | ⟨-, e⟩
      · rwa [e, hm]
      · rw [e]
        rfl
  · rw [if_neg hmove]
    refine ⟨m, rfl, hsize, hin', habove, fun hd k hk => ?_, fun hne k ho => ?_⟩
    · obtain rfl : newData = a.data := hd.elim id fun h0 => by_contra fun h => hmove ⟨h, h0⟩
      exact hbelow _ k hk
    · rw [hout _ fun hw => hne hw.1.symm]
      exact ho

namespace Boxed

section

variable (h : Boxed τ a)

include h

theorem data_ne (hc : 0 < a.capacity) : a.data ≠ 0 := fun e => by
  rw [h.empty e] at hc
  cases hc

theorem valid (hk : k < a.capacity) : a.mem.Valid (a.data, k) :=
  Mem.valid_of_lt (h.block (h.data_ne (by omega))) hk

theorem growCapacity_refused (hc : a.length < newCapacity) (hn : a.length < n)
    (hin : τ.trivMoveAssignable = true ∨ a.data ≠ 0 ∨ τ.nothrowConstructible = false)
    (hg : g.block = 0) : a.growCapacity construct τ n newCapacity g = .ok (false, a) := by
  simp only [growCapacity, arrayAssert, kdAssert_of_pos hc, kdAssert_of_pos hn, bind, Except.bind,
    hg]
  by_cases hA : τ.trivMoveAssignable = true
  · by_cases hd : a.data = 0
    · simp [hA, hd, alloc]
    · simp [hA, hd, realloc, h.block hd]
  · have hin' : ¬ (a.data = 0 ∧ τ.nothrowConstructible = true) := fun hc => by
      rcases hin.resolve_left hA with h' | h'
      · exact h' hc.1
      · rw [h'] at hc
        cases hc.2
    simp [hA, hin', alloc]

end

/-- **Null was not handed to `realloc_in_place`** by a call that returns. -/
theorem growable (h : Boxed τ a) {r : Bool × DynArray V}
    (hrun : a.growCapacity construct τ n newCapacity g = .ok r) :
    τ.trivMoveAssignable = true ∨ a.data ≠ 0 ∨ τ.nothrowConstructible = false := by
  by_contra hin
  simp only [not_or, Bool.not_eq_true, not_not, Bool.not_eq_false] at hin
  obtain ⟨_, -, hrun⟩ := of_bind hrun
  obtain ⟨_, -, hrun⟩ := of_bind hrun
  simp [bind, Except.bind, hin, reallocInPlace, realloc, h.null] at hrun

end Boxed

namespace Stored

section

variable (h : Stored τ a l)

include h

theorem contents : a.contents = some l := by
  rw [DynArray.contents, if_pos, h.cells]
  rcases Nat.eq_zero_or_pos a.length with h0 | h0
  · exact .inl h0
  · exact .inr (h.valid (by have := h.le; omega))

theorem length_eq : l.length = a.length := by
  rw [← h.cells, DynArray.cells, List.length_map, List.length_range]

theorem getElem (hk : k < l.length) : l[k] = a.mem.cell (a.data, k) := by
  simp only [← h.cells, DynArray.cells, List.getElem_map, List.getElem_range]

theorem mem_reads {c : Cell V} (hc : c ∈ l) : τ.Reads c := by
  obtain ⟨k, hk, rfl⟩ := List.getElem_of_mem hc
  rw [h.getElem]
  exact h.reads k (h.length_eq ▸ hk)

/-- Where there is room already. -/
theorem grown (hlt : a.length < n) (hle : n ≤ a.capacity) : Grown τ a n .raw a :=
  have hd := h.data_ne (by omega)
  ⟨h.null, hd, h.block hd, h.bound, hle, fun _ _ => rfl, fun k hk hkn => h.rest k hk (by omega),
    fun k hk hkc => h.rest k (by omega) hkc⟩

end

/-! ## Asking for a larger block -/

/-- `_grow_capacity` takes the array to a larger block. -/
def Grows (construct : Bool) (τ : ElemType V) (a : DynArray V) (n newCapacity : ℕ)
    (g : ArrayGrants) : Prop :=
  ∃ a', a.growCapacity construct τ n newCapacity g = .ok (true, a') ∧ a'.length = n ∧
    Grown τ a n (grownCell τ construct) a'

theorem bytes_div (hb : newCapacity * τ.size < 2 ^ 64) :
    newCapacity * τ.size % 2 ^ 64 / τ.size = newCapacity := by
  rw [Nat.mod_eq_of_lt hb, Nat.mul_div_cancel _ τ.size_pos]

section

variable (h : Stored τ a l) (hn : a.length < n) (hle : n ≤ newCapacity)
  (hb : newCapacity * τ.size < 2 ^ 64) (hg : g.block ≠ 0)

include h hn hle hb hg

/-- The block enlarged by `realloc`. -/
theorem grown_realloc (hA : τ.trivMoveAssignable = true) (hd : a.data ≠ 0) :
    Grows construct τ a n newCapacity g := by
  have hc : a.length < newCapacity := by omega
  have hnew : grownCell τ construct = .raw := if_pos hA
  have hle' := h.le
  obtain ⟨m', hm', hsize, hsize', hkeep, hraw, -⟩ :=
    realloc_eq (newCapacity * τ.size % 2 ^ 64) (h.block hd) hg
  rw [bytes_div hb] at hsize hkeep hraw
  have hrest : ∀ k, a.length ≤ k → m'.cell (g.block, k) = .raw := fun k hk => by
    by_cases hk' : k < a.capacity ∧ k < newCapacity
    · rw [hkeep k hk'.1 hk'.2]
      exact h.rest k hk hk'.1
    · exact hraw k hk'
  refine ⟨⟨n, newCapacity, g.block, m'⟩, ?_, rfl, ⟨?_, hg, hsize, hb, hle,
    fun k hk => hkeep k (by omega) (by omega), fun k hk _ => hnew ▸ hrest k hk,
    fun k hk _ => hrest k (by omega)⟩⟩
  · simp only [growCapacity, arrayAssert, kdAssert_of_pos hc, kdAssert_of_pos hn, bind, Except.bind,
      hA, if_true, if_pos hd, hm', if_neg hg]
  · exact (hsize' 0 hg.symm hd.symm).trans h.null

/-- The first block, for elements that are moved by `memmove`. -/
theorem grown_alloc (hA : τ.trivMoveAssignable = true) (hd : a.data = 0) :
    Grows construct τ a n newCapacity g := by
  have hc : a.length < newCapacity := by omega
  have hnew : grownCell τ construct = .raw := if_pos hA
  have hcap := h.empty hd
  have hlen : a.length = 0 := by have := h.le; omega
  obtain ⟨m', hm', hsize, hsize', hraw, -, -⟩ :=
    alloc_eq (m := a.mem) (newCapacity * τ.size % 2 ^ 64) hg
  rw [bytes_div hb] at hsize
  obtain ⟨a', ha', hs, hcell, -⟩ := clearAll_eq (a := { a with mem := m' })
    (.inr fun q hq => by
      have := hq.2.2
      simp only [hlen] at this
      omega) fun hc' => absurd hcap hc'
  have hne : g.block ≠ a.data := by rwa [hd]
  refine ⟨⟨n, newCapacity, g.block, a'.mem⟩, ?_, rfl, ⟨?_, hg, (hs _ (.inl hne)).trans hsize, hb,
    hle,
    fun k hk => by omega, fun k _ _ => ?_, fun k _ _ => ?_⟩⟩
  · simp only [growCapacity, arrayAssert, kdAssert_of_pos hc, kdAssert_of_pos hn, bind, Except.bind,
      hA, if_true, hd, ne_eq, not_true_eq_false, if_false, hm', hg, takeOver]
    rw [hd] at ha'
    rw [ha']
  · exact (hs 0 (.inr hcap)).trans ((hsize' 0 hg.symm).trans h.null)
  · rw [hnew]
    exact (hcell (g.block, k) hne).trans (hraw k)
  · exact (hcell (g.block, k) hne).trans (hraw k)

/-- A new block, to which the elements are moved one by one. -/
theorem grown_move (hA : τ.trivMoveAssignable = false)
    (hin : a.data ≠ 0 ∨ τ.nothrowConstructible = false) (hfresh : a.mem.size g.block = none) :
    Grows construct τ a n newCapacity g := by
  have hc : a.length < newCapacity := by omega
  have hle' := h.le
  have hne : g.block ≠ a.data := fun e => by
    by_cases hd : a.data = 0
    · exact hg (e.trans hd)
    · rw [e, h.block hd] at hfresh
      cases hfresh
  obtain ⟨m₁, hm₁, hsize₁, hsize₁', hraw₁, hcell₁, -⟩ :=
    alloc_eq (newCapacity * τ.size % 2 ^ 64) hg
  rw [bytes_div hb] at hsize₁
  have hblock : a.data ≠ 0 → m₁.size a.data = some a.capacity := fun hd =>
    (hsize₁' _ hne.symm).trans (h.block hd)
  have hvalid : ∀ k < a.length, m₁.Valid (a.data, k) := fun k hk =>
    Mem.valid_of_lt (hblock (h.data_ne (by omega))) (by simp; omega)
  obtain ⟨m₂, hm₂, hsize₂, hnew₂, hrest₂, hold₂, hobj₂⟩ := expandTo_eq construct g.block
    (a := { a with mem := m₁ }) hn
    (fun k hk => Mem.valid_of_lt hsize₁ (by simp; omega)) (fun k _ _ => hraw₁ k)
    (fun k hk => ⟨hvalid k hk, by
      rw [hcell₁ _ hne.symm]
      exact h.reads k hk⟩)
  obtain ⟨a', ha', hs, hcell, -⟩ := clearAll_eq (a := { a with mem := m₂ }) (by
      cases hdd : τ.trivDestructible with
      | true => exact .inl rfl
      | false =>
        right
        rintro ⟨_, k⟩ ⟨rfl, -, hk⟩
        have hk : k < a.length := by simpa using hk
        refine ⟨(hvalid k hk).congr hsize₂, hobj₂ hne k ?_⟩
        rw [hcell₁ _ hne.symm]
        refine (h.reads k hk).resolve_right fun hdc => ?_
        rw [τ.destructible_of_construct hdc] at hdd
        cases hdd)
    (fun hcap => (congrFun hsize₂ _).trans (hblock (h.data_ne (Nat.pos_of_ne_zero hcap))))
  refine ⟨⟨n, newCapacity, g.block, a'.mem⟩, ?_, rfl, ⟨?_, hg, ?_, hb, hle, fun k hk => ?_,
    fun k hk hkn => ?_, fun k hk hkc => ?_⟩⟩
  · have hin' : ¬ (a.data = 0 ∧ τ.nothrowConstructible = true) := fun hc => by
      rcases hin with h' | h'
      · exact h' hc.1
      · rw [h'] at hc
        cases hc.2
    simp only [growCapacity, arrayAssert, kdAssert_of_pos hc, kdAssert_of_pos hn, bind, Except.bind,
      hA, Bool.false_eq_true, if_false, if_neg hin', if_true, hm₁, if_neg hg, hm₂, takeOver, ha']
  · by_cases hcap : a.capacity = 0
    · rw [hs 0 (.inr hcap), hsize₂]
      exact (hsize₁' 0 hg.symm).trans h.null
    · rw [hs 0 (.inl (h.data_ne (Nat.pos_of_ne_zero hcap)).symm), hsize₂]
      exact (hsize₁' 0 hg.symm).trans h.null
  · rw [hs _ (.inl hne), hsize₂]
    exact hsize₁
  · rw [hcell _ hne, hold₂ (.inr (h.data_ne (by omega))) k hk]
    exact hcell₁ _ hne.symm
  · rw [hcell _ hne, hnew₂ k hk hkn, grownCell, if_neg (by simp [hA])]
  · rw [hcell _ hne, hrest₂ k hk]
    exact hraw₁ k

/-- **`_grow_capacity`** with a block large enough. -/
theorem growCapacity_grown (construct : Bool)
    (hin : τ.trivMoveAssignable = true ∨ a.data ≠ 0 ∨ τ.nothrowConstructible = false)
    (hfresh : FreshBlock τ a g) : Grows construct τ a n newCapacity g := by
  cases hA : τ.trivMoveAssignable with
  | true =>
    by_cases hd : a.data = 0
    · exact h.grown_alloc hn hle hb hg hA hd
    · exact h.grown_realloc hn hle hb hg hA hd
  | false =>
    have hin' := hin.resolve_left (by simp [hA])
    have hnone := (hfresh hg).resolve_right (by simp [hA])
    exact h.grown_move hn hle hb hg hA hin' hnone

end

end Stored

theorem le_getGrownCapacity (n c : ℕ) : n ≤ getGrownCapacity n c := by
  simp only [getGrownCapacity]
  split
  · exact Nat.le_refl n
  · split <;> omega

/-- **The growth to `n` elements goes right**: null is not reallocated in place; and if a block is
given, its size in bytes did not wrap, and it was not enlarged where elements are to be
constructed. -/
def GrowFits (construct : Bool) (τ : ElemType V) (a : DynArray V) (n : ℕ) (g : ArrayGrants) :
    Prop :=
  a.capacity < n → (τ.trivMoveAssignable = true ∨ a.data ≠ 0 ∨ τ.nothrowConstructible = false) ∧
    (g.block = 0 ∨ getGrownCapacity n a.capacity * τ.size < 2 ^ 64 ∧
      (construct = true → τ.trivMoveAssignable = true → τ.trivConstructible = true))

/-- **`_auto_grow_capacity`** either refuses or makes room. -/
theorem Stored.autoGrow (h : Stored τ a l) (hn : a.length < n) (hfit : GrowFits construct τ a n g)
    (hfresh : FreshBlock τ a g) :
    a.autoGrowCapacity construct τ n g = .ok (false, a) ∨
      ∃ a', a.autoGrowCapacity construct τ n g = .ok (true, a') ∧ (a' = a ∧ n ≤ a.capacity ∨
          a'.length = n ∧ Grown τ a n (expandedCell τ construct) a') := by
  rw [autoGrowCapacity]
  split
  · rename_i hc
    obtain ⟨hin, hfit⟩ := hfit hc
    have hle := le_getGrownCapacity n a.capacity
    by_cases hg : g.block = 0
    · exact .inl (h.growCapacity_refused (by omega) hn hin hg)
    · obtain ⟨hb, hcell⟩ := hfit.resolve_left hg
      obtain ⟨a', ha', hlen, hG⟩ := h.growCapacity_grown hn hle hb hg construct hin hfresh
      have hgrowncell : grownCell τ construct = expandedCell τ construct := by
        rw [grownCell, expandedCell]
        split
        · rename_i hA
          rw [if_neg fun hc => by simp [hcell hc.1 hA] at hc]
        · rfl
      exact .inr ⟨a', ha', .inr ⟨hlen, hgrowncell ▸ hG⟩⟩
  · exact .inr ⟨a, rfl, .inl ⟨rfl, by omega⟩⟩

/-! ## Inserting -/

/-- The gap is opened: what was at `index` and after it is one further. -/
theorem Stored.gap (h : Stored τ a l) (hi : index ≤ a.length)
    (hG : Grown τ a (a.length + 1) .raw a') :
    ∃ m, (if index < a.length then
        if τ.trivMoveAssignable then
          memmove a'.mem (a'.data, index + 1) (a'.data, index) (a.length - index)
        else moveDataUninit τ a'.mem (a'.data, index + 1) (a'.data, index) (a.length - index)
      else .ok a'.mem) = .ok m ∧
      MovedTo a'.mem m (a'.data, index + 1) (a'.data, index) (a.length - index) := by
  have hle := hG.le
  have hv : ∀ k < a.length - index,
      a'.mem.Valid (a'.data, index + 1 + k) ∧ a'.mem.Valid (a'.data, index + k) := fun k hk =>
    ⟨Mem.valid_of_lt hG.block (by simp; omega), Mem.valid_of_lt hG.block (by simp; omega)⟩
  split
  · split
    · obtain ⟨m, hm, hmoved, -⟩ := memmove_eq (d := (a'.data, index + 1)) (s := (a'.data, index)) hv
      exact ⟨m, hm, hmoved⟩
    · obtain ⟨m, hm, hmoved, -⟩ := moveDataUninit_eq
        (d := (a'.data, index + 1)) (s := (a'.data, index))
        (.inr (Nat.lt_succ_self index)) hv fun k hk => by
          rw [hG.old _ (by omega)]
          exact h.reads _ (by omega)
      exact ⟨m, hm, hmoved⟩
  · refine ⟨a'.mem, rfl, rfl, fun k hk => by omega, fun _ _ => .inl rfl⟩

/-- What an array with a block holds, cell by cell. -/
theorem stored_of_cells (hnull : a.mem.size 0 = none) (hdata : a.data ≠ 0)
    (hblock : a.mem.size a.data = some a.capacity) (hbound : a.capacity * τ.size < 2 ^ 64)
    (hle : a.length ≤ a.capacity) (hlen : l.length = a.length)
    (hcell : ∀ k (hk : k < l.length), a.mem.cell (a.data, k) = l[k]) (hreads : ∀ c ∈ l, τ.Reads c)
    (hrest : ∀ k, a.length ≤ k → k < a.capacity → a.mem.cell (a.data, k) = .raw) :
    Stored τ a l := by
  refine ⟨⟨hnull, fun hd => absurd hd hdata, fun _ => hblock, hbound, hle⟩, ?_, fun k hk => ?_,
    hrest⟩
  · refine List.ext_getElem (by simp [DynArray.cells, hlen]) fun k hk hk' => ?_
    simp only [DynArray.cells, List.getElem_map, List.getElem_range]
    exact hcell k hk'
  · rw [hcell k (hlen ▸ hk)]
    exact hreads _ (List.getElem_mem _)

/-- **`insert`** into an array that made room. -/
theorem Stored.insert_of_grown (h : Stored τ a l) (hi : index ≤ a.length)
    (hlt : a.length + 1 < 2 ^ 64) (hG : Grown τ a (a.length + 1) .raw a')
    (hrun : a.autoGrowCapacity false τ (a.length + 1) g = .ok (true, a')) (x : V) :
    ∃ a'', a.insert τ index x g = .ok (true, a'') ∧ Stored τ a'' (l.insertIdx index (.live x)) := by
  obtain ⟨m, hm, hmoved⟩ := h.gap hi hG
  have hle := hG.le
  have hvalid : m.Valid (a'.data, index) :=
    (Mem.valid_of_lt hG.block (by simp; omega)).congr hmoved.size
  let m' := (m.leakIf τ (m.cell (a'.data, index)).isObject).set (a'.data, index) (.live x)
  have hself : m'.cell (a'.data, index) = .live x := Function.update_self ..
  have hbelow : ∀ k < index, m'.cell (a'.data, k) = a.mem.cell (a.data, k) := fun k hk => by
    have hne : (a'.data, k) ≠ (a'.data, index) := by simp; omega
    rw [show m'.cell (a'.data, k) = m.cell (a'.data, k) from Function.update_of_ne hne ..]
    exact ((hmoved.other _ (not_within_of_lt (by simp; omega))).resolve_right fun hw =>
      not_within_of_lt hk hw.1).trans (hG.old k (by omega))
  have habove : ∀ k, index ≤ k → k < a.length →
      m'.cell (a'.data, k + 1) = a.mem.cell (a.data, k) := fun k hk hkl => by
    have hne : (a'.data, k + 1) ≠ (a'.data, index) := by simp; omega
    rw [show m'.cell (a'.data, k + 1) = m.cell (a'.data, k + 1) from Function.update_of_ne hne ..]
    have := hmoved.dst (k - index) (by omega)
    simp only [Nat.add_right_comm index 1, Nat.add_sub_cancel' hk] at this
    rw [this, hG.old k hkl]
  have hrest : ∀ k, a.length + 1 ≤ k → k < a'.capacity → m'.cell (a'.data, k) = .raw :=
    fun k hk hkc => by
      have hne : (a'.data, k) ≠ (a'.data, index) := by simp; omega
      rw [show m'.cell (a'.data, k) = m.cell (a'.data, k) from Function.update_of_ne hne ..]
      exact ((hmoved.other _ (not_within_of_le (by simp; omega))).resolve_right fun hw =>
        not_within_of_le (by simp; omega) hw.1).trans (hG.rest k hk hkc)
  have hl := h.length_eq
  have hlen : (l.insertIdx index (.live x)).length = a.length + 1 := by
    rw [List.length_insertIdx_of_le_length (hl ▸ hi), hl]
  refine ⟨{ a' with length := a.length + 1, mem := m' }, ?_,
    stored_of_cells ((congrFun hmoved.size 0).trans hG.null) hG.data
      ((congrFun hmoved.size _).trans hG.block) hG.bound hle hlen (fun k hk => ?_)
      (fun c hc => ?_) hrest⟩
  · simp only [insert, insertRange, Nat.mod_eq_of_lt hlt, hrun, bind, Except.bind, if_true, hm,
      Bool.false_eq_true, false_and, if_false, constructAt_eq hvalid]
    rfl
  · change m'.cell (a'.data, k) = _
    rw [List.getElem_insertIdx]
    split
    · rename_i hlt
      rw [hbelow k hlt, h.getElem]
    · split
      · rename_i e
        rw [e, hself]
      · obtain ⟨j, rfl⟩ : ∃ j, k = j + 1 := ⟨k - 1, by omega⟩
        rw [habove j (by omega) (by omega), h.getElem]
        rfl
  · obtain rfl | hc := (List.mem_insertIdx (hl ▸ hi)).mp hc
    · exact .inl rfl
    · exact h.mem_reads hc

/-! ## Resizing -/

theorem expandedCell_true : expandedCell τ true = τ.defaultCell := by
  rw [expandedCell, ElemType.defaultCell]
  cases τ.trivConstructible <;> rfl

/-- An array that made room and counts it. -/
theorem Stored.of_grown {c : Cell V} (h : Stored τ a l) (hn : a.length ≤ n) (hG : Grown τ a n c a')
    (hlen : a'.length = n) (hc : τ.Reads c) :
    Stored τ a' (l ++ List.replicate (n - l.length) c) := by
  have hl := h.length_eq
  have hlen' : (l ++ List.replicate (n - l.length) c).length = a'.length := by simp; omega
  refine stored_of_cells hG.null hG.data hG.block hG.bound (hlen ▸ hG.le) hlen' (fun k hk => ?_)
    (fun c' hc' => ?_) fun k hk => hG.rest k (hlen ▸ hk)
  · rw [List.getElem_append]
    split
    · rw [hG.old k (by omega), h.getElem]
    · rw [hG.new k (by omega) (by omega), List.getElem_replicate]
  · obtain hc' | hc' := List.mem_append.mp hc'
    · exact h.mem_reads hc'
    · exact (List.mem_replicate.mp hc').2 ▸ hc

/-- **Growing `resize`** of an array, where the growth goes right. -/
theorem Stored.resize_grow (h : Stored τ a l) (hn : a.length ≤ n) (hfit : GrowFits true τ a n g)
    (hfresh : FreshBlock τ a g) :
    ∃ r a', a.resize τ n g = .ok (r, a') ∧
      Stored τ a' (if r then l ++ List.replicate (n - l.length) τ.defaultCell else l) := by
  have hl := h.length_eq
  rw [resize, resizeWith]
  rcases Nat.lt_or_ge a.length n with hlt | hge
  · rw [if_pos hlt]
    split
    · rename_i hc
      rcases h.autoGrow hlt hfit hfresh with hrun | ⟨a', hrun, ⟨rfl, hle⟩ | ⟨hlen, hG⟩⟩
      · exact ⟨false, a, hrun, h⟩
      · omega
      · rw [expandedCell_true] at hG
        exact ⟨true, a', hrun, h.of_grown hn hG hlen τ.reads_defaultCell⟩
    · rename_i hc
      have hd := h.data_ne (by omega)
      obtain ⟨m', hm', hsize, hnew, hrest, hold, -⟩ := expandTo_eq true a.data
        hlt (fun k hk => h.valid (by omega))
        (fun k hk hkn => h.rest k hk (by omega)) fun k hk => ⟨h.valid (by omega), h.reads k hk⟩
      have hG : Grown τ a n τ.defaultCell { a with length := n, mem := m' } :=
        ⟨(congrFun hsize 0).trans h.null, hd, (congrFun hsize _).trans (h.block hd), h.bound,
          by simp; omega, hold (.inl rfl), expandedCell_true ▸ hnew,
          fun k hk hkc => (hrest k hk).trans (h.rest k (by omega) hkc)⟩
      exact ⟨true, _, by simp only [hm']; rfl, h.of_grown hn hG rfl τ.reads_defaultCell⟩
  · obtain rfl : n = a.length := by omega
    simpa [hl] using h

end DynArray

end Pbos.Kfxx
