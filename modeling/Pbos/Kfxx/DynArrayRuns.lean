import Pbos.Kfxx.DynArrayGrow
import Pbos.Kfxx.Utils
import Pbos.Lib.Conform

/-!
# Kfxx/DynArrayRuns — growing arrays over any run

The growing calls are compared with the operations on a list.  Growth goes wrong in three ways: the
first block of elements that are moved one by one is asked for by reallocating null in place; the
size of a block in bytes wraps; and a block that `realloc` made larger has no elements constructed
in it.  Everything else is right (`grow_conforms_iff`).
-/

namespace Pbos.Kfxx

namespace DynArray

variable {V : Type} {τ : ElemType V} {a a' : DynArray V} {l : List (Cell V)} {g : ArrayGrants}
  {n k index newCapacity : ℕ} {x : V} {construct r : Bool}

/-! ## Growth that goes wrong -/

/-- The array claims more elements than its block has cells for. -/
theorem contents_eq_none (hs : a.mem.size a.data = some k) (hlt : k < a.length) :
    a.contents = none := by
  refine if_neg fun hc => ?_
  rcases hc with h0 | hv
  · omega
  · have := hv.lt hs
    omega

/-- A size in bytes that wraps is too small for the elements. -/
theorem bytes_wrap {c : ℕ} (hc : c * τ.size < 2 ^ 64) (hn : c < n)
    (hw : 2 ^ 64 ≤ getGrownCapacity n c * τ.size) :
    getGrownCapacity n c * τ.size % 2 ^ 64 / τ.size < n := by
  rw [Nat.div_lt_iff_lt_mul τ.size_pos]
  have hle : getGrownCapacity n c ≤ n + c := by
    simp only [getGrownCapacity]
    split
    · omega
    · split
      · omega
      · have := Nat.mod_le (c + c / 2 ^ 1) (2 ^ 64)
        omega
  have hmul := Nat.mul_le_mul_right τ.size hle
  rw [Nat.add_mul] at hmul
  omega

/-- Whatever block is given, `_grow_capacity` makes it the array's, if it returns. -/
theorem Boxed.growCapacity_size (h : Boxed τ a) (hg : g.block ≠ 0) (hfresh : FreshBlock τ a g)
    (hrun : a.growCapacity construct τ n newCapacity g = .ok (r, a')) :
    r = true ∧ a'.length = n ∧ a'.data = g.block ∧
      a'.mem.size g.block = some (newCapacity * τ.size % 2 ^ 64 / τ.size) := by
  obtain ⟨-, -, hrun⟩ := of_bind hrun
  obtain ⟨-, -, hrun⟩ := of_bind hrun
  have htake : ∀ m₁ : Mem V, m₁.size g.block = some (newCapacity * τ.size % 2 ^ 64 / τ.size) →
      g.block ≠ a.data → takeOver τ { a with mem := m₁ } g.block n newCapacity = .ok (r, a') →
      r = true ∧ a'.length = n ∧ a'.data = g.block ∧
      a'.mem.size g.block = some (newCapacity * τ.size % 2 ^ 64 / τ.size) := by
    intro m₁ hsize hne hrun
    obtain ⟨b, hb, hrun⟩ := of_bind hrun
    cases hrun
    exact ⟨rfl, rfl, rfl, (clearAll_size hb hne).trans hsize⟩
  obtain ⟨m₁, hm₁, hsize₁, -⟩ := alloc_eq (newCapacity * τ.size % 2 ^ 64) hg
  cases hA : τ.trivMoveAssignable with
  | true =>
    rw [if_pos hA] at hrun
    by_cases hd : a.data = 0
    · rw [if_neg (by simp [hd]), hm₁] at hrun
      simp only [if_neg hg] at hrun
      exact htake m₁ hsize₁ (by rwa [hd]) hrun
    · obtain ⟨m₂, hm₂, hsize₂, -⟩ :=
        realloc_eq (newCapacity * τ.size % 2 ^ 64) (h.block hd) hg
      rw [if_pos hd, hm₂] at hrun
      simp only [bind, Except.bind, if_neg hg] at hrun
      cases hrun
      exact ⟨rfl, rfl, rfl, hsize₂⟩
  | false =>
    have hnone := (hfresh hg).resolve_right (by simp [hA])
    have hne : g.block ≠ a.data := fun e => by
      by_cases hd : a.data = 0
      · exact hg (e.trans hd)
      · rw [e, h.block hd] at hnone
        cases hnone
    rw [if_neg (by simp [hA])] at hrun
    obtain ⟨p, hp, hrun⟩ := of_bind hrun
    obtain rfl : p = (0, a.mem) := by
      split at hp
      · rename_i hin
        rw [reallocInPlace, realloc, hin.1, h.null] at hp
        cases hp
      · exact (Except.ok.inj hp).symm
    simp only [if_true, hm₁, if_neg hg] at hrun
    obtain ⟨m₂, hm₂, hrun⟩ := of_bind hrun
    exact htake m₂ ((congrFun (expandTo_size hm₂) _).trans hsize₁) hne hrun

/-- **Growth that returns and leaves the contents readable fits**, as far as the block goes. -/
theorem Stored.growFits_of_contents (h : Stored τ a l) (hfresh : FreshBlock τ a g)
    (hrun : a.autoGrowCapacity construct τ n g = .ok (r, a'))
    (hread : r = true → a'.length = n → ∀ k, a'.mem.size a'.data = some k → n ≤ k)
    (hcell : construct = true → a.capacity < n → g.block ≠ 0 →
      getGrownCapacity n a.capacity * τ.size < 2 ^ 64 → τ.trivMoveAssignable = true →
      τ.trivConstructible = true) : GrowFits construct τ a n g := by
  intro hc
  rw [autoGrowCapacity, if_pos hc] at hrun
  refine ⟨h.growable hrun, or_iff_not_imp_left.mpr fun hg => ?_⟩
  have hb : getGrownCapacity n a.capacity * τ.size < 2 ^ 64 := by
    by_contra hw
    obtain ⟨hr, hlen, hdata, hsize⟩ := h.growCapacity_size hg hfresh hrun
    have := bytes_wrap h.bound hc (Nat.not_lt.mp hw)
    have := hread hr hlen _ (hdata ▸ hsize)
    omega
  exact ⟨hb, fun hcon => hcell hcon hc hg hb⟩

/-! ## Calls -/

theorem cells_of_contents (h : a.contents = some l) : a.cells = l ∧ l.length = a.length := by
  rw [contents] at h
  split at h
  · cases h
    exact ⟨rfl, by rw [DynArray.cells, List.length_map, List.length_range]⟩
  · cases h

/-- **`insert`** where the growth goes right. -/
theorem Stored.insert_fits (h : Stored τ a l) (hi : index ≤ a.length) (hlt : a.length + 1 < 2 ^ 64)
    (hfit : GrowFits false τ a (a.length + 1) g) (hfresh : FreshBlock τ a g) (x : V) :
    ∃ r a', a.insert τ index x g = .ok (r, a') ∧
      Stored τ a' (if r then l.insertIdx index (.live x) else l) := by
  rcases h.autoGrow (Nat.lt_succ_self _) hfit hfresh with hrun | ⟨a', hrun, hcase⟩
  · refine ⟨false, a, ?_, h⟩
    simp only [insert, insertRange, Nat.mod_eq_of_lt hlt, hrun, bind, Except.bind,
      Bool.false_eq_true, if_false]
  · have hG : Grown τ a (a.length + 1) .raw a' := by
      rcases hcase with ⟨rfl, hle⟩ | ⟨-, hG⟩
      · exact h.grown (Nat.lt_succ_self _) hle
      · exact hG
    obtain ⟨a'', hrun', hS⟩ := h.insert_of_grown hi hlt hG hrun x
    exact ⟨true, a'', hrun', hS⟩

/-- `insert` returns what `_auto_grow_capacity` answers, and changes no block after it. -/
theorem insert_cases (hrun : a.insert τ index x g = .ok (r, a')) :
    ∃ b, a.autoGrowCapacity false τ ((a.length + 1) % 2 ^ 64) g = .ok (r, b) ∧
      (r = true → a'.length = (a.length + 1) % 2 ^ 64 ∧ a'.data = b.data ∧
        a'.mem.size = b.mem.size) := by
  obtain ⟨p, hp, hrun⟩ := of_bind hrun
  obtain ⟨⟨q, b⟩, hq, hp⟩ := of_bind hp
  cases q with
  | false =>
    cases hp
    cases hrun
    exact ⟨_, hq, nofun⟩
  | true =>
    obtain ⟨m, hm, hp⟩ := of_bind hp
    obtain ⟨m', hm', hp⟩ := of_bind hp
    cases hp
    obtain ⟨m'', hm'', hrun⟩ := of_bind hrun
    cases hrun
    refine ⟨b, hq, fun _ => ⟨rfl, rfl, ?_⟩⟩
    have hgap : m.size = b.mem.size := by
      split at hm
      · split at hm
        · exact memmove_size hm
        · exact moveDataUninit_size hm
      · exact congrArg Mem.size (Except.ok.inj hm).symm
    rw [constructAt_size hm'', ← Except.ok.inj hm', hgap]

/-- An insertion after which the contents are right fits. -/
theorem Stored.growFits_of_insert (h : Stored τ a l) (hi : index ≤ a.length)
    (hfresh : FreshBlock τ a g) (hrun : a.insert τ index x g = .ok (r, a'))
    (hc : a'.contents = some (if r then l.insertIdx index (.live x) else l)) :
    a.length + 1 < 2 ^ 64 ∧ GrowFits false τ a (a.length + 1) g := by
  have hl := h.length_eq
  have hle := h.le
  obtain ⟨b, hauto, hsame⟩ := insert_cases hrun
  have hlt : a.length + 1 < 2 ^ 64 := by
    cases r with
    | true =>
      have hlen := (cells_of_contents hc).2
      rw [if_pos rfl, List.length_insertIdx_of_le_length (hl ▸ hi), (hsame rfl).1] at hlen
      omega
    | false =>
      rw [autoGrowCapacity] at hauto
      split at hauto
      · have := Nat.mod_le (a.length + 1) (2 ^ 64)
        omega
      · cases hauto
  rw [Nat.mod_eq_of_lt hlt] at hauto hsame
  refine ⟨hlt, h.growFits_of_contents hfresh hauto (fun hr hlen k hk => ?_) (by simp)⟩
  obtain ⟨hlen', hdata, hsize⟩ := hsame hr
  by_contra hk'
  rw [← hsize, ← hdata] at hk
  rw [contents_eq_none hk (by omega)] at hc
  cases hc

/-- A growing `resize` after which the contents are right fits. -/
theorem Stored.growFits_of_resize (h : Stored τ a l) (hfresh : FreshBlock τ a g)
    (hrun : a.resize τ n g = .ok (r, a'))
    (hc : a'.contents = some (if r then l ++ List.replicate (n - l.length) τ.defaultCell else l)) :
    GrowFits true τ a n g := by
  intro hcap
  have hl := h.length_eq
  have hlt : a.length < n := by have := h.le; omega
  rw [resize, resizeWith, if_pos hlt, if_pos hcap] at hrun
  refine h.growFits_of_contents hfresh hrun (fun hr hlen k hk => ?_) (fun _ _ hg hb hA => ?_) hcap
  · by_contra hk'
    rw [contents_eq_none hk (by omega)] at hc
    cases hc
  · obtain ⟨b, hb', hlen, hG⟩ := h.growCapacity_grown hlt
      (le_getGrownCapacity n a.capacity) hb hg true (.inl hA) hfresh
    rw [autoGrowCapacity, if_pos hcap, hb'] at hrun
    cases hrun
    have hcell := congrArg (fun L => L[a.length]?) (cells_of_contents hc).1
    have hraw := hG.new a.length (Nat.le_refl _) hlt
    rw [grownCell, if_pos hA] at hraw
    simp only [DynArray.cells, List.getElem?_map, List.getElem?_range (hlen ▸ hlt), Option.map_some,
      hraw, if_true, List.getElem?_append_right (Nat.le_of_eq hl)] at hcell
    rw [List.getElem?_replicate, if_pos (by omega)] at hcell
    have hdef := Option.some.inj hcell
    rw [ElemType.defaultCell] at hdef
    by_contra hdc
    rw [if_neg hdc] at hdef
    cases hdef

/-! ## The size of the buffer -/

/-- The bytes of the buffer that elements can lie in; the null buffer has none. -/
def bufferBytes (τ : ElemType V) (a : DynArray V) : ℕ := (a.mem.size a.data).getD 0 * τ.size

theorem Boxed.buffer_eq (h : Boxed τ a) : a.bufferBytes τ = a.capacity * τ.size := by
  rw [bufferBytes]
  by_cases hd : a.data = 0
  · rw [hd, h.null, h.empty hd, Option.getD_none]
  · rw [h.block hd, Option.getD_some]

/-- The buffer for `n` elements, which was there or has been asked for. -/
def roomFor (τ : ElemType V) (a : DynArray V) (n : ℕ) : ℕ :=
  if a.capacity < n then getGrownCapacity n a.capacity * τ.size % 2 ^ 64 / τ.size * τ.size
  else a.capacity * τ.size

theorem roomFor_of_le (h : n ≤ a.capacity) : a.roomFor τ n = a.capacity * τ.size :=
  if_neg (Nat.not_lt.mpr h)

section

variable (h : Boxed τ a)

include h

/-- **There is room for the elements** just if the size asked for does not wrap. -/
theorem Boxed.le_roomFor_iff : n * τ.size ≤ a.roomFor τ n ↔
    (a.capacity < n → getGrownCapacity n a.capacity * τ.size < 2 ^ 64) := by
  rw [roomFor]
  split
  · rename_i hc
    rw [Nat.mul_le_mul_right_iff τ.size_pos]
    refine ⟨fun hn _ => by_contra fun hw => ?_, fun hw => ?_⟩
    · exact absurd hn (Nat.not_le.mpr (bytes_wrap h.bound hc (Nat.not_lt.mp hw)))
    · rw [Nat.mod_eq_of_lt (hw hc), Nat.mul_div_cancel _ τ.size_pos]
      exact le_getGrownCapacity n a.capacity
  · rename_i hc
    exact ⟨fun _ hc' => absurd hc' hc, fun _ => Nat.mul_le_mul_right _ (Nat.not_lt.mp hc)⟩

/-- A buffer that is kept is as large as it was. -/
theorem Boxed.buffer_kept (hn : n ≤ a.capacity) (hs : a'.mem.size a'.data = a.mem.size a.data) :
    a'.bufferBytes τ = a.roomFor τ n := by
  rw [roomFor_of_le hn, bufferBytes, hs, ← bufferBytes, h.buffer_eq]

variable (hfresh : FreshBlock τ a g)

include hfresh

/-- **Growth that answers true** leaves the buffer that was asked for. -/
theorem Boxed.autoGrow_buffer (hrun : a.autoGrowCapacity construct τ n g = .ok (true, a')) :
    (a.capacity < n → a'.length = n) ∧ a'.bufferBytes τ = a.roomFor τ n := by
  rw [autoGrowCapacity] at hrun
  split at hrun
  · rename_i hc
    have hlt : a.length < n := h.le.trans_lt hc
    have hle := le_getGrownCapacity n a.capacity
    have hg : g.block ≠ 0 := by
      intro hg
      rw [h.growCapacity_refused (by omega) hlt (h.growable hrun) hg] at hrun
      cases hrun
    obtain ⟨-, hlen, hdata, hsize⟩ := h.growCapacity_size hg hfresh hrun
    refine ⟨fun _ => hlen, ?_⟩
    rw [bufferBytes, hdata, hsize, roomFor, if_pos hc]
    rfl
  · rename_i hc
    cases hrun
    exact ⟨fun hc' => absurd hc' hc, h.buffer_kept (Nat.not_lt.mp hc) rfl⟩

theorem Boxed.resize_buffer (hrun : a.resize τ n g = .ok (true, a')) :
    a'.length = n ∧ a'.bufferBytes τ = a.roomFor τ n := by
  have hle := h.le
  rw [resize, resizeWith] at hrun
  split at hrun
  · split at hrun
    · rename_i hc
      have hgrow := h.autoGrow_buffer hfresh hrun
      exact ⟨hgrow.1 hc, hgrow.2⟩
    · obtain ⟨m, hm, hrun⟩ := of_bind hrun
      cases hrun
      exact ⟨rfl, h.buffer_kept (by omega) (congrFun (expandTo_size hm) _)⟩
  · split at hrun
    · obtain ⟨m, hm, hrun⟩ := of_bind hrun
      cases hrun
      obtain ⟨-, -, hm⟩ := of_bind hm
      obtain ⟨m₁, hm₁, hm⟩ := of_bind hm
      rw [if_neg (by simp)] at hm
      cases hm
      exact ⟨rfl, h.buffer_kept (by omega) (congrFun (destructData_size hm₁) _)⟩
    · cases hrun
      exact ⟨by omega, h.buffer_kept (by omega) rfl⟩

theorem Boxed.insert_buffer (hrun : a.insert τ index x g = .ok (true, a')) :
    a'.bufferBytes τ = a.roomFor τ a'.length := by
  obtain ⟨b, hauto, hsame⟩ := insert_cases hrun
  obtain ⟨hlen, hdata, hsize⟩ := hsame rfl
  rw [bufferBytes, hdata, hsize, hlen]
  exact (h.autoGrow_buffer hfresh hauto).2

end

end DynArray

/-- The growing calls. -/
inductive GrowCall (V : Type)
  | pushBack (x : V)
  | pushFront (x : V)
  | insert (index : ℕ) (x : V)
  | resize (length : ℕ)

namespace GrowCall

variable {V : Type} (τ : ElemType V)

def exec (a : DynArray V) (g : ArrayGrants) : GrowCall V → Except Fault (Bool × DynArray V)
  | pushBack x => a.pushBack τ x g
  | pushFront x => a.pushFront τ x g
  | insert index x => a.insert τ index x g
  | resize length => a.resize τ length g

/-- The call on a list. -/
def apply (l : List (Cell V)) : GrowCall V → List (Cell V)
  | pushBack x => l ++ [.live x]
  | pushFront x => .live x :: l
  | insert index x => l.insertIdx index (.live x)
  | resize length => l ++ List.replicate (length - l.length) τ.defaultCell

/-- It is inserted at most at the end, and resized to grow. -/
def InRange (a : DynArray V) : GrowCall V → Prop
  | insert index _ => index ≤ a.length
  | resize length => a.length ≤ length
  | _ => True

/-- **The growth goes right**: see `GrowFits`. -/
def Fits (a : DynArray V) (g : ArrayGrants) : GrowCall V → Prop
  | resize length => a.GrowFits true τ length g
  | _ => a.length + 1 < 2 ^ 64 ∧ a.GrowFits false τ (a.length + 1) g

end GrowCall

/-- **The array beside a list.**  A call conforms if it returns, the capacity suffices, and the
contents are those of the list operation if it answers true, and as before if it answers false. -/
def growSetup {V : Type} (τ : ElemType V) :
    Conform.Setup Fault Bool (DynArray V) (List (Cell V)) (GrowCall V × ArrayGrants) where
  exec a c := c.1.exec τ a c.2
  admits a c := c.1.InRange a ∧ a.FreshBlock τ c.2
  allows _ _ _ := True
  apply l c r := if r then c.1.apply τ l else l
  represents a l := a.length ≤ a.capacity ∧ a.contents = some l

section

variable {V : Type} {τ : ElemType V} {a : DynArray V} {l : List (Cell V)}
  {c : GrowCall V × ArrayGrants}

theorem DynArray.Stored.fits_of_conforms (h : a.Stored τ l) (hadm : (growSetup τ).admits a c)
    (hconf : (growSetup τ).Conforms c a l) : c.1.Fits τ a c.2 := by
  obtain ⟨hin, hfresh⟩ := hadm
  obtain ⟨r, a', hrun, -, -, hc⟩ := hconf
  obtain ⟨c, g⟩ := c
  cases c with
  | pushBack x =>
    refine h.growFits_of_insert (Nat.le_refl _) hfresh hrun ?_
    rw [← h.length_eq, List.insertIdx_length_self]
    exact hc
  | pushFront x => exact h.growFits_of_insert (Nat.zero_le _) hfresh hrun hc
  | insert index x => exact h.growFits_of_insert hin hfresh hrun hc
  | resize n => exact h.growFits_of_resize hfresh hrun hc

/-- A new array, which owns no block. -/
def newArray (cell : ℕ × ℕ → Cell V) : DynArray V := .new ⟨fun _ => none, cell, false⟩

theorem stored_newArray (τ : ElemType V) (cell : ℕ × ℕ → Cell V) : (newArray cell).Stored τ [] :=
  ⟨⟨rfl, fun _ => rfl, (absurd rfl ·), by simp [newArray, DynArray.new], Nat.le_refl 0⟩, rfl,
    nofun, nofun⟩

/-- **Growing arrays.**  For every element type, the runs in which every call does what the list
operation does, or nothing if it answers false, are the runs in which the growth always goes right.
In them the size never exceeds the capacity. -/
theorem grow_conforms_iff (τ : ElemType V) (cell : ℕ × ℕ → Cell V)
    (cs : List (GrowCall V × ArrayGrants))
    (s : Conform.Beside Fault Bool (DynArray V) (List (Cell V))) :
    (Run (fun s c s' => (growSetup τ).Step s c s' ∧ s.At ((growSetup τ).Conforms c))
        ⟨.ok (true, newArray cell), []⟩ cs s ↔
      Run (fun s c s' => (growSetup τ).Step s c s' ∧ s.At fun a _ => c.1.Fits τ a c.2)
        ⟨.ok (true, newArray cell), []⟩ cs s) ∧
    (Run (fun s c s' => (growSetup τ).Step s c s' ∧ s.At ((growSetup τ).Conforms c))
        ⟨.ok (true, newArray cell), []⟩ cs s →
      ∃ r a, s.outcome = .ok (r, a) ∧ a.length ≤ a.capacity ∧ a.contents = some s.spec) := by
  have hruns := Conform.Setup.runs_iff (S := growSetup τ)
    (s := ⟨.ok (true, newArray cell), []⟩) (t := s)
    (fun a l h => ⟨h.le, h.contents⟩)
    (fun c a l h hadm hfit => by
      obtain ⟨r, a', hrun, hS⟩ : ∃ r a', c.1.exec τ a c.2 = .ok (r, a') ∧
        a'.Stored τ (if r then c.1.apply τ l else l) := by
        obtain ⟨hin, hfresh⟩ := hadm
        obtain ⟨c, g⟩ := c
        cases c with
        | pushBack x =>
          obtain ⟨r, a', hrun, hS⟩ := h.insert_fits (Nat.le_refl _) hfit.1 hfit.2 hfresh x
          rw [← h.length_eq, List.insertIdx_length_self] at hS
          exact ⟨r, a', hrun, hS⟩
        | pushFront x => exact h.insert_fits (Nat.zero_le _) hfit.1 hfit.2 hfresh x
        | insert index x => exact h.insert_fits hin hfit.1 hfit.2 hfresh x
        | resize n => exact h.resize_grow hin hfit hfresh
      exact ⟨r, a', hrun, trivial, hS⟩)
    (fun c a l h hadm hconf => h.fits_of_conforms hadm hconf)
    ⟨_, _, rfl, stored_newArray τ cell⟩ cs
  refine ⟨hruns.1, fun hrun => ?_⟩
  obtain ⟨r, a, hout, h⟩ := hruns.2 hrun
  exact ⟨r, a, hout, h.le, h.contents⟩

/-- An element type with a destructor and a move assignment of its own. -/
def handleType : ElemType ℕ where
  size := 8
  default := 0
  trivMoveAssignable := false
  trivMoveConstructible := false
  trivConstructible := false
  trivDestructible := false
  nothrowConstructible := true
  moveAssignable := true
  size_pos := by decide
  destructible_of_construct := nofun
  destructible_of_move := nofun

/-- A plain record whose member has an initialiser. -/
def recordType : ElemType ℕ where
  size := 8
  default := 5
  trivMoveAssignable := true
  trivMoveConstructible := true
  trivConstructible := false
  trivDestructible := true
  nothrowConstructible := true
  moveAssignable := true
  size_pos := by decide
  destructible_of_construct := nofun
  destructible_of_move _ := rfl

/-- The first `push_back` of handles reallocates null in place.  Resized from empty, an array of
records has a record that was not constructed; and resized to `2 ^ 61 + 1` records of eight bytes,
it has a block of eight bytes. -/
theorem growth_goes_wrong :
    (newArray fun _ => .raw).pushBack handleType 7 ⟨false, 4096⟩ = .error .undefined ∧
    ((newArray fun _ => .raw).resize recordType 1 ⟨false, 4096⟩).map
        (fun r => (r.1, r.2.contents)) =
      .ok (true, some [.raw]) ∧
    ((newArray fun _ => .raw).resize recordType (2 ^ 61 + 1) ⟨false, 4096⟩).map
      (fun r => (r.1, r.2.mem.size r.2.data)) = .ok (true, some 1) :=
  ⟨rfl, rfl, rfl⟩

/-- `Elf64_Dyn`, a plain record of sixteen bytes; a value is its two words. -/
def elf64Dyn : ElemType (ℕ × ℕ) where
  size := 16
  default := (0, 0)
  trivMoveAssignable := true
  trivMoveConstructible := true
  trivConstructible := true
  trivDestructible := true
  nothrowConstructible := true
  moveAssignable := true
  size_pos := by decide
  destructible_of_construct _ := rfl
  destructible_of_move _ := rfl

/-- How `ki_elf_load_kmod` makes room in `dyn_entries` for a `PT_DYNAMIC` segment, of which it then
reads `p_filesz` bytes there. -/
def resizeDynEntries (entries : DynArray (ℕ × ℕ)) (filesz : ℕ) (g : ArrayGrants) :
    Except Fault (Bool × DynArray (ℕ × ℕ)) :=
  entries.resize elf64Dyn (ceilAlignTo filesz 8) g

/-- **The buffer of the loader holds the segment** just if rounding its size does not wrap, and the
size that the array asks for, wrapped, still suffices. -/
theorem resizeDynEntries_iff {d d' : DynArray (ℕ × ℕ)} {filesz : ℕ} {g : ArrayGrants}
    (hd : d.Boxed elf64Dyn) (hfresh : d.FreshBlock elf64Dyn g)
    (hrun : resizeDynEntries d filesz g = .ok (true, d')) :
    filesz ≤ d'.bufferBytes elf64Dyn ↔ filesz + 8 ≤ 2 ^ 64 ∧
      (d.capacity < ceilAlignTo filesz 8 →
        filesz ≤ getGrownCapacity (ceilAlignTo filesz 8) d.capacity * 16 % 2 ^ 64) := by
  rw [(hd.resize_buffer hfresh hrun).2, DynArray.roomFor]
  have hb : d.capacity * 16 < 2 ^ 64 := hd.bound
  have hmod := Nat.mod_lt (getGrownCapacity (ceilAlignTo filesz 8) d.capacity * 16)
    (Nat.two_pow_pos 64)
  split
  · rename_i hc
    rw [forall_prop_of_true hc, show elf64Dyn.size = 16 from rfl,
      Nat.div_mul_cancel ((Nat.dvd_mod_iff (by decide)).mpr (Nat.dvd_mul_left ..))]
    omega
  · rename_i hc
    rw [forall_prop_of_false hc, and_true, show elf64Dyn.size = 16 from rfl]
    refine ⟨fun _ => by omega, fun hfs => ?_⟩
    have := (ceilAlignTo_spec (s := 8) (by decide) hfs).2.1
    omega

/-- **A growing call that answers true has a buffer of `n * sizeof(T)` bytes** just if the number of
bytes it asks for does not wrap; and the loader has one for the segment just if the wrapped number
is large enough. -/
theorem grow_buffer_iff (a a' : DynArray V) (g : ArrayGrants) (c : GrowCall V) (h : a.Boxed τ)
    (hfresh : a.FreshBlock τ g) (hrun : c.exec τ a g = .ok (true, a')) :
    (a'.length * τ.size ≤ a'.bufferBytes τ ↔
      (a.capacity < a'.length → getGrownCapacity a'.length a.capacity * τ.size < 2 ^ 64)) ∧
    ∀ d d' filesz g, d.Boxed elf64Dyn → d.FreshBlock elf64Dyn g →
      resizeDynEntries d filesz g = .ok (true, d') →
      (filesz ≤ d'.bufferBytes elf64Dyn ↔ filesz + 8 ≤ 2 ^ 64 ∧
        (d.capacity < ceilAlignTo filesz 8 →
          filesz ≤ getGrownCapacity (ceilAlignTo filesz 8) d.capacity * 16 % 2 ^ 64)) := by
  refine ⟨?_, fun d d' filesz g hd hfresh hrun => resizeDynEntries_iff hd hfresh hrun⟩
  suffices hroom : a'.bufferBytes τ = a.roomFor τ a'.length by
    rw [hroom]
    exact h.le_roomFor_iff
  cases c with
  | pushBack x => exact h.insert_buffer hfresh hrun
  | pushFront x => exact h.insert_buffer hfresh hrun
  | insert index x => exact h.insert_buffer hfresh hrun
  | resize n =>
    obtain ⟨hlen, hbuffer⟩ := h.resize_buffer hfresh hrun
    rw [hbuffer, hlen]

/-- Three entries, and segments of twenty bytes and of `2 ^ 60 + 2 ^ 57`. -/
theorem grow_buffer_iff_entries : ∃ a d d',
    GrowCall.exec elf64Dyn (newArray fun _ => .raw) ⟨false, 4096⟩ (.resize 3) = .ok (true, a) ∧
    resizeDynEntries (newArray fun _ => .raw) 20 ⟨false, 4096⟩ = .ok (true, d) ∧
    resizeDynEntries (newArray fun _ => .raw) (2 ^ 60 + 2 ^ 57) ⟨false, 4096⟩ = .ok (true, d') ∧
    3 * 16 ≤ a.bufferBytes elf64Dyn ∧ 20 ≤ d.bufferBytes elf64Dyn ∧
    2 ^ 60 + 2 ^ 57 ≤ d'.bufferBytes elf64Dyn := by
  have hnew := (stored_newArray elf64Dyn fun _ => .raw).toBoxed
  have hiff := grow_buffer_iff _ _ ⟨false, 4096⟩ (.resize 3) hnew (fun _ => .inl rfl) rfl
  exact ⟨_, _, _, rfl, rfl, rfl, hiff.1.mpr fun _ => by decide,
    (hiff.2 _ _ 20 ⟨false, 4096⟩ hnew (fun _ => .inl rfl) rfl).mpr ⟨by decide, fun _ => by decide⟩,
    (hiff.2 _ _ _ ⟨false, 4096⟩ hnew (fun _ => .inl rfl) rfl).mpr ⟨by decide, fun _ => by decide⟩⟩

/-- **A buffer that is too small.**  Resized to `2 ^ 61 + 1` records of eight bytes, an array has a
buffer of eight bytes.  For a segment of `2 ^ 60 + 8` bytes the loader has a buffer of 128, and for
one of `2 ^ 64 - 1` it has none. -/
theorem resize_buffer_small :
    ((newArray fun _ => .raw).resize recordType (2 ^ 61 + 1) ⟨false, 4096⟩).map
      (fun r => (r.1, r.2.length, r.2.bufferBytes recordType)) = .ok (true, 2 ^ 61 + 1, 8) ∧
    (resizeDynEntries (newArray fun _ => .raw) (2 ^ 60 + 8) ⟨false, 4096⟩).map
      (fun r => (r.1, r.2.bufferBytes elf64Dyn)) = .ok (true, 128) ∧
    (resizeDynEntries (newArray fun _ => .raw) (2 ^ 64 - 1) ⟨false, 4096⟩).map
      (fun r => (r.1, r.2.bufferBytes elf64Dyn)) = .ok (true, 0) :=
  ⟨rfl, rfl, rfl⟩

end

end Pbos.Kfxx
