import Mathlib

/-!
# Km/Panic — how a call ends

`km_panic` does not return.  A function that may reach it lives in `Except Fault`; `kd_assert` is
`km_panic` with the file and the line of the failed assertion.  Other ways of not returning are told
apart: following a null pointer, a loop that outruns every bound its model gives it, an operation
the source leaves undefined, and, where additions are checked, one that wraps.  A call that returns
reports how it went by a `KmResult`.
-/

namespace Pbos

/-- What a call may end in instead of returning. -/
inductive Fault
  | panic (fmt : String) (args : List ℕ)
  | assertion (file : String) (line : ℕ)
  | nullDeref
  | hang
  | undefined
  | overflow
  deriving DecidableEq, Repr

/-- `km_result_t`. -/
inductive KmResult
  | ok | failed | noPerm | invalidArgs | noMem | ioError | notFound | unavailable | eof | malformed
  | invalidAddr | existed | deprecated | internalError | noSlot | unsupportedOperation
  | unsupportedExecfmt | accessViolation | dirNotEmpty | unresolvedSymbol
  deriving DecidableEq, Repr

/-- `kd_assert(c)`. -/
def kdAssert (c : Prop) [Decidable c] (file : String) (line : ℕ) : Except Fault Unit :=
  if c then .ok () else .error (.assertion file line)

@[simp] theorem kdAssert_of_pos {c : Prop} [Decidable c] (h : c) (file : String) (line : ℕ) :
    kdAssert c file line = .ok () := if_pos h

@[simp] theorem kdAssert_of_neg {c : Prop} [Decidable c] (h : ¬ c) (file : String) (line : ℕ) :
    kdAssert c file line = .error (.assertion file line) := if_neg h

theorem kdAssert_eq_ok_iff {c : Prop} [Decidable c] {file : String} {line : ℕ} {u : Unit} :
    kdAssert c file line = .ok u ↔ c := by
  by_cases h : c <;> simp [h]

/-- A sequence returns when its parts do. -/
theorem bind_eq_ok_iff.{u, v} {ε : Type v} {α β : Type u} {x : Except ε α} {f : α → Except ε β}
    {b : β} :
    (x >>= f) = .ok b ↔ ∃ a, x = .ok a ∧ f a = .ok b := by
  cases x with
  | error e => exact ⟨(nomatch ·), fun ⟨_, h, _⟩ => nomatch h⟩
  | ok a => exact ⟨fun h => ⟨a, rfl, h⟩, fun ⟨_, h, h'⟩ => by cases h; exact h'⟩

/-- What a sequence that returned has done. -/
theorem of_bind.{u, v} {ε : Type v} {α β : Type u} {x : Except ε α} {f : α → Except ε β} {b : β}
    (h : (x >>= f) = .ok b) : ∃ a, x = .ok a ∧ f a = .ok b := bind_eq_ok_iff.mp h

theorem ok_mk_inj {ε α β : Type*} {a a' : α} {b b' : β}
    (h : (.ok (a, b) : Except ε (α × β)) = .ok (a', b')) : a = a' ∧ b = b' :=
  Prod.mk.inj (Except.ok.inj h)

theorem map_eq_ok_iff {ε α β : Type*} {x : Except ε α} {f : α → β} {b : β} :
    x.map f = .ok b ↔ ∃ a, x = .ok a ∧ f a = b := by
  cases x <;> simp [Except.map]

theorem map_eq_error_iff {ε α β : Type*} {x : Except ε α} {f : α → β} {e : ε} :
    x.map f = .error e ↔ x = .error e := by
  cases x <;> simp [Except.map]

/-- Whether a computation returns, and what, can be found out by performing it. -/
instance decidableExistsOk {ε α : Type*} {x : Except ε α} {P : α → Prop} [DecidablePred P] :
    Decidable (∃ a, x = .ok a ∧ P a) :=
  match x with
  | .ok a => decidable_of_iff (P a) (by simp)
  | .error _ => isFalse (by simp)

instance decidableExistsOkPair {ε α β : Type*} {x : Except ε (α × β)} {P : α → β → Prop}
    [∀ a b, Decidable (P a b)] : Decidable (∃ a b, x = .ok (a, b) ∧ P a b) :=
  match x with
  | .ok (a, b) => decidable_of_iff (P a b) (by simp)
  | .error _ => isFalse (by simp)

end Pbos
