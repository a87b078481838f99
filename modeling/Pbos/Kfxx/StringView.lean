import Pbos.Freestdc.String

/-!
# Kfxx/StringView — views of strings as keys

A view is compared by its size and then by `memcmp`, which takes its bytes for `char`s, and these
are signed.  `key` is the linear order behind it (`lt_iff`), and what a container asks of its keys
follows from that (`stringView_lawful`).
-/

namespace Pbos.Kfxx

open Freestdc

/-- The bytes of a `StringView`. -/
abbrev StringView := List UInt8

namespace StringView

/-- `operator==`. -/
def eq (a b : StringView) : Bool := if b.length ≠ a.length then false else memcmp a b = 0

/-- `operator>`. -/
def gt (a b : StringView) : Bool :=
  if a.length > b.length then true else if a.length < b.length then false else memcmp a b > 0

/-- `operator<`. -/
def lt (a b : StringView) : Bool :=
  if a.length > b.length then false else if a.length < b.length then true else memcmp a b < 0

/-- `Hash<StringView>`, that is `kf_djb_hash64`. -/
def hash (a : StringView) : UInt64 :=
  a.foldl (fun hash c => hash + ((hash <<< 5) + c.toInt8.toInt64.toUInt64)) 5381

/-- What the views are compared by. -/
def key (a : StringView) : ℕ ×ₗ List ℤ := toLex (a.length, a.map char)

variable {a b : StringView}

theorem key_inj (h : key a = key b) : a = b :=
  List.map_injective_iff.mpr char_injective (Prod.ext_iff.mp h).2

theorem lt_iff : lt a b = true ↔ key a < key b := by
  rw [lt, key, key, Prod.Lex.toLex_lt_toLex]
  split_ifs with hgt hlt
  · simp; omega
  · simp [hlt]
  · have hlen : a.length = b.length := by omega
    simp [hlen, memcmp_neg_iff hlen]

theorem gt_eq : gt a b = lt b a := by
  rw [gt, lt, memcmp_comm]
  split_ifs
  all_goals first | omega | simp

theorem eq_iff : eq a b = true ↔ a = b := by
  rw [eq]
  split_ifs with hlen
  · simp; exact fun h => hlen (h ▸ rfl)
  · simp [memcmp_eq_zero_iff (not_not.mp hlen).symm]

/-- **A `StringView` is a lawful key.** -/
theorem stringView_lawful :
    (∀ a, lt a a = false) ∧ (∀ a b c, lt a b → lt b c → lt a c) ∧
    (∀ a b, lt a b ∧ !lt b a ∧ !eq a b ∨ !lt a b ∧ lt b a ∧ !eq a b ∨
      !lt a b ∧ !lt b a ∧ eq a b) ∧
    (∀ a b, gt a b = lt b a) ∧ ∀ a b, eq a b → hash a = hash b := by
  refine ⟨fun a => ?_, fun a b c hab hbc => ?_, fun a b => ?_, fun a b => gt_eq, fun a b h => ?_⟩
  · simp [← Bool.not_eq_true, lt_iff]
  · exact lt_iff.mpr ((lt_iff.mp hab).trans (lt_iff.mp hbc))
  · simp only [Bool.not_eq_true', ← Bool.not_eq_true, lt_iff, eq_iff]
    obtain h | h | h := lt_trichotomy (key a) (key b)
    · exact .inl ⟨h, h.asymm, fun heq => h.ne (heq ▸ rfl)⟩
    · exact .inr (.inr ⟨h.not_lt, h.not_gt, key_inj h⟩)
    · exact .inr (.inl ⟨h.asymm, h, fun heq => h.ne (heq ▸ rfl)⟩)
  · rw [eq_iff.mp h]

end StringView

end Pbos.Kfxx
