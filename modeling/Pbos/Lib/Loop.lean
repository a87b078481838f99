import Mathlib

/-!
# Lib/Loop — counted loops that may stop early

`forLoop body n x s` is `for (y = x; y < x + n; ++y)` around a body that may go on, `break`, or
`return` from the function the loop stands in.  `forLoop_holds` is its invariant rule.
-/

variable {ε σ : Type*} {Q R : σ → Prop} {n x : ℕ} {s : σ}

/-- How one turn of a loop ends. -/
inductive Turn (σ : Type*)
  | next (s : σ)
  | brk (s : σ)
  | ret (s : σ)

/-- How a loop ends: with the index it stopped at, or by leaving the function. -/
inductive Exit (σ : Type*)
  | done (x : ℕ) (s : σ)
  | ret (s : σ)

/-- The rest of a loop, with `n` turns to go at most. -/
def forLoop (body : ℕ → σ → Except ε (Turn σ)) : ℕ → ℕ → σ → Except ε (Exit σ)
  | 0, x, s => .ok (.done x s)
  | n + 1, x, s =>
    match body x s with
    | .error e => .error e
    | .ok (.next s') => forLoop body n (x + 1) s'
    | .ok (.brk s') => .ok (.done x s')
    | .ok (.ret s') => .ok (.ret s')

/-- `Q` after the loop, or `R` on leaving the function. -/
def Exit.Holds (Q R : σ → Prop) : Exit σ → Prop
  | .done _ s => Q s
  | .ret s => R s

variable {body : ℕ → σ → Except ε (Turn σ)} {r : Exit σ}

/-- **The invariant rule.**  `I y` holds before the turn at `y`. -/
theorem forLoop_holds {I : ℕ → σ → Prop}
    (hnext : ∀ y s s', x ≤ y → y < x + n → I y s → body y s = .ok (.next s') → I (y + 1) s')
    (hbrk : ∀ y s s', x ≤ y → y < x + n → I y s → body y s = .ok (.brk s') → Q s')
    (hret : ∀ y s s', x ≤ y → y < x + n → I y s → body y s = .ok (.ret s') → R s')
    (hend : ∀ s, I (x + n) s → Q s) (h0 : I x s) (h : forLoop body n x s = .ok r) :
    r.Holds Q R := by
  induction n generalizing x s with
  | zero =>
    cases h
    exact hend s h0
  | succ n ih =>
    rw [forLoop] at h
    split at h
    · cases h
    · rename_i s' hs'
      refine ih (fun y s s' hy hy' => hnext y s s' (by omega) (by omega))
        (fun y s s' hy hy' => hbrk y s s' (by omega) (by omega))
        (fun y s s' hy hy' => hret y s s' (by omega) (by omega))
        (fun s hs => hend s ?_) (hnext x s s' le_rfl (by omega) h0 hs') h
      rwa [show x + (n + 1) = x + 1 + n by omega]
    · rename_i s' hs'
      cases h
      exact hbrk x s s' le_rfl (by omega) h0 hs'
    · rename_i s' hs'
      cases h
      exact hret x s s' le_rfl (by omega) h0 hs'

/-- `Q` after a turn, however it ends. -/
def Turn.Holds (Q : σ → Prop) : Turn σ → Prop
  | .next s => Q s
  | .brk s => Q s
  | .ret s => Q s

/-- What every turn keeps, the loop keeps. -/
theorem forLoop_keeps (h : ∀ y s fl, Q s → body y s = .ok fl → fl.Holds Q) (h0 : Q s)
    (hr : forLoop body n x s = .ok r) : r.Holds Q Q :=
  forLoop_holds (I := fun _ => Q) (fun y s _ _ _ hs hb => h y s _ hs hb)
    (fun y s _ _ _ hs hb => h y s _ hs hb) (fun y s _ _ _ hs hb => h y s _ hs hb)
    (fun _ => id) h0 hr

/-- A loop that stops right after its first turn, if that goes through. -/
theorem forLoop_once {α : Type*} {d : Except ε α} {f : α → σ}
    (hfirst : body x s = d.map fun a => .next (f a))
    (hsecond : ∀ a, 0 < n → body (x + 1) (f a) = .ok (.brk (f a))) :
    forLoop body (n + 1) x s = d.map fun a => .done (x + 1) (f a) := by
  rw [forLoop, hfirst]
  cases d with
  | error e => rfl
  | ok a =>
    change forLoop body n (x + 1) (f a) = .ok (.done (x + 1) (f a))
    cases n with
    | zero => rfl
    | succ n => rw [forLoop, hsecond a (Nat.succ_pos n)]

/-- A loop none of whose turns does anything leaves the state alone. -/
theorem forLoop_idle (body : ℕ → σ → Except ε (Turn σ))
    (h : ∀ y, x ≤ y → y < x + n → body y s = .ok (.next s) ∨ body y s = .ok (.brk s)) :
    ∃ y, forLoop body n x s = .ok (.done y s) := by
  induction n generalizing x with
  | zero => exact ⟨x, rfl⟩
  | succ n ih =>
    rcases h x le_rfl (by omega) with hx | hx
    · obtain ⟨y, hy⟩ := ih (x := x + 1) fun y hy hy' => h y (by omega) (by omega)
      exact ⟨y, by rw [forLoop, hx]; exact hy⟩
    · exact ⟨x, by rw [forLoop, hx]⟩

/-- `Q` after a turn that goes on, or that breaks where `P` fails. -/
def Turn.Goes (P : Prop) (Q : σ → Prop) : Turn σ → Prop
  | .next s => Q s
  | .brk s => ¬ P ∧ Q s
  | .ret _ => False

/-- A loop whose turns all go on runs to its last index. -/
theorem forLoop_goes {P : Prop}
    (h : ∀ y s fl, x ≤ y → y < x + n → Q s → body y s = .ok fl → fl.Goes P Q) (h0 : Q s)
    (hr : forLoop body n x s = .ok r) : ∃ y s', r = .done y s' ∧ Q s' ∧ (P → y = x + n) := by
  induction n generalizing x s with
  | zero => exact ⟨x, s, (Except.ok.inj hr).symm, h0, fun _ => rfl⟩
  | succ n ih =>
    rw [forLoop] at hr
    split at hr
    · cases hr
    · rename_i s' hs'
      obtain ⟨y, t, rfl, ht, hy⟩ := ih (fun y s fl hy hy' => h y s fl (by omega) (by omega))
        (h x s _ le_rfl (by omega) h0 hs') hr
      exact ⟨y, t, rfl, ht, fun hP => by rw [hy hP]; omega⟩
    · rename_i s' hs'
      obtain ⟨hP, ht⟩ := h x s _ le_rfl (by omega) h0 hs'
      exact ⟨x, s', (Except.ok.inj hr).symm, ht, fun hp => absurd hp hP⟩
    · rename_i s' hs'
      exact False.elim (h x s _ le_rfl (by omega) h0 hs')

/-- A loop whose turns all return returns. -/
theorem forLoop_total (h : ∀ y s, ∃ fl, body y s = .ok fl) (n x : ℕ) (s : σ) :
    ∃ r, forLoop body n x s = .ok r := by
  induction n generalizing x s with
  | zero => exact ⟨_, rfl⟩
  | succ n ih =>
    obtain ⟨fl, hfl⟩ := h x s
    rw [forLoop, hfl]
    cases fl with
    | next s' => exact ih (x + 1) s'
    | brk s' => exact ⟨_, rfl⟩
    | ret s' => exact ⟨_, rfl⟩

/-- **The invariant rule for loops that go through.**  Every turn returns. -/
theorem forLoop_reaches {I : ℕ → σ → Prop}
    (hbody : ∀ y s, x ≤ y → y < x + n → I y s → ∃ fl, body y s = .ok fl ∧
      match fl with
      | .next s' => I (y + 1) s'
      | .brk s' => Q s'
      | .ret s' => R s') (hend : ∀ s, I (x + n) s → Q s) (h0 : I x s) :
    ∃ r, forLoop body n x s = .ok r ∧ r.Holds Q R := by
  induction n generalizing x s with
  | zero => exact ⟨_, rfl, hend s h0⟩
  | succ n ih =>
    obtain ⟨fl, hfl, hcase⟩ := hbody x s le_rfl (by omega) h0
    rw [forLoop, hfl]
    cases fl with
    | next s' =>
      refine ih (fun y s hy hy' => hbody y s (by omega) (by omega)) (fun s hs => hend s ?_) hcase
      rwa [show x + (n + 1) = x + 1 + n by omega]
    | brk s' => exact ⟨_, rfl, hcase⟩
    | ret s' => exact ⟨_, rfl, hcase⟩

/-! ## Loops over parts of a range

A nest of loops goes through the numbers from `lo` to `hi`, where a turn of an outer loop stands for
`S` of them. -/

/-- How far such a walk is when it comes to `p`. -/
def clampTo (lo hi p : ℕ) : ℕ := min hi (max lo p)

theorem clampTo_of_le {lo hi p : ℕ} (h : hi ≤ p) : clampTo lo hi p = hi :=
  min_eq_left (h.trans (le_max_right _ _))

theorem clampTo_of_le_lo {lo hi p : ℕ} (h : p ≤ lo) (hlohi : lo ≤ hi) : clampTo lo hi p = lo := by
  rw [clampTo, max_eq_left h, min_eq_right hlohi]

theorem clampTo_of_mem {lo hi p : ℕ} (h : lo ≤ p) (h' : p ≤ hi) : clampTo lo hi p = p := by
  rw [clampTo, max_eq_right h, min_eq_right h']

/-- The entries of one level: the entry `y` stands for the `S` numbers from `e y` on.  The loop over
them starts, at `x`, with the entry that holds `lo` or with the first. -/
structure Strides (e : ℕ → ℕ) (S lo x : ℕ) : Prop where
  succ : ∀ y, e (y + 1) = e y + S
  start : x = 0 ∨ e x ≤ lo
  lo_lt : lo < e x + S

theorem strides_of {e : ℕ → ℕ} {S lo N : ℕ} (hsucc : ∀ y, e (y + 1) = e y + S)
    (h : x ≤ N ∧ (x = 0 ∨ e x ≤ lo) ∧ lo < e x + S) : x ≤ N ∧ Strides e S lo x :=
  ⟨h.1, hsucc, h.2.1, h.2.2⟩

namespace Strides

variable {e : ℕ → ℕ} {S lo hi x y N : ℕ} (h : Strides e S lo x)

include h

theorem eq_add (y : ℕ) : e y = e 0 + y * S := by
  induction y with
  | zero => rw [Nat.zero_mul, Nat.add_zero]
  | succ y ih => rw [h.succ, ih, Nat.succ_mul, Nat.add_assoc]

theorem le_of_le {z : ℕ} (hyz : y ≤ z) : e y ≤ e z := by
  rw [h.eq_add y, h.eq_add z]
  exact Nat.add_le_add_left (Nat.mul_le_mul_right S hyz) _

/-- What the loop visits reaches beyond `lo`. -/
theorem lt_of_le (hy : x ≤ y) : lo < e y + S :=
  h.lo_lt.trans_le (Nat.add_le_add_right (h.le_of_le hy) S)

/-- What comes before the entry the loop starts with comes before `lo`. -/
theorem clampTo_start (hi : ℕ) : clampTo lo hi (e x) = clampTo lo hi (e 0) := by
  obtain rfl | hle := h.start
  · rfl
  · rw [clampTo, clampTo, max_eq_left hle, max_eq_left ((h.le_of_le (Nat.zero_le x)).trans hle)]

/-- Behind `hi` nothing is left to do. -/
theorem clampTo_end (hy : y ≤ N) (hhi : hi ≤ e y) :
    clampTo lo hi (e 0 + N * S) = clampTo lo hi (e y) := by
  rw [← h.eq_add, clampTo_of_le hhi, clampTo_of_le (hhi.trans (h.le_of_le hy))]

end Strides

/-- **One level of the nest.**  A turn may leave at an entry that lies behind `hi`. -/
theorem forLoop_span {J : ℕ → σ → Prop} {e : ℕ → ℕ} {lo hi S N : ℕ} (he : Strides e S lo x)
    (hN : x ≤ N)
    (hbody : ∀ y s, y < N → lo < e y + S → J (clampTo lo hi (e y)) s →
      ∃ fl, body y s = .ok fl ∧
        match fl with
        | .next s' => J (clampTo lo hi (e y + S)) s'
        | .brk s' => s' = s ∧ hi ≤ e y
        | .ret s' => R s') (h0 : J (clampTo lo hi (e 0)) s) :
    ∃ r, forLoop body (N - x) x s = .ok r ∧ r.Holds (J (clampTo lo hi (e 0 + N * S))) R := by
  refine forLoop_reaches (I := fun y s => J (clampTo lo hi (e y)) s) (fun y s hy hy' hI => ?_)
    (fun s hs => ?_) (by rwa [he.clampTo_start])
  · obtain ⟨fl, hfl, hcase⟩ := hbody y s (by omega) (he.lt_of_le hy) hI
    refine ⟨fl, hfl, ?_⟩
    cases fl with
    | next s' =>
      rwa [he.succ]
    | ret s' => exact hcase
    | brk s' =>
      obtain ⟨rfl, hhi⟩ := hcase
      rwa [he.clampTo_end (by omega) hhi]
  · rwa [← he.eq_add, ← Nat.add_sub_of_le hN]
