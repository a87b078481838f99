import Mathlib

/-!
# Lib/Thread — one thread, the mutexes it holds, and a log

`Comp` is what a thread computes: it may lock and unlock mutexes that are not recursive, write to a
log, and end in a fault.  A mutex does not stop the thread here.  Locking one that it holds already
is noted in `relocked`, unlocking one that it does not hold in `stray`, and the thread goes on.

Three notions follow a computation through its parts: `Silent` for one that logs nothing, `Quiet`
for one that locks nothing twice, and `Logs` for one that touches no mutex.
-/

namespace Thread

/-- The mutexes held, the latest first; those that were locked while they were held, and unlocked
while they were not; and the log, the latest last. -/
structure State (μ α : Type) where
  held : List μ
  relocked : List μ
  stray : List μ
  log : List α

/-- A computation; the state is there also when it does not return. -/
structure Comp (μ ε α β : Type) where
  run : State μ α → Except ε β × State μ α

variable {μ ε α β γ : Type}

/-- Nothing has been locked or logged. -/
def State.start : State μ α := ⟨[], [], [], []⟩

@[simp] theorem held_start : (State.start : State μ α).held = [] := rfl

instance : Monad (Comp μ ε α) where
  pure b := ⟨fun s => (.ok b, s)⟩
  bind m f := ⟨fun s =>
    match m.run s with
    | (.ok b, s') => (f b).run s'
    | (.error e, s') => (.error e, s')⟩

/-- End in a fault. -/
def halt (e : ε) : Comp μ ε α β := ⟨fun s => (.error e, s)⟩

/-- Write to the log. -/
def emit (a : α) : Comp μ ε α Unit := ⟨fun s => (.ok (), { s with log := s.log ++ [a] })⟩

/-- Lock a mutex. -/
def lock [DecidableEq μ] (m : μ) : Comp μ ε α Unit := ⟨fun s => (.ok (),
  if m ∈ s.held then { s with relocked := m :: s.relocked } else { s with held := m :: s.held })⟩

/-- Unlock a mutex. -/
def unlock [DecidableEq μ] (m : μ) : Comp μ ε α Unit := ⟨fun s => (.ok (),
  if m ∈ s.held then { s with held := s.held.erase m } else { s with stray := m :: s.stray })⟩

variable {m : Comp μ ε α β} {f : β → Comp μ ε α γ} {s s' : State μ α} {b : β}
  {r : Except ε β × State μ α} {Q : β → List μ → Prop} {l : List α}

theorem run_bind (m : Comp μ ε α β) (f : β → Comp μ ε α γ) (s : State μ α) :
    (m >>= f).run s = match m.run s with
    | (.ok b, s') => (f b).run s'
    | (.error e, s') => (.error e, s') := rfl

theorem bind_of_ok (h : m.run s = (.ok b, s')) : (m >>= f).run s = (f b).run s' := by
  rw [run_bind, h]

theorem bind_of_error {e : ε} (h : m.run s = (.error e, s')) :
    (m >>= f).run s = (.error e, s') := by
  rw [run_bind, h]

/-- **The rule of sequence**: what holds where the first part stops, and of the second part behind
each of its results, holds of both. -/
theorem bind_rule {P : Except ε γ × State μ α → Prop}
    (hok : ∀ b s', m.run s = (.ok b, s') → P ((f b).run s'))
    (herror : ∀ e s', m.run s = (.error e, s') → P (.error e, s')) : P ((m >>= f).run s) := by
  rcases hm : m.run s with ⟨r, s'⟩
  cases r with
  | ok b => exact bind_of_ok hm ▸ hok b s' hm
  | error e => exact bind_of_error hm ▸ herror e s' hm

theorem pure_eq_ok_iff {c : β} : (∃ s', (pure b : Comp μ ε α β).run s = (.ok c, s')) ↔ b = c :=
  ⟨fun ⟨_, h⟩ => Except.ok.inj (Prod.mk.inj h).1, fun h => ⟨s, h ▸ rfl⟩⟩

theorem halt_ne_ok (e : ε) (s : State μ α) :
    ¬ ∃ s', (halt e : Comp μ ε α β).run s = (.ok b, s') := by
  rintro ⟨s', h⟩
  cases (Prod.mk.inj h).1

/-- **What the first part must have done if both return.** -/
theorem bind_eq_ok {c : γ} {s'' : State μ α} (h : (m >>= f).run s = (.ok c, s'')) :
    ∃ b s', m.run s = (.ok b, s') ∧ (f b).run s' = (.ok c, s'') := by
  obtain ⟨r, s', hr⟩ : ∃ r s', m.run s = (r, s') := ⟨_, _, rfl⟩
  cases r with
  | ok b => exact ⟨b, s', hr, bind_of_ok hr ▸ h⟩
  | error e =>
    rw [bind_of_error hr] at h
    cases (Prod.mk.inj h).1

/-! ## Keeping what was noted -/

/-- What was locked twice stays noted. -/
def Keeps (m : Comp μ ε α β) : Prop := ∀ s, s.relocked ⊆ (m.run s).2.relocked

/-- Nothing is logged, and what was locked twice stays noted. -/
def Silent (m : Comp μ ε α β) : Prop := Keeps m ∧ ∀ s, (m.run s).2.log = s.log

theorem Keeps.bind (h : Keeps m) (hf : ∀ b, Keeps (f b)) : Keeps (m >>= f) := by
  intro s
  have hkeep := h s
  refine bind_rule (P := fun r => s.relocked ⊆ r.2.relocked) (fun b t hr => ?_) fun e t hr => ?_
  all_goals rw [hr] at hkeep
  · exact List.Subset.trans hkeep (hf b t)
  · exact hkeep

/-- What was locked twice in the first part stays noted. -/
theorem relocked_bind (h : (m.run s).2.relocked ≠ []) (hf : ∀ b, Keeps (f b)) :
    ((m >>= f).run s).2.relocked ≠ [] := by
  obtain ⟨n, hn⟩ := List.exists_mem_of_ne_nil _ h
  refine bind_rule (P := fun r => r.2.relocked ≠ []) (fun b t hr => ?_) fun e t hr => ?_
  all_goals rw [hr] at hn
  · exact List.ne_nil_of_mem (hf b t hn)
  · exact List.ne_nil_of_mem hn

theorem silent_pure (b : β) : Silent (pure b : Comp μ ε α β) :=
  ⟨fun _ => List.Subset.refl _, fun _ => rfl⟩

theorem silent_halt (e : ε) : Silent (halt e : Comp μ ε α β) :=
  ⟨fun _ => List.Subset.refl _, fun _ => rfl⟩

/-- What follows a silent computation, and is silent after each of its results. -/
theorem silent_bind_log (h : Silent m)
    (hf : ∀ b s', m.run s = (.ok b, s') → Silent (f b)) : ((m >>= f).run s).2.log = s.log := by
  have hlog := h.2 s
  refine bind_rule (P := fun r => r.2.log = s.log) (fun b t hr => ?_) fun e t hr => ?_
  all_goals rw [hr] at hlog
  · exact ((hf b t hr).2 t).trans hlog
  · exact hlog

theorem Silent.bind (h : Silent m) (hf : ∀ b, Silent (f b)) : Silent (m >>= f) :=
  ⟨h.1.bind fun b => (hf b).1, fun _ => silent_bind_log h fun b _ _ => hf b⟩

/-! ## Quiet ends -/

/-- From `s` on nothing was locked twice, and if the computation returned, `Q` holds of what it
returned and of the mutexes then held. -/
def Quiet (r : Except ε β × State μ α) (s : State μ α) (Q : β → List μ → Prop) : Prop :=
  r.2.relocked = s.relocked ∧ ∀ b, r.1 = .ok b → Q b r.2.held

theorem quiet_of_ok (h : r = (.ok b, s')) (hkeep : s'.relocked = s.relocked) (hQ : Q b s'.held) :
    Quiet r s Q := by
  subst h
  exact ⟨hkeep, fun _ hb => Except.ok.inj hb ▸ hQ⟩

theorem quiet_halt (e : ε) (s : State μ α) (Q : β → List μ → Prop) :
    Quiet ((halt e : Comp μ ε α β).run s) s Q := ⟨rfl, fun _ h => by cases h⟩

theorem quiet_pure (h : Q b s.held) : Quiet ((pure b : Comp μ ε α β).run s) s Q :=
  quiet_of_ok rfl rfl h

theorem Quiet.mono {Q' : β → List μ → Prop} (h : Quiet r s Q)
    (himp : ∀ b held, Q b held → Q' b held) : Quiet r s Q' :=
  ⟨h.1, fun b hb => himp b _ (h.2 b hb)⟩

theorem Quiet.bind {R : γ → List μ → Prop} (h : Quiet (m.run s) s Q)
    (hf : ∀ b s', Q b s'.held → Quiet ((f b).run s') s' R) : Quiet ((m >>= f).run s) s R := by
  refine bind_rule (P := (Quiet · s R)) (fun b t hr => ?_) fun e t hr => ?_
  all_goals
    rw [hr] at h
    obtain ⟨hkeep, hq⟩ := h
  · obtain ⟨hkeep', hres⟩ := hf b t (hq b rfl)
    exact ⟨hkeep'.trans hkeep, hres⟩
  · exact ⟨hkeep, fun _ h => by cases h⟩

/-- The computation did not return. -/
def Halts (r : Except ε β × State μ α) : Prop := ∃ e s', r = (.error e, s')

theorem halts_halt (e : ε) (s : State μ α) : Halts ((halt e : Comp μ ε α β).run s) := ⟨_, _, rfl⟩

theorem Halts.bind (h : Halts (m.run s)) : Halts ((m >>= f).run s) := by
  obtain ⟨e, s', h⟩ := h
  exact ⟨e, s', bind_of_error h⟩

/-- Not returning behind a part that may or may not return. -/
theorem halts_bind_of_forall (h : ∀ b s', Halts ((f b).run s')) : Halts ((m >>= f).run s) :=
  bind_rule (P := Halts) (fun b s' _ => h b s') fun _ _ _ => ⟨_, _, rfl⟩

theorem Halts.ne_ok (h : Halts r) (b : β) (s' : State μ α) : r ≠ (.ok b, s') := by
  obtain ⟨e, s'', rfl⟩ := h
  intro h
  cases (Prod.mk.inj h).1

/-! ## Logging -/

/-- From any state, the computation leaves the mutexes as they are and logs `l`. -/
def Logs (m : Comp μ ε α β) (l : List α) : Prop := ∀ s, (m.run s).2 = { s with log := s.log ++ l }

theorem pure_bind_eq (b : β) (f : β → Comp μ ε α γ) : (pure b >>= f) = f b := rfl

theorem emit_bind_bind {δ : Type} (a : α) (g : Unit → Comp μ ε α δ) (f : δ → Comp μ ε α β) :
    ((emit a >>= g) >>= f) = (emit a >>= fun u => g u >>= f) := rfl

theorem logs_pure (b : β) : Logs (pure b : Comp μ ε α β) [] := by
  intro s
  rw [List.append_nil]
  rfl

theorem logs_halt (e : ε) : Logs (halt e : Comp μ ε α β) [] := by
  intro s
  rw [List.append_nil]
  rfl

theorem logs_emit {f : Unit → Comp μ ε α β} (a : α) (h : Logs (f ()) l) :
    Logs (emit a >>= f) (a :: l) := by
  intro s
  have hstate := h { s with log := s.log ++ [a] }
  rw [List.append_assoc] at hstate
  exact hstate

theorem Logs.bind_pure (h : Logs m l) (g : β → γ) : Logs (m >>= fun b => pure (g b)) l := by
  intro s
  have hstate := h s
  refine bind_rule (P := fun r => r.2 = { s with log := s.log ++ l }) (fun b t hr => ?_)
    fun e t hr => ?_
  all_goals
    rw [hr] at hstate
    exact hstate

theorem Logs.keeps (h : Logs m l) : Keeps m := by
  intro s
  rw [h s]
  exact List.Subset.refl _

/-- What follows a computation that logs, and logs nothing itself. -/
theorem Logs.bind_silent (h : Logs m l) (hf : ∀ b, Silent (f b)) :
    ((m >>= f).run s).2.log = s.log ++ l := by
  have hlog := congrArg State.log (h s)
  refine bind_rule (P := fun r => r.2.log = s.log ++ l) (fun b t hr => ?_) fun e t hr => ?_
  all_goals rw [hr] at hlog
  · exact ((hf b).2 t).trans hlog
  · exact hlog

/-- A computation that logs touches no mutex. -/
theorem Logs.quiet (h : Logs m l) (s : State μ α) :
    Quiet (m.run s) s fun _ held => held = s.held := by
  rw [Quiet, h s]
  exact ⟨rfl, fun _ _ => rfl⟩

/-! ## Mutexes -/

section Mutex

variable [DecidableEq μ] {n : μ}

theorem lock_of_free (h : n ∉ s.held) :
    (lock n : Comp μ ε α Unit).run s = (.ok (), { s with held := n :: s.held }) :=
  congrArg (Prod.mk _) (if_neg h)

/-- Locking a mutex that is held. -/
theorem lock_of_held (h : n ∈ s.held) :
    (lock n : Comp μ ε α Unit).run s = (.ok (), { s with relocked := n :: s.relocked }) :=
  congrArg (Prod.mk _) (if_pos h)

theorem silent_lock (n : μ) : Silent (lock n : Comp μ ε α Unit) := by
  constructor
  · intro s
    by_cases h : n ∈ s.held
    · rw [lock_of_held h]
      exact List.subset_cons_self ..
    · rw [lock_of_free h]
      exact List.Subset.refl _
  · intro s
    by_cases h : n ∈ s.held
    · rw [lock_of_held h]
    · rw [lock_of_free h]

theorem quiet_lock (h : n ∉ s.held) :
    Quiet ((lock n : Comp μ ε α Unit).run s) s fun _ held => held = n :: s.held :=
  quiet_of_ok (lock_of_free h) rfl rfl

theorem unlock_of_held (h : n ∈ s.held) :
    (unlock n : Comp μ ε α Unit).run s = (.ok (), { s with held := s.held.erase n }) :=
  congrArg (Prod.mk _) (if_pos h)

theorem unlock_of_free (h : n ∉ s.held) :
    (unlock n : Comp μ ε α Unit).run s = (.ok (), { s with stray := n :: s.stray }) :=
  congrArg (Prod.mk _) (if_neg h)

theorem silent_unlock (n : μ) : Silent (unlock n : Comp μ ε α Unit) := by
  constructor
  · intro s
    by_cases h : n ∈ s.held
    · rw [unlock_of_held h]
      exact List.Subset.refl _
    · rw [unlock_of_free h]
      exact List.Subset.refl _
  · intro s
    by_cases h : n ∈ s.held
    · rw [unlock_of_held h]
    · rw [unlock_of_free h]

theorem quiet_unlock (n : μ) (s : State μ α) :
    Quiet ((unlock n : Comp μ ε α Unit).run s) s fun _ held => held = s.held.erase n := by
  by_cases h : n ∈ s.held
  · exact quiet_of_ok (unlock_of_held h) rfl rfl
  · exact quiet_of_ok (unlock_of_free h) rfl (List.erase_of_not_mem h).symm

end Mutex

end Thread
