import Pbos.Km.Panic
import Pbos.Lib.Run

/-!
# Ps/Mutex — the mutex and the recursive mutex

The mutex is followed at the level of its memory accesses: every thread has a place in the code, and
a run is any interleaving of their steps.  At most one thread ever holds the mutex (`MutexInv`), but
an unlock by the holder panics: it compares the lock word with `HAL_SPINLOCK_LOCKED`, which is 0
like `HAL_SPINLOCK_UNLOCKED`, while a locked word is 1 (`mutex_good_iff`).
`hal_unlock_spinlock` behind it would not write the word either: it assigns its own parameter.

The calls of the recursive mutex are taken whole, over a spinlock that works.  Its counter follows
the acquisitions of the holder as long as the holder does not call `ps_try_lock_rec_mutex`, which
succeeds without counting (`recMutex_good_iff`).
-/

namespace Pbos.Ps

open Function

/-! ## The spinlock -/

/-- `HAL_SPINLOCK_UNLOCKED`. -/
def halSpinlockUnlocked : UInt8 := 0

/-- `HAL_SPINLOCK_LOCKED`. -/
def halSpinlockLocked : UInt8 := 0

/-- `hal_try_lock_spinlock(lock)`: whether the exchange was made, and the word after it. -/
def halTryLockSpinlock (lock : UInt8) : Bool × UInt8 :=
  if lock = 0 then (true, 1) else (false, lock)

/-- `hal_unlock_spinlock(lock)`: the word after it.  The assignment is to the parameter. -/
def halUnlockSpinlock (lock : UInt8) : UInt8 := lock

variable {τ : Type} [DecidableEq τ]

/-! ## The mutex -/

/-- Where a thread is in the code of the mutex: outside, at the exchange of `ps_lock_mutex` or
`ps_try_lock_mutex`, between the exchange and the store of `lock_thread`, or at one of the three
statements of `ps_unlock_mutex`. -/
inductive MutexPc
  | out | locking | trying | acquired | checkOwner | checkLocked | releasing | panicked
  deriving DecidableEq, Repr

/-- The fields of a mutex and the places of the threads; `holds` marks the threads whose lock has
returned and whose unlock has not. -/
structure MutexState (τ : Type) where
  lockThread : Option τ
  spinlock : UInt8
  pc : τ → MutexPc
  holds : τ → Bool

/-- `ps_init_mutex`, before any call. -/
def MutexState.init : MutexState τ := ⟨none, halSpinlockUnlocked, fun _ => .out, fun _ => false⟩

/-- Thread `t` goes to `c`. -/
def MutexState.goto (s : MutexState τ) (t : τ) (c : MutexPc) : MutexState τ :=
  { s with pc := update s.pc t c }

/-- One memory access of thread `t`. -/
def MutexState.move (s : MutexState τ) (t : τ) : MutexState τ :=
  match s.pc t with
  | .out => s
  | .locking =>
    -- `while (!hal_try_lock_spinlock(…)) ps_yield_cur_thread();`
    match halTryLockSpinlock s.spinlock with
    | (true, lock) => { s with spinlock := lock }.goto t .acquired
    | (false, _) => s
  | .trying =>
    match halTryLockSpinlock s.spinlock with
    | (true, lock) => { s with spinlock := lock }.goto t .acquired
    | (false, _) => s.goto t .out
  | .acquired =>
    { s with lockThread := some t, holds := update s.holds t true }.goto t .out
  | .checkOwner => s.goto t (if s.lockThread = some t then .checkLocked else .panicked)
  | .checkLocked => s.goto t (if s.spinlock = halSpinlockLocked then .releasing else .panicked)
  | .releasing =>
    { s with
      spinlock := halUnlockSpinlock s.spinlock
      holds := update s.holds t false }.goto t .out
  | .panicked => s

/-- The calls of the mutex, with the place each starts at. -/
inductive MutexCall
  | lock | tryLock | unlock

def MutexCall.entry : MutexCall → MutexPc
  | .lock => .locking
  | .tryLock => .trying
  | .unlock => .checkOwner

/-- A thread calls one of the functions, or moves on in the one it is in. -/
inductive MutexEvent (τ : Type)
  | call (t : τ) (f : MutexCall)
  | move (t : τ)

/-- One event; only holders unlock. -/
def MutexStep (s : MutexState τ) : MutexEvent τ → MutexState τ → Prop
  | .call t f, s' => s.pc t = .out ∧ (f = .unlock → s.holds t = true) ∧ s' = s.goto t f.entry
  | .move t, s' => s' = s.move t

/-- Thread `t` has the lock word, whether or not its call has returned. -/
def MutexState.Owns (s : MutexState τ) (t : τ) : Prop := s.pc t = .acquired ∨ s.holds t = true

/-- What a mutex should be: at most one holder, no panic, and the word free when no thread has
it. -/
structure MutexGood (s : MutexState τ) : Prop where
  exclusive : ∀ t u, s.holds t = true → s.holds u = true → t = u
  noPanic : ∀ t, s.pc t ≠ .panicked
  free : (∀ t, ¬ s.Owns t) → s.spinlock = halSpinlockUnlocked

/-- The condition on an event: it is not the check of the lock word in `ps_unlock_mutex`. -/
def MutexFits (s : MutexState τ) : MutexEvent τ → Prop
  | .call _ _ => True
  | .move t => s.pc t ≠ .checkLocked

/-- What holds in every state: the word is set while a thread has it, one thread at a time, and
`lock_thread` names the holder, who alone is in `ps_unlock_mutex`. -/
structure MutexInv (s : MutexState τ) : Prop where
  word : ∀ t, s.Owns t → s.spinlock = 1
  unique : ∀ t u, s.Owns t → s.Owns u → t = u
  owner : ∀ t, s.holds t = true → s.lockThread = some t
  unlocking : ∀ t, s.pc t = .checkOwner ∨ s.pc t = .checkLocked → s.holds t = true
  released : ∀ t, s.pc t ≠ .releasing

omit [DecidableEq τ] in
theorem mutexInv_init : MutexInv (.init : MutexState τ) where
  word _ h := h.elim nofun nofun
  unique _ _ h := h.elim nofun nofun
  owner _ h := nomatch h
  unlocking _ h := h.elim nofun nofun
  released _ := nofun

/-- What an event does to a state where the invariant holds: the thread goes to another place, takes
the word, becomes the holder, or waits. -/
inductive MutexChange (s : MutexState τ) (t : τ) : MutexState τ → Prop
  | stay (h : s.pc t ≠ .checkLocked) : MutexChange s t s
  | goto (c : MutexPc) (hfrom : s.pc t ≠ .acquired) (hto : c ≠ .acquired ∧ c ≠ .releasing)
      (hunlock : c = .checkOwner ∨ c = .checkLocked → s.holds t = true)
      (hpanic : c = .panicked ↔ s.pc t = .checkLocked) : MutexChange s t (s.goto t c)
  | take (h : s.spinlock = 0) (hfrom : s.pc t ≠ .checkLocked) :
      MutexChange s t ({ s with spinlock := 1 }.goto t .acquired)
  | got (h : s.pc t = .acquired) : MutexChange s t
      ({ s with lockThread := some t, holds := update s.holds t true }.goto t .out)

section Mutex

variable {s s' : MutexState τ} {t u : τ} {e : MutexEvent τ}

theorem MutexInv.move_cases (h : MutexInv s) (t : τ) : MutexChange s t (s.move t) := by
  rw [MutexState.move]
  cases hpc : s.pc t with
  | out => exact .stay (by simp [hpc])
  | panicked => exact .stay (by simp [hpc])
  | locking =>
    by_cases hw : s.spinlock = 0
    · simp only [halTryLockSpinlock, if_pos hw]
      exact .take hw (by simp [hpc])
    · simp only [halTryLockSpinlock, if_neg hw]
      exact .stay (by simp [hpc])
  | trying =>
    by_cases hw : s.spinlock = 0
    · simp only [halTryLockSpinlock, if_pos hw]
      exact .take hw (by simp [hpc])
    · simp only [halTryLockSpinlock, if_neg hw]
      exact .goto .out (by simp [hpc]) (by decide) nofun (by simp [hpc])
  | acquired => exact .got hpc
  | checkOwner =>
    have hholds := h.unlocking t (.inl hpc)
    simp only [if_pos (h.owner t hholds)]
    exact .goto .checkLocked (by simp [hpc]) (by decide) (fun _ => hholds) (by simp [hpc])
  | checkLocked =>
    have hword : s.spinlock ≠ halSpinlockLocked := by
      rw [h.word t (.inr (h.unlocking t (.inr hpc)))]
      decide
    simp only [if_neg hword]
    exact .goto .panicked (by simp [hpc]) (by decide) nofun (by simp [hpc])
  | releasing => exact absurd hpc (h.released t)

theorem MutexInv.step_cases (h : MutexInv s) (hs : MutexStep s e s') :
    ∃ t, MutexChange s t s' ∧ (MutexFits s e ↔ s.pc t ≠ .checkLocked) := by
  cases e with
  | call t f =>
    obtain ⟨hpc, hunlock, rfl⟩ := hs
    refine ⟨t, .goto f.entry (by simp [hpc]) ?_ ?_ ?_, by simp [MutexFits, hpc]⟩
    · cases f <;> decide
    · cases f with
      | unlock => exact fun _ => hunlock rfl
      | _ => nofun
    · cases f <;> simp [hpc, MutexCall.entry]
  | move t =>
    obtain rfl := hs
    exact ⟨t, h.move_cases t, Iff.rfl⟩

/-- No thread is at `x` after one has gone elsewhere. -/
theorem goto_pc_ne {c x : MutexPc} (hc : c ≠ x) (h : ∀ u, s.pc u ≠ x) (u : τ) :
    (s.goto t c).pc u ≠ x := by
  by_cases hut : u = t
  · simpa [MutexState.goto, hut] using hc
  · simpa [MutexState.goto, hut] using h u

/-- Only holders are in `ps_unlock_mutex` after a thread has gone to `c`. -/
theorem goto_unlocking {c : MutexPc} (h : MutexInv s)
    (hc : c = .checkOwner ∨ c = .checkLocked → s.holds t = true)
    (hu : (s.goto t c).pc u = .checkOwner ∨ (s.goto t c).pc u = .checkLocked) :
    s.holds u = true := by
  by_cases hut : u = t
  · subst hut
    exact hc (by simpa [MutexState.goto] using hu)
  · exact h.unlocking u (by simpa [MutexState.goto, hut] using hu)

theorem owns_goto {c : MutexPc} (hfrom : s.pc t ≠ .acquired) (hto : c ≠ .acquired) :
    (s.goto t c).Owns u ↔ s.Owns u := by
  by_cases hut : u = t
  · subst hut
    simp [MutexState.Owns, MutexState.goto, hfrom, hto]
  · simp [MutexState.Owns, MutexState.goto, hut]

theorem owns_take (hown : ∀ u, ¬ s.Owns u) :
    ({ s with spinlock := 1 }.goto t .acquired).Owns u ↔ u = t := by
  have hu := hown u
  by_cases hut : u = t
  · simp [MutexState.Owns, MutexState.goto, hut]
  · simpa [MutexState.Owns, MutexState.goto, hut] using hu

theorem owns_got (h : s.pc t = .acquired) :
    ({ s with lockThread := some t, holds := update s.holds t true }.goto t .out).Owns u ↔
      s.Owns u := by
  by_cases hut : u = t
  · subst hut
    simp [MutexState.Owns, MutexState.goto, h]
  · simp [MutexState.Owns, MutexState.goto, hut]

omit [DecidableEq τ] in
/-- The word is free when it is 0. -/
theorem MutexInv.not_owns (h : MutexInv s) (hw : s.spinlock = 0) (u : τ) : ¬ s.Owns u := by
  intro hu
  rw [h.word u hu] at hw
  exact absurd hw (by decide)

theorem MutexInv.change (h : MutexInv s) (hc : MutexChange s t s') : MutexInv s' := by
  cases hc with
  | stay => exact h
  | goto c hfrom hto hunlock hpanic =>
    refine ⟨fun u hu => ?_, fun u v hu hv => ?_, h.owner, fun u => goto_unlocking h hunlock,
      goto_pc_ne hto.2 h.released⟩
    · exact h.word u ((owns_goto hfrom hto.1).mp hu)
    · exact h.unique u v ((owns_goto hfrom hto.1).mp hu) ((owns_goto hfrom hto.1).mp hv)
  | take hw hfrom =>
    have hown := h.not_owns hw
    refine ⟨fun u hu => rfl, fun u v hu hv => ?_, h.owner,
      fun u hu => goto_unlocking (s := s) (c := .acquired) h nofun hu, goto_pc_ne nofun h.released⟩
    rw [(owns_take hown).mp hu, (owns_take hown).mp hv]
  | got hpc =>
    refine ⟨fun u hu => ?_, fun u v hu hv => ?_, fun u hu => ?_, fun u hu => ?_,
      goto_pc_ne nofun h.released⟩
    · exact h.word u ((owns_got hpc).mp hu)
    · exact h.unique u v ((owns_got hpc).mp hu) ((owns_got hpc).mp hv)
    · exact congrArg some (h.unique u t ((owns_got hpc).mp (.inr hu)) (.inl hpc)).symm
    · have hholds := goto_unlocking (c := .out) h nofun hu
      by_cases hut : u = t
      · simp [MutexState.goto, hut]
      · simpa [MutexState.goto, hut] using hholds

theorem MutexInv.step (h : MutexInv s) (hs : MutexStep s e s') : MutexInv s' := by
  obtain ⟨t, hc, -⟩ := h.step_cases hs
  exact h.change hc

/-- From a good state, an event leads to a good state unless it is the check of the word. -/
theorem MutexGood.step_iff (h : MutexInv s) (hg : MutexGood s) (hs : MutexStep s e s') :
    MutexGood s' ↔ MutexFits s e := by
  obtain ⟨t, hc, hfits⟩ := h.step_cases hs
  have h' := h.change hc
  have hexcl : ∀ u v, s'.holds u = true → s'.holds v = true → u = v := fun u v hu hv =>
    h'.unique u v (.inr hu) (.inr hv)
  rw [hfits]
  cases hc with
  | stay hpc => exact iff_of_true hg hpc
  | goto c hfrom hto hunlock hpanic =>
    have hfree : (∀ u, ¬ (s.goto t c).Owns u) → s.spinlock = halSpinlockUnlocked := fun hno =>
      hg.free fun u hu => hno u ((owns_goto hfrom hto.1).mpr hu)
    rw [ne_eq, ← hpanic]
    constructor
    · intro hg' hc
      exact hg'.noPanic t (by simpa [MutexState.goto] using hc)
    · exact fun hc => ⟨hexcl, goto_pc_ne hc hg.noPanic, hfree⟩
  | take hw hfrom =>
    refine iff_of_true ⟨hexcl, goto_pc_ne nofun hg.noPanic, fun hno => ?_⟩ hfrom
    exact absurd ((owns_take (h.not_owns hw)).mpr rfl) (hno t)
  | got hpc =>
    refine iff_of_true ⟨hexcl, goto_pc_ne nofun hg.noPanic, fun hno => ?_⟩ (by simp [hpc])
    exact absurd ((owns_got hpc).mpr (.inl hpc)) (hno t)

omit [DecidableEq τ] in
theorem mutexGood_init : MutexGood (.init : MutexState τ) := ⟨nofun, nofun, fun _ => rfl⟩

/-- **When the mutex is what it should be.**  A run from `ps_init_mutex` passes through good states
only exactly if no unlock in it gets to its check of the lock word. -/
theorem mutex_good_iff {es : List (MutexEvent τ)} {s : MutexState τ} :
    Run (fun s e s' => MutexStep s e s' ∧ MutexGood s') .init es s ↔
      Run (fun s e s' => MutexStep s e s' ∧ MutexFits s e) .init es s :=
  Run.through_iff (I := MutexInv) (fun _ _ _ h hs => h.step hs)
    (fun _ _ _ h hg hs => hg.step_iff h hs) mutexInv_init mutexGood_init

end Mutex

/-- Thread 1 locks the mutex and unlocks it: the unlock panics. -/
theorem unlock_panics : ∃ s : MutexState ℕ,
    Run MutexStep .init [.call 1 .lock, .move 1, .move 1, .call 1 .unlock, .move 1, .move 1] s ∧
    s.pc 1 = .panicked :=
  ⟨_, .cons ⟨rfl, nofun, rfl⟩ (.cons rfl (.cons rfl (.cons ⟨rfl, fun _ => rfl, rfl⟩
    (.cons rfl (.cons rfl (.nil _)))))), rfl⟩

/-! ## The recursive mutex -/

/-- `_ps_rec_mutex_data_t`, with a spinlock that works. -/
structure RecMutex (τ : Type) where
  lockThread : Option τ
  lockTimes : ℕ
  spinlock : Bool

/-- `ps_init_rec_mutex`. -/
def psInitRecMutex : RecMutex τ := ⟨none, 0, false⟩

/-- The spinlock has been taken by `cur`. -/
def RecMutex.take (m : RecMutex τ) (cur : τ) : RecMutex τ :=
  ⟨some cur, (m.lockTimes + 1) % 2 ^ 64, true⟩

/-- `ps_lock_rec_mutex`; `none` while another thread has the mutex, and the loop goes on. -/
def psLockRecMutex (m : RecMutex τ) (cur : τ) : Option (RecMutex τ) :=
  if m.spinlock = false then some (m.take cur)
  else if m.lockThread ≠ some cur then none
  else some { m with lockTimes := (m.lockTimes + 1) % 2 ^ 64 }

/-- `ps_try_lock_rec_mutex`. -/
def psTryLockRecMutex (m : RecMutex τ) (cur : τ) : Bool × RecMutex τ :=
  if m.spinlock = false then (true, m.take cur)
  else if m.lockThread ≠ some cur then (false, m)
  else (true, m)

/-- `ps_unlock_rec_mutex`. -/
def psUnlockRecMutex (m : RecMutex τ) (cur : τ) : Except Fault (RecMutex τ) :=
  if m.lockThread ≠ some cur then
    .error (.panic "The unlocker does not match the mutex locker" [])
  else if m.lockTimes = 0 then .error (.panic "The recursive mutex is not locked" [])
  else if m.lockTimes - 1 = 0 then .ok ⟨none, 0, false⟩
  else .ok { m with lockTimes := m.lockTimes - 1 }

/-- A recursive mutex, and the successful acquisitions of each thread not yet matched by an
unlock. -/
structure RecState (τ : Type) where
  mutex : RecMutex τ
  depth : τ → ℕ

/-- The calls that return. -/
inductive RecCall (τ : Type)
  | lock (t : τ)
  | tryLock (t : τ)
  | unlock (t : τ)

/-- One call; a thread unlocks only what it acquired. -/
def RecStep (s : RecState τ) : RecCall τ → RecState τ → Prop
  | .lock t, s' => ∃ m, psLockRecMutex s.mutex t = some m ∧
      s' = ⟨m, update s.depth t (s.depth t + 1)⟩
  | .tryLock t, s' => ∃ r m, psTryLockRecMutex s.mutex t = (r, m) ∧
      s' = ⟨m, if r then update s.depth t (s.depth t + 1) else s.depth⟩
  | .unlock t, s' => s.depth t ≠ 0 ∧ ∃ m, psUnlockRecMutex s.mutex t = .ok m ∧
      s' = ⟨m, update s.depth t (s.depth t - 1)⟩

/-- What the fields should say: `lock_thread` is the thread with acquisitions left, `lock_times`
their number, and the mutex is free when there is none. -/
structure RecGood (s : RecState τ) : Prop where
  holder : ∀ t, s.depth t ≠ 0 ↔ s.mutex.lockThread = some t
  times : ∀ t, s.mutex.lockThread = some t → s.mutex.lockTimes = s.depth t
  unheld : s.mutex.lockThread = none → s.mutex.lockTimes = 0
  free : s.mutex.spinlock = false ↔ ∀ t, s.depth t = 0

/-- The condition on a call: the holder acquires the mutex again by `ps_lock_rec_mutex` only, and
not `2 ^ 64` times over. -/
def RecFits (s : RecState τ) : RecCall τ → Prop
  | .lock t => s.mutex.lockThread = some t → s.mutex.lockTimes + 1 < 2 ^ 64
  | .tryLock t => s.mutex.lockThread ≠ some t
  | .unlock _ => True

section RecMutex

variable {s s' : RecState τ} {t : τ} {c : RecCall τ}

omit [DecidableEq τ] in
theorem recGood_init : RecGood (⟨psInitRecMutex, fun _ => 0⟩ : RecState τ) where
  holder _ := iff_of_false (fun h => h rfl) nofun
  times _ h := nomatch h
  unheld _ := rfl
  free := iff_of_true rfl fun _ => rfl

section

variable (h : RecGood s) (hfree : s.mutex.spinlock = false)

include h hfree

omit [DecidableEq τ] in
/-- Nobody has a free mutex. -/
theorem RecGood.idle : (∀ u, s.depth u = 0) ∧ s.mutex.lockThread = none := by
  have hidle := h.free.mp hfree
  refine ⟨hidle, ?_⟩
  cases hl : s.mutex.lockThread with
  | none => rfl
  | some u => exact absurd (hidle u) ((h.holder u).mpr hl)

omit [DecidableEq τ] in
theorem RecGood.ne_holder (t : τ) : s.mutex.lockThread ≠ some t := by
  rw [(h.idle hfree).2]
  exact nofun

/-- Taking a free mutex. -/
theorem RecGood.take (t : τ) : RecGood ⟨s.mutex.take t, update s.depth t (s.depth t + 1)⟩ := by
  obtain ⟨hidle, hnone⟩ := h.idle hfree
  have hdepth : ∀ u, update s.depth t (s.depth t + 1) u = if u = t then 1 else 0 := by
    intro u
    rw [update_apply, hidle, hidle]
  refine ⟨fun u => ?_, fun u hu => ?_, nofun, iff_of_false nofun fun hall => ?_⟩
  · change update s.depth t (s.depth t + 1) u ≠ 0 ↔ some t = some u
    rw [hdepth]
    by_cases hut : u = t
    · simp [hut]
    · simp [hut, Ne.symm hut]
  · obtain rfl : t = u := Option.some.inj hu
    change (s.mutex.lockTimes + 1) % 2 ^ 64 = update s.depth t (s.depth t + 1) t
    rw [hdepth, h.unheld hnone, if_pos rfl]
    rfl
  · have := hall t
    change update s.depth t (s.depth t + 1) t = 0 at this
    rw [hdepth, if_pos rfl] at this
    cases this

end

/-- The holder's fields after its depth has changed to `n`, and `lock_times` to `k`. -/
theorem RecGood.again_iff (h : RecGood s) (hholder : s.mutex.lockThread = some t) {k n : ℕ}
    (hn : n ≠ 0) :
    RecGood ⟨{ s.mutex with lockTimes := k }, update s.depth t n⟩ ↔ k = n := by
  have hlocked : s.mutex.spinlock = true := by
    rw [← Bool.not_eq_false, h.free]
    exact fun hall => (h.holder t).mpr hholder (hall t)
  constructor
  · intro h'
    have := h'.times t hholder
    simpa using this
  · rintro rfl
    refine ⟨fun u => ?_, fun u hu => ?_, fun hnone => ?_, iff_of_false ?_ fun hall => ?_⟩
    · by_cases hut : u = t
      · simpa [hut, hn] using hholder
      · simpa [hut] using h.holder u
    · obtain rfl : t = u := Option.some.inj (hholder.symm.trans hu)
      simp
    · exact absurd (hholder.symm.trans hnone) nofun
    · simp [hlocked]
    · exact hn (by simpa using hall t)

/-- The unlock that matches the first acquisition frees the mutex. -/
theorem RecGood.release (h : RecGood s) (hholder : s.mutex.lockThread = some t) :
    RecGood ⟨⟨none, 0, false⟩, update s.depth t 0⟩ := by
  have hidle : ∀ u, update s.depth t 0 u = 0 := fun u => by
    by_cases hut : u = t
    · simp [hut]
    · rw [update_of_ne hut]
      by_contra hu
      exact hut (Option.some.inj (((h.holder u).mp hu).symm.trans hholder))
  exact ⟨fun u => iff_of_false (fun hu => hu (hidle u)) nofun, nofun, fun _ => rfl,
    iff_of_true rfl hidle⟩

/-- From a good state, a call leads to a good state exactly if it fits. -/
theorem RecGood.step_iff (h : RecGood s) (hs : RecStep s c s') : RecGood s' ↔ RecFits s c := by
  cases c with
  | lock t =>
    obtain ⟨m, hm, rfl⟩ := hs
    rw [psLockRecMutex] at hm
    split at hm
    · rename_i hfree
      cases hm
      exact iff_of_true (h.take hfree t) fun hl => absurd hl (h.ne_holder hfree t)
    · split at hm
      · cases hm
      · rename_i hholder
        cases hm
        have hholder := not_not.mp hholder
        rw [h.again_iff hholder (Nat.succ_ne_zero _), RecFits, h.times t hholder]
        constructor
        · intro heq _
          calc s.depth t + 1 = (s.depth t + 1) % 2 ^ 64 := heq.symm
            _ < 2 ^ 64 := Nat.mod_lt _ (by decide)
        · exact fun hlt => Nat.mod_eq_of_lt (hlt hholder)
  | tryLock t =>
    obtain ⟨r, m, hm, rfl⟩ := hs
    rw [psTryLockRecMutex] at hm
    split at hm
    · rename_i hfree
      cases hm
      exact iff_of_true (h.take hfree t) (h.ne_holder hfree t)
    · split at hm
      · rename_i hother
        cases hm
        exact iff_of_true h hother
      · rename_i hholder
        cases hm
        have hholder := not_not.mp hholder
        refine iff_of_false (fun h' => ?_) fun hne => hne hholder
        have htimes := (h.again_iff hholder (Nat.succ_ne_zero _)).mp h'
        rw [h.times t hholder] at htimes
        exact Nat.succ_ne_self _ htimes.symm
  | unlock t =>
    obtain ⟨hdepth, m, hm, rfl⟩ := hs
    have hholder := (h.holder t).mp hdepth
    have htimes := h.times t hholder
    refine iff_of_true ?_ trivial
    rw [psUnlockRecMutex, if_neg (not_not.mpr hholder), htimes, if_neg hdepth] at hm
    split at hm
    · rename_i hone
      cases hm
      rw [hone]
      exact h.release hholder
    · rename_i hmore
      cases hm
      exact (h.again_iff hholder hmore).mpr rfl

/-- **When the recursive mutex counts right.**  A run of calls passes through good states only
exactly if the holder never calls `ps_try_lock_rec_mutex` and never nests `2 ^ 64` deep. -/
theorem recMutex_good_iff {cs : List (RecCall τ)} {s : RecState τ} :
    Run (fun s c s' => RecStep s c s' ∧ RecGood s') ⟨psInitRecMutex, fun _ => 0⟩ cs s ↔
      Run (fun s c s' => RecStep s c s' ∧ RecFits s c) ⟨psInitRecMutex, fun _ => 0⟩ cs s :=
  Run.through_iff (I := fun _ => True) (fun _ _ _ _ _ => trivial)
    (fun _ _ _ _ hg hs => hg.step_iff hs) trivial recGood_init

end RecMutex

/-- Thread 1 locks the mutex, locks it again by `ps_try_lock_rec_mutex` and unlocks it once: the
mutex is free, thread 2 can lock it, and thread 1 still has an acquisition left. -/
theorem tryLock_by_holder : ∃ s : RecState ℕ,
    Run RecStep ⟨psInitRecMutex, fun _ => 0⟩ [.lock 1, .tryLock 1, .unlock 1, .lock 2] s ∧
    s.mutex.lockThread = some 2 ∧ s.depth 1 = 1 ∧ s.depth 2 = 1 :=
  ⟨_, .cons ⟨_, rfl, rfl⟩ (.cons ⟨_, _, rfl, rfl⟩ (.cons ⟨by decide, _, rfl, rfl⟩
    (.cons ⟨_, rfl, rfl⟩ (.nil _)))), rfl, rfl, rfl⟩

end Pbos.Ps
