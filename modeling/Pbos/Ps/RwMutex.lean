import Pbos.Lib.Run

/-!
# Ps/RwMutex — readers and writers

A reader tests `is_writing` and then counts itself; a writer sets `is_writing` and then waits for
the count to be 0.  Each of these is one step, and a run is any interleaving of them.  Two writers
never meet: the second one panics at the exchange.  But a reader that has made its test and not yet
counted itself is seen by no writer, so a writer may get through before it goes on.
`rwMutex_exclusive_iff` says that this is the one way in which exclusion fails.
-/

namespace Pbos.Ps

open List

variable {τ : Type} [DecidableEq τ]

/-- Where a thread is in the code of the mutex: outside, at the test of `is_writing` or the
increment of `read_count` in `ps_read_lock_rw_mutex`, at the exchange or the test of `read_count` in
`ps_write_lock_rw_mutex`. -/
inductive RwPc
  | out | readTest | readInc | writeXchg | writeTest | panicked
  deriving DecidableEq, Repr

/-- The fields of the mutex and the places of the threads.  `readers` and `writers` list the threads
between a lock's return and the matching unlock, a thread once for each lock; `read_count` counts
such locks, of which there are fewer than `2 ^ 64`. -/
structure RwState (τ : Type) where
  isWriting : Bool
  readCount : ℕ
  pc : τ → RwPc
  readers : List τ
  writers : List τ

/-- `ps_init_rw_mutex`, before any call.  It does not set `is_writing`. -/
def RwState.init (isWriting : Bool) : RwState τ := ⟨isWriting, 0, fun _ => .out, [], []⟩

/-- Thread `t` goes to `c`. -/
def RwState.goto (s : RwState τ) (t : τ) (c : RwPc) : RwState τ :=
  { s with pc := Function.update s.pc t c }

/-- One atomic access of thread `t`. -/
def RwState.move (s : RwState τ) (t : τ) : RwState τ :=
  match s.pc t with
  | .out => s
  | .readTest =>
    -- `while (cmp_xchg(is_writing, 0, 0) != 0) ps_yield_cur_thread();`
    if s.isWriting then s else s.goto t .readInc
  | .readInc => { s with readCount := s.readCount + 1, readers := t :: s.readers }.goto t .out
  | .writeXchg =>
    { s with isWriting := true }.goto t (if s.isWriting then .panicked else .writeTest)
  | .writeTest =>
    -- `while (cmp_xchg(read_count, 0, 0) != 0) ps_yield_cur_thread();`
    if s.readCount ≠ 0 then s else { s with writers := t :: s.writers }.goto t .out
  | .panicked => s

/-- A thread calls a function or moves on in the one it is in.  The unlocks are one step each. -/
inductive RwEvent (τ : Type)
  | readLock (t : τ)
  | writeLock (t : τ)
  | readUnlock (t : τ)
  | writeUnlock (t : τ)
  | move (t : τ)

/-- One event; a thread unlocks what it has locked. -/
def RwStep (s : RwState τ) : RwEvent τ → RwState τ → Prop
  | .readLock t, s' => s.pc t = .out ∧ s' = s.goto t .readTest
  | .writeLock t, s' => s.pc t = .out ∧ s' = s.goto t .writeXchg
  | .readUnlock t, s' => s.pc t = .out ∧ t ∈ s.readers ∧
      s' = { s with readCount := s.readCount - 1, readers := s.readers.erase t }
  | .writeUnlock t, s' => s.pc t = .out ∧ t ∈ s.writers ∧
      s' = { s with isWriting := false, writers := s.writers.erase t }.goto t
        (if s.isWriting then .out else .panicked)
  | .move t, s' => s' = s.move t

/-- No other thread is a reader or a writer while one is a writer. -/
def RwExclusive (s : RwState τ) : Prop :=
  ∀ t ∈ s.writers, ∀ u, u ∈ s.readers ∨ u ∈ s.writers → u = t

/-- The condition on an event: no reader counts itself while a thread is a writer. -/
def RwFits (s : RwState τ) : RwEvent τ → Prop
  | .move t => s.pc t = .readInc → s.writers = []
  | _ => True

/-- What holds in every state.  A thread that waits for the readers, or is a writer, has set
`is_writing`; there is at most one. -/
structure RwInv (s : RwState τ) : Prop where
  count : s.readCount = s.readers.length
  flag : (∃ t, s.pc t = .writeTest) ∨ s.writers ≠ [] → s.isWriting = true
  waiting : ∀ t u, s.pc t = .writeTest → s.pc u = .writeTest → t = u
  alone : ∀ t, s.pc t = .writeTest → s.writers = []
  one : ∀ t ∈ s.writers, s.writers = [t] ∧ s.pc t ≠ .readInc

omit [DecidableEq τ] in
theorem rwInv_init (w : Bool) : RwInv (.init w : RwState τ) where
  count := rfl
  flag h := h.elim (fun ⟨_, ht⟩ => nomatch ht) fun hw => absurd rfl hw
  waiting _ _ h := nomatch h
  alone _ h := nomatch h
  one _ h := nomatch h

/-! ## What the steps keep -/

section Steps

variable {s s' : RwState τ} {t u : τ} {e : RwEvent τ} {c x : RwPc}

theorem pc_of_goto (hc : c ≠ x) (h : (s.goto t c).pc u = x) : u ≠ t ∧ s.pc u = x := by
  by_cases hut : u = t
  · exact absurd (by simpa [RwState.goto, hut] using h) hc
  · exact ⟨hut, by simpa [RwState.goto, hut] using h⟩

section

variable (h : RwInv s)

include h

theorem RwInv.goto (hc : c ≠ .writeTest) (hread : c = .readInc → s.isWriting = false) :
    RwInv (s.goto t c) where
  count := h.count
  flag hw := h.flag (hw.imp_left fun ⟨u, hu⟩ => ⟨u, (pc_of_goto hc hu).2⟩)
  waiting u v hu hv := h.waiting u v (pc_of_goto hc hu).2 (pc_of_goto hc hv).2
  alone u hu := h.alone u (pc_of_goto hc hu).2
  one u hu := by
    obtain ⟨hone, hpc⟩ := h.one u hu
    refine ⟨hone, fun hinc => ?_⟩
    by_cases hut : u = t
    · have hcinc : c = .readInc := by simpa [RwState.goto, hut] using hinc
      have hflag := h.flag (.inr (ne_nil_of_mem hu))
      rw [hread hcinc] at hflag
      cases hflag
    · exact hpc (by simpa [RwState.goto, hut] using hinc)

omit [DecidableEq τ] in
theorem RwInv.setReaders {n : ℕ} {l : List τ} (hn : n = l.length) :
    RwInv { s with readCount := n, readers := l } :=
  ⟨hn, h.flag, h.waiting, h.alone, h.one⟩

/-- The flag is down: no thread waits for the readers or writes. -/
theorem RwInv.setFlag (hflag : s.isWriting = false) :
    RwInv ({ s with isWriting := true }.goto t .writeTest) := by
  have hdown : ¬ ((∃ u, s.pc u = .writeTest) ∨ s.writers ≠ []) := fun hw => by
    rw [h.flag hw] at hflag
    cases hflag
  have hwriters : s.writers = [] := not_not.mp fun hw => hdown (.inr hw)
  have honly : ∀ u, (s.goto t .writeTest).pc u = .writeTest → u = t := fun u hu => by
    by_contra hut
    exact hdown (.inl ⟨u, by simpa [RwState.goto, hut] using hu⟩)
  refine ⟨h.count, fun _ => rfl, fun u v hu hv => (honly u hu).trans (honly v hv).symm,
    fun _ _ => hwriters, fun u hu => ?_⟩
  rw [hwriters] at hu
  cases hu

theorem RwInv.enter (hpc : s.pc t = .writeTest) :
    RwInv ({ s with writers := t :: s.writers }.goto t .out) := by
  have hwriters := h.alone t hpc
  have hnone : ∀ u, (s.goto t .out).pc u ≠ .writeTest := fun u hu => by
    obtain ⟨hut, hu⟩ := pc_of_goto (by decide) hu
    exact hut (h.waiting u t hu hpc)
  refine ⟨h.count, fun _ => h.flag (.inl ⟨t, hpc⟩), fun u _ hu => absurd hu (hnone u),
    fun u hu => absurd hu (hnone u), fun u hu => ?_⟩
  change u ∈ t :: s.writers at hu
  rw [hwriters, mem_singleton] at hu
  subst hu
  exact ⟨by rw [hwriters.symm]; rfl, by simp [RwState.goto]⟩

/-- A writer is the only one, so its unlock leaves none. -/
theorem RwInv.leave (ht : t ∈ s.writers) : s.writers.erase t = [] ∧
      RwInv ({ s with isWriting := false, writers := s.writers.erase t }.goto t .out) := by
  have hnone : s.writers.erase t = [] := by
    rw [(h.one t ht).1]
    exact erase_cons_head ..
  have hwait : ∀ u, s.pc u ≠ .writeTest := fun u hu => ne_nil_of_mem ht (h.alone u hu)
  refine ⟨hnone, ?_⟩
  rw [hnone]
  refine RwInv.goto ?_ nofun nofun
  exact ⟨h.count, fun hw => hw.elim (fun ⟨u, hu⟩ => absurd hu (hwait u)) fun hne => absurd rfl hne,
    h.waiting, fun u hu => absurd hu (hwait u), nofun⟩

/-- The writer that gets past its test has found no readers, and no other writer. -/
theorem RwInv.enter_exclusive (hpc : s.pc t = .writeTest) (hcount : s.readCount = 0) :
    RwExclusive ({ s with writers := t :: s.writers }.goto t .out) := by
  have hreaders : s.readers = [] := length_eq_zero_iff.mp (h.count.symm.trans hcount)
  intro w hw u hu
  change w ∈ t :: s.writers at hw
  change u ∈ s.readers ∨ u ∈ t :: s.writers at hu
  rw [h.alone t hpc, mem_singleton] at hw hu
  rw [hreaders] at hu
  exact (hu.resolve_left nofun).trans hw.symm

/-- A reader that counts itself is beside a writer exactly if there is one. -/
theorem RwInv.count_exclusive_iff (hpc : s.pc t = .readInc) (n : ℕ) :
    RwExclusive ({ s with readCount := n, readers := t :: s.readers }.goto t .out) ↔
      s.writers = [] := by
  constructor
  · intro hx
    by_contra hwriters
    obtain ⟨w, hw⟩ := exists_mem_of_ne_nil _ hwriters
    exact (h.one w hw).2 (hx w hw t (.inl mem_cons_self) ▸ hpc)
  · intro hnone w hw
    rw [hnone] at hw
    cases hw

theorem RwInv.move (t : τ) :
    RwInv (s.move t) ∧ (RwExclusive s → (RwExclusive (s.move t) ↔ RwFits s (.move t))) := by
  rw [RwState.move, RwFits]
  cases hpc : s.pc t with
  | out => exact ⟨h, fun hx => iff_of_true hx nofun⟩
  | panicked => exact ⟨h, fun hx => iff_of_true hx nofun⟩
  | readTest =>
    by_cases hflag : s.isWriting = true
    · simp only [if_pos hflag]
      exact ⟨h, fun hx => iff_of_true hx nofun⟩
    · simp only [if_neg hflag]
      exact ⟨h.goto nofun fun _ => Bool.not_eq_true _ ▸ hflag, fun hx => iff_of_true hx nofun⟩
  | writeXchg =>
    by_cases hflag : s.isWriting = true
    · simp only [if_pos hflag]
      have hsame : { s with isWriting := true } = s := by rw [← hflag]
      rw [hsame]
      exact ⟨h.goto nofun nofun, fun hx => iff_of_true hx nofun⟩
    · simp only [if_neg hflag]
      exact ⟨h.setFlag (Bool.not_eq_true _ ▸ hflag), fun hx => iff_of_true hx nofun⟩
  | writeTest =>
    by_cases hcount : s.readCount = 0
    · simp only [if_neg (not_not.mpr hcount)]
      exact ⟨h.enter hpc, fun _ => iff_of_true (h.enter_exclusive hpc hcount) nofun⟩
    · simp only [if_pos hcount]
      exact ⟨h, fun hx => iff_of_true hx nofun⟩
  | readInc =>
    refine ⟨(h.setReaders (by rw [h.count]; rfl)).goto nofun nofun, fun _ => ?_⟩
    exact (h.count_exclusive_iff hpc _).trans ⟨fun hnone _ => hnone, fun hfits => hfits rfl⟩

/-- **What a step does**: it keeps the invariant, and from an exclusive state it leads to an
exclusive one exactly if it fits. -/
theorem RwInv.step (hs : RwStep s e s') :
    RwInv s' ∧ (RwExclusive s → (RwExclusive s' ↔ RwFits s e)) := by
  cases e with
  | readLock t =>
    obtain ⟨-, rfl⟩ := hs
    exact ⟨h.goto nofun nofun, fun hx => iff_of_true hx trivial⟩
  | writeLock t =>
    obtain ⟨-, rfl⟩ := hs
    exact ⟨h.goto nofun nofun, fun hx => iff_of_true hx trivial⟩
  | readUnlock t =>
    obtain ⟨-, ht, rfl⟩ := hs
    refine ⟨h.setReaders ?_, fun hx => iff_of_true (fun w hw u hu => ?_) trivial⟩
    · rw [h.count, length_erase_of_mem ht]
    · exact hx w hw u (hu.imp_left mem_of_mem_erase)
  | writeUnlock t =>
    obtain ⟨-, ht, rfl⟩ := hs
    obtain ⟨hnone, hinv⟩ := h.leave ht
    rw [if_pos (h.flag (.inr (ne_nil_of_mem ht)))]
    refine ⟨hinv, fun _ => iff_of_true (fun w hw => ?_) trivial⟩
    rw [hnone] at hw
    cases hw
  | move t =>
    obtain rfl := hs
    exact h.move t

end

end Steps

/-- **When readers and writers exclude each other.**  A run from `ps_init_rw_mutex` passes through
exclusive states only exactly if no reader in it counts itself while a thread is a writer. -/
theorem rwMutex_exclusive_iff {isWriting : Bool} {es : List (RwEvent τ)} {s : RwState τ} :
    Run (fun s e s' => RwStep s e s' ∧ RwExclusive s') (.init isWriting) es s ↔
      Run (fun s e s' => RwStep s e s' ∧ RwFits s e) (.init isWriting) es s :=
  Run.through_iff (I := RwInv) (fun _ _ _ h hs => (h.step hs).1)
    (fun _ _ _ h hx hs => (h.step hs).2 hx) (rwInv_init isWriting) nofun

/-- Thread 1 tests the flag, thread 2 becomes a writer, and thread 1 becomes a reader. -/
theorem reader_beside_writer : ∃ s : RwState ℕ,
    Run RwStep (.init false) [.readLock 1, .move 1, .writeLock 2, .move 2, .move 2, .move 1] s ∧
    s.readers = [1] ∧ s.writers = [2] :=
  ⟨_, .cons ⟨rfl, rfl⟩ (.cons rfl (.cons ⟨rfl, rfl⟩ (.cons rfl (.cons rfl (.cons rfl (.nil _)))))),
    rfl, rfl⟩

end Pbos.Ps
