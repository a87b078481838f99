import Pbos.Lib.Thread
import Pbos.Mm.Mmap

/-!
# Mm/Probe — probing and locking user buffers

`mm_probe_and_lock_pages` looks at the regions a buffer lies in, from the one found at or below its
pointer to the one found at or below the end of its last page, and keeps the mutex of each locked.
`mm_unlock_pages` goes the same way and unlocks them.

`ps_lock_mutex` never waits: `arch_atomic_cmpxchg8` names the accumulator as the source operand of
its `cmpxchg`, so a lock word that is 0 stays 0, and every lock succeeds.  `ps_unlock_mutex` never
stops the thread that was the last to lock the mutex, also when it has been unlocked since.  So
`Lib/Thread` goes on in both cases and keeps a note.  The mutex of the tree is recursive and is
never locked twice here.

`range` lists the regions in question and `visited` those that are locked before one is refused.
The outcome of a probe follows from them: `probe_ok_iff` says when it succeeds, `probe_relocks` and
`probe_quiet` when it locks a mutex that is held.  What an accepted user buffer may rely on is
`Accepts.covers`.
-/

namespace Pbos.Mm

open Pbos.Hal Thread List

/-- The mutexes of a context: that of the tree, and one for each region, named by its start. -/
inductive MutexId
  | vmr
  | area (start : ℕ)
  deriving DecidableEq, Repr

/-- An access to memory through a pointer that a user program supplied. -/
structure Access where
  write : Bool
  addr : ℕ
  len : ℕ
  deriving DecidableEq, Repr

/-- What a system call computes. -/
abbrev Sys (β : Type) := Comp MutexId Fault Access β

/-- What the probes read: the regions of the process, what `mm_getmap` stores for a page, if
anything, and what the uninitialised `pg_access` holds. -/
structure ProbeEnv where
  vmrTree : OrdMap ℕ Vmr
  getmap : ℕ → Option UInt32
  pgAccess : UInt32

/-- `mutex.lock()`. -/
abbrev lockMutex (m : MutexId) : Sys Unit := lock m

/-- `mutex.unlock()`. -/
abbrev unlockMutex (m : MutexId) : Sys Unit := unlock m

/-! ## The functions -/

variable (env : ProbeEnv) (t : OrdMap ℕ Vmr) (b : VRange) (required : UInt32) {v l : ℕ × Vmr}
  {write : Bool}

/-- `limit`: the last byte of the pages that `size` takes, counted from the page of `ptr`. -/
def probeLimit : ℕ := (pgFloor b.vaddr + (pgCeil b.size + (2 ^ 64 - 1))) % 2 ^ 64

/-- A right that is required and not there. -/
def misses (access : UInt32) : Bool :=
  (hasFlag required MM_PAGE_READ && !hasFlag access MM_PAGE_READ) ||
  (hasFlag required MM_PAGE_WRITE && !hasFlag access MM_PAGE_WRITE) ||
  (hasFlag required MM_PAGE_EXEC && !hasFlag access MM_PAGE_EXEC)

/-- The loop over the pages of the kernel half.  `mm_getmap` leaves `pg_access` alone at a page that
is not mapped. -/
def probePages : ℕ → ℕ → UInt32 → KmResult
  | 0, _, _ => .ok
  | n + 1, page, pgAccess =>
    let pgAccess := (env.getmap page).getD pgAccess
    if !hasFlag pgAccess MM_PAGE_MAPPED ||
        (hasFlag required MM_PAGE_USER && !hasFlag pgAccess MM_PAGE_USER) ||
          misses required pgAccess
    then .accessViolation
    else probePages n (page + 4096) pgAccess

/-- `last_vmr->rb_value + last_vmr->size`. -/
def vmrEnd (v : ℕ × Vmr) : ℕ := (v.1 + v.2.size) % 2 ^ 64

/-- The two checks on a region of the walk. -/
def passes (last : Option (ℕ × Vmr)) (v : ℕ × Vmr) : Bool :=
  (match last with
    | none => true
    | some l => vmrEnd l = v.1) && !misses required v.2.access

/-- `while (i) { unlock(i); i = get_prev(vmr, initial_vmr); }`: `prev` is the region before `vmr`,
not before `i`. -/
def restoreLoop (prev : Option ℕ) : ℕ → Option ℕ → Sys Unit
  | 0, _ => halt .hang
  | _ + 1, none => pure ()
  | n + 1, some i => do
    unlockMutex (.area i)
    restoreLoop prev n prev

/-- `restore_guard`, with `vmr` at the region `i`.  From the second turn on nothing changes, so a
loop that has not ended by then never ends. -/
def restore (prev : Option ℕ) (i : ℕ) : Sys Unit := restoreLoop prev 2 (some i)

/-- The walk over the regions: `none` when one is refused, else the last one. -/
def probeWalk (last : ℕ) : List (ℕ × Vmr) → Option (ℕ × Vmr) → Sys (Option (Option (ℕ × Vmr)))
  | [], lastVmr => pure (some lastVmr)
  | v :: vs, lastVmr => do
    lockMutex (.area v.1)
    if passes required lastVmr v then
      if v.1 = last then pure (some (some v)) else probeWalk last vs (some v)
    else do
      restore (lastVmr.map (·.1)) v.1
      pure none

/-- The check behind the walk.  On the way out `vmr` is null, and the guard unlocks nothing. -/
def probeEnd : Option (Option (ℕ × Vmr)) → Sys KmResult
  | none => pure .accessViolation
  | some none => halt .nullDeref
  | some (some l) => pure (if vmrEnd l < probeLimit b then .accessViolation else .ok)

/-- The regions from `start` on. -/
def regionsFrom (start : ℕ) : List (ℕ × Vmr) :=
  t.entries.filter fun v => start ≤ v.1

/-- The part of `mm_probe_and_lock_pages` under the VMR mutex. -/
def probeVmrs : Sys KmResult :=
  match t.findMaxLteq b.vaddr with
  | none => pure .invalidArgs
  | some initial =>
    match t.findMaxLteq (probeLimit b) with
    | none => halt (.assertion "kernel/mm/misc.cc" 412)
    | some last => probeWalk required last.1 (regionsFrom t initial.1) none >>= probeEnd b

/-- `mm_probe_and_lock_pages(mm_context, ptr, size, required_access)`. -/
def mmProbeAndLockPages : Sys KmResult :=
  if Overflows b then pure .invalidArgs
  else if isUserSpace b ≠ mmIsUserSpace (probeLimit b) then pure .invalidArgs
  else if isUserSpace b = false then
    if hasFlag env.pgAccess MM_PAGE_USER then pure .accessViolation
    else pure (probePages env required (pgCeil b.size / 4096) (pgFloor b.vaddr) env.pgAccess)
  else do
    lockMutex .vmr
    let r ← probeVmrs env.vmrTree b required
    unlockMutex .vmr
    pure r

/-- The walk of `mm_unlock_pages`. -/
def unlockWalk (last : ℕ) : List (ℕ × Vmr) → Option (ℕ × Vmr) → Sys (Option (ℕ × Vmr))
  | [], lastVmr => pure lastVmr
  | v :: vs, lastVmr => do
    if lastVmr.all fun l => vmrEnd l = v.1 then
      unlockMutex (.area v.1)
      if v.1 = last then pure (some v) else unlockWalk last vs (some v)
    else halt (.panic "Unlocking pages with invalid area layout" [])

/-- The check behind the walk of `mm_unlock_pages`. -/
def unlockEnd : Option (ℕ × Vmr) → Sys KmResult
  | none => halt .nullDeref
  | some l =>
    if vmrEnd l < probeLimit b then halt (.panic "Unlocking pages with invalid area layout" [])
    else pure .ok

/-- The part of `mm_unlock_pages` under the VMR mutex. -/
def unlockVmrs : Sys KmResult :=
  match t.findMaxLteq b.vaddr with
  | none => pure .invalidArgs
  | some initial =>
    match t.findMaxLteq (probeLimit b) with
    | none => halt (.assertion "kernel/mm/misc.cc" 495)
    | some last => unlockWalk last.1 (regionsFrom t initial.1) none >>= unlockEnd b

/-- `mm_unlock_pages(mm_context, ptr, size)`. -/
def mmUnlockPages : Sys KmResult :=
  if Overflows b then pure .invalidArgs
  else if isUserSpace b ≠ mmIsUserSpace (probeLimit b) then pure .invalidArgs
  else if isUserSpace b = false then
    pure (if hasFlag env.pgAccess MM_PAGE_USER then .accessViolation else .ok)
  else do
    lockMutex .vmr
    let r ← unlockVmrs env.vmrTree b
    unlockMutex .vmr
    pure r

/-! ## The regions of a buffer -/

/-- Up to the region that starts at `last`, or to the end if it is not met. -/
def upTo (last : ℕ) : List (ℕ × Vmr) → List (ℕ × Vmr)
  | [] => []
  | v :: vs => if v.1 = last then [v] else v :: upTo last vs

/-- **The regions that a probe of a user buffer goes over.** -/
def range : List (ℕ × Vmr) :=
  match t.findMaxLteq b.vaddr, t.findMaxLteq (probeLimit b) with
  | some initial, some last => upTo last.1 (regionsFrom t initial.1)
  | _, _ => []

/-- **The regions that are locked**: each one up to the first that does not pass. -/
def visited : Option (ℕ × Vmr) → List (ℕ × Vmr) → List (ℕ × Vmr)
  | _, [] => []
  | last, v :: vs => v :: if passes required last v then visited (some v) vs else []

/-- Every region passes. -/
def AllPass : Option (ℕ × Vmr) → List (ℕ × Vmr) → Prop
  | _, [] => True
  | last, v :: vs => passes required last v = true ∧ AllPass (some v) vs

section Walk

variable {required : UInt32} {e : ℕ} {L : List (ℕ × Vmr)} {last : Option (ℕ × Vmr)}
  {s : State MutexId Access}

theorem upTo_subset (e : ℕ) (L : List (ℕ × Vmr)) : upTo e L ⊆ L := by
  induction L with
  | nil => exact List.Subset.refl _
  | cons v vs ih =>
    rw [upTo]
    split
    · exact cons_subset_cons v (nil_subset _)
    · exact cons_subset_cons v ih

theorem visited_subset (required : UInt32) (last : Option (ℕ × Vmr)) (L : List (ℕ × Vmr)) :
    visited required last L ⊆ L := by
  induction L generalizing last with
  | nil => exact List.Subset.refl _
  | cons v vs ih =>
    rw [visited]
    split
    · exact cons_subset_cons v (ih _)
    · exact cons_subset_cons v (nil_subset _)

/-- Once every region passes, all are visited. -/
theorem AllPass.visited_eq (h : AllPass required last L) : visited required last L = L := by
  induction L generalizing last with
  | nil => rfl
  | cons v vs ih => rw [visited, if_pos h.1, ih h.2]

theorem restoreLoop_silent (prev : Option ℕ) (n : ℕ) (i : Option ℕ) :
    Silent (restoreLoop prev n i) := by
  induction n generalizing i with
  | zero => exact silent_halt _
  | succ n ih =>
    cases i with
    | none => exact silent_pure _
    | some i => exact (silent_unlock _).bind fun _ => ih prev

/-- **The guard unlocks regions only.** -/
theorem restoreLoop_quiet (prev : Option ℕ) (n : ℕ) (i : Option ℕ) (s : State MutexId Access) :
    Quiet ((restoreLoop prev n i).run s) s fun _ held => held.count .vmr = s.held.count .vmr := by
  induction n generalizing i s with
  | zero => exact quiet_halt _ _ _
  | succ n ih =>
    cases i with
    | none => exact quiet_pure rfl
    | some i =>
      refine (quiet_unlock (.area i) s).bind fun _ s' hheld =>
        (ih prev s').mono fun _ held hc => ?_
      rw [hc, hheld]
      exact count_erase_of_ne (by simp) ..

/-- One turn of the walk behind the lock. -/
theorem probeTurn_silent {v : ℕ × Vmr} {vs : List (ℕ × Vmr)}
    (h : Silent (probeWalk required e vs (some v))) :
    Silent (if passes required last v then
        if v.1 = e then pure (some (some v)) else probeWalk required e vs (some v)
      else do
        restore (last.map (·.1)) v.1
        pure none) := by
  split
  · split
    · exact silent_pure _
    · exact h
  · exact (restoreLoop_silent _ _ _).bind fun _ => silent_pure _

theorem probeWalk_silent (required : UInt32) (e : ℕ) (L : List (ℕ × Vmr))
    (last : Option (ℕ × Vmr)) : Silent (probeWalk required e L last) := by
  induction L generalizing last with
  | nil => exact silent_pure _
  | cons v vs ih => exact (silent_lock _).bind fun _ => probeTurn_silent (ih _)

/-- **When a walk gets through**, whatever is held. -/
theorem probeWalk_eq_some_iff {x : Option (ℕ × Vmr)} :
    (∃ s', (probeWalk required e L last).run s = (.ok (some x), s')) ↔
      AllPass required last (upTo e L) ∧ (upTo e L).getLast?.or last = x := by
  induction L generalizing last s with
  | nil => simp [probeWalk, upTo, AllPass, pure_eq_ok_iff]
  | cons v vs ih =>
    obtain ⟨s₁, hlock⟩ : ∃ s₁, (lockMutex (.area v.1)).run s = (.ok (), s₁) := ⟨_, rfl⟩
    rw [probeWalk, bind_of_ok hlock, upTo]
    by_cases hp : passes required last v = true
    · rw [if_pos hp]
      by_cases hend : v.1 = e
      · rw [if_pos hend, if_pos hend, pure_eq_ok_iff]
        simp [AllPass, hp]
      · rw [if_neg hend, if_neg hend, ih, AllPass, List.getLast?_cons]
        cases (upTo e vs).getLast? <;> simp [hp]
    · rw [if_neg hp]
      refine iff_of_false ?_ fun h => hp ?_
      · rintro ⟨s', h⟩
        obtain ⟨_, _, -, h⟩ := bind_eq_ok h
        cases (Prod.mk.inj h).1
      · split at h <;> exact h.1.1

/-- **A walk that meets a region whose mutex is held locks it again.** -/
theorem probeWalk_relocks
    (hbusy : ∃ v ∈ visited required last (upTo e L), MutexId.area v.1 ∈ s.held) :
    ((probeWalk required e L last).run s).2.relocked ≠ [] := by
  induction L generalizing last s with
  | nil =>
    obtain ⟨v, hv, -⟩ := hbusy
    cases hv
  | cons v vs ih =>
    by_cases hv : MutexId.area v.1 ∈ s.held
    · rw [probeWalk, bind_of_ok (lock_of_held hv)]
      exact ne_nil_of_mem ((probeTurn_silent (probeWalk_silent ..)).1 _ mem_cons_self)
    · obtain ⟨w, hw, hheld⟩ := hbusy
      rw [probeWalk, bind_of_ok (lock_of_free hv)]
      have hne : w ≠ v := fun heq => hv (heq ▸ hheld)
      rw [upTo] at hw
      by_cases hend : v.1 = e
      · rw [if_pos hend, visited] at hw
        split at hw
        · exact absurd (mem_singleton.mp hw) hne
        · exact absurd (mem_singleton.mp hw) hne
      · rw [if_neg hend, visited] at hw
        by_cases hp : passes required last v = true
        · rw [if_pos hp] at hw ⊢
          rw [if_neg hend]
          exact ih ⟨w, (mem_cons.mp hw).resolve_left hne, mem_cons_of_mem _ hheld⟩
        · rw [if_neg hp] at hw
          exact absurd (mem_singleton.mp hw) hne

/-- Locking `v` leaves the mutexes of the regions behind it free. -/
theorem free_behind {vs W : List (ℕ × Vmr)} (hnd : ((v :: vs).map (·.1)).Nodup)
    (hW : W ⊆ vs) (hfree : ∀ w ∈ W, MutexId.area w.1 ∉ s.held) :
    ∀ w ∈ W, MutexId.area w.1 ∉ MutexId.area v.1 :: s.held := by
  intro w hw hmem
  rcases mem_cons.mp hmem with heq | hmem
  · rw [map_cons, nodup_cons] at hnd
    exact hnd.1 (MutexId.area.inj heq ▸ mem_map_of_mem (hW hw))
  · exact hfree w hw hmem

/-- **A walk over regions that all pass locks them.** -/
theorem probeWalk_of_allPass (hnd : (L.map (·.1)).Nodup)
    (hfree : ∀ v ∈ upTo e L, MutexId.area v.1 ∉ s.held) (hall : AllPass required last (upTo e L)) :
    (probeWalk required e L last).run s = (.ok (some ((upTo e L).getLast?.or last)),
      { s with held := ((upTo e L).map fun v => .area v.1).reverse ++ s.held }) := by
  induction L generalizing last s with
  | nil => rfl
  | cons v vs ih =>
    rw [upTo] at hfree hall ⊢
    rw [probeWalk]
    by_cases hend : v.1 = e
    · rw [if_pos hend] at hfree hall ⊢
      rw [bind_of_ok (lock_of_free (hfree v mem_cons_self)), if_pos hall.1, if_pos hend]
      rfl
    · rw [if_neg hend] at hfree hall ⊢
      rw [bind_of_ok (lock_of_free (hfree v mem_cons_self)), if_pos hall.1, if_neg hend,
        ih (nodup_cons.mp hnd).2 (free_behind hnd (upTo_subset e vs) fun w hw =>
          hfree w (mem_cons_of_mem _ hw)) hall.2]
      simp [List.getLast?_cons]

/-- **A walk that meets a region that does not pass ends there.** -/
theorem probeWalk_quiet (hnd : (L.map (·.1)).Nodup)
    (hfree : ∀ v ∈ visited required last (upTo e L), MutexId.area v.1 ∉ s.held)
    (hall : ¬ AllPass required last (upTo e L)) :
    Quiet ((probeWalk required e L last).run s) s fun r held =>
      r = none ∧ held.count .vmr = s.held.count .vmr := by
  induction L generalizing last s with
  | nil => exact absurd trivial hall
  | cons v vs ih =>
    have hcount : (MutexId.area v.1 :: s.held).count .vmr = s.held.count .vmr :=
      count_cons_of_ne (by simp)
    have hmem : v ∈ visited required last (upTo e (v :: vs)) := by
      rw [upTo]
      split <;> exact mem_cons_self
    refine (quiet_lock (hfree v hmem)).bind fun _ s' hheld => ?_
    rw [upTo] at hfree hall
    by_cases hp : passes required last v = true
    · rw [if_pos hp]
      by_cases hend : v.1 = e
      · rw [if_pos hend] at hall
        exact absurd ⟨hp, trivial⟩ hall
      · rw [if_neg hend] at hfree hall
        rw [visited, if_pos hp] at hfree
        rw [if_neg hend]
        refine (ih (nodup_cons.mp hnd).2 ?_ fun hrest => hall ⟨hp, hrest⟩).mono ?_
        · rw [hheld]
          exact free_behind hnd (fun w hw => upTo_subset e vs (visited_subset required _ _ hw))
            fun w hw => hfree w (mem_cons_of_mem _ hw)
        · rintro r held ⟨rfl, hc⟩
          exact ⟨rfl, by rw [hc, hheld, hcount]⟩
    · rw [if_neg hp]
      refine (restoreLoop_quiet (last.map (·.1)) 2 (some v.1) s').bind fun _ s'' hc => ?_
      exact quiet_pure ⟨rfl, by rw [hc, hheld, hcount]⟩

end Walk

/-! ## Outcomes of a probe -/

/-- The range does not wrap and lies on one side. -/
def OneSide : Prop :=
  ¬ Overflows b ∧ isUserSpace b = mmIsUserSpace (probeLimit b)

/-- **What a probe accepts.**  In the kernel half: pages that are mapped with the rights required.
In the user half: adjacent regions with those rights, that end not before the last byte. -/
def Accepts : Prop :=
  OneSide b ∧
    (isUserSpace b = false ∧ hasFlag env.pgAccess MM_PAGE_USER = false ∧
        probePages env required (pgCeil b.size / 4096) (pgFloor b.vaddr) env.pgAccess = .ok ∨
      isUserSpace b = true ∧ AllPass required none (range env.vmrTree b) ∧
        ∃ l, (range env.vmrTree b).getLast? = some l ∧ probeLimit b ≤ vmrEnd l)

/-- The mutexes of the regions of a user buffer. -/
def areas : List MutexId :=
  if isUserSpace b then ((range env.vmrTree b).map fun v => .area v.1).reverse else []

/-- **When a probe meets a mutex in `held`.** -/
def Meets (held : List MutexId) : Prop :=
  OneSide b ∧ isUserSpace b = true ∧
    ∃ v ∈ visited required none (range env.vmrTree b), MutexId.area v.1 ∈ held

section Probe

variable {env : ProbeEnv} {b : VRange} {required : UInt32} {s : State MutexId Access}

theorem nodup_regionsFrom (t : OrdMap ℕ Vmr) (start : ℕ) :
    ((regionsFrom t start).map (·.1)).Nodup := by
  have hlt : (regionsFrom t start).Pairwise fun a b => a.1 < b.1 := t.sorted.filter _
  exact pairwise_map.mpr (hlt.imp fun h => h.ne)

/-- Under the VMR mutex, with everything in place. -/
theorem probeVmrs_of_allPass (hfree : ∀ v ∈ range env.vmrTree b, MutexId.area v.1 ∉ s.held)
    (hall : AllPass required none (range env.vmrTree b))
    (hl : (range env.vmrTree b).getLast? = some l) :
    (probeVmrs env.vmrTree b required).run s =
      (.ok (if vmrEnd l < probeLimit b then .accessViolation else .ok),
        { s with held := ((range env.vmrTree b).map fun v => .area v.1).reverse ++ s.held }) := by
  rw [probeVmrs]
  rw [range] at hfree hall hl ⊢
  cases hi : env.vmrTree.findMaxLteq b.vaddr with
  | none => simp [hi] at hl
  | some initial =>
    cases he : env.vmrTree.findMaxLteq (probeLimit b) with
    | none => simp [he] at hl
    | some last =>
      simp only [hi, he] at hfree hall hl ⊢
      rw [bind_of_ok (probeWalk_of_allPass (nodup_regionsFrom _ _) hfree hall), hl]
      rfl

theorem probeEnd_silent (b : VRange) (r : Option (Option (ℕ × Vmr))) : Silent (probeEnd b r) := by
  rcases r with _ | _ | l
  · exact silent_pure _
  · exact silent_halt _
  · exact silent_pure _

theorem probeVmrs_silent (t : OrdMap ℕ Vmr) (b : VRange) (required : UInt32) :
    Silent (probeVmrs t b required) := by
  rw [probeVmrs]
  split
  · exact silent_pure _
  · split
    · exact silent_halt _
    · exact (probeWalk_silent ..).bind (probeEnd_silent b)

/-- **When the part under the VMR mutex succeeds**, whatever is held. -/
theorem probeVmrs_ok_iff {t : OrdMap ℕ Vmr} :
    (∃ s', (probeVmrs t b required).run s = (.ok .ok, s')) ↔
      AllPass required none (range t b) ∧
        ∃ l, (range t b).getLast? = some l ∧ probeLimit b ≤ vmrEnd l := by
  rw [probeVmrs, range]
  cases t.findMaxLteq b.vaddr with
  | none =>
    rw [pure_eq_ok_iff]
    exact iff_of_false (by simp) (by simp)
  | some initial =>
    cases t.findMaxLteq (probeLimit b) with
    | none =>
      exact iff_of_false (halt_ne_ok _ _) (by simp)
    | some last =>
      constructor
      · rintro ⟨s', h⟩
        obtain ⟨r, s₁, hwalk, hend⟩ := bind_eq_ok h
        rcases r with _ | _ | l
        · cases (Prod.mk.inj hend).1
        · cases (Prod.mk.inj hend).1
        · obtain ⟨hall, hl⟩ := probeWalk_eq_some_iff.mp ⟨s₁, hwalk⟩
          refine ⟨hall, l, (Option.or_none ..).symm.trans hl, Nat.le_of_not_lt fun hlt => ?_⟩
          rw [probeEnd, if_pos hlt] at hend
          cases (Prod.mk.inj hend).1
      · rintro ⟨hall, l, hl, hle⟩
        obtain ⟨s₁, hwalk⟩ := (probeWalk_eq_some_iff (s := s)).mpr
          ⟨hall, (Option.or_none ..).trans hl⟩
        refine ⟨s₁, (bind_of_ok hwalk).trans ?_⟩
        rw [probeEnd, if_neg (Nat.not_lt.mpr hle)]
        rfl

theorem probeVmrs_relocks
    (hbusy : ∃ v ∈ visited required none (range env.vmrTree b), MutexId.area v.1 ∈ s.held) :
    ((probeVmrs env.vmrTree b required).run s).2.relocked ≠ [] := by
  obtain ⟨v, hv, hheld⟩ := hbusy
  rw [probeVmrs]
  rw [range] at hv
  cases hi : env.vmrTree.findMaxLteq b.vaddr with
  | none => simp [hi, visited] at hv
  | some initial =>
    cases he : env.vmrTree.findMaxLteq (probeLimit b) with
    | none => simp [he, visited] at hv
    | some last =>
      simp only [hi, he] at hv ⊢
      exact relocked_bind (probeWalk_relocks ⟨v, hv, hheld⟩) fun r => (probeEnd_silent b r).1

theorem count_vmr_areas (L : List (ℕ × Vmr)) (held : List MutexId) :
    ((L.map fun v => MutexId.area v.1).reverse ++ held).count .vmr = held.count .vmr := by
  have hzero : (L.map fun v => MutexId.area v.1).reverse.count .vmr = 0 :=
    count_eq_zero.mpr (by simp)
  rw [count_append, hzero, Nat.zero_add]

theorem probeVmrs_quiet
    (hfree : ∀ v ∈ visited required none (range env.vmrTree b), MutexId.area v.1 ∉ s.held)
    (hbad : ¬ (AllPass required none (range env.vmrTree b) ∧
      ∃ l, (range env.vmrTree b).getLast? = some l ∧ probeLimit b ≤ vmrEnd l)) :
    Quiet ((probeVmrs env.vmrTree b required).run s) s fun r held =>
      r ≠ .ok ∧ held.count .vmr = s.held.count .vmr := by
  rw [probeVmrs]
  rw [range] at hfree hbad
  cases hi : env.vmrTree.findMaxLteq b.vaddr with
  | none => exact quiet_pure ⟨nofun, rfl⟩
  | some initial =>
    cases he : env.vmrTree.findMaxLteq (probeLimit b) with
    | none => exact quiet_halt _ _ _
    | some last =>
      simp only [hi, he] at hfree hbad ⊢
      by_cases hall : AllPass required none (upTo last.1 (regionsFrom env.vmrTree initial.1))
      · rw [hall.visited_eq] at hfree
        rw [bind_of_ok (probeWalk_of_allPass (nodup_regionsFrom _ _) hfree hall), Option.or_none]
        cases hl : (upTo last.1 (regionsFrom env.vmrTree initial.1)).getLast? with
        | none => exact ⟨rfl, fun _ h => by cases h⟩
        | some l =>
          have hlt : vmrEnd l < probeLimit b := Nat.lt_of_not_le fun hle => hbad ⟨hall, l, hl, hle⟩
          rw [probeEnd, if_pos hlt]
          exact quiet_of_ok rfl rfl ⟨nofun, count_vmr_areas _ _⟩
      · refine (probeWalk_quiet (nodup_regionsFrom _ _) hfree hall).bind ?_
        rintro r s' ⟨rfl, hcount⟩
        exact quiet_pure ⟨nofun, hcount⟩

/-- **When a probe succeeds**, whatever is held. -/
theorem probe_ok_iff :
    (∃ s', (mmProbeAndLockPages env b required).run s = (.ok .ok, s')) ↔
      Accepts env b required := by
  rw [mmProbeAndLockPages, Accepts, OneSide]
  by_cases hover : Overflows b
  · rw [if_pos hover, pure_eq_ok_iff]
    exact iff_of_false (by simp) fun h => h.1.1 hover
  rw [if_neg hover]
  by_cases hside : isUserSpace b = mmIsUserSpace (probeLimit b)
  swap
  · rw [if_pos hside, pure_eq_ok_iff]
    exact iff_of_false (by simp) fun h => hside h.1.2
  rw [if_neg (not_not.mpr hside), and_iff_right ⟨hover, hside⟩]
  cases isUserSpace b with
  | false =>
    cases hasFlag env.pgAccess MM_PAGE_USER with
    | true => simp [pure_eq_ok_iff]
    | false => simp [pure_eq_ok_iff]
  | true =>
    obtain ⟨s₁, hlock⟩ : ∃ s₁, (lockMutex .vmr).run s = (.ok (), s₁) := ⟨_, rfl⟩
    rw [if_neg (by simp), bind_of_ok hlock]
    simp only [Bool.true_eq_false, false_and, true_and, false_or]
    rw [← probeVmrs_ok_iff (s := s₁)]
    constructor
    · rintro ⟨s', h⟩
      obtain ⟨r, s₂, hvmrs, h⟩ := bind_eq_ok h
      obtain ⟨_, s₃, -, h⟩ := bind_eq_ok h
      cases (Prod.mk.inj h).1
      exact ⟨s₂, hvmrs⟩
    · rintro ⟨s₂, hvmrs⟩
      exact ⟨_, bind_of_ok hvmrs⟩

theorem probe_silent (env : ProbeEnv) (b : VRange) (required : UInt32) :
    Silent (mmProbeAndLockPages env b required) := by
  rw [mmProbeAndLockPages]
  split
  · exact silent_pure _
  split
  · exact silent_pure _
  split
  · split <;> exact silent_pure _
  · exact (silent_lock _).bind fun _ => (probeVmrs_silent ..).bind fun r =>
      (silent_unlock _).bind fun _ => silent_pure r

section

variable (hvmr : MutexId.vmr ∉ s.held)

include hvmr

/-- **A probe that is accepted locks the regions of the buffer.** -/
theorem probe_of_accepts (hfree : ∀ m ∈ areas env b, m ∉ s.held) (h : Accepts env b required) :
    (mmProbeAndLockPages env b required).run s =
      (.ok .ok, { s with held := areas env b ++ s.held }) := by
  obtain ⟨⟨hover, hside⟩, hcase⟩ := h
  rw [mmProbeAndLockPages, if_neg hover, if_neg (not_not.mpr hside)]
  rcases hcase with ⟨hkernel, hacc, hpages⟩ | ⟨huser, hall, l, hl, hle⟩
  · rw [hacc, hpages, areas, hkernel]
    rfl
  · have hareas : areas env b = ((range env.vmrTree b).map fun v => .area v.1).reverse := by
      rw [areas, if_pos huser]
    have hnot : MutexId.vmr ∉ areas env b := by simp [hareas]
    rw [if_neg (by rw [huser]; nofun), bind_of_ok (lock_of_free hvmr),
      bind_of_ok (probeVmrs_of_allPass ?_ hall hl), if_neg (Nat.not_lt.mpr hle), ← hareas,
      bind_of_ok (unlock_of_held (by simp)), erase_append_right _ hnot]
    · rfl
    · intro v hv hmem
      refine hfree (.area v.1) ?_ ((mem_cons.mp hmem).resolve_left nofun)
      rw [hareas, mem_reverse]
      exact mem_map_of_mem hv

theorem probe_of_accepts_quiet (hfree : ∀ m ∈ areas env b, m ∉ s.held)
    (h : Accepts env b required) :
    Quiet ((mmProbeAndLockPages env b required).run s) s fun r held =>
      r = .ok ∧ held = areas env b ++ s.held :=
  quiet_of_ok (probe_of_accepts hvmr hfree h) rfl ⟨rfl, rfl⟩

/-- **A probe that meets a mutex the thread holds locks it again.** -/
theorem probe_relocks (h : Meets env b required s.held) :
    ((mmProbeAndLockPages env b required).run s).2.relocked ≠ [] := by
  obtain ⟨⟨hover, hside⟩, huser, v, hv, hheld⟩ := h
  rw [mmProbeAndLockPages, if_neg hover, if_neg (not_not.mpr hside), if_neg (by simp [huser]),
    bind_of_ok (lock_of_free hvmr)]
  exact relocked_bind (probeVmrs_relocks ⟨v, hv, mem_cons_of_mem _ hheld⟩) fun r =>
    ((silent_unlock _).bind fun _ => silent_pure r).1

/-- A part that leaves the VMR mutex as it is, between the locking and the unlocking of it. -/
theorem quiet_underVmr {m : Sys KmResult} {P : KmResult → Prop}
    (h : ∀ s' : State MutexId Access, s'.held = .vmr :: s.held →
      Quiet (m.run s') s' fun r held => P r ∧ held.count .vmr = s'.held.count .vmr) :
    Quiet ((do lockMutex .vmr; let r ← m; unlockMutex .vmr; pure r : Sys KmResult).run s) s
      fun r held => P r ∧ MutexId.vmr ∉ held := by
  refine (quiet_lock hvmr).bind fun _ s' hs' => (h s' hs').bind fun r s₂ hr => ?_
  refine (quiet_unlock MutexId.vmr s₂).bind fun _ s₃ hheld => quiet_pure ⟨hr.1, ?_⟩
  rw [hheld, ← count_eq_zero, count_erase_self, hr.2, hs', count_cons_self,
    count_eq_zero.mpr hvmr]

/-- **Any other probe is refused, or ends in a fault.** -/
theorem probe_quiet (hacc : ¬ Accepts env b required) (hmeets : ¬ Meets env b required s.held) :
    Quiet ((mmProbeAndLockPages env b required).run s) s fun r held =>
      r ≠ .ok ∧ MutexId.vmr ∉ held := by
  rw [mmProbeAndLockPages]
  by_cases hover : Overflows b
  · rw [if_pos hover]
    exact quiet_pure ⟨nofun, hvmr⟩
  rw [if_neg hover]
  by_cases hside : isUserSpace b = mmIsUserSpace (probeLimit b)
  swap
  · rw [if_pos hside]
    exact quiet_pure ⟨nofun, hvmr⟩
  rw [if_neg (not_not.mpr hside)]
  have hone : OneSide b := ⟨hover, hside⟩
  cases hu : isUserSpace b with
  | false =>
    cases hf : hasFlag env.pgAccess MM_PAGE_USER with
    | true => exact quiet_pure ⟨nofun, hvmr⟩
    | false => exact quiet_pure ⟨fun hok => hacc ⟨hone, .inl ⟨hu, hf, hok⟩⟩, hvmr⟩
  | true =>
    refine quiet_underVmr hvmr fun s' hs' =>
      probeVmrs_quiet ?_ fun hok => hacc ⟨hone, .inr ⟨hu, hok⟩⟩
    intro v hv hmem
    rw [hs'] at hmem
    exact hmeets ⟨hone, hu, v, hv, (mem_cons.mp hmem).resolve_left nofun⟩

end

/-! ## Unlocking -/

theorem unlockWalk_silent (e : ℕ) (L : List (ℕ × Vmr)) (last : Option (ℕ × Vmr)) :
    Silent (unlockWalk e L last) := by
  induction L generalizing last with
  | nil => exact silent_pure _
  | cons v vs ih =>
    rw [unlockWalk]
    split
    · refine (silent_unlock _).bind fun _ => ?_
      split
      · exact silent_pure _
      · exact ih _
    · exact silent_halt _

theorem unlockVmrs_silent (t : OrdMap ℕ Vmr) (b : VRange) : Silent (unlockVmrs t b) := by
  rw [unlockVmrs]
  split
  · exact silent_pure _
  split
  · exact silent_halt _
  refine (unlockWalk_silent ..).bind fun l => ?_
  cases l with
  | none => exact silent_halt _
  | some l =>
    rw [unlockEnd]
    split
    · exact silent_halt _
    · exact silent_pure _

theorem mmUnlockPages_silent (env : ProbeEnv) (b : VRange) : Silent (mmUnlockPages env b) := by
  rw [mmUnlockPages]
  split
  · exact silent_pure _
  split
  · exact silent_pure _
  split
  · exact silent_pure _
  · exact (silent_lock _).bind fun _ => (unlockVmrs_silent ..).bind fun r =>
      (silent_unlock _).bind fun _ => silent_pure r

theorem unlockWalk_quiet (e : ℕ) (L : List (ℕ × Vmr)) (last : Option (ℕ × Vmr))
    (s : State MutexId Access) :
    Quiet ((unlockWalk e L last).run s) s fun _ held => held.count .vmr = s.held.count .vmr := by
  induction L generalizing last s with
  | nil => exact quiet_pure rfl
  | cons v vs ih =>
    rw [unlockWalk]
    split
    · refine (quiet_unlock (.area v.1) s).bind fun _ s' hheld => ?_
      have hcount : s'.held.count .vmr = s.held.count .vmr := by
        rw [hheld]
        exact count_erase_of_ne (by simp) ..
      split
      · exact quiet_pure hcount
      · exact (ih (some v) s').mono fun _ held hc => hc.trans hcount
    · exact quiet_halt _ _ _

theorem unlockVmrs_quiet (t : OrdMap ℕ Vmr) (b : VRange) (s : State MutexId Access) :
    Quiet ((unlockVmrs t b).run s) s fun _ held => held.count .vmr = s.held.count .vmr := by
  rw [unlockVmrs]
  cases t.findMaxLteq b.vaddr with
  | none => exact quiet_pure rfl
  | some initial =>
    cases t.findMaxLteq (probeLimit b) with
    | none => exact quiet_halt _ _ _
    | some last =>
      refine (unlockWalk_quiet last.1 _ none s).bind fun l s' hcount => ?_
      cases l with
      | none => exact quiet_halt _ _ _
      | some l =>
        rw [unlockEnd]
        split
        · exact quiet_halt _ _ _
        · exact quiet_pure hcount

/-- **`mm_unlock_pages` leaves the VMR mutex free.** -/
theorem mmUnlockPages_quiet (hvmr : MutexId.vmr ∉ s.held) :
    Quiet ((mmUnlockPages env b).run s) s fun _ held => MutexId.vmr ∉ held := by
  rw [mmUnlockPages]
  by_cases hover : Overflows b
  · rw [if_pos hover]
    exact quiet_pure hvmr
  rw [if_neg hover]
  by_cases hside : isUserSpace b = mmIsUserSpace (probeLimit b)
  swap
  · rw [if_pos hside]
    exact quiet_pure hvmr
  rw [if_neg (not_not.mpr hside)]
  by_cases hu : isUserSpace b = false
  · rw [if_pos hu]
    exact quiet_pure hvmr
  · rw [if_neg hu]
    refine (quiet_underVmr (P := fun _ => True) hvmr fun s' _ => ?_).mono fun _ _ h => h.2
    exact (unlockVmrs_quiet _ _ s').mono fun _ _ hc => ⟨trivial, hc⟩

end Probe

/-! ## What a probe covers -/

/-- The right an access needs. -/
def right (write : Bool) : UInt32 := if write then MM_PAGE_WRITE else MM_PAGE_READ

/-- **The byte is in user space, in a region that grants the access.** -/
def Granted (write : Bool) (x : ℕ) : Prop :=
  mmIsUserSpace x = true ∧
    ∃ v ∈ t.entries, v.1 ≤ x ∧ x < v.1 + v.2.size ∧ hasFlag v.2.access (right write) = true

section Cover

variable {env : ProbeEnv} {b : VRange} {required : UInt32} {t : OrdMap ℕ Vmr} {x : ℕ}

/-- Regions that are adjacent leave no gap. -/
theorem AllPass.covers {last : Option (ℕ × Vmr)} {L : List (ℕ × Vmr)} (h : AllPass required last L)
    (hstart : ∃ v ∈ L, v.1 ≤ x) (hl : L.getLast? = some l)
    (hx : x < vmrEnd l) :
    ∃ v ∈ L, v.1 ≤ x ∧ x < v.1 + v.2.size ∧ misses required v.2.access = false := by
  induction L generalizing last with
  | nil => cases hl
  | cons v vs ih =>
    obtain ⟨hv, hvs⟩ := h
    have hright : misses required v.2.access = false :=
      Bool.not_eq_true' _ ▸ ((Bool.and_eq_true ..).mp hv).2
    by_cases hin : v.1 ≤ x ∧ x < v.1 + v.2.size
    · exact ⟨v, mem_cons_self, hin.1, hin.2, hright⟩
    cases vs with
    | nil =>
      obtain rfl : v = l := Option.some.inj hl
      obtain ⟨w, hw, hle⟩ := hstart
      obtain rfl := mem_singleton.mp hw
      exact absurd ⟨hle, hx.trans_le (Nat.mod_le _ _)⟩ hin
    | cons w ws =>
      have hnext : vmrEnd v = w.1 := of_decide_eq_true ((Bool.and_eq_true ..).mp hvs.1).1
      have hstart' : ∃ u ∈ w :: ws, u.1 ≤ x := by
        obtain ⟨u, hu, hle⟩ := hstart
        rcases mem_cons.mp hu with rfl | hu
        · have hend : u.1 + u.2.size ≤ x := Nat.le_of_not_lt fun hlt => hin ⟨hle, hlt⟩
          exact ⟨w, mem_cons_self, hnext ▸ (Nat.mod_le _ _).trans hend⟩
        · exact ⟨u, hu, hle⟩
      obtain ⟨u, hu, hcov⟩ := ih hvs hstart' (by rwa [List.getLast?_cons_cons] at hl)
      exact ⟨u, mem_cons_of_mem _ hu, hcov⟩

/-- The first of the regions from one on. -/
theorem regionsFrom_eq_cons (hv : v ∈ t.entries) :
    ∃ vs, regionsFrom t v.1 = v :: vs := by
  obtain ⟨before, behind, heq⟩ := append_of_mem hv
  have hsorted := t.sorted
  rw [heq, pairwise_append] at hsorted
  have hnone : before.filter (fun w => v.1 ≤ w.1) = [] := filter_eq_nil_iff.mpr fun w hw => by
      have hlt := hsorted.2.2 w hw v mem_cons_self
      simpa using hlt
  refine ⟨behind.filter fun w => v.1 ≤ w.1, ?_⟩
  rw [regionsFrom, heq, filter_append, hnone, nil_append, filter_cons_of_pos (by simp)]

theorem range_subset (t : OrdMap ℕ Vmr) (b : VRange) : range t b ⊆ t.entries := by
  intro v hv
  rw [range] at hv
  split at hv
  · exact mem_of_mem_filter (upTo_subset _ _ hv)
  · cases hv

/-- The regions of a buffer begin at or below it. -/
theorem exists_range_le (hl : (range t b).getLast? = some l) :
    ∃ v ∈ range t b, v.1 ≤ b.vaddr := by
  rw [range] at hl ⊢
  split at hl
  · next initial last hi he =>
    obtain ⟨hmem, hle, -⟩ := t.findMaxLteq_eq_some_iff.mp hi
    obtain ⟨vs, hvs⟩ := regionsFrom_eq_cons hmem
    refine ⟨initial, ?_, hle⟩
    rw [hvs, upTo]
    split <;> exact mem_cons_self
  · cases hl

/-- **An accepted user buffer is covered up to the limit**, but for the byte at the limit itself. -/
theorem Accepts.covers (h : Accepts env b required) (huser : isUserSpace b = true)
    (hreq : hasFlag required (right write) = true) (hle : b.vaddr ≤ x) (hlt : x < probeLimit b) :
    Granted env.vmrTree write x := by
  obtain ⟨⟨-, hside⟩, ⟨hkernel, -⟩ | ⟨-, hall, l, hl, hend⟩⟩ := h
  · exact absurd (huser.symm.trans hkernel) nofun
  have hlimit : mmIsUserSpace (probeLimit b) = true := hside ▸ huser
  obtain ⟨v, hv, hvle⟩ := exists_range_le hl
  obtain ⟨w, hw, hwle, hwlt, hright⟩ := hall.covers ⟨v, hv, hvle.trans hle⟩ hl (hlt.trans_le hend)
  have hmisses : hasFlag w.2.access (right write) = true := by
    cases write <;> simp_all [misses, right]
  refine ⟨?_, w, range_subset _ _ hw, hwle, hwlt, hmisses⟩
  simp only [mmIsUserSpace, decide_eq_true_eq] at hlimit ⊢
  exact hlt.trans hlimit

end Cover

end Pbos.Mm
