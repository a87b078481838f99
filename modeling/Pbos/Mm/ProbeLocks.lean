import Pbos.Mm.Probe

/-!
# Mm/ProbeLocks — the mutexes a refused probe leaves behind

When a probe of a user buffer refuses a region, its guard unlocks that region and goes on to the one
before it.  The loop asks for the region before `vmr` each time, and never moves `vmr`: from the
second region on it comes back to the one before for ever.  When it is the check behind the walk
that fails, `vmr` is null by then and the guard unlocks nothing.

So a refusal is clean at the first region only, and `probe_conforms_iff` says so.  What was accepted
is unlocked by `mm_unlock_pages` as it should be.
-/

namespace Pbos.Mm

open Pbos.Hal Thread List

variable {env : ProbeEnv} {b : VRange} {required : UInt32} {e : ℕ} {L : List (ℕ × Vmr)}
  {last : Option (ℕ × Vmr)} {s : State MutexId Access}

/-! ## Refusals -/

/-- **The guard never ends if there is a region before the refused one.** -/
theorem restoreLoop_halts (j n : ℕ) (i : ℕ) (s : State MutexId Access) :
    Halts ((restoreLoop (some j) n (some i)).run s) := by
  induction n generalizing i s with
  | zero => exact halts_halt _ s
  | succ n ih => exact halts_bind_of_forall fun _ s' => ih j s'

/-- A refusal behind the first region. -/
theorem probeWalk_halts {l : ℕ × Vmr} (hall : ¬ AllPass required (some l) (upTo e L)) :
    Halts ((probeWalk required e L (some l)).run s) := by
  induction L generalizing l s with
  | nil => exact absurd trivial hall
  | cons v vs ih =>
    refine halts_bind_of_forall fun _ s' => ?_
    by_cases hpass : passes required (some l) v = true
    · rw [if_pos hpass]
      by_cases hv : v.1 = e
      · rw [upTo, if_pos hv] at hall
        exact absurd ⟨hpass, trivial⟩ hall
      · rw [if_neg hv]
        rw [upTo, if_neg hv] at hall
        exact ih fun h => hall ⟨hpass, h⟩
    · rw [if_neg hpass]
      have hrestore : Halts ((restore (some l.1) v.1).run s') :=
        restoreLoop_halts l.1 2 v.1 s'
      exact hrestore.bind

/-! ## Unlocking what was accepted -/

/-- Unlocking a mutex that is held behind others. -/
theorem unlockMutex_behind {m : MutexId} {K held : List MutexId} (hK : m ∉ K) :
    (unlockMutex m).run { s with held := K ++ m :: held } =
      (.ok (), { s with held := K ++ held }) := by
  rw [unlock_of_held (mem_append_right _ (mem_cons_self ..)), erase_append_right _ hK,
    erase_cons_head]

/-- **The walk of `mm_unlock_pages` over regions that passed unlocks them.**  `K` was locked
since. -/
theorem unlockWalk_of_allPass {K : List MutexId} (hnd : (L.map (·.1)).Nodup)
    (hK : ∀ v, MutexId.area v ∉ K) (hall : AllPass required last (upTo e L)) :
    (unlockWalk e L last).run
        { s with held := K ++ (((upTo e L).map fun v => .area v.1).reverse ++ s.held) } =
      (.ok ((upTo e L).getLast?.or last), { s with held := K ++ s.held }) := by
  induction L generalizing last with
  | nil => rfl
  | cons v vs ih =>
    have hlayout : (last.all fun l => vmrEnd l = v.1) = true := by
      have hpass : passes required last v = true := by
        rw [upTo] at hall
        split at hall <;> exact hall.1
      cases last with
      | none => rfl
      | some l => exact (Bool.and_eq_true_iff.mp hpass).1
    rw [unlockWalk, if_pos hlayout]
    by_cases hend : v.1 = e
    · rw [upTo, if_pos hend, if_pos hend]
      exact bind_of_ok (unlockMutex_behind (hK v.1))
    · rw [upTo, if_neg hend] at hall
      have hnot : MutexId.area v.1 ∉ K ++ ((upTo e vs).map fun w => MutexId.area w.1).reverse := by
        rw [mem_append, mem_reverse, mem_map]
        rintro (hmem | ⟨w, hw, hwv⟩)
        · exact hK v.1 hmem
        · refine (nodup_cons.mp hnd).1 (mem_map.mpr ⟨w, upTo_subset e vs hw, ?_⟩)
          exact MutexId.area.inj hwv
      rw [upTo, if_neg hend, if_neg hend, map_cons, reverse_cons, append_assoc,
        singleton_append, ← append_assoc, bind_of_ok (unlockMutex_behind hnot),
        append_assoc, ih (nodup_cons.mp hnd).2 hall.2]
      simp [List.getLast?_cons]

/-- **`mm_unlock_pages` unlocks what a probe of the same buffer locked.** -/
theorem mmUnlockPages_of_accepts (hvmr : MutexId.vmr ∉ s.held) (huser : isUserSpace b = true)
    (h : Accepts env b required) :
    (mmUnlockPages env b).run { s with held := areas env b ++ s.held } = (.ok .ok, s) := by
  obtain ⟨hside, ⟨hkernel, -⟩ | ⟨-, hall, l, hl, hlimit⟩⟩ := h
  · rw [hkernel] at huser
    cases huser
  have hareas : areas env b = ((range env.vmrTree b).map fun v => .area v.1).reverse := if_pos huser
  have hvmr' : MutexId.vmr ∉ areas env b ++ s.held := by
    rw [hareas]
    simp [hvmr]
  have hvmrs : (unlockVmrs env.vmrTree b).run { s with held := .vmr :: (areas env b ++ s.held) } =
      (.ok .ok, { s with held := .vmr :: s.held }) := by
    obtain ⟨initial, last, hinit, hlast, hrange⟩ : ∃ initial last,
      env.vmrTree.findMaxLteq b.vaddr = some initial ∧
      env.vmrTree.findMaxLteq (probeLimit b) = some last ∧
      range env.vmrTree b = upTo last.1 (regionsFrom env.vmrTree initial.1) := by
      rw [range] at hl ⊢
      cases hinit : env.vmrTree.findMaxLteq b.vaddr with
      | none =>
        rw [hinit] at hl
        cases hl
      | some initial =>
        cases hlast : env.vmrTree.findMaxLteq (probeLimit b) with
        | none =>
          rw [hinit, hlast] at hl
          cases hl
        | some last => exact ⟨initial, last, rfl, rfl, rfl⟩
    have hwalk := unlockWalk_of_allPass (s := s) (K := [.vmr])
      (nodup_regionsFrom env.vmrTree initial.1) (by simp) (hrange ▸ hall)
    rw [← hrange, ← hareas, hl] at hwalk
    rw [unlockVmrs, hinit, hlast]
    refine (bind_of_ok hwalk).trans ?_
    rw [Option.some_or, unlockEnd, if_neg (not_lt.mpr hlimit)]
    rfl
  rw [mmUnlockPages, if_neg hside.1, if_neg (not_not.mpr hside.2), if_neg (by simp [huser]),
    bind_of_ok (lock_of_free hvmr'), bind_of_ok hvmrs]
  rfl

/-! ## The contract -/

variable (env b required)

/-- **A probe returns; a refusal leaves the mutexes as they were, and a success leaves the regions
of the buffer locked, which `mm_unlock_pages` undoes.** -/
def ProbeConforms (s : State MutexId Access) : Prop :=
  ∃ r s', (mmProbeAndLockPages env b required).run s = (.ok r, s') ∧
    (r ≠ .ok → s' = s) ∧
    (r = .ok → s' = { s with held := areas env b ++ s.held } ∧
      (mmUnlockPages env b).run s' = (.ok .ok, s))

/-- The first region of the buffer is refused. -/
def RefusedFirst : Prop :=
  ∃ v, env.vmrTree.findMaxLteq b.vaddr = some v ∧ misses required v.2.access = true

/-- **The probes that conform.** -/
def ProbeFits : Prop :=
  ¬ OneSide b ∨ env.vmrTree.findMaxLteq b.vaddr = none ∨
    (env.vmrTree.findMaxLteq (probeLimit b) ≠ none ∧ RefusedFirst env b required) ∨
    Accepts env b required

variable {env b required}

/-- The part under the VMR mutex returns a refusal with the mutexes as they were. -/
theorem probeVmrs_of_refused (hfree : ∀ v ∈ env.vmrTree.entries, MutexId.area v.1 ∉ s.held)
    (h : env.vmrTree.findMaxLteq b.vaddr = none ∨
      (env.vmrTree.findMaxLteq (probeLimit b) ≠ none ∧ RefusedFirst env b required)) :
    ∃ r, r ≠ .ok ∧ (probeVmrs env.vmrTree b required).run s = (.ok r, s) := by
  rw [probeVmrs]
  obtain hnone | ⟨hlast, v, hinit, hbad⟩ := h
  · rw [hnone]
    exact ⟨.invalidArgs, by decide, rfl⟩
  · obtain ⟨last, hlast⟩ := Option.ne_none_iff_exists'.mp hlast
    have hmem : v ∈ env.vmrTree.entries := (env.vmrTree.findMaxLteq_eq_some_iff.mp hinit).1
    obtain ⟨vs, hvs⟩ := regionsFrom_eq_cons hmem
    rw [hinit, hlast]
    refine ⟨.accessViolation, by decide, ?_⟩
    simp only [hvs]
    have hmisses : (probeWalk required last.1 (v :: vs) none).run s = (.ok none, s) := by
      have hpass : passes required none v = false := by simp [passes, hbad]
      have hrestore : (restore none v.1).run { s with held := .area v.1 :: s.held } = (.ok (),
        s) := by
        have hunlock : (unlockMutex (.area v.1)).run { s with held := .area v.1 :: s.held } =
            (.ok (), s) := by
          rw [unlock_of_held (mem_cons_self ..), erase_cons_head]
        exact bind_of_ok hunlock
      rw [probeWalk, bind_of_ok (lock_of_free (hfree v hmem)), if_neg (by simp [hpass])]
      exact bind_of_ok hrestore
    exact bind_of_ok hmisses

/-- What a probe of a user buffer does behind the checks. -/
theorem run_underVmr (hside : OneSide b) (huser : isUserSpace b = true)
    (hvmr : MutexId.vmr ∉ s.held) :
    (mmProbeAndLockPages env b required).run s =
      (probeVmrs env.vmrTree b required >>= fun r => unlockMutex .vmr >>= fun _ => pure r).run
        { s with held := .vmr :: s.held } := by
  rw [mmProbeAndLockPages, if_neg hside.1, if_neg (not_not.mpr hside.2), if_neg (by simp [huser]),
    bind_of_ok (lock_of_free hvmr)]

/-- The first region is as it should be and a later one is not, or there is no last one. -/
theorem probeVmrs_halts (hinit : env.vmrTree.findMaxLteq b.vaddr ≠ none)
    (hfirst : env.vmrTree.findMaxLteq (probeLimit b) ≠ none → ¬ RefusedFirst env b required)
    (hfree : ∀ v ∈ env.vmrTree.entries, MutexId.area v.1 ∉ s.held)
    (hall : env.vmrTree.findMaxLteq (probeLimit b) ≠ none →
      ¬ AllPass required none (range env.vmrTree b)) :
    Halts ((probeVmrs env.vmrTree b required).run s) := by
  obtain ⟨v, hinit⟩ := Option.ne_none_iff_exists'.mp hinit
  rw [probeVmrs, hinit]
  cases hlast : env.vmrTree.findMaxLteq (probeLimit b) with
  | none => exact halts_halt _ s
  | some last =>
    have hmem : v ∈ env.vmrTree.entries := (env.vmrTree.findMaxLteq_eq_some_iff.mp hinit).1
    obtain ⟨vs, hvs⟩ := regionsFrom_eq_cons hmem
    have hpass : passes required none v = true := by
      by_contra hc
      exact hfirst (by simp [hlast]) ⟨v, hinit, by simpa [passes] using hc⟩
    have hrest := hall (by simp [hlast])
    rw [range, hinit, hlast] at hrest
    simp only [hvs, upTo] at hrest ⊢
    have hend : v.1 ≠ last.1 := fun h => hrest (by rw [if_pos h]; exact ⟨hpass, trivial⟩)
    rw [if_neg hend] at hrest
    refine Halts.bind ?_
    rw [probeWalk, bind_of_ok (lock_of_free (hfree v hmem)), if_pos hpass, if_neg hend]
    exact probeWalk_halts fun h => hrest ⟨hpass, h⟩

/-- **The check behind the walk fails: every region stays locked.** -/
theorem probe_of_short (hside : OneSide b) (huser : isUserSpace b = true)
    (hvmr : MutexId.vmr ∉ s.held)
    (hfree : ∀ v ∈ env.vmrTree.entries, MutexId.area v.1 ∉ s.held)
    (hall : AllPass required none (range env.vmrTree b)) {l : ℕ × Vmr}
    (hl : (range env.vmrTree b).getLast? = some l) (hshort : vmrEnd l < probeLimit b) :
    (mmProbeAndLockPages env b required).run s =
      (.ok .accessViolation, { s with held := areas env b ++ s.held }) := by
  have hareas : areas env b = ((range env.vmrTree b).map fun v => .area v.1).reverse := if_pos huser
  have hvmrs := probeVmrs_of_allPass (s := { s with held := .vmr :: s.held })
    (fun v hv => by simpa using hfree v (range_subset _ _ hv)) hall hl
  rw [if_pos hshort, ← hareas] at hvmrs
  have hnot : MutexId.vmr ∉ areas env b := by simp [hareas]
  rw [run_underVmr hside huser hvmr, bind_of_ok hvmrs, bind_of_ok (unlockMutex_behind hnot)]
  rfl

/-- **Which probes of a user buffer conform**, by a thread that holds none of the mutexes: those
that fail before a region is locked or at the first one, and those that succeed. -/
theorem probe_conforms_iff (env : ProbeEnv) (b : VRange) (required : UInt32)
    (s : State MutexId Access) (huser : isUserSpace b = true) (hvmr : MutexId.vmr ∉ s.held)
    (hfree : ∀ v ∈ env.vmrTree.entries, MutexId.area v.1 ∉ s.held) :
    ProbeConforms env b required s ↔ ProbeFits env b required := by
  have hfree' : ∀ v ∈ env.vmrTree.entries, MutexId.area v.1 ∉ MutexId.vmr :: s.held := by
    simpa using hfree
  constructor
  · rintro ⟨r, s', hrun, hbad, -⟩
    by_contra hfits
    simp only [ProbeFits, not_or, not_not, not_and] at hfits
    obtain ⟨hside, hinit, hfirst, hacc⟩ := hfits
    by_cases hall : env.vmrTree.findMaxLteq (probeLimit b) ≠ none ∧
        AllPass required none (range env.vmrTree b)
    · obtain ⟨hlast, hall⟩ := hall
      have hne : range env.vmrTree b ≠ [] := by
        obtain ⟨v, hinit⟩ := Option.ne_none_iff_exists'.mp hinit
        obtain ⟨last, hlast⟩ := Option.ne_none_iff_exists'.mp hlast
        obtain ⟨vs, hvs⟩ := regionsFrom_eq_cons (env.vmrTree.findMaxLteq_eq_some_iff.mp hinit).1
        rw [range, hinit, hlast]
        simp only [hvs, upTo]
        split <;> simp
      obtain ⟨l, hl⟩ := Option.isSome_iff_exists.mp (List.getLast?_isSome.mpr hne)
      have hshort : vmrEnd l < probeLimit b := by
        by_contra hle
        exact hacc ⟨hside, .inr ⟨huser, hall, l, hl, not_lt.mp hle⟩⟩
      rw [probe_of_short hside huser hvmr hfree hall hl hshort] at hrun
      obtain ⟨hr, rfl⟩ := Prod.mk.inj hrun
      cases hr
      have hheld := congrArg State.held (hbad (by simp))
      simp [areas, huser, hne] at hheld
    · rw [run_underVmr hside huser hvmr] at hrun
      have hhalts := probeVmrs_halts (s := { s with held := .vmr :: s.held }) hinit hfirst hfree'
        fun h h' => hall ⟨h, h'⟩
      exact hhalts.bind.ne_ok _ _ hrun
  · intro hfits
    by_cases hacc : Accepts env b required
    · have hfree'' : ∀ m ∈ areas env b, m ∉ s.held := by
        intro m hm
        rw [areas, if_pos huser, mem_reverse] at hm
        obtain ⟨v, hv, rfl⟩ := mem_map.mp hm
        exact hfree v (range_subset _ _ hv)
      exact ⟨.ok, _, probe_of_accepts hvmr hfree'' hacc, absurd rfl, fun _ =>
        ⟨rfl, mmUnlockPages_of_accepts hvmr huser hacc⟩⟩
    · by_cases hside : OneSide b
      · have hrefused := (hfits.resolve_left (not_not.mpr hside))
        rw [← or_assoc] at hrefused
        obtain ⟨r, hr, hvmrs⟩ := probeVmrs_of_refused (s := { s with held :=
          .vmr :: s.held }) hfree'
          (hrefused.resolve_right hacc)
        refine ⟨r, s, ?_, fun _ => rfl, fun h => absurd h hr⟩
        rw [run_underVmr hside huser hvmr, bind_of_ok hvmrs]
        rfl
      · refine ⟨.invalidArgs, s, ?_, fun _ => rfl, by simp⟩
        rw [mmProbeAndLockPages]
        split
        · rfl
        · rename_i hover
          rw [if_pos fun h => hside ⟨hover, h⟩]
          rfl

/-- A write to a region that may be written. -/
theorem probe_conforms_writable :
    ProbeConforms ⟨⟨[(0x1000, ⟨0, 0x1000, MM_PAGE_WRITE⟩)], by simp⟩, fun _ => none, 0⟩
      ⟨0x1000, 0x10⟩ MM_PAGE_WRITE .start := by
  refine (probe_conforms_iff _ _ _ _ (by decide) (by simp) (by simp)).mpr (.inr (.inr (.inr ?_)))
  exact ⟨⟨by unfold Overflows; decide, by decide⟩, .inr
    ⟨by decide, ⟨by decide, trivial⟩, _, rfl, by decide⟩⟩

/-- The second of two regions is read-only: a write to both never returns.  A region of half a page:
a probe of the page is refused, and the region stays locked. -/
theorem probe_leaves_locks : ((mmProbeAndLockPages ⟨⟨[(0x1000, ⟨0, 0x1000, MM_PAGE_WRITE⟩),
          (0x2000, ⟨0, 0x1000, MM_PAGE_READ⟩)], by simp⟩, fun _ => none, 0⟩
        ⟨0x1000, 0x2000⟩ MM_PAGE_WRITE).run .start).1 = .error .hang ∧
    (mmProbeAndLockPages ⟨⟨[(0x1000, ⟨0, 0x800, MM_PAGE_WRITE⟩)], by simp⟩, fun _ => none, 0⟩
        ⟨0x1000, 0x1000⟩ MM_PAGE_WRITE).run .start =
      (.ok .accessViolation, ⟨[.area 0x1000], [], [], []⟩) :=
  ⟨rfl, rfl⟩

end Pbos.Mm
