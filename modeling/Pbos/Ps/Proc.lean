import Pbos.Km.Panic
import Pbos.Lib.OrdMap
import Pbos.Lib.Run

/-!
# Ps/Proc — the process set and its PIDs

`ps_create_proc` gives a process block the first PID from `ki_min_free_pid` on that is not taken;
`ki_destroy_proc` takes a block out of the set.  The two hints are kept by both: everything below
`ki_min_free_pid` is live, and `ki_cur_max_pid` is the greatest live PID (`Sound`).  So the second
loop of `ps_create_proc` never finds anything, and the PID given is the least free one
(`pids_of_run`).
-/

namespace Pbos.Ps

open Function OrdMap

/-- `PS_PROC_ID_MAX`. -/
def psProcIdMax : ℕ := 2 ^ 32 - 1

/-- The process set with its hints; `rbValue` is the field of each process block. -/
structure Procs where
  procSet : OrdMap ℕ ℕ
  minFreePid : ℕ
  curMaxPid : ℕ
  rbValue : ℕ → ℕ

/-! ## The calls -/

/-- `for (i = from; i != to; ++i) if (!ps_global_proc_set.find(i)) …; break;`, with `n` turns to go:
the PID the loop stops at. -/
def freePid (m : OrdMap ℕ ℕ) : ℕ → ℕ → Option ℕ
  | _, 0 => none
  | i, n + 1 => if m.find i = none then some i else freePid m (i + 1) n

variable (s : Procs) (pcb : ℕ) {m : OrdMap ℕ ℕ} {c pid : ℕ}

/-- The body of either loop at a free PID. -/
def Procs.take (i : ℕ) : Procs :=
  { s with
    curMaxPid := if i ≥ s.curMaxPid then i else s.curMaxPid
    minFreePid := i + 1
    rbValue := update s.rbValue pcb i }

/-- `ps_global_proc_set.insert(pcb)`: refused when the PID is taken. -/
def Procs.insert : Option Procs :=
  if s.procSet.find (s.rbValue pcb) = none then
    some { s with procSet := s.procSet.insert (s.rbValue pcb) pcb }
  else none

/-- The insertion at the end of `ps_create_proc`. -/
def Procs.register : Except Fault (KmResult × Procs) :=
  match s.insert pcb with
  | some s' => .ok (.ok, s')
  | none => .error (.panic "Error adding new PCB with PID=%u" [s.rbValue pcb])

/-- `ps_create_proc(pcb, parent)`. -/
def psCreateProc : Except Fault (KmResult × Procs) :=
  match freePid s.procSet s.minFreePid (psProcIdMax - s.minFreePid) with
  | some i => (s.take pcb i).register pcb
  | none =>
    match freePid s.procSet 0 s.minFreePid with
    | some i => (s.take pcb i).register pcb
    | none => .ok (.noSlot, { s with rbValue := update s.rbValue pcb psProcIdMax })

/-- The process set's part of `ki_destroy_proc(pcb)`.  The block removed is the one found under the
PID of `pcb`. -/
def kiDestroyProc : Procs :=
  let pid := s.rbValue pcb
  match s.procSet.find pid with
  | none => s
  | some _ =>
    let procSet := s.procSet.erase pid
    { s with
      procSet := procSet
      minFreePid := if pid < s.minFreePid then pid else s.minFreePid
      curMaxPid :=
        if pid = s.curMaxPid then
          match procSet.findMaxLteq s.curMaxPid with
          | none => 0
          | some e => e.1
        else s.curMaxPid }

/-! ## The search for a PID -/

section Search

variable {m : OrdMap ℕ ℕ} {i j n : ℕ}

theorem freePid_eq_some (h : freePid m i n = some j) :
    i ≤ j ∧ j < i + n ∧ m.find j = none ∧ ∀ k, i ≤ k → k < j → m.find k ≠ none := by
  induction n generalizing i with
  | zero => cases h
  | succ n ih =>
    rw [freePid] at h
    split at h
    · cases h
      exact ⟨Nat.le_refl _, by omega, ‹_›, fun k _ _ => by omega⟩
    · obtain ⟨hij, hjn, hfree, hbelow⟩ := ih h
      refine ⟨by omega, by omega, hfree, fun k hik hkj => ?_⟩
      rcases Nat.eq_or_lt_of_le hik with rfl | hik
      · assumption
      · exact hbelow k hik hkj

theorem freePid_eq_none (h : freePid m i n = none) : ∀ k, i ≤ k → k < i + n → m.find k ≠ none := by
  induction n generalizing i with
  | zero => exact fun k _ _ => by omega
  | succ n ih =>
    rw [freePid] at h
    split at h
    · cases h
    · intro k hik hkn
      rcases Nat.eq_or_lt_of_le hik with rfl | hik
      · assumption
      · exact ih h k hik (by omega)

end Search

/-! ## What every call keeps -/

/-- The greatest live PID, `0` if there is none. -/
def IsMaxPid (m : OrdMap ℕ ℕ) (pid : ℕ) : Prop :=
  (∀ k, m.find k ≠ none → k ≤ pid) ∧ (m.find pid ≠ none ∨ pid = 0 ∧ ∀ k, m.find k = none)

/-- What holds between two calls: a block stands under its own PID, the PIDs are below
`PS_PROC_ID_MAX`, and the hints are right. -/
structure Sound (s : Procs) : Prop where
  own : s.procSet.All fun pid pcb => s.rbValue pcb = pid
  lt_max : s.procSet.All fun pid _ => pid < psProcIdMax
  below : ∀ pid < s.minFreePid, s.procSet.find pid ≠ none
  hint_le : s.minFreePid ≤ psProcIdMax
  greatest : IsMaxPid s.procSet s.curMaxPid

/-- `pcb` is in the process set. -/
def Registered : Prop := ∃ pid, s.procSet.find pid = some pcb

variable {s : Procs}

theorem registered_iff {pcb : ℕ} : Registered s pcb ↔ pcb ∈ s.procSet.entries.map (·.2) := by
  simp only [Registered, find_eq_some_iff, List.mem_map, Prod.exists, exists_eq_right]

instance (s : Procs) (pcb : ℕ) : Decidable (Registered s pcb) :=
  decidable_of_iff _ registered_iff.symm

section Calls

variable {s : Procs} {pcb p i : ℕ}

theorem Sound.find_own (h : Sound s) (hreg : Registered s pcb) :
    s.procSet.find (s.rbValue pcb) = some pcb := by
  obtain ⟨pid, hpid⟩ := hreg
  rwa [h.own pid pcb hpid]

/-- Two live processes have different PIDs. -/
theorem Sound.distinct (h : Sound s) {q : ℕ} (hp : Registered s p) (hq : Registered s q)
    (heq : s.rbValue p = s.rbValue q) : p = q := by
  have hfind := h.find_own hp
  rw [heq, h.find_own hq] at hfind
  exact (Option.some.inj hfind).symm

/-- The second loop starts below a hint that everything below is live under. -/
theorem Sound.second_loop (h : Sound s) : freePid s.procSet 0 s.minFreePid = none := by
  cases hj : freePid s.procSet 0 s.minFreePid with
  | none => rfl
  | some j =>
    obtain ⟨-, hjn, hfree, -⟩ := freePid_eq_some hj
    exact absurd hfree (h.below j (by omega))

/-- The set after a block has been given the PID `i`. -/
def Procs.added (s : Procs) (pcb i : ℕ) : Procs :=
  { s.take pcb i with procSet := s.procSet.insert i pcb }

theorem register_take (s : Procs) (hi : s.procSet.find i = none) :
    (s.take pcb i).register pcb = .ok (.ok, s.added pcb i) := by
  have hval : (s.take pcb i).rbValue pcb = i := update_self ..
  have hfree : (s.take pcb i).procSet.find i = none := hi
  rw [Procs.register, Procs.insert, hval, if_pos hfree]
  rfl

/-- **What `ps_create_proc` does**: it gives out the least free PID, or there is none. -/
theorem Sound.create (h : Sound s) (pcb : ℕ) :
    (∃ i < psProcIdMax, s.procSet.find i = none ∧ (∀ pid < i, s.procSet.find pid ≠ none) ∧
      psCreateProc s pcb = .ok (.ok, s.added pcb i)) ∨
    (∀ pid < psProcIdMax, s.procSet.find pid ≠ none) ∧ psCreateProc s pcb =
        .ok (.noSlot, { s with rbValue := update s.rbValue pcb psProcIdMax }) := by
  rw [psCreateProc]
  cases hi : freePid s.procSet s.minFreePid (psProcIdMax - s.minFreePid) with
  | some i =>
    obtain ⟨hlo, hhi, hfree, hpassed⟩ := freePid_eq_some hi
    refine .inl ⟨i, by omega, hfree, fun pid hpid => ?_, register_take s hfree⟩
    rcases Nat.lt_or_ge pid s.minFreePid with hlt | hge
    · exact h.below pid hlt
    · exact hpassed pid hge hpid
  | none =>
    refine .inr ⟨fun pid hpid => ?_, by rw [h.second_loop]⟩
    rcases Nat.lt_or_ge pid s.minFreePid with hlt | hge
    · exact h.below pid hlt
    · exact freePid_eq_none hi pid hge (by omega)

theorem IsMaxPid.insert (h : IsMaxPid m c) :
    IsMaxPid (m.insert i pcb) (if i ≥ c then i else c) := by
  obtain ⟨hle, hmem⟩ := h
  refine ⟨fun k hk => ?_, .inl ?_⟩
  · rw [find_insert] at hk
    by_cases hki : k = i
    · split <;> omega
    · rw [if_neg hki] at hk
      have := hle k hk
      split <;> omega
  · rw [find_insert]
    split
    · rw [if_pos rfl]
      nofun
    · rename_i hlt
      rw [if_neg (by omega)]
      exact hmem.resolve_right fun hz => by omega

theorem ne_of_live (hnew : ¬ Registered s pcb) (hp : s.procSet.find pid = some p) :
    p ≠ pcb := fun heq => hnew ⟨pid, heq ▸ hp⟩

/-- Adding a process that was not there keeps the set in order. -/
theorem Sound.added (h : Sound s) (hnew : ¬ Registered s pcb) (hlt : i < psProcIdMax)
    (hleast : ∀ pid < i, s.procSet.find pid ≠ none) : Sound (s.added pcb i) where
  own pid p hp := by
    change (s.procSet.insert i pcb).find pid = some p at hp
    change update s.rbValue pcb i p = pid
    rw [find_insert] at hp
    split at hp
    · cases hp
      rw [update_self]
      exact (‹pid = i›).symm
    · rw [update_of_ne (ne_of_live hnew hp), h.own pid p hp]
  lt_max := OrdMap.All.insert h.lt_max hlt
  below pid hpid := by
    change (s.procSet.insert i pcb).find pid ≠ none
    change pid < i + 1 at hpid
    rw [find_insert]
    split
    · nofun
    · exact hleast pid (by omega)
  hint_le := hlt
  greatest := h.greatest.insert

/-- A block that is not in the set may change its field. -/
theorem Sound.setRbValue (h : Sound s) (hnew : ¬ Registered s pcb) (v : ℕ) :
    Sound { s with rbValue := update s.rbValue pcb v } where
  own pid p hp := by
    change update s.rbValue pcb v p = pid
    rw [update_of_ne (ne_of_live hnew hp), h.own pid p hp]
  lt_max := h.lt_max
  below := h.below
  hint_le := h.hint_le
  greatest := h.greatest

/-! ## `ki_destroy_proc` -/

/-- A process set without the PID `pid`, its hints brought up to date. -/
def Procs.without (s : Procs) (pid : ℕ) : Procs :=
  { s with
    procSet := s.procSet.erase pid
    minFreePid := if pid < s.minFreePid then pid else s.minFreePid
    curMaxPid :=
      if pid = s.curMaxPid then
        match (s.procSet.erase pid).findMaxLteq s.curMaxPid with
        | none => 0
        | some e => e.1
      else s.curMaxPid }

theorem kiDestroyProc_of_live (h : s.procSet.find (s.rbValue pcb) = some p) :
    kiDestroyProc s pcb = s.without (s.rbValue pcb) := by
  simp only [kiDestroyProc, h]
  rfl

theorem kiDestroyProc_of_free (h : s.procSet.find (s.rbValue pcb) = none) :
    kiDestroyProc s pcb = s := by
  simp only [kiDestroyProc, h]

theorem IsMaxPid.erase (h : IsMaxPid m c) :
    IsMaxPid (m.erase pid) (if pid = c then
      match (m.erase pid).findMaxLteq c with
      | none => 0
      | some e => e.1
    else c) := by
  obtain ⟨hle, hmem⟩ := h
  have hle' : ∀ k, (m.erase pid).find k ≠ none → k ≤ c := fun k hk => by
    rw [find_erase] at hk
    split at hk
    · exact absurd rfl hk
    · exact hle k hk
  by_cases hpid : pid = c
  · rw [if_pos hpid]
    cases he : (m.erase pid).findMaxLteq c with
    | none =>
      have hnone : ∀ k, (m.erase pid).find k = none := fun k => by
        by_contra hk
        obtain ⟨v, hv⟩ := Option.ne_none_iff_exists'.mp hk
        have habove := (OrdMap.findMaxLteq_eq_none_iff _).mp he _
          ((find_eq_some_iff _).mp hv)
        exact absurd (hle' k hk) (by simpa using habove)
      exact ⟨fun k hk => absurd (hnone k) hk, .inr ⟨rfl, hnone⟩⟩
    | some e =>
      obtain ⟨hmem', hec, hmax⟩ := (OrdMap.findMaxLteq_eq_some_iff _).mp he
      refine ⟨fun k hk => ?_, .inl ?_⟩
      · obtain ⟨v, hv⟩ := Option.ne_none_iff_exists'.mp hk
        exact hmax _ ((find_eq_some_iff _).mp hv) (hle' k hk)
      · rw [find_of_mem _ hmem']
        nofun
  · rw [if_neg hpid]
    refine ⟨hle', hmem.imp (fun hc => ?_) fun hz => ⟨hz.1, fun k => ?_⟩⟩
    · rwa [find_erase, if_neg (Ne.symm hpid)]
    · rw [find_erase, hz.2 k, ite_self]

theorem Sound.without (h : Sound s) (pid : ℕ) : Sound (s.without pid) where
  own := OrdMap.All.erase h.own pid
  lt_max := OrdMap.All.erase h.lt_max pid
  below k hk := by
    change k < (if pid < s.minFreePid then pid else s.minFreePid) at hk
    change (s.procSet.erase pid).find k ≠ none
    rw [find_erase]
    split at hk
    · rw [if_neg (by omega)]
      exact h.below k (by omega)
    · rw [if_neg (by omega)]
      exact h.below k hk
  hint_le := by
    have := h.hint_le
    change (if pid < s.minFreePid then pid else s.minFreePid) ≤ psProcIdMax
    split <;> omega
  greatest := h.greatest.erase

theorem Sound.destroy (h : Sound s) (pcb : ℕ) : Sound (kiDestroyProc s pcb) := by
  cases hfind : s.procSet.find (s.rbValue pcb) with
  | none => rwa [kiDestroyProc_of_free hfind]
  | some p =>
    rw [kiDestroyProc_of_live hfind]
    exact h.without _

end Calls

/-! ## Runs -/

/-- A call on a process block. -/
inductive ProcCall
  | create (pcb : ℕ)
  | destroy (pcb : ℕ)

/-- One call: a block is registered once, and a process destroyed is a registered one. -/
def ProcStep (s : Procs) : ProcCall → Procs → Prop
  | .create pcb, s' => ¬ Registered s pcb ∧ ∃ r, psCreateProc s pcb = .ok (r, s')
  | .destroy pcb, s' => Registered s pcb ∧ kiDestroyProc s pcb = s'

/-- The empty process set; the fields of blocks not yet registered hold anything. -/
def Procs.init (rbValue : ℕ → ℕ) : Procs := ⟨OrdMap.empty, 0, 0, rbValue⟩

theorem sound_init (rbValue : ℕ → ℕ) : Sound (.init rbValue) where
  own := all_empty
  lt_max := all_empty
  below _ h := absurd h (Nat.not_lt_zero _)
  hint_le := Nat.zero_le _
  greatest := ⟨fun k hk => absurd (find_empty k) hk, .inr ⟨rfl, find_empty⟩⟩

theorem Sound.step {s' : Procs} {c : ProcCall} (h : Sound s) (hs : ProcStep s c s') : Sound s' := by
  cases c with
  | create pcb =>
    obtain ⟨hnew, r, hr⟩ := hs
    obtain ⟨i, hlt, -, hleast, hok⟩ | ⟨-, hok⟩ := h.create pcb
    · obtain ⟨-, rfl⟩ := ok_mk_inj (hok.symm.trans hr)
      exact h.added hnew hlt hleast
    · obtain ⟨-, rfl⟩ := ok_mk_inj (hok.symm.trans hr)
      exact h.setRbValue hnew _
  | destroy pcb =>
    obtain ⟨-, rfl⟩ := hs
    exact h.destroy pcb

theorem sound_of_run {rbValue : ℕ → ℕ} {cs : List ProcCall} (h : Run ProcStep (.init rbValue) cs s)
    : Sound s :=
  h.invariant (fun _ _ _ => Sound.step) (sound_init rbValue)

/-- The live PIDs. -/
def livePids (s : Procs) : Set ℕ := { pid | s.procSet.find pid ≠ none }

/-- **The process set over any run.**  Live processes stand under their own, different PIDs, all
below `PS_PROC_ID_MAX`; the hints are right; and a further `ps_create_proc` returns, with the least
free PID or, if no PID is free, with `KM_RESULT_NO_SLOT`. -/
theorem pids_of_run {rbValue : ℕ → ℕ} {cs : List ProcCall} {s : Procs}
    (h : Run ProcStep (.init rbValue) cs s) :
    (∀ p q, Registered s p → Registered s q → s.rbValue p = s.rbValue q → p = q) ∧
    (∀ p, Registered s p → s.procSet.find (s.rbValue p) = some p) ∧
    (∀ pid ∈ livePids s, pid < psProcIdMax) ∧
    (∀ pid < s.minFreePid, pid ∈ livePids s) ∧
    (IsGreatest (livePids s) s.curMaxPid ∨ livePids s = ∅ ∧ s.curMaxPid = 0) ∧
    ∀ pcb, ¬ Registered s pcb → ∃ r s', psCreateProc s pcb = .ok (r, s') ∧
      (r = .ok ∧ IsLeast (livePids s)ᶜ (s'.rbValue pcb) ∧
          livePids s' = insert (s'.rbValue pcb) (livePids s) ∨
        r = .noSlot ∧ (∀ pid < psProcIdMax, pid ∈ livePids s) ∧ livePids s' = livePids s) := by
  have hs := sound_of_run h
  refine ⟨fun p q hp hq => hs.distinct hp hq, fun p hp => hs.find_own hp, fun pid hpid => ?_,
    hs.below, ?_, fun pcb hnew => ?_⟩
  · obtain ⟨p, hp⟩ := Option.ne_none_iff_exists'.mp hpid
    exact hs.lt_max pid p hp
  · obtain ⟨hle, hmem | ⟨hz, hnone⟩⟩ := hs.greatest
    · exact .inl ⟨hmem, hle⟩
    · exact .inr ⟨Set.eq_empty_of_forall_notMem fun k hk => hk (hnone k), hz⟩
  · obtain ⟨i, hlt, hfree, hleast, hok⟩ | ⟨hfull, hok⟩ := hs.create pcb
    · have hval : (s.added pcb i).rbValue pcb = i := update_self ..
      refine ⟨_, _, hok, .inl ⟨rfl, ?_, ?_⟩⟩
      · rw [hval]
        exact ⟨fun hlive => hlive hfree, fun k hk => Nat.le_of_not_lt fun hki => hk (hleast k hki)⟩
      · rw [hval]
        refine Set.ext fun k => ?_
        change (s.procSet.insert i pcb).find k ≠ none ↔ k = i ∨ s.procSet.find k ≠ none
        rw [find_insert]
        split <;> simp [*]
    · exact ⟨_, _, hok, .inr ⟨rfl, hfull, rfl⟩⟩

/-- Two processes are created and the first is destroyed: PID 0 is free again. -/
theorem pids_of_run_firstDestroyed : ∃ s,
    Run ProcStep (.init fun _ => 7) [.create 100, .create 101, .destroy 100] s ∧
    s.procSet.entries = [(1, 101)] ∧ s.minFreePid = 0 ∧ s.curMaxPid = 1 ∧
    ∀ pid ∈ livePids s, pid < psProcIdMax := by
  have h : Run ProcStep (.init fun _ => 7) [.create 100, .create 101, .destroy 100] _ :=
    .cons ⟨by decide, _, rfl⟩ (.cons ⟨by decide, _, rfl⟩ (.cons ⟨by decide, rfl⟩ (.nil _)))
  exact ⟨_, h, rfl, rfl, rfl, (pids_of_run h).2.2.1⟩

end Pbos.Ps
