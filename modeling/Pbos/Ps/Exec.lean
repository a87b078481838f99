import Pbos.Ps.Proc

/-!
# Ps/Exec — starting a process from a file

`ps_exec` allocates a process block, asks the registered loaders one after another, and registers
the block when one of them has loaded the file.  On every other way out a guard hands the block to
`ki_destroy_proc`, which looks for its PID in the process set.  A block that was never registered
holds PID 0 there, so the process with that PID is dropped from the set, if there is one; and on
success nothing is stored in `*pid_out`.  Where a step of `ps_alloc_pcb` behind the allocation of
the block fails, the block is released twice.  `psExec_iff` says when none of this shows.
-/

namespace Pbos.Ps

variable {κ φ : Type} [LinearOrder κ]

/-- What the calls made by `ps_alloc_pcb` answer: the address of the new block, and the results of
the three steps behind it. -/
structure PcbAlloc where
  proc : Option ℕ
  mmContext : Bool
  mmAllocContext : KmResult
  prepareProc : KmResult

/-- No step behind the allocation of the block fails. -/
def PcbAlloc.completes (a : PcbAlloc) : Bool :=
  a.mmContext && a.mmAllocContext = .ok && a.prepareProc = .ok

/-- `pcb->rb_value = pid`. -/
def Procs.setRbValue (s : Procs) (pcb pid : ℕ) : Procs :=
  { s with rbValue := Function.update s.rbValue pcb pid }

/-- `ps_alloc_pcb()`.  The new block is value-initialised.  A step that fails frees the block before
the guard hands it to `ki_destroy_proc`, which frees it again: `kima_free` does not find it. -/
def psAllocPcb (a : PcbAlloc) (s : Procs) : Except Fault (Option ℕ × Procs) :=
  match a.proc with
  | none => .ok (none, s)
  | some pcb =>
    if a.completes then .ok (some pcb, s.setRbValue pcb 0)
    else .error (.assertion "kernel/mm/kima/malloc.cc" 332)

/-- What `ps_exec` reads and writes; `tried` lists the loaders asked so far. -/
structure ExecState (κ : Type) where
  procs : Procs
  lastProcId : ℕ
  pidOut : ℕ
  tried : List κ

/-- What the loop of `ps_exec` does with an answer that ends it. -/
def loaded (pcb : ℕ) (r : KmResult) (s : ExecState κ) : Except Fault (KmResult × ExecState κ) :=
  if r = .ok then (psCreateProc s.procs pcb).map fun x => (x.1, { s with procs := x.2 })
  else .ok (r, s)

/-- The loop of `ps_exec` over the loaders left. -/
def tryLoaders (pcb : ℕ) (file : φ) :
    List (κ × (φ → KmResult)) → ExecState κ → Except Fault (KmResult × ExecState κ)
  | [], s => .ok (.unsupportedExecfmt, s)
  | l :: ls, s =>
    if l.2 file = .unsupportedExecfmt then
      tryLoaders pcb file ls { s with tried := s.tried ++ [l.1] }
    else loaded pcb (l.2 file) { s with tried := s.tried ++ [l.1] }

/-- The guard of `ps_exec`, which is released on success only. -/
def guarded (pcb : ℕ) (x : KmResult × ExecState κ) : KmResult × ExecState κ :=
  if x.1 = .ok then x else (x.1, { x.2 with procs := kiDestroyProc x.2.procs pcb })

/-- `ps_exec(parent, uid, file_fp, pid_out)`. -/
def psExec (binldrs : OrdMap κ (φ → KmResult)) (file : φ) (a : PcbAlloc) (s : ExecState κ) :
    Except Fault (KmResult × ExecState κ) :=
  let s := { s with lastProcId := (s.lastProcId + 1) % 2 ^ 32 }
  match psAllocPcb a s.procs with
  | .error f => .error f
  | .ok (none, procs) => .ok (.noMem, { s with procs := procs })
  | .ok (some pcb, procs) =>
    (tryLoaders pcb file binldrs.entries { s with procs := procs }).map (guarded pcb)

/-! ## The loaders -/

/-- The first answer in registry order that is not `KM_RESULT_UNSUPPORTED_EXECFMT`, if any. -/
def verdict (ls : List (κ × (φ → KmResult))) (file : φ) : KmResult :=
  match ls.find? fun l => l.2 file ≠ .unsupportedExecfmt with
  | some l => l.2 file
  | none => .unsupportedExecfmt

/-- The loaders in registry order, up to the one that gives the verdict. -/
def asked (ls : List (κ × (φ → KmResult))) (file : φ) : List κ :=
  ((ls.takeWhile fun l => l.2 file = .unsupportedExecfmt) ++
    (ls.find? fun l => l.2 file ≠ .unsupportedExecfmt).toList).map (·.1)

omit [LinearOrder κ] in
/-- **The loop asks the loaders in order and acts on the verdict.** -/
theorem tryLoaders_eq (pcb : ℕ) (file : φ) (ls : List (κ × (φ → KmResult))) (s : ExecState κ) :
    tryLoaders pcb file ls s =
      loaded pcb (verdict ls file) { s with tried := s.tried ++ asked ls file } := by
  induction ls generalizing s with
  | nil => simp [tryLoaders, verdict, asked, loaded]
  | cons l ls ih =>
    rw [tryLoaders]
    by_cases hl : l.2 file = .unsupportedExecfmt
    · rw [if_pos hl, ih]
      simp [verdict, asked, hl]
    · rw [if_neg hl]
      simp [verdict, asked, hl]

/-! ## What a call should do -/

/-- The process set and its hints are the same. -/
def SameProcs (s s' : Procs) : Prop :=
  s'.procSet = s.procSet ∧ s'.minFreePid = s.minFreePid ∧ s'.curMaxPid = s.curMaxPid

/-- What `ps_exec` is meant to do: a failure leaves the process set alone; a success adds one
process and reports its PID; the loaders are asked in order, if the block could be allocated. -/
structure Executes (binldrs : OrdMap κ (φ → KmResult)) (file : φ) (a : PcbAlloc) (s : ExecState κ)
    (r : KmResult) (s' : ExecState κ) : Prop where
  failed : r ≠ .ok → SameProcs s.procs s'.procs
  added : r = .ok → ∃ pid pcb, s.procs.procSet.find pid = none ∧
    s'.procs.procSet = s.procs.procSet.insert pid pcb ∧ s'.pidOut = pid
  order : s'.tried = s.tried ++ if a.proc ≠ none then asked binldrs.entries file else []

/-- The condition on a call: no step behind the allocation of the block fails, PID 0, which
`ki_destroy_proc` reads on the way out, is not live, and `*pid_out` happens to hold the PID that is
given out. -/
def ExecFits (binldrs : OrdMap κ (φ → KmResult)) (file : φ) (a : PcbAlloc)
    (s : ExecState κ) : Prop :=
  a.proc ≠ none → a.completes ∧
    if verdict binldrs.entries file = .ok then
      (∀ pid < psProcIdMax, pid ∈ livePids s.procs) ∨ IsLeast (livePids s.procs)ᶜ s.pidOut
    else 0 ∉ livePids s.procs

/-! ## The three ways out -/

section Ways

variable {s : Procs} {pcb pid : ℕ}

/-- Destroying a block outside the set does nothing exactly if its PID is not live. -/
theorem sameProcs_destroy_iff (s : Procs) (pcb pid : ℕ) :
    SameProcs s (kiDestroyProc (s.setRbValue pcb pid) pcb) ↔ pid ∉ livePids s := by
  have hval : (s.setRbValue pcb pid).rbValue pcb = pid := Function.update_self ..
  have hlive : pid ∈ livePids s ↔ (s.setRbValue pcb pid).procSet.find pid ≠ none := Iff.rfl
  cases hfind : (s.setRbValue pcb pid).procSet.find pid with
  | none =>
    rw [kiDestroyProc_of_free (by rwa [hval]), hlive, not_not]
    exact ⟨fun _ => hfind, fun _ => ⟨rfl, rfl, rfl⟩⟩
  | some p =>
    rw [kiDestroyProc_of_live (by rw [hval]; exact hfind), hval]
    refine ⟨fun hsame => ?_, fun hdead => absurd (hfind ▸ nofun) (hlive.not.mp hdead)⟩
    have herased : s.procSet.find pid = none := by
      rw [← hsame.1]
      exact (OrdMap.find_erase s.procSet pid pid).trans (if_pos rfl)
    exact absurd (hfind.symm.trans herased) nofun

/-- Registration reports the PID given out exactly if `*pid_out` held it before. -/
theorem added_iff {i v : ℕ} (hfree : s.procSet.find i = none)
    (hleast : ∀ pid < i, s.procSet.find pid ≠ none) :
    (∃ pid p, s.procSet.find pid = none ∧
      s.procSet.insert i pcb = s.procSet.insert pid p ∧ v = pid) ↔
      IsLeast (livePids s)ᶜ v := by
  constructor
  · rintro ⟨pid, p, hpid, hset, rfl⟩
    have hfind := congrArg (OrdMap.find · v) hset
    simp only [OrdMap.find_insert] at hfind
    by_cases hvi : v = i
    · rw [hvi]
      exact ⟨fun hlive => hlive hfree, fun k hk => Nat.le_of_not_lt fun hki => hk (hleast k hki)⟩
    · rw [if_neg hvi, hpid] at hfind
      cases hfind
  · rintro ⟨hv, hmin⟩
    have hvi : v = i := by
      refine Nat.le_antisymm (hmin fun hlive => hlive hfree) (Nat.le_of_not_lt fun hlt => ?_)
      exact hv (hleast v hlt)
    exact ⟨i, pcb, hfree, rfl, hvi⟩

end Ways

section Call

variable {binldrs : OrdMap κ (φ → KmResult)} {file : φ} {a : PcbAlloc} {s s' : ExecState κ}
  {r : KmResult} {pcb : ℕ}

theorem executes_iff_of_failed (hr : r ≠ .ok)
    (horder : s'.tried = s.tried ++ if a.proc ≠ none then asked binldrs.entries file else []) :
    Executes binldrs file a s r s' ↔ SameProcs s.procs s'.procs :=
  ⟨fun h => h.failed hr, fun h => ⟨fun _ => h, fun hok => absurd hok hr, horder⟩⟩

theorem exists_executes_iff (hcall : psExec binldrs file a s = .ok (r, s')) :
    (∃ r s', psExec binldrs file a s = .ok (r, s') ∧ Executes binldrs file a s r s') ↔
      Executes binldrs file a s r s' := by
  refine ⟨?_, fun h => ⟨r, s', hcall, h⟩⟩
  rintro ⟨_, _, hcall', h⟩
  cases hcall.symm.trans hcall'
  exact h

/-- The state in which the verdict of the loaders is acted on. -/
def asking (binldrs : OrdMap κ (φ → KmResult)) (file : φ) (pcb : ℕ) (s : ExecState κ) :
    ExecState κ :=
  { s with
    procs := s.procs.setRbValue pcb 0
    lastProcId := (s.lastProcId + 1) % 2 ^ 32
    tried := s.tried ++ asked binldrs.entries file }

theorem psExec_of_completes (hproc : a.proc = some pcb) (hc : a.completes = true) :
    psExec binldrs file a s =
      (loaded pcb (verdict binldrs.entries file) (asking binldrs file pcb s)).map
        (guarded pcb) := by
  simp only [psExec, psAllocPcb, hproc, hc, tryLoaders_eq]
  rfl

/-- After a successful verdict the block is registered, if a PID is free. -/
theorem psExec_of_loaded (h : Sound s.procs) (hnew : ¬ Registered s.procs pcb)
    (hproc : a.proc = some pcb) (hc : a.completes = true)
    (hv : verdict binldrs.entries file = .ok) :
    ∃ r s', psExec binldrs file a s = .ok (r, s') ∧ (Executes binldrs file a s r s' ↔
      (∀ pid < psProcIdMax, pid ∈ livePids s.procs) ∨ IsLeast (livePids s.procs)ᶜ s.pidOut) := by
  have horder : (asking binldrs file pcb s).tried =
      s.tried ++ if a.proc ≠ none then asked binldrs.entries file else [] := by
    rw [if_pos (by rw [hproc]; nofun)]
    rfl
  have hsound : Sound (asking binldrs file pcb s).procs := h.setRbValue hnew 0
  rw [psExec_of_completes hproc hc, loaded, if_pos hv]
  obtain ⟨i, hlt, hfree, hleast, hok⟩ | ⟨hfull, hok⟩ := hsound.create pcb
  · rw [hok]
    refine ⟨_, _, congrArg Except.ok (if_pos rfl), fun hdo => .inr ?_, fun hfits => ?_⟩
    · exact (added_iff hfree hleast).mp (hdo.added rfl)
    · have hpid := hfits.resolve_left fun hfull => hfull i hlt hfree
      exact ⟨absurd rfl, fun _ => (added_iff hfree hleast).mpr hpid, horder⟩
  · rw [hok]
    refine ⟨_, _, congrArg Except.ok (if_neg nofun), iff_of_true ?_ (.inl hfull)⟩
    refine (executes_iff_of_failed ?_ ?_).mpr ((sameProcs_destroy_iff _ pcb _).mpr fun hlive => ?_)
    · nofun
    · exact horder
    · obtain ⟨p, hp⟩ := Option.ne_none_iff_exists'.mp hlive
      exact Nat.lt_irrefl _ (hsound.lt_max _ p hp)

end Call

/-- **When `ps_exec` does what it is meant to.**  In a process set in order, with a block that is
not in it, a call returns and meets its description exactly under `ExecFits`. -/
theorem psExec_iff (binldrs : OrdMap κ (φ → KmResult)) (file : φ) (a : PcbAlloc) (s : ExecState κ)
    (h : Sound s.procs) (hnew : ∀ pcb, a.proc = some pcb → ¬ Registered s.procs pcb) :
    (∃ r s', psExec binldrs file a s = .ok (r, s') ∧ Executes binldrs file a s r s') ↔
      ExecFits binldrs file a s := by
  cases hproc : a.proc with
  | none =>
    rw [exists_executes_iff (by simp only [psExec, psAllocPcb, hproc]; rfl)]
    refine (executes_iff_of_failed ?_ ?_).trans ?_
    · nofun
    · rw [if_neg (not_not.mpr hproc), List.append_nil]
    · exact iff_of_true ⟨rfl, rfl, rfl⟩ fun hp => absurd hproc hp
  | some pcb =>
    have hsome : a.proc ≠ none := by simp [hproc]
    have hfits : ∀ {P : Prop}, (a.proc ≠ none → P) ↔ P := by simp [hsome]
    rw [ExecFits, hfits]
    by_cases hc : a.completes = true
    · rw [and_iff_right hc]
      by_cases hv : verdict binldrs.entries file = .ok
      · rw [if_pos hv]
        obtain ⟨r, s', hcall, hiff⟩ := psExec_of_loaded h (hnew pcb hproc) hproc hc hv
        exact (exists_executes_iff hcall).trans hiff
      · have hcall : psExec binldrs file a s = _ := psExec_of_completes hproc hc
        rw [loaded, if_neg hv] at hcall
        rw [if_neg hv, exists_executes_iff (hcall.trans (congrArg Except.ok (if_neg hv))),
          executes_iff_of_failed hv (by rw [if_pos hsome]; rfl)]
        exact sameProcs_destroy_iff s.procs pcb 0
    · refine iff_of_false ?_ fun hp => hc hp.1
      rintro ⟨r, s', hcall, -⟩
      simp [psExec, psAllocPcb, hproc, hc] at hcall

/-- One process, with PID 0. -/
def oneProc : Procs := (Procs.init fun _ => 0).added 800 0

/-- A block can be had at 900. -/
def allocAt900 : PcbAlloc := ⟨some 900, true, .ok, .ok⟩

/-- No loader takes the file: the process with PID 0 is dropped from the set.  A loader takes it:
the new process has PID 1, and `*pid_out` keeps what it held. -/
theorem psExec_dropsProcZero :
    ((psExec (κ := ℕ) OrdMap.empty () allocAt900 ⟨oneProc, 0, 99, []⟩).toOption.map fun x =>
      (x.1, x.2.procs.procSet.entries, x.2.procs.minFreePid)) = some (.unsupportedExecfmt, [], 0) ∧
    ((psExec (OrdMap.empty.insert 5 fun _ => .ok) () allocAt900 ⟨oneProc, 0, 99, []⟩).toOption.map
      fun x => (x.1, x.2.procs.procSet.entries, x.2.pidOut)) =
      some (.ok, [(0, 800), (1, 900)], 99) := by
  decide

theorem sound_oneProc : Sound oneProc := by
  have h : Run ProcStep (.init fun _ => 0) [.create 800] oneProc :=
    .cons ⟨by decide, _, rfl⟩ (.nil _)
  exact sound_of_run h

/-- The loader takes the file, and `*pid_out` holds the PID given out already. -/
theorem psExec_iff_oneProc : ∃ r s',
    psExec (OrdMap.empty.insert 5 fun _ => .ok) () allocAt900 ⟨oneProc, 0, 1, []⟩ = .ok (r, s') ∧
      Executes (OrdMap.empty.insert 5 fun _ => .ok) () allocAt900 ⟨oneProc, 0, 1, []⟩ r s' := by
  refine (psExec_iff _ () allocAt900 ⟨oneProc, 0, 1, []⟩ sound_oneProc ?_).mpr fun _ =>
    ⟨rfl, .inr ⟨fun h => h rfl, fun k hk => ?_⟩⟩
  · rintro pcb ⟨⟩
    decide
  · refine Nat.one_le_iff_ne_zero.mpr fun h0 => hk ?_
    subst h0
    exact nofun

/-! ## Registering a loader -/

section Binldrs

variable {ω : Type}

/-- A call of `ps_register_binldr`.  `atParam` are the bytes that start where the parameter `uuid`
itself lies: the pointer, and what is behind it on the stack. -/
structure BinldrCall (κ ω : Type) where
  uuid : κ
  atParam : κ
  ops : ω
  granted : Bool

/-- `ps_register_binldr(uuid, binldr)`.  The key of the new node is copied from `&uuid`. -/
def psRegisterBinldr (c : BinldrCall κ ω) (m : OrdMap κ ω) : Except Fault (KmResult × OrdMap κ ω) :=
  if m.find c.uuid ≠ none then .ok (.existed, m)
  else if !c.granted then .ok (.noMem, m)
  else if m.find c.atParam ≠ none then
    .error (.panic "Calling insert_unwrap with insertion failed" [])
  else .ok (.ok, m.insert c.atParam c.ops)

/-- The calls one after another: the results, and `ki_registered_binldrs`. -/
def registerAll : List (BinldrCall κ ω) → OrdMap κ ω → Except Fault (List KmResult × OrdMap κ ω)
  | [], m => .ok ([], m)
  | c :: cs, m => do
    let (r, m) ← psRegisterBinldr c m
    let (rs, m) ← registerAll cs m
    .ok (r :: rs, m)

/-- **What the calls should come to**: the results, and the registrations that are accepted on top
of `acc`, each one unless its UUID is among them. -/
def accept : List (BinldrCall κ ω) → List (κ × ω) → List KmResult × List (κ × ω)
  | [], acc => ([], acc)
  | c :: cs, acc =>
    if c.uuid ∈ acc.map Prod.fst then (accept cs acc).map (.existed :: ·) id
    else if !c.granted then (accept cs acc).map (.noMem :: ·) id
    else (accept cs ((c.uuid, c.ops) :: acc)).map (.ok :: ·) id

/-- **The registered loaders are those that were accepted**, if each call finds its UUID at the
parameter. -/
theorem registers_of_atParam {cs : List (BinldrCall κ ω)} (hcs : ∀ c ∈ cs, c.atParam = c.uuid)
    {m : OrdMap κ ω} {acc : List (κ × ω)} (hm : ∀ k v, m.find k = some v ↔ (k, v) ∈ acc) :
    ∃ m', registerAll cs m = .ok ((accept cs acc).1, m') ∧
      ∀ k v, m'.find k = some v ↔ (k, v) ∈ (accept cs acc).2 := by
  induction cs generalizing m acc with
  | nil => exact ⟨m, rfl, hm⟩
  | cons c cs ih =>
    have ih {m acc} := @ih (fun c hc => hcs c (.tail _ hc)) m acc
    have hfind : m.find c.uuid ≠ none ↔ c.uuid ∈ acc.map Prod.fst := by
      simp [Option.ne_none_iff_exists', hm]
    simp only [registerAll, accept, psRegisterBinldr, hcs c (.head _), hfind]
    split_ifs with hin hgrant
    · obtain ⟨m', hall, hfind'⟩ := ih hm
      exact ⟨m', bind_eq_ok_iff.mpr ⟨_, rfl, by rw [hall]; rfl⟩, hfind'⟩
    · obtain ⟨m', hall, hfind'⟩ := ih hm
      exact ⟨m', bind_eq_ok_iff.mpr ⟨_, rfl, by rw [hall]; rfl⟩, hfind'⟩
    · obtain ⟨m', hall, hfind'⟩ := @ih (m.insert c.uuid c.ops) ((c.uuid, c.ops) :: acc)
        fun k v => by
        rw [OrdMap.find_insert, List.mem_cons, ← hm]
        split_ifs with hk
        · have hnone : m.find k = none := not_not.mp fun h => hin (hfind.mp (hk ▸ h))
          simp [hk, eq_comm, hk ▸ hnone]
        · simp [hk]
      exact ⟨m', bind_eq_ok_iff.mpr ⟨_, rfl, by rw [hall]; rfl⟩, hfind'⟩

theorem registers_of_atParam_twice : ∃ m : OrdMap ℕ ℕ,
    registerAll [⟨5, 5, 1, true⟩, ⟨5, 5, 2, true⟩] .empty = .ok ([.ok, .existed], m) ∧
      ∀ k v, m.find k = some v ↔ (k, v) ∈ [(5, 1)] :=
  registers_of_atParam (by decide) (show ∀ k v, OrdMap.empty.find k = some v ↔ (k, v) ∈ [] by simp)

/-- UUID 5 is registered twice, through the pointers 7 and 8, and is found under neither; through 7
again, the call panics. -/
theorem psRegisterBinldr_misfiles :
    ((registerAll [⟨5, 7, 1, true⟩, ⟨5, 8, 2, true⟩] (.empty : OrdMap ℕ ℕ)).toOption.map fun x =>
      (x.1, x.2.entries)) = some ([.ok, .ok], [(7, 1), (8, 2)]) ∧
    (registerAll [⟨5, 7, 1, true⟩, ⟨5, 7, 2, true⟩] (.empty : OrdMap ℕ ℕ)).map Prod.fst =
      .error (.panic "Calling insert_unwrap with insertion failed" []) := by decide

end Binldrs

end Pbos.Ps
