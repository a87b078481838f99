import Pbos.Fs.File
import Pbos.Mm.Probe
import Pbos.Ps.Exec

/-!
# Syscall/Pbcore — the system calls that take user buffers

`sysent_open`, `sysent_read` and `sysent_exec_child` have one shape: they probe a buffer for reading
and one for writing, keep both locked over their work, and unlock them on every way out.
`withBuffers` is that shape.  What it does is settled by the two probes: `withBuffers_relocks_iff`
says when the second one locks a mutex that the first one has locked, and `withBuffers_log` which
accesses are made.

A byte that a probe of a user buffer covers is granted (`Accepts.covers`).  The rest of what the
calls touch is not: buffers in the kernel half, the bytes from the limit of the probe on, and the
buffer of `sysent_read`, which is probed for reading and written to.
-/

namespace Pbos.Syscall

open Pbos.Hal Pbos.Mm Pbos.Fs Pbos.Ps Thread List

/-! ## The kernel as the calls see it -/

/-- `fs_fcb_t`, by the file system the node is of: a file of the initial archive and its size, or a
node of the root file system. -/
inductive Fcb
  | initcar (szTotal : ℕ)
  | rootfs
  deriving DecidableEq, Repr

/-- What the calls read and change: the buffers' side of the process (`env`, and `mem` for what is
stored in its memory), its files, and what `ps_exec` works on.  `openOp` is the `open` operation of
a node's file system, and `ufcbAlloc` says whether a block for a `ps_ufcb_t` can be had. -/
structure Kernel (ν κ : Type) [LinearOrder κ] where
  env : ProbeEnv
  mem : ℕ → UInt8
  tree : FileTree ν
  refs : RefCount ν
  curDir : Option ν
  openOp : ν → Except Failure Fcb
  ufcbAlloc : Bool
  lastFd : ℤ
  ufcbSet : OrdMap ℤ Fcb
  binldrs : OrdMap κ (Fcb → KmResult)
  pcbAlloc : PcbAlloc
  exec : ExecState κ

variable {ν κ : Type} [DecidableEq ν] [LinearOrder κ] (k : Kernel ν κ)

/-- `ps_alloc_fd(pcb)`: `last_fd++` on an `int`. -/
def psAllocFd : Sys (ℤ × Kernel ν κ) :=
  if k.lastFd = 2 ^ 31 - 1 then halt .undefined
  else pure (k.lastFd, { k with lastFd := k.lastFd + 1 })

/-- `ps_alloc_ufcb(pcb, kernel_fcb, fd)`; the block is constructed before it is known to be
there. -/
def psAllocUfcb (fcb : Fcb) (fd : ℤ) : Sys (Kernel ν κ) :=
  if k.ufcbAlloc = false then halt .nullDeref
  else if k.ufcbSet.find fd = none then pure { k with ufcbSet := k.ufcbSet.insert fd fcb }
  else halt (.panic "Error inserting new UFCB with ID=%d" [fd.toNat])

/-- `ps_lookup_ufcb(pcb, fd)`. -/
def psLookupUfcb (fd : ℤ) : Option Fcb := k.ufcbSet.find fd

/-! ## Files -/

/-- The byte at `path[i]`. -/
def Kernel.path (k : Kernel ν κ) (path i : ℕ) : UInt8 := k.mem ((path + i) % 2 ^ 64)

/-- `fs_open` from the answer of `fs_resolve_path` on. -/
def openResolved : Except Fault (Answer ν) → Sys (Except Failure Fcb)
  | .error f => halt f
  | .ok ⟨.error e, _⟩ => pure (.error e)
  | .ok ⟨.ok none, _⟩ => halt .nullDeref
  | .ok ⟨.ok (some file), _⟩ => pure (k.openOp file)

/-- `fs_open(base_dir, path, path_len, fcb_out)`. -/
def fsOpen (path : VRange) : Sys (Except Failure Fcb) := do
  emit ⟨false, path.vaddr, bytesRead k.tree k.refs k.curDir (k.path path.vaddr) path.size⟩
  openResolved k (fsResolvePath k.tree k.refs k.curDir (k.path path.vaddr) path.size)

/-- `kh_initcar_read(fcb, dest, size, off, bytes_read_out)`. -/
def khInitcarRead (szTotal dest size off bytesReadOut : ℕ) : Sys KmResult := do
  if szTotal < (size + off) % 2 ^ 64 then
    emit ⟨true, dest, (szTotal + (2 ^ 64 - off)) % 2 ^ 64⟩
    emit ⟨true, bytesReadOut, 8⟩
    pure .eof
  else
    emit ⟨true, dest, size⟩
    emit ⟨true, bytesReadOut, 8⟩
    pure .ok

/-- `ki_rootfs_read(fcb, dest, size, off, bytes_read_out)`. -/
def kiRootfsRead (bytesReadOut : ℕ) : Sys KmResult := do
  emit ⟨true, bytesReadOut, 8⟩
  pure .unsupportedOperation

/-- `fs_read(fcb, dest, size, off, bytes_read_out)`. -/
def fsRead (fcb : Fcb) (dest size off bytesReadOut : ℕ) : Sys KmResult :=
  match fcb with
  | .initcar szTotal => khInitcarRead szTotal dest size off bytesReadOut
  | .rootfs => kiRootfsRead bytesReadOut

/-! ## The calls -/

/-- The common shape: `b₁` is probed for reading and `b₂` for writing, and the guards unlock what
has been locked. -/
def withBuffers {β : Type} (env : ProbeEnv) (b₁ b₂ : VRange) (failed : KmResult → β)
    (body : Sys β) : Sys β := do
  let r₁ ← mmProbeAndLockPages env b₁ MM_PAGE_READ
  if r₁ ≠ .ok then pure (failed r₁)
  else do
    let r₂ ← mmProbeAndLockPages env b₂ MM_PAGE_WRITE
    if r₂ ≠ .ok then do
      let _ ← mmUnlockPages env b₁
      pure (failed r₂)
    else do
      let r ← body
      let _ ← mmUnlockPages env b₂
      let _ ← mmUnlockPages env b₁
      pure r

/-- `sysent_open` behind `fs_open`. -/
def openEnd (fd : ℤ) (ufdOut : ℕ) : Except Failure Fcb → Sys (KmResult × Kernel ν κ)
  | .error e => pure (e.1, k)
  | .ok fcb => do
    let k ← psAllocUfcb k fcb fd
    emit ⟨true, ufdOut, 4⟩
    pure (.ok, k)

/-- `sysent_open` between its probes and its guards. -/
def openBody (path : VRange) (ufdOut : ℕ) : Sys (KmResult × Kernel ν κ) := do
  let (fd, k) ← psAllocFd k
  if fd < 0 then pure (.noSlot, k)
  else fsOpen k path >>= openEnd k fd ufdOut

/-- `sysent_open(path, path_len, flags, mode, ufd_out)`; `flags` and `mode` are not read. -/
def sysentOpen (path : VRange) (ufdOut : ℕ) : Sys (KmResult × Kernel ν κ) :=
  withBuffers k.env path ⟨ufdOut, 4⟩ (·, k) (openBody k path ufdOut)

/-- `sysent_read` between its probes and its guards. -/
def readBody (ufd : ℤ) (buf : VRange) (off bytesReadOut : ℕ) : Sys (KmResult × Kernel ν κ) :=
  match psLookupUfcb k ufd with
  | none => pure (.invalidArgs, k)
  | some fcb => do
    let r ← fsRead fcb buf.vaddr buf.size off bytesReadOut
    pure (r, k)

/-- `sysent_read(ufd, buf, size, off, bytes_read_out)`. -/
def sysentRead (ufd : ℤ) (buf : VRange) (off bytesReadOut : ℕ) : Sys (KmResult × Kernel ν κ) :=
  withBuffers k.env buf ⟨bytesReadOut, 8⟩ (·, k) (readBody k ufd buf off bytesReadOut)

/-- What `ps_exec` returns and leaves behind. -/
def execEnd : Except Fault (KmResult × ExecState κ) → Sys (KmResult × Kernel ν κ)
  | .error f => halt f
  | .ok (r, exec) => pure (r, { k with exec := exec })

/-- `sysent_exec_child` between its probes and its guards.  The arguments are not read, and
`ps_exec` stores nothing in `*proc_id_out`. -/
def execChildBody (fileUfd : ℤ) : Sys (KmResult × Kernel ν κ) :=
  match psLookupUfcb k fileUfd with
  | none => pure (.invalidArgs, k)
  | some fcb => execEnd k (psExec k.binldrs fcb k.pcbAlloc k.exec)

/-- `sysent_exec_child(file_ufd, cwd_ufd, args, args_len, proc_id_out)`; `cwd_ufd` is not read. -/
def sysentExecChild (fileUfd : ℤ) (args : VRange) (procIdOut : ℕ) : Sys (KmResult × Kernel ν κ) :=
  withBuffers k.env args ⟨procIdOut, 4⟩ (·, k) (execChildBody k fileUfd)

/-- A call of a user program, with its arguments. -/
inductive UserCall
  | openPath (path : VRange) (ufdOut : ℕ)
  | readFile (ufd : ℤ) (buf : VRange) (off bytesReadOut : ℕ)
  | execChild (fileUfd : ℤ) (args : VRange) (procIdOut : ℕ)
  deriving DecidableEq, Repr

/-- The call made. -/
def UserCall.perform : UserCall → Sys (KmResult × Kernel ν κ)
  | .openPath path ufdOut => sysentOpen k path ufdOut
  | .readFile ufd buf off bytesReadOut => sysentRead k ufd buf off bytesReadOut
  | .execChild fileUfd args procIdOut => sysentExecChild k fileUfd args procIdOut

/-! ## The shape -/

/-- **The second buffer meets the first**: the first is accepted, and the probe of the second comes
to a region that is locked already. -/
def Collides (env : ProbeEnv) (b₁ b₂ : VRange) : Prop :=
  Accepts env b₁ MM_PAGE_READ ∧ Meets env b₂ MM_PAGE_WRITE (areas env b₁)

/-- Both buffers are accepted. -/
def BothAccepted (env : ProbeEnv) (b₁ b₂ : VRange) : Prop :=
  Accepts env b₁ MM_PAGE_READ ∧ Accepts env b₂ MM_PAGE_WRITE

/-- Where a call starts: no mutex is held. -/
def entry : State MutexId Access := .start

section Shape

variable {β : Type} {env : ProbeEnv} {b₁ b₂ : VRange} {failed : KmResult → β} {body : Sys β}
  {l : List Access}

theorem vmr_notMem_areas (env : ProbeEnv) (b : VRange) : MutexId.vmr ∉ areas env b := by
  rw [areas]
  split <;> simp

theorem not_meets_nil (env : ProbeEnv) (b : VRange) (required : UInt32) :
    ¬ Meets env b required [] := by
  rintro ⟨-, -, v, -, hv⟩
  cases hv

/-- Regions of an accepted buffer that does not meet `held` are free. -/
theorem areas_free {b : VRange} {required : UInt32} {held : List MutexId}
    (h : Accepts env b required) (hmeets : ¬ Meets env b required held) :
    ∀ m ∈ areas env b, m ∉ held := by
  intro m hm hheld
  obtain ⟨hside, ⟨hkernel, -⟩ | ⟨huser, hall, -⟩⟩ := h
  · rw [areas, hkernel] at hm
    cases hm
  · rw [areas, if_pos huser, mem_reverse] at hm
    obtain ⟨v, hv, rfl⟩ := mem_map.mp hm
    exact hmeets ⟨hside, huser, v, hall.visited_eq.symm ▸ hv, hheld⟩

/-- **Which accesses are made**: those of the body, if it is reached. -/
theorem withBuffers_log (hbody : Logs body l) :
    (BothAccepted env b₁ b₂ → ((withBuffers env b₁ b₂ failed body).run entry).2.log = l) ∧
      (¬ BothAccepted env b₁ b₂ → ((withBuffers env b₁ b₂ failed body).run entry).2.log = []) := by
  have hlog₁ : ((mmProbeAndLockPages env b₁ MM_PAGE_READ).run entry).2.log = [] :=
    (probe_silent ..).2 entry
  constructor
  · rintro ⟨h₁, h₂⟩
    obtain ⟨s₁, hs₁⟩ := probe_ok_iff.mpr h₁
    obtain ⟨s₂, hs₂⟩ := (probe_ok_iff (s := s₁)).mpr h₂
    have hlog₂ := (probe_silent env b₂ MM_PAGE_WRITE).2 s₁
    rw [hs₁] at hlog₁
    rw [hs₂] at hlog₂
    have hs₂' : s₂.log = [] := hlog₂.trans hlog₁
    rw [withBuffers, bind_of_ok hs₁, if_neg (not_not.mpr rfl), bind_of_ok hs₂,
      if_neg (not_not.mpr rfl), hbody.bind_silent, hs₂', nil_append]
    exact fun r => (mmUnlockPages_silent ..).bind fun _ => (mmUnlockPages_silent ..).bind fun _ =>
      silent_pure r
  · intro h
    obtain ⟨r₁, s₁, hs₁⟩ : ∃ r₁ s₁,
        (mmProbeAndLockPages env b₁ MM_PAGE_READ).run entry = (r₁, s₁) := ⟨_, _, rfl⟩
    rw [hs₁] at hlog₁
    cases r₁ with
    | error e =>
      rw [withBuffers, bind_of_error hs₁]
      exact hlog₁
    | ok r₁ =>
      rw [withBuffers, bind_of_ok hs₁]
      by_cases hr₁ : r₁ = .ok
      · subst hr₁
        have h₂ : ¬ Accepts env b₂ MM_PAGE_WRITE := fun h₂ =>
          h ⟨probe_ok_iff.mp ⟨s₁, hs₁⟩, h₂⟩
        rw [if_neg (not_not.mpr rfl), silent_bind_log (probe_silent ..) fun r₂ s₂ hs₂ => ?_]
        · exact hlog₁
        · have hr₂ : r₂ ≠ .ok := fun hr₂ => h₂ (probe_ok_iff.mp ⟨s₂, hr₂ ▸ hs₂⟩)
          rw [if_pos hr₂]
          exact (mmUnlockPages_silent ..).bind fun _ => silent_pure _
      · rw [if_pos hr₁]
        exact hlog₁

theorem withBuffers_of_collides (hbody : Logs body l) (h : Collides env b₁ b₂) :
    ((withBuffers env b₁ b₂ failed body).run entry).2.relocked ≠ [] := by
  rw [withBuffers, bind_of_ok (probe_of_accepts not_mem_nil (fun _ _ => not_mem_nil) h.1),
    if_neg (not_not.mpr rfl)]
  refine relocked_bind ?_ fun r₂ => ?_
  · refine probe_relocks ?_ ?_ <;> simp only [entry, held_start, append_nil]
    · exact vmr_notMem_areas env b₁
    · exact h.2
  · split
    · exact ((mmUnlockPages_silent ..).bind fun _ => silent_pure _).1
    · exact hbody.keeps.bind fun _ => (mmUnlockPages_silent ..).1.bind fun _ =>
        ((mmUnlockPages_silent ..).bind fun _ => silent_pure _).1

theorem withBuffers_quiet (hbody : Logs body l) (hcol : ¬ Collides env b₁ b₂) :
    Quiet ((withBuffers env b₁ b₂ failed body).run entry) entry fun _ _ => True := by
  by_cases h₁ : Accepts env b₁ MM_PAGE_READ
  · have hmeets : ¬ Meets env b₂ MM_PAGE_WRITE (areas env b₁) := fun hmeets => hcol ⟨h₁, hmeets⟩
    refine (probe_of_accepts_quiet not_mem_nil (fun _ _ => not_mem_nil) h₁).bind ?_
    rintro _ s₁ ⟨rfl, hheld⟩
    rw [entry, held_start, append_nil] at hheld
    have hvmr : MutexId.vmr ∉ s₁.held := hheld ▸ vmr_notMem_areas env b₁
    rw [if_neg (not_not.mpr rfl)]
    by_cases h₂ : Accepts env b₂ MM_PAGE_WRITE
    · refine (probe_of_accepts_quiet hvmr (hheld ▸ areas_free h₂ hmeets) h₂).bind ?_
      rintro _ s₂ ⟨rfl, hheld₂⟩
      rw [if_neg (not_not.mpr rfl)]
      refine (hbody.quiet s₂).bind fun _ s₃ hheld₃ => ?_
      have hvmr₃ : MutexId.vmr ∉ s₃.held := by
        rw [hheld₃, hheld₂, mem_append]
        exact not_or.mpr ⟨vmr_notMem_areas env b₂, hvmr⟩
      refine (mmUnlockPages_quiet hvmr₃).bind fun _ s₄ hvmr₄ => ?_
      exact (mmUnlockPages_quiet hvmr₄).bind fun _ _ _ => quiet_pure trivial
    · refine (probe_quiet hvmr h₂ (hheld ▸ hmeets)).bind fun r s₂ hr => ?_
      rw [if_pos hr.1]
      exact (mmUnlockPages_quiet hr.2).bind fun _ _ _ => quiet_pure trivial
  · refine (probe_quiet not_mem_nil h₁ (not_meets_nil env b₁ _)).bind fun r s' hr => ?_
    rw [if_pos hr.1]
    exact quiet_pure trivial

/-- **When a mutex is locked that the thread holds.** -/
theorem withBuffers_relocks_iff (hbody : Logs body l) :
    ((withBuffers env b₁ b₂ failed body).run entry).2.relocked = [] ↔ ¬ Collides env b₁ b₂ :=
  ⟨fun h hcol => withBuffers_of_collides hbody hcol h, fun hcol => (withBuffers_quiet hbody hcol).1⟩

end Shape

/-! ## What the calls touch -/

namespace UserCall

/-- The buffer that is probed for reading. -/
def first : UserCall → VRange
  | .openPath path _ => path
  | .readFile _ buf _ _ => buf
  | .execChild _ args _ => args

/-- The buffer that is probed for writing. -/
def second : UserCall → VRange
  | .openPath _ ufdOut => ⟨ufdOut, 4⟩
  | .readFile _ _ _ bytesReadOut => ⟨bytesReadOut, 8⟩
  | .execChild _ _ procIdOut => ⟨procIdOut, 4⟩

/-- The call between its probes and its guards. -/
def body (k : Kernel ν κ) : UserCall → Sys (KmResult × Kernel ν κ)
  | .openPath path ufdOut => openBody k path ufdOut
  | .readFile ufd buf off bytesReadOut => readBody k ufd buf off bytesReadOut
  | .execChild fileUfd _ _ => execChildBody k fileUfd

theorem perform_eq (k : Kernel ν κ) (call : UserCall) :
    call.perform k = withBuffers k.env call.first call.second (·, k) (call.body k) := by
  cases call <;> rfl

end UserCall

/-- There is a descriptor to give. -/
def HasFd : Prop := 0 ≤ k.lastFd ∧ k.lastFd ≠ 2 ^ 31 - 1

/-- The file a path names, if it is there and can be opened. -/
def opened (path : VRange) : Option Fcb :=
  match fsResolvePath k.tree k.refs k.curDir (k.path path.vaddr) path.size with
  | .ok ⟨.ok (some file), _⟩ => (k.openOp file).toOption
  | _ => none

/-- Nothing is in the way of an open: the path names a file that can be opened, there is a block for
the descriptor, and the descriptor is not in use. -/
def Opens (path : VRange) : Prop :=
  (opened k path).isSome = true ∧ k.ufcbAlloc = true ∧ k.ufcbSet.find k.lastFd = none

instance (k : Kernel ν κ) : Decidable (HasFd k) := inferInstanceAs (Decidable (_ ∧ _))

instance (k : Kernel ν κ) (path : VRange) : Decidable (Opens k path) :=
  inferInstanceAs (Decidable (_ ∧ _ ∧ _))

/-- How many bytes of a path are read. -/
def pathBytes (path : VRange) : ℕ :=
  bytesRead k.tree k.refs k.curDir (k.path path.vaddr) path.size

/-- How many bytes a read stores in its buffer. -/
def readBytes (fcb : Fcb) (size off : ℕ) : ℕ :=
  match fcb with
  | .rootfs => 0
  | .initcar szTotal =>
    if szTotal < (size + off) % 2 ^ 64 then (szTotal + (2 ^ 64 - off)) % 2 ^ 64 else size

/-- The accesses of `fs_read`. -/
def readTouches (fcb : Fcb) (dest size off bytesReadOut : ℕ) : List Access :=
  match fcb with
  | .rootfs => [⟨true, bytesReadOut, 8⟩]
  | .initcar _ => [⟨true, dest, readBytes fcb size off⟩, ⟨true, bytesReadOut, 8⟩]

/-- **The accesses of a call** whose buffers are accepted. -/
def UserCall.touches : UserCall → List Access
  | .openPath path ufdOut =>
    if HasFd k then
      ⟨false, path.vaddr, pathBytes k path⟩ :: if Opens k path then [⟨true, ufdOut, 4⟩] else []
    else []
  | .readFile ufd buf off bytesReadOut =>
    match k.ufcbSet.find ufd with
    | none => []
    | some fcb => readTouches fcb buf.vaddr buf.size off bytesReadOut
  | .execChild _ _ _ => []

section Touches

variable (k : Kernel ν κ)

theorem logs_openEnd (path : VRange) (fcb : Fcb) (ufdOut : ℕ) (hopened : opened k path = some fcb) :
    Logs (openEnd { k with lastFd := k.lastFd + 1 } k.lastFd ufdOut (.ok fcb))
      (if Opens k path then [⟨true, ufdOut, 4⟩] else []) := by
  rw [openEnd, psAllocUfcb]
  by_cases hopens : Opens k path
  · obtain ⟨-, halloc, hfd⟩ := id hopens
    rw [if_pos hopens, if_neg (by rw [halloc]; nofun), if_pos hfd, pure_bind_eq]
    exact logs_emit _ (logs_pure _)
  · rw [if_neg hopens]
    cases halloc : k.ufcbAlloc with
    | false => exact logs_halt _
    | true =>
      have hfd : k.ufcbSet.find k.lastFd ≠ none := fun hfd =>
        hopens ⟨by rw [hopened]; rfl, halloc, hfd⟩
      rw [if_neg hfd]
      exact logs_halt _

/-- `sysent_open` from `fs_open` on. -/
theorem logs_fsOpen (path : VRange) (ufdOut : ℕ) :
    Logs (fsOpen { k with lastFd := k.lastFd + 1 } path >>=
        openEnd { k with lastFd := k.lastFd + 1 } k.lastFd ufdOut)
      (⟨false, path.vaddr, pathBytes k path⟩ ::
        if Opens k path then [⟨true, ufdOut, 4⟩] else []) := by
  rw [fsOpen, emit_bind_bind]
  refine logs_emit _ ?_
  change Logs (openResolved { k with lastFd := k.lastFd + 1 }
    (fsResolvePath k.tree k.refs k.curDir (k.path path.vaddr) path.size) >>= _) _
  have hno (h : opened k path = none) : ¬ Opens k path := fun hopens => by
    rw [Opens, h] at hopens
    cases hopens.1
  rw [opened.eq_def] at hno
  cases hans : fsResolvePath k.tree k.refs k.curDir (k.path path.vaddr) path.size with
  | error f =>
    rw [if_neg (hno (by rw [hans]))]
    exact logs_halt _
  | ok a =>
    obtain ⟨result, refs⟩ := a
    rcases result with e | _ | file
    · rw [if_neg (hno (by rw [hans]))]
      exact logs_pure _
    · rw [if_neg (hno (by rw [hans]))]
      exact logs_halt _
    · rw [openResolved]
      cases hop : k.openOp file with
      | error e =>
        rw [if_neg (hno (by simp only [hans, hop, Except.toOption]))]
        exact logs_pure _
      | ok fcb =>
        refine logs_openEnd k path fcb ufdOut ?_
        simp only [opened, hans, hop, Except.toOption]

theorem logs_openBody (path : VRange) (ufdOut : ℕ) :
    Logs (openBody k path ufdOut) ((UserCall.openPath path ufdOut).touches k) := by
  rw [openBody, psAllocFd, UserCall.touches]
  by_cases hmax : k.lastFd = 2 ^ 31 - 1
  · rw [if_pos hmax, if_neg fun h => h.2 hmax]
    exact logs_halt _
  rw [if_neg hmax, pure_bind_eq]
  by_cases hneg : k.lastFd < 0
  · rw [if_neg fun h => (Int.not_le.mpr hneg) h.1]
    simp only [if_pos hneg]
    exact logs_pure _
  · rw [if_pos ⟨Int.not_lt.mp hneg, hmax⟩]
    simp only [if_neg hneg]
    exact logs_fsOpen k path ufdOut

theorem logs_fsRead (fcb : Fcb) (dest size off bytesReadOut : ℕ) :
    Logs (fsRead fcb dest size off bytesReadOut) (readTouches fcb dest size off bytesReadOut) := by
  cases fcb with
  | rootfs => exact logs_emit _ (logs_pure _)
  | initcar szTotal =>
    rw [fsRead, khInitcarRead, readTouches, readBytes]
    by_cases hend : szTotal < (size + off) % 2 ^ 64
    · rw [if_pos hend, if_pos hend]
      exact logs_emit _ (logs_emit _ (logs_pure _))
    · rw [if_neg hend, if_neg hend]
      exact logs_emit _ (logs_emit _ (logs_pure _))

theorem logs_readBody (ufd : ℤ) (buf : VRange) (off bytesReadOut : ℕ) :
    Logs (readBody k ufd buf off bytesReadOut)
      ((UserCall.readFile ufd buf off bytesReadOut).touches k) := by
  rw [readBody, UserCall.touches, psLookupUfcb]
  cases k.ufcbSet.find ufd with
  | none => exact logs_pure _
  | some fcb => exact (logs_fsRead fcb buf.vaddr buf.size off bytesReadOut).bind_pure _

omit [DecidableEq ν] in
theorem logs_execChildBody (fileUfd : ℤ) : Logs (execChildBody k fileUfd) [] := by
  rw [execChildBody]
  cases psLookupUfcb k fileUfd with
  | none => exact logs_pure _
  | some fcb =>
    change Logs (execEnd k (psExec k.binldrs fcb k.pcbAlloc k.exec)) []
    cases psExec k.binldrs fcb k.pcbAlloc k.exec with
    | error f => exact logs_halt _
    | ok x => exact logs_pure _

theorem logs_body (call : UserCall) : Logs (call.body k) (call.touches k) := by
  cases call with
  | openPath path ufdOut => exact logs_openBody k path ufdOut
  | readFile ufd buf off bytesReadOut => exact logs_readBody k ufd buf off bytesReadOut
  | execChild fileUfd _ _ => exact logs_execChildBody k fileUfd

end Touches

/-! ## Locking twice -/

/-- **A call never locks a mutex that its own thread holds, unless its buffers collide.** -/
theorem perform_unblocked_iff (k : Kernel ν κ) (call : UserCall) :
    ((call.perform k).run entry).2.relocked = [] ↔ ¬ Collides k.env call.first call.second := by
  rw [call.perform_eq k]
  exact withBuffers_relocks_iff (logs_body k call)

/-- A process with an open file of 100 bytes, and no others to be found. -/
def oneFile (env : ProbeEnv) : Kernel ℕ ℕ where
  env := env
  mem := fun _ => 0
  tree := ⟨0, fun _ => .dir, fun _ _ => none, fun _ _ => .error ⟨.notFound, notFound_ne_ok⟩⟩
  refs := ⟨fun _ => 1, []⟩
  curDir := none
  openOp := fun _ => .error ⟨.notFound, notFound_ne_ok⟩
  ufcbAlloc := true
  lastFd := 1
  ufcbSet := OrdMap.empty.insert 0 (.initcar 100)
  binldrs := OrdMap.empty
  pcbAlloc := ⟨none, true, .ok, .ok⟩
  exec := ⟨.init fun _ => 0, 0, 0, []⟩

/-- One region of two pages, readable and writable. -/
def bothBuffers : ProbeEnv := ⟨OrdMap.empty.insert 0x1000 ⟨0, 0x2000, 0x27⟩, fun _ => none, 0⟩

/-- A read whose two buffers are in one region: the second probe locks the mutex that the first one
has locked. -/
theorem sysentRead_blocksItself :
    ((sysentRead (oneFile bothBuffers) 0 ⟨0x1000, 16⟩ 0 0x2000).run entry).2.relocked =
      [.area 0x1000] := rfl

/-! ## Accesses -/

/-- The `n` bytes from `addr` on are granted. -/
def AllGranted (t : OrdMap ℕ Vmr) (write : Bool) (addr n : ℕ) : Prop :=
  ∀ i < n, Granted t write ((addr + i) % 2 ^ 64)

/-- **Every access is granted**, byte by byte. -/
def Safe (t : OrdMap ℕ Vmr) (log : List Access) : Prop :=
  ∀ a ∈ log, AllGranted t a.write a.addr a.len

/-- The byte is one that the probe of `b` answers for: `b` is in the user half, and the byte is in
it and below the limit. -/
def Covered (b : VRange) (x : ℕ) : Prop :=
  isUserSpace b = true ∧ b.vaddr ≤ x ∧ x < probeLimit b

/-- The first `n` bytes at `b` are granted, but for those that the probe of `b` answers for. -/
def RestGranted (t : OrdMap ℕ Vmr) (write : Bool) (b : VRange) (n : ℕ) : Prop :=
  ∀ i < n, ¬ Covered b ((b.vaddr + i) % 2 ^ 64) → Granted t write ((b.vaddr + i) % 2 ^ 64)

/-- **The condition on a call** whose buffers are accepted. -/
def UserCall.Fits : UserCall → Prop
  | .openPath path ufdOut =>
    HasFd k → RestGranted k.env.vmrTree false path (pathBytes k path) ∧
      (Opens k path → RestGranted k.env.vmrTree true ⟨ufdOut, 4⟩ 4)
  | .readFile ufd buf off bytesReadOut =>
    ∀ fcb, k.ufcbSet.find ufd = some fcb →
      AllGranted k.env.vmrTree true buf.vaddr (readBytes fcb buf.size off) ∧
        RestGranted k.env.vmrTree true ⟨bytesReadOut, 8⟩ 8
  | .execChild _ _ _ => True

section Safety

variable {k : Kernel ν κ} {t : OrdMap ℕ Vmr} {env : ProbeEnv} {b : VRange} {required : UInt32}

theorem safe_nil : Safe t [] := nofun

theorem safe_cons {a : Access} {l : List Access} :
    Safe t (a :: l) ↔ AllGranted t a.write a.addr a.len ∧ Safe t l := forall_mem_cons

theorem safe_singleton {a : Access} : Safe t [a] ↔ AllGranted t a.write a.addr a.len :=
  forall_mem_singleton

/-- **What a probe leaves to ask for.** -/
theorem allGranted_iff {write : Bool} (h : Accepts env b required)
    (hreq : hasFlag required (right write) = true) (n : ℕ) :
    AllGranted env.vmrTree write b.vaddr n ↔ RestGranted env.vmrTree write b n := by
  refine ⟨fun hall i hi _ => hall i hi, fun hrest i hi => ?_⟩
  by_cases hcov : Covered b ((b.vaddr + i) % 2 ^ 64)
  · exact h.covers hcov.1 hreq hcov.2.1 hcov.2.2
  · exact hrest i hi hcov

theorem safe_open_iff {path : VRange} {ufdOut : ℕ} (hpath : Accepts k.env path MM_PAGE_READ)
    (hout : Accepts k.env ⟨ufdOut, 4⟩ MM_PAGE_WRITE) :
    Safe k.env.vmrTree ((UserCall.openPath path ufdOut).touches k) ↔
      (UserCall.openPath path ufdOut).Fits k := by
  rw [UserCall.touches, UserCall.Fits, ← allGranted_iff hpath (by decide),
    ← allGranted_iff hout (by decide)]
  by_cases hfd : HasFd k
  · rw [if_pos hfd, safe_cons, imp_iff_right hfd]
    refine and_congr_right fun _ => ?_
    by_cases hopens : Opens k path
    · rw [if_pos hopens, safe_singleton, imp_iff_right hopens]
    · rw [if_neg hopens]
      exact iff_of_true safe_nil fun h => absurd h hopens
  · rw [if_neg hfd]
    exact iff_of_true safe_nil fun h => absurd h hfd

theorem safe_read_iff {ufd : ℤ} {buf : VRange} {off bytesReadOut : ℕ}
    (hout : Accepts k.env ⟨bytesReadOut, 8⟩ MM_PAGE_WRITE) :
    Safe k.env.vmrTree ((UserCall.readFile ufd buf off bytesReadOut).touches k) ↔
      (UserCall.readFile ufd buf off bytesReadOut).Fits k := by
  rw [UserCall.touches, UserCall.Fits, ← allGranted_iff hout (by decide)]
  cases k.ufcbSet.find ufd with
  | none => exact iff_of_true safe_nil nofun
  | some fcb =>
    simp only [Option.some.injEq, forall_eq']
    cases fcb with
    | rootfs => exact safe_singleton.trans (and_iff_right nofun).symm
    | initcar szTotal => exact safe_cons.trans (and_congr_right fun _ => safe_singleton)

theorem safe_touches_iff {call : UserCall} (h : BothAccepted k.env call.first call.second) :
    Safe k.env.vmrTree (call.touches k) ↔ call.Fits k := by
  cases call with
  | openPath path ufdOut => exact safe_open_iff h.1 h.2
  | readFile ufd buf off bytesReadOut => exact safe_read_iff h.2
  | execChild => exact iff_of_true safe_nil trivial

end Safety

/-- **A call touches granted bytes only, just if it fits**, where its body is reached at all. -/
theorem perform_safe_iff (k : Kernel ν κ) (call : UserCall) :
    Safe k.env.vmrTree ((call.perform k).run entry).2.log ↔
      (BothAccepted k.env call.first call.second → call.Fits k) := by
  rw [call.perform_eq k]
  by_cases h : BothAccepted k.env call.first call.second
  · rw [(withBuffers_log (logs_body k call)).1 h, imp_iff_right h]
    exact safe_touches_iff h
  · rw [(withBuffers_log (logs_body k call)).2 h]
    exact iff_of_true safe_nil fun h' => absurd h' h

/-- A page that may only be read and one that may be written, and the kernel half mapped. -/
def readOnlyPage : ProbeEnv where
  vmrTree := (OrdMap.empty.insert 0x1000 ⟨0, 0x1000, 0x23⟩).insert 0x2000 ⟨1, 0x1000, 0x27⟩
  getmap := fun _ => some (MM_PAGE_MAPPED ||| MM_PAGE_READ)
  pgAccess := 0

/-- A read stores the file in the region that may only be read, and an open reads a path in the
kernel half. -/
theorem calls_touchUngranted : ¬ Safe readOnlyPage.vmrTree
        ((sysentRead (oneFile readOnlyPage) 0 ⟨0x1000, 16⟩ 0 0x2000).run entry).2.log ∧
      ¬ Safe readOnlyPage.vmrTree
        ((sysentOpen (oneFile readOnlyPage) ⟨0xffff800000000000, 4⟩ 0x2000).run entry).2.log := by
  constructor
  · intro hsafe
    obtain ⟨-, v, hv, hle, hlt, hright⟩ := hsafe ⟨true, 0x1000, 16⟩ (by decide) 0 (by decide)
    have hentries : readOnlyPage.vmrTree.entries =
        [(0x1000, ⟨0, 0x1000, 0x23⟩), (0x2000, ⟨1, 0x1000, 0x27⟩)] := rfl
    rw [hentries, mem_pair] at hv
    rcases hv with rfl | rfl
    · exact absurd hright (by decide)
    · exact absurd hle (by decide)
  · intro hsafe
    obtain ⟨huser, -⟩ := hsafe ⟨false, 0xffff800000000000, 1⟩ (by decide) 0 (by decide)
    exact absurd huser (by decide)

end Pbos.Syscall
