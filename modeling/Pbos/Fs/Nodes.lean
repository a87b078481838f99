import Pbos.Fs.File

/-!
# Fs/Nodes — how nodes go and how they are mounted

A node is constructed in memory of `ki_fs_filename_allocator` and lives while it is referred to.
`ki_destroy_fnode` gives it back to `ki_fs_fnode_allocator`, and no case of its `switch` ends with a
`break`: behind a file comes the case for directories, which reads the node that was just freed, and
behind a directory the panic for unknown types.  So calls are right exactly as long as none drops
a last reference (`destroys_iff`).

`fs_mount_file` enters the node in its own subnodes instead of its parent's and leaves its `parent`
null, which `fs_unmount_file` follows: only a call that fails is right (`mounts_iff`).
-/

namespace Pbos.Fs

variable {ν φ : Type} [DecidableEq ν]

/-! ## The life of a node -/

/-- The allocators that nodes come from or go to. -/
inductive FsAllocator
  | filename | fnode

structure Fnode (φ : Type) where
  fileType : FileType
  fs : φ
  refCount : ℕ

/-- The nodes there are, the calls of `destroy` and the memory given back. -/
structure Fnodes (ν φ : Type) where
  node : ν → Option (Fnode φ)
  destroyed : List (φ × ν)
  released : List (FsAllocator × ν)

namespace Fnodes

variable (s : Fnodes ν φ) (x : ν)

/-- Reading a node. -/
def get : Except Fault (Fnode φ) := (s.node x).elim (.error .undefined) .ok

def set (n : Fnode φ) : Fnodes ν φ := { s with node := Function.update s.node x (some n) }

/-- `fs_ref_fnode(fnode)`. -/
def fsRefFnode : Except Fault (Fnodes ν φ) := do
  let n ← s.get x
  .ok (s.set x { n with refCount := n.refCount + 1 })

/-- The body of `fs_alloc_file_fnode` and `fs_alloc_dir_fnode`, where the allocator yields `p`; the
caller holds the first reference. -/
def allocFnode (ty : FileType) (fs : φ) (p : Option ν) : KmResult × Fnodes ν φ :=
  match p with
  | none => (.noMem, s)
  | some x => (.ok, s.set x ⟨ty, fs, 1⟩)

def fsAllocFileFnode := s.allocFnode .file

def fsAllocDirFnode := s.allocFnode .dir

/-- The node's `destroy` operation, and then its memory goes to `a`. -/
def release (a : FsAllocator) : Except Fault (Fnodes ν φ) := do
  let n ← s.get x
  .ok ⟨Function.update s.node x none, s.destroyed ++ [(n.fs, x)], s.released ++ [(a, x)]⟩

/-- `ki_destroy_fnode(fnode)`: each case falls through to the next. -/
def kiDestroyFnode : Except Fault (Fnodes ν φ) := do
  let n ← s.get x
  let s ← (if n.fileType = .file then s.release x .fnode else .ok s)
  let _ ← (if n.fileType = .file ∨ n.fileType = .dir then s.release x .fnode else .ok s)
  .error (.panic "Unknown file node type, panicking" [])

/-- **What it is for**: the memory goes back where it came from. -/
def destroyFnode : Except Fault (Fnodes ν φ) := s.release x .filename

variable (destroy : Fnodes ν φ → ν → Except Fault (Fnodes ν φ))

/-- `fs_unref_fnode(fnode)`, where `destroy` destroys a node. -/
def fsUnrefFnode : Except Fault (Fnodes ν φ) := do
  let n ← s.get x
  let s := s.set x { n with refCount := n.refCount - 1 }
  if n.refCount - 1 = 0 then destroy s x else .ok s

end Fnodes

open Fnodes

inductive FnodeCall (ν φ : Type)
  | allocFile (fs : φ) (p : Option ν)
  | allocDir (fs : φ) (p : Option ν)
  | ref (x : ν)
  | unref (x : ν)

def FnodeCall.exec (destroy : Fnodes ν φ → ν → Except Fault (Fnodes ν φ)) (s : Fnodes ν φ) :
    FnodeCall ν φ → Except Fault (Fnodes ν φ)
  | .allocFile fs p => .ok (s.fsAllocFileFnode fs p).2
  | .allocDir fs p => .ok (s.fsAllocDirFnode fs p).2
  | .ref x => s.fsRefFnode x
  | .unref x => s.fsUnrefFnode x destroy

variable {s s' : Fnodes ν φ} {c : FnodeCall ν φ} {calls : List (FnodeCall ν φ)}

/-- Against what a call has to come to, `s'`: it does that and destroys no node, or it ends in a
fault where a node had to be destroyed. -/
def Splits (s s' : Fnodes ν φ) (r : Except Fault (Fnodes ν φ)) : Prop :=
  r = .ok s' ∧ s'.destroyed = s.destroyed ∨
    (∀ s₂, r ≠ .ok s₂) ∧ s.destroyed.length < s'.destroyed.length

/-- One call. -/
theorem splits_exec (h : c.exec destroyFnode s = .ok s') :
    Splits s s' (c.exec kiDestroyFnode s) := by
  cases c with
  | allocFile fs p | allocDir fs p =>
    refine .inl ⟨h, ?_⟩
    cases h
    cases p <;> rfl
  | ref x =>
    refine .inl ⟨h, ?_⟩
    obtain ⟨n, -, h⟩ := of_bind h
    cases h
    rfl
  | unref x =>
    obtain ⟨n, hn, h⟩ := of_bind h
    by_cases hlast : n.refCount - 1 = 0
    · rw [if_pos hlast] at h
      obtain ⟨m, -, h⟩ := of_bind h
      cases h
      refine .inr ⟨fun s₂ h₂ => ?_, by simp [Fnodes.set]⟩
      obtain ⟨n', hn', h₂⟩ := of_bind h₂
      cases hn.symm.trans hn'
      rw [if_pos hlast] at h₂
      obtain ⟨_, -, h₂⟩ := of_bind h₂
      obtain ⟨_, -, h₂⟩ := of_bind h₂
      obtain ⟨_, -, h₂⟩ := of_bind h₂
      cases h₂
    · rw [if_neg hlast] at h
      cases h
      exact .inl ⟨bind_eq_ok_iff.mpr ⟨n, hn, if_neg hlast⟩, rfl⟩

/-- Any number of calls. -/
theorem splits_foldlM (h : calls.foldlM (FnodeCall.exec destroyFnode) s = .ok s') :
    Splits s s' (calls.foldlM (FnodeCall.exec kiDestroyFnode) s) := by
  induction calls generalizing s with
  | nil =>
    cases h
    exact .inl ⟨rfl, rfl⟩
  | cons c calls ih =>
    obtain ⟨s₁, hc, h⟩ := of_bind h
    obtain ⟨hok, heq⟩ | ⟨hne, hlt⟩ := splits_exec hc
    · have hrun : (c :: calls).foldlM (FnodeCall.exec kiDestroyFnode) s =
          calls.foldlM (FnodeCall.exec kiDestroyFnode) s₁ := by rw [List.foldlM_cons, hok]; rfl
      rw [hrun, Splits, ← heq]
      exact ih h
    · refine .inr ⟨fun s₂ h₂ => ?_, ?_⟩
      · obtain ⟨s₃, hc₃, -⟩ := of_bind h₂
        exact hne s₃ hc₃
      · obtain ⟨-, heq⟩ | ⟨-, hlt'⟩ := ih h
        · rwa [heq]
        · exact Nat.lt_trans hlt hlt'

/-- **The calls do what they have to exactly if no last reference is dropped.** -/
theorem destroys_iff (h : calls.foldlM (FnodeCall.exec destroyFnode) s = .ok s') :
    calls.foldlM (FnodeCall.exec kiDestroyFnode) s = .ok s' ↔ s'.destroyed = s.destroyed := by
  obtain ⟨hok, heq⟩ | ⟨hne, hlt⟩ := splits_foldlM h
  · exact iff_of_true hok heq
  · exact iff_of_false (hne s') fun heq => Nat.ne_of_lt hlt (heq ▸ rfl)

def noFnodes : Fnodes ℕ Unit := ⟨fun _ => none, [], []⟩

/-- A directory that keeps one of two references. -/
theorem destroys_iff_kept : ∃ s', [.allocDir () (some 0), .ref 0, .unref 0].foldlM
    (FnodeCall.exec kiDestroyFnode) noFnodes = .ok s' := by
  refine ⟨?_, (destroys_iff ?_).mpr ?_⟩
  rotate_left
  · rfl
  · rfl

/-- The last reference to a file, and to a directory. -/
theorem kiDestroyFnode_falls_through :
    [.allocFile () (some 0), .unref 0].foldlM (FnodeCall.exec kiDestroyFnode) noFnodes =
      .error .undefined ∧
    [.allocDir () (some 0), .unref 0].foldlM (FnodeCall.exec kiDestroyFnode) noFnodes =
      .error (.panic "Unknown file node type, panicking" []) :=
  ⟨rfl, rfl⟩

/-! ## Mounting -/

/-- The nodes as mounting sees them, with the entries of each directory's map. -/
structure Dirs (ν : Type) where
  root : ν
  fileType : ν → FileType
  subnodes : ν → List (Name × ν)
  subnode : ν → Name → Except Failure ν
  parent : ν → Option ν
  filename : ν → Name

/-- What a lookup finds; the counts play no part in that. -/
def Dirs.child (d : Dirs ν) (n : Option ν) (name : Name) : Except Failure ν :=
  (fsChildOf ⟨d.root, d.fileType, fun n name => (d.subnodes n).lookup name, d.subnode⟩
    ⟨fun _ => 0, []⟩ n name).1

/-- What a call meets: `shrink_buckets` and `insert` on the map, and the parent's file system. -/
structure MountEnv (ν : Type) where
  shrinks : Bool
  inserts : Bool
  premount : ν → ν → KmResult
  unmountCleanup : ν → KmResult

variable (env : MountEnv ν) (parent file : ν) (d : Dirs ν) (r : RefCount ν)

/-- `fs_mount_file(parent, file)`. -/
def fsMountFile : KmResult × Dirs ν × RefCount ν :=
  if d.fileType file ≠ .dir then (.unsupportedOperation, d, r)
  else if d.subnodes file ≠ [] then (.dirNotEmpty, d, r)
  else if !env.shrinks then (.noMem, d, r)
  else if env.premount parent file ≠ .ok then (env.premount parent file, d, r)
  else if !env.inserts then (.noMem, d, Fs.fsUnrefFnode (Fs.fsRefFnode r file) file)
  else (.ok, { d with subnodes := Function.update d.subnodes file [(d.filename file, file)] },
    Fs.fsRefFnode r file)

/-- `fs_unmount_file(file)`. -/
def fsUnmountFile : Except Fault (KmResult × Dirs ν × RefCount ν) :=
  match d.parent file with
  | none => .error .nullDeref
  | some p =>
    let rest := (d.subnodes p).filter fun e => e.1 ≠ d.filename file
    if env.unmountCleanup file ≠ .ok then .ok (env.unmountCleanup file, d, r)
    else .ok (.ok, { d with subnodes := Function.update d.subnodes p rest },
      reset r ((d.subnodes p).lookup (d.filename file)))

/-- **What mounting has to do**: the parent leads to the node, and unmounting undoes that; a call
that fails changes nothing. -/
def Mounts : KmResult × Dirs ν × RefCount ν → Prop
  | (.ok, d', r') => d'.child (some parent) (d.filename file) = .ok file ∧
    (∀ n name, (n, name) ≠ (some parent, d.filename file) → d'.child n name = d.child n name) ∧
    ∃ d'' r'', fsUnmountFile env file d' r' = .ok (.ok, d'', r'') ∧ d''.child = d.child ∧
      r''.count = r.count
  | (_, d', r') => d'.child = d.child ∧ r'.count = r.count

/-- **What mounting cannot do without**: an empty directory, the consent of the file system, and the
memory for an entry. -/
structure Mountable : Prop where
  dir : d.fileType file = .dir
  empty : d.subnodes file = []
  shrinks : env.shrinks
  premount : env.premount parent file = .ok
  inserts : env.inserts

/-- **Mounting is right exactly if it is not possible**, for a node that is not in the tree. -/
theorem mounts_iff (hparent : d.parent file = none) :
    Mounts env parent file d r (fsMountFile env parent file d r) ↔
      ¬ Mountable env parent file d := by
  have hfail : ∀ {res : KmResult} {r' : RefCount ν}, res ≠ .ok → r'.count = r.count →
      Mounts env parent file d r (res, d, r') := fun {res r'} hne hr' => by
    cases res <;> first | exact ⟨rfl, hr'⟩ | exact (hne rfl).elim
  unfold fsMountFile
  split_ifs with hdir hempty hshrinks hpremount hinserts
  · exact iff_of_true (hfail nofun rfl) fun h => hdir h.dir
  · exact iff_of_true (hfail nofun rfl) fun h => hempty h.empty
  · exact iff_of_true (hfail nofun rfl) fun h => by simp [h.shrinks] at hshrinks
  · exact iff_of_true (hfail hpremount rfl) fun h => hpremount h.premount
  · refine iff_of_true (hfail nofun ?_) fun h => by simp [h.inserts] at hinserts
    simp [Fs.fsUnrefFnode, Fs.fsRefFnode, RefCount.drop, RefCount.acquire]
  · refine iff_of_false ?_ fun h => h ⟨not_not.mp hdir, not_not.mp hempty, by simpa using hshrinks,
      not_not.mp hpremount, by simpa using hinserts⟩
    rintro ⟨_, _, _, _, hunmount, _⟩
    simp [fsUnmountFile, hparent] at hunmount

/-- A directory `1` with the name `a`, to be mounted in the directory `0`. -/
def bareDirs : Dirs ℕ where
  root := 0
  fileType _ := .dir
  subnodes _ := []
  subnode _ _ := .error ⟨.notFound, notFound_ne_ok⟩
  parent _ := none
  filename n := if n = 1 then [97] else []

def freeEnv : MountEnv ℕ := ⟨true, true, fun _ _ => .ok, fun _ => .ok⟩

/-- Without memory for the entry. -/
theorem mounts_iff_noMem : Mounts { freeEnv with inserts := false } 0 1 bareDirs ⟨fun _ => 1, []⟩
    (fsMountFile { freeEnv with inserts := false } 0 1 bareDirs ⟨fun _ => 1, []⟩) :=
  (mounts_iff _ 0 1 bareDirs _ rfl).mpr fun h => Bool.noConfusion h.inserts

/-- The call succeeds; then the node is its own child, and not its parent's, and it cannot be
unmounted. -/
theorem fsMountFile_misplaces : ∃ d r,
    fsMountFile freeEnv 0 1 bareDirs ⟨fun _ => 1, []⟩ = (.ok, d, r) ∧
    d.child (some 0) [97] = .error ⟨.notFound, by decide⟩ ∧ d.child (some 1) [97] = .ok 1 ∧
    fsUnmountFile freeEnv 1 d r = .error .nullDeref :=
  ⟨_, _, rfl, rfl, rfl, rfl⟩

end Pbos.Fs
