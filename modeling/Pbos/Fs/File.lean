import Pbos.Km.Panic
import Pbos.Lib.RefCount

/-!
# Fs/File — resolving a path

`fs_resolve_path` scans the bytes of a path with two counted pointers, `file` and `new_file`, and a
pointer behind the last divider.  The components of the path are the non-empty pieces between the
dividers, and the scan computes the fold of `fs_child_of` over them: `scanFrom_of_divider` for the
part behind a divider, `scanFrom_of_start` from the beginning.  An empty path is the exception
(`fsResolvePath_eq_fold_iff`): no pointer was ever set, and the answer is a null node.

Both lemmas also account for the references: each pointer holds one on its node, and what is left at
the end is the one on the node returned (`fsResolvePath_refs`).  `bytesRead` counts the bytes of the
path that a call reads; the answer depends on no others (`fsResolvePath_congr`).
-/

namespace Pbos.Fs

open RefCount List

variable {ν : Type} [DecidableEq ν]

/-- `fs_filetype_t`. -/
inductive FileType
  | file | dir | link | blkdev | chardev | pipe | socket
  deriving DecidableEq, Repr

abbrev Name := List UInt8

/-- A result that `KM_FAILED` holds of. -/
abbrev Failure := { r : KmResult // r ≠ .ok }

theorem notFound_ne_ok : KmResult.notFound ≠ .ok := nofun

/-- The nodes as a call sees them: the root directory, the type of each node, the subnodes a
directory has in memory, and the `subnode` operation of its file system. -/
structure FileTree (ν : Type) where
  root : ν
  fileType : ν → FileType
  subnodes : ν → Name → Option ν
  subnode : ν → Name → Except Failure ν

variable (t : FileTree ν) (s : RefCount ν) (curDir : Option ν) (path : ℕ → UInt8)

/-- `fs_ref_fnode(fnode)`. -/
def fsRefFnode (n : ν) : RefCount ν := s.acquire n

/-- `fs_unref_fnode(fnode)`. -/
def fsUnrefFnode (n : ν) : RefCount ν := s.drop n

/-- `fs_child_of(file, filename, filename_len, file_out)`. -/
def fsChildOf (file : Option ν) (name : Name) : Except Failure ν × RefCount ν :=
  match file with
  | none => (.error ⟨.notFound, notFound_ne_ok⟩, s)
  | some f =>
    match t.fileType f with
    | .dir =>
      match t.subnodes f name with
      -- the iterator's value is copied to a counted pointer, which goes at the end of the block
      | some n => (.ok n, fsUnrefFnode (fsRefFnode (fsRefFnode s n) n) n)
      | none =>
        match t.subnode f name with
        | .ok n => (.ok n, fsRefFnode s n)
        | .error e => (.error e, s)
    | _ => (.error ⟨.unsupportedOperation, by decide⟩, s)

/-- `reset()` of a counted pointer. -/
def reset : Option ν → RefCount ν
  | none => s
  | some n => fsUnrefFnode s n

/-- The local variables of `fs_resolve_path`; `i` and `last_divider` are relative to `path`. -/
structure Cursor (ν : Type) where
  i : ℕ
  lastDivider : ℕ
  file : Option ν
  newFile : Option ν
  refs : RefCount ν

/-- What a call returns, and the counts it leaves. -/
structure Answer (ν : Type) where
  result : Except Failure (Option ν)
  refs : RefCount ν

/-- How the scan stops early. -/
inductive Stop (ν : Type)
  | fault (f : Fault)
  | ret (a : Answer ν)

/-- Leaving the function: `new_file` and then `file` go out of scope. -/
def Cursor.leave (c : Cursor ν) (r : Except Failure (Option ν)) : Answer ν :=
  ⟨r, reset (reset c.refs c.newFile) c.file⟩

/-- The bytes from `last_divider` up to `i`. -/
def Cursor.name (c : Cursor ν) : Name :=
  (List.range' c.lastDivider (c.i - c.lastDivider)).map path

/-- The lookup of the component between `last_divider` and `i`. -/
def lookup (c : Cursor ν) : Except (Stop ν) (Cursor ν) :=
  match c.file with
  | none => .error (.ret (c.leave (.error ⟨.notFound, notFound_ne_ok⟩)))
  | some f =>
    match fsChildOf t (reset c.refs c.newFile) (some f) (c.name path) with
    | (.error e, s) => .error (.ret ({ c with newFile := none, refs := s }.leave (.error e)))
    | (.ok n, s) => .ok { c with newFile := some n, refs := s }

/-- `file = new_file`; the copy takes a reference without looking at the pointer. -/
def assignFile (c : Cursor ν) : Except (Stop ν) (Cursor ν) :=
  match c.newFile with
  | none => .error (.fault .nullDeref)
  | some n => .ok { c with file := some n, refs := fsRefFnode (reset c.refs c.file) n }

/-- The case `'/'` of the scan. -/
def divider (c : Cursor ν) : Except (Stop ν) (Cursor ν) := do
  let c' ←
    if c.i - c.lastDivider = 0 then
      if c.lastDivider = 0 then
        .ok { c with newFile := some t.root, refs := fsRefFnode (reset c.refs c.newFile) t.root }
      else .ok c
    else lookup t path c
  assignFile { c' with lastDivider := c.i + 1 }

/-- The scan, with `k` bytes to go at most. -/
def scan : ℕ → Cursor ν → Except (Stop ν) (Cursor ν)
  | 0, c => .ok c
  | k + 1, c =>
    if path c.i = 47 then do
      let c' ← divider t path c
      scan k { c' with i := c'.i + 1 }
    else if path c.i = 0 then .ok c
    else scan k { c with i := c.i + 1 }

/-- How many bytes the scan reads. -/
def examined : ℕ → Cursor ν → ℕ
  | 0, _ => 0
  | k + 1, c =>
    if path c.i = 47 then
      match divider t path c with
      | .error _ => 1
      | .ok c' => examined k { c' with i := c'.i + 1 } + 1
    else if path c.i = 0 then 1
    else examined k { c with i := c.i + 1 } + 1

/-- From the label `end` on. -/
def conclude (c : Cursor ν) : Except (Stop ν) (Answer ν) := do
  let c' ← if c.i - c.lastDivider = 0 then .ok c else lookup t path c
  .ok ({ c' with newFile := none }.leave (.ok c'.newFile))

/-- Stopping early, by a fault or with an answer. -/
def settle : Except (Stop ν) (Answer ν) → Except Fault (Answer ν)
  | .error (.fault f) => .error f
  | .error (.ret a) => .ok a
  | .ok a => .ok a

/-- The answer of the rest of the call. -/
def scanFrom (k : ℕ) (c : Cursor ν) : Except Fault (Answer ν) :=
  settle (scan t path k c >>= conclude t path)

/-- `fs_resolve_path(cur_dir, path, path_len, file_out)`. -/
def fsResolvePath (pathLen : ℕ) : Except Fault (Answer ν) :=
  scanFrom t path pathLen
    { i := 0, lastDivider := 0, file := curDir, newFile := none,
      refs := curDir.elim s (fsRefFnode s) }

/-- How many bytes of the path a call reads. -/
def bytesRead (pathLen : ℕ) : ℕ :=
  examined t path pathLen
    { i := 0, lastDivider := 0, file := curDir, newFile := none,
      refs := curDir.elim s (fsRefFnode s) }

/-! ## Components -/

/-- The bytes the scan looks at: the first `len`, up to the first NUL. -/
def scanned (i len : ℕ) : List UInt8 :=
  ((List.range' i len).map path).takeWhile (· ≠ 0)

/-- **The components**: the non-empty pieces between the dividers. -/
def components (l : List UInt8) : List Name := (l.splitOn 47).filter (· ≠ [])

/-- **The fold of `fs_child_of`** over some components. -/
def resolveFrom (base : Option ν) (names : List Name) : Except Failure (Option ν) :=
  names.foldlM (fun f name => (fsChildOf t s f name).1.map some) base

/-- Without a divider there is one component, if any. -/
theorem components_of_not_mem {l : List UInt8} (h : 47 ∉ l) :
    components l = if l = [] then [] else [l] := by
  rw [components, List.splitOn_eq_singleton h]
  by_cases hl : l = [] <;> simp [hl]

/-- A divider ends a component. -/
theorem components_append {l : List UInt8} (h : 47 ∉ l) (r : List UInt8) :
    components (l ++ 47 :: r) = (if l = [] then [] else [l]) ++ components r := by
  rw [components, List.splitOn_append_cons_self_of_not_mem h]
  by_cases hl : l = [] <;> simp [hl, components]

section Scan

variable {t : FileTree ν} {s s₀ : RefCount ν} {p : ℕ → UInt8} {c : Cursor ν} {k : ℕ}
  {curDir : Option ν} {n : ν} {l : List UInt8}

theorem scanned_zero (i : ℕ) : scanned p i 0 = [] := rfl

theorem scanned_succ (i : ℕ) : scanned p i (k + 1) =
    if p i = 0 then [] else p i :: scanned p (i + 1) k := by
  rw [scanned, List.range'_succ]
  by_cases h : p i = 0 <;> simp [h, scanned]

/-! ## Looking a component up -/

/-- What `fs_child_of` finds does not depend on the counts. -/
theorem fsChildOf_fst (s s' : RefCount ν) (f : Option ν) (name : Name) :
    (fsChildOf t s f name).1 = (fsChildOf t s' f name).1 := by
  simp only [fsChildOf]
  repeat' split
  all_goals rfl

/-- Every node is referred to: one that no reference is left to has been destroyed. -/
def Live (s : RefCount ν) : Prop := ∀ n, 1 ≤ s.count n

/-- It takes one reference on the node it finds, and none if it finds none. -/
theorem fsChildOf_refs (hlive : Live s₀) {l : List ν} {f : Option ν} {name : Name}
    (h : Holds s₀ s l) :
    Holds s₀ (fsChildOf t s f name).2 ((fsChildOf t s f name).1.toOption.toList ++ l) := by
  simp only [fsChildOf]
  repeat' split
  · exact h
  · exact ((h.acquire _).acquire _).drop (hlive _)
  · exact h.acquire _
  · exact h
  · exact h

theorem holds_reset (hlive : Live s₀) {l : List ν} {p : Option ν}
    (h : Holds s₀ s (p.toList ++ l)) : Holds s₀ (reset s p) l := by
  cases p with
  | none => exact h
  | some n => exact h.drop (hlive n)

/-- Each of the two pointers holds a reference on its node. -/
def Balanced (s₀ : RefCount ν) (c : Cursor ν) : Prop :=
  Live s₀ → Holds s₀ c.refs (c.newFile.toList ++ c.file.toList)

/-- The lookup fails as `fs_child_of` does, and then no reference is left; or it puts the node found
into `new_file`. -/
theorem lookup_cases (hc : Balanced s₀ c) :
    (∃ e a, (fsChildOf t s₀ c.file (c.name p)).1 = .error e ∧
      lookup t p c = .error (.ret a) ∧ a.result = .error e ∧ (Live s₀ → Holds s₀ a.refs [])) ∨
    ∃ n s, (fsChildOf t s₀ c.file (c.name p)).1 = .ok n ∧
      lookup t p c = .ok { c with newFile := some n, refs := s } ∧
      Balanced s₀ { c with newFile := some n, refs := s } := by
  have hleave : ∀ {c : Cursor ν}, Balanced s₀ c → ∀ r, Live s₀ → Holds s₀ (c.leave r).refs [] := by
    intro c hc r hlive
    refine holds_reset hlive (holds_reset hlive ?_)
    rw [append_nil]
    exact hc hlive
  obtain ⟨i, d, file, newFile, refs⟩ := c
  cases file with
  | none => exact .inl ⟨_, _, rfl, rfl, rfl, hleave hc _⟩
  | some f =>
    generalize hname : Cursor.name p _ = name
    have hrefs : Live s₀ → Holds s₀ (fsChildOf t (reset refs newFile) (some f) name).2
        ((fsChildOf t (reset refs newFile) (some f) name).1.toOption.toList ++ [f]) :=
      fun hlive => fsChildOf_refs hlive (holds_reset hlive (hc hlive))
    rw [fsChildOf_fst s₀ (reset refs newFile), lookup]
    simp only [hname]
    cases hres : fsChildOf t (reset refs newFile) (some f) name with
    | mk r s =>
      rw [hres] at hrefs
      cases r with
      | error e =>
        exact .inl ⟨e, _, rfl, rfl, rfl, hleave (c := ⟨i, d, some f, none, s⟩) hrefs _⟩
      | ok n => exact .inr ⟨n, s, rfl, rfl, hrefs⟩

/-! ## The scan -/

/-- The references left by a call: one on the node it returns. -/
def kept : Except Failure (Option ν) → List ν
  | .ok r => r.toList
  | .error _ => []

/-- The call answers `r`, and the counts are right if they were. -/
def Answers (s₀ : RefCount ν) (x : Except Fault (Answer ν))
    (r : Except Failure (Option ν)) : Prop :=
  ∃ a, x = .ok a ∧ a.result = r ∧ (Live s₀ → Holds s₀ a.refs (kept r))

/-- **The end of the scan**: the last component is looked up, if there is one. -/
theorem conclude_answers (hc : Balanced s₀ c) (hscan : scan t p k c = .ok c) :
    Answers s₀ (scanFrom t p k c) (if c.name p = [] then .ok c.newFile
      else (fsChildOf t s₀ c.file (c.name p)).1.map some) := by
  have hname : c.name p = [] ↔ c.i - c.lastDivider = 0 := by
    simp [Cursor.name]
  have hdone : ∀ {c : Cursor ν}, Balanced s₀ c →
      Live s₀ → Holds s₀ ({ c with newFile := none }.leave (.ok c.newFile)).refs
        c.newFile.toList := by
    intro c hc hlive
    exact holds_reset hlive ((hc hlive).perm perm_append_comm)
  rw [scanFrom, hscan]
  change Answers s₀ (settle (conclude t p c)) _
  rw [conclude]
  by_cases hn : c.name p = []
  · rw [if_pos hn, if_pos (hname.mp hn)]
    exact ⟨_, rfl, rfl, hdone hc⟩
  · rw [if_neg hn, if_neg (hname.not.mp hn)]
    rcases lookup_cases hc with ⟨e, a, he, hl, ha, hh⟩ | ⟨n, s, he, hl, hb⟩
    · rw [he, hl]
      exact ⟨a, rfl, ha, hh⟩
    · rw [he, hl]
      exact ⟨_, rfl, rfl, hdone hb⟩

theorem resolveFrom_cons (base : Option ν) (name : Name) (names : List Name) :
    resolveFrom t s base (name :: names) =
      match (fsChildOf t s base name).1 with
      | .error e => .error e
      | .ok n => resolveFrom t s (some n) names := by
  rw [resolveFrom, List.foldlM_cons]
  cases (fsChildOf t s base name).1 <;> rfl

/-- The end of the scan, as the fold over what is left. -/
theorem conclude_answers_fold (hc : Balanced s₀ c) (hscan : scan t p k c = .ok c)
    (hname : 47 ∉ c.name p) (hnew : c.newFile = c.file ∨ c.name p ≠ []) :
    Answers s₀ (scanFrom t p k c) (resolveFrom t s₀ c.file (components (c.name p))) := by
  have h := conclude_answers hc hscan
  rw [components_of_not_mem hname]
  by_cases hn : c.name p = []
  · rw [if_pos hn, hnew.resolve_right (· hn)] at h
    rwa [if_pos hn]
  · rw [if_neg hn] at h
    rw [if_neg hn, resolveFrom_cons]
    cases hch : (fsChildOf t s₀ c.file (c.name p)).1 <;> rwa [hch] at h

/-! ### One byte -/

omit [DecidableEq ν] in
theorem name_advance (h : c.lastDivider ≤ c.i) :
    Cursor.name p { c with i := c.i + 1 } = c.name p ++ [p c.i] := by
  simp only [Cursor.name]
  rw [Nat.succ_sub h, List.range'_concat, map_append, Nat.one_mul, Nat.add_sub_cancel' h]
  rfl

theorem scan_nul (h : p c.i = 0) : scan t p (k + 1) c = .ok c := by
  rw [scan, if_neg (by rw [h]; decide), if_pos h]

theorem scanFrom_other (h : p c.i ≠ 47) (h0 : p c.i ≠ 0) :
    scanFrom t p (k + 1) c = scanFrom t p k { c with i := c.i + 1 } := by
  rw [scanFrom, scan, if_neg h, if_neg h0]
  rfl

theorem scanFrom_divider (h : p c.i = 47) :
    scanFrom t p (k + 1) c =
      match divider t p c with
      | .error e => settle (.error e)
      | .ok c' => scanFrom t p k { c' with i := c'.i + 1 } := by
  rw [scanFrom, scan, if_pos h]
  cases divider t p c <;> rfl

/-- `file = new_file` moves the reference of `file`. -/
theorem assignFile_eq (hc : Balanced s₀ c) (hn : c.newFile = some n) :
    ∃ s, assignFile c = .ok { c with file := some n, refs := s } ∧
      Balanced s₀ { c with file := some n, refs := s } := by
  refine ⟨fsRefFnode (reset c.refs c.file) n, by rw [assignFile, hn], fun hlive => ?_⟩
  have h := hc hlive
  rw [hn] at h
  simp only [hn]
  exact (holds_reset hlive (h.perm perm_append_comm)).acquire n

/-- **A divider**: the component before it is looked up; a leading one leads to the root, and a
repeated one changes nothing. -/
theorem divider_cases (hc : Balanced s₀ c) (hnew : c.lastDivider ≠ 0 → c.newFile ≠ none) :
    (∃ e a, c.name p ≠ [] ∧ (fsChildOf t s₀ c.file (c.name p)).1 = .error e ∧
      divider t p c = .error (.ret a) ∧ a.result = .error e ∧ (Live s₀ → Holds s₀ a.refs [])) ∨
    ∃ n s, divider t p c = .ok ⟨c.i, c.i + 1, some n, some n, s⟩ ∧
      Balanced s₀ ⟨c.i, c.i + 1, some n, some n, s⟩ ∧
      (c.name p = [] ∧ c.lastDivider = 0 ∧ n = t.root ∨
        c.name p = [] ∧ c.lastDivider ≠ 0 ∧ c.newFile = some n ∨
        c.name p ≠ [] ∧ (fsChildOf t s₀ c.file (c.name p)).1 = .ok n) := by
  have hname : c.name p = [] ↔ c.i - c.lastDivider = 0 := by simp [Cursor.name]
  rw [divider]
  by_cases hn : c.name p = []
  · rw [if_pos (hname.mp hn)]
    by_cases hd : c.lastDivider = 0
    · rw [if_pos hd]
      obtain ⟨s, hs, hb⟩ := assignFile_eq (c := ⟨c.i, c.i + 1, c.file, some t.root,
        fsRefFnode (reset c.refs c.newFile) t.root⟩)
        (fun hlive => (holds_reset hlive (hc hlive)).acquire t.root) rfl
      exact .inr ⟨t.root, s, hs, hb, .inl ⟨hn, hd, rfl⟩⟩
    · rw [if_neg hd]
      obtain ⟨n, hnf⟩ := Option.ne_none_iff_exists'.mp (hnew hd)
      obtain ⟨s, hs, hb⟩ := assignFile_eq (c := { c with lastDivider := c.i + 1 }) hc hnf
      simp only [hnf] at hs hb
      refine .inr ⟨n, s, ?_, hb, .inr (.inl ⟨hn, hd, hnf⟩)⟩
      change assignFile { c with lastDivider := c.i + 1 } = _
      rw [hnf]
      exact hs
  · rw [if_neg (hname.not.mp hn)]
    rcases lookup_cases hc with ⟨e, a, he, hl, ha, hh⟩ | ⟨n, s, he, hl, hb⟩
    · exact .inl ⟨e, a, hn, he, by rw [hl]; rfl, ha, hh⟩
    · obtain ⟨s', hs', hb'⟩ := assignFile_eq (c := ⟨c.i, c.i + 1, c.file, some n, s⟩) hb rfl
      exact .inr ⟨n, s', by rw [hl]; exact hs', hb', .inr (.inr ⟨hn, he⟩)⟩

/-- **At a divider** the rest is the fold from the child just looked up; without a name before it,
from the root or from where the last divider led. -/
theorem scanFrom_at_divider (hc : Balanced s₀ c) (hnew : c.lastDivider ≠ 0 → c.newFile ≠ none)
    (h : p c.i = 47)
    (hrest : ∀ n s, Balanced s₀ ⟨c.i + 1, c.i + 1, some n, some n, s⟩ →
      Answers s₀ (scanFrom t p k ⟨c.i + 1, c.i + 1, some n, some n, s⟩)
        (resolveFrom t s₀ (some n) (components (scanned p (c.i + 1) k)))) :
    Answers s₀ (scanFrom t p (k + 1) c)
      (if c.name p = [] then resolveFrom t s₀ (if c.lastDivider = 0 then some t.root else c.newFile)
          (components (scanned p (c.i + 1) k))
        else resolveFrom t s₀ c.file (c.name p :: components (scanned p (c.i + 1) k))) := by
  rw [scanFrom_divider h]
  rcases divider_cases hc hnew with
    ⟨e, a, hne, he, hdv, ha, hh⟩ | ⟨n, s, hdv, hb, ⟨hne, hd, rfl⟩ | ⟨hne, hd, hn⟩ | ⟨hne, he⟩⟩
  · rw [if_neg hne, resolveFrom_cons, he, hdv]
    exact ⟨a, rfl, ha, hh⟩
  · rw [if_pos hne, if_pos hd, hdv]
    exact hrest _ s hb
  · rw [if_pos hne, if_neg hd, hn, hdv]
    exact hrest n s hb
  · rw [if_neg hne, resolveFrom_cons, he, hdv]
    exact hrest n s hb

/-- **Behind a divider** both pointers are on one node, and the rest is the fold from it. -/
theorem scanFrom_of_divider (hc : Balanced s₀ c) (hfile : c.file = some n)
    (hnew : c.newFile = some n) (hd : c.lastDivider ≠ 0) (hle : c.lastDivider ≤ c.i)
    (hname : 47 ∉ c.name p) :
    Answers s₀ (scanFrom t p k c)
      (resolveFrom t s₀ (some n) (components (c.name p ++ scanned p c.i k))) := by
  induction k generalizing c n with
  | zero =>
    rw [scanned_zero, append_nil, ← hfile]
    exact conclude_answers_fold hc rfl hname (.inl (hnew.trans hfile.symm))
  | succ k ih =>
    rw [scanned_succ]
    by_cases h0 : p c.i = 0
    · rw [if_pos h0, append_nil, ← hfile]
      exact conclude_answers_fold hc (scan_nul h0) hname (.inl (hnew.trans hfile.symm))
    rw [if_neg h0]
    by_cases h : p c.i = 47
    · have hat := scanFrom_at_divider hc (fun _ => by rw [hnew]; nofun) h fun n s hb => by
        simpa [Cursor.name] using ih hb rfl rfl (Nat.succ_ne_zero _) (Nat.le_refl _)
      rw [hnew, hfile] at hat
      rw [h, components_append hname]
      split at hat
      · rename_i hn
        rwa [if_pos hn]
      · rename_i hn
        rwa [if_neg hn]
    · rw [scanFrom_other h h0]
      have hadv := name_advance (p := p) hle
      have hrest := ih (c := { c with i := c.i + 1 }) hc hfile hnew hd (Nat.le_succ_of_le hle)
        (by rw [hadv]; simpa [Ne.symm h] using hname)
      rwa [hadv, append_assoc] at hrest

/-- What the path stands for: the fold over its components from the root if it starts with a
divider, and from the current directory otherwise. -/
def target (t : FileTree ν) (s : RefCount ν) (curDir : Option ν) (l : List UInt8) :
    Except Failure (Option ν) :=
  resolveFrom t s (if l.head? = some 47 then some t.root else curDir) (components l)

theorem target_of_not_mem (h : 47 ∉ l) :
    target t s curDir l = resolveFrom t s curDir (components l) := by
  rw [target, if_neg fun e => h (mem_of_head? e)]

/-- A divider in front leads to the root; otherwise the piece before it is a child of the current
directory. -/
theorem target_append (h : 47 ∉ l) (r : List UInt8) : target t s curDir (l ++ 47 :: r) =
      if l = [] then resolveFrom t s (some t.root) (components r)
      else resolveFrom t s curDir (l :: components r) := by
  rw [target, components_append h]
  cases l with
  | nil => rfl
  | cons x l =>
    have hx : (x :: l ++ 47 :: r).head? ≠ some 47 := fun e =>
      h (Option.some.inj e ▸ mem_cons_self)
    rw [if_neg hx]
    rfl

theorem answers_of_stop (hc : Balanced s₀ c) (hfile : c.file = curDir) (hnew : c.newFile = none)
    (hname : 47 ∉ c.name p) (hscan : scan t p k c = .ok c) :
    Answers s₀ (scanFrom t p k c)
      (if c.name p = [] then .ok none else target t s₀ curDir (c.name p)) := by
  by_cases hn : c.name p = []
  · have h := conclude_answers hc hscan
    rw [if_pos hn, hnew] at h
    rwa [if_pos hn]
  · rw [if_neg hn, target_of_not_mem hname, ← hfile]
    exact conclude_answers_fold hc hscan hname (.inr hn)

/-- **Before the first divider** the current directory is the base. -/
theorem scanFrom_of_start (hc : Balanced s₀ c) (hfile : c.file = curDir) (hnew : c.newFile = none)
    (hd : c.lastDivider = 0) (hname : 47 ∉ c.name p) :
    Answers s₀ (scanFrom t p k c) (if c.name p ++ scanned p c.i k = [] then .ok none
        else target t s₀ curDir (c.name p ++ scanned p c.i k)) := by
  induction k generalizing c with
  | zero =>
    rw [scanned_zero, append_nil]
    exact answers_of_stop hc hfile hnew hname rfl
  | succ k ih =>
    rw [scanned_succ]
    by_cases h0 : p c.i = 0
    · rw [if_pos h0, append_nil]
      exact answers_of_stop hc hfile hnew hname (scan_nul h0)
    rw [if_neg h0]
    by_cases h : p c.i = 47
    · have hat := scanFrom_at_divider hc (absurd hd) h fun n s hb => by
        simpa [Cursor.name] using scanFrom_of_divider (t := t) (k := k) hb rfl rfl
      rw [if_pos hd, hfile] at hat
      rwa [h, if_neg (by simp), target_append hname]
    · rw [scanFrom_other h h0]
      have hadv := name_advance (p := p) (hd ▸ Nat.zero_le c.i : c.lastDivider ≤ c.i)
      have hrest := ih (c := { c with i := c.i + 1 }) hc hfile hnew hd
        (by rw [hadv]; simpa [Ne.symm h] using hname)
      rwa [hadv, append_assoc] at hrest

/-! ## The whole call -/

/-- **What `fs_resolve_path` answers**, and the one reference it leaves. -/
theorem fsResolvePath_answers (t : FileTree ν) (s : RefCount ν) (curDir : Option ν)
    (p : ℕ → UInt8) (pathLen : ℕ) :
    Answers s (fsResolvePath t s curDir p pathLen) (if scanned p 0 pathLen = [] then .ok none
        else target t s curDir (scanned p 0 pathLen)) := by
  refine scanFrom_of_start
    (fun _ => ?_) rfl rfl rfl (by simp [Cursor.name])
  cases curDir with
  | none => exact Holds.refl s
  | some d => exact (Holds.refl s).acquire d

theorem resolveFrom_ne_none {base : Option ν} {names : List Name}
    (h : base ≠ none ∨ names ≠ []) : resolveFrom t s base names ≠ .ok none := by
  induction names generalizing base with
  | nil =>
    intro e
    exact (h.resolve_right (· rfl)) (Except.ok.inj e)
  | cons name names ih =>
    rw [resolveFrom_cons]
    cases (fsChildOf t s base name).1 with
    | error e => exact nofun
    | ok n => exact ih (.inl nofun)

theorem components_ne_nil {x : UInt8} (h : x ≠ 47) : components (x :: l) ≠ [] := by
  by_cases hm : 47 ∈ l
  · obtain ⟨A, B, rfl, hA⟩ := eq_append_cons_of_mem hm
    rw [← cons_append, components_append (by simpa [h.symm] using hA)]
    simp
  · rw [components_of_not_mem (by simpa [h.symm] using hm)]
    simp

/-- A path with a byte to scan starts with a divider or has a component. -/
theorem target_ne_none (h : l ≠ []) : target t s curDir l ≠ .ok none := by
  refine resolveFrom_ne_none ?_
  obtain ⟨x, l, rfl⟩ := exists_cons_of_ne_nil h
  by_cases hd : x = 47
  · exact .inl (by rw [hd]; nofun)
  · exact .inr (components_ne_nil hd)

theorem scanned_eq_nil_iff {len : ℕ} : scanned p 0 len = [] ↔ ¬ (0 < len ∧ p 0 ≠ 0) := by
  cases len with
  | zero => simp [scanned_zero]
  | succ k =>
    rw [scanned_succ]
    by_cases h : p 0 = 0 <;> simp [h]

/-! ## The bytes that are read -/

section Examined

variable {q : ℕ → UInt8} {c' : Cursor ν}

/-- A component lies below `i`. -/
theorem lookup_congr (h : ∀ j < c.i, p j = q j) : lookup t q c = lookup t p c := by
  have hname : c.name q = c.name p := map_congr_left fun j hj => by
    obtain ⟨hle, hlt⟩ := mem_range'_1.mp hj
    exact (h j (by omega)).symm
  rw [lookup, lookup, hname]

theorem divider_congr (h : ∀ j < c.i, p j = q j) : divider t q c = divider t p c := by
  rw [divider, divider, lookup_congr h]

theorem i_of_lookup (h : lookup t p c = .ok c') : c'.i = c.i := by
  simp only [lookup] at h
  split at h
  · cases h
  · split at h
    · cases h
    · rw [← Except.ok.inj h]

theorem i_of_assignFile (h : assignFile c = .ok c') : c'.i = c.i := by
  simp only [assignFile] at h
  split at h
  · cases h
  · rw [← Except.ok.inj h]

theorem i_of_divider (h : divider t p c = .ok c') : c'.i = c.i := by
  have hend {x : Except (Stop ν) (Cursor ν)} (hx : ∀ c₁, x = .ok c₁ → c₁.i = c.i)
      (h : (x >>= fun c₁ => assignFile { c₁ with lastDivider := c.i + 1 }) = .ok c') :
      c'.i = c.i := by
    obtain ⟨c₁, hc₁, hassign⟩ := of_bind h
    exact (i_of_assignFile hassign).trans (hx c₁ hc₁)
  rw [divider] at h
  split at h
  · split at h
    · exact hend (fun c₁ hc₁ => by rw [← Except.ok.inj hc₁]) h
    · exact hend (fun c₁ hc₁ => by rw [← Except.ok.inj hc₁]) h
  · exact hend (fun c₁ hc₁ => i_of_lookup hc₁) h

theorem examined_pos : 0 < examined t p (k + 1) c := by
  rw [examined]
  split
  · split
    · exact Nat.one_pos
    · exact Nat.succ_pos _
  · split
    · exact Nat.one_pos
    · exact Nat.succ_pos _

/-- **The scan depends on no other byte**, and ends behind none. -/
theorem scan_congr (h : ∀ j < c.i + examined t p k c, p j = q j) : scan t q k c = scan t p k c ∧
      ∀ c', scan t p k c = .ok c' → c'.i ≤ c.i + examined t p k c := by
  induction k generalizing c with
  | zero => exact ⟨rfl, fun c' hc' => Nat.le_of_eq (congrArg Cursor.i (Except.ok.inj hc').symm)⟩
  | succ k ih =>
    have hi : q c.i = p c.i := (h c.i (Nat.lt_add_of_pos_right examined_pos)).symm
    by_cases hdiv : p c.i = 47
    · have hd' : divider t q c = divider t p c :=
        divider_congr fun j hj => h j (Nat.lt_add_right _ hj)
      simp only [scan, examined, hi, if_pos hdiv, hd'] at h ⊢
      cases hd : divider t p c with
      | error e => exact ⟨rfl, nofun⟩
      | ok c₁ =>
        simp only [hd, ← i_of_divider hd] at h ⊢
        rw [← Nat.add_assoc, Nat.add_right_comm] at h ⊢
        exact ih h
    · by_cases hnul : p c.i = 0
      · simp only [scan, hi, if_neg hdiv, if_pos hnul]
        exact ⟨trivial, fun c' hc' => by
          rw [← Except.ok.inj hc']
          exact Nat.le_add_right _ _⟩
      · simp only [scan, examined, hi, if_neg hdiv, if_neg hnul] at h ⊢
        rw [← Nat.add_assoc, Nat.add_right_comm] at h ⊢
        exact ih h

theorem conclude_congr (h : ∀ j < c.i, p j = q j) : conclude t q c = conclude t p c := by
  rw [conclude, conclude, lookup_congr h]

/-- **The answer depends on no other byte of the path.** -/
theorem fsResolvePath_congr (h : ∀ j < bytesRead t s curDir p k, p j = q j) :
    fsResolvePath t s curDir q k = fsResolvePath t s curDir p k := by
  simp only [fsResolvePath, scanFrom]
  obtain ⟨hscan, hend⟩ := scan_congr (c := ⟨0, 0, curDir, none, curDir.elim s (fsRefFnode s)⟩)
    (by rwa [Nat.zero_add])
  rw [hscan]
  cases hc : scan t p k ⟨0, 0, curDir, none, curDir.elim s (fsRefFnode s)⟩ with
  | error e => rfl
  | ok c' =>
    have hle := hend c' hc
    rw [Nat.zero_add] at hle
    exact congrArg settle (conclude_congr fun j hj => h j (Nat.lt_of_lt_of_le hj hle))

end Examined

end Scan

/-- **Resolving a path is the fold of `fs_child_of` over its components**, and never a null node,
exactly if there is a byte to scan. -/
theorem fsResolvePath_eq_fold_iff (t : FileTree ν) (s : RefCount ν) (curDir : Option ν)
    (path : ℕ → UInt8) (pathLen : ℕ) :
    ∃ a, fsResolvePath t s curDir path pathLen = .ok a ∧
      (a.result = target t s curDir (scanned path 0 pathLen) ∧ a.result ≠ .ok none ↔
        0 < pathLen ∧ path 0 ≠ 0) := by
  obtain ⟨a, ha, hres, -⟩ := fsResolvePath_answers t s curDir path pathLen
  refine ⟨a, ha, ?_⟩
  by_cases h : scanned path 0 pathLen = []
  · rw [if_pos h] at hres
    rw [iff_false_right (scanned_eq_nil_iff.mp h)]
    exact fun h' => h'.2 hres
  · rw [if_neg h] at hres
    rw [iff_true_right (not_not.mp (scanned_eq_nil_iff.not.mp h)), hres]
    exact ⟨rfl, target_ne_none h⟩

/-- A directory alone. -/
def oneDir : FileTree Unit :=
  ⟨(), fun _ => .dir, fun _ _ => none, fun _ _ => .error ⟨.notFound, by decide⟩⟩

/-- The `/` behind a name that is not there is the last byte read. -/
theorem fsResolvePath_congr_notFound :
    fsResolvePath oneDir ⟨fun _ => 1, []⟩ none ([47, 97, 47, 99].getD · 0) 4 =
      fsResolvePath oneDir ⟨fun _ => 1, []⟩ none ([47, 97, 47, 98].getD · 0) 4 :=
  fsResolvePath_congr (by decide)

/-- **The empty path** stands for the current directory, and resolves to a null node. -/
theorem fsResolvePath_empty :
    (∃ a, fsResolvePath oneDir ⟨fun _ => 1, []⟩ (some ()) (fun _ => 0) 0 = .ok a ∧
      a.result = .ok none) ∧
    target oneDir ⟨fun _ => 1, []⟩ (some ()) (scanned (fun _ => 0) 0 0) = .ok (some ()) :=
  ⟨⟨_, rfl, rfl⟩, rfl⟩

/-- **The counts**: the node returned has one reference more, and nothing else changes; a call that
fails changes nothing.  No node is destroyed. -/
theorem fsResolvePath_refs (t : FileTree ν) {s : RefCount ν} (hlive : ∀ n, 1 ≤ s.count n)
    (curDir : Option ν) (path : ℕ → UInt8) (pathLen : ℕ) :
    ∃ a, fsResolvePath t s curDir path pathLen = .ok a ∧ a.refs.destroyed = s.destroyed ∧
      (∀ n, a.result = .ok (some n) →
        a.refs.count n = s.count n + 1 ∧ ∀ m ≠ n, a.refs.count m = s.count m) ∧
      ∀ e, a.result = .error e → a.refs.count = s.count := by
  obtain ⟨a, ha, hres, hrefs⟩ := fsResolvePath_answers t s curDir path pathLen
  have h := hrefs hlive
  rw [← hres] at h
  refine ⟨a, ha, h.destroyed, fun n hn => ?_, fun e he => ?_⟩
  · rw [hn] at h
    exact ⟨by rw [h.count]; simp [kept], fun m hm => by rw [h.count]; simp [kept, hm.symm]⟩
  · rw [he] at h
    exact funext h.count

/-- A root `0`, a directory `1` in it with the name `a`, and a file `2` there that the file system
gives under the name `b`. -/
def nested : FileTree (Fin 3) where
  root := 0
  fileType n := if n = 2 then .file else .dir
  subnodes n name := if n = 0 ∧ name = [97] then some 1 else none
  subnode n name := if n = 1 ∧ name = [98] then .ok 2 else .error ⟨.notFound, by decide⟩

/-- `/a/b` takes a reference on the file and leaves the directories on the way as they were. -/
theorem fsResolvePath_refs_nested :
    ∃ a, fsResolvePath nested ⟨fun _ => 1, []⟩ none ([47, 97, 47, 98].getD · 0) 4 = .ok a ∧
      a.result = .ok (some 2) ∧ a.refs.count 2 = 2 ∧ (∀ m ≠ 2, a.refs.count m = 1) ∧
      a.refs.destroyed = [] := by
  obtain ⟨a, ha, hd, hok, -⟩ := fsResolvePath_refs nested (s := ⟨fun _ => 1, []⟩)
    (fun _ => Nat.le_refl 1)
    none ([47, 97, 47, 98].getD · 0) 4
  have hres : (fsResolvePath nested ⟨fun _ => 1, []⟩ none ([47, 97, 47, 98].getD · 0)
      4).toOption.map Answer.result = some (.ok (some 2)) := rfl
  rw [ha] at hres
  have hres' : a.result = .ok (some 2) := Option.some.inj hres
  exact ⟨a, ha, hres', (hok 2 hres').1, (hok 2 hres').2, hd⟩

end Pbos.Fs
