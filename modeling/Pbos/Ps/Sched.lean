import Pbos.Kfxx.RBTreeSearch

/-!
# Ps/Sched — the simple loop scheduler

`ps_simploop_sched_next_thread` steps through the thread set of the current process and, at its end,
goes on with the first thread of the next process in PID order, or of the first process.  When every
process has a thread, the steps go round the list of all threads (`rounds_visits_all`).  A process
without threads is not passed over: at it the function returns null (`nextThread_isSome_iff`).
-/

namespace Pbos.Ps

open Kfxx RBTrees List

variable {π τ : Type} [DecidableEq π] [DecidableEq τ]

/-- The global process set, the thread set of each process, and the process of each thread. -/
structure ProcSets (π τ : Type) where
  procSet : RBState π ℕ
  threadSet : π → RBState τ ℕ
  parent : τ → π

/-! ## The function -/

variable (s : ProcSets π τ)

/-- `ps_global_proc_set_begin()`. -/
def psGlobalProcSetBegin : Except Fault (Option π) :=
  getMinNode s.procSet s.procSet.root

/-- `ps_global_proc_set_next(cur)`. -/
def psGlobalProcSetNext (cur : Option π) : Except Fault (Option π) :=
  getNext s.procSet cur none

/-- `ps_proc_thread_set_begin(pcb)`. -/
def psProcThreadSetBegin : Option π → Except Fault (Option τ)
  | none => .error .nullDeref
  | some p => getMinNode (s.threadSet p) (s.threadSet p).root

/-- `ps_proc_thread_set_next(pcb, cur)`. -/
def psProcThreadSetNext (pcb : Option π) (cur : Option τ) : Except Fault (Option τ) :=
  match pcb with
  | none => .error .nullDeref
  | some p => getNext (s.threadSet p) cur none

/-- The first thread of the next process, which is the first one at the end of the set. -/
def nextProcThread (curProc : Option π) : Except Fault (Option τ) := do
  match ← psGlobalProcSetNext s curProc with
  | some nextProc => psProcThreadSetBegin s (some nextProc)
  | none => psProcThreadSetBegin s (← psGlobalProcSetBegin s)

/-- `ps_simploop_sched_next_thread(sched, cur_cpuid, cur_proc, cur_thread)`. -/
def psSimploopSchedNextThread (curProc : Option π) (curThread : Option τ) :
    Except Fault (Option τ) := do
  match curThread with
  | none => psProcThreadSetBegin s (← psGlobalProcSetBegin s)
  | some t =>
    match ← psProcThreadSetNext s curProc (some t) with
    | some nextThread => return some nextThread
    | none => nextProcThread s curProc

/-- The threads that `n` calls return, each made with the thread returned before. -/
def rounds (s : ProcSets π τ) : ℕ → τ → Except Fault (List τ)
  | 0, _ => .ok []
  | n + 1, t => do
    match ← psSimploopSchedNextThread s (some (s.parent t)) (some t) with
    | some t' => return t' :: (← rounds s n t')
    | none => .error .nullDeref

/-! ## The sets as lists -/

/-- The processes in PID order, and the threads of each in the order of their IDs. -/
structure Lists (s : ProcSets π τ) (procs : List π) (threads : π → List τ) : Prop where
  procSet : ∃ W, Wf s.procSet W ∧ W.nodes = procs
  threadSet : ∀ p ∈ procs, ∃ W, Wf (s.threadSet p) W ∧ W.nodes = threads p
  parent : ∀ p ∈ procs, ∀ t ∈ threads p, s.parent t = p

variable {s : ProcSets π τ} {procs A B : List π} {threads : π → List τ} {p : π} {t : τ}
  {C D : List τ}

section

variable (h : Lists s procs threads)

include h

omit [DecidableEq π] [DecidableEq τ] in
theorem Lists.begin_eq : psGlobalProcSetBegin s = .ok procs.head? := by
  obtain ⟨W, hW, rfl⟩ := h.procSet
  rw [psGlobalProcSetBegin, getMinNode, hW.holds.root]
  exact extremeNode_spec hW.holds.rep (by rw [hW.size]; exact Nat.le_succ _)

omit [DecidableEq π] [DecidableEq τ] in
theorem Lists.threadBegin_eq (hp : p ∈ procs) :
    psProcThreadSetBegin s (some p) = .ok (threads p).head? := by
  obtain ⟨W, hW, hnodes⟩ := h.threadSet p hp
  rw [psProcThreadSetBegin, getMinNode, hW.holds.root, ← hnodes]
  exact extremeNode_spec hW.holds.rep (by rw [hW.size]; exact Nat.le_succ _)

/-- **The next thread**: behind the current one in its process, or the first of the process that
follows in the cyclic order. -/
theorem Lists.nextThread_eq (hp : procs = A ++ p :: B) (ht : threads p = C ++ t :: D) :
    ∃ q ∈ procs, (B ++ A ++ [p]).head? = some q ∧
      psSimploopSchedNextThread s (some p) (some t) = .ok (D ++ threads q).head? := by
  have hmem : p ∈ procs := by simp [hp]
  obtain ⟨q, hq⟩ : ∃ q, (B ++ A ++ [p]).head? = some q := by
    cases hl : (B ++ A ++ [p]).head? with
    | none => simp at hl
    | some q => exact ⟨q, rfl⟩
  have hqmem : q ∈ procs := by
    have := mem_of_mem_head? hq
    simp only [mem_append, mem_singleton] at this
    simp only [hp, mem_append, mem_cons]
    tauto
  refine ⟨q, hqmem, hq, ?_⟩
  have hthreadnext : psProcThreadSetNext s (some p) (some t) = .ok D.head? := by
    obtain ⟨W, hW, hnodes⟩ := h.threadSet p hmem
    exact getNext_spec hW.holds hW.size (hnodes.trans ht) none
  simp only [psSimploopSchedNextThread, hthreadnext]
  cases D with
  | cons u D => rfl
  | nil =>
    have hnext : psGlobalProcSetNext s (some p) = .ok B.head? := by
      obtain ⟨W, hW, rfl⟩ := h.procSet
      exact getNext_spec hW.holds hW.size hp none
    simp only [nextProcThread, hnext]
    cases B with
    | cons b B =>
      obtain rfl : b = q := Option.some.inj hq
      exact h.threadBegin_eq hqmem
    | nil =>
      have hfirst : procs.head? = some q := by rw [← hq, hp]; simp
      simp only [h.begin_eq, hfirst]
      exact h.threadBegin_eq hqmem

end

/-! ## Round the list of all threads -/

section Cycle

variable {α : Type} {L F Z : List α} {x u : α}

/-- `F` lists what follows `x` in `L`, round to `x` itself. -/
def Follows (L : List α) (x : α) (F : List α) : Prop := ∃ X Y, L = X ++ x :: Y ∧ F = Y ++ X ++ [x]

/-- One step round the list. -/
theorem Follows.step (h : Follows L x (u :: Z)) : Follows L u (Z ++ [u]) := by
  obtain ⟨X, Y, rfl, hF⟩ := h
  cases Y with
  | cons y Y =>
    obtain ⟨rfl, rfl⟩ := List.cons.inj hF
    exact ⟨X ++ [x], Y, by simp, by simp⟩
  | nil =>
    cases X with
    | cons y X =>
      obtain ⟨rfl, rfl⟩ := List.cons.inj hF
      exact ⟨[], X ++ [x], by simp, by simp⟩
    | nil =>
      obtain ⟨rfl, rfl⟩ := List.cons.inj hF
      exact ⟨[], [], rfl, rfl⟩

theorem Follows.length_eq (h : Follows L x F) : F.length = L.length := by
  obtain ⟨X, Y, rfl, rfl⟩ := h
  simp only [length_append, length_cons, length_nil]
  omega

end Cycle

/-- The order of the threads: by PID, and by thread ID within a process. -/
def Earlier (s : ProcSets π τ) (t u : τ) : Prop :=
  s.procSet.rbValue (s.parent t) < s.procSet.rbValue (s.parent u) ∨
    s.parent t = s.parent u ∧
      (s.threadSet (s.parent t)).rbValue t < (s.threadSet (s.parent t)).rbValue u

section

variable (h : Lists s procs threads)

include h

omit [DecidableEq π] [DecidableEq τ] in
/-- The list of all threads is in order. -/
theorem Lists.pairwise_earlier : (procs.flatMap threads).Pairwise (Earlier s) := by
  rw [pairwise_flatMap]
  constructor
  · intro p hp
    obtain ⟨W, hW, hnodes⟩ := h.threadSet p hp
    have hsorted := hW.sorted
    rw [hnodes] at hsorted
    refine List.Pairwise.imp_of_mem (fun {t u} ht hu hlt => .inr ?_) hsorted
    rw [h.parent p hp t ht, h.parent p hp u hu]
    exact ⟨rfl, hlt⟩
  · obtain ⟨W, hW, hnodes⟩ := h.procSet
    have hsorted := hW.sorted
    rw [hnodes] at hsorted
    refine List.Pairwise.imp_of_mem (fun {p q} hp hq hlt t ht u hu => .inl ?_) hsorted
    rwa [h.parent p hp t ht, h.parent q hq u hu]

omit [DecidableEq π] [DecidableEq τ] in
theorem Lists.nodup : (procs.flatMap threads).Nodup := by
  refine h.pairwise_earlier.imp fun {t u} hlt heq => ?_
  subst heq
  rcases hlt with hlt | ⟨-, hlt⟩
  · exact Nat.lt_irrefl _ hlt
  · exact Nat.lt_irrefl _ hlt

/-- In a set where every process has a thread, the call steps to the thread that follows. -/
theorem Lists.step_eq (hne : ∀ p ∈ procs, threads p ≠ []) {u : τ} {Z : List τ}
    (ht : Follows (procs.flatMap threads) t (u :: Z)) :
    psSimploopSchedNextThread s (some (s.parent t)) (some t) = .ok (some u) := by
  have hF := ht
  obtain ⟨X, Y, hL, hnext⟩ := hF
  obtain ⟨p, hp, htp⟩ := mem_flatMap.mp (show t ∈ procs.flatMap threads by simp [hL])
  obtain ⟨A, B, hprocs⟩ := append_of_mem hp
  obtain ⟨C, D, hthreads⟩ := append_of_mem htp
  obtain ⟨q, hqmem, hq, hcall⟩ := h.nextThread_eq hprocs hthreads
  rw [h.parent p hp t htp, hcall]
  have hsplit : (A.flatMap threads ++ C) ++ t :: (D ++ B.flatMap threads) = X ++ t :: Y := by
    rw [← hL, hprocs]
    simp [hthreads]
  have hnd := h.nodup
  rw [hL, ← hsplit] at hnd
  obtain ⟨rfl, -, rfl⟩ := (append_cons_inj_of_notMem
    (fun hx => (nodup_append.mp hnd).2.2 t hx t mem_cons_self rfl)
    (nodup_cons.mp (nodup_append.mp hnd).2.1).1).mp hsplit
  cases D with
  | cons d D =>
    obtain ⟨rfl, -⟩ := List.cons.inj hnext
    rfl
  | nil =>
    obtain ⟨Q, hQ⟩ : ∃ Q, B ++ A ++ [p] = q :: Q := List.head?_eq_some_iff.mp hq
    have hround : u :: Z = threads q ++ Q.flatMap threads := by
      rw [hnext, ← List.flatMap_cons, ← hQ]
      simp [hthreads]
    obtain ⟨v, V, hv⟩ := exists_cons_of_ne_nil (hne q hqmem)
    rw [hv] at hround ⊢
    obtain ⟨rfl, -⟩ := List.cons.inj hround
    rfl

/-- The calls made so far have returned the threads that follow. -/
theorem Lists.rounds_eq (hne : ∀ p ∈ procs, threads p ≠ []) {n : ℕ} {F : List τ}
    (ht : Follows (procs.flatMap threads) t F) (hn : n ≤ F.length) :
    rounds s n t = .ok (F.take n) := by
  induction n generalizing t F with
  | zero => rfl
  | succ n ih =>
    cases F with
    | nil => cases hn
    | cons u Z =>
      have hn' : n ≤ Z.length := Nat.le_of_succ_le_succ hn
      have hrest := ih ht.step (by rw [length_append]; exact Nat.le_add_right_of_le hn')
      rw [rounds]
      simp only [h.step_eq hne ht, bind, Except.bind, hrest, pure, Except.pure, take_succ_cons,
        take_append_of_le_length hn']

end

/-- **The scheduler goes round all threads.**  In a set where every process has a thread, as many
calls as there are threads, from any thread `t` on, return every thread once: those after `t` in the
order of PIDs and thread IDs, then those before, then `t` itself. -/
theorem rounds_visits_all (h : Lists s procs threads) (hne : ∀ p ∈ procs, threads p ≠ [])
    {X Y : List τ} (ht : procs.flatMap threads = X ++ t :: Y) :
    rounds s (procs.flatMap threads).length t = .ok (Y ++ X ++ [t]) ∧
      (procs.flatMap threads).Nodup ∧ (procs.flatMap threads).Pairwise (Earlier s) := by
  have hF : Follows (procs.flatMap threads) t (Y ++ X ++ [t]) := ⟨X, Y, ht, rfl⟩
  refine ⟨?_, h.nodup, h.pairwise_earlier⟩
  rw [h.rounds_eq hne hF hF.length_eq.ge, ← hF.length_eq, take_length]

/-! ## Two processes -/

/-- A set with the node `x` alone. -/
def single (x key : ℕ) : RBState ℕ ℕ :=
  { p := fun _ => none, child := fun _ _ => none, color := fun _ => .black, rbValue := fun _ => key,
    root := some x, cachedMinNode := some x, cachedMaxNode := some x, size := 1 }

theorem wf_single (x key : ℕ) : Wf (single x key) (.node .black .nil x .nil) where
  holds := ⟨⟨rfl, rfl, rfl, rfl, trivial, trivial⟩, rfl, nodup_singleton x⟩
  redBlack := ⟨rfl, 1, by simp [Bal]⟩
  sorted := pairwise_singleton _ x
  size := rfl
  cachedMinNode := rfl
  cachedMaxNode := rfl

/-- The processes 10 and 11, with PIDs 0 and 1: 10 is the root, 11 its right child. -/
def twoProcs : RBState ℕ ℕ :=
  { p := fun x => if x = 11 then some 10 else none
    child := fun d x => if d = .right ∧ x = 10 then some 11 else none
    color := fun x => if x = 11 then .red else .black
    rbValue := fun x => x - 10
    root := some 10, cachedMinNode := some 10, cachedMaxNode := some 11, size := 2 }

theorem wf_twoProcs : Wf twoProcs (.node .black .nil 10 (.node .red .nil 11 .nil)) where
  holds := ⟨⟨rfl, rfl, rfl, rfl, trivial, rfl, rfl, rfl, rfl, trivial, trivial⟩, rfl, by decide⟩
  redBlack := ⟨rfl, 1, by simp [Bal]⟩
  sorted := by simp [Sorted, CTree.nodes, twoProcs]
  size := rfl
  cachedMinNode := rfl
  cachedMaxNode := rfl

/-- Process 10 has thread 20, process 11 has thread 21. -/
def bothRun : ProcSets ℕ ℕ := ⟨twoProcs, fun p => single (p + 10) 0, fun t => t - 10⟩

theorem lists_bothRun : Lists bothRun [10, 11] fun p => [p + 10] where
  procSet := ⟨_, wf_twoProcs, rfl⟩
  threadSet p _ := ⟨_, wf_single (p + 10) 0, rfl⟩
  parent p _ t ht := by
    obtain rfl := mem_singleton.mp ht
    exact Nat.add_sub_cancel p 10

/-- Two calls from thread 21 return 20 and 21. -/
theorem rounds_visits_all_bothRun : rounds bothRun 2 21 = .ok [20, 21] :=
  (rounds_visits_all lists_bothRun (fun _ _ => cons_ne_nil _ _) (X := [20]) (Y := []) rfl).1

/-! ## Processes without threads -/

theorem exists_head?_iff {α : Type} {l : List α} :
    (∃ x, (.ok l.head? : Except Fault (Option α)) = .ok (some x)) ↔ l ≠ [] := by
  cases l <;> simp

/-- **When a thread is found.**  In a set with a thread somewhere: with no current thread, exactly
if the first process has a thread; with the thread `t` of `p`, exactly if `t` is not the last one of
`p` or the process that follows in the cyclic order has a thread. -/
theorem nextThread_isSome_iff (h : Lists s procs threads) (hsome : ∃ p ∈ procs, threads p ≠ []) :
    ((∃ t, psSimploopSchedNextThread s none none = .ok (some t)) ↔
      ∀ p, procs.head? = some p → threads p ≠ []) ∧
    ∀ A p B, procs = A ++ p :: B → ∀ t ∈ threads p,
      ((∃ t', psSimploopSchedNextThread s (some p) (some t) = .ok (some t')) ↔
        (threads p).getLast? ≠ some t ∨ ∀ q, (B ++ A ++ [p]).head? = some q → threads q ≠ []) := by
  constructor
  · obtain ⟨p, hp⟩ : ∃ p, procs.head? = some p := by
      obtain ⟨p, hp, -⟩ := hsome
      exact ⟨_, List.head?_eq_some_head (ne_nil_of_mem hp)⟩
    have hmem : p ∈ procs := mem_of_mem_head? hp
    simp only [psSimploopSchedNextThread, h.begin_eq, hp, bind, Except.bind, h.threadBegin_eq hmem]
    rw [exists_head?_iff]
    exact ⟨fun hne q hq => Option.some.inj hq ▸ hne, fun hall => hall p rfl⟩
  · intro A p B hp t ht
    have hmem : p ∈ procs := by simp [hp]
    obtain ⟨C, D, hthreads⟩ := append_of_mem ht
    obtain ⟨q, -, hq, hcall⟩ := h.nextThread_eq hp hthreads
    obtain ⟨W, hW, hnodes⟩ := h.threadSet p hmem
    have hlast : (threads p).getLast? = some t ↔ D = [] := by
      rw [hthreads]
      exact getLast?_eq_iff_nil (hthreads ▸ hnodes ▸ hW.holds.nodup)
    rw [hcall, exists_head?_iff, ne_eq _ (some t), hlast, hq, ne_eq, append_eq_nil_iff, not_and_or]
    exact or_congr_right ⟨fun hne q' hq' => Option.some.inj hq' ▸ hne, fun hall => hall q rfl⟩

/-- Process 10 has no thread yet; process 11 has thread 21. -/
def oneRuns : ProcSets ℕ ℕ :=
  ⟨twoProcs, fun p => if p = 11 then single 21 0 else
    Kfxx.empty ⟨fun _ => none, fun _ _ => none, fun _ => .black⟩ fun _ => 0, fun t => t - 10⟩

/-- Thread 21 exists, and the function returns null both to the caller without a thread and to
thread 21. -/
theorem nextThread_oneRuns_null : (oneRuns.threadSet 11).root = some 21 ∧
    psSimploopSchedNextThread oneRuns none none = .ok none ∧
    psSimploopSchedNextThread oneRuns (some 11) (some 21) = .ok none := by
  decide

/-- With a thread in both processes, the caller without a thread gets one. -/
theorem nextThread_isSome_bothRun :
    ∃ t, psSimploopSchedNextThread bothRun none none = .ok (some t) :=
  (nextThread_isSome_iff lists_bothRun ⟨10, by decide, cons_ne_nil _ _⟩).1.mpr
    fun _ _ => cons_ne_nil _ _

end Pbos.Ps
