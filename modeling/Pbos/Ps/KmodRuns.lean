import Pbos.Ps.Kmod

/-!
# Ps/KmodRuns — the kernel symbol registry over any run

`Holds r p m` is what the conforming calls keep: the hash map stores each name once, with the
symbol `p` has for it, and that symbol carries the range `m` has.  From there a call conforms
exactly if it fits (`Holds.of_fits`, `Holds.fits_of_conforms`), and the runs follow.
-/

namespace Pbos.Ps

open Kfxx Kfxx.HashSet Function

variable {v : Option ℕ} {ptr : ℕ} {result : KmResult}

/-! ## What the conforming calls keep -/

/-- **The registry holds the finite map `m`**: each name is stored once, with the symbol `p` has
for it, and that symbol is allocated and carries the name and the range; the modules list registered
names. -/
structure Holds {κ : Type} (hash : SymbolName → ℕ) (r : Registry κ) (p : SymbolName → Option ℕ)
    (m : SymbolMap) : Prop where
  tree : r.queryTree = .empty
  agrees : HashMap.Agrees hash r.symbols p
  values : HashMap.Exact r.symbols p
  sym : ∀ name ptr, p name = some ptr → ∃ s, r.heap ptr = some s ∧ s.name = name ∧
    m name = some (s.addr, s.len)
  absent : ∀ name, p name = none → m name = none
  kmods : ∀ kmod, ∀ name ∈ r.kmods kmod, m name ≠ none
  nil : m [] = none

section Holds

variable {κ : Type} {hash : SymbolName → ℕ} {r : Registry κ} {p : SymbolName → Option ℕ}
  {m : SymbolMap} {name x : SymbolName} {n a sym addr len : ℕ} {s' : HashMap SymbolName ℕ}

namespace Holds

section

variable (h : Holds hash r p m)

include h

theorem eq_none_iff : p name = none ↔ m name = none := by
  refine ⟨h.absent name, fun hm => ?_⟩
  cases hp : p name with
  | none => rfl
  | some ptr =>
    obtain ⟨s, -, -, hs⟩ := h.sym name ptr hp
    rw [hm] at hs
    cases hs

/-- A stored pair refers to an allocated symbol. -/
theorem value (hn : n ∈ r.symbols.nodes.live) :
    ∃ ptr s, (r.symbols.nodes.data n).data.value = some ptr ∧ r.heap ptr = some s ∧
      p (r.symbols.nodes.data n).data.key = some ptr := by
  obtain ⟨ptr, hp⟩ := Option.ne_none_iff_exists'.mp ((h.agrees.mem _).mpr ⟨n, hn, rfl⟩)
  obtain ⟨s, hs, -, -⟩ := h.sym _ ptr hp
  exact ⟨ptr, s, (h.values.value n hn).trans hp, hs, hp⟩

/-- Searching reads no name that is gone, also when more symbols are allocated. -/
theorem compare {heap : ℕ → Option KernelSymbol}
    (hheap : ∀ ptr, r.heap ptr ≠ none → heap ptr ≠ none) :
    ({ r with heap := heap } : Registry κ).compare hash x = .ok () := by
  refine compare_eq_ok h.agrees.sound fun n hn hd => ?_
  obtain ⟨ptr, s, hv, hs, -⟩ := h.value hn
  have hnone := hd.2.2
  rw [hv, Option.isNone_iff_eq_none] at hnone
  exact hheap ptr (by rw [hs]; nofun) hnone

theorem none_of_absent (habs : HashSet.Absent (symbolOps hash) r.symbols ⟨name, v⟩) :
    p name = none :=
  HashMap.Agrees.of_absent h.agrees
    (show HashSet.Absent (pairOps hash id) r.symbols ⟨name, v⟩ from habs)

theorem get (name : SymbolName) :
    (HashSet.get (symbolOps hash) r.symbols ⟨name, none⟩ = .ok none ∧ p name = none) ∨
      ∃ n ptr, HashSet.get (symbolOps hash) r.symbols ⟨name, none⟩ = .ok (some n) ∧
        n ∈ r.symbols.nodes.live ∧ (r.symbols.nodes.data n).data = ⟨name, some ptr⟩ ∧
        p name = some ptr := by
  rcases h.agrees.sound.get (symbolOps hash) ⟨name, none⟩ with ⟨hget, habs⟩ | ⟨n, hget, hf⟩
  · exact .inl ⟨hget, h.none_of_absent habs⟩
  · obtain ⟨ptr, s, hv, -, hp⟩ := h.value hf.live
    have hkey := key_of_symbolFound hf
    refine .inr ⟨n, ptr, hget, hf.live, ?_, hkey ▸ hp⟩
    rw [← hkey, ← hv]

theorem find : r.find hash name = .ok (p name) := by
  have hc : r.compare hash name = .ok () := h.compare fun _ => id
  rw [Registry.find, hc]
  rcases h.get name with ⟨hget, hp⟩ | ⟨n, ptr, hget, -, hdata, hp⟩
  · rw [hget, hp]
    rfl
  · rw [hget, hp]
    change Except.ok (r.symbols.nodes.data n).data.value = _
    rw [hdata]

theorem represents : Represents hash r m := fun name => by
  rw [Registry.lookup, h.find]
  cases hp : p name with
  | none =>
    rw [h.absent name hp]
    rfl
  | some ptr =>
    obtain ⟨s, hs, -, hm⟩ := h.sym name ptr hp
    simp only [bind, Except.bind, hm, hs]

theorem psGet (name : SymbolName) :
    psGetKernelSymbol hash r name = .ok (((m name).map Prod.fst).getD 0) := by
  rw [psGetKernelSymbol, h.find]
  cases hp : p name with
  | none =>
    rw [h.absent name hp]
    rfl
  | some ptr =>
    obtain ⟨s, hs, -, hm⟩ := h.sym name ptr hp
    simp only [bind, Except.bind, hm, hs]
    rfl

/-- **A new name** over a new symbol. -/
theorem added (hsym : r.heap sym = none) (ha : a ∉ r.symbols.nodes.live) (hS : s'.Sound)
    (hsize : s'.size = r.symbols.size + 1)
    (hadd : Adds (symbolOps hash) r.symbols ⟨name, some sym⟩ a s') (hne : name ≠ [])
    (addr len : ℕ) :
    Holds hash { r with
        symbols := s', heap := update r.heap sym (some ⟨name, addr, len⟩) }
      (update p name (some sym)) (update m name (some (addr, len))) := by
  obtain ⟨hp, hA, hE, -⟩ := h.agrees.adds ha hS hsize
    (show HashSet.Adds (pairOps hash id) r.symbols _ _ _ from hadd)
  have happly : (HashMap.Call.insert name sym a).apply p = update p name (some sym) := by
    funext j
    simp [HashMap.Call.apply, update_apply]
  rw [happly] at hA hE
  refine ⟨h.tree, hA, hE h.values, fun j ptr hj => ?_, fun j hj => ?_, fun kmod j hj => ?_,
    (update_of_ne hne.symm ..).trans h.nil⟩
  · by_cases e : j = name
    · subst e
      rw [update_self] at hj
      cases hj
      exact ⟨⟨j, addr, len⟩, update_self .., rfl, update_self ..⟩
    · rw [update_of_ne e] at hj ⊢
      obtain ⟨s, hs, hname, hm⟩ := h.sym j ptr hj
      have hne : ptr ≠ sym := fun e' => by
        rw [e', hsym] at hs
        cases hs
      exact ⟨s, (update_of_ne hne ..).trans hs, hname, hm⟩
  · by_cases e : j = name
    · subst e
      rw [update_self] at hj
      cases hj
    · rw [update_of_ne e] at hj ⊢
      exact h.absent j hj
  · rw [update_apply]
    split
    · exact Option.some_ne_none _
    · exact h.kmods kmod j hj

theorem unregister_absent (hp : p name = none) :
    psUnregisterKernelSymbol hash r name = .ok (.notFound, r) := by
  rw [psUnregisterKernelSymbol, h.find, hp]
  rfl

/-- **A registered name** is released and then compared with. -/
theorem unregister_undefined (hp : p name = some ptr) :
    psUnregisterKernelSymbol hash r name = .error .undefined := by
  have hname : name ≠ [] := by
    rintro rfl
    rw [h.eq_none_iff.mpr h.nil] at hp
    cases hp
  obtain ⟨n, hn, hkey⟩ := (h.agrees.mem name).mp (by rw [hp]; nofun)
  have hc : (kiDestroyKernelSymbol r ptr).compare hash name = .error .undefined := by
    refine compare_eq_error h.agrees.sound hn (hkey ▸ h.agrees.code n hn) ⟨by rw [← hkey]; rfl,
      hname, ?_⟩ fun j hj e => h.agrees.inj j hj n hn (e.trans hkey.symm)
    have hv : (r.symbols.nodes.data n).data.value = some ptr := by
      rw [h.values.value n hn, hkey, hp]
    change (((r.symbols.nodes.data n).data.value).bind (update r.heap ptr none)).isNone = _
    rw [hv]
    simp
  rw [psUnregisterKernelSymbol, h.find, hp]
  change (kiDestroyKernelSymbol r ptr).compare hash name >>= _ = _
  rw [hc]
  rfl

end

variable {g : SymbolGrants}

/-- The tree of addresses has nothing to object. -/
theorem not_existed (h : Holds hash r p m) (addr : ℕ) :
    ¬ ∃ e ∈ r.queryTree.findMaxLteq addr, addr ≤ e.1 + e.2 := by
  rw [h.tree]
  rintro ⟨e, he, -⟩
  cases he

/-- **`ki_do_register_kernel_symbol`** goes as the insertion into the hash map goes. -/
theorem kiDoRegister (h : Holds hash r p m) (hg : g.sym = some sym) (hname : g.name = true)
    (hsym : r.heap sym = none) (hnode : ∀ a, g.entry.node = some a → a ∉ r.symbols.nodes.live)
    (hne : name ≠ []) (addr len : ℕ) :
    ∃ s' b, HashSet.insert (symbolOps hash) r.symbols ⟨name, some sym⟩ g.entry = .ok (s', b) ∧
      s'.Sound ∧ Inserted (symbolOps hash) g.entry r.symbols ⟨name, some sym⟩ s' b ∧
      kiDoRegisterKernelSymbol hash r name addr len g = .ok (if b then
        (.ok, { r with
          symbols := s', heap := update r.heap sym (some ⟨name, addr, len⟩) })
        else (.noMem, { r with symbols := s' })) := by
  obtain ⟨s', b, hrun, hS, -, hins, -⟩ :=
    h.agrees.sound.insertImpl_inserted hnode (symbolOps hash) ⟨name, some sym⟩ true
  refine ⟨s', b, hrun, hS, hins, ?_⟩
  have hc : ({ r with heap := update r.heap sym (some ⟨name, addr, len⟩) } :
      Registry κ).compare hash name = .ok () := by
    refine h.compare fun ptr hptr => ?_
    rw [update_apply]
    split
    · nofun
    · exact hptr
  rw [kiDoRegisterKernelSymbol, if_neg (h.not_existed addr), if_neg hne, hg]
  simp only [hname, hc]
  rw [HashSet.insert, hrun]
  cases b with
  | true => rfl
  | false =>
    have hheap : update (update r.heap sym (some ⟨name, addr, len⟩)) sym none =
        r.heap := by
      rw [update_idem, ← hsym, update_eq_self]
    simp only [kiDestroyKernelSymbol, hheap]
    rfl

/-- The pair found is left with the empty name, so nothing is stored under the name any more. -/
theorem rebuilt (h : Holds hash r p m) (hf : HashSet.Found (symbolOps hash) r.symbols ⟨name, v⟩ n)
    (hdata : s'.nodes.data = update r.symbols.nodes.data n
      ⟨(symbolOps hash).moveAssignOrMoveConstruct (r.symbols.nodes.data n).data ⟨name, v⟩,
        (r.symbols.nodes.data n).hashCode⟩) (hne : name ≠ []) :
    m name ≠ none ∧ ∀ j ∈ r.symbols.nodes.live, (s'.nodes.data j).data.key ≠ name := by
  have hkey := key_of_symbolFound hf
  refine ⟨fun hm => (h.agrees.mem name).mpr ⟨n, hf.live, hkey⟩ (h.eq_none_iff.mpr hm),
    fun j hj e => ?_⟩
  rw [hdata, update_apply] at e
  split at e
  · exact hne e.symm
  · rename_i hjn
    exact hjn (h.agrees.inj j hj n hf.live (e.trans hkey.symm))

end Holds

/-! ## One call -/

variable [DecidableEq κ] {c : SymbolCall κ} {kmod : κ} {g : SymbolGrants} {r' : Registry κ}

theorem psRegister_of_noMem (hrun : kiDoRegisterKernelSymbol hash r name addr len g =
      .ok (.noMem, r')) :
    psRegisterKernelSymbol hash r kmod name addr len g = .ok (.noMem, r') := by
  rw [psRegisterKernelSymbol, hrun]
  rfl

theorem psRegister_of_ok (hrun : kiDoRegisterKernelSymbol hash r name addr len g = .ok (.ok, r')) :
    psRegisterKernelSymbol hash r kmod name addr len g =
      if g.view = false then .error .nullDeref
      else if name ∈ r'.kmods kmod then
        psUnregisterKernelSymbol hash r' name >>= fun u => .ok (.noMem, u.2)
      else .ok (.ok, { r' with
        kmods := update r'.kmods kmod (name :: r'.kmods kmod) }) := by
  rw [psRegisterKernelSymbol, hrun]
  rfl

/-- **A call that fits** returns what the finite map allows, and the registry holds the finite map
afterwards. -/
theorem Holds.of_fits (h : Holds hash r p m) (hc : c.Fresh r) (hfit : c.Fits hash r m) :
    ∃ result r' p', c.exec hash r = .ok (result, r') ∧ c.Allows m result ∧
      Holds hash r' p' (c.apply m result) := by
  cases c with
  | unregister name =>
    exact ⟨.notFound, r, p, h.unregister_absent (h.eq_none_iff.mpr hfit), (if_pos hfit).symm, h⟩
  | register kmod name addr len g =>
    obtain ⟨hne, sym, hg, hfit⟩ := hfit
    cases hname : g.name with
    | false =>
      have hrun : kiDoRegisterKernelSymbol hash r name addr len g = .ok (.noMem, r) := by
        rw [kiDoRegisterKernelSymbol, if_neg (h.not_existed addr), if_neg hne, hg]
        exact if_pos hname
      exact ⟨.noMem, r, p, psRegister_of_noMem hrun,
        .inr (.inr fun hall => by cases hname.symm.trans hall.2.1), h⟩
    | true =>
      obtain ⟨hm, hfit⟩ := hfit hname
      obtain ⟨s', b, hins, hS, hcase, hrun⟩ :=
        h.kiDoRegister hg hname (hc.1 sym hg) hc.2 hne addr len
      cases hcase with
      | added node adds size =>
        have hr' := h.added (hc.1 sym hg) (hc.2 _ node) hS size adds hne addr len
        obtain ⟨hview, hfit⟩ := hfit s' hins
        rw [SymbolCall.exec, psRegister_of_ok hrun, if_neg (by simp [hview]),
          if_neg fun hmem => h.kmods kmod name hmem hm]
        refine ⟨.ok, _, _, rfl, ⟨hm, hfit⟩, hr'.tree, hr'.agrees, hr'.values, hr'.sym, hr'.absent,
          fun k i hi => ?_, hr'.nil⟩
        simp only [update_apply] at hi
        split at hi
        · rcases List.mem_cons.mp hi with rfl | hi
          · rw [SymbolCall.apply, update_self]
            nofun
          · exact hr'.kmods kmod i hi
        · exact hr'.kmods k i hi
      | refused grants absent live data size =>
        obtain ⟨hA, hE⟩ := h.agrees.congr hS live data size
        exact ⟨.noMem, { r with symbols := s' }, p, psRegister_of_noMem hrun,
          .inr (.inr fun hall => grants hall.2.2.1), h.tree, hA, hE h.values, h.sym, h.absent,
          h.kmods, h.nil⟩
      | replaced replaces size =>
        obtain ⟨n, hf, -, hdata⟩ := replaces
        exact absurd hm (h.rebuilt hf hdata hne).1
      | dropped grants found mem live data size =>
        exact absurd hm (h.rebuilt found data hne).1

/-- **Only a call that fits conforms.**  A name registered twice is nowhere stored any more. -/
theorem Holds.fits_of_conforms (h : Holds hash r p m) (hc : c.Fresh r)
    (hconf : (symbolSetup hash).Conforms c r m) : c.Fits hash r m := by
  obtain ⟨result, r', hexec, hallow, hrep⟩ := hconf
  simp only [symbolSetup] at hexec hallow hrep
  cases c with
  | unregister name =>
    by_contra hm
    obtain ⟨ptr, hp⟩ := Option.ne_none_iff_exists'.mp fun hp => hm (h.eq_none_iff.mp hp)
    rw [SymbolCall.exec, h.unregister_undefined hp] at hexec
    cases hexec
  | register kmod name addr len g =>
    have hne : name ≠ [] := by
      rintro rfl
      rw [SymbolCall.exec, psRegisterKernelSymbol, kiDoRegisterKernelSymbol,
        if_neg (h.not_existed addr), if_pos rfl] at hexec
      cases hexec
    cases hg : g.sym with
    | none =>
      rw [SymbolCall.exec, psRegisterKernelSymbol, kiDoRegisterKernelSymbol,
        if_neg (h.not_existed addr), if_neg hne, hg] at hexec
      cases hexec
    | some sym =>
      refine ⟨hne, sym, hg, fun hname => ?_⟩
      obtain ⟨s', b, hins, hS, hcase, hrun⟩ :=
        h.kiDoRegister hg hname (hc.1 sym hg) hc.2 hne addr len
      cases hcase with
      | added node adds size =>
        have hm := h.absent name (h.none_of_absent adds.1)
        refine ⟨hm, fun symbols hsymbols => ?_⟩
        rw [SymbolCall.exec, psRegister_of_ok hrun] at hexec
        cases hview : g.view with
        | false =>
          rw [if_pos hview] at hexec
          cases hexec
        | true =>
          rw [if_neg (by simp [hview]), if_neg fun hmem => h.kmods kmod name hmem hm] at hexec
          cases hexec
          exact ⟨rfl, hallow.2⟩
      | refused grants absent live data size =>
        refine ⟨h.absent name (h.none_of_absent absent), fun symbols hsymbols => ?_⟩
        rw [hins] at hsymbols
        cases hsymbols
      | replaced replaces size =>
        obtain ⟨n, hf, hlive, hdata⟩ := replaces
        obtain ⟨hm, hlost⟩ := h.rebuilt hf hdata hne
        rw [SymbolCall.exec, psRegister_of_ok hrun] at hexec
        split_ifs at hexec with hview hmem
        · obtain ⟨u, hu, hexec⟩ := of_bind hexec
          cases hexec
          have hgone : Lost { r with
              symbols := s', heap := update r.heap sym (some ⟨name, addr, len⟩) } name :=
            fun j hj => hlost j (hlive ▸ hj)
          rw [eq_of_unregister_lost hS hgone hu] at hrep
          exact absurd hrep (not_represents_of_lost hS hgone hm)
        · cases hexec
          exact absurd hallow.1 hm
      | dropped grants found mem live data size =>
        obtain ⟨hm, hlost⟩ := h.rebuilt found data hne
        rw [SymbolCall.exec, psRegister_of_noMem hrun] at hexec
        cases hexec
        refine absurd hrep (not_represents_of_lost hS (fun j hj => hlost j ?_) hm)
        rw [live] at hj
        exact List.mem_of_mem_erase hj

end Holds

/-! ## Runs -/

section Runs

variable {κ : Type} [DecidableEq κ] (hash : SymbolName → ℕ)

/-- No symbol is registered, over any memory for the nodes of the hash map. -/
def initSymbols (prev next : ℕ → Option ℕ) (data : ℕ → Element (Pair SymbolName ℕ)) :
    Conform.Beside Fault KmResult (Registry κ) SymbolMap :=
  ⟨.ok (.ok, ⟨.new prev next data, .empty, fun _ => none, fun _ => []⟩), fun _ => none⟩

/-- The registered ranges are pairwise disjoint. -/
def PairwiseDisjoint (m : SymbolMap) : Prop :=
  ∀ name name' a b, name ≠ name' → m name = some a → m name' = some b → ¬ Intersect a b

variable {hash}

theorem Intersect.symm {a b : ℕ × ℕ} (h : Intersect a b) : Intersect b a := by
  obtain ⟨x, ha, hb⟩ := h
  exact ⟨x, hb, ha⟩

omit [DecidableEq κ] in
theorem SymbolCall.apply_of_ne_ok (m : SymbolMap) (c : SymbolCall κ) (h : result ≠ .ok) : c.apply m
    result = m := by
  cases c <;> cases result <;> first | rfl | exact absurd rfl h

omit [DecidableEq κ] in
/-- **The ranges stay disjoint** under every call the finite map allows. -/
theorem PairwiseDisjoint.apply {m : SymbolMap} {c : SymbolCall κ} (h : PairwiseDisjoint m)
    (hallow : c.Allows m result) :
    PairwiseDisjoint (c.apply m result) := by
  by_cases hok : result = .ok
  · subst hok
    cases c with
    | register kmod name addr len g =>
      obtain ⟨-, hmeets⟩ := hallow
      have hnew : ∀ i a, m i = some a → ¬ Intersect a (addr, len) := fun i a hi hint =>
        hmeets ⟨i, a, hi, hint⟩
      intro i j a b hij hi hj hint
      simp only [SymbolCall.apply, update_apply] at hi hj
      split at hi
      · rename_i e
        rw [if_neg fun e' => hij (e.trans e'.symm)] at hj
        exact hnew j b hj (Option.some.inj hi ▸ hint).symm
      · split at hj
        · exact hnew i a hi (Option.some.inj hj ▸ hint)
        · exact h i j a b hij hi hj hint
    | unregister name =>
      intro i j a b hij hi hj
      simp only [SymbolCall.apply, update_apply] at hi hj
      split at hi
      · cases hi
      · split at hj
        · cases hj
        · exact h i j a b hij hi hj
  · rwa [c.apply_of_ne_ok m hok]

/-- **The registry as a finite map.**  The runs in which every call answers as the finite map from
names to ranges are the runs of calls that fit; in them every lookup gives the registered address or
null, and the registered ranges are pairwise disjoint. -/
theorem registry_conforms_iff (hash : SymbolName → ℕ) (prev next : ℕ → Option ℕ)
    (data : ℕ → Element (Pair SymbolName ℕ)) (cs : List (SymbolCall κ))
    (s : Conform.Beside Fault KmResult (Registry κ) SymbolMap) :
    (Run (fun s c s' => (symbolSetup hash).Step s c s' ∧ s.At ((symbolSetup hash).Conforms c))
        (initSymbols prev next data) cs s ↔
      Run (fun s c s' => (symbolSetup hash).Step s c s' ∧ s.At fun r m => c.Fits hash r m)
        (initSymbols prev next data) cs s) ∧
    (Run (fun s c s' => (symbolSetup hash).Step s c s' ∧ s.At ((symbolSetup hash).Conforms c))
        (initSymbols prev next data) cs s →
      PairwiseDisjoint s.spec ∧ ∃ result r, s.outcome = .ok (result, r) ∧
        ∀ name, psGetKernelSymbol hash r name = .ok (((s.spec name).map Prod.fst).getD 0)) := by
  have hinit : (initSymbols prev next data : Conform.Beside Fault KmResult (Registry κ) _).At
      fun r m => (∃ p, Holds hash r p m) ∧ PairwiseDisjoint m :=
    ⟨_, _, rfl, ⟨fun _ => none, rfl, HashMap.agrees_new .., ⟨nofun, rfl⟩, nofun, fun _ _ => rfl,
      nofun, rfl⟩, nofun⟩
  have hruns := Conform.Setup.runs_iff
    (t := s) (fun r m ⟨⟨p, hr⟩, _⟩ => hr.represents)
    (fun c r m ⟨⟨p, hr⟩, hd⟩ hfresh hfit => by
      obtain ⟨result, r', p', hexec, hallow, hr'⟩ := hr.of_fits hfresh hfit
      exact ⟨result, r', hexec, hallow, ⟨p', hr'⟩, hd.apply hallow⟩)
    (fun c r m ⟨⟨p, hr⟩, _⟩ hfresh hconf => hr.fits_of_conforms hfresh hconf) hinit cs
  refine ⟨hruns.1, fun hrun => ?_⟩
  obtain ⟨result, r, hout, ⟨p, hr⟩, hd⟩ := hruns.2 hrun
  exact ⟨hd, result, r, hout, hr.psGet⟩

/-- Two modules and no symbol. -/
def noSymbols : Registry Bool :=
  ⟨.new (fun _ => none) (fun _ => none) fun _ => ⟨⟨[], none⟩, 0⟩, .empty, fun _ => none,
    fun _ => []⟩

/-- Everything is granted. -/
def granting (k : ℕ) : SymbolGrants := ⟨some k, true, ⟨true, some k, true⟩, true⟩

/-- `psRegisterKernelSymbol` over names hashed to their lengths. -/
def registerIn (r : Registry Bool) (kmod : Bool) (name : SymbolName) (addr k : ℕ) :
    Except Fault (KmResult × Registry Bool) :=
  psRegisterKernelSymbol List.length r kmod name addr 16 (granting k)

/-- A symbol is registered at 4096, over 16 bytes.  A second module registers the name again, which
succeeds, and the name is looked up in vain; or it registers another name four bytes further, which
succeeds too; or the symbol is unregistered, which compares with a name that was released. -/
theorem registry_forgets_symbol :
    (do
      let r ← registerIn noSymbols false [97] 4096 0
      let r' ← registerIn r.2 true [97] 8192 1
      let addr ← psGetKernelSymbol List.length r'.2 [97]
      return (r.1, r'.1, addr)) = .ok (.ok, .ok, 0) ∧
    (do
      let r ← registerIn noSymbols false [97] 4096 0
      let r' ← registerIn r.2 true [98] 4100 1
      return (r.1, r'.1)) = .ok (.ok, .ok) ∧
    (do
      let r ← registerIn noSymbols false [97] 4096 0
      let r' ← psUnregisterKernelSymbol List.length r.2 [97]
      return r'.1) = .error .undefined :=
  ⟨rfl, rfl, rfl⟩

end Runs
end Pbos.Ps
