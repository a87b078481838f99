import Pbos.Kfxx.HashMap
import Pbos.Lib.Conform
import Pbos.Lib.OrdMap

/-!
# Ps/Kmod — the kernel symbol registry

A kernel symbol lies in a block of its own, together with its name.  `ki_registered_kernel_symbols`
maps a view of that name to the block; a tree of addresses is asked for intersecting ranges, but
nothing is ever put into it.

The registry is compared with a finite map from names to ranges.  It answers as one exactly as long
as a name is registered once and is not empty, its range meets no other, the allocator grants what
the source does not check, and no symbol is unregistered (`SymbolCall.Fits`): a second registration
empties the stored view, and `ps_unregister_kernel_symbol` releases the name before it looks it up
again.
-/

namespace Pbos.Ps

open Kfxx Kfxx.HashSet DList

/-- The bytes of a name. -/
abbrev SymbolName := List UInt8

instance : LawfulBEq SymbolName := inferInstance

/-- `ki_kernel_symbol_t`; the address is its `rb_value`. -/
structure KernelSymbol where
  name : SymbolName
  addr : ℕ
  len : ℕ

/-- The registered symbols, the tree of addresses (with the lengths), the symbols allocated, and
`registered_symbols` of every module. -/
structure Registry (κ : Type) where
  symbols : HashMap SymbolName ℕ
  queryTree : OrdMap ℕ ℕ
  heap : ℕ → Option KernelSymbol
  kmods : κ → List SymbolName

/-- What the allocator answers during a registration: for the symbol, for its name, for the hash
map, and for the node of the module's set. -/
structure SymbolGrants where
  sym : Option ℕ
  name : Bool
  entry : Grants
  view : Bool

def SymbolGrants.All (g : SymbolGrants) : Prop :=
  g.sym ≠ none ∧ g.name = true ∧ g.entry.All ∧ g.view = true

/-- `PairCmp` and `PairHasher` over views.  Moving a view empties the one it is moved from, so a
pair that is constructed from itself is left with the empty name. -/
def symbolOps (hash : SymbolName → ℕ) : Ops (Pair SymbolName ℕ) :=
  { pairOps hash id with rebuild := fun p => { p with key := [] } }

/-- Comparing `x` with the view of this pair reads a name that is not there any more. -/
def Dangling (heap : ℕ → Option KernelSymbol) (p : Pair SymbolName ℕ) (x : SymbolName) : Prop :=
  p.key.length = x.length ∧ x ≠ [] ∧ (p.value.bind heap).isNone = true

instance (heap : ℕ → Option KernelSymbol) (p : Pair SymbolName ℕ) (x : SymbolName) :
    Decidable (Dangling heap p x) :=
  inferInstanceAs (Decidable (_ ∧ _ ∧ _))

/-- The comparisons `_get_bucket_slot` makes on its way to `x`. -/
def compareLoop (heap : ℕ → Option KernelSymbol) (m : Nodes (Element (Pair SymbolName ℕ)))
    (x : SymbolName) : ℕ → Option ℕ → Except Fault Unit
  | _, none => .ok ()
  | 0, some _ => .error .hang
  | fuel + 1, some n =>
    if Dangling heap (m.data n).data x then .error .undefined
    else if (m.data n).data.key = x then .ok ()
    else compareLoop heap m x fuel (m.next n)

section

variable {κ : Type} (hash : SymbolName → ℕ) (r : Registry κ) (name : SymbolName)

/-- The comparisons of one search in `ki_registered_kernel_symbols`. -/
def Registry.compare (x : SymbolName) : Except Fault Unit :=
  if r.symbols.buckets.length = 0 then .ok ()
  else do
    let b ← bucketAt r.symbols.buckets (hash x % r.symbols.buckets.length)
    compareLoop r.heap r.symbols.nodes x r.symbols.nodes.live.length b.first

/-- `ki_registered_kernel_symbols.find(name)`. -/
def Registry.find : Except Fault (Option ℕ) := do
  r.compare hash name
  let it ← HashSet.get (symbolOps hash) r.symbols ⟨name, none⟩
  .ok (it.bind fun n => (r.symbols.nodes.data n).data.value)

/-- `ki_destroy_kernel_symbol(sym)`. -/
def kiDestroyKernelSymbol (sym : ℕ) : Registry κ :=
  { r with heap := Function.update r.heap sym none }

/-- `ki_do_register_kernel_symbol(name, name_len, addr, len, symbol_out)`.  `shrink_buckets` leaves
the buckets as they are and succeeds, and `mm_kalloc` does not take the length of an empty name. -/
def kiDoRegisterKernelSymbol (addr len : ℕ) (g : SymbolGrants) :
    Except Fault (KmResult × Registry κ) :=
  if ∃ e ∈ r.queryTree.findMaxLteq addr, addr ≤ e.1 + e.2 then .ok (.existed, r)
  else if name = [] then .error (.panic "The size for mm_kalloc must not be 0" [])
  else match g.sym with
    | none => .error .nullDeref
    | some sym =>
      if g.name = false then .ok (.noMem, r)
      else do
        let r' := { r with heap := Function.update r.heap sym (some ⟨name, addr, len⟩) }
        r'.compare hash name
        let ins ← HashSet.insert (symbolOps hash) r'.symbols ⟨name, some sym⟩ g.entry
        if ins.2 then .ok (.ok, { r' with symbols := ins.1 })
        else .ok (.noMem, kiDestroyKernelSymbol { r' with symbols := ins.1 } sym)

/-- `ps_unregister_kernel_symbol(name, name_len)`. -/
def psUnregisterKernelSymbol : Except Fault (KmResult × Registry κ) := do
  match ← r.find hash name with
  | none => .ok (.notFound, r)
  | some sym =>
    let r' := kiDestroyKernelSymbol r sym
    r'.compare hash name
    let symbols ← HashSet.remove (symbolOps hash) r'.symbols ⟨name, none⟩
    .ok (.ok, { r' with symbols })

/-- `ps_register_kernel_symbol(kmod, name, name_len, addr, len)`.  A node that is not granted is
inserted all the same.  `unregister_symbol_guard` undoes what is not inserted. -/
def psRegisterKernelSymbol [DecidableEq κ] (kmod : κ) (name : SymbolName) (addr len : ℕ)
    (g : SymbolGrants) : Except Fault (KmResult × Registry κ) := do
  match ← kiDoRegisterKernelSymbol hash r name addr len g with
  | (.ok, r') =>
    if g.view = false then .error .nullDeref
    else if name ∈ r'.kmods kmod then
      let u ← psUnregisterKernelSymbol hash r' name
      .ok (.noMem, u.2)
    else .ok (.ok, { r' with kmods := Function.update r'.kmods kmod (name :: r'.kmods kmod) })
  | (result, r') => .ok (result, r')

/-- The address and the length under a name. -/
def Registry.lookup : Except Fault (Option (ℕ × ℕ)) := do
  match ← r.find hash name with
  | none => .ok none
  | some sym =>
    match r.heap sym with
    | none => .error .undefined
    | some s => .ok (some (s.addr, s.len))

/-- `ps_get_kernel_symbol(name, name_len)`; null is 0. -/
def psGetKernelSymbol : Except Fault ℕ := do
  match ← r.find hash name with
  | none => .ok 0
  | some sym =>
    match r.heap sym with
    | none => .error .undefined
    | some s => .ok s.addr

end

/-! ## The finite map -/

/-- The registered names, with their addresses and lengths. -/
abbrev SymbolMap := SymbolName → Option (ℕ × ℕ)

/-- Two ranges have an address in common. -/
def Intersect (a b : ℕ × ℕ) : Prop :=
  ∃ x, (a.1 ≤ x ∧ x < a.1 + a.2) ∧ b.1 ≤ x ∧ x < b.1 + b.2

/-- The range meets a registered one. -/
def Meets (m : SymbolMap) (range : ℕ × ℕ) : Prop :=
  ∃ name range', m name = some range' ∧ Intersect range' range

/-- A call, with what the allocator answers during it. -/
inductive SymbolCall (κ : Type)
  | register (kmod : κ) (name : SymbolName) (addr len : ℕ) (g : SymbolGrants)
  | unregister (name : SymbolName)

namespace SymbolCall

variable {κ : Type}

/-- The result the finite map allows: a registration succeeds only with a new name and a range that
meets no other, and is refused only for that or for want of memory. -/
def Allows (m : SymbolMap) : SymbolCall κ → KmResult → Prop
  | register _ name addr len g, result =>
    if result = .ok then m name = none ∧ ¬ Meets m (addr, len)
    else m name ≠ none ∨ Meets m (addr, len) ∨ ¬ g.All
  | unregister name, result => result = if m name = none then .notFound else .ok

/-- The finite map after a call that gave this result. -/
def apply (m : SymbolMap) : SymbolCall κ → KmResult → SymbolMap
  | register _ name addr len _, .ok => Function.update m name (some (addr, len))
  | unregister name, .ok => Function.update m name none
  | _, _ => m

/-- What is allocated was not allocated before. -/
def Fresh (r : Registry κ) : SymbolCall κ → Prop
  | register _ _ _ _ g => (∀ sym, g.sym = some sym → r.heap sym = none) ∧
      ∀ a, g.entry.node = some a → a ∉ r.symbols.nodes.live
  | unregister _ => True

variable [DecidableEq κ] (hash : SymbolName → ℕ)

def exec (r : Registry κ) : SymbolCall κ → Except Fault (KmResult × Registry κ)
  | register kmod name addr len g => psRegisterKernelSymbol hash r kmod name addr len g
  | unregister name => psUnregisterKernelSymbol hash r name

/-- **The calls the registry is made for.**  The name is not empty, the symbol is granted, and if
its name is, then it is a new one; if the hash map takes it, then the node of the module's set is
granted and the range meets no other.  Only what is not registered can be unregistered. -/
def Fits (r : Registry κ) (m : SymbolMap) : SymbolCall κ → Prop
  | register _ name addr len g => name ≠ [] ∧ ∃ sym, g.sym = some sym ∧
      (g.name = true → m name = none ∧ ∀ symbols,
        HashSet.insert (symbolOps hash) r.symbols ⟨name, some sym⟩ g.entry = .ok (symbols, true) →
          g.view = true ∧ ¬ Meets m (addr, len))
  | unregister name => m name = none

end SymbolCall

/-- The registry answers every lookup as the finite map. -/
def Represents {κ : Type} (hash : SymbolName → ℕ) (r : Registry κ) (m : SymbolMap) : Prop :=
  ∀ name, r.lookup hash name = .ok (m name)

/-- **The registry beside the finite map.**  A call conforms if it returns what the finite map
allows, and the registry afterwards answers as the finite map afterwards. -/
def symbolSetup {κ : Type} [DecidableEq κ] (hash : SymbolName → ℕ) :
    Conform.Setup Fault KmResult (Registry κ) SymbolMap (SymbolCall κ) where
  exec r c := c.exec hash r
  admits r c := c.Fresh r
  allows m c := c.Allows m
  apply m c := c.apply m
  represents := Represents hash

/-! ## Reading the stored names -/

section Reading

variable {κ : Type} {hash : SymbolName → ℕ} {heap : ℕ → Option KernelSymbol}
  {m : Nodes (Element (Pair SymbolName ℕ))} {x name : SymbolName} {p : Option ℕ} {L : List ℕ}
  {fuel n : ℕ} {r : Registry κ}

theorem compareLoop_eq_ok (h : Chain m.next m.prev p L none) (hfuel : L.length ≤ fuel)
    (hread : ∀ n ∈ L, ¬ Dangling heap (m.data n).data x) :
    compareLoop heap m x fuel (headOr L none) = .ok () := by
  induction L generalizing p fuel with
  | nil => cases fuel <;> rfl
  | cons n L ih =>
    obtain ⟨k, rfl⟩ := Nat.exists_eq_add_one.mpr (Nat.zero_lt_of_lt hfuel)
    rw [headOr_cons, compareLoop, if_neg (hread n List.mem_cons_self)]
    split
    · rfl
    · rw [h.2.1]
      exact ih h.2.2 (by simpa using hfuel) fun j hj => hread j (List.mem_cons_of_mem _ hj)

/-- The only view equal to `x` is met, and it dangles. -/
theorem compareLoop_eq_error (h : Chain m.next m.prev p L none) (hfuel : L.length ≤ fuel)
    (hn : n ∈ L) (hd : Dangling heap (m.data n).data x)
    (huniq : ∀ j ∈ L, (m.data j).data.key = x → j = n) :
    compareLoop heap m x fuel (headOr L none) = .error .undefined := by
  induction L generalizing p fuel with
  | nil => cases hn
  | cons j L ih =>
    obtain ⟨k, rfl⟩ := Nat.exists_eq_add_one.mpr (Nat.zero_lt_of_lt hfuel)
    rw [headOr_cons, compareLoop]
    split
    · rfl
    · rename_i hj
      have hne : j ≠ n := fun e => hj (e ▸ hd)
      rw [if_neg fun e => hne (huniq j List.mem_cons_self e), h.2.1]
      exact ih h.2.2 (by simpa using hfuel) ((List.mem_cons.mp hn).resolve_left hne.symm)
        fun i hi => huniq i (List.mem_cons_of_mem _ hi)

theorem compare_eq_ok (h : r.symbols.Sound)
    (hread : ∀ n ∈ r.symbols.nodes.live, ¬ Dangling r.heap (r.symbols.nodes.data n).data x) :
    r.compare hash x = .ok () := by
  rw [Registry.compare]
  split
  · rfl
  · rename_i h0
    obtain ⟨b, hb⟩ := h.exists_bucket h0 (hash x)
    obtain ⟨hL, hmem⟩ := h.filed _ b hb
    rw [bucketAt_eq hb]
    change compareLoop _ _ _ _ _ = _
    rw [hL.first]
    exact compareLoop_eq_ok hL.chain (h.length_le hb) fun n hn => hread n ((hmem n).mp hn).1

theorem compare_eq_error (h : r.symbols.Sound) (hn : n ∈ r.symbols.nodes.live)
    (hcode : (r.symbols.nodes.data n).hashCode = hash x)
    (hd : Dangling r.heap (r.symbols.nodes.data n).data x)
    (huniq : ∀ j ∈ r.symbols.nodes.live, (r.symbols.nodes.data j).data.key = x → j = n) :
    r.compare hash x = .error .undefined := by
  have h0 : r.symbols.buckets.length ≠ 0 := fun h0 => by
    rw [h.empty h0] at hn
    cases hn
  obtain ⟨b, hb⟩ := h.exists_bucket h0 (hash x)
  obtain ⟨hL, hmem⟩ := h.filed _ b hb
  rw [Registry.compare, if_neg h0, bucketAt_eq hb]
  change compareLoop _ _ _ _ _ = _
  rw [hL.first]
  exact compareLoop_eq_error hL.chain (h.length_le hb) ((hmem n).mpr ⟨hn, by rw [hcode]⟩) hd
    fun j hj => huniq j ((hmem j).mp hj).1

/-- No stored view is equal to `name`. -/
def Lost (r : Registry κ) (name : SymbolName) : Prop :=
  ∀ n ∈ r.symbols.nodes.live, (r.symbols.nodes.data n).data.key ≠ name

theorem key_of_symbolFound {s : HashMap SymbolName ℕ} {v : Option ℕ}
    (h : HashSet.Found (symbolOps hash) s ⟨name, v⟩ n) : (s.nodes.data n).data.key = name :=
  beq_iff_eq.mp h.eq

theorem get_of_lost (h : r.symbols.Sound) (hlost : Lost r name) :
    HashSet.get (symbolOps hash) r.symbols ⟨name, none⟩ = .ok none := by
  rcases h.get (symbolOps hash) ⟨name, none⟩ with ⟨hget, -⟩ | ⟨n, -, hf⟩
  · exact hget
  · exact absurd (key_of_symbolFound hf) (hlost n hf.live)

/-- A name that is nowhere stored is not looked up. -/
theorem not_represents_of_lost {map : SymbolMap} (h : r.symbols.Sound) (hlost : Lost r name)
    (hname : map name ≠ none) : ¬ Represents hash r map := by
  intro hrep
  have hl := hrep name
  rw [Registry.lookup, Registry.find] at hl
  cases hc : r.compare hash name with
  | error e =>
    rw [hc] at hl
    cases hl
  | ok u =>
    rw [hc, get_of_lost h hlost] at hl
    exact hname (Except.ok.inj hl).symm

/-- A name that is nowhere stored is not unregistered. -/
theorem eq_of_unregister_lost (h : r.symbols.Sound) (hlost : Lost r name)
    {u : KmResult × Registry κ} (hu : psUnregisterKernelSymbol hash r name = .ok u) : u.2 = r := by
  obtain ⟨found, hfind, hu⟩ := of_bind hu
  obtain ⟨-, -, hfind⟩ := of_bind hfind
  rw [get_of_lost h hlost] at hfind
  cases hfind
  cases hu
  rfl

end Reading

end Pbos.Ps
