import Pbos.Hal.Vm

/-!
# Hal/VmWalk — the invariant rule for `kh_mmap`

The four nested loops visit the pages of the range in order.  `WalkInv` says what an invariant `J q`
of the walk — the pages before `q` are done — has to stand: a table hung below an empty entry and
the PTE of page `q` written; and what it has to say, `K`, when a page allocation fails and the walk
is given up.  `khMmap_of_walkInv` carries it through the loops.
-/

namespace Pbos.Hal

open Radix

/-! ## Pages and paths -/

/-- The indices that lead to the page table of a page. -/
def tables (p : ℕ) : List (Fin 512) :=
  [Fin.ofNat 512 (p / 2 ^ 27), Fin.ofNat 512 (p / 2 ^ 18), Fin.ofNat 512 (p / 2 ^ 9)]

/-- The index of its PTE there. -/
def slot (p : ℕ) : Fin 512 := Fin.ofNat 512 p

@[simp] theorem length_tables (p : ℕ) : (tables p).length = 3 := rfl

/-- A table on the way to a page lies above the page tables. -/
theorem length_lt_of_prefix_tables {α : List (Fin 512)} {x : Fin 512} {q : ℕ}
    (h : α ++ [x] <+: tables q) : α.length < 3 := by
  have hlen := h.length_le
  simp only [List.length_append, List.length_singleton, length_tables] at hlen
  omega

theorem ofNat_eq_iff {x y : ℕ} : Fin.ofNat 512 x = Fin.ofNat 512 y ↔ x % 512 = y % 512 := by
  rw [Fin.ext_iff]
  rfl

/-- **A page is found by its indices.** -/
theorem eq_of_tables_slot {p q : ℕ} (hp : p < 2 ^ 36) (hq : q < 2 ^ 36) (ht : tables p = tables q)
    (hs : slot p = slot q) : p = q := by
  simp only [tables, slot, List.cons.injEq, ofNat_eq_iff] at ht hs
  omega

/-- The page that four indices spell. -/
def spell (i4 i3 i2 i1 : ℕ) : ℕ := ((i4 * 512 + i3) * 512 + i2) * 512 + i1

section Spell

variable {i4 i3 i2 i1 p : ℕ} (h3 : i3 < 512) (h2 : i2 < 512) (h1 : i1 < 512)

include h3 h2 h1 in
theorem tables_spell : tables (spell i4 i3 i2 i1) =
    [Fin.ofNat 512 i4, Fin.ofNat 512 i3, Fin.ofNat 512 i2] := by
  simp only [tables, spell, List.cons.injEq, ofNat_eq_iff, and_true]
  omega

theorem slot_spell : slot (spell i4 i3 i2 i1) = Fin.ofNat 512 i1 := by
  rw [slot, ofNat_eq_iff, spell]
  omega

/-- The pages below one entry of a page directory. -/
theorem tables_of_pde (h3 : i3 < 512) (h2 : i2 < 512) (hlo : spell i4 i3 i2 0 ≤ p)
    (hhi : p < spell i4 i3 i2 0 + 512) :
    tables p = [Fin.ofNat 512 i4, Fin.ofNat 512 i3, Fin.ofNat 512 i2] := by
  simp only [tables, spell, List.cons.injEq, ofNat_eq_iff, and_true] at hlo hhi ⊢
  omega

/-- The pages below one entry of a page directory pointer table. -/
theorem prefix_tables_of_pdpte (h3 : i3 < 512) (hlo : spell i4 i3 0 0 ≤ p)
    (hhi : p < spell i4 i3 0 0 + 512 * 512) :
    [Fin.ofNat 512 i4, Fin.ofNat 512 i3] <+: tables p := by
  refine ⟨[Fin.ofNat 512 (p / 2 ^ 9)], ?_⟩
  simp only [tables, spell, List.cons_append, List.nil_append, List.cons.injEq, ofNat_eq_iff,
    and_true] at hlo hhi ⊢
  omega

/-- The pages below one entry of the PML4. -/
theorem prefix_tables_of_pml4e (hlo : spell i4 0 0 0 ≤ p)
    (hhi : p < spell i4 0 0 0 + 512 * (512 * 512)) : [Fin.ofNat 512 i4] <+: tables p := by
  refine ⟨[Fin.ofNat 512 (p / 2 ^ 18), Fin.ofNat 512 (p / 2 ^ 9)], ?_⟩
  simp only [tables, spell, List.cons_append, List.nil_append, List.cons.injEq, ofNat_eq_iff,
    and_true] at hlo hhi ⊢
  omega

end Spell

/-! ## Ranges -/

namespace VRange

variable (r : VRange)

/-- Whole pages inside one half of the address space, the last page of all left out. -/
structure InHalf : Prop where
  vaddr_dvd : r.vaddr % 4096 = 0
  size_dvd : r.size % 4096 = 0
  size_pos : 0 < r.size
  half : r.vaddr + r.size ≤ 2 ^ 47 ∨ 2 ^ 64 - 2 ^ 47 ≤ r.vaddr ∧ r.vaddr + r.size < 2 ^ 64

/-- The number of the first page. -/
def first : ℕ := pageNo r.vaddr

/-- The number of the page after the last. -/
def stop : ℕ := r.first + r.size / 4096

variable {r} (h : r.InHalf)

include h

theorem InHalf.first_lt_stop : r.first < r.stop := by
  have := h.size_dvd
  have := h.size_pos
  unfold stop
  omega

theorem InHalf.stop_lt : r.stop < 2 ^ 36 := by
  unfold stop first pageNo
  rcases h.half with h | h <;> omega

theorem InHalf.limit_eq : r.limit = r.vaddr / 2 ^ 48 * 2 ^ 48 + r.stop * 4096 := by
  have := h.vaddr_dvd
  have := h.size_dvd
  unfold limit stop first pageNo
  rcases h.half with h | h <;> omega

theorem InHalf.pageNo_limit : pageNo r.limit = r.stop := by
  have := h.stop_lt
  rw [h.limit_eq, pageNo]
  omega

theorem InHalf.pml4x_limit : pml4x r.limit = r.stop / 2 ^ 27 := by rw [pml4x_eq, h.pageNo_limit]

/-- **The `break` conditions compare page numbers.** -/
theorem InHalf.limit_le_entryVaddr {i4 i3 i2 i1 : ℕ} (h4 : i4 < 512) (h3 : i3 < 512) (h2 : i2 < 512)
    (h1 : i1 < 512) : r.limit ≤ r.entryVaddr i4 i3 i2 i1 ↔ r.stop ≤ spell i4 i3 i2 i1 := by
  have hv : r.vaddr < 2 ^ 64 := by have := h.half; have := h.size_pos; omega
  rw [entryVaddr, uvaddr_eq i4 h3 h2 h1, addrPrefix_or_eq hv (by omega), h.limit_eq, spell]
  omega

theorem InHalf.not_crossesSpaces : ¬ r.crossesSpaces := by
  have := h.size_pos
  rcases h.half with h | h <;> simp [crossesSpaces, mmIsUserSpace] <;> omega

end VRange

/-! ## Invariants of the walk -/

variable {σ : Type} {A : Platform σ} {c : MmapArgs} {root : Frame} {flags : UInt32} {mem : Mem}
  {missing : String} {s s' : VmState σ} {α : List (Fin 512)} {t : VmState σ × ℕ} {f : Frame}
  {o : Option Frame} {res : KmResult} {e pte : Entry} {x i4 i3 p i2 va : ℕ}

/-- `pi` after `k` pages. -/
def MmapArgs.pi (c : MmapArgs) (k : ℕ) : ℕ := (c.paddr + k * c.piDiff) % 2 ^ 64

theorem MmapArgs.pi_succ (c : MmapArgs) (k : ℕ) : (c.pi k + c.piDiff) % 2 ^ 64 = c.pi (k + 1) := by
  rw [pi, pi, Nat.mod_add_mod, Nat.add_mul, Nat.one_mul, Nat.add_assoc]

/-- The table a path of a context leads to. -/
abbrev path (mem : Mem) (root : Frame) (α : List (Fin 512)) : Option Frame :=
  follow Entry.child mem root α

/-- A frame is one of the tables of a context. -/
abbrev Table (mem : Mem) (root f : Frame) : Prop := IsTable Entry.child mem root 3 f

variable (A c root) in
/-- What an invariant of the walk has to stand, one field for each thing the walk does. -/
structure WalkInv (J : ℕ → VmState σ → Prop) (K : VmState σ → Prop) : Prop where
  /-- The tables form a tree. -/
  tree {q s} : J q s → Tree Entry.child s.mem root 3
  /-- They are reached through the direct map. -/
  direct {q s f} : J q s → Table s.mem root f → A.direct f = true
  /-- A missing table on the way to page `q` is allocated. -/
  link {q s α f x page pg} : J q s → path s.mem root α = some f → α ++ [x] <+: tables q →
    (q < c.stop ∨ α = []) → (s.mem f x).present = false →
    A.pgalloc s.mem s.pg = .ok (page, pg) → pgRoundDown page ≠ 0 →
    ¬ Table s.mem root (pgRoundDown page) ∧ A.direct (pgRoundDown page) = true ∧
      J q { s with
        mem := link s.mem f x (tableEntry (pgRoundDown page)) (pgRoundDown page) Entry.zero
        pg := pg }
  /-- There is no page for it. -/
  fail {q s α f x page pg} : J q s → path s.mem root α = some f → α ++ [x] <+: tables q →
    (q < c.stop ∨ α = []) → (s.mem f x).present = false →
    A.pgalloc s.mem s.pg = .ok (page, pg) → pgRoundDown page = 0 →
    K { s with mem := write s.mem f x { s.mem f x with address := 0 }, pg := pg }
  /-- The PTE of page `q` is written. -/
  put {q s f s'} : J q s → c.first ≤ q → q < c.stop → path s.mem root (tables q) = some f →
    (∃ va, A.drop c.flags va (s.mem f (slot q)) s = .ok s') →
    J (q + 1) { s' with mem := write s.mem f (slot q) (c.pte (c.pi (q - c.first))) }

/-! ### Single steps -/

theorem Entry.child_eq_none (h : e.present = false) : e.child = none := by
  rw [child, h]
  rfl

theorem Entry.child_eq_some (h : e.present = true) : e.child = some e.address := by
  rw [child, h]
  rfl

theorem Entry.child_zero : Entry.zero.child = none := rfl

theorem child_tableEntry (g : Frame) : (tableEntry g).child = some g := by
  refine Entry.child_eq_some ?_
  simp only [Entry.present, Entry.has, tableEntry]
  decide

/-- `mm_pgfree` touches no table. -/
theorem Platform.free_eq (h : A.free f s = .ok s') :
    s'.mem = s.mem ∧ s'.freed = f :: s.freed ∧ A.pgfree s.pg (unpgaddr f) = .ok s'.pg := by
  unfold Platform.free at h
  cases hpg : A.pgfree s.pg (unpgaddr f) with
  | error e => rw [hpg] at h; cases h
  | ok pg =>
    rw [hpg] at h
    cases h
    exact ⟨rfl, rfl, rfl⟩

/-- Releasing a PTE's page either does nothing or is one `mm_pgfree`. -/
theorem Platform.drop_cases (h : A.drop flags va pte s = .ok s') :
    s' = s ∧ (pte.present = false ∨ hasFlag flags MMAP_NO_RC = true) ∨
      pte.present = true ∧ hasFlag flags MMAP_NO_RC = false ∧ A.free pte.address s = .ok s' := by
  unfold Platform.drop at h
  split at h
  · split at h
    · cases h
    · split at h
      · exact .inl ⟨(Except.ok.inj h).symm, .inr ‹_›⟩
      · exact .inr ⟨‹_›, by simpa using ‹¬ hasFlag flags MMAP_NO_RC = true›, h⟩
  · exact .inl ⟨(Except.ok.inj h).symm, .inl (by simpa using ‹¬ pte.present = true›)⟩

theorem Platform.drop_mem (h : A.drop flags va pte s = .ok s') : s'.mem = s.mem := by
  rcases drop_cases h with ⟨rfl, -⟩ | ⟨-, -, h⟩
  · rfl
  · exact (free_eq h).1

/-- Every table that was there is still there, at the same path. -/
def Grows (root : Frame) (mem mem' : Mem) : Prop :=
  ∀ ⦃α f⦄, α.length ≤ 3 → path mem root α = some f → path mem' root α = some f

theorem Grows.refl (root : Frame) (mem : Mem) : Grows root mem mem := fun _ _ _ h => h

theorem Grows.trans {mem' mem'' : Mem} (h : Grows root mem mem') (h' : Grows root mem' mem'') :
    Grows root mem mem'' := fun _ _ hα hf => h' hα (h hα hf)

/-- Hanging a table below an absent entry loses no table. -/
theorem grows_link {g : Frame} {x : Fin 512}
    (ht : Tree Entry.child mem root 3) (hα : path mem root α = some f) (hlen : α.length < 3)
    (hnone : (mem f x).present = false) (hfresh : ¬ Table mem root g) :
    Grows root mem (link mem f x (tableEntry g) g Entry.zero) := by
  intro π f' hπ hf'
  rw [path, follow_link ht hα hlen (Entry.child_eq_none hnone) (child_tableEntry g)
    Entry.child_zero hfresh hπ, if_neg]
  · exact hf'
  · rintro rfl
    rw [path, follow_concat hα, Entry.child_eq_none hnone] at hf'
    cases hf'

/-- How `ensureTable` ends: the table is there, there is no page for it, or it is hung below the
entry. -/
theorem ensureTable_cases (h : ensureTable A flags missing f x s = .ok (o, s')) :
    ((entryAt s.mem f x).present = true ∧
      ∃ mem, A.reach (entryAt s.mem f x).address s.mem = .ok mem ∧
        o = some (entryAt s.mem f x).address ∧ s' = { s with mem := mem }) ∨
    (entryAt s.mem f x).present = false ∧ ∃ page pg, A.pgalloc s.mem s.pg = .ok (page, pg) ∧
      (pgRoundDown page = 0 ∧ o = none ∧
          s' = { s.store f x { entryAt s.mem f x with address := 0 } with pg := pg } ∨
        pgRoundDown page ≠ 0 ∧ ∃ mem, A.reach (pgRoundDown page)
            (s.store f x (tableEntry (pgRoundDown page))).mem = .ok mem ∧
          o = some (pgRoundDown page) ∧
          s' = { s with mem := fill mem (pgRoundDown page) Entry.zero, pg := pg }) := by
  simp only [ensureTable] at h
  split at h
  · rename_i hpres
    obtain ⟨mem, hmem, heq⟩ := map_eq_ok_iff.mp h
    cases heq
    exact .inl ⟨hpres, mem, hmem, rfl, rfl⟩
  · rename_i hpres
    split at h
    · cases h
    · obtain ⟨⟨page, pg⟩, hpage, h⟩ := of_bind h
      refine .inr ⟨by simpa using hpres, page, pg, hpage, ?_⟩
      split at h
      · cases h
        exact .inl ⟨‹_›, rfl, rfl⟩
      · obtain ⟨mem, hmem, h⟩ := of_bind h
        cases h
        exact .inr ⟨‹_›, mem, hmem, rfl, rfl⟩

variable {J : ℕ → VmState σ → Prop} {K : VmState σ → Prop} (hJ : WalkInv A c root J K) {r : VRange}

/-- The walk has done the pages before `q` and lost no table of `mem`. -/
structure Reached (c : MmapArgs) (root : Frame) (J : ℕ → VmState σ → Prop) (mem : Mem) (q : ℕ)
    (t : VmState σ × ℕ) : Prop where
  inv : J q t.1
  pi : t.2 = c.pi (q - c.first)
  grows : Grows root mem t.1.mem

/-- How one turn of a loop of the walk may end, when it starts from `mem` and should do the pages
before `q`. -/
def TurnOk (c : MmapArgs) (root : Frame) (J : ℕ → VmState σ → Prop) (K : VmState σ → Prop)
    (mem : Mem) (q : ℕ) : Turn (VmState σ × ℕ) → Prop
  | .next t => Reached c root J mem q t
  | .brk _ => False
  | .ret t => K t.1

include hJ in
/-- **The table below an entry is there after `ensureTable`**, or the walk is given up. -/
theorem ensureTable_reached {q : ℕ} (h0 : J q s) (hα : path s.mem root α = some f)
    (hpre : α ++ [Fin.ofNat 512 x] <+: tables q) (hq : q < c.stop ∨ α = [])
    (h : ensureTable A c.flags missing f x s = .ok (o, s')) :
    (o = none ∧ K s') ∨ ∃ g, o = some g ∧ J q s' ∧ Grows root s.mem s'.mem ∧
      path s'.mem root (α ++ [Fin.ofNat 512 x]) = some g := by
  have ht := hJ.tree h0
  have hlen' : (α ++ [Fin.ofNat 512 x]).length ≤ 3 := hpre.length_le
  have hlen := length_lt_of_prefix_tables hpre
  rcases ensureTable_cases h with ⟨hpres, mem, hmem, rfl, rfl⟩ |
    ⟨hnone, page, pg, hpage, ⟨hzero, rfl, rfl⟩ | ⟨hne, mem, hmem, rfl, rfl⟩⟩
  · have hg : path s.mem root (α ++ [Fin.ofNat 512 x]) = some (entryAt s.mem f x).address :=
      (follow_concat hα).trans (Entry.child_eq_some hpres)
    rw [Platform.reach, if_pos (hJ.direct h0 ⟨_, hlen', hg⟩)] at hmem
    cases hmem
    exact .inr ⟨_, rfl, h0, Grows.refl _ _, hg⟩
  · exact .inl ⟨rfl, hJ.fail h0 hα hpre hq hnone hpage hzero⟩
  · obtain ⟨hfresh, hdirect, hlink⟩ := hJ.link h0 hα hpre hq hnone hpage hne
    rw [Platform.reach, if_pos hdirect] at hmem
    cases hmem
    have hfollow := follow_link ht hα hlen (Entry.child_eq_none hnone) (child_tableEntry _)
      Entry.child_zero hfresh hlen'
    exact .inr ⟨_, rfl, hlink, grows_link ht hα hlen hnone hfresh, hfollow.trans (if_pos rfl)⟩

include hJ in
/-- A turn of an upper loop is the loop over the table below, which is there afterwards. -/
theorem descend_turn {q q' : ℕ}
    {inner : Frame → VmState σ × ℕ → Except Fault (Exit (VmState σ × ℕ))}
    {fl : Turn (VmState σ × ℕ)} (h0 : Reached c root J mem q t) (hα : path mem root α = some f)
    (hpre : α ++ [Fin.ofNat 512 x] <+: tables q) (hq : q < c.stop ∨ α = [])
    (hinner : ∀ g t r, Reached c root J t.1.mem q t →
      path t.1.mem root (α ++ [Fin.ofNat 512 x]) = some g → inner g t = .ok r →
      r.Holds (Reached c root J t.1.mem q') (fun t => K t.1))
    (h : descend A c missing f x inner t = .ok fl) : TurnOk c root J K mem q' fl ∧
      ∀ t', fl = .next t' → (path t'.1.mem root (α ++ [Fin.ofNat 512 x])).isSome := by
  obtain ⟨⟨o, s⟩, hs, h⟩ := of_bind h
  rcases ensureTable_reached hJ h0.inv (h0.grows (length_lt_of_prefix_tables hpre).le hα)
    hpre hq hs with
    ⟨rfl, hK⟩ | ⟨g, rfl, hinv, hgrows, hg⟩
  · cases h
    exact ⟨hK, fun _ h => by cases h⟩
  · obtain ⟨r, hr, h⟩ := of_bind h
    have hloop := hinner g (s, t.2) r ⟨hinv, h0.pi, Grows.refl _ _⟩ hg hr
    cases r with
    | done y t' =>
      cases h
      refine ⟨⟨hloop.inv, hloop.pi, (h0.grows.trans hgrows).trans hloop.grows⟩, fun t'' ht'' => ?_⟩
      obtain rfl := Turn.next.inj ht''
      rw [hloop.grows hpre.length_le hg]
      rfl
    | ret t' =>
      cases h
      exact ⟨hloop, fun _ h => by cases h⟩

/-! ### Loops -/

/-- How far the walk is when it comes to page `p`. -/
def mark (r : VRange) (p : ℕ) : ℕ := min r.stop (max r.first p)

theorem mark_of_le (h : r.stop ≤ p) : mark r p = r.stop :=
  min_eq_left (h.trans (le_max_right _ _))

/-- Before the end of the range, the walk is at a page of the entry it visits. -/
theorem mark_mem (hr : r.InHalf) {b n : ℕ} (hn : 0 < n) (hstop : ¬ r.stop ≤ b)
    (hfirst : r.first < b + n) : b ≤ mark r b ∧ mark r b < b + n ∧ mark r b < r.stop := by
  have := hr.first_lt_stop
  unfold mark
  omega

/-- **A loop over entries of `S` pages each**: it leaves off at the end of the range or after its
last entry. -/
theorem forLoop_level {e : ℕ → ℕ} {S N : ℕ} {r : Exit (VmState σ × ℕ)}
    {body : ℕ → VmState σ × ℕ → Except Fault (Turn (VmState σ × ℕ))} (he : Strides e S c.first x)
    (hN : x ≤ N)
    (hbody : ∀ y t fl, y < N → c.first < e y + S →
      Reached c root J mem (mark c.toVRange (e y)) t → body y t = .ok fl →
      fl = .brk t ∧ c.stop ≤ e y ∨ TurnOk c root J K mem (mark c.toVRange (e y + S)) fl)
    (h0 : Reached c root J mem (mark c.toVRange (e 0)) t) (h : forLoop body (N - x) x t = .ok r) :
    r.Holds (Reached c root J mem (mark c.toVRange (e 0 + N * S))) (fun t => K t.1) := by
  have hturn : ∀ y t fl, x ≤ y → y < x + (N - x) →
      Reached c root J mem (mark c.toVRange (e y)) t → body y t = .ok fl →
      fl = .brk t ∧ c.stop ≤ e y ∨ TurnOk c root J K mem (mark c.toVRange (e (y + 1))) fl :=
    fun y t fl hy hy' ht hb => by
      rw [he.succ]
      exact hbody y t fl (by omega) (he.lt_of_le hy) ht hb
  refine forLoop_holds (I := fun y t => Reached c root J mem (mark c.toVRange (e y)) t)
    ?_ ?_ ?_ (fun s hs => ?_) ?_ h
  · intro y t t' hy hy' ht hb
    rcases hturn y t _ hy hy' ht hb with ⟨hfl, -⟩ | hturn
    · cases hfl
    · exact hturn
  · intro y t t' hy hy' ht hb
    rcases hturn y t _ hy hy' ht hb with ⟨hfl, hstop⟩ | hturn
    · obtain rfl := Turn.brk.inj hfl
      rwa [mark, ← clampTo, he.clampTo_end (by omega) hstop]
    · exact hturn.elim
  · intro y t t' hy hy' ht hb
    rcases hturn y t _ hy hy' ht hb with ⟨hfl, -⟩ | hturn
    · cases hfl
    · exact hturn
  · rwa [← he.eq_add, ← Nat.add_sub_of_le hN]
  · rwa [mark, ← clampTo, he.clampTo_start]

theorem firstPtx_spec (h3 : i3 < 512) (h2 : i2 < 512)
    (h : r.first < spell i4 i3 i2 0 + 512) :
    r.firstPtx i4 i3 i2 ≤ 512 ∧ Strides (spell i4 i3 i2) 1 r.first (r.firstPtx i4 i3 i2) := by
  refine strides_of (fun y => by simp only [spell]; omega) ?_
  simp only [VRange.firstPtx, pml4x_eq, pdptx_eq, pdx_eq, ptx_eq, spell, VRange.first] at h ⊢
  split <;> omega

theorem firstPdx_spec (h3 : i3 < 512) (h : r.first < spell i4 i3 0 0 + 512 * 512) :
    r.firstPdx i4 i3 ≤ 512 ∧ Strides (spell i4 i3 · 0) 512 r.first (r.firstPdx i4 i3) := by
  refine strides_of (fun y => by simp only [spell]; omega) ?_
  simp only [VRange.firstPdx, pml4x_eq, pdptx_eq, pdx_eq, spell, VRange.first] at h ⊢
  split <;> omega

theorem firstPdptx_spec (h : r.first < spell i4 0 0 0 + 512 * (512 * 512)) :
    r.firstPdptx i4 ≤ 512 ∧ Strides (spell i4 · 0 0) (512 * 512) r.first (r.firstPdptx i4) := by
  refine strides_of (fun y => by simp only [spell]; omega) ?_
  simp only [VRange.firstPdptx, pml4x_eq, pdptx_eq, spell, VRange.first] at h ⊢
  split <;> omega

section Levels

variable (hc : c.InHalf) {mem : Mem} {t : VmState σ × ℕ} {fl : Turn (VmState σ × ℕ)}
  {i4 i3 i2 i1 : ℕ} (h4 : i4 < 512) (h3 : i3 < 512) (h2 : i2 < 512) (h1 : i1 < 512)

include hJ hc h4 h3 h2 h1 in
/-- The loop over PTEs writes the PTE of the page it stands at. -/
theorem mapPte_turn {ptt : Frame}
    (hptt : path mem root [Fin.ofNat 512 i4, Fin.ofNat 512 i3, Fin.ofNat 512 i2] = some ptt)
    (hfirst : c.first < spell i4 i3 i2 i1 + 1)
    (h0 : Reached c root J mem (mark c.toVRange (spell i4 i3 i2 i1)) t)
    (h : mapPte A c i4 i3 i2 ptt i1 t = .ok fl) :
    fl = .brk t ∧ c.stop ≤ spell i4 i3 i2 i1 ∨
      TurnOk c root J K mem (mark c.toVRange (spell i4 i3 i2 i1 + 1)) fl := by
  simp only [mapPte, hc.limit_le_entryVaddr h4 h3 h2 h1] at h
  split at h
  · rename_i hstop
    exact .inl ⟨(Except.ok.inj h).symm, hstop⟩
  · rename_i hstop
    refine .inr ?_
    have hq : mark c.toVRange (spell i4 i3 i2 i1) = spell i4 i3 i2 i1 := by
      unfold mark; omega
    have hq' : mark c.toVRange (spell i4 i3 i2 i1 + 1) = spell i4 i3 i2 i1 + 1 := by
      unfold mark; omega
    rw [hq] at h0
    rw [hq']
    cases hd : A.drop c.flags (c.entryVaddr i4 i3 i2 i1) (entryAt t.1.mem ptt i1) t.1 with
    | error e => rw [hd] at h; cases h
    | ok s =>
      rw [hd] at h
      cases h
      have htable : path t.1.mem root (tables (spell i4 i3 i2 i1)) = some ptt := by
        rw [tables_spell h3 h2 h1]
        exact h0.grows (by simp) hptt
      have hput := hJ.put h0.inv (by omega) (by omega) htable ⟨_, by rw [slot_spell]; exact hd⟩
      rw [slot_spell, ← h0.pi] at hput
      refine ⟨?_, ?_, fun α f hα hf => ?_⟩
      · rw [← Platform.drop_mem hd] at hput
        exact hput
      · rw [h0.pi, c.pi_succ, show spell i4 i3 i2 i1 + 1 - c.first =
          spell i4 i3 i2 i1 - c.first + 1 by omega]
      · change path (write s.mem _ _ _) root α = some f
        rw [Platform.drop_mem hd]
        exact (follow_write (hJ.tree h0.inv) htable rfl hα).trans (h0.grows hα hf)

include hJ hc h4 h3 h2 in
/-- The loop over PDEs does the pages of one page table. -/
theorem mapPde_turn {pdt : Frame}
    (hpdt : path mem root [Fin.ofNat 512 i4, Fin.ofNat 512 i3] = some pdt)
    (hfirst : c.first < spell i4 i3 i2 0 + 512)
    (h0 : Reached c root J mem (mark c.toVRange (spell i4 i3 i2 0)) t)
    (h : mapPde A c i4 i3 pdt i2 t = .ok fl) :
    fl = .brk t ∧ c.stop ≤ spell i4 i3 i2 0 ∨
      TurnOk c root J K mem (mark c.toVRange (spell i4 i3 i2 0 + 512)) fl := by
  simp only [mapPde, hc.limit_le_entryVaddr h4 h3 h2 (by decide : 0 < 512)] at h
  split at h
  · rename_i hstop
    exact .inl ⟨(Except.ok.inj h).symm, hstop⟩
  · rename_i hstop
    have hmark := mark_mem (n := 512) hc (by decide) hstop hfirst
    have hpre : [Fin.ofNat 512 i4, Fin.ofNat 512 i3] ++ [Fin.ofNat 512 i2] <+:
        tables (mark c.toVRange (spell i4 i3 i2 0)) := by
      rw [tables_of_pde h3 h2 hmark.1 hmark.2.1]
      exact List.prefix_refl _
    refine .inr (descend_turn hJ h0 hpdt hpre (.inl hmark.2.2) (fun g t r ht hg hr => ?_) h).1
    obtain ⟨hle, he⟩ := firstPtx_spec h3 h2 hfirst
    have hloop := forLoop_level he hle (fun y t fl hy hfirst ht hturn =>
      mapPte_turn hJ hc h4 h3 h2 hy hg hfirst ht hturn) ht hr
    exact hloop

include hJ hc h4 h3 in
/-- The loop over PDPTEs does the pages of one page directory. -/
theorem mapPdpte_turn {pdpt : Frame} (hpdpt : path mem root [Fin.ofNat 512 i4] = some pdpt)
    (hfirst : c.first < spell i4 i3 0 0 + 512 * 512)
    (h0 : Reached c root J mem (mark c.toVRange (spell i4 i3 0 0)) t)
    (h : mapPdpte A c i4 pdpt i3 t = .ok fl) :
    fl = .brk t ∧ c.stop ≤ spell i4 i3 0 0 ∨
      TurnOk c root J K mem (mark c.toVRange (spell i4 i3 0 0 + 512 * 512)) fl := by
  simp only [mapPdpte, hc.limit_le_entryVaddr h4 h3 (by decide : 0 < 512)
    (by decide : 0 < 512)] at h
  split at h
  · rename_i hstop
    exact .inl ⟨(Except.ok.inj h).symm, hstop⟩
  · rename_i hstop
    have hmark := mark_mem (n := 512 * 512) hc (by decide) hstop hfirst
    have hpre := prefix_tables_of_pdpte h3 hmark.1 hmark.2.1
    refine .inr (descend_turn hJ h0 hpdpt hpre (.inl hmark.2.2) (fun g t r ht hg hr => ?_) h).1
    obtain ⟨hle, he⟩ := firstPdx_spec h3 hfirst
    have hloop := forLoop_level he hle (fun y t fl hy hfirst ht hturn =>
      mapPde_turn hJ hc h4 h3 hy hg hfirst ht hturn) ht hr
    exact hloop

include hJ hc h4 in
/-- The loop over PML4 entries does the pages of one page directory pointer table. -/
theorem mapPml4e_turn (hroot : path mem root [] = some root) (hstop : i4 ≤ c.stop / 2 ^ 27)
    (hfirst : c.first < spell i4 0 0 0 + 512 * (512 * 512))
    (h0 : Reached c root J mem (mark c.toVRange (spell i4 0 0 0)) t)
    (h : mapPml4e A c root i4 t = .ok fl) :
    TurnOk c root J K mem (mark c.toVRange (spell (i4 + 1) 0 0 0)) fl ∧
      ∀ t', fl = .next t' → (path t'.1.mem root [Fin.ofNat 512 i4]).isSome := by
  rw [show spell (i4 + 1) 0 0 0 = spell i4 0 0 0 + 512 * (512 * 512) by unfold spell; omega]
  have hpre : [Fin.ofNat 512 i4] <+: tables (mark c.toVRange (spell i4 0 0 0)) := by
    refine prefix_tables_of_pml4e ?_ ?_ <;> unfold mark <;> unfold spell at * <;> omega
  refine descend_turn hJ h0 hroot hpre (.inr rfl) (fun g t r ht hg hr => ?_) h
  obtain ⟨hle, he⟩ := firstPdptx_spec hfirst
  have hloop := forLoop_level he hle (fun y t fl hy hfirst ht hturn =>
    mapPdpte_turn hJ hc h4 hy hg hfirst ht hturn) ht hr
  exact hloop

end Levels

include hJ in
/-- **The loop over PML4 entries** does every page of the range and leaves the table below the entry
that holds `addr_limit` in place. -/
theorem pml4Loop_reached (hc : c.InHalf) {r : Exit (VmState σ × ℕ)}
    (h0 : Reached c root J s.mem c.first (s, c.paddr))
    (h : forLoop (mapPml4e A c root) (c.stop / 2 ^ 27 + 1 - c.first / 2 ^ 27) (c.first / 2 ^ 27)
      (s, c.paddr) = .ok r) :
    r.Holds (fun t => J c.stop t.1 ∧
      (path t.1.mem root [Fin.ofNat 512 (c.stop / 2 ^ 27)]).isSome) (fun t => K t.1) := by
  have hlt := hc.first_lt_stop
  have hstop := hc.stop_lt
  refine forLoop_holds (I := fun y t =>
      Reached c root J s.mem (mark c.toVRange (spell y 0 0 0)) t ∧
        (c.first / 2 ^ 27 < y → (path t.1.mem root [Fin.ofNat 512 (y - 1)]).isSome))
    ?_ ?_ ?_ ?_ ?_ h
  · intro y t t' hy hy' ht hturn
    obtain ⟨hok, hpres⟩ := mapPml4e_turn hJ hc (by omega) follow_nil (by omega)
      (by unfold spell; omega) ht.1 hturn
    exact ⟨hok, fun _ => hpres t' rfl⟩
  · intro y t t' hy hy' ht hturn
    exact (mapPml4e_turn hJ hc (by omega) follow_nil (by omega) (by unfold spell; omega) ht.1
      hturn).1.elim
  · intro y t t' hy hy' ht hturn
    exact (mapPml4e_turn hJ hc (by omega) follow_nil (by omega) (by unfold spell; omega) ht.1
      hturn).1
  · rintro t ⟨ht, hpres⟩
    have hend : c.first / 2 ^ 27 + (c.stop / 2 ^ 27 + 1 - c.first / 2 ^ 27) =
        c.stop / 2 ^ 27 + 1 := by omega
    rw [hend] at ht hpres
    have hinv := ht.inv
    rw [mark_of_le (by unfold spell; omega)] at hinv
    exact ⟨hinv, hpres (by omega)⟩
  · have hmark : mark c.toVRange (spell (c.first / 2 ^ 27) 0 0 0) = c.first := by
      unfold mark spell
      omega
    exact ⟨by rwa [hmark], fun h => absurd h (lt_irrefl _)⟩

include hJ in
/-- **The invariant rule for `kh_mmap`.**  A call that succeeds has done every page of the range;
one that runs out of pages gives up and hands the range to `kh_unmmap`. -/
theorem khMmap_reached (hc : c.InHalf) (hp : c.paddr < 2 ^ 64) (h0 : J c.first s)
    (h : khMmap A c root s = .ok (res, s')) :
    (res = .ok ∧ J c.stop s' ∧ (path s'.mem root [Fin.ofNat 512 (c.stop / 2 ^ 27)]).isSome) ∨
      res = .noMem ∧ ∃ s'', K s'' ∧ khUnmmap A c.toVRange 0 root s'' = .ok s' := by
  unfold khMmap at h
  rw [if_neg (fun h => hc.size_pos.ne' h.2), if_neg (fun h => hc.not_crossesSpaces h.2)] at h
  obtain ⟨r, hr, h⟩ := of_bind h
  rw [hc.pml4x_limit, pml4x_eq] at hr
  have hstart : Reached c root J s.mem c.first (s, c.paddr) := by
    refine ⟨h0, ?_, Grows.refl _ _⟩
    rw [Nat.sub_self, MmapArgs.pi, Nat.zero_mul, Nat.add_zero, Nat.mod_eq_of_lt hp]
  have hloop := pml4Loop_reached hJ hc hstart hr
  cases r with
  | done y t =>
    cases h
    exact .inl ⟨rfl, hloop⟩
  | ret t =>
    cases hu : khUnmmap A c.toVRange 0 root t.1 with
    | error e => simp only [hu] at h; cases h
    | ok s'' =>
      simp only [hu] at h
      cases h
      exact .inr ⟨rfl, t.1, hloop, hu⟩

include hJ in
theorem khMmap_of_walkInv (hc : c.InHalf) (hp : c.paddr < 2 ^ 64) (h0 : J c.first s)
    (h : khMmap A c root s = .ok (res, s')) :
    res = .ok ∧ J c.stop s' ∨
      res = .noMem ∧ ∃ s'', K s'' ∧ khUnmmap A c.toVRange 0 root s'' = .ok s' :=
  (khMmap_reached hJ hc hp h0 h).imp_left fun ⟨hres, hinv, _⟩ => ⟨hres, hinv⟩

end Pbos.Hal
