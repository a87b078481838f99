import Pbos.Freestdc.String
import Pbos.Mm.KimaCounts

/-!
# Mm/KimaRealloc — `kima_realloc`

`kima_realloc` looks for room as `kima_alloc` does, but takes no notice of the block it moves when
that is the nearest one.  With room it counts the pages of the area up, moves the bytes and counts
the pages of the old block down; the descriptor of the block is taken out of the query tree for that
time.  Without room it takes new pages, in which it describes every byte of the first page, and
moves nothing.
-/

namespace Pbos.Mm

open Pbos.Kfxx Pbos.Freestdc SlotPool

variable {σ : Type} {oldUblk al c ublk a : ℕ} {M M' : Mem}

/-! ## Model -/

section Model

variable (A : PtrAdd) (V : Vm σ) (L : Layout) (p : Pool)

/-- The end of the block nearest to `ptr`, if that is not the block being moved and overlaps
`[cur, cur + size)`. -/
def blockedByOther (oldUblk cur size ptr : ℕ) : Except Fault (Option ℕ) :=
  if kimaLookupNearestUblk p ptr = some oldUblk then .ok none else blockedBy A p cur size ptr

variable (oldUblk size alignment : ℕ)

/-- The place `kima_realloc` settles on: the first page of an area, and an address. -/
def research : Except Fault (Option (ℕ × ℕ)) :=
  searchWith A L p (blockedByOther A p oldUblk) size alignment

/-- Replacing the block descriptors. -/
def Kima.setUblks (k : Kima σ) (sp : SlotPool) : Kima σ := k.setSlots .ublk k.pool.hdr sp

/-- One reference less to each page of the old block. -/
def unrefOldPages : List ℕ → Kima σ → Except Fault (Kima σ)
  | [], k => .ok k
  | i :: is, k =>
    match kimaLookupVpgdesc k.pool i with
    | none => .error (.assertion "kernel/mm/kima/malloc.cc" 196)
    | some vpgdesc => do
      let k ← unrefPage V L k vpgdesc
      unrefOldPages is k

/-- The block moves to `cur`, in the area at `base`. -/
def reallocFound (k : Kima σ) (M : Mem) (oldUblk oldPtr size base cur : ℕ) :
    Except Fault (ℕ × Kima σ × Mem) := do
  let sp := k.pool.slots .ublk
  let queryTree ← treeRemove sp.queryTree (sp.rbValue oldUblk) oldUblk
  let k := k.setUblks { sp with queryTree := queryTree }
  let k ← refPages A base (Word.multiples 0 (ceilAlignTo size L.pageSize) L.pageSize) k
  let M ← memmove M cur oldPtr (sp.data oldUblk)
  let stop ← A oldPtr (sp.data oldUblk)
  let k ← unrefOldPages V L (Word.multiples (floorAlignTo oldPtr L.pageSize)
    (ceilAlignTo stop L.pageSize) L.pageSize) k
  let sp := k.pool.slots .ublk
  let queryTree ← insertUnwrap sp.queryTree cur oldUblk
  return (cur, k.setUblks { sp with
    queryTree := queryTree
    rbValue := Function.update sp.rbValue oldUblk cur
    data := Function.update sp.data oldUblk size }, M)

/-- The descriptors for new pages: one for every byte of the first page. -/
def newBytes (pg : ℕ) : ℕ → ℕ → Kima σ → Except Fault (ℕ × Bool × Kima σ)
  | 0, _, _ => .error .hang
  | n + 1, i, k =>
    if i < L.pageSize then do
      let byte ← A pg i
      let (vpgdesc, k) ← kimaAllocVpgdesc V L k byte
      match vpgdesc with
      | none => .ok (i, false, k)
      | some vpgdesc =>
        newBytes pg n (Word.add i 1) (k.setRefCount vpgdesc (Word.add (k.refCount vpgdesc) 1))
    else .ok (i, true, k)

/-- The end of `kima_realloc`: a block in new pages. -/
def reallocNew (k : Kima σ) (oldUblk size alignment : ℕ) : Except Fault (ℕ × Kima σ) := do
  let (newFreePg, k) ← kimaVpgalloc V L k (ceilAlignTo (Word.add size alignment) L.pageSize)
  let newFreePg ← alignUp A newFreePg alignment
  if newFreePg = 0 then
    return (0, k)
  let (i, complete, k) ← newBytes A V L newFreePg (2 ^ 64) 0 k
  if complete = false then
    let k ← releaseVpgdescs A V L newFreePg i k
    return (0, k)
  let k := k.setNum (Word.add k.pool.numAllocatedPages (ceilAlignTo size L.pageSize / L.pageSize))
  let k ← kimaFreeUblk V L k oldUblk
  let (ublk, k) ← kimaAllocUblk V L k newFreePg size
  if ublk = none then
    let k ← releaseVpgdescs A V L newFreePg i k
    return (0, k)
  return (newFreePg, k)

/-- `kima_realloc(pool, old_ptr, size, alignment)`; zero is null. -/
def kimaRealloc (k : Kima σ) (M : Mem) (oldPtr size alignment : ℕ) :
    Except Fault (ℕ × Kima σ × Mem) := do
  kdAssert (k.pool.initialized = true) "kernel/mm/kima/malloc.cc" 117
  kdAssert (size ≠ 0) "kernel/mm/kima/malloc.cc" 118
  match kimaLookupUblk k.pool oldPtr with
  | none => .error (.assertion "kernel/mm/kima/malloc.cc" 123)
  | some oldUblk => do
    match ← research A L k.pool oldUblk size alignment with
    | some (base, cur) => reallocFound A V L k M oldUblk oldPtr size base cur
    | none => do
      let (r, k) ← reallocNew A V L k oldUblk size alignment
      return (r, k, M)

end Model

variable {A : PtrAdd} {V : Vm σ} {L : Layout} {k k' : Kima σ} {p : Pool} {size n cur base old r : ℕ}

/-! ## The two paths -/

/-- What a call that returns has done. -/
theorem kimaRealloc_eq_ok_iff :
    kimaRealloc A V L k M old size al = .ok (r, k', M') ↔
      k.pool.initialized = true ∧ size ≠ 0 ∧ ∃ ublk, kimaLookupUblk k.pool old = some ublk ∧
        ((∃ base cur, research A L k.pool ublk size al = .ok (some (base, cur)) ∧
          reallocFound A V L k M ublk old size base cur = .ok (r, k', M')) ∨
        research A L k.pool ublk size al = .ok none ∧
          reallocNew A V L k ublk size al = .ok (r, k') ∧ M' = M) := by
  simp only [kimaRealloc, bind_eq_ok_iff, kdAssert_eq_ok_iff, exists_const]
  refine and_congr_right fun _ => and_congr_right fun _ => ?_
  cases hublk : kimaLookupUblk k.pool old with
  | none => simp
  | some ublk =>
    simp only [bind_eq_ok_iff, Option.some.injEq, exists_eq_left']
    constructor
    · rintro ⟨_ | ⟨base, cur⟩, hsearch, hrun⟩
      · obtain ⟨⟨r', k₁⟩, hnew, hrun⟩ := of_bind hrun
        cases hrun
        exact .inr ⟨hsearch, hnew, rfl⟩
      · exact .inl ⟨base, cur, hsearch, hrun⟩
    · rintro (⟨base, cur, hsearch, hfound⟩ | ⟨hsearch, hnew, rfl⟩)
      · exact ⟨_, hsearch, hfound⟩
      · exact ⟨_, hsearch, bind_eq_ok_iff.mpr ⟨_, hnew, rfl⟩⟩

/-! ## Block descriptors out of sight

The pages are counted up and down while the block that moves is not in the query tree.  They do not
look at it, except that the memory manager sees the pool without it. -/

/-- The memory manager as it sees the pool with other block descriptors. -/
def Vm.seeing (V : Vm σ) (sp : SlotPool) : Vm σ where
  vpgalloc := fun p => V.vpgalloc (p.setSlots .ublk p.hdr sp)
  vpgfree := fun p => V.vpgfree (p.setSlots .ublk p.hdr sp)

variable (k) (sp : SlotPool)

@[simp] theorem setUblks_ublk : (k.setUblks sp).pool.slots .ublk = sp := by
  simp [Kima.setUblks, Kima.setSlots, Pool.setSlots]

@[simp] theorem setUblks_vpgdesc : (k.setUblks sp).pool.slots .vpgdesc = k.pool.slots .vpgdesc := by
  simp [Kima.setUblks, Kima.setSlots, Pool.setSlots]

theorem setUblks_setUblks (sp' : SlotPool) : (k.setUblks sp).setUblks sp' = k.setUblks sp' := by
  simp [Kima.setUblks, Kima.setSlots, Pool.setSlots]

theorem setUblks_setSlots (sp' : SlotPool) (hdr : Headers) :
    (k.setUblks sp).setSlots .vpgdesc hdr sp' = (k.setSlots .vpgdesc hdr sp').setUblks sp := by
  simp only [Kima.setUblks, Kima.setSlots, Pool.setSlots]
  rw [Function.update_comm (by decide)]

theorem setUblks_setRefCount (n c : ℕ) :
    (k.setUblks sp).setRefCount n c = (k.setRefCount n c).setUblks sp := by
  rw [Kima.setRefCount, setUblks_vpgdesc]
  exact setUblks_setSlots ..

theorem setUblks_refCount (n : ℕ) : (k.setUblks sp).refCount n = k.refCount n := by
  rw [Kima.refCount, setUblks_vpgdesc, Kima.refCount]

theorem setUblks_lookup (q : ℕ) :
    kimaLookupVpgdesc (k.setUblks sp).pool q = kimaLookupVpgdesc k.pool q := by
  rw [kimaLookupVpgdesc, setUblks_vpgdesc, kimaLookupVpgdesc]

theorem setUblks_pages : (k.setUblks sp).pool.pages = k.pool.pages := by
  rw [Pool.pages, setUblks_vpgdesc, Pool.pages]

theorem setUblks_setNum (n : ℕ) : (k.setUblks sp).setNum n = (k.setNum n).setUblks sp := rfl

theorem setUblks_num : (k.setUblks sp).pool.numAllocatedPages = k.pool.numAllocatedPages := rfl

variable {k} {sp sp' : SlotPool}

theorem refPages_setUblks {js : List ℕ} (hrun : refPages A base js (k.setUblks sp) = .ok k') :
    ∃ k₁, refPages A base js k = .ok k₁ ∧ k' = k₁.setUblks sp := by
  induction js generalizing k with
  | nil => exact ⟨k, rfl, (Except.ok.inj hrun).symm⟩
  | cons j js ih =>
    obtain ⟨page, hpage, hrun⟩ := of_bind hrun
    rw [setUblks_lookup] at hrun
    split at hrun
    · cases hrun
    · rename_i n hfind
      rw [setUblks_refCount, setUblks_setRefCount] at hrun
      obtain ⟨k₁, hk₁, hk'⟩ := ih hrun
      refine ⟨k₁, bind_eq_ok_iff.mpr ⟨page, hpage, ?_⟩, hk'⟩
      rw [hfind]
      exact hk₁

theorem kimaVpgfree_setUblks {addr : ℕ} (hrun : kimaVpgfree V L (k.setUblks sp) addr size = .ok k')
    : ∃ k₁, kimaVpgfree (V.seeing sp) L k addr size = .ok k₁ ∧ k' = k₁.setUblks sp := by
  obtain ⟨u, hassert, env, hcall, hrun⟩ := by simpa only [kimaVpgfree, bind_eq_ok_iff] using hrun
  refine ⟨{ pool := { k.pool with
    held := k.pool.held.filter (· ∉ Word.multiples addr (addr + size) L.pageSize) }, env := env },
    ?_, (Except.ok.inj hrun).symm⟩
  simp only [kimaVpgfree, bind_eq_ok_iff]
  exact ⟨u, hassert, env, hcall, rfl⟩

/-- **The pages of the old block are counted down** as `kima_free` does it. -/
theorem unrefOldPages_setUblks {is : List ℕ}
    (hrun : unrefOldPages V L is (k.setUblks sp) = .ok k') :
    ∃ k₁, unrefPages (V.seeing sp) L is k = .ok k₁ ∧ k' = k₁.setUblks sp := by
  induction is generalizing k with
  | nil => exact ⟨k, rfl, (Except.ok.inj hrun).symm⟩
  | cons i is ih =>
    unfold unrefOldPages at hrun
    rw [setUblks_lookup] at hrun
    split at hrun
    · cases hrun
    · rename_i n hfind
      obtain ⟨k₂, hstep, hrun⟩ := of_bind hrun
      have hunref : ∃ k₁, unrefPage (V.seeing sp) L k n = .ok k₁ ∧ k₂ = k₁.setUblks sp := by
        simp only [unrefPage, setUblks_refCount, setUblks_setRefCount] at hstep ⊢
        split at hstep
        · rename_i hzero
          rw [if_pos hzero]
          simp only [kimaFreeVpgdesc, freeSlot, setUblks_vpgdesc, setUblks_setSlots, bind_eq_ok_iff]
            at hstep ⊢
          obtain ⟨⟨hdr, sp', gone⟩, hrel, hstep⟩ := hstep
          cases gone with
          | false => exact ⟨_, ⟨_, hrel, rfl⟩, (Except.ok.inj hstep).symm⟩
          | true =>
            obtain ⟨k₂, hfree, hstep⟩ := of_bind hstep
            obtain ⟨k₁, hfree₁, rfl⟩ := kimaVpgfree_setUblks hfree
            rw [setUblks_num, setUblks_setNum] at hstep
            exact ⟨_, ⟨_, hrel, bind_eq_ok_iff.mpr ⟨k₁, hfree₁, rfl⟩⟩, (Except.ok.inj hstep).symm⟩
        · rename_i hne
          rw [if_neg hne]
          exact ⟨_, rfl, (Except.ok.inj hstep).symm⟩
      obtain ⟨k₁, hk₁, rfl⟩ := hunref
      obtain ⟨k₃, hk₃, hk'⟩ := ih hrun
      refine ⟨k₃, ?_, hk'⟩
      unfold unrefPages
      rw [hfind]
      exact bind_eq_ok_iff.mpr ⟨k₁, hk₁, hk₃⟩

/-- **What moving the block has done**: the pages are counted up and down as on the pool with the
block, the bytes are moved, and the block is at its new place. -/
theorem reallocFound_cases (h : k.pool.Ok L) (hublk : kimaLookupUblk k.pool old = some ublk)
    (hn : k.pool.live.find old = some n)
    (hrun : reallocFound A V L k M ublk old size base cur = .ok (r, k', M')) :
    r = cur ∧ memmove M cur old n = .ok M' ∧
      (∀ b, k'.pool.live.find b = if b = cur then some size else if b = old then none else
        k.pool.live.find b) ∧
      ∃ stop k₁ k₂ sp, A old n = .ok stop ∧
        refPages A base (Word.multiples 0 (ceilAlignTo size L.pageSize) L.pageSize) k = .ok k₁ ∧
        unrefPages (V.seeing sp) L (Word.multiples (floorAlignTo old L.pageSize)
          (ceilAlignTo stop L.pageSize) L.pageSize) k₁ = .ok k₂ ∧
            k'.pool.pages = k₂.pool.pages := by
  obtain ⟨P, hP⟩ := h
  have hquery := (hP.slots .ublk).query
  have hrb : (k.pool.slots .ublk).rbValue ublk = old := (hquery old ublk hublk).1
  have hdata : (k.pool.slots .ublk).data ublk = n := by
    rw [live_find, hublk] at hn
    exact Option.some.inj hn
  simp only [reallocFound, bind_eq_ok_iff, hrb, hdata] at hrun
  obtain ⟨tree, htree, k₁', href, M₁, hmove, stop, hstop, k₂', hunref, tree', htree', hrun⟩ := hrun
  obtain ⟨-, rfl⟩ := treeRemove_eq_ok htree
  obtain ⟨k₁, href₁, rfl⟩ := refPages_setUblks href
  obtain ⟨k₂, hunref₁, rfl⟩ := unrefOldPages_setUblks hunref
  simp only [setUblks_ublk, setUblks_setUblks] at htree' hrun
  obtain ⟨-, rfl⟩ := insertUnwrap_eq_ok htree'
  cases hrun
  refine ⟨rfl, hmove, fun b => ?_, stop, k₁, k₂, _, hstop, href₁, hunref₁, setUblks_pages ..⟩
  rw [Pool.live, setUblks_ublk, find_view, OrdMap.find_insert, OrdMap.find_erase]
  by_cases hcur : b = cur
  · simp [hcur]
  · rw [if_neg hcur, if_neg hcur]
    by_cases hold : b = old
    · simp [hold]
    · rw [if_neg hold, if_neg hold, live_find]
      change _ = ((k.pool.slots .ublk).queryTree.find b).map _
      cases hb : (k.pool.slots .ublk).queryTree.find b with
      | none => rfl
      | some m =>
        have hne : m ≠ ublk := fun e => hold ((hquery b m hb).1.symm.trans (e ▸ hrb))
        simp [Function.update_of_ne hne]

/-- Which path is taken and where it leads does not depend on the contents of memory. -/
theorem reallocFound_mem {N N' : Mem}
    (hrun : reallocFound A V L k M ublk old size base cur = .ok (r, k', M'))
    (hmove : memmove N cur old ((k.pool.slots .ublk).data ublk) = .ok N') :
    reallocFound A V L k N ublk old size base cur = .ok (r, k', N') := by
  simp only [reallocFound, bind_eq_ok_iff] at hrun ⊢
  obtain ⟨tree, htree, k₁, href, M₁, -, stop, hstop, k₂, hunref, tree', htree', hrun⟩ := hrun
  cases hrun
  exact ⟨tree, htree, k₁, href, N', hmove, stop, hstop, k₂, hunref, tree', htree', rfl⟩

/-! ## New pages -/

/-- Aligned addresses are aligned, also where the sum wraps. -/
theorem dvd_of_alignUp {c' : ℕ} (ha : a < 64) (h : alignUp wrapAdd c (2 ^ a) = .ok c') :
    2 ^ a ∣ c' := by
  unfold alignUp at h
  split at h
  · cases h
    have hlt := Nat.mod_lt c (Nat.two_pow_pos a)
    refine (Nat.dvd_mod_iff (Nat.pow_dvd_pow 2 ha.le)).mpr ?_
    rw [show c + (2 ^ a - c % 2 ^ a) = 2 ^ a * (c / 2 ^ a) + 2 ^ a by
      have := Nat.div_add_mod c (2 ^ a)
      omega]
    exact Nat.dvd_add (Nat.dvd_mul_right _ _) dvd_rfl
  · rename_i hz
    cases h
    exact Nat.dvd_of_mod_eq_zero (not_not.mp hz)

/-- **A block in new pages is not where the old one is**: its first byte had no descriptor. -/
theorem reallocNew_ne (hV : V.Contract L) (h : Sound L k.pool) (ha : a < 64)
    (hold : k.pool.live.find old = some n)
    (hrun : reallocNew wrapAdd V L k ublk size (2 ^ a) = .ok (r, k')) (hr : r ≠ 0) : r ≠ old := by
  rintro rfl
  simp only [reallocNew, bind_eq_ok_iff] at hrun
  obtain ⟨⟨v, k₁⟩, hcall, pg, halign, hrun⟩ := hrun
  split at hrun
  · exact hr (ok_mk_inj hrun).1.symm
  obtain ⟨⟨i, complete, k₂⟩, hbytes, hrun⟩ := of_bind hrun
  obtain ⟨rfl, rfl⟩ : complete = true ∧ pg = r := by
    cases complete with
    | false =>
      obtain ⟨k₃, -, hrun⟩ := of_bind hrun
      exact absurd (ok_mk_inj hrun).1.symm hr
    | true =>
      obtain ⟨k₃, -, ⟨u, k₄⟩, -, hrun⟩ := by
        simpa only [Bool.true_eq_false, if_false, bind_eq_ok_iff] using hrun
      split at hrun
      · obtain ⟨k₅, -, hrun⟩ := of_bind hrun
        exact absurd (ok_mk_inj hrun).1.symm hr
      · exact ⟨rfl, (ok_mk_inj hrun).1⟩
  obtain ⟨-, hvd, hk₁⟩ := kimaVpgalloc_cases hV hcall
  have hslots : k₁.pool.slots = k.pool.slots := by
    obtain ⟨-, hk₁⟩ | ⟨-, hk₁, -⟩ := hk₁ <;> rw [hk₁]
  obtain ⟨hok₁, -⟩ := h.ok.kimaVpgalloc hV hcall
  obtain ⟨P, hP⟩ := hok₁
  rw [show (2 ^ 64 : ℕ) = (2 ^ 64 - 1) + 1 from rfl, newBytes, if_pos L.pageSize_pos] at hbytes
  obtain ⟨byte, hbyte, ⟨d, k₃⟩, hdesc, hbytes⟩ := by simpa only [bind_eq_ok_iff] using hbytes
  obtain rfl : byte = pg := by
    have := h.bounds hold
    exact (Except.ok.inj hbyte).symm.trans (Word.add_of_lt (by omega))
  obtain ⟨c, hc⟩ := h.backed byte n hold byte le_rfl (by have := h.pos _ _ hold; omega)
  have halignup : L.pageSize ∣ byte := by
    rcases le_total L.shift a with hle | hle
    · exact (Nat.pow_dvd_pow 2 hle).trans (dvd_of_alignUp ha halign)
    · have hz : v % 2 ^ a = 0 := Nat.mod_eq_zero_of_dvd ((Nat.pow_dvd_pow 2 hle).trans hvd)
      rw [alignUp, if_neg (by simpa using hz)] at halign
      exact Except.ok.inj halign ▸ hvd
  rw [floorAlignTo_eq halignup le_rfl (by have := L.pageSize_pos; omega),
    pages_find] at hc
  obtain ⟨rfl, -⟩ | ⟨m, -, hdescribes, -⟩ := allocSlot_moves hV hP hdesc
  · cases hbytes
  · have habsent := hdescribes.absent
    rw [hslots] at habsent
    rw [kimaLookupVpgdesc, SlotPool.lookup, habsent] at hc
    cases hc

end Pbos.Mm
