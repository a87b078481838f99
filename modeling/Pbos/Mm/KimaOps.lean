import Pbos.Mm.Kima

/-!
# Mm/KimaOps — what the parts of kima do to the blocks and the pages

A pool is read through two maps: `live`, the sizes of the live blocks, and `pages`, the reference
counts of the described pages.  Each operation of `ublk.cc` and `vpgdesc.cc`, and each loop of
`malloc.cc` over pages, changes these maps in one way, and keeps the descriptors in order (`Ok`).
The virtual memory manager is held to its contract: page-aligned ranges, apart from the live blocks
and from the pages the pool holds.
-/

namespace Pbos.Mm

open Pbos.Kfxx SlotPool Function List

/-! ## The contract of the virtual memory manager -/

/-- **What `kima_vpgalloc` promises**: a range of pages, apart from the live blocks and from the
pages the pool already holds. -/
structure Vm.Contract {σ : Type} (V : Vm σ) (L : Layout) : Prop where
  aligned : ∀ p e n v e', V.vpgalloc p e n = .ok (v, e') → L.pageSize ∣ v
  block : ∀ p e n v e', V.vpgalloc p e n = .ok (v, e') → v ≠ 0 →
    ∀ b m, p.live.find b = some m → ¬ Blocks.Overlap v n b m
  page : ∀ p e n v e', V.vpgalloc p e n = .ok (v, e') → v ≠ 0 →
    ∀ q ∈ p.held, ¬ Blocks.Overlap v n q L.pageSize

theorem Layout.pageSize_pos (L : Layout) : 0 < L.pageSize := Nat.two_pow_pos _

theorem Layout.pageSize_lt (L : Layout) : L.pageSize < 2 ^ 64 :=
  Nat.pow_lt_pow_right (by norm_num) L.shift_lt

theorem Layout.pageSize_dvd (L : Layout) : L.pageSize ∣ 2 ^ 64 := Nat.pow_dvd_pow 2 L.shift_lt.le

/-! ## Pools in order -/

/-- The entries of a pool, by kind. -/
def Pool.view (p : Pool) (κ : Kind) : OrdMap ℕ ℕ := (p.slots κ).view

/-- The descriptors of both kinds are in order, in pool pages of their own that the pool holds. -/
structure PoolOk (L : Layout) (p : Pool) (P : Kind → List ℕ) : Prop where
  init : p.initialized = true
  slots : ∀ κ, SlotOk (L.slots κ) p.hdr.usedNum (p.slots κ) (P κ)
  apart : ∀ κ κ' pg, pg ∈ P κ → pg ∈ P κ' → κ = κ'
  held : ∀ κ, ∀ pg ∈ P κ, pg ∈ p.held

/-- A pool whose descriptors are in order. -/
def Pool.Ok (L : Layout) (p : Pool) : Prop := ∃ P, PoolOk L p P

theorem ok_kiInitKimaPool (L : Layout) : kiInitKimaPool.Ok L :=
  ⟨fun _ => [], rfl, fun _ => ⟨⟨nodup_nil, by simp, by simp [kiInitKimaPool, emptySlots],
    by simp [kiInitKimaPool, emptySlots], by simp, by simp⟩, by simp⟩, by simp, by simp⟩

variable {σ : Type} {V : Vm σ} {L : Layout} {k k' : Kima σ} {κ : Kind} {p p' : Pool}
  {P : Kind → List ℕ} {ptr d pages node size v pg : ℕ} {hdr : Headers} {sp : SlotPool}
  {r : Option ℕ} {key n : ℕ} {m : OrdMap ℕ ℕ}

theorem view_setSlots (p : Pool) (κ : Kind) (hdr : Headers) (sp : SlotPool) :
    (p.setSlots κ hdr sp).view = update p.view κ sp.view := by
  funext κ'
  by_cases h : κ' = κ
  · subst h
    simp [Pool.view, Pool.setSlots]
  · simp [Pool.view, Pool.setSlots, update_of_ne h]

/-- Replacing the descriptors of one kind by others that are in order. -/
theorem PoolOk.setSlots (h : PoolOk L p P) {Q : List ℕ} (hsp : SlotOk (L.slots κ) hdr.usedNum sp Q)
    (hframe : ∀ q, q ∉ P κ → q ∉ Q → hdr.usedNum q = p.hdr.usedNum q) (hheld : ∀ q ∈ Q, q ∈ p.held)
    (hother : ∀ q ∈ Q, ∀ κ', κ' ≠ κ → q ∉ P κ') :
    PoolOk L (p.setSlots κ hdr sp) (update P κ Q) := by
  have hne : ∀ κ', κ' ≠ κ → ∀ q ∈ P κ', q ∉ P κ ∧ q ∉ Q := fun κ' hκ q hq =>
    ⟨fun hq' => hκ (h.apart κ' κ q hq hq'), fun hq' => hother q hq' κ' hκ hq⟩
  refine ⟨h.init, fun κ' => ?_, fun κ₁ κ₂ q h₁ h₂ => ?_, fun κ' q hq => ?_⟩
  · by_cases hκ : κ' = κ
    · subst hκ
      simpa [Pool.setSlots] using hsp
    · simp only [Pool.setSlots, update_of_ne hκ]
      exact (h.slots κ').congr_used fun q hq => hframe q (hne κ' hκ q hq).1 (hne κ' hκ q hq).2
  · by_cases hκ₁ : κ₁ = κ <;> by_cases hκ₂ : κ₂ = κ
    · rw [hκ₁, hκ₂]
    · subst hκ₁
      rw [update_self] at h₁
      rw [update_of_ne hκ₂] at h₂
      exact absurd h₂ (hother q h₁ κ₂ hκ₂)
    · subst hκ₂
      rw [update_self] at h₂
      rw [update_of_ne hκ₁] at h₁
      exact absurd h₁ (hother q h₂ κ₁ hκ₁)
    · rw [update_of_ne hκ₁] at h₁
      rw [update_of_ne hκ₂] at h₂
      exact h.apart κ₁ κ₂ q h₁ h₂
  · by_cases hκ : κ' = κ
    · subst hκ
      rw [update_self] at hq
      exact hheld q hq
    · rw [update_of_ne hκ] at hq
      exact h.held κ' q hq

/-- Replacing them within the same pool pages. -/
theorem PoolOk.setSlots_same (h : PoolOk L p P) (hsp : SlotOk (L.slots κ) hdr.usedNum sp (P κ))
    (hframe : ∀ q ∉ P κ, hdr.usedNum q = p.hdr.usedNum q) : PoolOk L (p.setSlots κ hdr sp) P := by
  have hset := h.setSlots hsp (fun q hq _ => hframe q hq) (h.held κ) fun q hq κ' hκ hq' =>
    hκ (h.apart κ' κ q hq' hq)
  rwa [update_eq_self] at hset

section SetSlots

variable {κ' : Kind} {hdr : Headers} {sp : SlotPool}

@[simp] theorem slots_setSlots : (p.setSlots κ hdr sp).slots κ = sp := update_self ..

theorem slots_setSlots_of_ne (hκ : κ' ≠ κ) : (p.setSlots κ hdr sp).slots κ' = p.slots κ' :=
  update_of_ne hκ _ _

theorem poolpgList_setSlots (h : sp.poolpgList = (p.slots κ).poolpgList) :
    ((p.setSlots κ hdr sp).slots κ').poolpgList = (p.slots κ').poolpgList := by
  by_cases hκ : κ' = κ
  · rw [hκ, slots_setSlots, h]
  · rw [slots_setSlots_of_ne hκ]

end SetSlots

/-! ## Pages from and to the virtual memory manager -/

/-- `kima_vpgalloc` keeps the pool, and hands out what its contract says. -/
theorem kimaVpgalloc_cases (hV : V.Contract L) (hrun : kimaVpgalloc V L k size = .ok (v, k')) :
    size ≠ 0 ∧ L.pageSize ∣ v ∧ (v = 0 ∧ k'.pool = k.pool ∨ v ≠ 0 ∧ k'.pool = { k.pool with
        held := Word.multiples v (v + size) L.pageSize ++ k.pool.held } ∧
      (∃ e e', V.vpgalloc k.pool e size = .ok (v, e')) ∧
      (∀ b m, k.pool.live.find b = some m → ¬ Blocks.Overlap v size b m) ∧
      ∀ q ∈ k.pool.held, ¬ Blocks.Overlap v size q L.pageSize) := by
  simp only [kimaVpgalloc, bind_eq_ok_iff] at hrun
  obtain ⟨_, hassert, ⟨w, e⟩, hcall, hrest⟩ := hrun
  have hsize : size ≠ 0 := by
    by_contra h0
    rw [kdAssert_of_neg (by simpa using h0)] at hassert
    cases hassert
  have hal := hV.aligned _ _ _ _ _ hcall
  split at hrest
  · rename_i hw
    cases hrest
    exact ⟨hsize, dvd_zero _, .inl ⟨rfl, rfl⟩⟩
  · rename_i hw
    cases hrest
    exact ⟨hsize, hal, .inr ⟨hw, rfl, ⟨_, _, hcall⟩, hV.block _ _ _ _ _ hcall hw,
      hV.page _ _ _ _ _ hcall hw⟩⟩

/-- The answer is that of the virtual memory manager. -/
theorem kimaVpgalloc_env (hrun : kimaVpgalloc V L k size = .ok (v, k')) :
    V.vpgalloc k.pool k.env size = .ok (v, k'.env) := by
  obtain ⟨_, -, ⟨w, e⟩, hcall, hrest⟩ := by simpa only [kimaVpgalloc, bind_eq_ok_iff] using hrun
  split at hrest
  · rename_i hw
    obtain rfl : w = 0 := hw
    cases hrest
    exact hcall
  · cases hrest
    exact hcall

theorem PoolOk.mono_held (h : PoolOk L p P) {held : List ℕ} (hh : ∀ q ∈ p.held, q ∈ held) :
    PoolOk L { p with held := held } P :=
  ⟨h.init, h.slots, h.apart, fun κ q hq => hh q (h.held κ q hq)⟩

/-- `kima_vpgalloc` keeps a pool in order, and does not touch its blocks and pages. -/
theorem Pool.Ok.kimaVpgalloc (h : k.pool.Ok L) (hV : V.Contract L)
    (hrun : kimaVpgalloc V L k size = .ok (v, k')) : k'.pool.Ok L ∧ k'.pool.view = k.pool.view := by
  obtain ⟨P, hP⟩ := h
  obtain ⟨-, -, ⟨-, hk'⟩ | ⟨-, hk', -⟩⟩ := kimaVpgalloc_cases hV hrun
  · rw [hk']
    exact ⟨⟨P, hP⟩, rfl⟩
  · rw [hk']
    exact ⟨⟨P, hP.mono_held fun q hq => mem_append_right _ hq⟩, rfl⟩

/-- `num_allocated_pages` plays no part in the order of a pool. -/
theorem PoolOk.setNum (h : PoolOk L k.pool P) (n : ℕ) : PoolOk L (k.setNum n).pool P :=
  ⟨h.init, h.slots, h.apart, h.held⟩

theorem Pool.Ok.setNum (h : k.pool.Ok L) (n : ℕ) : (k.setNum n).pool.Ok L := by
  obtain ⟨P, hP⟩ := h
  exact ⟨P, hP.setNum n⟩

@[simp] theorem slots_setNum (k : Kima σ) (n : ℕ) : (k.setNum n).pool.slots = k.pool.slots := rfl

/-! ## What becomes of the pool pages -/

/-- No pool page comes or goes. -/
structure Keeps (p p' : Pool) : Prop where
  prev : p'.hdr.prev = p.hdr.prev
  next : p'.hdr.next = p.hdr.next
  list : ∀ κ, (p'.slots κ).poolpgList = (p.slots κ).poolpgList
  held : p'.held = p.held
  num : p'.numAllocatedPages = p.numAllocatedPages

/-- A new pool page `pg`, which counts for `pages`. -/
structure Pushes (κ : Kind) (pg pages : ℕ) (p p' : Pool) : Prop where
  fresh : pg ∉ p.held
  prev : p'.hdr.prev = (SlotPool.linkPage p.hdr (p.slots κ).poolpgList pg).prev
  next : p'.hdr.next = (SlotPool.linkPage p.hdr (p.slots κ).poolpgList pg).next
  list : ∀ κ', (p'.slots κ').poolpgList = if κ' = κ then some pg else (p.slots κ').poolpgList
  held : p'.held = pg :: p.held
  num : p'.numAllocatedPages = Word.add p.numAllocatedPages pages

/-- The pool page `pg` goes, and with it a count of `pages`.  The heads of the lists stay. -/
structure Drops (pg pages : ℕ) (p p' : Pool) : Prop where
  prev : p'.hdr.prev = (SlotPool.unlinkPage p.hdr pg).prev
  next : p'.hdr.next = (SlotPool.unlinkPage p.hdr pg).next
  list : ∀ κ, (p'.slots κ).poolpgList = (p.slots κ).poolpgList
  held : p'.held = p.held.filter (· ≠ pg)
  num : p'.numAllocatedPages = Word.sub p.numAllocatedPages pages

/-- The node `n` describes `ptr`, which had no descriptor. -/
structure Describes (κ : Kind) (ptr n d : ℕ) (p p' : Pool) : Prop where
  absent : (p.slots κ).queryTree.find ptr = none
  query : (p'.slots κ).queryTree = (p.slots κ).queryTree.insert ptr n
  data : (p'.slots κ).data = update (p.slots κ).data n d
  others : ∀ κ', κ' ≠ κ → p'.slots κ' = p.slots κ'

/-- Nothing describes `ptr` any more. -/
structure Forgets (κ : Kind) (ptr : ℕ) (p p' : Pool) : Prop where
  query : (p'.slots κ).queryTree = (p.slots κ).queryTree.erase ptr
  data : (p'.slots κ).data = (p.slots κ).data
  others : ∀ κ', κ' ≠ κ → p'.slots κ' = p.slots κ'

theorem Describes.view (h : Describes κ ptr node d p p') (hP : PoolOk L p' P) :
    p'.view = update p.view κ ((p.view κ).insert ptr d) := by
  funext κ'
  by_cases hκ : κ' = κ
  · subst hκ
    rw [update_self]
    refine view_eq_insert h.query h.data fun key hkey => ?_
    have hptr : (p'.slots κ').queryTree.find ptr = some node := by simp [h.query]
    have hkey' : (p'.slots κ').queryTree.find key = some node := by
      rw [h.query, OrdMap.find_insert]
      split
      · rfl
      · exact hkey
    have hsame : key = ptr := ((hP.slots κ').query key node hkey').1.symm.trans
      ((hP.slots κ').query ptr node hptr).1
    rw [hsame, h.absent] at hkey
    cases hkey
  · rw [update_of_ne hκ, Pool.view, h.others κ' hκ]
    rfl

theorem Forgets.view (h : Forgets κ ptr p p') :
    p'.view = update p.view κ ((p.view κ).erase ptr) := by
  funext κ'
  by_cases hκ : κ' = κ
  · subst hκ
    rw [update_self]
    exact view_eq_erase h.query h.data
  · rw [update_of_ne hκ, Pool.view, h.others κ' hκ]
    rfl

/-! ## Descriptors -/

theorem find_view_isSome (h : sp.queryTree.find key = some n) :
    sp.view.find key = some (sp.data n) := by
  rw [find_view, h]
  rfl

/-- A free slot becomes a descriptor. -/
theorem takeFree_moves (hP : PoolOk L p P) (hfirst : (p.slots κ).freeTree.first = some (key, n))
    (htake : (p.slots κ).takeFree L.pageSize p.hdr n ptr d = .ok (hdr, sp)) :
    Describes κ ptr n d p (p.setSlots κ hdr sp) ∧ PoolOk L (p.setSlots κ hdr sp) P ∧
      Keeps p (p.setSlots κ hdr sp) ∧ sp.freeTree.size + 1 = (p.slots κ).freeTree.size := by
  obtain ⟨⟨hprev, hnext⟩, hlist, ⟨hptr, hquery⟩, hfree, hfree', hdata⟩ := takeFree_eq_ok htake
  have hdesc : (p.slots κ).freeTree.find key = some n :=
    (OrdMap.find_eq_some_iff _).mpr (mem_of_mem_head? hfirst)
  obtain ⟨hdr', sp', hok, hsp, hframe⟩ := takeFree_spec (hP.slots κ) L.pageSize_lt hdesc hptr d
  obtain ⟨rfl, rfl⟩ : hdr' = hdr ∧ sp' = sp := by simpa using hok.symm.trans htake
  refine ⟨⟨hptr, ?_, ?_, fun κ' hκ => slots_setSlots_of_ne hκ⟩, hP.setSlots_same hsp hframe,
    ⟨hprev, hnext, fun κ' => poolpgList_setSlots hlist, rfl, rfl⟩, ?_⟩
  · rw [slots_setSlots, hquery]
  · rw [slots_setSlots, hdata]
  · rw [hfree', OrdMap.size_erase _ hfree]

/-- The first slot of a new pool page becomes a descriptor, and the others are free. -/
theorem addPage_moves (hP : PoolOk L p P) (hal : L.pageSize ∣ pg) (hfresh : pg ∉ p.held)
    (hadd : (p.slots κ).addPage (L.slots κ) p.hdr pg ptr d = .ok (hdr, sp))
    (hp' : p' = { (p.setSlots κ hdr sp) with
      held := pg :: p.held
      numAllocatedPages := Word.add p.numAllocatedPages pages }) :
    Describes κ ptr (pg + (L.slots κ).slotsOff) d p p' ∧
      PoolOk L p' (update P κ (pg :: P κ)) ∧ Pushes κ pg pages p p' ∧
      (p'.slots κ).freeTree.size + 1 = (p.slots κ).freeTree.size + (L.slots κ).slotsSize := by
  obtain ⟨hhdr, hlist, ⟨hptr, hquery⟩, hsize, hdata⟩ := addPage_eq_ok hadd
  have hout : ∀ κ', pg ∉ P κ' := fun κ' hmem => hfresh (hP.held κ' pg hmem)
  obtain ⟨hdr', sp', hok, hsp, hframe⟩ := addPage_spec (hP.slots κ) hal (hout κ) hptr d
  obtain ⟨rfl, rfl⟩ : hdr' = hdr ∧ sp' = sp := by simpa using hok.symm.trans hadd
  have hsame : p'.slots = (p.setSlots κ hdr' sp').slots := by rw [hp']
  have hslots : p'.slots κ = sp' := by rw [hsame, slots_setSlots]
  have hothers : ∀ κ', κ' ≠ κ → p'.slots κ' = p.slots κ' := fun κ' hκ => by
    rw [hsame, slots_setSlots_of_ne hκ]
  have hpool := (hP.mono_held fun q hq => mem_cons_of_mem pg hq).setSlots hsp
    (fun q _ hq => hframe q hq)
    (forall_mem_cons.mpr ⟨mem_cons_self, fun q hq =>
      mem_cons_of_mem pg (hP.held κ q hq)⟩)
    (forall_mem_cons.mpr ⟨fun κ' _ => hout κ', fun q hq κ' hκ hq' =>
      hκ (hP.apart κ' κ q hq' hq)⟩)
  have hdescribes : Describes κ ptr (pg + (L.slots κ).slotsOff) d p p' :=
    ⟨hptr, by rw [hslots, hquery], by rw [hslots, hdata], hothers⟩
  refine ⟨hdescribes, ?_, ⟨hfresh, ?_, ?_, fun κ' => ?_, ?_, ?_⟩, ?_⟩
  · rw [hp']
    exact ⟨hpool.init, hpool.slots, hpool.apart, hpool.held⟩
  · rw [hp', ← hhdr]
    rfl
  · rw [hp', ← hhdr]
    rfl
  · by_cases hκ : κ' = κ
    · rw [if_pos hκ, hκ, hslots, hlist]
    · rw [if_neg hκ, hothers κ' hκ]
  · rw [hp']
  · rw [hp']
  · rw [hslots, hsize]

/-- **A new descriptor**: from the free tree, or from a new pool page if there is one to be had. -/
theorem allocSlot_moves (hV : V.Contract L) (hP : PoolOk L k.pool P)
    (hrun : allocSlot V L κ k ptr d pages = .ok (r, k')) :
    r = none ∧ k'.pool = k.pool ∧ (k.pool.slots κ).freeTree.size = 0 ∧
      V.vpgalloc k.pool k.env L.pageSize = .ok (0, k'.env) ∨
    ∃ n, r = some n ∧ Describes κ ptr n d k.pool k'.pool ∧
      (PoolOk L k'.pool P ∧ Keeps k.pool k'.pool ∧ k'.env = k.env ∧
        (k'.pool.slots κ).freeTree.size + 1 = (k.pool.slots κ).freeTree.size ∨
      ∃ pg, PoolOk L k'.pool (update P κ (pg :: P κ)) ∧ Pushes κ pg pages k.pool k'.pool ∧
        pg ≠ 0 ∧ V.vpgalloc k.pool k.env L.pageSize = .ok (pg, k'.env) ∧
        (k.pool.slots κ).freeTree.size = 0 ∧
        (k'.pool.slots κ).freeTree.size + 1 = (L.slots κ).slotsSize) := by
  unfold allocSlot at hrun
  split at hrun
  · rename_i key desc hfirst
    obtain ⟨⟨hdr, sp⟩, htake, hrest⟩ := of_bind hrun
    cases hrest
    obtain ⟨hdesc, hpool, hkeeps, hsize⟩ := takeFree_moves hP hfirst htake
    refine .inr ⟨desc, rfl, hdesc, .inl ⟨hpool, hkeeps, rfl, ?_⟩⟩
    rwa [Kima.setSlots, slots_setSlots]
  · rename_i hfirst
    have hempty : (k.pool.slots κ).freeTree.size = 0 :=
      length_eq_zero_iff.mpr (List.head?_eq_none_iff.mp hfirst)
    obtain ⟨⟨pg, k₁⟩, hcall, hrest⟩ := of_bind hrun
    obtain ⟨-, hal, ⟨rfl, hk₁⟩ | ⟨hpg, -⟩⟩ := kimaVpgalloc_cases hV hcall
    · cases hrest
      exact .inl ⟨rfl, hk₁, hempty, kimaVpgalloc_env hcall⟩
    · simp only [if_neg hpg] at hrest
      obtain ⟨⟨hdr, sp⟩, hadd, hrest⟩ := of_bind hrest
      cases hrest
      obtain ⟨hfresh, hk₁⟩ : pg ∉ k.pool.held ∧ k₁.pool = { k.pool with held :=
        pg :: k.pool.held } := by
        obtain ⟨-, -, ⟨hzero, -⟩ | ⟨-, hk', -, -, hnew⟩⟩ := kimaVpgalloc_cases hV hcall
        · exact absurd hzero hpg
        have hpos := L.pageSize_pos
        have hone : Word.multiples pg (pg + L.pageSize) L.pageSize = [pg] := by
          simp [Word.multiples_step hpos]
        rw [hone] at hk'
        exact ⟨fun hmem => hnew pg hmem ⟨by omega, by omega⟩, hk'⟩
      rw [hk₁] at hadd
      have hk' : ((k₁.setSlots κ hdr sp).setNum (Word.add k₁.pool.numAllocatedPages pages)).pool =
          { (k.pool.setSlots κ hdr sp) with
            held := pg :: k.pool.held
            numAllocatedPages := Word.add k.pool.numAllocatedPages pages } := by
        simp only [Kima.setSlots, hk₁]
        rfl
      obtain ⟨hdesc, hpool, hpushes, hsize⟩ := addPage_moves hP hal hfresh hadd hk'
      rw [hempty, Nat.zero_add] at hsize
      have henv := kimaVpgalloc_env hcall
      exact .inr ⟨_, rfl, hdesc, .inr ⟨pg, hpool, hpushes, hpg, henv, hempty, hsize⟩⟩

/-- **A new descriptor**: a free slot, or one in a new pool page, describes an address that had no
descriptor; or there is no page and nothing changes. -/
theorem allocSlot_cases (hV : V.Contract L) (h : k.pool.Ok L)
    (hrun : allocSlot V L κ k ptr d pages = .ok (r, k')) :
    k'.pool.Ok L ∧ (r = none ∧ k'.pool.view = k.pool.view ∨
      ∃ n, r = some n ∧ (k.pool.view κ).find ptr = none ∧
        (k'.pool.slots κ).queryTree.find ptr = some n ∧
        k'.pool.view = update k.pool.view κ ((k.pool.view κ).insert ptr d)) := by
  obtain ⟨P, hP⟩ := h
  obtain ⟨rfl, hsame, -⟩ | ⟨n, rfl, hdesc, hmove⟩ := allocSlot_moves hV hP hrun
  · rw [hsame]
    exact ⟨⟨P, hP⟩, .inl ⟨rfl, rfl⟩⟩
  · obtain ⟨Q, hQ⟩ : k'.pool.Ok L := by
      obtain ⟨hok, -⟩ | ⟨pg, hok, -⟩ := hmove
      · exact ⟨_, hok⟩
      · exact ⟨_, hok⟩
    exact ⟨⟨Q, hQ⟩, .inr ⟨n, rfl, find_view_eq_none.mpr hdesc.absent, by simp [hdesc.query],
      hdesc.view hQ⟩⟩

/-- The virtual memory manager fails to take pages back. -/
def Vm.FreeFault (V : Vm σ) (err : Fault) : Prop := ∃ p e a n, V.vpgfree p e a n = .error err

/-- `kima_vpgfree` forgets the pages, or fails in the virtual memory manager. -/
theorem kimaVpgfree_spec (k : Kima σ) (addr : ℕ) (hsize : size ≠ 0) :
    (∃ k', kimaVpgfree V L k addr size = .ok k' ∧ k'.pool = { k.pool with
      held := k.pool.held.filter (· ∉ Word.multiples addr (addr + size) L.pageSize) }) ∨
    ∃ err, V.FreeFault err ∧ kimaVpgfree V L k addr size = .error err := by
  have hassert : kdAssert (size ≠ 0) "kernel/mm/kima/vmalloc.cc" 19 = .ok () :=
    kdAssert_of_pos hsize ..
  cases hfree : V.vpgfree k.pool k.env addr size with
  | error err =>
    refine .inr ⟨err, ⟨_, _, _, _, hfree⟩, ?_⟩
    simp only [kimaVpgfree, hassert, hfree, bind, Except.bind]
  | ok env =>
    refine .inl ⟨⟨_, env⟩, ?_, rfl⟩
    simp only [kimaVpgfree, hassert, hfree, bind, Except.bind, pure, Except.pure]

/-- A single page leaves the pages the pool holds. -/
theorem kimaVpgfree_page (hrun : kimaVpgfree V L k pg L.pageSize = .ok k') :
    k'.pool = { k.pool with held := k.pool.held.filter (· ≠ pg) } := by
  rcases kimaVpgfree_spec k pg L.pageSize_pos.ne' with
    ⟨k₁, hfree, hk₁⟩ | ⟨err, -, hfree⟩
  · obtain rfl : k₁ = k' := Except.ok.inj (hfree.symm.trans hrun)
    rw [hk₁]
    simp [Word.multiples_step L.pageSize_pos]
  · cases hfree.symm.trans hrun

/-- A page without descriptors may leave. -/
theorem PoolOk.filter_held (h : PoolOk L p P) (hout : ∀ κ, pg ∉ P κ) :
    PoolOk L { p with held := p.held.filter (· ≠ pg) } P := by
  refine ⟨h.init, h.slots, h.apart, fun κ q hq => mem_filter.mpr ⟨h.held κ q hq, ?_⟩⟩
  have hne : q ≠ pg := fun e => hout κ (e ▸ hq)
  simpa using hne

/-- **A descriptor given back**, alone or with its pool page. -/
theorem freeSlot_moves (hP : PoolOk L k.pool P)
    (hfind : (k.pool.slots κ).queryTree.find ptr = some node)
    (hrun : freeSlot V L κ k node pages = .ok k') :
    Forgets κ ptr k.pool k'.pool ∧ floorAlignTo node L.pageSize ∈ P κ ∧
      (PoolOk L k'.pool P ∧ Keeps k.pool k'.pool ∨
        PoolOk L k'.pool (update P κ ((P κ).erase (floorAlignTo node L.pageSize))) ∧
          Drops (floorAlignTo node L.pageSize) pages k.pool k'.pool) := by
  obtain ⟨⟨hdr, sp, gone⟩, hrel, hrest⟩ := of_bind hrun
  obtain ⟨hpg, hdr', sp', gone', hok, hsp, hframe⟩ := release_spec (hP.slots κ) L.pageSize_lt hfind
  obtain ⟨rfl, rfl, rfl⟩ : hdr' = hdr ∧ sp' = sp ∧
    gone' = gone := by simpa using hok.symm.trans hrel
  obtain ⟨hlist, hquery, hdata, hstay, hgo⟩ := release_eq_ok hrel
  rw [((hP.slots κ).query ptr node hfind).1] at hquery
  have hforget : Forgets κ ptr k.pool (k.pool.setSlots κ hdr' sp') :=
    ⟨by rw [slots_setSlots, hquery], by rw [slots_setSlots, hdata], fun _ => slots_setSlots_of_ne⟩
  have hlists : ∀ κ', ((k.pool.setSlots κ hdr' sp').slots κ').poolpgList =
      (k.pool.slots κ').poolpgList := fun _ => poolpgList_setSlots hlist
  cases gone' with
  | false =>
    cases hrest
    obtain ⟨hprev, hnext⟩ := hstay rfl
    exact ⟨hforget, hpg, .inl ⟨hP.setSlots_same hsp hframe, hprev, hnext, hlists, rfl, rfl⟩⟩
  | true =>
    obtain ⟨k₁, hfree, hrest⟩ := of_bind hrest
    cases hrest
    have hQ : ∀ q, q ∈ (P κ).erase (floorAlignTo node L.pageSize) →
        q ≠ floorAlignTo node L.pageSize ∧ q ∈ P κ := fun q hq =>
      (hP.slots κ).nodup.mem_erase_iff.mp hq
    have hpool := hP.setSlots hsp (fun q hq _ => hframe q hq) (fun q hq => hP.held κ q (hQ q hq).2)
      fun q hq κ' hκ hq' => hκ (hP.apart κ' κ q hq' (hQ q hq).2)
    have hout : ∀ κ', floorAlignTo node L.pageSize ∉ update P κ
        ((P κ).erase (floorAlignTo node L.pageSize)) κ' := fun κ' hmem => by
      by_cases hκ : κ' = κ
      · subst hκ
        rw [update_self] at hmem
        exact (hQ _ hmem).1 rfl
      · rw [update_of_ne hκ] at hmem
        exact hκ (hP.apart κ' κ _ hmem hpg)
    obtain ⟨hprev, hnext⟩ := hgo rfl
    have hk₁ := kimaVpgfree_page hfree
    have hok := hpool.filter_held hout
    rw [Kima.setNum, hk₁]
    exact ⟨⟨hforget.query, hforget.data, hforget.others⟩, hpg, .inr
      ⟨⟨hok.init, hok.slots, hok.apart, hok.held⟩, hprev, hnext, hlists, rfl, rfl⟩⟩

/-- Giving a descriptor back only fails where `kima_vpgfree` does. -/
theorem freeSlot_returns (pages : ℕ) (h : k.pool.Ok L)
    (hfind : (k.pool.slots κ).queryTree.find ptr = some node) :
    (∃ k', freeSlot V L κ k node pages = .ok k') ∨
      ∃ err, V.FreeFault err ∧ freeSlot V L κ k node pages = .error err := by
  obtain ⟨P, hP⟩ := h
  obtain ⟨-, hdr, sp, gone, hok, -⟩ := release_spec (hP.slots κ) L.pageSize_lt hfind
  have hstep : freeSlot V L κ k node pages = (if gone then
      kimaVpgfree V L (k.setSlots κ hdr sp) (floorAlignTo node L.pageSize) L.pageSize >>= fun k =>
        .ok (k.setNum (Word.sub k.pool.numAllocatedPages pages))
      else .ok (k.setSlots κ hdr sp)) := by
    simp only [freeSlot, hok]
    rfl
  rw [hstep]
  cases gone with
  | false => exact .inl ⟨_, rfl⟩
  | true =>
    rcases kimaVpgfree_spec (k.setSlots κ hdr sp) (floorAlignTo node L.pageSize)
      L.pageSize_pos.ne' with ⟨k₁, hfree, -⟩ | ⟨err, hfault, hfree⟩
    · exact .inl ⟨_, by rw [hfree]; rfl⟩
    · exact .inr ⟨err, hfault, by rw [hfree]; rfl⟩

/-- **A descriptor given back** describes nothing any more; it only fails where `kima_vpgfree`
does. -/
theorem freeSlot_spec (pages : ℕ) (h : k.pool.Ok L)
    (hfind : (k.pool.slots κ).queryTree.find ptr = some node) :
    (∃ k', freeSlot V L κ k node pages = .ok k' ∧ k'.pool.Ok L ∧
      (∀ κ', κ' ≠ κ → k'.pool.slots κ' = k.pool.slots κ') ∧
      k'.pool.view = update k.pool.view κ ((k.pool.view κ).erase ptr)) ∨
    ∃ err, V.FreeFault err ∧ freeSlot V L κ k node pages = .error err := by
  rcases freeSlot_returns pages h hfind with ⟨k', hrun⟩ | hfault
  · obtain ⟨P, hP⟩ := h
    obtain ⟨hforget, -, hmove⟩ := freeSlot_moves hP hfind hrun
    refine .inl ⟨k', hrun, ?_, hforget.others, hforget.view⟩
    obtain ⟨hok, -⟩ | ⟨hok, -⟩ := hmove
    · exact ⟨_, hok⟩
    · exact ⟨_, hok⟩
  · exact .inr hfault

/-! ## Blocks and pages -/

/-- A change to the blocks only. -/
theorem live_of_view_update (h : p'.view = update p.view .ublk m) :
    p'.live = m ∧ p'.pages = p.pages :=
  ⟨congrFun h .ublk, congrFun h .vpgdesc⟩

/-- A change to the pages only. -/
theorem pages_of_view_update (h : p'.view = update p.view .vpgdesc m) :
    p'.live = p.live ∧ p'.pages = m :=
  ⟨congrFun h .ublk, congrFun h .vpgdesc⟩

/-- The blocks are what their descriptors say. -/
theorem live_of_slots_eq (h : p'.slots .ublk = p.slots .ublk) : p'.live = p.live :=
  congrArg SlotPool.view h

theorem live_pages_of_view_eq (h : p'.view = p.view) :
    p'.live = p.live ∧ p'.pages = p.pages := ⟨congrFun h .ublk, congrFun h .vpgdesc⟩

/-- **`kima_alloc_ublk`** records a block. -/
theorem kimaAllocUblk_cases (hV : V.Contract L) (h : k.pool.Ok L)
    (hrun : kimaAllocUblk V L k ptr size = .ok (r, k')) :
    k'.pool.Ok L ∧ k'.pool.pages = k.pool.pages ∧ (r = none ∧ k'.pool.live = k.pool.live ∨
      (∃ n, r = some n) ∧ k.pool.live.find ptr = none ∧
        k'.pool.live = k.pool.live.insert ptr size) := by
  obtain ⟨hok, ⟨hr, hv⟩ | ⟨n, hr, hnone, -, hv⟩⟩ := allocSlot_cases hV h hrun
  · obtain ⟨hlive, hpages⟩ := live_pages_of_view_eq hv
    exact ⟨hok, hpages, .inl ⟨hr, hlive⟩⟩
  · obtain ⟨hlive, hpages⟩ := live_of_view_update hv
    exact ⟨hok, hpages, .inr ⟨⟨n, hr⟩, hnone, hlive⟩⟩

/-- **`kima_alloc_vpgdesc`** describes a page, without a reference. -/
theorem kimaAllocVpgdesc_cases (hV : V.Contract L) (h : k.pool.Ok L)
    (hrun : kimaAllocVpgdesc V L k ptr = .ok (r, k')) :
    k'.pool.Ok L ∧ k'.pool.live = k.pool.live ∧ (r = none ∧ k'.pool.pages = k.pool.pages ∨
      ∃ n, r = some n ∧ k.pool.pages.find ptr = none ∧ kimaLookupVpgdesc k'.pool ptr = some n ∧
        k'.pool.pages = k.pool.pages.insert ptr 0) := by
  obtain ⟨hok, ⟨hr, hv⟩ | ⟨n, hr, hnone, hfind, hv⟩⟩ := allocSlot_cases hV h hrun
  · obtain ⟨hlive, hpages⟩ := live_pages_of_view_eq hv
    exact ⟨hok, hlive, .inl ⟨hr, hpages⟩⟩
  · obtain ⟨hlive, hpages⟩ := pages_of_view_update hv
    exact ⟨hok, hlive, .inr ⟨n, hr, hnone, hfind, hpages⟩⟩

/-- **`kima_free_ublk`** drops a block. -/
theorem kimaFreeUblk_spec (h : k.pool.Ok L) (hfind : kimaLookupUblk k.pool ptr = some node) :
    (∃ k', kimaFreeUblk V L k node = .ok k' ∧ k'.pool.Ok L ∧ k'.pool.pages = k.pool.pages ∧
      k'.pool.live = k.pool.live.erase ptr) ∨
    ∃ err, V.FreeFault err ∧ kimaFreeUblk V L k node = .error err := by
  rcases freeSlot_spec 1 h hfind with ⟨k', hrun, hok, -, hv⟩ | hfault
  · obtain ⟨hlive, hpages⟩ := live_of_view_update hv
    exact .inl ⟨k', hrun, hok, hpages, hlive⟩
  · exact .inr hfault

/-- **`kima_free_vpgdesc`** forgets a page. -/
theorem kimaFreeVpgdesc_spec (h : k.pool.Ok L) (hfind : kimaLookupVpgdesc k.pool ptr = some node) :
    (∃ k', kimaFreeVpgdesc V L k node = .ok k' ∧ k'.pool.Ok L ∧
      k'.pool.slots .ublk = k.pool.slots .ublk ∧
      k'.pool.pages = k.pool.pages.erase ptr) ∨
    ∃ err, V.FreeFault err ∧ kimaFreeVpgdesc V L k node = .error err := by
  rcases freeSlot_spec 0 h hfind with ⟨k', hrun, hok, hkeep, hv⟩ | hfault
  · exact .inl ⟨k', hrun, hok, hkeep .ublk (by decide), (pages_of_view_update hv).2⟩
  · exact .inr hfault

/-- Writing a reference count. -/
theorem setRefCount_spec (h : k.pool.Ok L) (hfind : kimaLookupVpgdesc k.pool ptr = some node)
    (n : ℕ) :
    (k.setRefCount node n).pool.Ok L ∧
      (k.setRefCount node n).pool.slots .ublk = k.pool.slots .ublk ∧
      (k.setRefCount node n).pool.pages = k.pool.pages.insert ptr n := by
  obtain ⟨P, hP⟩ := h
  have hv := view_setSlots k.pool .vpgdesc k.pool.hdr ((k.pool.slots .vpgdesc).setData node n)
  rw [view_setData (hP.slots .vpgdesc).toDivided hfind] at hv
  have hsame : (k.setRefCount node n).pool.slots .ublk = k.pool.slots .ublk := rfl
  exact ⟨⟨_, hP.setSlots ((hP.slots .vpgdesc).setData node n) (fun _ _ _ => rfl)
    (hP.held .vpgdesc) fun q hq κ' hκ hq' => hκ (hP.apart κ' _ q hq' hq)⟩,
    hsame, (pages_of_view_update hv).2⟩

/-- A page is described exactly when it has a count. -/
theorem pages_find (k : Kima σ) (ptr : ℕ) :
    k.pool.pages.find ptr = (kimaLookupVpgdesc k.pool ptr).map k.refCount := find_view ..

theorem live_find (p : Pool) (ptr : ℕ) :
    p.live.find ptr = (kimaLookupUblk p ptr).map (p.slots .ublk).data := find_view ..

end Pbos.Mm
