import Pbos.Mm.KimaLedger
import Pbos.Mm.KimaRealloc

/-!
# Mm/KimaNull — what is left behind by a call that returns null

`kima_alloc` takes what it needs in turn: the pages of the block, the descriptors of the pages, the
descriptor of the block.  The request that fails keeps the range it has reserved, so a call that
returns null always leaves something behind (`kimaAlloc_null_leaves`).  `kima_realloc` describes the
new page and lets the old block go before it describes the new one, so it keeps the old block if and
only if it fails before that (`kimaRealloc_kept_iff`).
-/

namespace Pbos.Mm

open Pbos.Kfxx Pbos.Freestdc SlotPool

variable {σ : Type} {V : Vm σ} {L : Layout} {k k' : Kima σ} {κ : Kind} {P : Kind → List ℕ}
  {size al v pg n i ublk old : ℕ} {A : PtrAdd}

/-! ## `kima_alloc` -/

theorem Mmgr.mapFrames_reserved (M : Mmgr σ) {is : List ℕ} {e e' : σ} {complete : Bool}
    (h : M.mapFrames v is e = .ok (complete, e')) : M.reserved e' = M.reserved e := by
  induction is generalizing e with
  | nil => rw [(ok_mk_inj h).2]
  | cons i is ih =>
    obtain ⟨⟨paddr, e₁⟩, hpage, h⟩ := of_bind h
    rw [← M.pgalloc_reserved hpage]
    dsimp only at h
    split at h
    · rw [(ok_mk_inj h).2]
    · obtain ⟨⟨r, e₂⟩, hmap, -, -, h⟩ := by simpa only [bind_eq_ok_iff] using h
      rw [ih h, M.mmap_reserved hmap]

/-- **A request that is refused keeps the range it reserved.** -/
theorem Mmgr.reserved_lt (M : Mmgr σ) {p : Pool} {e e' : σ} (hn : n ≠ 0)
    (h : (M.vm L).vpgalloc p e n = .ok (0, e')) : M.reserved e < M.reserved e' := by
  simp only [Mmgr.vm, bind_eq_ok_iff] at h
  obtain ⟨⟨vaddr, e₁⟩, hcall, _, hassert, ⟨complete, e₂⟩, hmap, h⟩ := h
  have hvaddr : vaddr ≠ 0 := by
    by_contra h0
    rw [kdAssert_of_neg (not_not.mpr h0)] at hassert
    cases hassert
  rw [← (ok_mk_inj h).2, M.mapFrames_reserved hmap]
  exact M.kvmalloc_reserved hcall hvaddr hn

/-- Nothing is left of a call: the blocks, the pages and their counts are what they were, no page
is held that was not, and no more pages are reserved than before. -/
structure Undone (M : Mmgr σ) (k k' : Kima σ) : Prop where
  live : k'.pool.live = k.pool.live
  pages : k'.pool.pages = k.pool.pages
  num : k'.pool.numAllocatedPages = k.pool.numAllocatedPages
  held : ∀ q ∈ k'.pool.held, q ∈ k.pool.held
  reserved : M.reserved k'.env = M.reserved k.env

/-- The pages of a block stay with the pool, whatever becomes of the block. -/
theorem exists_held_of_allocNew (hV : V.Contract L) (hP : PoolOk L k.pool P) {r : ℕ}
    {e : σ} (hrun : allocNew wrapAdd V L k size al = .ok (r, k'))
    (hcall : V.vpgalloc k.pool k.env (ceilAlignTo (Word.add size al) L.pageSize) = .ok (v, e))
    (hv : v ≠ 0) : v ∈ k'.pool.held ∧ v ∉ k.pool.held := by
  obtain ⟨v', k₁, P', hcall', -, -, hevolves⟩ := allocNew_evolves hV hP hrun
  obtain rfl : v' = v := (ok_mk_inj ((kimaVpgalloc_env hcall').symm.trans hcall)).1
  have hout : v' ∉ k.pool.held := fun hmem => hV.page _ _ _ _ _ hcall hv v' hmem
    ⟨Nat.lt_add_of_pos_right L.pageSize_pos,
      Nat.lt_add_of_pos_right (Nat.pos_of_ne_zero (kimaVpgalloc_cases hV hcall').1)⟩
  exact ⟨(hevolves.blocks v' (mem_held_of_kimaVpgalloc hV (dvd_ceilAlignTo L.pageSize_pos
    L.pageSize_dvd) hcall' hv) fun κ hmem => hout (hP.held κ v' hmem)).1, hout⟩

/-- **A call that returns null has always left something behind.** -/
theorem kimaAlloc_null_leaves (M : Mmgr σ) (hV : (M.vm L).Contract L) (hok : k.pool.Ok L)
    {size al : ℕ} (hrun : kimaAlloc wrapAdd (M.vm L) L k size al = .ok (0, k')) :
    ¬ Undone M k k' := by
  intro h
  obtain ⟨P, hP⟩ := hok
  obtain ⟨base, cur, ublk, k₁, -, hublk, hrest⟩ | ⟨-, hnew⟩ := kimaAlloc_cases hrun
  · obtain ⟨rfl, -, -, hcall⟩ | ⟨n, rfl, hdesc, -⟩ := allocSlot_moves hV hP hublk
    · obtain ⟨-, -, rfl⟩ | ⟨hsome, -⟩ := hrest
      · exact (M.reserved_lt L.pageSize_pos.ne' hcall).ne' h.reserved
      · exact absurd rfl hsome
    · obtain ⟨hnone, -⟩ | ⟨-, rfl, href⟩ := hrest
      · cases hnone
      have hfind := congrArg (·.find 0) h.live
      simp only [live_of_slots_eq (refPages_recounts (L := L) href).ublk, live_find, kimaLookupUblk,
        SlotPool.lookup, hdesc.query, hdesc.absent, hdesc.data] at hfind
      simp at hfind
  · obtain ⟨v, k₁, -, hcall, -⟩ := allocNew_cases hnew
    have hsize := (kimaVpgalloc_cases hV hcall).1
    replace hcall := kimaVpgalloc_env hcall
    obtain rfl | hv := eq_or_ne v 0
    · have hnull := allocNew_outOfPages hV (fun _ _ h => (ok_mk_inj (h.symm.trans hcall)).1) hnew
      exact (M.reserved_lt hsize hnull.2).ne' h.reserved
    · obtain ⟨hmem, hout⟩ := exists_held_of_allocNew hV hP hnew hcall hv
      exact hout (h.held v hmem)

/-- **What is lost**: of two pages with two frames left, the range and a frame; when the page or the
block cannot be described, the page of the block, and in the second case the count of pages is off
by the bytes that were described. -/
theorem kimaAlloc_leaves : [(2, 5000), (3, 24), (5, 24)].map (fun c =>
      (kimaAlloc wrapAdd smallVm (pages4k 3) ⟨kiInitKimaPool, ⟨c.1, 0⟩⟩ c.2 8).map
        fun r => (r.1, r.2.pool.held, r.2.pool.numAllocatedPages, r.2.env)) =
    [.ok (0, [], 0, ⟨0, 2⟩), .ok (0, [12288], 0, ⟨0, 2⟩),
      .ok (0, [12288], 2 ^ 64 - 4095, ⟨1, 2⟩)] := by
  decide +kernel

/-- Three frames do not suffice for a small block. -/
theorem kimaAlloc_null_leaves_threeFrames : ∃ k', kimaAlloc wrapAdd smallVm (pages4k 3)
    ⟨kiInitKimaPool, ⟨3, 0⟩⟩ 24 8 = .ok (0, k') ∧
      ¬ Undone (backing (pages4k 3)) ⟨kiInitKimaPool, ⟨3, 0⟩⟩ k' := by
  obtain ⟨r, k', hrun, rfl⟩ : ∃ r k', kimaAlloc wrapAdd smallVm (pages4k 3)
      ⟨kiInitKimaPool, ⟨3, 0⟩⟩ 24 8 = .ok (r, k') ∧ r = 0 := by decide +kernel
  exact ⟨k', hrun, kimaAlloc_null_leaves _ (backing_contract _) (ok_kiInitKimaPool _) hrun⟩

/-! ## `kima_realloc` -/

/-- Whether a request is met, and what it leaves, does not depend on the pool. -/
def Vm.Uniform (V : Vm σ) : Prop :=
  ∀ {p p' e n v w e₁ e₂}, V.vpgalloc p e n = .ok (v, e₁) → V.vpgalloc p' e n = .ok (w, e₂) →
    e₁ = e₂ ∧ (v = 0 ↔ w = 0)

/-- **The descriptors of the new page** leave the blocks alone, and are all made exactly if the
requests for their pool pages are met. -/
theorem newBytes_spec (hV : V.Contract L) (hu : V.Uniform) (hP : PoolOk L k.pool P) {i' : ℕ}
    {complete : Bool} (hi : i ≤ L.pageSize)
    (hrun : newBytes A V L pg n i k = .ok (i', complete, k')) :
    k'.pool.Ok L ∧ k'.pool.slots .ublk = k.pool.slots .ublk ∧ (complete = true ↔
      V.Meets (List.replicate (descPoolpgs L k.pool (L.pageSize - i)) L.pageSize) k.env) := by
  induction n generalizing i k P with
  | zero => cases hrun
  | succ n ih =>
    unfold newBytes at hrun
    split at hrun
    · have hleft : L.pageSize - i = 1 + (L.pageSize - (i + 1)) := by omega
      have hword : Word.add i 1 = i + 1 := Word.add_of_lt (by have := L.pageSize_lt; omega)
      obtain ⟨byte, -, ⟨r, k₁⟩, halloc, hrun⟩ := by simpa only [bind_eq_ok_iff] using hrun
      rw [hleft]
      obtain ⟨rfl, hsame, hzero, hnull⟩ | ⟨d, Q, rfl, -, hnew, henv⟩ := newDesc hV hP halloc
      · obtain ⟨rfl, rfl, rfl⟩ := by simpa using Except.ok.inj hrun
        refine ⟨⟨P, hsame ▸ hP⟩, by rw [hsame], iff_of_false Bool.false_ne_true fun hmeets => ?_⟩
        obtain ⟨x, hx⟩ := Nat.exists_eq_succ_of_ne_zero (descPoolpgs_pos (L := L) hzero _).ne'
        rw [Nat.add_comm, hx] at hmeets
        exact (hmeets _ _ _ hnull).1 rfl
      · obtain ⟨hok, hublk, hiff⟩ := ih hnew.ok (by omega) hrun
        refine ⟨hok, hublk.trans hnew.ublk, hiff.trans ?_⟩
        rw [hword, hnew.descPoolpgs_add]
        obtain ⟨rfl, henv⟩ | ⟨v, rfl, hv, hcall⟩ := henv
        · rw [← henv]
          rfl
        · refine ⟨fun h p w e hw => ?_, fun h => (h _ _ _ hcall).2⟩
          obtain ⟨rfl, hzero⟩ := hu hcall hw
          exact ⟨fun h0 => hv (hzero.mpr h0), h⟩
    · obtain ⟨rfl, rfl, rfl⟩ := by simpa using Except.ok.inj hrun
      refine ⟨⟨P, hP⟩, rfl, iff_of_true rfl ?_⟩
      rw [show L.pageSize - i = 0 by omega, descPoolpgs_zero]
      trivial

theorem releaseVpgdescs_ublk (hok : k.pool.Ok L)
    (hrun : releaseVpgdescs A V L pg i k = .ok k') :
    k'.pool.slots .ublk = k.pool.slots .ublk := by
  obtain ⟨P, hP⟩ := hok
  obtain ⟨k₁, hdrop, hrun⟩ := of_bind hrun
  obtain rfl := Except.ok.inj hrun
  obtain ⟨P', hshrink, -⟩ := dropPages_shrinks hP hdrop
  exact hshrink.ublk

/-- New pages are not to be had, or have an address that wraps when it is aligned; or the pool
pages are not to be had, after them, that a descriptor for every byte of a page needs. -/
def FailsEarly (V : Vm σ) (L : Layout) (k : Kima σ) (size al : ℕ) : Prop :=
  ∃ v e, V.vpgalloc k.pool k.env (ceilAlignTo (Word.add size al) L.pageSize) = .ok (v, e) ∧
    (alignUp wrapAdd v al = .ok 0 ∨
      ¬ V.Meets (List.replicate (descPoolpgs L k.pool L.pageSize) L.pageSize) e)

/-- A block that is let go for one that is not described is no longer there. -/
theorem find_old_of_swap (hV : V.Contract L) (hP : PoolOk L k.pool P) {k₁ : Kima σ}
    (hublk : kimaLookupUblk k.pool old = some ublk)
    (hfree : kimaFreeUblk V L k ublk = .ok k₁)
    (halloc : kimaAllocUblk V L k₁ pg size = .ok (none, k')) :
    k'.pool.Ok L ∧ k'.pool.live.find old = none := by
  obtain ⟨hforget, -, hmove⟩ := freeSlot_moves hP hublk hfree
  obtain ⟨P₁, hP₁⟩ : k₁.pool.Ok L := hmove.elim (fun h => ⟨_, h.1⟩) fun h => ⟨_, h.1⟩
  obtain ⟨-, hsame, -⟩ | ⟨n, hn, -⟩ := allocSlot_moves hV hP₁ halloc
  · rw [hsame]
    refine ⟨⟨P₁, hP₁⟩, ?_⟩
    rw [live_find, kimaLookupUblk, SlotPool.lookup, hforget.query, OrdMap.find_erase, if_pos rfl]
    rfl
  · cases hn

theorem reallocNew_kept_iff (hV : V.Contract L) (hu : V.Uniform) (hP : PoolOk L k.pool P)
    (hublk : kimaLookupUblk k.pool old = some ublk) (hold : k.pool.live.find old = some n)
    (hrun : reallocNew wrapAdd V L k ublk size al = .ok (0, k')) :
    k'.pool.live = k.pool.live ↔ FailsEarly V L k size al := by
  simp only [reallocNew, bind_eq_ok_iff] at hrun
  obtain ⟨⟨v, k₁⟩, hcall, pg, halign, hrun⟩ := hrun
  obtain ⟨hP₁, -⟩ := kimaVpgalloc_evolves hV hP (dvd_ceilAlignTo L.pageSize_pos
    L.pageSize_dvd) hcall
  have hslots : k₁.pool.slots = k.pool.slots := by
    obtain ⟨-, -, ⟨-, hk₁⟩ | ⟨-, hk₁, -⟩⟩ := kimaVpgalloc_cases hV hcall <;> rw [hk₁]
  have hearly : FailsEarly V L k size al ↔ pg = 0 ∨
      ¬ V.Meets (List.replicate (descPoolpgs L k₁.pool L.pageSize) L.pageSize) k₁.env := by
    rw [descPoolpgs, hslots]
    have hcall' := kimaVpgalloc_env hcall
    constructor
    · rintro ⟨v', e, hv', h⟩
      obtain ⟨rfl, rfl⟩ := ok_mk_inj (hcall'.symm.trans hv')
      rwa [halign, Except.ok.injEq] at h
    · intro h
      exact ⟨v, k₁.env, hcall', by rwa [halign, Except.ok.injEq]⟩
  rw [hearly]
  split at hrun
  · rename_i hpg
    obtain ⟨-, rfl⟩ := ok_mk_inj hrun
    exact iff_of_true (live_of_slots_eq (by rw [hslots])) (.inl hpg)
  rename_i hpg
  obtain ⟨⟨i, complete, k₂⟩, hbytes, hrun⟩ := of_bind hrun
  obtain ⟨⟨P₂, hP₂⟩, hublk₂, hmeets⟩ := newBytes_spec hV hu hP₁ (Nat.zero_le _) hbytes
  rw [Nat.sub_zero] at hmeets
  rw [hslots] at hublk₂
  rw [← hmeets, or_iff_right hpg]
  cases complete with
  | false =>
    obtain ⟨k₃, hrel, hrun⟩ := of_bind hrun
    obtain ⟨-, rfl⟩ := ok_mk_inj hrun
    exact iff_of_true (live_of_slots_eq ((releaseVpgdescs_ublk ⟨P₂, hP₂⟩ hrel).trans hublk₂))
      Bool.false_ne_true
  | true =>
    obtain ⟨k₃, hfree, ⟨u, k₄⟩, halloc, hrun⟩ := by
      simpa only [Bool.true_eq_false, if_false, bind_eq_ok_iff] using hrun
    split at hrun
    · rename_i hnone
      obtain rfl : u = none := hnone
      obtain ⟨k₅, hrel, hrun⟩ := of_bind hrun
      obtain ⟨-, rfl⟩ := ok_mk_inj hrun
      refine iff_of_false (fun hlive => ?_) (not_not.mpr rfl)
      obtain ⟨hok₄, hgone⟩ := find_old_of_swap hV (hP₂.setNum _)
        ((congrArg (·.lookup old) hublk₂).trans hublk) hfree halloc
      rw [← hlive, live_of_slots_eq (releaseVpgdescs_ublk hok₄ hrel), hgone] at hold
      cases hold
    · exact absurd (ok_mk_inj hrun).1 hpg

/-- **The old block is kept, as documented, if and only if the call fails before the new page is
described**; when it fails after that, the old block has been let go. -/
theorem kimaRealloc_kept_iff (hV : V.Contract L) (hu : V.Uniform) (hok : k.pool.Ok L) {M M' : Mem}
    {old n size al : ℕ} (hold : k.pool.live.find old = some n)
    (hrun : kimaRealloc wrapAdd V L k M old size al = .ok (0, k', M'))
    (hnull : k'.pool.live.find 0 = none) :
    k'.pool.live = k.pool.live ∧ M' = M ↔ FailsEarly V L k size al := by
  obtain ⟨-, -, ublk, hublk, ⟨base, cur, -, hfound⟩ | ⟨-, hnew, rfl⟩⟩ :=
    kimaRealloc_eq_ok_iff.mp hrun
  · obtain ⟨rfl, -, hlive, -⟩ := reallocFound_cases hok hublk hold hfound
    rw [hlive] at hnull
    cases hnull
  · obtain ⟨P, hP⟩ := hok
    rw [← reallocNew_kept_iff hV hu hP hublk hold hnew]
    exact and_iff_left rfl

theorem backing_uniform (L : Layout) : ((backing L).vm L).Uniform := by
  intro p p' e n v w e₁ e₂ h h'
  obtain ⟨rfl, rfl⟩ := backing_vpgalloc h
  obtain ⟨rfl, rfl⟩ := backing_vpgalloc h'
  have hpos := firstUnused_pos L p
  have hpos' := firstUnused_pos L p'
  refine ⟨rfl, ?_⟩
  split_ifs <;> omega

/-- Pages of 32 bytes with two descriptors each. -/
def pages32 : Layout where
  shift := 5
  shift_lt := by decide
  slots := fun _ =>
    { slotsOff := 24, slotsSize := 2, slotBytes := 4
      bytes_pos := by decide, size_pos := by decide, fits := by decide }

/-- **The old block is lost**: the page of its descriptor is given back and goes into a table. -/
theorem kimaRealloc_loses : let V := (backing pages32).vm pages32
    ∃ ptr k, kimaAlloc wrapAdd V pages32 ⟨kiInitKimaPool, ⟨42, 0⟩⟩ 24 8 = .ok (ptr, k) ∧
      ptr = 96 ∧ k.pool.live.entries = [(96, 24)] ∧
      (∃ v e, V.vpgalloc k.pool k.env (ceilAlignTo (64 + 8) pages32.pageSize) = .ok (v, e) ∧
        v ≠ 0) ∧
      ∃ r x, kimaRealloc wrapAdd V pages32 k (fun _ => 0) ptr 64 8 = .ok (r, x) ∧ r = 0 ∧
        x.1.pool.live.entries = [] := by
  decide +kernel

/-- Seven frames are used up by the block and the table of the new range, and the block is kept. -/
theorem kimaRealloc_kept_sevenFrames : ∃ k k' M',
    kimaAlloc wrapAdd smallVm (pages4k 3) ⟨kiInitKimaPool, ⟨7, 0⟩⟩ 24 8 = .ok (12288, k) ∧
    kimaRealloc wrapAdd smallVm (pages4k 3) k (fun _ => 0) 12288 5000 8 = .ok (0, k', M') ∧
    k'.pool.live = k.pool.live ∧ M' = fun _ => 0 := by
  obtain ⟨ptr, k, halloc, rfl, hfind, ⟨v, e, hcall, rfl⟩, r, ⟨k', M'⟩, hrun, rfl, hnull⟩ :
      ∃ ptr k, kimaAlloc wrapAdd smallVm (pages4k 3) ⟨kiInitKimaPool, ⟨7, 0⟩⟩ 24 8 =
        .ok (ptr, k) ∧ ptr = 12288 ∧ k.pool.live.find 12288 = some 24 ∧
      (∃ v e, smallVm.vpgalloc k.pool k.env (ceilAlignTo (Word.add 5000 8) (pages4k 3).pageSize) =
        .ok (v, e) ∧ v = 0) ∧
      ∃ r x, kimaRealloc wrapAdd smallVm (pages4k 3) k (fun _ => 0) 12288 5000 8 = .ok (r, x) ∧
        r = 0 ∧ x.1.pool.live.find 0 = none := by decide +kernel
  obtain ⟨P, hP, -⟩ := exec_evolves (c := .alloc 24 8) (backing_contract (pages4k 3))
    (pagesOk_kiInitKimaPool _).toPoolOk halloc
  exact ⟨k, k', M', halloc, hrun, (kimaRealloc_kept_iff (backing_contract _) (backing_uniform _)
    ⟨P, hP⟩ hfind hrun hnull).mpr ⟨0, e, hcall, .inl rfl⟩⟩

end Pbos.Mm
