import Pbos.Mm.KimaPoolpg

/-!
# Mm/KimaLists — the lists of pool pages over a run

The slots of the pool pages are divided between the two trees, counted and never kept idle, whatever
calls a pool sees.  Its two lists of pool pages are not: `kima_free_ublk` and `kima_free_vpgdesc`
leave the head of a list where it was, so once the first page of a list goes the list starts at a
page that is not the pool's any more.  `kima_free` keeps the lists exactly if the first page of each
keeps a descriptor in use, and `kima_alloc` keeps them unless it gives up after it has made a pool
page (`poolPages_of_run`).
-/

namespace Pbos.Mm

open Pbos.Kfxx SlotPool DList Function

variable {σ : Type} {V : Vm σ} {L : Layout} {k k' : Kima σ} {κ : Kind} {p p' : Pool}
  {P P' : Kind → List ℕ} {ptr size m : ℕ}

/-! ## `kima_free` -/

/-- The pages that `kima_free(ptr)` takes a reference from. -/
def blockPages (L : Layout) (p : Pool) (ptr : ℕ) : List ℕ :=
  match p.live.find ptr with
  | some n => Word.multiples (floorAlignTo ptr L.pageSize)
      (ceilAlignTo (Word.add ptr n) L.pageSize) L.pageSize
  | none => []

/-- The descriptor of `q` stays in use when the block at `ptr` is freed. -/
def Stays (L : Layout) (k : Kima σ) (ptr : ℕ) : Kind → ℕ → Prop
  | .ublk, q => q ≠ ptr
  | .vpgdesc, q => ¬ (q ∈ blockPages L k.pool ptr ∧ LastRef k q)

/-- A descriptor in the pool page `pg` stays in use when the block at `ptr` is freed. -/
def Lasts (L : Layout) (k : Kima σ) (ptr : ℕ) (κ : Kind) (pg : ℕ) : Prop :=
  ∃ q n, (k.pool.slots κ).queryTree.find q = some n ∧ floorAlignTo n L.pageSize = pg ∧
    Stays L k ptr κ q

/-- **What `kima_free` leaves of the pool pages.** -/
structure Freed (L : Layout) (ptr : ℕ) (P P' : Kind → List ℕ) (k k' : Kima σ) : Prop where
  ok : PoolOk L k'.pool P'
  moved : Moved k.pool P k'.pool P'
  mem : ∀ κ pg, pg ∈ P' κ ↔ Lasts L k ptr κ pg
  sub : ∀ κ, (P' κ).Sublist (P κ)
  ublk : (P .ublk).length ≤ (P' .ublk).length + 1
  list : ∀ κ, (k'.pool.slots κ).poolpgList = (k.pool.slots κ).poolpgList
  pages : PagesOk L k.pool P → (∀ κ h, (k.pool.slots κ).poolpgList = some h → h ∈ P' κ) →
    PagesOk L k'.pool P'
  num : k.pool.numAllocatedPages < 2 ^ 64 → k'.pool.numAllocatedPages =
    Word.sub k.pool.numAllocatedPages ((P .ublk).length - (P' .ublk).length)

section Freed

variable {k₁ : Kima σ} {P₁ : Kind → List ℕ} {ptr pg : ℕ}

/-- The descriptors that are left once the pages and then the block are given up. -/
theorem find_iff_stays (hublk : k₁.pool.slots .ublk = k.pool.slots .ublk)
    (hlook : ∀ q, kimaLookupVpgdesc k₁.pool q =
      if q ∈ blockPages L k.pool ptr ∧ LastRef k q then none else kimaLookupVpgdesc k.pool q)
    (hforget : Forgets .ublk ptr k₁.pool k'.pool) (κ : Kind) (q n : ℕ) :
    (k'.pool.slots κ).queryTree.find q = some n ↔
      (k.pool.slots κ).queryTree.find q = some n ∧ Stays L k ptr κ q := by
  cases κ with
  | ublk =>
    rw [hforget.query, hublk]
    by_cases hq : q = ptr <;> simp [hq, Stays]
  | vpgdesc =>
    have hq := hlook q
    rw [kimaLookupVpgdesc, ← hforget.others .vpgdesc (by decide)] at hq
    rw [show (k'.pool.slots .vpgdesc).queryTree.find q = _ from hq]
    by_cases hlast : q ∈ blockPages L k.pool ptr ∧ LastRef k q
    · simp [hlast, Stays]
    · simp [hlast, Stays, kimaLookupVpgdesc, SlotPool.lookup]

/-- The block goes with its pool page. -/
theorem Shrinks.freed_drops (h : Shrinks L P P₁ k k₁) (hpg : pg ∈ P₁ .ublk)
    (hok : PoolOk L k'.pool (update P₁ .ublk ((P₁ .ublk).erase pg)))
    (hdrop : Drops pg 1 k₁.pool k'.pool)
    (hmem : ∀ κ pg', pg' ∈ update P₁ .ublk ((P₁ .ublk).erase pg) κ ↔ Lasts L k ptr κ pg') :
    Freed L ptr P (update P₁ .ublk ((P₁ .ublk).erase pg)) k k' := by
  have hlen := List.length_erase_of_mem hpg
  have hpos := List.length_pos_of_mem hpg
  refine ⟨hok, h.moved.trans (hdrop.moved h.ok hpg), hmem, fun κ => ?_, ?_,
    fun κ => (hdrop.list κ).trans (h.list κ), fun hpages hfirst => ?_, fun hlt => ?_⟩
  · cases κ with
    | ublk =>
      rw [← h.ublks]
      exact List.erase_sublist
    | vpgdesc =>
      exact h.sub
  · rw [update_self, hlen, h.ublks]
    omega
  · have hpages₁ := h.pages hpages fun pg' hhead => by
      have hin := hfirst .vpgdesc pg' hhead
      rwa [update_of_ne (by decide)] at hin
    refine hdrop.pagesOk hpg (fun hhead => ?_) hok hpages₁
    have hin := hfirst .ublk _ ((h.list .ublk).symm.trans hhead)
    exact (h.ok.slots .ublk).nodup.not_mem_erase hin
  · rw [hdrop.num, h.num hlt, update_self, ← h.ublks]
    congr 1
    omega

theorem kimaFree_freed (hP : PoolOk L k.pool P) (hrun : kimaFree wrapAdd V L k ptr = .ok k') :
    ∃ P', Freed L ptr P P' k k' := by
  obtain ⟨ublk, stop, k₁, hfind, hstop, hunref, hfree⟩ := kimaFree_cases hrun
  have hrb : (k.pool.slots .ublk).rbValue ublk = ptr := ((hP.slots .ublk).query ptr ublk hfind).1
  have hlive : k.pool.live.find ptr = some ((k.pool.slots .ublk).data ublk) :=
    find_view_isSome hfind
  cases hstop
  rw [hrb] at hunref
  have hblock : blockPages L k.pool ptr = Word.multiples (floorAlignTo ptr L.pageSize)
      (ceilAlignTo (Word.add ptr ((k.pool.slots .ublk).data ublk)) L.pageSize) L.pageSize := by
    simp only [blockPages, hlive]
  rw [← hblock] at hunref
  have hnd : (blockPages L k.pool ptr).Nodup := hblock ▸ Word.nodup_multiples L.pageSize_pos
  obtain ⟨P₁, hshrink, hlook⟩ := unrefPages_shrinks hnd hP hunref
  have hfind₁ : (k₁.pool.slots .ublk).queryTree.find ptr = some ublk := by
    rw [hshrink.ublk]
    exact hfind
  obtain ⟨hforget, hpg, hmove⟩ := freeSlot_moves hshrink.ok hfind₁ hfree
  have hmem : ∀ {P'}, PoolOk L k'.pool P' → ∀ κ pg, pg ∈ P' κ ↔ Lasts L k ptr κ pg := by
    intro P' hok κ pg
    rw [hok.mem_iff]
    refine exists_congr fun q => exists_congr fun n => ?_
    rw [find_iff_stays hshrink.ublk hlook hforget, and_assoc]
    exact and_congr_right fun _ => and_comm
  obtain ⟨hok, hkeep⟩ | ⟨hok, hdrop⟩ := hmove
  · have hkeeps : Freed L ptr P P₁ k k' := by
      refine ⟨hok, hshrink.moved.trans (.of_held hkeep.held), (hmem hok), fun κ => ?_,
        hshrink.ublks ▸ Nat.le_succ _,
        fun κ => (hkeep.list κ).trans (hshrink.list κ),
        fun hpages hfirst => hkeep.pagesOk hok (hshrink.pages hpages (hfirst .vpgdesc)),
          fun hlt => ?_⟩
      · cases κ with
        | ublk => exact hshrink.ublks ▸ List.Sublist.refl _
        | vpgdesc => exact hshrink.sub
      · rw [hkeep.num, hshrink.num hlt, hshrink.ublks, Nat.sub_self,
          Word.sub_of_le (Nat.zero_le _) hlt,
          Nat.sub_zero]
    exact ⟨P₁, hkeeps⟩
  · exact ⟨_, hshrink.freed_drops hpg hok hdrop (hmem hok)⟩

end Freed

/-- **`kima_free` keeps the lists exactly if their first pages stay in use.** -/
theorem kimaFree_pagesOk_iff (hP : PagesOk L k.pool P)
    (hrun : kimaFree wrapAdd V L k ptr = .ok k') : (∃ P', PagesOk L k'.pool P') ↔
      ∀ κ h, (k.pool.slots κ).poolpgList = some h → Lasts L k ptr κ h := by
  obtain ⟨P', hfreed⟩ := kimaFree_freed hP.toPoolOk hrun
  constructor
  · rintro ⟨Q, hQ⟩ κ h hh
    rw [← hfreed.mem, hfreed.ok.mem_iff, ← hQ.mem_iff]
    exact mem_of_headOr_eq_some ((hQ.head κ).symm.trans ((hfreed.list κ).trans hh))
  · intro hlasts
    exact ⟨P', hfreed.pages hP fun κ h hh => (hfreed.mem κ h).mpr (hlasts κ h hh)⟩

/-! ## `kima_alloc` -/

/-- The pages of a block of `size` bytes. -/
def pagesOf (L : Layout) (size : ℕ) : ℕ := ceilAlignTo size L.pageSize / L.pageSize

/-- There is room for the block in the pages of the pool. -/
def HasRoom (L : Layout) (p : Pool) (size al : ℕ) : Prop :=
  ∃ found, search wrapAdd L p size al = .ok (some found)

/-- No pages are to be had for the block. -/
def OutOfPages (V : Vm σ) (L : Layout) (k : Kima σ) (size al : ℕ) : Prop :=
  ∀ v e, V.vpgalloc k.pool k.env (ceilAlignTo (Word.add size al) L.pageSize) = .ok (v, e) → v = 0

/-- The pages of the block, those for the descriptors of its pages and the one for its own
descriptor are all to be had. -/
def Supplied (V : Vm σ) (L : Layout) (k : Kima σ) (size al : ℕ) : Prop :=
  V.Meets (ceilAlignTo (Word.add size al) L.pageSize :: List.replicate
    (descPoolpgs L k.pool (pagesOf L size) + newPoolpg .ublk k.pool) L.pageSize) k.env

theorem PagesOk.setNum (h : PagesOk L k.pool P) (n : ℕ) : PagesOk L (k.setNum n).pool P :=
  ⟨⟨h.init, h.slots, h.apart, h.held⟩, h.head, h.chain⟩

theorem kimaVpgalloc_pagesOk (hV : V.Contract L) (hP : PagesOk L k.pool P) {v : ℕ}
    (hrun : kimaVpgalloc V L k size = .ok (v, k')) : PagesOk L k'.pool P := by
  obtain ⟨-, -, ⟨-, hk'⟩ | ⟨-, hk', -⟩⟩ := kimaVpgalloc_cases hV hrun
  · rw [hk']
    exact hP
  · rw [hk']
    exact ⟨hP.toPoolOk.mono_held fun q hq => List.mem_append_right _ hq, hP.head, hP.chain⟩

/-- A new descriptor keeps the lists. -/
theorem allocSlot_pagesOk (hV : V.Contract L) (hP : PagesOk L k.pool P) {d pages : ℕ}
    {r : Option ℕ} (hrun : allocSlot V L κ k ptr d pages = .ok (r, k')) :
    ∃ P', PagesOk L k'.pool P' := by
  obtain ⟨-, hsame, -⟩ | ⟨n, -, -, ⟨hok, hkeep, -⟩ | ⟨pg, hok, hpush, -⟩⟩ :=
    allocSlot_moves hV hP.toPoolOk hrun
  · exact ⟨P, hsame ▸ hP⟩
  · exact ⟨P, hkeep.pagesOk hok hP⟩
  · exact ⟨_, hpush.pagesOk hok hP⟩

/-- The scope guard keeps the lists if each pool page has a descriptor that it does not touch. -/
theorem releaseVpgdescs_pagesOk {A : PtrAdd} {pg i : ℕ} (hP : PagesOk L k.pool P)
    (hstay : ∀ h ∈ P .vpgdesc, ∃ q n, (k.pool.slots .vpgdesc).queryTree.find q = some n ∧
      floorAlignTo n L.pageSize = h ∧ ∀ j ∈ Word.multiples 0 i L.pageSize, A pg j ≠ .ok q)
    (hrun : releaseVpgdescs A V L pg i k = .ok k') : ∃ P', PagesOk L k'.pool P' := by
  obtain ⟨k₁, hdrop, hrun⟩ := of_bind hrun
  cases hrun
  obtain ⟨P', hshrink, hkeep⟩ := dropPages_shrinks hP.toPoolOk hdrop
  refine ⟨P', (hshrink.pages hP fun h hh => ?_).setNum _⟩
  rw [hP.head] at hh
  obtain ⟨q, n, hq, hn, hout⟩ := hstay h (mem_of_headOr_eq_some hh)
  exact hshrink.ok.mem_iff.mpr ⟨q, n, hkeep q n hq hout, hn⟩

/-- **The pages made for `m` descriptors**: none if there are free ones for all of them. -/
theorem NewDescs.eq_nil {Q : List ℕ} (h : NewDescs L P m Q k k')
    (hm : m ≤ (k.pool.slots .vpgdesc).freeTree.size) : Q = [] := by
  by_contra hne
  have hfull := h.full hne
  have hfree := h.free
  have hlen : 1 * (L.slots .vpgdesc).slotsSize ≤ Q.length * (L.slots .vpgdesc).slotsSize :=
    Nat.mul_le_mul_right _ (List.length_pos_iff.mpr hne)
  omega

/-- The loop over the pages of a block makes as many rounds as the block has pages. -/
theorem rounds_le (hsize : size + L.pageSize ≤ 2 ^ 64)
    (hm : 0 < m → 0 + m * L.pageSize < size + L.pageSize) : m ≤ pagesOf L size := by
  obtain ⟨hdvd, hle, -⟩ := ceilAlignTo_spec L.pageSize_pos hsize
  rcases Nat.eq_zero_or_pos m with rfl | hpos
  · exact Nat.zero_le _
  · refine (Nat.le_div_iff_mul_le L.pageSize_pos).mpr ?_
    exact Word.le_of_dvd_of_lt_add (Nat.dvd_mul_left _ _) hdvd (by have := hm hpos; omega)

theorem le_pagesOf (hsize : size + L.pageSize ≤ 2 ^ 64) :
    size ≤ 0 + pagesOf L size * L.pageSize := by
  obtain ⟨hdvd, hle, -⟩ := ceilAlignTo_spec L.pageSize_pos hsize
  rwa [pagesOf, Nat.div_mul_cancel hdvd, Nat.zero_add]

theorem pagesOf_lt (hsize : size + L.pageSize ≤ 2 ^ 64) :
    0 + pagesOf L size * L.pageSize < size + L.pageSize := by
  obtain ⟨hdvd, -, hlt⟩ := ceilAlignTo_spec L.pageSize_pos hsize
  rwa [pagesOf, Nat.div_mul_cancel hdvd, Nat.zero_add]

/-- **`kima_alloc` keeps the lists**, unless it makes a pool page and then gives up. -/
theorem allocNew_pagesOk (hV : V.Contract L) (hP : PagesOk L k.pool P) {al r : ℕ}
    (hcond : OutOfPages V L k size al ∨ size + L.pageSize ≤ 2 ^ 64 ∧
      (pagesOf L size ≤ (k.pool.slots .vpgdesc).freeTree.size ∨ Supplied V L k size al))
    (hrun : allocNew wrapAdd V L k size al = .ok (r, k')) : ∃ P', PagesOk L k'.pool P' := by
  obtain ⟨v, k₁, pg, hcall, halign, hrest⟩ := allocNew_cases hrun
  have hP₁ := kimaVpgalloc_pagesOk hV hP hcall
  obtain ⟨-, -, rfl⟩ | ⟨hpg, i, complete, k₂, hnew, hrest⟩ := hrest
  · exact ⟨P, hP₁⟩
  have hv : v ≠ 0 := by
    rintro rfl
    have : pg = 0 := by simpa [alignUp] using halign.symm
    exact hpg this
  obtain hout | ⟨hsize, hcond⟩ := hcond
  · exact absurd (hout v k₁.env (kimaVpgalloc_env hcall)) hv
  have hslots : k₁.pool.slots = k.pool.slots := by
    obtain ⟨-, -, ⟨-, hk₁⟩ | ⟨-, hk₁, -⟩⟩ := kimaVpgalloc_cases hV hcall <;> rw [hk₁]
  obtain ⟨m, Q, hdescs, -, hmoves⟩ := newPages_moves hV hP₁.toPoolOk hnew
  obtain ⟨hi, hlast, habsent⟩ := hmoves hsize
  have hP₂ := hdescs.pages hP₁
  have hgiveUp : ∀ {k₃ : Kima σ}, k₃.pool.slots = k₂.pool.slots →
      PagesOk L k₃.pool (update P .vpgdesc (Q ++ P .vpgdesc)) →
      pagesOf L size ≤ (k.pool.slots .vpgdesc).freeTree.size →
      releaseVpgdescs wrapAdd V L pg i k₃ = .ok k' → ∃ P', PagesOk L k'.pool P' := by
    intro k₃ hslots₃ hP₃ hfree hrel
    have hQ : Q = [] := hdescs.eq_nil
      ((rounds_le hsize fun h => hi ▸ hlast h).trans (hslots ▸ hfree))
    subst hQ
    refine releaseVpgdescs_pagesOk hP₃ (fun h hh => ?_) hrel
    obtain ⟨q, n, hq, hn⟩ := hP₁.mem_iff.mp hh
    refine ⟨q, n, hslots₃ ▸ hdescs.query q n hq, hn, fun j hj heq => ?_⟩
    obtain ⟨⟨t, rfl⟩, -, ht⟩ := (Word.mem_multiples L.pageSize_pos (dvd_zero _)
      (hi ▸ (by simp : L.pageSize ∣ 0 + m * L.pageSize))).mp hj
    have htm : t < m := by
      rw [hi, Nat.zero_add, Nat.mul_comm] at ht
      exact lt_of_mul_lt_mul_right ht (Nat.zero_le _)
    obtain ⟨page, hpage, hnone⟩ := habsent t htm
    rw [Nat.zero_add, Nat.mul_comm, heq] at hpage
    cases hpage
    cases hnone.symm.trans hq
  have hsupplied : Supplied V L k size al → complete = true ∧
      V.Meets (List.replicate (newPoolpg .ublk k.pool) L.pageSize) k₂.env := fun hsup =>
    newPages_supplied hV hP₁.toPoolOk hsize hnew (le_pagesOf hsize) (fun _ => pagesOf_lt hsize) (by
      rw [descPoolpgs, hslots]
      exact (hsup _ _ _ (kimaVpgalloc_env hcall)).2)
  obtain ⟨rfl, -, hrel⟩ | ⟨-, n, -, ublk, k₃, hublk, hrest⟩ := hrest
  · obtain hfree | hsup := hcond
    · exact hgiveUp rfl hP₂ hfree hrel
    · cases (hsupplied hsup).1
  · obtain ⟨rfl, -, hrel⟩ | ⟨-, -, rfl⟩ := hrest
    · obtain ⟨-, hsame, hzero, hnull⟩ | ⟨d, hd, -⟩ :=
        allocSlot_moves hV (hP₂.setNum n).toPoolOk hublk
      · obtain hfree | hsup := hcond
        · exact hgiveUp (by rw [hsame, slots_setNum]) (hsame ▸ hP₂.setNum n) hfree hrel
        · rw [slots_setNum, hdescs.ublk, hslots] at hzero
          have hmeets := (hsupplied hsup).2
          rw [newPoolpg, if_pos hzero] at hmeets
          exact absurd rfl (hmeets _ _ _ hnull).1
      · cases hd
    · exact allocSlot_pagesOk hV (hP₂.setNum n) hublk

/-! ## Runs -/

/-- A call that returns. -/
def Returns (V : Vm σ) (L : Layout) (k : Kima σ) (c : KimaCall) (k' : Kima σ) : Prop :=
  ∃ r, exec wrapAdd V L k c = .ok (r, k')

/-- **When a call keeps the lists of pool pages.**  `kima_free`: the first page of each list keeps a
descriptor in use.  `kima_alloc`: there is room in the pool, or no pages for the block, or enough
pages or free descriptors for everything it makes. -/
def KeepsLists (V : Vm σ) (L : Layout) (k : Kima σ) : KimaCall → Prop
  | .alloc size al => HasRoom L k.pool size al ∨ OutOfPages V L k size al ∨
      size + L.pageSize ≤ 2 ^ 64 ∧
        (pagesOf L size ≤ (k.pool.slots .vpgdesc).freeTree.size ∨ Supplied V L k size al)
  | .free ptr => ∀ κ h, (k.pool.slots κ).poolpgList = some h → Lasts L k ptr κ h

theorem pagesOk_kiInitKimaPool (L : Layout) : PagesOk L kiInitKimaPool fun _ => [] := by
  refine ⟨⟨rfl, fun κ => ?_, by simp, by simp⟩, fun _ => rfl, fun _ => trivial⟩
  exact ⟨⟨List.nodup_nil, by simp, by simp [kiInitKimaPool, emptySlots],
    by simp [kiInitKimaPool, emptySlots], by simp, by simp⟩, by simp⟩

/-- **One step keeps the lists of pool pages.** -/
theorem KeepsLists.step (hV : V.Contract L) {c : KimaCall} (hkeep : KeepsLists V L k c)
    (hstep : Returns V L k c k') (h : ∃ P, PagesOk L k.pool P) : ∃ P, PagesOk L k'.pool P := by
  obtain ⟨P, hP⟩ := h
  obtain ⟨r, hrun⟩ := hstep
  cases c with
  | alloc size al =>
    obtain ⟨base, cur, ublk, k₁, -, hublk, hrest⟩ | ⟨hnone, hnew⟩ := kimaAlloc_cases hrun
    · obtain ⟨P₁, hP₁⟩ := allocSlot_pagesOk hV hP hublk
      obtain ⟨-, -, rfl⟩ | ⟨-, -, href⟩ := hrest
      · exact ⟨P₁, hP₁⟩
      · exact ⟨P₁, (refPages_recounts href).pagesOk hP₁⟩
    · obtain ⟨found, hfound⟩ | hcond := hkeep
      · exact nomatch hfound.symm.trans hnone
      · exact allocNew_pagesOk hV hP hcond hnew
  | free ptr =>
    obtain ⟨k₁, hfree, hrun⟩ := of_bind hrun
    cases hrun
    exact (kimaFree_pagesOk_iff hP hfree).mpr hkeep

/-- **The pool pages over a run**: their slots are always divided, counted and in use; their lists
hold exactly them as long as every call keeps the lists; and a `kima_free` that does not breaks
one. -/
theorem poolPages_of_run (hV : V.Contract L) {e : σ} {cs : List KimaCall}
    (h : Run (Returns V L) ⟨kiInitKimaPool, e⟩ cs k) :
    (∃ P, PoolOk L k.pool P) ∧
    (Run (fun k c k' => Returns V L k c k' ∧ KeepsLists V L k c) ⟨kiInitKimaPool, e⟩ cs k →
      ∃ P, PagesOk L k.pool P) ∧
    ∀ P ptr k', PagesOk L k.pool P → kimaFree wrapAdd V L k ptr = .ok k' →
      ((∃ P', PagesOk L k'.pool P') ↔ KeepsLists V L k (.free ptr)) := by
  refine ⟨h.invariant (I := fun k => k.pool.Ok L) ?_ (ok_kiInitKimaPool L), fun hkeep => ?_,
    fun P ptr k' hP hfree => kimaFree_pagesOk_iff hP hfree⟩
  · rintro k c k' ⟨P, hP⟩ ⟨r, hrun⟩
    obtain ⟨P', hP', -⟩ := exec_evolves hV hP hrun
    exact ⟨P', hP'⟩
  · exact hkeep.invariant (I := fun k => ∃ P, PagesOk L k.pool P)
      (fun _ _ _ hI hs => hs.2.step hV hs.1 hI) ⟨_, pagesOk_kiInitKimaPool L⟩

/-! ## `kima_vpgalloc` over the memory manager -/

/-- What `kima_vpgalloc` calls, and how many pages of virtual memory are reserved.  `mm_kvmalloc`
reserves pages; `mm_pgalloc` and `mm_mmap` do not release any. -/
structure Mmgr (σ : Type) where
  kvmalloc : Pool → σ → ℕ → Except Fault (ℕ × σ)
  pgalloc : σ → Except Fault (ℕ × σ)
  mmap : σ → ℕ → ℕ → Except Fault (KmResult × σ)
  vpgfree : Pool → σ → ℕ → ℕ → Except Fault σ
  reserved : σ → ℕ
  kvmalloc_reserved : ∀ {p e n v e'}, kvmalloc p e n = .ok (v, e') → v ≠ 0 → n ≠ 0 →
    reserved e < reserved e'
  pgalloc_reserved : ∀ {e f e'}, pgalloc e = .ok (f, e') → reserved e' = reserved e
  mmap_reserved : ∀ {e v f r e'}, mmap e v f = .ok (r, e') → reserved e' = reserved e

/-- The loop of `kima_vpgalloc` over the pages of the range: a frame for each, as long as there are
any. -/
def Mmgr.mapFrames (M : Mmgr σ) (vaddr : ℕ) : List ℕ → σ → Except Fault (Bool × σ)
  | [], e => .ok (true, e)
  | i :: is, e => do
    let (paddr, e) ← M.pgalloc e
    if paddr = 0 then
      return (false, e)
    let (r, e) ← M.mmap e (Word.add vaddr i) paddr
    kdAssert (r = .ok) "kernel/mm/kima/vmalloc.cc" 13
    M.mapFrames vaddr is e

/-- `kima_vpgalloc`.  When the frames run out, neither the range nor the frames taken so far are
given back. -/
def Mmgr.vm (M : Mmgr σ) (L : Layout) : Vm σ where
  vpgalloc p e n := do
    let (vaddr, e) ← M.kvmalloc p e n
    kdAssert (vaddr ≠ 0) "kernel/mm/kima/vmalloc.cc" 7
    let (complete, e) ← M.mapFrames vaddr (Word.multiples 0 n L.pageSize) e
    return (if complete then vaddr else 0, e)
  vpgfree := M.vpgfree

/-- The frames that are free, and the pages that are reserved. -/
structure Backing where
  frames : ℕ
  reserved : ℕ
  deriving DecidableEq

/-- A memory manager with a number of frames.  It reserves the pages after everything in use, and
needs a frame for a table of the range. -/
def backing (L : Layout) : Mmgr Backing where
  kvmalloc p e n :=
    let v := firstUnused L p + (e.reserved - p.held.length) * L.pageSize
    if e.frames = 0 ∨ 2 ^ 64 ≤ v + n then .ok (0, e)
    else .ok (v, ⟨e.frames - 1, e.reserved + (n + L.pageSize - 1) / L.pageSize⟩)
  pgalloc e := .ok (e.frames, ⟨e.frames - 1, e.reserved⟩)
  mmap e _ _ := .ok (.ok, e)
  vpgfree _ e _ n := .ok ⟨e.frames + n / L.pageSize, e.reserved - n / L.pageSize⟩
  reserved := Backing.reserved
  kvmalloc_reserved := by
    intro p e n v e' h h0 hn
    have hpos := L.pageSize_pos
    have hdiv : 0 < (n + L.pageSize - 1) / L.pageSize := Nat.div_pos (by omega) hpos
    dsimp only at h
    split_ifs at h
    · exact absurd (ok_mk_inj h).1.symm h0
    · obtain ⟨-, rfl⟩ := ok_mk_inj h
      exact Nat.lt_add_of_pos_right hdiv
  pgalloc_reserved h := by rw [← (ok_mk_inj h).2]
  mmap_reserved h := by rw [(ok_mk_inj h).2]

theorem backing_mapFrames (L : Layout) (vaddr : ℕ) (is : List ℕ) (e : Backing) :
    (backing L).mapFrames vaddr is e =
      .ok (decide (is.length ≤ e.frames), ⟨e.frames - is.length, e.reserved⟩) := by
  induction is generalizing e with
  | nil => simp [Mmgr.mapFrames]
  | cons i is ih =>
    obtain ⟨_ | f, r⟩ := e
    · simp [Mmgr.mapFrames, backing, bind, Except.bind, pure, Except.pure]
    · change (backing L).mapFrames vaddr is ⟨f, r⟩ = _
      simp [ih]

/-- What it hands out. -/
theorem backing_vpgalloc {p : Pool} {e e' : Backing} {n v : ℕ}
    (h : ((backing L).vm L).vpgalloc p e n = .ok (v, e')) :
    e' = ⟨e.frames - 1 - n / L.pageSize, e.reserved + (n + L.pageSize - 1) / L.pageSize⟩ ∧
      v = if e.frames ≤ n / L.pageSize then 0
        else firstUnused L p + (e.reserved - p.held.length) * L.pageSize := by
  simp only [Mmgr.vm, backing_mapFrames, bind_eq_ok_iff] at h
  obtain ⟨⟨vaddr, e₁⟩, hcall, _, hassert, ⟨complete, e₂⟩, hmap, h⟩ := h
  obtain ⟨rfl, rfl⟩ := ok_mk_inj hmap
  obtain ⟨rfl, rfl⟩ := ok_mk_inj h
  simp only [backing] at hcall
  split_ifs at hcall with hno
  · obtain ⟨rfl, -⟩ := ok_mk_inj hcall
    cases hassert
  · obtain ⟨rfl, rfl⟩ := ok_mk_inj hcall
    have hlen : (Word.multiples 0 n L.pageSize).length = n / L.pageSize := by simp [Word.multiples]
    rw [hlen]
    refine ⟨rfl, ?_⟩
    by_cases hle : e.frames ≤ n / L.pageSize
    · rw [if_pos hle, if_neg (by simp; omega)]
    · rw [if_neg hle, if_pos (by simp; omega)]

theorem firstUnused_pos (L : Layout) (p : Pool) : 0 < firstUnused L p := by
  have hbase : ∀ l : List ℕ, 3 * L.pageSize ≤ l.foldr max (3 * L.pageSize) := by
    intro l
    induction l with
    | nil => exact le_rfl
    | cons x l ih => exact ih.trans (le_max_right _ _)
  exact (Nat.mul_pos (by decide) L.pageSize_pos).trans_le (hbase _)

theorem backing_le {p : Pool} {e e' : Backing} {n v : ℕ}
    (h : ((backing L).vm L).vpgalloc p e n = .ok (v, e')) (h0 : v ≠ 0) : firstUnused L p ≤ v := by
  obtain ⟨-, rfl⟩ := backing_vpgalloc h
  rw [if_neg fun hle => h0 (if_pos hle)]
  exact Nat.le_add_right ..

theorem backing_contract (L : Layout) : ((backing L).vm L).Contract L where
  aligned p e n v e' h := by
    rw [(backing_vpgalloc h).2]
    split
    · exact dvd_zero _
    · exact Nat.dvd_add (dvd_firstUnused L p) (Nat.dvd_mul_left ..)
  block _ _ _ _ _ h h0 _ _ hb ho := ((block_le_firstUnused hb).trans (backing_le h h0)).not_gt ho.1
  page _ _ _ _ _ h h0 _ hq ho := ((page_le_firstUnused hq).trans (backing_le h h0)).not_gt ho.1

/-- **Requests are met as long as there are frames**, for the pages and for one table each. -/
theorem backing_meets {ns : List ℕ} {e : Backing}
    (h : (ns.map fun n => n / L.pageSize + 1).sum ≤ e.frames) :
    ((backing L).vm L).Meets ns e := by
  induction ns generalizing e with
  | nil => trivial
  | cons n ns ih =>
    rw [List.map_cons, List.sum_cons] at h
    intro p v e' hcall
    obtain ⟨rfl, rfl⟩ := backing_vpgalloc hcall
    have hpos := firstUnused_pos L p
    exact ⟨by rw [if_neg (by omega)]; omega, ih (by dsimp only; omega)⟩

/-! ## Two runs -/

instance (L : Layout) (p : Pool) (size al : ℕ) : Decidable (HasRoom L p size al) :=
  match h : search wrapAdd L p size al with
  | .ok (some found) => isTrue ⟨found, h⟩
  | .ok none => isFalse fun ⟨_, h'⟩ => nomatch h.symm.trans h'
  | .error _ => isFalse fun ⟨_, h'⟩ => nomatch h.symm.trans h'

instance (L : Layout) (k : Kima σ) (ptr : ℕ) (κ : Kind) (q : ℕ) : Decidable (Stays L k ptr κ q) :=
  match κ with
  | .ublk => inferInstanceAs (Decidable (q ≠ ptr))
  | .vpgdesc => inferInstanceAs (Decidable (¬ (q ∈ blockPages L k.pool ptr ∧ LastRef k q)))

theorem lasts_iff (L : Layout) (k : Kima σ) (ptr : ℕ) (κ : Kind) (pg : ℕ) : Lasts L k ptr κ pg ↔
    ∃ b ∈ (k.pool.slots κ).queryTree.entries, floorAlignTo b.2 L.pageSize = pg ∧
      Stays L k ptr κ b.1 := by
  simp only [Lasts, OrdMap.find_eq_some_iff]
  exact ⟨fun ⟨q, n, hq, h⟩ => ⟨(q, n), hq, h⟩, fun ⟨b, hb, h⟩ => ⟨b.1, b.2, hb, h⟩⟩

instance (L : Layout) (k : Kima σ) (ptr : ℕ) (κ : Kind) (pg : ℕ) : Decidable (Lasts L k ptr κ pg) :=
  decidable_of_iff _ (lasts_iff L k ptr κ pg).symm

/-- Both lists start with a page that lasts. -/
def firstsLast (L : Layout) (k : Kima σ) (ptr : ℕ) : Bool :=
  [Kind.ublk, Kind.vpgdesc].all fun κ => match (k.pool.slots κ).poolpgList with
    | none => true
    | some h => decide (Lasts L k ptr κ h)

theorem keepsLists_of_firstsLast (h : firstsLast L k ptr = true) :
    KeepsLists V L k (.free ptr) := by
  intro κ pg hpg
  have hκ := List.all_eq_true.mp h κ (by cases κ <;> simp)
  simp only [hpg] at hκ
  exact of_decide_eq_true hκ

theorem three_lt : 3 < 84 := by decide

/-- Pages of 4096 bytes with four descriptors each. -/
abbrev smallVm : Vm Backing := (backing (pages4k 3 three_lt)).vm (pages4k 3 three_lt)

/-- Two blocks, of which the first is freed; ten frames are enough. -/
theorem poolPages_twoBlocks : ∃ k, Run (Returns smallVm (pages4k 3))
    ⟨kiInitKimaPool, ⟨10, 0⟩⟩ [.alloc 24 8, .alloc 128 64, .free 12288] k ∧
      ∃ P, PagesOk (pages4k 3) k.pool P := by
  obtain ⟨a, k₁, h₁, b, k₂, h₂, c, k₃, h₃, hroom, hlast⟩ : ∃ a k₁,
      exec wrapAdd smallVm (pages4k 3) ⟨kiInitKimaPool, ⟨10, 0⟩⟩ (.alloc 24 8) = .ok (a, k₁) ∧
      ∃ b k₂, exec wrapAdd smallVm (pages4k 3) k₁ (.alloc 128 64) = .ok (b, k₂) ∧
      ∃ c k₃, exec wrapAdd smallVm (pages4k 3) k₂ (.free 12288) = .ok (c, k₃) ∧
      HasRoom (pages4k 3) k₁.pool 128 64 ∧ firstsLast (pages4k 3) k₂ 12288 = true := by
    decide +kernel
  have hfirst : KeepsLists smallVm (pages4k 3) ⟨kiInitKimaPool, ⟨10, 0⟩⟩ (.alloc 24 8) :=
    .inr (.inr ⟨by decide, .inr (backing_meets (by decide +kernel))⟩)
  have hreturns : Run (Returns smallVm (pages4k 3)) ⟨kiInitKimaPool, ⟨10, 0⟩⟩
      [.alloc 24 8, .alloc 128 64, .free 12288] k₃ :=
    .cons ⟨a, h₁⟩ (.cons ⟨b, h₂⟩ (.cons ⟨c, h₃⟩ (.nil _)))
  exact ⟨k₃, hreturns, (poolPages_of_run (backing_contract _) hreturns).2.1
    (.cons ⟨⟨a, h₁⟩, hfirst⟩ (.cons ⟨⟨b, h₂⟩, .inl hroom⟩
      (.cons ⟨⟨c, h₃⟩, keepsLists_of_firstsLast hlast⟩ (.nil _))))⟩

/-- One block that is allocated and freed leaves both lists at pages that have been given back. -/
theorem kimaFree_leaves_head : ∃ k, Run (Returns smallVm (pages4k 3))
    ⟨kiInitKimaPool, ⟨10, 0⟩⟩ [.alloc 24 8, .free 12288] k ∧ k.pool.held = [12288] ∧
      (k.pool.slots .vpgdesc).poolpgList = some 16384 ∧
      (k.pool.slots .ublk).poolpgList = some 20480 ∧ ∀ P, ¬ PagesOk (pages4k 3) k.pool P := by
  obtain ⟨a, k₁, h₁, b, k₂, h₂, hheld, hvpgdesc, hublk⟩ : ∃ a k₁,
      exec wrapAdd smallVm (pages4k 3) ⟨kiInitKimaPool, ⟨10, 0⟩⟩ (.alloc 24 8) = .ok (a, k₁) ∧
      ∃ b k₂, exec wrapAdd smallVm (pages4k 3) k₁ (.free 12288) = .ok (b, k₂) ∧
      k₂.pool.held = [12288] ∧ (k₂.pool.slots .vpgdesc).poolpgList = some 16384 ∧
      (k₂.pool.slots .ublk).poolpgList = some 20480 := by decide +kernel
  refine ⟨k₂, .cons ⟨a, h₁⟩ (.cons ⟨b, h₂⟩ (.nil _)), hheld, hvpgdesc, hublk, fun P hP => ?_⟩
  have hmem := hP.held .ublk 20480 (mem_of_headOr_eq_some ((hP.head .ublk).symm.trans hublk))
  rw [hheld] at hmem
  simp at hmem

end Pbos.Mm
