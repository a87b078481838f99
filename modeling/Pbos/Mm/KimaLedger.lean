import Pbos.Mm.KimaLists

/-!
# Mm/KimaLedger — the count of allocated pages over a run

`num_allocated_pages` is meant to be the number of pages the pool holds.  The two are booked apart:
a block in new pages is booked with the pages of its `size`, not with those it was given; a new page
of `ublk`s is booked with the pages of the block it was made for, and a new page of `vpgdesc`s not
at all; and the pages of a block are never given back.  `pageCount_of_run` says which calls keep the
count right, and that a pool which was ever given pages for a block keeps some of them for good.
-/

namespace Pbos.Mm

open Pbos.Kfxx SlotPool

variable {σ : Type} {V : Vm σ} {L : Layout} {k k' k'' : Kima σ} {κ : Kind} {p : Pool}
  {P P' : Kind → List ℕ} {m : ℕ} {c : KimaCall} {a b d ptr n v size al r : ℕ} {Q : List ℕ}

/-! ## Booking -/

/-- `num_allocated_pages` is the number of pages held. -/
def Accounted (p : Pool) : Prop := p.numAllocatedPages = p.held.length % 2 ^ 64

theorem Accounted.lt (h : Accounted p) : p.numAllocatedPages < 2 ^ 64 :=
  h ▸ Nat.mod_lt _ (by norm_num)

/-- `a` pages more are held, and `b` pages more are counted. -/
structure Booked (a b : ℕ) (k k' : Kima σ) : Prop where
  held : k'.pool.held.length = k.pool.held.length + a
  num : k'.pool.numAllocatedPages = Word.add k.pool.numAllocatedPages b

theorem Booked.of_keeps (hnum : k.pool.numAllocatedPages < 2 ^ 64) (h : Keeps k.pool k'.pool) :
    Booked 0 0 k k' :=
  ⟨by rw [h.held]; rfl, by rw [h.num, Word.add_of_lt (by omega)]; rfl⟩

theorem Booked.trans {c : ℕ} (h : Booked a b k k') (h' : Booked c d k' k'') :
    Booked (a + c) (b + d) k k'' where
  held := by rw [h'.held, h.held, Nat.add_assoc]
  num := by
    rw [h'.num, h.num]
    simp only [Word.add]
    omega

theorem Booked.accounted_iff (h : Booked a b k k') (hk : Accounted k.pool) :
    Accounted k'.pool ↔ b % 2 ^ 64 = a % 2 ^ 64 := by
  rw [Accounted, h.held, h.num, show k.pool.numAllocatedPages = _ from hk]
  simp only [Word.add]
  omega

/-! ## What is taken -/

/-- The pages that a block in new pages is given. -/
def givenPages (L : Layout) (size al : ℕ) : ℕ :=
  ceilAlignTo (Word.add size al) L.pageSize / L.pageSize

/-- A descriptor of kind `κ` is booked with `pages` if it needs a page. -/
theorem allocSlot_booked (hV : V.Contract L) (hP : PoolOk L k.pool P)
    (hnum : k.pool.numAllocatedPages < 2 ^ 64) {pages : ℕ} {r : Option ℕ}
    (hrun : allocSlot V L κ k ptr d pages = .ok (r, k')) :
    r = none ∧ k'.pool = k.pool ∧ newPoolpg κ k.pool = 1 ∧
        V.vpgalloc k.pool k.env L.pageSize = .ok (0, k'.env) ∨
      r ≠ none ∧ Booked (newPoolpg κ k.pool) (newPoolpg κ k.pool * pages) k k' := by
  obtain ⟨rfl, hsame, hzero, hnull⟩ | ⟨n, rfl, -, hmoves⟩ := allocSlot_moves hV hP hrun
  · exact .inl ⟨rfl, hsame, if_pos hzero, hnull⟩
  · refine .inr ⟨Option.some_ne_none n, ?_⟩
    obtain ⟨-, hkeep, -, hfree⟩ | ⟨pg, -, hpush, -, -, hfree, -⟩ := hmoves
    · have hnew : newPoolpg κ k.pool = 0 := if_neg (by omega)
      rw [hnew, Nat.zero_mul]
      exact .of_keeps hnum hkeep
    · have hnew : newPoolpg κ k.pool = 1 := if_pos hfree
      rw [hnew, Nat.one_mul]
      exact ⟨by rw [hpush.held]; rfl, hpush.num⟩

theorem NewDescs.booked (h : NewDescs L P m Q k k')
    (hnum : k.pool.numAllocatedPages < 2 ^ 64) (hnd : k.pool.held.Nodup) :
    Booked (descPoolpgs L k.pool m) 0 k k' := by
  have hlen := h.moved.length hnd
  have hcount := poolpgs_update P .vpgdesc (Q ++ P .vpgdesc)
  rw [List.length_append] at hcount
  refine ⟨?_, by rw [h.num hnum, Word.add_of_lt (by omega)]; rfl⟩
  have hpages := h.descPoolpgs_add 0
  rw [descPoolpgs_zero, Nat.add_zero] at hpages
  omega

/-- The pages of a block are as many as it asks for. -/
theorem kimaVpgalloc_booked (hV : V.Contract L) (hnum : k.pool.numAllocatedPages < 2 ^ 64)
    (hrun : kimaVpgalloc V L k n = .ok (v, k')) (hv : v ≠ 0) :
    Booked (n / L.pageSize) 0 k k' := by
  obtain ⟨-, -, ⟨h0, -⟩ | ⟨-, hk', -⟩⟩ := kimaVpgalloc_cases hV hrun
  · exact absurd h0 hv
  · refine ⟨?_, by rw [hk', Word.add_of_lt (by omega)]; rfl⟩
    rw [hk']
    simp [Word.multiples]
    omega

/-! ## `kima_alloc` -/

/-- Everything that a block in new pages needs is to be had, and its address does not wrap. -/
def AtHand (V : Vm σ) (L : Layout) (k : Kima σ) (size al : ℕ) : Prop :=
  0 < al ∧ size + L.pageSize ≤ 2 ^ 64 ∧ Supplied V L k size al ∧
    ∀ v e, V.vpgalloc k.pool k.env (ceilAlignTo (Word.add size al) L.pageSize) = .ok (v, e) →
      v + al ≤ 2 ^ 64

theorem rounds_eq (hsize : size + L.pageSize ≤ 2 ^ 64) (hle : size ≤ m * L.pageSize)
    (hm : 0 < m → 0 + m * L.pageSize < size + L.pageSize) : m = pagesOf L size := by
  obtain ⟨hdvd, -, hlt⟩ := ceilAlignTo_spec L.pageSize_pos hsize
  refine le_antisymm (rounds_le hsize hm) ?_
  have hceil := Word.le_of_dvd_of_lt_add hdvd (Nat.dvd_mul_left L.pageSize m) (by omega)
  exact Nat.div_le_of_le_mul (Nat.mul_comm m _ ▸ hceil)

/-- **What a block in new pages is given and what is booked for it.** -/
theorem allocNew_booked (hV : V.Contract L) (hP : PoolOk L k.pool P)
    (hnum : k.pool.numAllocatedPages < 2 ^ 64) (hnd : k.pool.held.Nodup)
    (hhand : AtHand V L k size al) (hrun : allocNew wrapAdd V L k size al = .ok (r, k')) :
    Booked (givenPages L size al + descPoolpgs L k.pool (pagesOf L size) + newPoolpg .ublk k.pool)
      (pagesOf L size + newPoolpg .ublk k.pool * pagesOf L size) k k' := by
  obtain ⟨hal, hsize, hsup, hspace⟩ := hhand
  obtain ⟨v, k₁, pg, hcall, halign, hrest⟩ := allocNew_cases hrun
  obtain ⟨hv, hsup₁⟩ := hsup _ _ _ (kimaVpgalloc_env hcall)
  have hwrap := hspace _ _ (kimaVpgalloc_env hcall)
  have hpg : pg = roundUp v al := by
    refine alignUp_eq hal (fun hmod => exactAt_wrapAdd ?_) halign
    omega
  have hpg0 : pg ≠ 0 := by
    have := le_roundUp v al
    omega
  obtain ⟨hP₁, hevolves⟩ := kimaVpgalloc_evolves hV hP
    (dvd_ceilAlignTo L.pageSize_pos L.pageSize_dvd) hcall
  have hbook₁ := kimaVpgalloc_booked hV hnum hcall hv
  have hnum₁ : k₁.pool.numAllocatedPages < 2 ^ 64 := hbook₁.num ▸ Word.add_lt _ _
  have hslots : k₁.pool.slots = k.pool.slots := by
    obtain ⟨-, -, ⟨-, hk₁⟩ | ⟨-, hk₁, -⟩⟩ := kimaVpgalloc_cases hV hcall <;> rw [hk₁]
  obtain ⟨h0, -⟩ | ⟨-, i, complete, k₂, hnew, hrest⟩ := hrest
  · exact absurd h0 hpg0
  obtain ⟨hcomplete, hsup₂⟩ := newPages_supplied hV hP₁ hsize hnew (le_pagesOf hsize)
    (fun _ => pagesOf_lt hsize) (by rwa [descPoolpgs, hslots])
  obtain ⟨m, Q, hdescs, hend, hmoves⟩ := newPages_moves hV hP₁ hnew
  obtain ⟨hi, hlast, -⟩ := hmoves hsize
  have hm : m = pagesOf L size := by
    have hle := hend hcomplete
    exact rounds_eq hsize (by omega) fun h => hi ▸ hlast h
  have hbook₂ := hdescs.booked hnum₁ (hevolves.nodup hnd)
  obtain ⟨hfalse, -⟩ | ⟨-, n, hn, ublk, k₃, hublk, hrest⟩ := hrest
  · cases hfalse.symm.trans hcomplete
  have hnewPage : newPoolpg .ublk (k₂.setNum n).pool = newPoolpg .ublk k.pool := by
    rw [newPoolpg, slots_setNum, hdescs.ublk, hslots, newPoolpg]
  have hbook₂' : Booked 0 (pagesOf L size) k₂ (k₂.setNum n) := ⟨rfl, hn⟩
  obtain ⟨rfl, -, hone, hnull⟩ | ⟨hsome, hbook₃⟩ := allocSlot_booked hV (hdescs.ok.setNum n)
    (hn ▸ Word.add_lt _ _) hublk
  · rw [← hnewPage, hone] at hsup₂
    exact absurd rfl (hsup₂ _ _ _ hnull).1
  obtain ⟨hnone, -⟩ | ⟨-, -, rfl⟩ := hrest
  · exact absurd hnone hsome
  have hdescPages : descPoolpgs L k₁.pool m = descPoolpgs L k.pool (pagesOf L size) := by
    rw [descPoolpgs, hslots, hm, descPoolpgs]
  have hbook := ((hbook₁.trans hbook₂).trans hbook₂').trans hbook₃
  rw [hnewPage, hdescPages] at hbook
  simp only [Nat.zero_add] at hbook
  exact hbook

/-- **What a block with room in the pool is given and what is booked for it.** -/
theorem kimaAlloc_found_booked (hV : V.Contract L) (hP : PoolOk L k.pool P)
    (hnum : k.pool.numAllocatedPages < 2 ^ 64) (hroom : HasRoom L k.pool size al)
    (hrun : kimaAlloc wrapAdd V L k size al = .ok (r, k')) :
    k'.pool = k.pool ∧ newPoolpg .ublk k.pool = 1 ∧
        V.vpgalloc k.pool k.env L.pageSize = .ok (0, k'.env) ∨
      Booked (newPoolpg .ublk k.pool) (newPoolpg .ublk k.pool * pagesOf L size) k k' := by
  obtain ⟨base, cur, ublk, k₁, -, hublk, hrest⟩ | ⟨hnone, -⟩ := kimaAlloc_cases hrun
  · obtain ⟨rfl, hsame, hone, hnull⟩ | ⟨hsome, hbook⟩ := allocSlot_booked hV hP hnum hublk
    · obtain ⟨-, -, rfl⟩ | ⟨hsome, -⟩ := hrest
      · exact .inl ⟨hsame, hone, hnull⟩
      · exact absurd rfl hsome
    · obtain ⟨hnone, -⟩ | ⟨-, -, href⟩ := hrest
      · exact absurd hnone hsome
      · have hkeep := (refPages_recounts (L := L) href).keeps
        exact .inr (hbook.trans (.of_keeps (hbook.num ▸ Word.add_lt _ _) hkeep))
  · obtain ⟨found, hfound⟩ := hroom
    exact nomatch hfound.symm.trans hnone

/-! ## `kima_free` -/

/-- Freeing a block keeps every pool page of `vpgdesc`s. -/
def KeepsDescPages (L : Layout) (k : Kima σ) (ptr : ℕ) : Prop :=
  ∀ q n, (k.pool.slots .vpgdesc).queryTree.find q = some n →
    Lasts L k ptr .vpgdesc (floorAlignTo n L.pageSize)

/-- **`kima_free` keeps the count exactly if no pool page of `vpgdesc`s goes**: its pages are never
booked. -/
theorem kimaFree_accounted_iff (hP : PoolOk L k.pool P) (hnd : k.pool.held.Nodup)
    (hk : Accounted k.pool) (hrun : kimaFree wrapAdd V L k ptr = .ok k') :
    (KeepsDescPages L k ptr → Accounted k'.pool) ∧
      (k.pool.held.length < 2 ^ 64 → Accounted k'.pool → KeepsDescPages L k ptr) := by
  obtain ⟨P', hfreed⟩ := kimaFree_freed hP hrun
  have hlen := hfreed.moved.length hnd
  have hnum := hfreed.num hk.lt
  have hublk := hfreed.ublk
  have hsub := (hfreed.sub .ublk).length_le
  have hsub' := (hfreed.sub .vpgdesc).length_le
  have hkeeps : KeepsDescPages L k ptr ↔ (P' .vpgdesc).length = (P .vpgdesc).length := by
    constructor
    · intro hlasts
      refine le_antisymm hsub' ((hP.slots .vpgdesc).nodup.subperm fun pg hpg => ?_).length_le
      obtain ⟨q, n, hq, rfl⟩ := hP.mem_iff.mp hpg
      exact (hfreed.mem _ _).mpr (hlasts q n hq)
    · intro heq q n hq
      rw [← hfreed.mem, (hfreed.sub .vpgdesc).eq_of_length heq]
      exact hP.mem_iff.mpr ⟨q, n, hq, rfl⟩
  rw [hkeeps]
  unfold poolpgs at hlen
  unfold Accounted at hk ⊢
  rw [hnum]
  simp only [Word.sub]
  constructor <;> intros <;> omega

/-! ## Calls -/

/-- **When a call keeps the count right.**  With room in the pool: no new page of `ublk`s is needed,
or it is booked for a block of one page.  Without: there are no pages for the block, or all that is
needed is to be had and the pages of the block are as many again as those given beyond it.
`kima_free`: no page of `vpgdesc`s goes. -/
def Balanced (V : Vm σ) (L : Layout) (k : Kima σ) : KimaCall → Prop
  | .alloc size al =>
    HasRoom L k.pool size al ∧ (newPoolpg .ublk k.pool = 0 ∨ pagesOf L size = 1) ∨
    ¬ HasRoom L k.pool size al ∧ (OutOfPages V L k size al ∨ AtHand V L k size al ∧
      pagesOf L size + newPoolpg .ublk k.pool * pagesOf L size =
        givenPages L size al + descPoolpgs L k.pool (pagesOf L size) + newPoolpg .ublk k.pool)
  | .free ptr => KeepsDescPages L k ptr

/-- The pages that a call needs are to be had: with room in the pool one for the descriptor of the
block, if none is free. -/
def Served (V : Vm σ) (L : Layout) (k : Kima σ) : KimaCall → Prop
  | .alloc size al =>
    HasRoom L k.pool size al ∧
      V.Meets (List.replicate (newPoolpg .ublk k.pool) L.pageSize) k.env ∨
    ¬ HasRoom L k.pool size al ∧ AtHand V L k size al
  | .free _ => True

theorem newPoolpg_le (κ : Kind) (p : Pool) : newPoolpg κ p ≤ 1 := by
  unfold newPoolpg
  split <;> omega

theorem accounted_of_pool_eq (h : k'.pool = k.pool) (hk : Accounted k.pool) : Accounted k'.pool :=
  h ▸ hk

/-- A block that is refused its pages changes nothing. -/
theorem allocNew_outOfPages (hV : V.Contract L) (hout : OutOfPages V L k size al)
    (hrun : allocNew wrapAdd V L k size al = .ok (r, k')) : k'.pool = k.pool ∧
      V.vpgalloc k.pool k.env (ceilAlignTo (Word.add size al) L.pageSize) = .ok (0, k'.env) := by
  obtain ⟨v, k₁, pg, hcall, halign, hrest⟩ := allocNew_cases hrun
  obtain rfl : v = 0 := hout _ _ (kimaVpgalloc_env hcall)
  have hpg : pg = 0 := by simpa [alignUp] using halign.symm
  obtain ⟨-, -, rfl⟩ | ⟨hne, -⟩ := hrest
  · obtain ⟨-, -, ⟨-, hk₁⟩ | ⟨h0, -⟩⟩ := kimaVpgalloc_cases hV hcall
    · exact ⟨hk₁, kimaVpgalloc_env hcall⟩
    · exact absurd rfl h0
  · exact absurd hpg hne

/-- **A balanced call keeps the count right.** -/
theorem Balanced.step (hV : V.Contract L) (hbal : Balanced V L k c) (hstep : Returns V L k c k')
    (hok : k.pool.Ok L) (hnd : k.pool.held.Nodup) (hk : Accounted k.pool) : Accounted k'.pool := by
  obtain ⟨P, hP⟩ := hok
  obtain ⟨r, hrun⟩ := hstep
  cases c with
  | alloc size al =>
    obtain ⟨hroom, hbal⟩ | ⟨hroom, hbal⟩ := hbal
    · obtain ⟨hsame, -⟩ | hbook := kimaAlloc_found_booked hV hP hk.lt hroom hrun
      · exact accounted_of_pool_eq hsame hk
      · refine (hbook.accounted_iff hk).mpr ?_
        obtain h | h := hbal <;> simp [h]
    · obtain ⟨base, cur, -, -, hfound, -⟩ | ⟨-, hnew⟩ := kimaAlloc_cases hrun
      · exact absurd ⟨_, hfound⟩ hroom
      obtain hout | ⟨hhand, heq⟩ := hbal
      · exact accounted_of_pool_eq (allocNew_outOfPages hV hout hnew).1 hk
      · exact ((allocNew_booked hV hP hk.lt hnd hhand hnew).accounted_iff hk).mpr (by rw [heq])
  | free ptr =>
    obtain ⟨k₁, hfree, hrun⟩ := of_bind hrun
    cases hrun
    exact (kimaFree_accounted_iff hP hnd hk hfree).1 hbal

theorem ceilAlignTo_div_lt (hps : 4 ≤ L.pageSize) (n : ℕ) :
    ceilAlignTo n L.pageSize / L.pageSize < 2 ^ 62 :=
  Nat.div_lt_of_lt_mul ((Word.add_lt _ _).trans_le (by omega))

theorem descPoolpgs_le (L : Layout) (p : Pool) (d : ℕ) : descPoolpgs L p d ≤ d := by
  have hS := (L.slots .vpgdesc).size_pos
  have hle : d * 1 ≤ d * (L.slots .vpgdesc).slotsSize := Nat.mul_le_mul_left d hS
  refine Nat.lt_succ_iff.mp ((Nat.div_lt_iff_lt_mul hS).mpr ?_)
  rw [Nat.succ_mul]
  omega

/-- **A call that is served and returns keeps the count right only if it is balanced.** -/
theorem Served.balanced (hV : V.Contract L) (hps : 4 ≤ L.pageSize) (hserved : Served V L k c)
    (hstep : Returns V L k c k') (hok : k.pool.Ok L) (hnd : k.pool.held.Nodup)
    (hlen : k.pool.held.length < 2 ^ 64) (hk : Accounted k.pool) (hk' : Accounted k'.pool) :
    Balanced V L k c := by
  obtain ⟨P, hP⟩ := hok
  obtain ⟨r, hrun⟩ := hstep
  cases c with
  | alloc size al =>
    have hd : pagesOf L size < 2 ^ 62 := ceilAlignTo_div_lt hps size
    have hu := newPoolpg_le .ublk k.pool
    obtain ⟨hroom, hmeets⟩ | ⟨hroom, hserved⟩ := hserved
    · refine .inl ⟨hroom, ?_⟩
      obtain ⟨-, hone, hnull⟩ | hbook := kimaAlloc_found_booked hV hP hk.lt hroom hrun
      · rw [hone] at hmeets
        exact absurd rfl (hmeets _ _ _ hnull).1
      · have heq := (hbook.accounted_iff hk).mp hk'
        rcases Nat.le_one_iff_eq_zero_or_eq_one.mp hu with hu | hu
        · exact .inl hu
        · rw [hu, Nat.one_mul, Nat.mod_eq_of_lt (by omega)] at heq
          exact .inr heq
    · refine .inr ⟨hroom, .inr ⟨hserved, ?_⟩⟩
      obtain ⟨base, cur, -, -, hfound, -⟩ | ⟨-, hnew⟩ := kimaAlloc_cases hrun
      · exact absurd ⟨_, hfound⟩ hroom
      have heq := ((allocNew_booked hV hP hk.lt hnd hserved hnew).accounted_iff hk).mp hk'
      have hgiven : givenPages L size al < 2 ^ 62 := ceilAlignTo_div_lt hps _
      have hdesc := descPoolpgs_le L k.pool (pagesOf L size)
      have hmul : newPoolpg .ublk k.pool * pagesOf L size ≤ 1 * pagesOf L size :=
        Nat.mul_le_mul_right _ hu
      rwa [Nat.mod_eq_of_lt (by omega), Nat.mod_eq_of_lt (by omega)] at heq
  | free ptr =>
    obtain ⟨k₁, hfree, hrun⟩ := of_bind hrun
    cases hrun
    exact (kimaFree_accounted_iff hP hnd hk hfree).2 hlen hk'

/-! ## Runs -/

/-- No pages are to be had for a block. -/
def Refuses (V : Vm σ) (L : Layout) (k : Kima σ) : KimaCall → Prop
  | .alloc size al => OutOfPages V L k size al
  | .free _ => True

/-- Pages that the pool was given for a block are held. -/
def HoldsBlockPages (L : Layout) (p : Pool) : Prop :=
  ∃ P, PoolOk L p P ∧ ∃ v ∈ p.held, ∀ κ, v ∉ P κ

theorem mem_held_of_kimaVpgalloc (hV : V.Contract L) (hn : L.pageSize ∣ n)
    (hrun : kimaVpgalloc V L k n = .ok (v, k')) (hv : v ≠ 0) : v ∈ k'.pool.held := by
  obtain ⟨h0, hvd, ⟨hz, -⟩ | ⟨-, hk', -⟩⟩ := kimaVpgalloc_cases hV hrun
  · exact absurd hz hv
  · rw [hk']
    refine List.mem_append_left _ ((Word.mem_multiples L.pageSize_pos hvd
      (Nat.dvd_add hvd hn)).mpr ⟨hvd, le_rfl, by omega⟩)

/-- **The first call that is not refused leaves pages in the pool.** -/
theorem first_step (hV : V.Contract L) (hinit : k.pool = kiInitKimaPool)
    (hstep : Returns V L k c k') :
    Refuses V L k c ∧ k'.pool = kiInitKimaPool ∨ HoldsBlockPages L k'.pool := by
  obtain ⟨r, hrun⟩ := hstep
  have hP : PoolOk L k.pool fun _ => [] := hinit ▸ (pagesOk_kiInitKimaPool L).toPoolOk
  cases c with
  | alloc size al =>
    obtain ⟨base, cur, -, -, hfound, -⟩ | ⟨-, hnew⟩ := kimaAlloc_cases hrun
    · rw [hinit] at hfound
      exact nomatch hfound
    by_cases hout : OutOfPages V L k size al
    · exact .inl ⟨hout, (allocNew_outOfPages hV hout hnew).1.trans hinit⟩
    · obtain ⟨v, k₁, P', hcall, -, hok, hevolves⟩ := allocNew_evolves hV hP hnew
      have hv : v ≠ 0 := by
        rintro rfl
        refine hout fun w e hw => ?_
        exact (ok_mk_inj (hw.symm.trans (kimaVpgalloc_env hcall))).1
      exact .inr ⟨P', hok, v, hevolves.blocks v (mem_held_of_kimaVpgalloc hV
        (dvd_ceilAlignTo L.pageSize_pos L.pageSize_dvd) hcall hv) fun _ => List.not_mem_nil⟩
  | free ptr =>
    obtain ⟨k₁, hfree, hrun⟩ := of_bind hrun
    obtain ⟨ublk, stop, k₂, hfind, -⟩ := kimaFree_cases hfree
    rw [hinit] at hfind
    exact nomatch hfind

theorem HoldsBlockPages.step (hV : V.Contract L) (h : HoldsBlockPages L k.pool)
    (hstep : Returns V L k c k') : HoldsBlockPages L k'.pool := by
  obtain ⟨P, hP, v, hv, hout⟩ := h
  obtain ⟨r, hrun⟩ := hstep
  obtain ⟨P', hP', hevolves⟩ := exec_evolves hV hP hrun
  exact ⟨P', hP', v, hevolves.blocks v hv hout⟩

/-- **A pool that was given pages for a block keeps some for good**, so a run that ends without
pages was refused them in every call. -/
theorem refused_of_run (hV : V.Contract L) {cs : List KimaCall} (hinit : k.pool = kiInitKimaPool)
    (h : Run (Returns V L) k cs k') :
    Run (fun k c k' => Returns V L k c k' ∧ Refuses V L k c) k cs k' ∨
      HoldsBlockPages L k'.pool := by
  induction h with
  | nil => exact .inl (.nil _)
  | cons hs hrest ih =>
    obtain ⟨hrefuse, hinit'⟩ | hholds := first_step hV hinit hs
    · exact (ih hinit').imp_left (.cons ⟨hs, hrefuse⟩)
    · exact .inr (hrest.invariant (I := fun k => HoldsBlockPages L k.pool)
        (fun _ _ _ hI hs => hI.step hV hs) hholds)

/-- **The count of pages over a run**: it is right as long as every call is balanced; a call that is
served and not balanced makes it wrong; and all pages are given back, with a count of zero, only if
no block was ever given pages. -/
theorem pageCount_of_run (hV : V.Contract L) {e : σ} {cs : List KimaCall}
    (h : Run (Returns V L) ⟨kiInitKimaPool, e⟩ cs k) :
    (Run (fun k c k' => Returns V L k c k' ∧ Balanced V L k c) ⟨kiInitKimaPool, e⟩ cs k →
      Accounted k.pool) ∧
    (∀ c k', 4 ≤ L.pageSize → k.pool.held.length < 2 ^ 64 → Accounted k.pool →
      Returns V L k c k' → Served V L k c → (Accounted k'.pool ↔ Balanced V L k c)) ∧
    (k.pool.held = [] ∧ k.pool.numAllocatedPages = 0 ↔
      Run (fun k c k' => Returns V L k c k' ∧ Refuses V L k c) ⟨kiInitKimaPool, e⟩ cs k) := by
  obtain ⟨hok, hnd⟩ : k.pool.Ok L ∧ k.pool.held.Nodup := by
    refine h.invariant (I := fun k => k.pool.Ok L ∧ k.pool.held.Nodup) ?_
      ⟨ok_kiInitKimaPool L, List.nodup_nil⟩
    rintro k c k' ⟨⟨P, hP⟩, hnd⟩ ⟨r, hrun⟩
    obtain ⟨P', hP', hevolves⟩ := exec_evolves hV hP hrun
    exact ⟨⟨P', hP'⟩, hevolves.nodup hnd⟩
  refine ⟨fun hbal => ?_, fun c k' hps hlen hk hstep hserved => ⟨fun hk' =>
    hserved.balanced hV hps hstep hok hnd hlen hk hk', fun hbal =>
    hbal.step hV hstep hok hnd hk⟩, fun hempty => ?_, fun hrefused => ?_⟩
  · refine (hbal.invariant (I := fun k : Kima σ =>
      (k.pool.Ok L ∧ k.pool.held.Nodup) ∧ Accounted k.pool) ?_
      ⟨⟨ok_kiInitKimaPool L, List.nodup_nil⟩, rfl⟩).2
    rintro k c k' ⟨⟨⟨P, hP⟩, hnd⟩, hk⟩ ⟨⟨r, hrun⟩, hbal⟩
    obtain ⟨P', hP', hevolves⟩ := exec_evolves hV hP hrun
    exact ⟨⟨⟨P', hP'⟩, hevolves.nodup hnd⟩, hbal.step hV ⟨r, hrun⟩ ⟨P, hP⟩ hnd hk⟩
  · obtain hrefused | ⟨P, -, v, hv, -⟩ := refused_of_run hV rfl h
    · exact hrefused
    · rw [hempty.1] at hv
      exact absurd hv List.not_mem_nil
  · suffices hinit : k.pool = kiInitKimaPool by
      rw [hinit]
      exact ⟨rfl, rfl⟩
    refine hrefused.invariant (I := fun k => k.pool = kiInitKimaPool) ?_ rfl
    rintro k c k' hinit ⟨⟨r, hrun⟩, hrefuse⟩
    cases c with
    | alloc size al =>
      obtain ⟨base, cur, -, -, hfound, -⟩ | ⟨-, hnew⟩ := kimaAlloc_cases hrun
      · rw [hinit] at hfound
        exact nomatch hfound
      · exact (allocNew_outOfPages hV hrefuse hnew).1.trans hinit
    | free ptr =>
      obtain ⟨k₁, hfree, -⟩ := of_bind hrun
      obtain ⟨ublk, stop, k₂, hfind, -⟩ := kimaFree_cases hfree
      rw [hinit] at hfind
      exact nomatch hfind

/-! ## Two runs -/

theorem keepsDescPages_iff (L : Layout) (k : Kima σ) (ptr : ℕ) : KeepsDescPages L k ptr ↔
    ∀ b ∈ (k.pool.slots .vpgdesc).queryTree.entries,
      Lasts L k ptr .vpgdesc (floorAlignTo b.2 L.pageSize) := by
  simp only [KeepsDescPages, OrdMap.find_eq_some_iff]
  exact ⟨fun h b hb => h b.1 b.2 hb, fun h q n hq => h (q, n) hq⟩

instance (L : Layout) (k : Kima σ) (ptr : ℕ) : Decidable (KeepsDescPages L k ptr) :=
  decidable_of_iff _ (keepsDescPages_iff L k ptr).symm

/-- A block of two pages, another one in its last page, and the first freed again: four pages are
held and counted. -/
theorem pageCount_twoPages : ∃ k, Run (Returns smallVm (pages4k 3))
    ⟨kiInitKimaPool, ⟨10, 0⟩⟩ [.alloc 8000 8, .alloc 64 8, .free 12288] k ∧
      k.pool.held.length = 4 ∧ Accounted k.pool := by
  obtain ⟨a, k₁, h₁, hroom, hnew, b, k₂, h₂, hkeeps, c, k₃, h₃, hlen⟩ : ∃ a k₁,
      exec wrapAdd smallVm (pages4k 3) ⟨kiInitKimaPool, ⟨10, 0⟩⟩ (.alloc 8000 8) = .ok (a, k₁) ∧
      HasRoom (pages4k 3) k₁.pool 64 8 ∧ newPoolpg .ublk k₁.pool = 0 ∧
      ∃ b k₂, exec wrapAdd smallVm (pages4k 3) k₁ (.alloc 64 8) = .ok (b, k₂) ∧
      KeepsDescPages (pages4k 3) k₂ 12288 ∧
      ∃ c k₃, exec wrapAdd smallVm (pages4k 3) k₂ (.free 12288) = .ok (c, k₃) ∧
      k₃.pool.held.length = 4 := by decide +kernel
  have hfirst : Balanced smallVm (pages4k 3) ⟨kiInitKimaPool, ⟨10, 0⟩⟩
      (.alloc 8000 8) := by
    refine .inr ⟨by decide +kernel, .inr ⟨⟨by decide, by decide, backing_meets (by decide +kernel),
      ?_⟩, by decide +kernel⟩⟩
    intro v e h
    rw [(backing_vpgalloc h).2]
    decide +kernel
  have hreturns : Run (Returns smallVm (pages4k 3)) ⟨kiInitKimaPool, ⟨10, 0⟩⟩
      [.alloc 8000 8, .alloc 64 8, .free 12288] k₃ :=
    .cons ⟨a, h₁⟩ (.cons ⟨b, h₂⟩ (.cons ⟨c, h₃⟩ (.nil _)))
  exact ⟨k₃, hreturns, hlen, (pageCount_of_run (backing_contract _) hreturns).1
    (.cons ⟨⟨a, h₁⟩, hfirst⟩ (.cons ⟨⟨b, h₂⟩, .inl ⟨hroom, .inl hnew⟩⟩
      (.cons ⟨⟨c, h₃⟩, hkeeps⟩ (.nil _))))⟩

/-- One small block: three pages are held and two counted; and when it is freed, its page stays. -/
theorem pageCount_oneBlock : (∃ k, Run (Returns smallVm (pages4k 3))
      ⟨kiInitKimaPool, ⟨10, 0⟩⟩ [.alloc 24 8] k ∧ k.pool.held.length = 3 ∧
      k.pool.numAllocatedPages = 2 ∧ ¬ Accounted k.pool) ∧
    ∃ k, Run (Returns smallVm (pages4k 3)) ⟨kiInitKimaPool, ⟨10, 0⟩⟩
      [.alloc 24 8, .free 12288] k ∧ k.pool.live.entries = [] ∧ k.pool.held = [12288] ∧
      k.pool.numAllocatedPages = 1 := by
  obtain ⟨a, k₁, h₁, hheld₁, hnum₁, b, k₂, h₂, hfreed⟩ : ∃ a k₁,
      exec wrapAdd smallVm (pages4k 3) ⟨kiInitKimaPool, ⟨10, 0⟩⟩ (.alloc 24 8) = .ok (a, k₁) ∧
      k₁.pool.held.length = 3 ∧ k₁.pool.numAllocatedPages = 2 ∧
      ∃ b k₂, exec wrapAdd smallVm (pages4k 3) k₁ (.free 12288) = .ok (b, k₂) ∧
      k₂.pool.live.entries = [] ∧ k₂.pool.held = [12288] ∧ k₂.pool.numAllocatedPages = 1 := by
    decide +kernel
  refine ⟨⟨k₁, .cons ⟨a, h₁⟩ (.nil _), hheld₁, hnum₁, ?_⟩,
    k₂, .cons ⟨a, h₁⟩ (.cons ⟨b, h₂⟩ (.nil _)), hfreed⟩
  rw [Accounted, hheld₁, hnum₁]
  decide

end Pbos.Mm
