import Pbos.Lib.Run
import Pbos.Mm.KimaAgree

/-!
# Mm/KimaRuns — runs of kima, and live blocks that never overlap

A step is a call that returns and in which no address wraps: the machine and the checked arithmetic
give the same answer.  Along such runs the live blocks stay apart (`Apart`), because the two nearest
blocks are the only ones a candidate can overlap, and because new pages are apart from every block.
-/

namespace Pbos.Mm

open Pbos.Kfxx List

variable {σ : Type} {V : Vm σ} {L : Layout} {k k' : Kima σ} {s a v size pg al r b : ℕ} {l : List ℕ}
  {p : Pool}

/-! ## Steps -/

/-- The arguments a caller may pass: a size from one up, and a power of two as alignment. -/
def KimaCall.Legal : KimaCall → Prop
  | .alloc size alignment => 1 ≤ size ∧ size < 2 ^ 64 ∧ ∃ a < 64, alignment = 2 ^ a
  | .free ptr => ptr < 2 ^ 64

instance : DecidablePred KimaCall.Legal
  | .alloc size alignment =>
    inferInstanceAs (Decidable (1 ≤ size ∧ size < 2 ^ 64 ∧ ∃ a < 64, alignment = 2 ^ a))
  | .free ptr => inferInstanceAs (Decidable (ptr < 2 ^ 64))

/-- No address wraps in a call: checking every sum makes no difference. -/
def NoWrap (V : Vm σ) (L : Layout) (k : Kima σ) (c : KimaCall) : Prop :=
  exec checkedAdd V L k c = exec wrapAdd V L k c

/-- A call that returns, with no address wrapping. -/
def KimaStep (V : Vm σ) (L : Layout) (k : Kima σ) (c : KimaCall) (k' : Kima σ) : Prop :=
  c.Legal ∧ NoWrap V L k c ∧ ∃ r, exec wrapAdd V L k c = .ok (r, k')

/-- Performing calls one after another; the answers are listed. -/
def execs (A : PtrAdd) (V : Vm σ) (L : Layout) : Kima σ → List KimaCall →
    Except Fault (List ℕ × Kima σ)
  | k, [] => .ok ([], k)
  | k, c :: cs => do
    let (r, k) ← exec A V L k c
    let (rs, k) ← execs A V L k cs
    return (r :: rs, k)

/-- **Calls that return are a run** of the step relation that holds of each of them. -/
theorem run_of_execs {A : PtrAdd} {S : Kima σ → KimaCall → Kima σ → Prop} {I : Kima σ → Prop}
    {cs : List KimaCall} {rs : List ℕ}
    (hstep : ∀ c ∈ cs, ∀ k r k', I k → exec A V L k c = .ok (r, k') → S k c k' ∧ I k') (h : I k)
    (hrun : execs A V L k cs = .ok (rs, k')) : Run S k cs k' := by
  induction cs generalizing k rs with
  | nil =>
    cases hrun
    exact Run.nil _
  | cons c cs ih =>
    obtain ⟨⟨r, k₁⟩, hexec, ⟨rs', k₂⟩, hrest, hrun⟩ := by
      simpa only [execs, bind_eq_ok_iff] using hrun
    cases hrun
    obtain ⟨hs, hI⟩ := hstep c mem_cons_self k r k₁ h hexec
    exact Run.cons hs (ih (fun c hc => hstep c (mem_cons_of_mem _ hc)) hI hrest)

/-! ## The live blocks stay apart -/

/-- A power of two divides what it divided before rounding up to another power of two. -/
theorem dvd_roundUp_of_dvd (h : 2 ^ s ∣ v) : 2 ^ s ∣ roundUp v (2 ^ a) := by
  rcases le_total a s with has | hsa
  · rw [roundUp_of_dvd ((Nat.pow_dvd_pow 2 has).trans h)]
    exact h
  · exact (Nat.pow_dvd_pow 2 hsa).trans (dvd_roundUp (Nat.two_pow_pos a) v)

/-- **New pages hold the block**: when every page of the block has an address, the range asked for
did not wrap. -/
theorem fits_of_pages (ha : a < 64) (hsize : 1 ≤ size) (hlt : size < 2 ^ 64)
    (hv : L.pageSize ∣ v) (hpg : pg = roundUp v (2 ^ a)) (h0 : pg ≠ 0)
    (hn : ceilAlignTo (Word.add size (2 ^ a)) L.pageSize ≠ 0)
    (hpages : ∀ j, L.pageSize ∣ j → j < size → pg + j < 2 ^ 64) :
    v ≤ pg ∧ pg + size ≤ v + ceilAlignTo (Word.add size (2 ^ a)) L.pageSize := by
  have hpos := Nat.two_pow_pos a
  have halpg : 2 ^ a ∣ pg := hpg ▸ dvd_roundUp hpos v
  have hpspg : L.pageSize ∣ pg := hpg ▸ dvd_roundUp_of_dvd hv
  have hale := Nat.le_of_dvd (Nat.pos_of_ne_zero h0) halpg
  have hpsle := Nat.le_of_dvd (Nat.pos_of_ne_zero h0) hpspg
  have h64a : 2 ^ a < 2 ^ 64 := Nat.pow_lt_pow_right (by norm_num) ha
  have hsum : size + 2 ^ a < 2 ^ 64 := by
    by_contra hge
    rcases le_total L.shift a with hle | hle
    · have hdvd : L.pageSize ∣ 2 ^ 64 - 2 ^ a := Nat.dvd_sub L.pageSize_dvd (Nat.pow_dvd_pow 2 hle)
      have hne : size ≠ 2 ^ 64 - 2 ^ a := by
        rintro rfl
        refine hn ?_
        have hz : Word.add (2 ^ 64 - 2 ^ a) (2 ^ a) = 0 := by
          rw [Word.add, Nat.sub_add_cancel h64a.le, Nat.mod_self]
        rw [hz, ceilAlignTo, Nat.zero_mod, Nat.sub_zero, Nat.mod_self]
        rfl
      have := hpages _ hdvd (by omega)
      omega
    · have hdvd : L.pageSize ∣ 2 ^ 64 - L.pageSize := Nat.dvd_sub L.pageSize_dvd dvd_rfl
      have hple : 2 ^ a ≤ L.pageSize := Nat.pow_le_pow_right (by norm_num) hle
      by_cases heq : size = 2 ^ 64 - L.pageSize
      · refine hn ?_
        have hz : Word.add size (2 ^ a) = 0 := by
          have : size + 2 ^ a = 2 ^ 64 := by omega
          rw [Word.add, this, Nat.mod_self]
        rw [hz, ceilAlignTo, Nat.zero_mod, Nat.sub_zero, Nat.mod_self]
        rfl
      · have := hpages _ hdvd (by omega)
        omega
  have hle := le_ceilAlignTo L.pageSize_pos L.pageSize_dvd (Word.add_lt _ _) hn
  rw [Word.add_of_lt hsum] at hle ⊢
  have hround := roundUp_lt hpos v
  exact ⟨hpg ▸ le_roundUp v _, by omega⟩

/-- **A block found by the search is apart from the others.** -/
theorem search_clear (h : k.pool.Ok L) (hap : Blocks.Apart k.pool.live) {base cur : ℕ}
    (hsize : 1 ≤ size) (hal : 0 < al)
    (hrun : search checkedAdd L k.pool size al = .ok (some (base, cur))) :
    al ∣ cur ∧ ∀ b n, k.pool.live.find b = some n → ¬ Blocks.Overlap cur size b n := by
  obtain ⟨-, -, limit, -, hfit⟩ := searchLoop_cases (fun _ => OrdMap.find_of_first _) hrun
  obtain ⟨c, -, -, rfl, ⟨stop, hstop⟩, hfirst, hlast⟩ := fitLoop_cases (I := fun _ => True) h hal
    (fun b n _ => exactAt_checkedAdd b n)
    (fun c _ _ => ⟨fun _ => exactAt_checkedAdd _ _, exactAt_checkedAdd _ _⟩)
    (fun _ _ _ _ _ _ _ => trivial)
    trivial hfit
  have hlt := lt_of_checkedAdd hstop
  rw [Word.sub_of_le (by omega) hlt] at hlast
  exact ⟨dvd_roundUp hal c, fun b n hb => hap.clear_of_nearest hsize hfirst hlast hb⟩

/-- The scope guard leaves the blocks alone. -/
theorem releaseVpgdescs_ok (h : k.pool.Ok L) {i : ℕ}
    (hrun : releaseVpgdescs checkedAdd V L pg i k = .ok k') :
    k'.pool.Ok L ∧ k'.pool.live = k.pool.live := by
  obtain ⟨k₁, hdrop, hrun⟩ := of_bind hrun
  cases hrun
  obtain ⟨hok, hlive, -⟩ := dropPages_cases (fun j _ => exactAt_checkedAdd pg j) h hdrop
  exact ⟨hok.setNum _, hlive⟩

/-- **A block in new pages is apart from the others.** -/
theorem allocNew_apart (hV : V.Contract L) (h : k.pool.Ok L) (hap : Blocks.Apart k.pool.live)
    (ha : a < 64) (hsize : 1 ≤ size) (hlt : size < 2 ^ 64)
    (hrun : allocNew checkedAdd V L k size (2 ^ a) = .ok (r, k')) :
    k'.pool.Ok L ∧ Blocks.Apart k'.pool.live ∧ 2 ^ a ∣ r ∧
      (r ≠ 0 → k'.pool.live.find r = some size) := by
  obtain ⟨v, k₁, pg, hcall, halign, hrest⟩ := allocNew_cases hrun
  have hpg := alignUp_eq (Nat.two_pow_pos a) (fun _ => exactAt_checkedAdd _ _) halign
  obtain ⟨hok₁, hv₁⟩ := h.kimaVpgalloc hV hcall
  have hlive₁ := (live_pages_of_view_eq hv₁).1
  have hnull : ∀ q : Kima σ, q.pool.Ok L → q.pool.live = k.pool.live →
      q.pool.Ok L ∧ Blocks.Apart q.pool.live ∧ 2 ^ a ∣ 0 ∧
      (0 ≠ 0 → q.pool.live.find 0 = some size) :=
    fun q hq hl => ⟨hq, hl ▸ hap, dvd_zero _, absurd rfl⟩
  rcases hrest with ⟨-, rfl, rfl⟩ | ⟨hne, i, complete, k₂, hpages, hrest⟩
  · exact hnull k' hok₁ hlive₁
  · obtain ⟨hok₂, hlive₂⟩ := newPages_ok hV hok₁ hpages
    rcases hrest with ⟨-, rfl, hrel⟩ | ⟨rfl, n, -, ublk, k₃, hublk, hrest⟩
    · obtain ⟨hok, hlive⟩ := releaseVpgdescs_ok hok₂ hrel
      exact hnull k' hok (hlive.trans (hlive₂.trans hlive₁))
    · obtain ⟨hok₃, -, hcase⟩ := kimaAllocUblk_cases hV (hok₂.setNum n) hublk
      have hsame : (k₂.setNum n).pool.live = k.pool.live := hlive₂.trans hlive₁
      rcases hrest with ⟨rfl, rfl, hrel⟩ | ⟨hsome, rfl, rfl⟩
      · rcases hcase with ⟨-, hlive₃⟩ | ⟨⟨m, hm⟩, -⟩
        · obtain ⟨hok, hlive⟩ := releaseVpgdescs_ok hok₃ hrel
          exact hnull k' hok (hlive.trans (hlive₃.trans hsame))
        · cases hm
      · rcases hcase with ⟨hnone, -⟩ | ⟨-, hnone, hlive₃⟩
        · exact absurd hnone hsome
        · obtain ⟨hn, hal, ⟨rfl, -⟩ | ⟨hv0, -, -, hclear, -⟩⟩ := kimaVpgalloc_cases hV hcall
          · exact absurd (hpg.trans (roundUp_of_dvd (dvd_zero _))) hne
          · obtain ⟨hlo, hhi⟩ := fits_of_pages ha hsize hlt hal hpg hne hn fun j hj hjs =>
              newPages_checked hlt.le (dvd_zero _) hpages hj (Nat.zero_le _) hjs
            rw [hlive₃, hsame]
            refine ⟨hok₃, hap.insert hsize fun b m hb ho => hclear b m hb ⟨?_, ?_⟩,
              hpg ▸ dvd_roundUp (Nat.two_pow_pos a) v, fun _ => by simp⟩
            · exact hlo.trans_lt ho.1
            · exact ho.2.trans_le hhi

/-- **One call of `kima_alloc` keeps the live blocks apart**, and returns an aligned block. -/
theorem kimaAlloc_apart (hV : V.Contract L) (h : k.pool.Ok L) (hap : Blocks.Apart k.pool.live)
    (hlegal : (KimaCall.alloc size al).Legal)
    (hrun : kimaAlloc checkedAdd V L k size al = .ok (r, k')) :
    k'.pool.Ok L ∧ Blocks.Apart k'.pool.live ∧ al ∣ r ∧
      (r ≠ 0 → k'.pool.live.find r = some size) := by
  obtain ⟨hsize, hlt, a, ha, rfl⟩ := hlegal
  rcases kimaAlloc_cases hrun with ⟨base, cur, ublk, k₁, hsearch, hublk, hrest⟩ | ⟨-, hnew⟩
  · obtain ⟨hal, hclear⟩ := search_clear h hap hsize (Nat.two_pow_pos a) hsearch
    obtain ⟨hok₁, -, hcase⟩ := kimaAllocUblk_cases hV h hublk
    rcases hrest with ⟨rfl, rfl, rfl⟩ | ⟨hsome, rfl, href⟩
    · rcases hcase with ⟨-, hlive⟩ | ⟨⟨m, hm⟩, -⟩
      · exact ⟨hok₁, hlive ▸ hap, dvd_zero _, absurd rfl⟩
      · cases hm
    · rcases hcase with ⟨hnone, -⟩ | ⟨-, -, hlive⟩
      · exact absurd hnone hsome
      · obtain ⟨hok, hlive', -⟩ := refPages_cases (fun j _ => exactAt_checkedAdd base j)
          (Word.nodup_multiples L.pageSize_pos) hok₁ href
        rw [hlive', hlive]
        exact ⟨hok, hap.insert hsize hclear, hal, fun _ => by simp⟩
  · exact allocNew_apart hV h hap ha hsize hlt hnew

/-- **One call of `kima_free` keeps the live blocks apart.** -/
theorem kimaFree_apart {A : PtrAdd} (h : k.pool.Ok L) (hap : Blocks.Apart k.pool.live) {ptr : ℕ}
    (hrun : kimaFree A V L k ptr = .ok k') : k'.pool.Ok L ∧ Blocks.Apart k'.pool.live := by
  obtain ⟨ublk, stop, k₁, hfind, -, hunref, hfree⟩ := kimaFree_cases hrun
  obtain ⟨hok₁, hsame⟩ := unrefPages_ok h hunref
  have hfind₁ : kimaLookupUblk k₁.pool ptr = some ublk := by
    rw [kimaLookupUblk, hsame]
    exact hfind
  rcases kimaFreeUblk_spec hok₁ hfind₁ with ⟨k₂, hfree', hok, -, hlive⟩ | ⟨err, -, hfree'⟩
  · obtain rfl : k₂ = k' := by simpa using hfree'.symm.trans hfree
    rw [hlive, live_of_slots_eq hsame]
    exact ⟨hok, hap.erase ptr⟩
  · cases hfree'.symm.trans hfree

/-! ## Runs -/

/-- **One step keeps the live blocks apart.** -/
theorem KimaStep.apart (hV : V.Contract L) {c : KimaCall} (hstep : KimaStep V L k c k')
    (h : k.pool.Ok L ∧ Blocks.Apart k.pool.live) : k'.pool.Ok L ∧ Blocks.Apart k'.pool.live := by
  obtain ⟨hlegal, hwrap, r, hrun⟩ := hstep
  rw [← hwrap] at hrun
  cases c with
  | alloc size al =>
    obtain ⟨hok, hap, -⟩ := kimaAlloc_apart hV h.1 h.2 hlegal hrun
    exact ⟨hok, hap⟩
  | free ptr =>
    obtain ⟨k₁, hfree, hrun⟩ := of_bind hrun
    cases hrun
    exact kimaFree_apart h.1 h.2 hfree

theorem apart_kiInitKimaPool : Blocks.Apart kiInitKimaPool.live := Blocks.apart_empty

/-- **Live blocks never overlap, and every returned pointer is aligned**, in every run from an empty
pool with no address wrapping. -/
theorem disjoint_of_run (hV : V.Contract L) {e : σ} {cs : List KimaCall}
    (h : Run (KimaStep V L) ⟨kiInitKimaPool, e⟩ cs k') :
    (∀ a n b m, k'.pool.live.find a = some n → k'.pool.live.find b = some m → a ≠ b →
      Disjoint (Set.Ico a (a + n)) (Set.Ico b (b + m))) ∧
    ∀ size al r k'', (KimaCall.alloc size al).Legal → NoWrap V L k' (.alloc size al) →
      kimaAlloc wrapAdd V L k' size al = .ok (r, k'') →
      al ∣ r ∧ (r ≠ 0 → k''.pool.live.find r = some size) := by
  obtain ⟨hok, hap⟩ := h.invariant
    (fun _ _ _ hI hs => hs.apart hV hI) ⟨ok_kiInitKimaPool L, apart_kiInitKimaPool⟩
  refine ⟨fun a n b m ha hb hab => Blocks.disjoint_Ico_of_not_overlap (hap.apart a n b m ha hb hab),
    fun size al r k'' hlegal hwrap hrun => ?_⟩
  have hrun' : exec checkedAdd V L k' (.alloc size al) = .ok (r, k'') := hwrap.trans hrun
  exact (kimaAlloc_apart hV hok hap hlegal hrun').2.2

/-! ## A concrete pool

Over a memory manager that always hands out the pages after everything in use. -/

/-- Pages of 4096 bytes with a header of 24 bytes and `n + 1` descriptors of 48 bytes; on x86_64
`ki_init_kima_pool` makes it 84 descriptors. -/
def pages4k (n : ℕ) (hn : n < 84 := by decide) : Layout where
  shift := 12
  shift_lt := by decide
  slots := fun _ =>
    { slotsOff := 24, slotsSize := n + 1, slotBytes := 48
      bytes_pos := by decide, size_pos := n.succ_pos, fits := by omega }

/-- The first page after everything a pool uses. -/
def firstUnused (L : Layout) (p : Pool) : ℕ :=
  (p.held.map (fun q => roundUp (q + L.pageSize) L.pageSize) ++
    p.live.entries.map fun b => roundUp (b.1 + b.2) L.pageSize).foldr max (3 * L.pageSize)

/-- A memory manager that hands out the pages after everything in use. -/
def growingVm (L : Layout) : Vm Unit where
  vpgalloc := fun p _ n =>
    if firstUnused L p + n < 2 ^ 64 then .ok (firstUnused L p, ()) else .ok (0, ())
  vpgfree := fun _ _ _ _ => .ok ()

theorem dvd_foldr_max (hb : s ∣ b) (hl : ∀ x ∈ l, s ∣ x) :
    s ∣ l.foldr max b := by
  induction l with
  | nil => exact hb
  | cons x l ih =>
    rw [foldr_cons]
    rcases max_choice x (l.foldr max b) with h | h
    · rw [h]
      exact hl x mem_cons_self
    · rw [h]
      exact ih fun y hy => hl y (mem_cons_of_mem _ hy)

theorem le_foldr_max {x : ℕ} (hx : x ∈ l) : x ≤ l.foldr max b := by
  induction l with
  | nil => cases hx
  | cons y l ih =>
    rcases mem_cons.mp hx with rfl | hx
    · exact le_max_left _ _
    · exact (ih hx).trans (le_max_right _ _)

theorem dvd_firstUnused (L : Layout) (p : Pool) : L.pageSize ∣ firstUnused L p := by
  refine dvd_foldr_max (dvd_mul_left _ _) fun x hx => ?_
  rcases mem_append.mp hx with hx | hx
  · obtain ⟨q, -, rfl⟩ := mem_map.mp hx
    exact dvd_roundUp L.pageSize_pos _
  · obtain ⟨b, -, rfl⟩ := mem_map.mp hx
    exact dvd_roundUp L.pageSize_pos _

theorem block_le_firstUnused {m : ℕ} (hb : p.live.find b = some m) :
    b + m ≤ firstUnused L p :=
  (le_roundUp (b + m) L.pageSize).trans (le_foldr_max (mem_append_right _
    (mem_map.mpr ⟨(b, m), p.live.find_eq_some_iff.mp hb, rfl⟩)))

theorem page_le_firstUnused {q : ℕ} (hq : q ∈ p.held) :
    q + L.pageSize ≤ firstUnused L p :=
  (le_roundUp (q + L.pageSize) L.pageSize).trans (le_foldr_max (mem_append_left _
    (mem_map.mpr ⟨q, hq, rfl⟩)))

/-- What it hands out. -/
theorem growingVm_vpgalloc {e e' : Unit} {n : ℕ}
    (h : (growingVm L).vpgalloc p e n = .ok (v, e')) (h0 : v ≠ 0) :
    v = firstUnused L p ∧ v + n < 2 ^ 64 := by
  simp only [growingVm] at h
  split at h
  · cases h
    exact ⟨rfl, by assumption⟩
  · cases h
    exact absurd rfl h0

theorem growingVm_contract (L : Layout) : (growingVm L).Contract L where
  aligned p e n v e' h := by
    by_cases h0 : v = 0
    · exact h0 ▸ dvd_zero _
    · rw [(growingVm_vpgalloc h h0).1]
      exact dvd_firstUnused L p
  block p e n v e' h h0 b m hb ho := by
    have hle := block_le_firstUnused (L := L) hb
    have hlt := ho.1
    rw [(growingVm_vpgalloc h h0).1] at hlt
    omega
  page p e n v e' h h0 q hq ho := by
    have hle := page_le_firstUnused (L := L) hq
    have hlt := ho.1
    rw [(growingVm_vpgalloc h h0).1] at hlt
    omega

/-- Three allocations and a release. -/
def fourCalls : List KimaCall := [.alloc 24 8, .alloc 128 64, .free 12288, .alloc 16 16]

/-- The two blocks live after those calls share no byte. -/
theorem disjoint_fourCalls : ∃ rs k, execs checkedAdd (growingVm (pages4k 3)) (pages4k 3)
    ⟨kiInitKimaPool, ()⟩
    fourCalls = .ok (rs, k) ∧ k.pool.live.find 12288 = some 16 ∧ k.pool.live.find 12352 = some 128 ∧
    Disjoint (Set.Ico 12288 (12288 + 16)) (Set.Ico 12352 (12352 + 128)) := by
  obtain ⟨rs, k, hrun, h₁, h₂⟩ : ∃ rs k, execs checkedAdd (growingVm (pages4k 3)) (pages4k 3)
      ⟨kiInitKimaPool, ()⟩ fourCalls = .ok (rs, k) ∧ k.pool.live.find 12288 = some 16 ∧
      k.pool.live.find 12352 = some 128 := by decide +kernel
  have hlegal : ∀ c ∈ fourCalls, c.Legal := by decide
  refine ⟨rs, k, hrun, h₁, h₂, (disjoint_of_run (growingVm_contract (pages4k 3)) (run_of_execs
    (I := fun _ => True) (fun c hc k r k' _ hexec => ?_) trivial hrun)).1 _ _ _ _ h₁ h₂ (by decide)⟩
  have hmachine := (agrees_exec k c).of_ok _ hexec
  exact ⟨⟨hlegal c hc, hexec.trans hmachine.symm, r, hmachine⟩, trivial⟩

end Pbos.Mm
