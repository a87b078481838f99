import Pbos.Mm.KimaPoolpg
import Pbos.Mm.KimaRealloc

/-!
# Mm/KimaMove — when `kima_realloc` moves a block right

`kima_realloc` is meant to give an aligned block of the new size, apart from the other blocks and in
pages of the pool, with the bytes of the old one, and to leave every other block alone
(`Reallocated`).  Whether it does depends on the place its search settles on (`GoodPlace`): no other
block may hide behind the old one, the whole old length must fit there, and the bytes must not be
moved down by less than their length.  Without a place the bytes are lost (`reallocated_iff`).
-/

namespace Pbos.Mm

open Pbos.Kfxx Pbos.Freestdc SlotPool

variable {σ : Type} {V : Vm σ} {L : Layout} {k k' : Kima σ} {p p' : Pool}
  {cur base old n ublk al : ℕ} {size : ℕ} {M M' : Mem}

/-! ## The specification -/

/-- What `kima_realloc` is meant to do with the block of `n` bytes at `old`, when it returns `r`. -/
structure Reallocated (L : Layout) (p : Pool) (M : Mem) (old n size al r : ℕ) (p' : Pool)
    (M' : Mem) : Prop where
  aligned : al ∣ r
  live : p'.live.find r = some size
  apart : ∀ b m, b ≠ old → p.live.find b = some m → ¬ Blocks.Overlap r size b m
  owned : ∀ x, r ≤ x → x < r + size → ∃ c, p'.pages.find (floorAlignTo x L.pageSize) = some c
  contents : ∀ i < min n size, M' (r + i) = M (old + i)
  others : ∀ b m, b ≠ old → p.live.find b = some m → ∀ i < m, M' (b + i) = M (b + i)
  gone : r ≠ old → p'.live.find old = none

/-- A described page that keeps its descriptor when the block at `old` moves to the area at
`base`. -/
def StaysDescribed (L : Layout) (p : Pool) (old n size base q : ℕ) : Prop :=
  ∃ c, p.pages.find q = some c ∧ (base ≤ q ∧ q < base + ceilAlignTo size L.pageSize ∨
    ¬ Blocks.Overlap q L.pageSize old n ∨ 2 ≤ c)

/-- **A place to which the block can be moved**: no other block starts between it and the old block
it reaches; its pages stay; no other block lies in what the old length takes beyond the new; and
`memmove` gets the bytes right. -/
structure GoodPlace (L : Layout) (p : Pool) (old n size base cur : ℕ) : Prop where
  between : old < cur + size → ∀ b m, p.live.find b = some m → ¬ (cur < b ∧ b < old)
  pages : ∀ x, cur ≤ x → x < cur + size →
    StaysDescribed L p old n size base (floorAlignTo x L.pageSize)
  rest : size < n → ∀ b m, b ≠ old → p.live.find b = some m →
    ¬ Blocks.Overlap (cur + size) (n - size) b m
  moves : MovesRight cur old n (min n size)

/-! ## Pages -/

/-- Bytes in described pages are inside the address space. -/
theorem Sound.fits (h : Sound L p) (hsize : 0 < size)
    (hpages : ∀ x, cur ≤ x → x < cur + size →
      ∃ c, p.pages.find (floorAlignTo x L.pageSize) = some c) :
    cur + size < 2 ^ 64 ∧ size + L.pageSize ≤ 2 ^ 64 := by
  obtain ⟨c, hc⟩ := hpages cur le_rfl (by omega)
  obtain ⟨c', hc'⟩ := hpages (cur + size - 1) (by omega) (by omega)
  obtain ⟨hd, hpos, -⟩ := h.page _ _ hc
  have hle := Nat.le_of_dvd hpos hd
  have hfloor := (floorAlignTo_spec L.pageSize_pos cur).2.1
  have hend := (h.page _ _ hc').2.2
  have hlast := (floorAlignTo_spec L.pageSize_pos (cur + size - 1)).2.2
  omega

/-- **Which pages keep their descriptors.** -/
theorem Sound.stays_iff (h : Sound L k.pool) {c₀ q : ℕ} {k₁ k₂ : Kima σ}
    (hold : k.pool.live.find old = some n) (hsize : size + L.pageSize ≤ 2 ^ 64) (hpos : 0 < size)
    (hbase : k.pool.pages.find base = some c₀)
    (hgap : findGap wrapAdd k.pool base
      (Word.multiples 0 (ceilAlignTo size L.pageSize) L.pageSize) = .ok none)
    (href : refPages wrapAdd base
      (Word.multiples 0 (ceilAlignTo size L.pageSize) L.pageSize) k = .ok k₁)
    (hunref : unrefPages V L (Word.multiples (floorAlignTo old L.pageSize)
      (ceilAlignTo (old + n) L.pageSize) L.pageSize) k₁ = .ok k₂) (hq : L.pageSize ∣ q) :
    (∃ c, k₂.pool.pages.find q = some c) ↔ StaysDescribed L k.pool old n size base q := by
  obtain ⟨had, hale, -⟩ := ceilAlignTo_spec L.pageSize_pos hsize
  obtain ⟨hbd, -, -⟩ := h.page base c₀ hbase
  obtain ⟨hend, -⟩ := h.area hbase had (by omega) hgap
  obtain ⟨hok₁, hlive₁, hpages₁⟩ := refPages_cases (exactAt_offsets had hend)
    (Word.nodup_multiples L.pageSize_pos) h.ok href
  have hkeys : ∀ b m, k.pool.live.find b = some m → 0 < b ∧ b < 2 ^ 64 - 1 := fun b m hb => by
    have := h.bounds hb
    have := h.pos b m hb
    exact ⟨by omega, by omega⟩
  have hcount : ∀ q c, k.pool.pages.find q = some c → c + 1 < 2 ^ 64 := fun q c hc => by
    have := Blocks.meets_lt hkeys (by norm_num) q L.pageSize
    rw [← h.counted q c hc] at this
    omega
  have hfind₁ : ∀ q, k₁.pool.pages.find q = (k.pool.pages.find q).map fun c =>
      if L.pageSize ∣ q ∧ base ≤ q ∧ q < base + ceilAlignTo size L.pageSize then c + 1 else c := by
    intro q
    simp only [hpages₁, mem_offsets hbd had]
    cases hf : k.pool.pages.find q with
    | none => simp
    | some c =>
      split_ifs with hin
      · rw [Option.map_some, Option.map_some, Word.add_of_lt (hcount q c hf)]
      · rfl
  have hcounts : ∀ q ∈ Word.multiples (floorAlignTo old L.pageSize)
      (ceilAlignTo (old + n) L.pageSize) L.pageSize,
      ∃ r, k₁.pool.pages.find q = some r ∧ 0 < r ∧ r < 2 ^ 64 := fun q hq => by
    obtain ⟨hqd, ho⟩ := (h.mem_freed hold).mp hq
    obtain ⟨c, hc⟩ := h.described hold hqd ho
    have hcpos : 0 < c := h.counted q c hc ▸ Blocks.meets_pos hold ho
    have := hcount q c hc
    rw [hfind₁, hc, Option.map_some]
    refine ⟨_, rfl, ?_⟩
    split_ifs <;> omega
  obtain ⟨k₃, hunref', -, -, hpages₂⟩ | ⟨err, -, herr⟩ := unrefPages_spec
    (Word.nodup_multiples L.pageSize_pos) hok₁ hcounts
  swap
  · exact nomatch hunref.symm.trans herr
  obtain rfl : k₂ = k₃ := Except.ok.inj (hunref.symm.trans hunref')
  rw [hpages₂, hfind₁]
  simp only [h.mem_freed hold, StaysDescribed]
  cases hf : k.pool.pages.find q with
  | none => simp
  | some c =>
    have hcpos : Blocks.Overlap q L.pageSize old n → 0 < c := fun ho =>
      h.counted q c hf ▸ Blocks.meets_pos hold ho
    by_cases ho : Blocks.Overlap q L.pageSize old n
    · have := hcpos ho
      by_cases hin : base ≤ q ∧ q < base + ceilAlignTo size L.pageSize
      · simp [ho, hq, hin, dropRef]
        omega
      · simp [ho, hq, hin, dropRef]
        omega
    · simp [ho]

/-! ## The place -/

/-- A test that passes: the nearest block is the one that moves, or does not overlap. -/
theorem Sound.blockedByOther_none (h : Sound L p) {ptr : ℕ}
    (hublk : kimaLookupUblk p old = some ublk) (hcur : cur + size < 2 ^ 64)
    (htest : blockedByOther wrapAdd p ublk cur size ptr = .ok none) :
    ∀ e, p.live.findMaxLteq ptr = some e → e.1 ≠ old → ¬ Blocks.Overlap cur size e.1 e.2 := by
  intro e he hne
  have hnear := h.ok.nearest ptr
  unfold blockedByOther at htest
  split at htest
  · rename_i hsame
    obtain ⟨P, hP⟩ := h.ok
    rw [hsame] at hnear
    obtain ⟨hfind, -⟩ := hnear
    rw [((hP.slots .ublk).query old ublk hublk).1, he] at hfind
    exact absurd (congrArg Prod.fst (Option.some.inj hfind)) hne
  · obtain ⟨-, hclear⟩ | ⟨b, n, -, hsome, -⟩ := blockedBy_cases h.ok
      (fun b n hb => exactAt_wrapAdd (h.bounds hb).2) (exactAt_wrapAdd hcur) htest
    · exact hclear e he
    · cases hsome

/-- **What the search makes sure of**: the place is aligned, and apart from every other block if
none starts between it and the old block it reaches. -/
theorem Sound.research_apart (h : Sound L p) (hap : Blocks.Apart p.live) {a : ℕ} (ha : a < 64)
    (hsize : 0 < size) (hublk : kimaLookupUblk p old = some ublk)
    (hsearch : research wrapAdd L p ublk size (2 ^ a) = .ok (some (base, cur))) :
    2 ^ a ∣ cur ∧ (cur + size < 2 ^ 64 →
      (old < cur + size → ∀ b m, p.live.find b = some m → ¬ (cur < b ∧ b < old)) →
      ∀ b m, b ≠ old → p.live.find b = some m → ¬ Blocks.Overlap cur size b m) := by
  obtain ⟨-, -, limit, -, hfit⟩ := searchLoop_cases (fun _ => OrdMap.find_of_first _) hsearch
  obtain ⟨c, stop, halign, hfirst, hstop, hlast⟩ := fitLoop_passed hfit
  refine ⟨dvd_of_alignUp ha halign, fun hcur hbetween b m hb hm => ?_⟩
  obtain rfl : stop = cur + size := (Except.ok.inj hstop).symm.trans (Word.add_of_lt hcur)
  rw [Word.sub_of_le (by omega) hcur] at hlast
  exact hap.clear_of_nearest_but hsize (h.blockedByOther_none hublk hcur hfirst)
    (h.blockedByOther_none hublk hcur hlast) hbetween hm hb

/-- The old block and the bytes it is moved to are apart from every other block. -/
theorem GoodPlace.apart (h : GoodPlace L p old n size base cur)
    (hclear : ∀ b m, b ≠ old → p.live.find b = some m → ¬ Blocks.Overlap cur size b m) {b m i : ℕ}
    (hb : b ≠ old) (hm : p.live.find b = some m) (hi : i < m) :
    ¬ (cur ≤ b + i ∧ b + i < cur + n) := by
  rintro ⟨hlo, hhi⟩
  by_cases hin : b + i < cur + size
  · exact hclear b m hb hm ⟨by omega, by omega⟩
  · exact h.rest (by omega) b m hb hm ⟨by omega, by omega⟩

/-! ## Moving to a place -/

/-- The block at `old` is at `cur` now, with the pages counted up and down. -/
structure Relocated (L : Layout) (p : Pool) (old n size base cur : ℕ) (p' : Pool) : Prop where
  live : ∀ b, p'.live.find b =
    if b = cur then some size else if b = old then none else p.live.find b
  sub : ∀ q c, p'.pages.find q = some c → ∃ c, p.pages.find q = some c
  stays : size + L.pageSize ≤ 2 ^ 64 →
    ∀ x, (∃ c, p'.pages.find (floorAlignTo x L.pageSize) = some c) ↔
    StaysDescribed L p old n size base (floorAlignTo x L.pageSize)

theorem Sound.relocated (h : Sound L k.pool) {r : ℕ}
    (hold : k.pool.live.find old = some n) (hsize : 1 ≤ size)
    (hublk : kimaLookupUblk k.pool old = some ublk)
    (hsearch : research wrapAdd L k.pool ublk size al = .ok (some (base, cur)))
    (hrun : reallocFound wrapAdd V L k M ublk old size base cur = .ok (r, k', M')) :
    r = cur ∧ memmove M cur old n = .ok M' ∧ Relocated L k.pool old n size base cur k'.pool := by
  obtain ⟨rfl, hmove, hlive, stop, k₁, k₂, sp, hstop, href, hunref, hpages⟩ :=
    reallocFound_cases h.ok hublk hold hrun
  obtain rfl : stop = old + n := (Except.ok.inj hstop).symm.trans (Word.add_of_lt (h.bounds hold).2)
  obtain ⟨⟨d, hd⟩, hgap, -⟩ := searchLoop_cases (fun _ => OrdMap.find_of_first _) hsearch
  refine ⟨rfl, hmove, hlive, fun q c hc => ?_, fun hfits x => ?_⟩
  · have hq := hpages ▸ hc
    obtain ⟨P, hP⟩ := h.ok
    have hcount : Recounts L k k₁ := refPages_recounts href
    obtain ⟨P', -, hlook⟩ := unrefPages_shrinks
      (Word.nodup_multiples L.pageSize_pos) (hcount.ok hP) hunref
    rw [pages_find, hlook] at hq
    split at hq
    · cases hq
    · obtain ⟨n, hn, -⟩ := Option.map_eq_some_iff.mp hq
      rw [kimaLookupVpgdesc, SlotPool.lookup, hcount.query] at hn
      exact ⟨_, find_view_isSome hn⟩
  · rw [hpages]
    exact h.stays_iff hold hfits hsize (find_view_isSome hd) hgap href hunref
      (floorAlignTo_spec L.pageSize_pos x).1

/-- **A good place is enough.** -/
theorem Relocated.reallocated (hmoved : Relocated L p old n size base cur p')
    (hn : 0 < n) (hsize : 1 ≤ size) (hgood : GoodPlace L p old n size base cur)
    (hfits : size + L.pageSize ≤ 2 ^ 64) (haligned : al ∣ cur)
    (hapart : ∀ b m, b ≠ old → p.live.find b = some m → ¬ Blocks.Overlap cur size b m)
    (hM : memmove M cur old n = .ok M') : Reallocated L p M old n size al cur p' M' where
  aligned := haligned
  live := by rw [hmoved.live, if_pos rfl]
  apart := hapart
  owned x hlo hhi := (hmoved.stays hfits x).mpr (hgood.pages x hlo hhi)
  contents := (memmove_apply_iff (by omega) (Nat.min_le_left _ _) hM).mpr hgood.moves M M' hM
  others b m hb hm i hi := memmove_of_not_mem hM (hgood.apart hapart hb hm hi)
  gone hne := by rw [hmoved.live, if_neg hne.symm, if_pos rfl]

/-- **Only a good place will do** for all contents. -/
theorem Relocated.goodPlace (h : Sound L p) (hap : Blocks.Apart p.live)
    (hmoved : Relocated L p old n size base cur p') (hold : p.live.find old = some n)
    (hsize : 1 ≤ size) {M₀ M₀' : Mem} (hmove : memmove M₀ cur old n = .ok M₀')
    (hspec : ∀ M M' : Mem, memmove M cur old n = .ok M' → Reallocated L p M old n size al cur p' M')
    : GoodPlace L p old n size base cur := by
  have hn := h.pos old n hold
  have hdone := hspec M₀ M₀' hmove
  have hfits := h.fits hsize fun x hlo hhi => by
    obtain ⟨c, hc⟩ := hdone.owned x hlo hhi
    exact hmoved.sub _ c hc
  refine ⟨fun hreach b m hb hbad => ?_, fun x hlo hhi => ?_, fun hlt b m hb hm ho => ?_, ?_⟩
  · have := h.pos b m hb
    exact hdone.apart b m (by omega) hb ⟨by omega, by omega⟩
  · exact (hmoved.stays hfits.2 x).mp (hdone.owned x hlo hhi)
  · have hm0 := h.pos b m hm
    have hapart := hap.apart b m old n hm hold hb
    simp only [Blocks.Overlap] at ho hapart
    obtain ⟨i, hi, hlo, hhi⟩ : ∃ i < m, cur + size ≤ b + i ∧ b + i < cur + n :=
      ⟨max (cur + size) b - b, by omega, by omega, by omega⟩
    obtain ⟨M', hM'⟩ := memmove_isOk hmove fun x => if old ≤ x ∧ x < old + n then 0 else 1
    have hother := (hspec _ _ hM').others b m hb hm i hi
    rw [memmove_const hM' (fun j hj => if_pos ⟨by omega, by omega⟩) ⟨by omega, hhi⟩,
      if_neg (by omega)] at hother
    cases hother
  · exact (memmove_apply_iff (by omega) (Nat.min_le_left _ _) hmove).mp
      fun N N' hN => (hspec N N' hN).contents

/-! ## The theorem -/

/-- The place the search settles on is a good one. -/
def MovesWell (L : Layout) (p : Pool) (old n size al : ℕ) : Prop :=
  ∃ ublk base cur, kimaLookupUblk p old = some ublk ∧
    research wrapAdd L p ublk size al = .ok (some (base, cur)) ∧ GoodPlace L p old n size base cur

/-- **When `kima_realloc` moves a block right.**  In a pool in order with blocks apart, a call that
returns a block does what it is meant to for all contents of memory exactly if the search settles on
a good place. -/
theorem reallocated_iff (hV : V.Contract L) (h : Sound L k.pool) (hap : Blocks.Apart k.pool.live)
    {old n size a r : ℕ} {M₀ M₀' : Mem} (hold : k.pool.live.find old = some n) (hsize : 1 ≤ size)
    (ha : a < 64) (hrun : kimaRealloc wrapAdd V L k M₀ old size (2 ^ a) = .ok (r, k', M₀'))
    (hr : r ≠ 0) :
    (∀ M, ∃ M', kimaRealloc wrapAdd V L k M old size (2 ^ a) = .ok (r, k', M') ∧
      Reallocated L k.pool M old n size (2 ^ a) r k'.pool M') ↔
    MovesWell L k.pool old n size (2 ^ a) := by
  have hn := h.pos old n hold
  obtain ⟨hinit, hsize0, ublk, hublk, hpath⟩ := kimaRealloc_eq_ok_iff.mp hrun
  have hdata : (k.pool.slots .ublk).data ublk = n := by
    have hfind := hold
    rw [live_find, hublk] at hfind
    exact Option.some.inj hfind
  obtain ⟨base, cur, hsearch, hfound⟩ | ⟨hnone, hnew, -⟩ := hpath
  · obtain ⟨rfl, hmove, hmoved⟩ := h.relocated hold hsize hublk hsearch hfound
    obtain ⟨haligned, hclear⟩ := h.research_apart hap ha hsize hublk hsearch
    have hcall : ∀ M M' : Mem, memmove M r old n = .ok M' →
        kimaRealloc wrapAdd V L k M old size (2 ^ a) = .ok (r, k', M') := fun M M' hM =>
      kimaRealloc_eq_ok_iff.mpr ⟨hinit, hsize0, ublk, hublk,
        .inl ⟨base, r, hsearch, reallocFound_mem hfound (hdata.symm ▸ hM)⟩⟩
    constructor
    · intro hspec
      refine ⟨ublk, base, r, hublk, hsearch, hmoved.goodPlace h hap hold hsize hmove
        fun M M' hM => (?_ : Reallocated L k.pool M old n size (2 ^ a) r k'.pool M')⟩
      obtain ⟨M'', hrun', hdone⟩ := hspec M
      obtain ⟨-, -, rfl⟩ := by simpa using Except.ok.inj (hrun'.symm.trans (hcall M M' hM))
      exact hdone
    · rintro ⟨ublk', base', cur', hublk', hsearch', hgood⟩ M
      obtain rfl : ublk = ublk' := Option.some.inj (hublk.symm.trans hublk')
      obtain ⟨rfl, rfl⟩ : base = base' ∧ r = cur' := by
        simpa using Except.ok.inj (hsearch.symm.trans hsearch')
      have hfits := h.fits hsize fun x hlo hhi => by
        obtain ⟨c, hc, -⟩ := hgood.pages x hlo hhi
        exact ⟨c, hc⟩
      obtain ⟨M', hM'⟩ := memmove_isOk hmove M
      exact ⟨M', hcall M M' hM', hmoved.reallocated hn hsize hgood hfits.2 haligned
        (hclear hfits.1 hgood.between) hM'⟩
  · have hne := reallocNew_ne hV h ha hold hnew hr
    constructor
    · intro hspec
      obtain ⟨M', hrun', hdone⟩ := hspec (Copy.spot old)
      obtain ⟨-, -, ublk', hublk', ⟨base, cur, hsearch, -⟩ | ⟨-, -, rfl⟩⟩ :=
        kimaRealloc_eq_ok_iff.mp hrun'
      · obtain rfl : ublk = ublk' := Option.some.inj (hublk.symm.trans hublk')
        exact nomatch hnone.symm.trans hsearch
      · have hbyte := hdone.contents 0 (by omega)
        simp [Copy.spot, hne] at hbyte
    · rintro ⟨ublk', base', cur', hublk', hsearch', -⟩
      obtain rfl : ublk = ublk' := Option.some.inj (hublk.symm.trans hublk')
      exact nomatch hnone.symm.trans hsearch'

/-! ## Two calls -/

instance (L : Layout) (p : Pool) (old n size base q : ℕ) :
    Decidable (StaysDescribed L p old n size base q) :=
  match h : p.pages.find q with
  | none => isFalse fun ⟨_, hc, _⟩ => nomatch h.symm.trans hc
  | some c => decidable_of_iff (base ≤ q ∧ q < base + ceilAlignTo size L.pageSize ∨
      ¬ Blocks.Overlap q L.pageSize old n ∨ 2 ≤ c) (by simp [StaysDescribed, h])

theorem goodPlace_iff : GoodPlace L p old n size base cur ↔
    (old < cur + size → ∀ b ∈ p.live.entries, ¬ (cur < b.1 ∧ b.1 < old)) ∧
    (∀ i < size, StaysDescribed L p old n size base (floorAlignTo (cur + i) L.pageSize)) ∧
    (size < n → ∀ b ∈ p.live.entries, b.1 ≠ old →
      ¬ Blocks.Overlap (cur + size) (n - size) b.1 b.2) ∧ MovesRight cur old n (min n size) := by
  constructor
  · rintro ⟨hbetween, hpages, hrest, hmoves⟩
    exact ⟨fun h b hb => hbetween h b.1 b.2 (p.live.find_of_mem hb), fun i hi =>
      hpages _ (by omega) (by omega), fun h b hb hne => hrest h b.1 b.2 hne (p.live.find_of_mem hb),
      hmoves⟩
  · rintro ⟨hbetween, hpages, hrest, hmoves⟩
    refine ⟨fun h b m hb => hbetween h (b, m) (p.live.find_eq_some_iff.mp hb), fun x hlo hhi => ?_,
      fun h b m hne hb => hrest h (b, m) (p.live.find_eq_some_iff.mp hb) hne, hmoves⟩
    have hx := hpages (x - cur) (by omega)
    rwa [Nat.add_sub_cancel' hlo] at hx

instance (L : Layout) (p : Pool) (old n size base cur : ℕ) :
    Decidable (GoodPlace L p old n size base cur) := decidable_of_iff _ goodPlace_iff.symm

/-- Calls with alignments that divide leave a pool in order. -/
theorem sound_of_execs (hV : V.Contract L) (hS : V.InSpace) {e : σ} {cs : List KimaCall}
    {rs : List ℕ} (hcs : ∀ c ∈ cs, c.Legal ∧ c.Divides L)
    (hrun : execs wrapAdd V L ⟨kiInitKimaPool, e⟩ cs = .ok (rs, k)) : Sound L k.pool :=
  (roomyRun_of_execs hV hS (sound_kiInitKimaPool L) hcs hrun).invariant
    (I := fun k => Sound L k.pool) (fun _ _ _ hI hs => hs.sound hV hS hI) (sound_kiInitKimaPool L)

/-- Memory in which each byte is the last byte of its address. -/
def byteOfAddress : Mem := fun a => UInt8.ofNat a

/-- The first of two blocks grows, and moves behind the second. -/
theorem reallocated_grow : ∃ rs k k', execs wrapAdd (growingVm (pages4k 3)) (pages4k 3)
    ⟨kiInitKimaPool, ()⟩ [.alloc 24 8, .alloc 24 8] = .ok (rs, k) ∧ ∀ M, ∃ M',
      kimaRealloc wrapAdd (growingVm (pages4k 3)) (pages4k 3) k M 12288 64 8 = .ok (12336, k', M') ∧
      Reallocated (pages4k 3) k.pool M 12288 24 64 8 12336 k'.pool M' := by
  obtain ⟨rs, k, hcalls, hap, hold, hublk, hsearch, hgood, ⟨r, k', M'⟩, hrealloc, rfl⟩ : ∃ rs k,
      execs wrapAdd (growingVm (pages4k 3)) (pages4k 3) ⟨kiInitKimaPool, ()⟩
        [.alloc 24 8, .alloc 24 8] = .ok (rs, k) ∧
      Blocks.Apart k.pool.live ∧ k.pool.live.find 12288 = some 24 ∧
      kimaLookupUblk k.pool 12288 = some 20504 ∧
      research wrapAdd (pages4k 3) k.pool 20504 64 8 = .ok (some (12288, 12336)) ∧
      GoodPlace (pages4k 3) k.pool 12288 24 64 12288 12336 ∧
      ∃ x, kimaRealloc wrapAdd (growingVm (pages4k 3)) (pages4k 3) k byteOfAddress 12288 64 8 =
        .ok x ∧ x.1 = 12336 := by decide +kernel
  have hsound := sound_of_execs (growingVm_contract _) (growingVm_inSpace _) (by decide) hcalls
  exact ⟨rs, k, k', hcalls, (reallocated_iff (a := 3) (growingVm_contract _) hsound hap hold
    (by decide) (by decide) hrealloc (by decide)).mpr ⟨_, _, _, hublk, hsearch, hgood⟩⟩

/-- A block shrinks into a gap two blocks below, and all its old length is moved there: the block in
between is overwritten. -/
theorem reallocated_shrink : ∃ rs k r k' M', execs wrapAdd (growingVm (pages4k 3)) (pages4k 3)
    ⟨kiInitKimaPool, ()⟩ [.alloc 8 8, .alloc 8 8, .alloc 24 8, .free 12288] = .ok (rs, k) ∧
      Sound (pages4k 3) k.pool ∧ Blocks.Apart k.pool.live ∧
      k.pool.live.entries = [(12296, 8), (12304, 24)] ∧
      kimaRealloc wrapAdd (growingVm (pages4k 3)) (pages4k 3) k byteOfAddress 12304 8 8 =
        .ok (r, k', M') ∧ r = 12288 ∧ M' 12296 ≠ byteOfAddress 12296 ∧
      ¬ Reallocated (pages4k 3) k.pool byteOfAddress 12304 24 8 8 r k'.pool M' := by
  obtain ⟨rs, k, hcalls, hap, hlive, hother, ⟨r, k', M'⟩, hrealloc, hr, hne⟩ : ∃ rs k,
      execs wrapAdd (growingVm (pages4k 3)) (pages4k 3) ⟨kiInitKimaPool, ()⟩
        [.alloc 8 8, .alloc 8 8, .alloc 24 8, .free 12288] = .ok (rs, k) ∧
      Blocks.Apart k.pool.live ∧ k.pool.live.entries = [(12296, 8), (12304, 24)] ∧
      k.pool.live.find 12296 = some 8 ∧
      ∃ x, kimaRealloc wrapAdd (growingVm (pages4k 3)) (pages4k 3) k byteOfAddress 12304 8 8 =
        .ok x ∧ x.1 = 12288 ∧ x.2.2 12296 ≠ byteOfAddress 12296 := by decide +kernel
  have hsound := sound_of_execs (growingVm_contract _) (growingVm_inSpace _) (by decide) hcalls
  exact ⟨rs, k, r, k', M', hcalls, hsound, hap, hlive, hrealloc, hr, hne, fun hdone =>
    hne (hdone.others 12296 8 (by decide) hother 0 (by decide))⟩

end Pbos.Mm
