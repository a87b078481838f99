import Pbos.Mm.KimaRuns

/-!
# Mm/KimaCounts — blocks, their pages and the counts of references

The pages counted up by `kima_alloc` are those of the area the search looked at; the pages counted
down by `kima_free` are those the block lies in.  They are the same as long as the alignment of a
candidate does not push it over the limit of the area, which `kima_alloc` checks only before it
aligns, and no size wraps (`Roomy`).  Then every live block lies in described pages and every count
is the number of live blocks in the page (`backed_of_run`).
-/

namespace Pbos.Mm

open Pbos.Kfxx OrdMap

variable {σ : Type} {V : Vm σ} {L : Layout} {k k' : Kima σ} {p p' : Pool} {n q base cur : ℕ}
  {c : KimaCall} {size r al ptr b : ℕ}

/-- The ranges handed out end before the end of the address space. -/
def Vm.InSpace (V : Vm σ) : Prop :=
  ∀ p e n v e', V.vpgalloc p e n = .ok (v, e') → v ≠ 0 → v + n < 2 ^ 64

/-- Every byte of a live block lies in a described page. -/
def Backed (L : Layout) (p : Pool) : Prop :=
  ∀ b n, p.live.find b = some n → ∀ x, b ≤ x → x < b + n →
    ∃ r, p.pages.find (floorAlignTo x L.pageSize) = some r

/-- The count of a page is the number of live blocks that meet it. -/
def Counted (L : Layout) (p : Pool) : Prop :=
  ∀ q r, p.pages.find q = some r → r = p.live.meets q L.pageSize

/-- Blocks, pages and counts in order. -/
structure Sound (L : Layout) (p : Pool) : Prop where
  ok : p.Ok L
  page : ∀ q r, p.pages.find q = some r → L.pageSize ∣ q ∧ 0 < q ∧ q + L.pageSize < 2 ^ 64
  pos : ∀ b n, p.live.find b = some n → 0 < n
  backed : Backed L p
  counted : Counted L p

theorem sound_kiInitKimaPool (L : Layout) : Sound L kiInitKimaPool where
  ok := ok_kiInitKimaPool L
  page _ _ h := nomatch h
  pos _ _ h := nomatch h
  backed _ _ h := nomatch h
  counted _ _ h := nomatch h

/-- The blocks and pages are all a sound pool is about. -/
theorem Sound.congr (h : Sound L p) (hok : p'.Ok L) (hlive : p'.live = p.live)
    (hpages : ∀ q, p'.pages.find q = p.pages.find q) : Sound L p' where
  ok := hok
  page q r hq := h.page q r (hpages q ▸ hq)
  pos b n hb := h.pos b n (hlive ▸ hb)
  backed b n hb x hlo hhi := by
    rw [hpages]
    exact h.backed b n (hlive ▸ hb) x hlo hhi
  counted q r hq := by
    rw [hlive]
    exact h.counted q r (hpages q ▸ hq)

/-! ## Blocks and pages -/

/-- A live block starts above zero and ends inside the address space. -/
theorem Sound.bounds (h : Sound L p) (hb : p.live.find b = some n) :
    0 < b ∧ b + n < 2 ^ 64 := by
  have hn := h.pos b n hb
  obtain ⟨r₁, h₁⟩ := h.backed b n hb b le_rfl (by omega)
  obtain ⟨r₂, h₂⟩ := h.backed b n hb (b + n - 1) (by omega) (by omega)
  have hlo := (floorAlignTo_spec L.pageSize_pos b).2.1
  have hhi := (floorAlignTo_spec L.pageSize_pos (b + n - 1)).2.2
  have hp₁ := h.page _ _ h₁
  have hp₂ := h.page _ _ h₂
  exact ⟨by omega, by omega⟩

/-- A page that a live block meets is described. -/
theorem Sound.described (h : Sound L p) (hb : p.live.find b = some n) (hq : L.pageSize ∣ q)
    (ho : Blocks.Overlap q L.pageSize b n) : ∃ r, p.pages.find q = some r := by
  have hn := h.pos b n hb
  obtain ⟨r, hr⟩ := h.backed b n hb (max b q) (le_max_left _ _) (by have := ho.1; omega)
  rw [floorAlignTo_eq hq (le_max_right _ _) (by have := ho.2; have := L.pageSize_pos; omega)] at hr
  exact ⟨r, hr⟩

/-- The pages of an area that a block fills up to less than a page are the pages the block meets. -/
theorem mem_area_iff {area : ℕ} (hbase : L.pageSize ∣ base) (harea : L.pageSize ∣ area)
    (hq : L.pageSize ∣ q) (hlt : area < size + L.pageSize) (hlo : base ≤ cur)
    (hhi : cur + size ≤ base + area) :
    (base ≤ q ∧ q < base + area) ↔ Blocks.Overlap q L.pageSize cur size := by
  constructor
  · rintro ⟨hqlo, hqhi⟩
    have := Word.add_le_of_dvd_of_lt hq (Nat.dvd_add hbase harea) hqhi
    exact ⟨by omega, by omega⟩
  · rintro ⟨hqhi, hqlo⟩
    exact ⟨Word.le_of_dvd_of_lt_add hbase hq (by omega), by omega⟩

/-- **A new block, counted in the pages it meets.** -/
theorem Sound.insert (h : Sound L p) (hok : p'.Ok L) {area : ℕ} (hsize : 0 < size)
    (hbase : L.pageSize ∣ base) (harea : L.pageSize ∣ area) (hpos : 0 < base)
    (hend : base + area < 2 ^ 64) (hlt : area < size + L.pageSize) (hlo : base ≤ cur)
    (hhi : cur + size ≤ base + area) (hnew : p.live.find cur = none)
    (hlive : p'.live = p.live.insert cur size)
    (hin : ∀ q, L.pageSize ∣ q → base ≤ q → q < base + area → p'.pages.find q =
      some (Word.add ((p.pages.find q).getD 0) 1))
    (hout : ∀ q, ¬ (L.pageSize ∣ q ∧ base ≤ q ∧ q < base + area) → p'.pages.find q = p.pages.find q)
    : Sound L p' := by
  have hkeys : ∀ b n, p'.live.find b = some n → 0 < b ∧ b < 2 ^ 64 := fun b n hb => by
    rw [hlive, find_insert] at hb
    split at hb
    · exact ⟨by omega, by omega⟩
    · have := h.bounds hb
      exact ⟨this.1, by omega⟩
  have hcount : ∀ q, L.pageSize ∣ q → (p.pages.find q).getD 0 = p.live.meets q L.pageSize :=
    fun q hq => by
      cases hf : p.pages.find q with
      | some r => exact h.counted q r hf
      | none =>
        refine (Blocks.meets_eq_zero fun b n hb ho => ?_).symm
        obtain ⟨r, hr⟩ := h.described hb hq ho
        exact nomatch hf.symm.trans hr
  have hdesc : ∀ q r, p'.pages.find q = some r →
      L.pageSize ∣ q ∧ 0 < q ∧ q + L.pageSize < 2 ^ 64 := fun q r hq => by
    by_cases hmem : L.pageSize ∣ q ∧ base ≤ q ∧ q < base + area
    · have := Word.add_le_of_dvd_of_lt hmem.1 (Nat.dvd_add hbase harea) hmem.2.2
      exact ⟨hmem.1, by omega, by omega⟩
    · exact h.page q r (hout q hmem ▸ hq)
  refine ⟨hok, hdesc, fun b n hb => ?_, fun b n hb x hxlo hxhi => ?_, fun q r hq => ?_⟩
  · rw [hlive, find_insert] at hb
    split at hb
    · cases hb
      exact hsize
    · exact h.pos b n hb
  · obtain ⟨hfd, hfle, hflt⟩ := floorAlignTo_spec L.pageSize_pos x
    by_cases hmem : base ≤ floorAlignTo x L.pageSize ∧ floorAlignTo x L.pageSize < base + area
    · exact ⟨_, hin _ hfd hmem.1 hmem.2⟩
    · rw [hout _ fun hc => hmem hc.2]
      rw [hlive, find_insert] at hb
      split at hb
      · cases hb
        refine absurd ⟨Word.le_of_dvd_of_lt_add hbase hfd (by omega), by omega⟩ hmem
      · exact h.backed b n hb x hxlo hxhi
  · obtain ⟨hqd, -, -⟩ := hdesc q r hq
    have hmeets := Blocks.meets_insert hnew size q L.pageSize
    rw [← hlive] at hmeets
    by_cases hmem : base ≤ q ∧ q < base + area
    · rw [hin q hqd hmem.1 hmem.2, hcount q hqd] at hq
      rw [if_pos ((mem_area_iff hbase harea hqd hlt hlo hhi).mp hmem)] at hmeets
      have hlt := Blocks.meets_lt hkeys (by norm_num) q L.pageSize
      rw [Word.add_of_lt (by omega), Option.some.injEq] at hq
      omega
    · rw [hout q fun hc => hmem hc.2] at hq
      rw [if_neg fun ho => hmem ((mem_area_iff hbase harea hqd hlt hlo hhi).mpr ho)] at hmeets
      rw [h.counted q r hq, hmeets, Nat.add_zero]

/-! ## Allocation -/

/-- The addresses in the area at `base` where a block may be tried: its first page, and the ends of
the live blocks. -/
def Candidate (p : Pool) (base c : ℕ) : Prop :=
  (c = base ∨ ∃ b n, p.live.find b = some n ∧ c = b + n) ∧ base ≤ c

/-- **When a call is counted right**: the size does not wrap, and aligning a candidate that is
inside the limit of an area keeps it inside. -/
def Roomy (L : Layout) (p : Pool) : KimaCall → Prop
  | .alloc size al => size + al + L.pageSize ≤ 2 ^ 64 ∧ ∀ base r, p.pages.find base = some r →
      ∀ c, Candidate p base c → c ≤ base + (ceilAlignTo size L.pageSize - size) →
        roundUp c al ≤ base + (ceilAlignTo size L.pageSize - size)
  | .free _ => True

/-- No gap: every page of the area is described. -/
theorem described_of_findGap {js : List ℕ} (hrun : findGap wrapAdd p base js = .ok none) :
    ∀ j ∈ js, ∃ n, kimaLookupVpgdesc p (Word.add base j) = some n := by
  induction js with
  | nil => simp
  | cons j js ih =>
    obtain ⟨page, hpage, hrun⟩ := of_bind hrun
    cases hpage
    split at hrun
    · cases hrun
    · rename_i hsome
      exact List.forall_mem_cons.mpr ⟨Option.ne_none_iff_exists'.mp hsome, ih hrun⟩

/-- **An area without a gap does not wrap**, because no page is described at zero. -/
theorem Sound.area (h : Sound L p) {area : ℕ} (hbase : p.pages.find base = some r)
    (harea : L.pageSize ∣ area) (hpos : 0 < area)
    (hgap : findGap wrapAdd p base (Word.multiples 0 area L.pageSize) = .ok none) :
    base + area < 2 ^ 64 ∧ ∀ q, L.pageSize ∣ q → base ≤ q → q < base + area →
      ∃ r, p.pages.find q = some r := by
  obtain ⟨hbd, hbpos, hbend⟩ := h.page base r hbase
  have hfound : ∀ j, L.pageSize ∣ j → j < area → ∃ r, p.pages.find (Word.add base j) = some r :=
    fun j hj hlt => by
      obtain ⟨n, hn⟩ := described_of_findGap hgap j
        ((Word.mem_multiples L.pageSize_pos (dvd_zero _) harea).mpr ⟨hj, Nat.zero_le _, hlt⟩)
      exact ⟨_, SlotPool.find_view .. |>.trans (congrArg (Option.map _) hn)⟩
  have hroom : base + area ≤ 2 ^ 64 := by
    by_contra hlt
    obtain ⟨r, hr⟩ := hfound (2 ^ 64 - base) (Nat.dvd_sub L.pageSize_dvd hbd) (by omega)
    have hz : Word.add base (2 ^ 64 - base) = 0 := by
      rw [Word.add, Nat.add_sub_cancel' (by omega), Nat.mod_self]
    rw [hz] at hr
    exact absurd (h.page 0 r hr).2.1 (lt_irrefl 0)
  have hall : ∀ q, L.pageSize ∣ q → base ≤ q → q < base + area → ∃ r, p.pages.find q = some r :=
    fun q hq hlo hhi => by
      have := hfound (q - base) (Nat.dvd_sub hq hbd) (by omega)
      rwa [Word.add_of_lt (by omega), Nat.add_sub_cancel' hlo] at this
  refine ⟨?_, hall⟩
  have hle := Nat.le_of_dvd hpos harea
  obtain ⟨r, hr⟩ := hall (base + area - L.pageSize)
    (Nat.dvd_sub (Nat.dvd_add hbd harea) dvd_rfl) (by omega) (by have := L.pageSize_pos; omega)
  have := (h.page _ r hr).2.2
  omega

/-- **A candidate that is settled on lies in the area.** -/
theorem Sound.search_area (h : Sound L p) (hal : 0 < al) (hsize : 0 < size)
    (hroomy : Roomy L p (.alloc size al))
    (hrun : search wrapAdd L p size al = .ok (some (base, cur))) :
    ∃ area, area = ceilAlignTo size L.pageSize ∧ L.pageSize ∣ base ∧ L.pageSize ∣ area ∧ 0 < base ∧
      base + area < 2 ^ 64 ∧ area < size + L.pageSize ∧ base ≤ cur ∧ cur + size ≤ base + area ∧
      ∀ q, L.pageSize ∣ q → base ≤ q → q < base + area → ∃ r, p.pages.find q = some r := by
  obtain ⟨hfits, hroom⟩ := hroomy
  obtain ⟨⟨m, hm⟩, hgap, limit, hlimit, hfit⟩ :=
    searchLoop_cases (fun _ => OrdMap.find_of_first _) hrun
  have hbase : p.pages.find base = some ((p.slots .vpgdesc).data m) := find_view_isSome hm
  obtain ⟨hbd, hbpos, hbend⟩ := h.page base _ hbase
  obtain ⟨had, hale, halt⟩ := ceilAlignTo_spec L.pageSize_pos
    (by omega : size + L.pageSize ≤ 2 ^ 64)
  obtain ⟨hend, hall⟩ := h.area hbase had (by omega) hgap
  have hsub : Word.sub (ceilAlignTo size L.pageSize) size = ceilAlignTo size L.pageSize - size :=
    Word.sub_of_le hale (Word.add_lt _ _)
  have hlim : limit = base + (ceilAlignTo size L.pageSize - size) := by
    cases hlimit
    rw [hsub]
    exact Word.add_of_lt (by omega)
  have hI : ∀ c, Candidate p base c → c ≤ limit → roundUp c al ≤ limit := fun c hc hle => by
    rw [hlim] at hle ⊢
    exact hroom base _ hbase c hc hle
  have hexact : ∀ c, Candidate p base c → c ≤ limit →
      (c % al ≠ 0 → ExactAt wrapAdd c (al - c % al)) ∧ ExactAt wrapAdd (roundUp c al) size := by
    intro c hc hle
    have hr := hI c hc hle
    refine ⟨fun hne => exactAt_wrapAdd ?_, exactAt_wrapAdd (by omega)⟩
    rw [roundUp, Nat.mod_eq_of_lt (by omega : al - c % al < al)] at hr
    omega
  obtain ⟨c, hc, hle, rfl, -⟩ := fitLoop_cases h.ok hal
    (fun b n hb => exactAt_wrapAdd (h.bounds hb).2) hexact
    (fun c b n hc hle hb hlt => ⟨.inr ⟨b, n, hb, rfl⟩, (hc.2.trans (le_roundUp c al)).trans hlt.le⟩)
    ⟨.inl rfl, le_rfl⟩ hfit
  have hle' := hI c hc hle
  have hlo := hc.2.trans (le_roundUp c al)
  exact ⟨_, rfl, hbd, had, hbpos, hend, halt, hlo, by omega, hall⟩

/-- The pages of an area, from its offsets. -/
theorem mem_offsets {area : ℕ} (hbase : L.pageSize ∣ base) (harea : L.pageSize ∣ area) :
    q ∈ (Word.multiples 0 area L.pageSize).map (base + ·) ↔
      L.pageSize ∣ q ∧ base ≤ q ∧ q < base + area := by
  simp only [List.mem_map, Word.mem_multiples L.pageSize_pos (dvd_zero _) harea]
  constructor
  · rintro ⟨j, ⟨hj, -, hjlt⟩, rfl⟩
    exact ⟨Nat.dvd_add hbase hj, by omega, by omega⟩
  · rintro ⟨hq, hqlo, hqhi⟩
    exact ⟨q - base, ⟨Nat.dvd_sub hq hbase, by omega, by omega⟩, by omega⟩

/-- Offsets into an area that ends inside the address space do not wrap. -/
theorem exactAt_offsets {area : ℕ} (harea : L.pageSize ∣ area) (hend : base + area < 2 ^ 64) :
    ∀ j ∈ Word.multiples 0 area L.pageSize, ExactAt wrapAdd base j := fun j hj => by
  have := ((Word.mem_multiples L.pageSize_pos (dvd_zero _) harea).mp hj).2.2
  exact exactAt_wrapAdd (by omega)

/-- **A block in described pages.** -/
theorem Sound.alloc_found (hV : V.Contract L) (h : Sound L k.pool) {ublk : Option ℕ}
    {k₁ : Kima σ} (hal : 0 < al) (hsize : 0 < size) (hroomy : Roomy L k.pool (.alloc size al))
    (hsearch : search wrapAdd L k.pool size al = .ok (some (base, cur)))
    (hublk : kimaAllocUblk V L k cur size = .ok (ublk, k₁)) (hsome : ublk ≠ none)
    (href : refPages wrapAdd base (Word.multiples 0 (ceilAlignTo size L.pageSize) L.pageSize) k₁ =
      .ok k') : Sound L k'.pool := by
  obtain ⟨area, rfl, hbd, had, hbpos, hend, halt, hlo, hhi, hall⟩ :=
    h.search_area hal hsize hroomy hsearch
  obtain ⟨hok₁, hpages₁, ⟨hnone, -⟩ | ⟨-, hnone, hlive⟩⟩ := kimaAllocUblk_cases hV h.ok hublk
  · exact absurd hnone hsome
  · obtain ⟨hok, hlive', hpages⟩ := refPages_cases (exactAt_offsets had hend)
      (Word.nodup_multiples L.pageSize_pos) hok₁ href
    refine h.insert hok hsize hbd had hbpos hend halt hlo hhi hnone (hlive'.trans hlive)
      (fun q hq hqlo hqhi => ?_) fun q hq => ?_
    · obtain ⟨r, hr⟩ := hall q hq hqlo hqhi
      rw [hpages, if_pos ((mem_offsets hbd had).mpr ⟨hq, hqlo, hqhi⟩), hpages₁, hr]
      rfl
    · rw [hpages, if_neg fun hm => hq ((mem_offsets hbd had).mp hm), hpages₁]

/-- The scope guard takes back what `newPages` described. -/
theorem releaseVpgdescs_undo (h : k.pool.Ok L) {pg i : ℕ} {m : OrdMap ℕ ℕ} (hpg : L.pageSize ∣ pg)
    (hi : L.pageSize ∣ i) (hend : pg + i < 2 ^ 64)
    (hpages : ∀ q, (L.pageSize ∣ q ∧ pg ≤ q ∧ q < pg + i → m.find q = none) ∧
      k.pool.pages.find q = if L.pageSize ∣ q ∧ pg ≤ q ∧ q < pg + i then some 1 else m.find q)
    (hrun : releaseVpgdescs wrapAdd V L pg i k = .ok k') :
    k'.pool.Ok L ∧ k'.pool.live = k.pool.live ∧ ∀ q, k'.pool.pages.find q = m.find q := by
  obtain ⟨k₁, hdrop, hrun⟩ := of_bind hrun
  cases hrun
  obtain ⟨hok, hlive, hp⟩ := dropPages_cases (exactAt_offsets hi hend) h hdrop
  refine ⟨hok.setNum _, hlive, fun q => (hp q).trans ?_⟩
  by_cases hmem : L.pageSize ∣ q ∧ pg ≤ q ∧ q < pg + i
  · rw [if_pos ((mem_offsets hpg hi).mpr hmem), (hpages q).1 hmem]
  · rw [if_neg fun hm => hmem ((mem_offsets hpg hi).mp hm), (hpages q).2, if_neg hmem]

/-- **A block in new pages.** -/
theorem Sound.alloc_new (hV : V.Contract L) (hS : V.InSpace) (h : Sound L k.pool) {a : ℕ}
    (hsize : 0 < size) (hfits : size + 2 ^ a + L.pageSize ≤ 2 ^ 64)
    (hrun : allocNew wrapAdd V L k size (2 ^ a) = .ok (r, k')) : Sound L k'.pool := by
  obtain ⟨v, k₁, pg, hcall, halign, hrest⟩ := allocNew_cases hrun
  have hpos := L.pageSize_pos
  have hapos := Nat.two_pow_pos a
  obtain ⟨hok₁, hv₁⟩ := h.ok.kimaVpgalloc hV hcall
  obtain ⟨hlive₁, hpages₁⟩ := live_pages_of_view_eq hv₁
  have hsound₁ : Sound L k₁.pool := h.congr hok₁ hlive₁ fun q => by rw [hpages₁]
  rcases hrest with ⟨-, -, rfl⟩ | ⟨hne, i, complete, k₂, hnew, hrest⟩
  · exact hsound₁
  obtain ⟨hn0, hvd, ⟨rfl, -⟩ | ⟨hv0, -, ⟨e, e', hgive⟩, -⟩⟩ := kimaVpgalloc_cases hV hcall
  · have := alignUp_eq hapos (absurd (Nat.zero_mod _)) halign
    exact absurd (this.trans (roundUp_of_dvd (dvd_zero _))) hne
  have hword : Word.add size (2 ^ a) = size + 2 ^ a := Word.add_of_lt (by omega)
  rw [hword] at hgive
  obtain ⟨hnd, hnle, -⟩ := ceilAlignTo_spec hpos hfits
  have hspace := hS _ _ _ _ _ hgive hv0
  have hround := roundUp_lt hapos v
  have hpg : pg = roundUp v (2 ^ a) := by
    refine alignUp_eq hapos (fun hmod => exactAt_wrapAdd ?_) halign
    omega
  have hpd : L.pageSize ∣ pg := hpg ▸ dvd_roundUp_of_dvd hvd
  obtain ⟨had, hale, halt⟩ := ceilAlignTo_spec hpos (by omega : size + L.pageSize ≤ 2 ^ 64)
  obtain ⟨hid, -, hdone, hilt, hpages₂⟩ := newPages_cases hV hok₁
    (fun i hi => exactAt_wrapAdd (by omega)) (by omega) hpd (dvd_zero _) hnew
  have hile : i ≤ ceilAlignTo size L.pageSize := Word.le_of_dvd_of_lt_add hid had (by omega)
  have hend : pg + ceilAlignTo size L.pageSize < 2 ^ 64 := by
    have := Word.le_of_dvd_of_lt_add (Nat.dvd_add hpd had) (Nat.dvd_add hvd hnd) (by omega)
    omega
  obtain ⟨hok₂, hlive₂⟩ := newPages_ok hV hok₁ hnew
  have hundo : ∀ k₃ : Kima σ, k₃.pool.Ok L → k₃.pool.live = k₁.pool.live →
      k₃.pool.pages = k₂.pool.pages → releaseVpgdescs wrapAdd V L pg i k₃ = .ok k' →
      Sound L k'.pool := fun k₃ hok₃ hlive₃ hpages₃ hrel => by
    obtain ⟨hok, hlive, hpages⟩ := releaseVpgdescs_undo hok₃ hpd hid (by omega)
      (hpages₃ ▸ hpages₂) hrel
    exact hsound₁.congr hok (hlive.trans hlive₃) hpages
  rcases hrest with ⟨-, -, hrel⟩ | ⟨rfl, n, -, ublk, k₃, hublk, hrest⟩
  · exact hundo k₂ hok₂ hlive₂ rfl hrel
  obtain ⟨hok₃, hpages₃, hcase⟩ := kimaAllocUblk_cases hV (hok₂.setNum n) hublk
  rcases hrest with ⟨rfl, -, hrel⟩ | ⟨hsome, -, rfl⟩
  · rcases hcase with ⟨-, hlive₃⟩ | ⟨⟨m, hm⟩, -⟩
    · exact hundo k₃ hok₃ (hlive₃.trans hlive₂) hpages₃ hrel
    · cases hm
  · rcases hcase with ⟨hnone, -⟩ | ⟨-, hnone, hlive₃⟩
    · exact absurd hnone hsome
    · have hsame : (k₂.setNum n).pool.live = k₁.pool.live := hlive₂
      rw [hsame] at hnone hlive₃
      have hi : i = ceilAlignTo size L.pageSize := by
        have := hdone rfl
        exact le_antisymm hile (Word.le_of_dvd_of_lt_add had hid (by omega))
      refine hsound₁.insert hok₃ hsize hpd had (Nat.pos_of_ne_zero hne) hend halt le_rfl (by omega)
        hnone hlive₃ (fun q hq hqlo hqhi => ?_) fun q hq => ?_
      · have hmem : L.pageSize ∣ q ∧ pg ≤ q ∧ q < pg + i := ⟨hq, hqlo, hi ▸ hqhi⟩
        rw [hpages₃, (hpages₂ q).1 hmem]
        exact (hpages₂ q).2.trans (if_pos hmem)
      · rw [hpages₃]
        exact (hpages₂ q).2.trans (if_neg fun hmem => hq ⟨hmem.1, hmem.2.1, hi ▸ hmem.2.2⟩)

/-- **One call of `kima_alloc` in a sound pool.** -/
theorem Sound.alloc (hV : V.Contract L) (hS : V.InSpace) (h : Sound L k.pool)
    (hlegal : (KimaCall.alloc size al).Legal) (hroomy : Roomy L k.pool (.alloc size al))
    (hrun : kimaAlloc wrapAdd V L k size al = .ok (r, k')) : Sound L k'.pool := by
  obtain ⟨hsize, hlt, a, ha, rfl⟩ := hlegal
  rcases kimaAlloc_cases hrun with ⟨base, cur, ublk, k₁, hsearch, hublk, hrest⟩ | ⟨-, hnew⟩
  · rcases hrest with ⟨rfl, rfl, rfl⟩ | ⟨hsome, rfl, href⟩
    · obtain ⟨hok₁, hpages₁, ⟨-, hlive⟩ | ⟨⟨m, hm⟩, -⟩⟩ := kimaAllocUblk_cases hV h.ok hublk
      · exact h.congr hok₁ hlive fun q => by rw [hpages₁]
      · cases hm
    · exact h.alloc_found hV (Nat.two_pow_pos a) hsize hroomy hsearch hublk hsome href
  · exact h.alloc_new hV hS hsize hroomy.1 hnew

/-! ## Release -/

/-- The pages `kima_free` counts down are those the block meets. -/
theorem Sound.mem_freed (h : Sound L p) (hptr : p.live.find ptr = some n) :
    q ∈ Word.multiples (floorAlignTo ptr L.pageSize) (ceilAlignTo (ptr + n) L.pageSize) L.pageSize ↔
      L.pageSize ∣ q ∧ Blocks.Overlap q L.pageSize ptr n := by
  have hn := h.pos ptr n hptr
  obtain ⟨hfd, hfle, hflt⟩ := floorAlignTo_spec L.pageSize_pos ptr
  obtain ⟨hld, hlle, hllt⟩ := floorAlignTo_spec L.pageSize_pos (ptr + n - 1)
  obtain ⟨r, hr⟩ := h.backed ptr n hptr (ptr + n - 1) (by omega) (by omega)
  obtain ⟨hcle, hcge⟩ := ceilAlignTo_le_of_dvd L.pageSize_pos
    (by omega : ptr + n ≤ floorAlignTo (ptr + n - 1) L.pageSize + L.pageSize)
    (Nat.dvd_add hld dvd_rfl) (h.page _ r hr).2.2
  have hcd : L.pageSize ∣ ceilAlignTo (ptr + n) L.pageSize :=
    dvd_ceilAlignTo L.pageSize_pos L.pageSize_dvd
  rw [Word.mem_multiples L.pageSize_pos hfd hcd]
  constructor
  · rintro ⟨hq, hlo, hhi⟩
    have := Word.add_le_of_dvd_of_lt hq hcd hhi
    exact ⟨hq, by omega, by omega⟩
  · rintro ⟨hq, hhi, hlo⟩
    exact ⟨hq, Word.le_of_dvd_of_lt_add hfd hq (by omega), by omega⟩

/-- **One block less, counted off in the pages it met.** -/
theorem Sound.erase (h : Sound L p) (hok : p'.Ok L) (hptr : p.live.find ptr = some n)
    (hlive : p'.live = p.live.erase ptr)
    (hpages : ∀ q, p'.pages.find q = if L.pageSize ∣ q ∧ Blocks.Overlap q L.pageSize ptr n then
      (p.pages.find q).bind dropRef else p.pages.find q) : Sound L p' := by
  have hfind : ∀ b m, p'.live.find b = some m → p.live.find b = some m := fun b m hb => by
    rw [hlive, find_erase] at hb
    split at hb
    · cases hb
    · exact hb
  have hmeets : ∀ q, p'.live.meets q L.pageSize +
      (if Blocks.Overlap q L.pageSize ptr n then 1 else 0) = p.live.meets q L.pageSize := by
    intro q
    rw [hlive]
    exact Blocks.meets_erase hptr q L.pageSize
  have hback : ∀ q r, p'.pages.find q = some r →
      (∃ r₀, p.pages.find q = some r₀) ∧ r = p'.live.meets q L.pageSize := fun q r hq => by
    have hm := hmeets q
    rw [hpages] at hq
    split at hq
    · rename_i hmem
      obtain ⟨r₀, hr₀, hdrop⟩ := Option.bind_eq_some_iff.mp hq
      rw [if_pos hmem.2, ← h.counted q r₀ hr₀] at hm
      unfold dropRef at hdrop
      split at hdrop
      · cases hdrop
      · cases hdrop
        exact ⟨⟨r₀, hr₀⟩, by omega⟩
    · rename_i hmem
      rw [if_neg fun ho => hmem ⟨(h.page q r hq).1, ho⟩, ← h.counted q r hq] at hm
      exact ⟨⟨r, hq⟩, by omega⟩
  refine ⟨hok, fun q r hq => ?_, fun b m hb => h.pos b m (hfind b m hb), fun b m hb x hlo hhi => ?_,
    fun q r hq => (hback q r hq).2⟩
  · obtain ⟨⟨r₀, hr₀⟩, -⟩ := hback q r hq
    exact h.page q r₀ hr₀
  · obtain ⟨r, hr⟩ := h.backed b m (hfind b m hb) x hlo hhi
    obtain ⟨-, hfle, hflt⟩ := floorAlignTo_spec L.pageSize_pos x
    rw [hpages]
    split
    · rename_i hmem
      have hm := hmeets (floorAlignTo x L.pageSize)
      have hpos := Blocks.meets_pos hb
        (⟨by omega, by omega⟩ : Blocks.Overlap (floorAlignTo x L.pageSize) L.pageSize b m)
      rw [if_pos hmem.2, ← h.counted _ r hr] at hm
      refine ⟨r - 1, ?_⟩
      rw [hr, Option.bind_some, dropRef, if_neg (by omega)]
    · exact ⟨r, hr⟩

/-- **One call of `kima_free` in a sound pool** returns, unless `kima_vpgfree` fails. -/
theorem Sound.free (h : Sound L k.pool) (hptr : k.pool.live.find ptr = some n) :
    (∃ k', kimaFree wrapAdd V L k ptr = .ok k' ∧ Sound L k'.pool) ∨
      ∃ err, V.FreeFault err ∧ kimaFree wrapAdd V L k ptr = .error err := by
  have hbounds := h.bounds hptr
  rw [live_find] at hptr
  obtain ⟨ublk, hublk, hdata⟩ := Option.map_eq_some_iff.mp hptr
  have hlive : k.pool.live.find ptr = some n := by rw [live_find, hublk, Option.map_some, hdata]
  obtain ⟨P, hP⟩ := h.ok
  have hrb : (k.pool.slots .ublk).rbValue ublk = ptr := ((hP.slots .ublk).query ptr ublk hublk).1
  have hadd : wrapAdd ptr n = .ok (ptr + n) := congrArg Except.ok (Word.add_of_lt hbounds.2)
  have hkeys : ∀ b m, k.pool.live.find b = some m → 0 < b ∧ b < 2 ^ 64 := fun b m hb => by
    have := h.bounds hb
    exact ⟨this.1, by omega⟩
  have hrun : kimaFree wrapAdd V L k ptr =
      (unrefPages V L (Word.multiples (floorAlignTo ptr L.pageSize)
        (ceilAlignTo (ptr + n) L.pageSize) L.pageSize) k >>= fun k => kimaFreeUblk V L k ublk) := by
    unfold kimaFree
    rw [kdAssert_of_pos hP.init]
    simp only [bind, Except.bind, hublk, hrb, hdata, hadd]
  have hcounts : ∀ q ∈ Word.multiples (floorAlignTo ptr L.pageSize)
      (ceilAlignTo (ptr + n) L.pageSize) L.pageSize,
      ∃ r, k.pool.pages.find q = some r ∧ 0 < r ∧ r < 2 ^ 64 := fun q hq => by
    obtain ⟨hqd, ho⟩ := (h.mem_freed hlive).mp hq
    obtain ⟨r, hr⟩ := h.described hlive hqd ho
    have hcount := h.counted q r hr
    exact ⟨r, hr, hcount ▸ Blocks.meets_pos hlive ho, hcount ▸ Blocks.meets_lt hkeys (by decide) ..⟩
  rw [hrun]
  rcases unrefPages_spec (Word.nodup_multiples L.pageSize_pos) h.ok hcounts with
    ⟨k₁, hunref, hok₁, hsame, hpages₁⟩ | ⟨err, hfault, hunref⟩
  · rw [hunref]
    have hublk₁ : kimaLookupUblk k₁.pool ptr = some ublk := by
      rw [kimaLookupUblk, hsame]
      exact hublk
    rcases kimaFreeUblk_spec hok₁ hublk₁ with ⟨k', hfree, hok, hpages, hlive'⟩ | hfault
    · rw [live_of_slots_eq hsame] at hlive'
      refine .inl ⟨k', hfree, h.erase hok hlive hlive' fun q => ?_⟩
      rw [hpages, hpages₁]
      simp only [h.mem_freed hlive]
    · exact .inr hfault
  · rw [hunref]
    exact .inr ⟨err, hfault, rfl⟩

/-! ## Runs -/

/-- A call that returns, with legal arguments that leave room. -/
def RoomyStep (V : Vm σ) (L : Layout) (k : Kima σ) (c : KimaCall) (k' : Kima σ) : Prop :=
  c.Legal ∧ Roomy L k.pool c ∧ ∃ r, exec wrapAdd V L k c = .ok (r, k')

/-- **One step keeps blocks, pages and counts in order.** -/
theorem RoomyStep.sound (hV : V.Contract L) (hS : V.InSpace) (hstep : RoomyStep V L k c k')
    (h : Sound L k.pool) : Sound L k'.pool := by
  obtain ⟨hlegal, hroomy, r, hrun⟩ := hstep
  cases c with
  | alloc size al => exact h.alloc hV hS hlegal hroomy hrun
  | free ptr =>
    obtain ⟨k₁, hfree, hrun⟩ := of_bind hrun
    cases hrun
    obtain ⟨ublk, stop, k₂, hublk, -⟩ := kimaFree_cases hfree
    have hlive : k.pool.live.find ptr = some _ := find_view_isSome hublk
    rcases h.free hlive with ⟨k₃, hfree', hsound⟩ | ⟨err, -, hfree'⟩
    · obtain rfl : k₃ = k' := by simpa using hfree'.symm.trans hfree
      exact hsound
    · cases hfree'.symm.trans hfree

/-- **Every live block lies in described pages and every count is the number of blocks in the
page**, in every run from an empty pool whose calls leave room; and `kima_free` of a live block only
fails where `kima_vpgfree` does, so it never misses a descriptor. -/
theorem backed_of_run (hV : V.Contract L) (hS : V.InSpace) {e : σ} {cs : List KimaCall}
    (h : Run (RoomyStep V L) ⟨kiInitKimaPool, e⟩ cs k') :
    Backed L k'.pool ∧ Counted L k'.pool ∧ ∀ ptr n, k'.pool.live.find ptr = some n →
        ∀ err, kimaFree wrapAdd V L k' ptr = .error err → V.FreeFault err := by
  have hsound := h.invariant
    (fun _ _ _ hI hs => hs.sound hV hS hI) (sound_kiInitKimaPool L)
  refine ⟨hsound.backed, hsound.counted, fun ptr n hptr err herr => ?_⟩
  rcases hsound.free hptr with ⟨k'', hok, -⟩ | ⟨err', hfault, herr'⟩
  · exact nomatch hok.symm.trans herr
  · cases herr'.symm.trans herr
    exact hfault

/-! ## Alignments that divide

An alignment that divides the page size and the size asked for always leaves room. -/

/-- Sizes and alignments that leave room in every pool. -/
def KimaCall.Divides (L : Layout) : KimaCall → Prop
  | .alloc size al => size + al + L.pageSize ≤ 2 ^ 64 ∧ al ∣ L.pageSize ∧ al ∣ size
  | .free _ => True

instance (L : Layout) : DecidablePred (KimaCall.Divides L)
  | .alloc size al =>
    inferInstanceAs (Decidable (size + al + L.pageSize ≤ 2 ^ 64 ∧ al ∣ L.pageSize ∧ al ∣ size))
  | .free _ => inferInstanceAs (Decidable True)

theorem Sound.roomy (h : Sound L p) (hlegal : c.Legal) (hc : c.Divides L) :
    Roomy L p c := by
  cases c with
  | free ptr => trivial
  | alloc size al =>
    obtain ⟨hsize, -, a, -, rfl⟩ := hlegal
    obtain ⟨hfits, hpage, hdvd⟩ := hc
    refine ⟨hfits, fun base r hbase c _ hle => roundUp_le (Nat.two_pow_pos a) hle ?_⟩
    obtain ⟨had, hale, -⟩ := ceilAlignTo_spec L.pageSize_pos (by omega : size + L.pageSize ≤ 2 ^ 64)
    exact Nat.dvd_add (hpage.trans (h.page base r hbase).1) (Nat.dvd_sub (hpage.trans had) hdvd)

/-- **Calls with such arguments are a run with room.** -/
theorem roomyRun_of_execs (hV : V.Contract L) (hS : V.InSpace) {cs : List KimaCall} {rs : List ℕ}
    (h : Sound L k.pool) (hcs : ∀ c ∈ cs, c.Legal ∧ c.Divides L)
    (hrun : execs wrapAdd V L k cs = .ok (rs, k')) : Run (RoomyStep V L) k cs k' := by
  refine run_of_execs (I := fun k => Sound L k.pool) (fun c hc k r k' h hexec => ?_) h hrun
  obtain ⟨hlegal, hdiv⟩ := hcs c hc
  have hstep : RoomyStep V L k c k' := ⟨hlegal, h.roomy hlegal hdiv, r, hexec⟩
  exact ⟨hstep, hstep.sound hV hS h⟩

theorem growingVm_inSpace (L : Layout) : (growingVm L).InSpace := fun _ _ _ _ _ h h0 =>
  (growingVm_vpgalloc h h0).2

/-- Two blocks in one page that counts them both. -/
theorem backed_fourCalls : ∃ rs k, execs wrapAdd (growingVm (pages4k 3)) (pages4k 3)
    ⟨kiInitKimaPool, ()⟩ fourCalls = .ok (rs, k) ∧ k.pool.pages.find 12288 = some 2 ∧
    Backed (pages4k 3) k.pool ∧ Counted (pages4k 3) k.pool := by
  obtain ⟨rs, k, hrun, hpage⟩ : ∃ rs k, execs wrapAdd (growingVm (pages4k 3)) (pages4k 3)
      ⟨kiInitKimaPool, ()⟩ fourCalls = .ok (rs, k) ∧ k.pool.pages.find 12288 = some 2 := by
    decide +kernel
  obtain ⟨hbacked, hcounted, -⟩ := backed_of_run (growingVm_contract _) (growingVm_inSpace _)
    (roomyRun_of_execs (growingVm_contract _) (growingVm_inSpace _) (sound_kiInitKimaPool _)
      (by decide) hrun)
  exact ⟨rs, k, hrun, hpage, hbacked, hcounted⟩

/-! ## What goes wrong without room -/

/-- A byte, and a byte at a multiple of two pages. -/
def twoBytes : List KimaCall := [.alloc 1 1, .alloc 1 8192]

set_option maxRecDepth 10000 in
/-- Aligning the second byte moves it out of the only described page, whose count it raises all the
same; giving it back fails the assertion on the missing descriptor. -/
theorem kimaAlloc_leaves_area : ∃ rs k,
    execs wrapAdd (growingVm (pages4k 83)) (pages4k 83) ⟨kiInitKimaPool, ()⟩ twoBytes =
      .ok (rs, k) ∧
    ¬ Backed (pages4k 83) k.pool ∧ ¬ Counted (pages4k 83) k.pool ∧
    kimaFree wrapAdd (growingVm (pages4k 83)) (pages4k 83) k 16384 =
      .error (.assertion "kernel/mm/kima/malloc.cc" 338) := by
  obtain ⟨rs, k, hrun, hblock, hpage, habsent, hmeets, hfree⟩ : ∃ rs k,
      execs wrapAdd (growingVm (pages4k 83)) (pages4k 83) ⟨kiInitKimaPool, ()⟩ twoBytes =
        .ok (rs, k) ∧ k.pool.live.find 16384 = some 1 ∧ k.pool.pages.find 12288 = some 2 ∧
      k.pool.pages.find (floorAlignTo 16384 (pages4k 83).pageSize) = none ∧
      Blocks.meets k.pool.live 12288 (pages4k 83).pageSize = 1 ∧
      (kimaFree wrapAdd (growingVm (pages4k 83)) (pages4k 83) k 16384).map (fun _ => ()) =
        .error (.assertion "kernel/mm/kima/malloc.cc" 338) := by decide +kernel
  refine ⟨rs, k, hrun, fun hbacked => ?_, fun hcounted => ?_, map_eq_error_iff.mp hfree⟩
  · obtain ⟨r, hr⟩ := hbacked 16384 1 hblock 16384 le_rfl (by decide)
    cases habsent.symm.trans hr
  · cases (hcounted 12288 2 hpage).trans hmeets

end Pbos.Mm
