import Pbos.Hal.Vm

/-!
# Hal/TmpmapPost — temporary windows, one area for each CPU

`hn_tmpmap_post` looks for slots of the area that are free, fills their PTEs and returns the address
of the first; `hn_tmpunmap_post` gives the slots back.  Whether a slot is free is written into the
mask of its PTE, and the three places do not agree on how: the search takes a mask without any bit
besides `PTE_P` for free, unmapping leaves `PTE_P`, and filling asserts that `PTE_P` is clear.  The
slots that are filled are counted from the last one found, not from the first.

`tmpmapPost_conforms_iff` says which sequences of calls still do what they should: those of single
pages that never give one back.  The model is that of a build with assertions.
-/

namespace Pbos.Hal

open Function List

def KINITTMPMAP_SIZE : ℕ := 0x00100000

/-- `hn_tmpmap_info_t` of the CPU, and the end of `mm_kernel_init_tmpmap_area`. -/
structure TmpmapInfo where
  tmpmapBase : ℕ
  areaEnd : ℕ
  base_pos : 0 < tmpmapBase
  base_dvd : 4096 ∣ tmpmapBase

/-- The PTEs from `tmpmap_pgtab_base` on. -/
abbrev Slots := ℕ → Entry

/-- `pte->mask & ~PTE_P`. -/
def Entry.taken (e : Entry) : Bool := e.mask &&& ~~~PTE_P.setWidth 12 != 0

/-- `pte->mask = mask; pte->address = PGROUNDDOWN(paddr)`. -/
def Entry.aim (e : Entry) (mask : BitVec 16) (paddr : ℕ) : Entry :=
  { e with mask := mask.setWidth 12, address := pgRoundDown paddr }

/-! ## The functions -/

/-- The state of the search: `vaddr`, `0` for null, `sz_found` and `idx_found_area`. -/
structure SlotSearch where
  vaddr : ℕ
  szFound : ℕ
  idxFoundArea : ℕ

variable (I : TmpmapInfo)

/-- One turn of the search, at the slot `k`. -/
def searchSlot (t : Slots) (size k : ℕ) (f : SlotSearch) : Except Fault (Turn SlotSearch) :=
  let ptt_vaddr := I.tmpmapBase + 4096 * k
  if size ≤ f.szFound then .ok (.ret f)
  else if I.areaEnd < ptt_vaddr then .ok (.brk f)
  else if (t k).taken then .ok (.next { f with vaddr := 0, szFound := 0 })
  else .ok (.next
    { vaddr := if f.vaddr = 0 then ptt_vaddr else f.vaddr
      szFound := f.szFound + 4096
      idxFoundArea := 4096 * k })

/-- The loop that fills the slots from `idx` on; `j` counts the pages. -/
def fillSlots (idx paddr : ℕ) (mask : BitVec 16) : ℕ → ℕ → Slots → Except Fault Slots
  | 0, _, t => .ok t
  | n + 1, j, t => do
    kdAssert ((t (idx + j)).present = false) "hal/x86_64/mm/vmmgr/vm.cc" 1250
    fillSlots idx paddr mask n (j + 1)
      (update t (idx + j) ((t (idx + j)).aim mask (paddr + 4096 * j)))

/-- `hn_tmpmap_post`.  `idx_found_area` is read only where the search has set it. -/
def hnTmpmapPost (paddr size : ℕ) (mask : BitVec 16) (t : Slots) : Except Fault (ℕ × Slots) :=
  if KINITTMPMAP_SIZE < size then
    .error (.panic "Size of space to map is bigger than the size of KINITTMPMAP area" [])
  else if paddr % 4096 ≠ 0 then .error (.panic "Address for hn_tmpmap must be page-aligned" [])
  else if size % 4096 ≠ 0 then .error (.panic "Size for hn_tmpmap must be page-aligned" [])
  else if mask &&& PTE_P = 0 then .error (.panic "PTE_P must be set for hn_tmpmap" [])
  else do
    match ← forLoop (searchSlot I t size) ((KINITTMPMAP_SIZE - size) / 4096) 0 ⟨0, 0, 0⟩ with
    | .done _ _ => .error (.panic "Out of TMPMAP virtual memory" [])
    | .ret f => (fillSlots (f.idxFoundArea / 4096) paddr mask (size / 4096) 0 t).map (f.vaddr, ·)

/-- The loop of `hn_tmpunmap_post`. -/
def clearSlots (vaddr : ℕ) : ℕ → ℕ → Slots → Except Fault Slots
  | 0, _, t => .ok t
  | n + 1, j, t =>
    if I.areaEnd < vaddr + 4096 * j then .ok t
    else do
      let k := (vaddr - I.tmpmapBase) / 4096 + j
      kdAssert ((t k).present = true) "hal/x86_64/mm/vmmgr/vm.cc" 1278
      clearSlots vaddr n (j + 1) (update t k { t k with mask := PTE_P.setWidth 12 })

/-- `hn_tmpunmap_post`. -/
def hnTmpunmapPost (vaddr size : ℕ) (t : Slots) : Except Fault Slots :=
  if vaddr % 4096 ≠ 0 then .error (.panic "Address for hn_tmpunmap must be page-aligned" [])
  else clearSlots I vaddr ((size + 4095) / 4096) 0 t

/-! ## Sequences of calls -/

/-- A window that `hn_tmpmap_post` returned, and what it was asked to show. -/
structure Window where
  vaddr : ℕ
  size : ℕ
  paddr : ℕ
  deriving DecidableEq, Repr

/-- The PTEs, the windows that are mapped, and those that were unmapped. -/
structure TmpState where
  slots : Slots
  live : List Window
  freed : List Window

inductive TmpCall
  | map (paddr size : ℕ) (mask : BitVec 16)
  | unmap (w : Window)
  deriving DecidableEq, Repr

namespace TmpCall

/-- The size of the window a call is about. -/
def size : TmpCall → ℕ
  | map _ size _ => size
  | unmap w => w.size

def run : TmpCall → TmpState → Except Fault TmpState
  | map paddr size mask, s => (hnTmpmapPost I paddr size mask s.slots).map fun r =>
    { s with slots := r.2, live := ⟨r.1, size, paddr⟩ :: s.live }
  | unmap w, s => (hnTmpunmapPost I w.vaddr w.size s.slots).map fun t =>
    { slots := t, live := s.live.erase w, freed := w :: s.freed }

/-- What the callers of the functions have to see to. -/
def Legal (s : TmpState) : TmpCall → Prop
  | map paddr size mask => paddr % 4096 = 0 ∧ size % 4096 = 0 ∧ mask &&& PTE_P ≠ 0
  | unmap w => w ∈ s.live

end TmpCall

/-- A sequence of calls. -/
def tmpRuns (cs : List TmpCall) (s : TmpState) : Except Fault TmpState :=
  cs.foldlM (fun s c => c.run I s) s

/-- Every call is legal when it is made. -/
def LegalRun (cs : List TmpCall) (s : TmpState) : Prop :=
  ∀ cs₁ c cs₂ s', cs = cs₁ ++ c :: cs₂ → tmpRuns I cs₁ s = .ok s' → c.Legal s'

/-- Two windows have no byte in common. -/
def Window.Apart (w w' : Window) : Prop :=
  ∀ x, w.vaddr ≤ x → x < w.vaddr + w.size → w'.vaddr ≤ x → ¬ x < w'.vaddr + w'.size

/-- The PTE of a page of a window. -/
def Window.pte (t : Slots) (w : Window) (j : ℕ) : Entry := t ((w.vaddr - I.tmpmapBase) / 4096 + j)

/-- **What has to hold between two calls.** -/
structure TmpState.Good (s : TmpState) : Prop where
  disjoint : s.live.Pairwise Window.Apart
  inside : ∀ w ∈ s.live, 0 < w.size →
    I.tmpmapBase ≤ w.vaddr ∧ w.vaddr + w.size ≤ I.tmpmapBase + KINITTMPMAP_SIZE
  translates : ∀ w ∈ s.live, ∀ j, 4096 * j < w.size →
    (w.pte I s.slots j).present = true ∧
      (w.pte I s.slots j).address = pgRoundDown (w.paddr + 4096 * j)
  reusable : ∀ w ∈ s.freed, 0 < w.size → (∀ w' ∈ s.live, w.Apart w') →
    ∃ cs s', (∀ c ∈ cs, ∃ paddr size mask, c = .map paddr size mask) ∧ tmpRuns I cs s = .ok s' ∧
      ∃ paddr, ⟨w.vaddr, w.size, paddr⟩ ∈ s'.live

/-- **The calls conform**: no assertion fails, and the state is good after each of them. -/
def TmpConforms (cs : List TmpCall) (s : TmpState) : Prop :=
  ∀ cs₁, cs₁ <+: cs → ∃ s', tmpRuns I cs₁ s = .ok s' ∧ s'.Good I

/-! ## What a call does -/

section Search

variable {I} {t t' : Slots} {q n : ℕ} {f : SlotSearch}

/-- **The search for `q` pages, before the slot `y`**: nothing is found, or the slots from `k` to
`y` are free.  If one page is asked for, no slot before is. -/
def SearchInv (I : TmpmapInfo) (t : Slots) (q y : ℕ) (f : SlotSearch) : Prop :=
  (f.vaddr = 0 ∧ f.szFound = 0 ∧ (q = 1 → ∀ i < y, (t i).taken = true)) ∨
  ∃ k m, 0 < m ∧ k + m = y ∧ m ≤ q ∧
    f = ⟨I.tmpmapBase + 4096 * k, 4096 * m, 4096 * (y - 1)⟩ ∧
    (∀ i, k ≤ i → i < y → (t i).taken = false) ∧ (q = 1 → ∀ i < k, (t i).taken = true)

theorem SearchInv.next {y : ℕ} {f' : SlotSearch} (hq : 0 < q) (h : SearchInv I t q y f)
    (hb : searchSlot I t (4096 * q) y f = .ok (.next f')) : SearchInv I t q (y + 1) f' := by
  have hbase := I.base_pos
  rw [searchSlot] at hb
  by_cases hfound : 4096 * q ≤ f.szFound
  · rw [if_pos hfound] at hb
    cases hb
  rw [if_neg hfound] at hb
  by_cases hend : I.areaEnd < I.tmpmapBase + 4096 * y
  · rw [if_pos hend] at hb
    cases hb
  rw [if_neg hend] at hb
  by_cases htaken : (t y).taken = true
  · rw [if_pos htaken] at hb
    obtain rfl := Turn.next.inj (Except.ok.inj hb)
    refine .inl ⟨rfl, rfl, fun hq1 i hi => ?_⟩
    obtain ⟨-, -, hall⟩ | ⟨k, m, hm, -, -, rfl, -, -⟩ := h
    · obtain hi | rfl := Nat.lt_succ_iff_lt_or_eq.mp hi
      · exact hall hq1 i hi
      · exact htaken
    · change ¬ 4096 * q ≤ 4096 * m at hfound
      omega
  · rw [if_neg htaken] at hb
    obtain rfl := Turn.next.inj (Except.ok.inj hb)
    have hfree : (t y).taken = false := by simpa using htaken
    right
    obtain ⟨hv, hz, hall⟩ | ⟨k, m, hm, hkm, hmq, rfl, hslots, hall⟩ := h
    · refine ⟨y, 1, Nat.one_pos, rfl, hq, ?_, fun i hi hi' => ?_, hall⟩
      · simp [hv, hz]
      · rwa [show i = y by omega]
    · change ¬ 4096 * q ≤ 4096 * m at hfound
      refine ⟨k, m + 1, Nat.succ_pos m, by omega, by omega, ?_, fun i hi hi' => ?_, hall⟩
      · rw [if_neg (show I.tmpmapBase + 4096 * k ≠ 0 by omega)]
        simp [Nat.mul_succ]
      · obtain hi' | rfl := Nat.lt_succ_iff_lt_or_eq.mp hi'
        · exact hslots i hi hi'
        · exact hfree

/-- **What the search has found.** -/
theorem search_spec (hq : 0 < q)
    (h : forLoop (searchSlot I t (4096 * q)) n 0 ⟨0, 0, 0⟩ = .ok (.ret f)) :
    ∃ k, k + q < n ∧ f = ⟨I.tmpmapBase + 4096 * k, 4096 * q, 4096 * (k + q - 1)⟩ ∧
      (∀ i, k ≤ i → i < k + q → (t i).taken = false) ∧ (q = 1 → ∀ i < k, (t i).taken = true) := by
  have hrule := forLoop_holds (I := SearchInv I t q) (R := fun f =>
      ∃ k, k + q < n ∧ f = ⟨I.tmpmapBase + 4096 * k, 4096 * q, 4096 * (k + q - 1)⟩ ∧
        (∀ i, k ≤ i → i < k + q → (t i).taken = false) ∧ (q = 1 → ∀ i < k, (t i).taken = true))
    (fun y f f' _ _ hI hb => hI.next hq hb) (fun _ _ _ _ _ _ _ => trivial) ?_
    (fun _ _ => trivial) (.inl ⟨rfl, rfl, fun _ i hi => absurd hi (Nat.not_lt_zero i)⟩) h
  · exact hrule
  · intro y f f' _ hy hI hb
    rw [searchSlot] at hb
    by_cases hfound : 4096 * q ≤ f.szFound
    · rw [if_pos hfound] at hb
      obtain rfl := Turn.ret.inj (Except.ok.inj hb)
      obtain ⟨-, hz, -⟩ | ⟨k, m, -, hkm, hmq, rfl, hslots, hall⟩ := hI
      · omega
      · change 4096 * q ≤ 4096 * m at hfound
        obtain rfl : m = q := by omega
        subst hkm
        exact ⟨k, by omega, rfl, hslots, hall⟩
    · rw [if_neg hfound] at hb
      split at hb
      · cases hb
      · split at hb <;> cases hb

end Search

section Fill

variable {idx paddr n j : ℕ} {mask : BitVec 16} {t t' : Slots}

/-- **Filling touches slots that were absent**, and gives the page `i` the frame at that
distance. -/
theorem fillSlots_spec (h : fillSlots idx paddr mask n j t = .ok t') (k : ℕ) :
    (idx + j ≤ k ∧ k < idx + j + n ∧ (t k).present = false ∧
      t' k = (t k).aim mask (paddr + 4096 * (k - idx))) ∨
    (¬ (idx + j ≤ k ∧ k < idx + j + n) ∧ t' k = t k) := by
  induction n generalizing j t with
  | zero =>
    cases h
    exact .inr ⟨by omega, rfl⟩
  | succ n ih =>
    obtain ⟨_, hassert, h⟩ := of_bind h
    rw [kdAssert_eq_ok_iff] at hassert
    obtain ⟨hle, hlt, hpres, hk⟩ | ⟨hout, hk⟩ := ih h
    · rw [update_of_ne (show k ≠ idx + j by omega)] at hpres hk
      exact .inl ⟨by omega, by omega, hpres, hk⟩
    · by_cases hkj : k = idx + j
      · subst hkj
        rw [update_self] at hk
        refine .inl ⟨le_rfl, by omega, hassert, ?_⟩
        rw [hk, Nat.add_sub_cancel_left]
      · rw [update_of_ne hkj] at hk
        exact .inr ⟨by omega, hk⟩

end Fill

section Calls

variable {I} {paddr q k : ℕ} {mask : BitVec 16} {t t' : Slots}

/-- `hn_tmpmap_post` behind its checks. -/
theorem hnTmpmapPost_eq {size : ℕ} (hsize : size ≤ KINITTMPMAP_SIZE) (hp : paddr % 4096 = 0)
    (hs : size % 4096 = 0) (hm : mask &&& PTE_P ≠ 0) : hnTmpmapPost I paddr size mask t =
    forLoop (searchSlot I t size) ((KINITTMPMAP_SIZE - size) / 4096) 0 ⟨0, 0, 0⟩ >>= fun
      | .done _ _ => .error (.panic "Out of TMPMAP virtual memory" [])
      | .ret f =>
        (fillSlots (f.idxFoundArea / 4096) paddr mask (size / 4096) 0 t).map (f.vaddr, ·) := by
  rw [hnTmpmapPost, if_neg (not_lt.mpr hsize), if_neg (not_not.mpr hp), if_neg (not_not.mpr hs),
    if_neg hm]

/-- **A window of `q` pages**: the slots found, and those that are filled. -/
theorem hnTmpmapPost_spec {v size : ℕ} (hq : 0 < q) (hsize : size = 4096 * q)
    (h : hnTmpmapPost I paddr size mask t = .ok (v, t')) :
    ∃ k, k + q < 256 ∧ v = I.tmpmapBase + 4096 * k ∧
      (q = 1 → (t k).taken = false ∧ ∀ i < k, (t i).taken = true) ∧
      fillSlots (k + q - 1) paddr mask q 0 t = .ok t' := by
  subst hsize
  unfold hnTmpmapPost at h
  iterate 4
    split at h
    · cases h
  obtain ⟨r, hr, h⟩ := of_bind h
  cases r with
  | done x f => cases h
  | ret f =>
    obtain ⟨k, hk, rfl, hfree, hfirst⟩ := search_spec hq hr
    obtain ⟨t'', hfill, hv⟩ := map_eq_ok_iff.mp h
    cases hv
    rw [Nat.mul_div_cancel_left _ (by decide), Nat.mul_div_cancel_left _ (by decide)] at hfill
    refine ⟨k, ?_, rfl, fun hq1 => ⟨hfree k le_rfl (by omega), hfirst hq1⟩, hfill⟩
    have hN : KINITTMPMAP_SIZE = 4096 * 256 := rfl
    omega

/-- The first slot that looks free is absent: it is handed out, unless the area counts as full. -/
theorem hnTmpmapPost_one (hp : paddr % 4096 = 0) (hm : mask &&& PTE_P ≠ 0)
    (hbelow : ∀ i < k, (t i).taken = true) (hfree : (t k).taken = false)
    (habsent : (t k).present = false) :
    hnTmpmapPost I paddr 4096 mask t =
        .ok (I.tmpmapBase + 4096 * k, update t k ((t k).aim mask paddr)) ∨
      ∃ msg args, hnTmpmapPost I paddr 4096 mask t = .error (.panic msg args) := by
  have hturn (y : ℕ) (f : SlotSearch) : ∃ fl, searchSlot I t 4096 y f = .ok fl := by
    rw [searchSlot]
    repeat' split
    all_goals exact ⟨_, rfl⟩
  obtain ⟨r, hr⟩ := forLoop_total hturn ((KINITTMPMAP_SIZE - 4096) / 4096) 0 ⟨0, 0, 0⟩
  rw [hnTmpmapPost_eq (by decide) hp rfl hm, hr]
  cases r with
  | done x f => exact .inr ⟨_, _, rfl⟩
  | ret f =>
    obtain ⟨k', -, rfl, hfree', hfirst⟩ := search_spec Nat.one_pos hr
    obtain rfl : k' = k := by
      obtain hlt | heq | hgt := lt_trichotomy k' k
      · exact absurd (hbelow k' hlt) (by simp [hfree' k' le_rfl (by omega)])
      · exact heq
      · exact absurd (hfirst rfl k hgt) (by simp [hfree])
    left
    change (fillSlots (4096 * (k' + 1 - 1) / 4096) paddr mask 1 0 t).map _ = _
    rw [Nat.add_sub_cancel, Nat.mul_div_cancel_left _ (by decide), fillSlots,
      Nat.add_zero, kdAssert_of_pos habsent]
    rfl

/-- What is present stays present. -/
theorem hnTmpunmapPost_present {v size : ℕ} (h : hnTmpunmapPost I v size t = .ok t')
    (hk : (t k).present = true) : (t' k).present = true := by
  have hclear : ∀ {n j : ℕ} {t : Slots}, clearSlots I v n j t = .ok t' → (t k).present = true →
      (t' k).present = true := by
    intro n
    induction n with
    | zero =>
      intro j t h hk
      exact Except.ok.inj h ▸ hk
    | succ n ih =>
      intro j t h hk
      rw [clearSlots] at h
      split at h
      · exact Except.ok.inj h ▸ hk
      · obtain ⟨_, -, h⟩ := of_bind h
        refine ih h ?_
        rw [update_apply]
        split
        · simp only [Entry.present, Entry.has]
          decide
        · exact hk
  unfold hnTmpunmapPost at h
  split at h
  · cases h
  · exact hclear h hk

end Calls

/-! ## Slots that were given back -/

section Stale

variable {I} {k : ℕ} {s s' : TmpState}

/-- **A slot that was given back is not handed out again**: it is present, so nothing fills it. -/
theorem stale_keeps {cs : List TmpCall}
    (hmaps : ∀ c ∈ cs, ∃ paddr size mask, c = .map paddr size mask)
    (hk : (s.slots k).present = true)
    (hlive : ∀ paddr, ⟨I.tmpmapBase + 4096 * k, 4096, paddr⟩ ∉ s.live)
    (h : tmpRuns I cs s = .ok s') (paddr : ℕ) :
    ⟨I.tmpmapBase + 4096 * k, 4096, paddr⟩ ∉ s'.live := by
  induction cs generalizing s with
  | nil => exact Except.ok.inj h ▸ hlive paddr
  | cons c cs ih =>
    obtain ⟨s₁, h₁, h⟩ := of_bind h
    obtain ⟨p, size, mask, rfl⟩ := hmaps c mem_cons_self
    obtain ⟨⟨v, t⟩, hmap, rfl⟩ := map_eq_ok_iff.mp h₁
    have hkeep : t k = s.slots k := by
      unfold hnTmpmapPost at hmap
      iterate 4
        split at hmap
        · cases hmap
      obtain ⟨r, hr, hmap⟩ := of_bind hmap
      cases r with
      | done x f => cases hmap
      | ret f =>
        obtain ⟨t'', hfill, hv⟩ := map_eq_ok_iff.mp hmap
        cases hv
        obtain ⟨-, -, habsent, -⟩ | ⟨-, hkeep⟩ := fillSlots_spec hfill k
        · rw [hk] at habsent
          cases habsent
        · exact hkeep
    have hk' : (t k).present = true := by rw [hkeep]; exact hk
    refine ih (fun c hc => hmaps c (mem_cons_of_mem _ hc)) hk' (fun paddr hmem => ?_) h
    obtain heq | hmem := mem_cons.mp hmem
    · obtain ⟨hv, hsize, -⟩ := Window.mk.inj heq
      obtain ⟨k', -, hv', -, hfill⟩ := hnTmpmapPost_spec Nat.one_pos hsize.symm hmap
      obtain rfl : k' = k := by
        omega
      obtain ⟨-, -, habsent, -⟩ | ⟨hout, -⟩ := fillSlots_spec hfill k'
      · rw [hk] at habsent
        cases habsent
      · omega
    · exact hlive paddr hmem

end Stale

/-! ## Which sequences conform -/

/-- The calls that are about a window with pages. -/
def withPages (cs : List TmpCall) : List TmpCall := cs.filter fun c => c.size ≠ 0

/-- The mask marks a slot as taken. -/
def TmpCall.marks : TmpCall → Prop
  | map _ _ mask => (⟨mask.setWidth 12, 0, false⟩ : Entry).taken = true
  | unmap _ => False

/-- **Single pages, none of them given back**: each for a slot that was never present, and all but
the last with a mask that marks it. -/
structure SinglePages (t : Slots) (cs : List TmpCall) : Prop where
  onePage : ∀ c ∈ withPages cs, ∃ paddr mask, c = .map paddr 4096 mask
  marked : ∀ c ∈ (withPages cs).dropLast, c.marks
  absent : ∀ k < (withPages cs).length, (t k).present = false

/-- The state after such a sequence: the windows take the first slots, one each. -/
structure HandedOut (I : TmpmapInfo) (t : Slots) (cs : List TmpCall) (s : TmpState) : Prop where
  filled : ∀ k, s.slots k = match (withPages cs)[k]? with
    | some (.map paddr _ mask) => (t k).aim mask paddr
    | _ => t k
  live : ∀ w ∈ s.live, w.vaddr = 0 ∧ w.size = 0 ∨ ∃ k < (withPages cs).length,
    w.vaddr = I.tmpmapBase + 4096 * k ∧ w.size = 4096 ∧
      (s.slots k).address = pgRoundDown w.paddr
  apart : s.live.Pairwise fun w w' => w.size = 0 ∨ w'.size = 0 ∨ w.vaddr ≠ w'.vaddr
  freed : ∀ w ∈ s.freed, w.size = 0
  present : ∀ k < (withPages cs).length, (s.slots k).present = true
  room : (withPages cs).length ≤ 255

section Conforms

variable {I} {t : Slots} {cs : List TmpCall} {c : TmpCall} {s s' : TmpState} {mask : BitVec 16}
  {k paddr : ℕ}

theorem withPages_concat : withPages (cs ++ [c]) =
    if c.size = 0 then withPages cs else withPages cs ++ [c] := by
  rw [withPages, withPages]
  by_cases h : c.size = 0 <;> simp [h]

theorem tmpRuns_concat : tmpRuns I (cs ++ [c]) s = tmpRuns I cs s >>= c.run I := by
  rw [tmpRuns, List.foldlM_append]
  refine congrArg _ (funext fun s' => ?_)
  rw [List.foldlM_cons]
  cases c.run I s' <;> rfl

theorem tmpConforms_concat : TmpConforms I (cs ++ [c]) s ↔
    TmpConforms I cs s ∧ ∃ s', tmpRuns I (cs ++ [c]) s = .ok s' ∧ s'.Good I := by
  constructor
  · intro h
    exact ⟨fun cs₁ hcs₁ => h cs₁ (hcs₁.trans (prefix_append _ _)), h _ prefix_rfl⟩
  · rintro ⟨hcs, hlast⟩ cs₁ hcs₁
    obtain rfl | hcs₁ := prefix_concat_iff.mp hcs₁
    · exact hlast
    · exact hcs cs₁ hcs₁

/-- A mask with `PTE_P` makes an entry present. -/
theorem present_of_mask (h : mask &&& PTE_P ≠ 0) {e : Entry} (he : e.mask = mask.setWidth 12) :
    e.present = true := by
  have hbit {b : BitVec 16} : b &&& PTE_P = BitVec.ofNat 16 (b.toNat % 2) := by
    refine BitVec.eq_of_toNat_eq ?_
    change b.toNat &&& 1 = _
    rw [Nat.and_one_is_mod, BitVec.toNat_ofNat]
    omega
  have hlow : ((mask.setWidth 12).setWidth 16).toNat % 2 = mask.toNat % 2 := by
    simp only [BitVec.toNat_setWidth]
    omega
  rw [Entry.present, Entry.has, he, bne_iff_ne, hbit, hlow, ← hbit]
  exact h

section

variable (h : HandedOut I t cs s)

include h

/-- **Windows of single slots are as they should be.** -/
theorem HandedOut.good : s.Good I where
  disjoint := by
    refine h.apart.imp_of_mem fun {w w'} hw hw' hne x hx1 hx2 hx3 hx4 => ?_
    obtain ⟨-, hz⟩ | ⟨k, -, hv, hz, -⟩ := h.live w hw
    · omega
    obtain ⟨-, hz'⟩ | ⟨k', -, hv', hz', -⟩ := h.live w' hw'
    · omega
    obtain hne | hne | hne := hne <;> omega
  inside w hw hpos := by
    obtain ⟨-, hz⟩ | ⟨k, hk, hv, hz, -⟩ := h.live w hw
    · omega
    have := h.room
    have hN : KINITTMPMAP_SIZE = 4096 * 256 := rfl
    omega
  translates w hw j hj := by
    obtain ⟨-, hz⟩ | ⟨k, hk, hv, hz, ha⟩ := h.live w hw
    · omega
    obtain rfl : j = 0 := by omega
    have hslot : w.pte I s.slots 0 = s.slots k := by
      rw [Window.pte, hv, Nat.add_sub_cancel_left, Nat.mul_div_cancel_left _ (by decide),
        Nat.add_zero]
    rw [hslot]
    exact ⟨h.present k hk, ha⟩
  reusable w hw hpos := absurd (h.freed w hw) (by omega)

/-- The slots behind those that are handed out. -/
theorem HandedOut.rest (hk : (withPages cs).length ≤ k) : s.slots k = t k := by
  rw [h.filled k, List.getElem?_eq_none hk]

theorem HandedOut.slot {size : ℕ} (hk : (withPages cs)[k]? = some (.map paddr size mask)) :
    s.slots k = (t k).aim mask paddr := by
  rw [h.filled k, hk]

/-- A call about an empty window changes nothing. -/
theorem HandedOut.empty (hlegal : c.Legal s) (hc : c.size = 0) :
    ∃ s', c.run I s = .ok s' ∧ HandedOut I t (cs ++ [c]) s' := by
  have hpages : withPages (cs ++ [c]) = withPages cs := by rw [withPages_concat, if_pos hc]
  cases c with
  | map paddr size mask =>
    obtain rfl : size = 0 := hc
    refine ⟨{ s with live := ⟨0, 0, paddr⟩ :: s.live }, ?_, ?_⟩
    · have hzero : hnTmpmapPost I paddr 0 mask s.slots = .ok (0, s.slots) := by
        rw [hnTmpmapPost_eq (Nat.zero_le _) hlegal.1 rfl hlegal.2.2]
        rfl
      rw [TmpCall.run, hzero]
      rfl
    · refine ⟨hpages ▸ h.filled, ?_, ?_, h.freed, hpages ▸ h.present, hpages ▸ h.room⟩
      · rw [hpages]
        exact forall_mem_cons.mpr ⟨.inl ⟨rfl, rfl⟩, h.live⟩
      · exact pairwise_cons.mpr ⟨fun w _ => .inl rfl, h.apart⟩
  | unmap w =>
    have hw : w ∈ s.live := hlegal
    have hsize : w.size = 0 := hc
    have hv : w.vaddr = 0 := by
      obtain ⟨hv, -⟩ | ⟨k, -, -, hz, -⟩ := h.live w hw
      · exact hv
      · omega
    refine ⟨{ s with live := s.live.erase w, freed := w :: s.freed }, ?_, ?_⟩
    · rw [TmpCall.run, hv, hsize]
      rfl
    · refine ⟨hpages ▸ h.filled, ?_, h.apart.sublist erase_sublist, ?_, hpages ▸ h.present,
        hpages ▸ h.room⟩
      · rw [hpages]
        exact fun w' hw' => h.live w' (mem_of_mem_erase hw')
      · exact forall_mem_cons.mpr ⟨hsize, h.freed⟩

/-- One more page, in the next slot. -/
theorem HandedOut.page (hm : mask &&& PTE_P ≠ 0) (hroom : (withPages cs).length + 1 < 256)
    (hslots : s'.slots = update s.slots (withPages cs).length
      ((s.slots (withPages cs).length).aim mask paddr))
    (hlive : s'.live = ⟨I.tmpmapBase + 4096 * (withPages cs).length, 4096, paddr⟩ :: s.live)
    (hfreed : s'.freed = s.freed) : HandedOut I t (cs ++ [.map paddr 4096 mask]) s' := by
  have hpages :
      withPages (cs ++ [.map paddr 4096 mask]) = withPages cs ++ [.map paddr 4096 mask] := by
    rw [withPages_concat]
    rfl
  constructor
  case filled =>
    intro k
    rw [hpages, hslots]
    obtain hlt | rfl | hgt := lt_trichotomy k (withPages cs).length
    · rw [update_of_ne hlt.ne, List.getElem?_append_left hlt]
      exact h.filled k
    · rw [update_self, h.rest le_rfl, List.getElem?_concat_length]
    · rw [update_of_ne hgt.ne', h.rest hgt.le, List.getElem?_eq_none]
      rw [length_append]
      exact hgt
  case live =>
    rw [hpages, length_append, hlive, hslots]
    refine forall_mem_cons.mpr ⟨.inr ⟨(withPages cs).length, Nat.lt_succ_self _, rfl, rfl, ?_⟩,
      fun w hw => ?_⟩
    · rw [update_self]
      rfl
    · obtain hz | ⟨k, hk, hv, hz, ha⟩ := h.live w hw
      · exact .inl hz
      · refine .inr ⟨k, Nat.lt_succ_of_lt hk, hv, hz, ?_⟩
        rw [update_of_ne hk.ne]
        exact ha
  case apart =>
    rw [hlive]
    refine pairwise_cons.mpr ⟨fun w hw => ?_, h.apart⟩
    obtain ⟨-, hz⟩ | ⟨k, hk, hv, -, -⟩ := h.live w hw
    · exact .inr (.inl hz)
    · refine .inr (.inr ?_)
      change I.tmpmapBase + 4096 * (withPages cs).length ≠ w.vaddr
      omega
  case freed => exact hfreed ▸ h.freed
  case present =>
    intro k hk
    rw [hpages, length_append] at hk
    rw [hslots]
    obtain hlt | rfl := Nat.lt_succ_iff_lt_or_eq.mp hk
    · rw [update_of_ne hlt.ne]
      exact h.present k hlt
    · rw [update_self]
      exact present_of_mask hm rfl
  case room =>
    rw [hpages, length_append]
    exact Nat.le_of_lt_succ hroom

/-- The slots that are handed out are marked exactly if the masks mark them. -/
theorem HandedOut.taken_iff (hone : ∀ c ∈ withPages cs, ∃ paddr mask, c = .map paddr 4096 mask)
    (hk : k < (withPages cs).length) : (s.slots k).taken = true ↔ ((withPages cs)[k]).marks := by
  obtain ⟨paddr, mask, hc⟩ := hone _ (List.getElem_mem hk)
  rw [h.slot (hc ▸ List.getElem?_eq_getElem hk), hc]
  rfl

end

/-- **A call that fits goes through**, unless the area counts as full. -/
theorem HandedOut.step (hfree : ∀ k < 256, (t k).taken = false) (h : HandedOut I t cs s)
    (hlegal : c.Legal s) (hfits : SinglePages t (cs ++ [c])) :
    (∃ s', c.run I s = .ok s' ∧ HandedOut I t (cs ++ [c]) s') ∨
      ∃ msg args, c.run I s = .error (.panic msg args) := by
  by_cases hc : c.size = 0
  · exact .inl (h.empty hlegal hc)
  have hpages : withPages (cs ++ [c]) = withPages cs ++ [c] := by rw [withPages_concat, if_neg hc]
  obtain ⟨hone, hmarked, habsent⟩ := hfits
  rw [hpages] at hone hmarked habsent
  rw [List.dropLast_concat] at hmarked
  obtain ⟨paddr, mask, rfl⟩ := hone c (mem_append_right _ mem_cons_self)
  have hbelow : ∀ i < (withPages cs).length, (s.slots i).taken = true := fun i hi =>
    (h.taken_iff (fun c hc => hone c (mem_append_left _ hc)) hi).mpr
      (hmarked _ (List.getElem_mem hi))
  have hrest := h.rest (le_refl (withPages cs).length)
  have hroom := h.room
  have hnext := hnTmpmapPost_one (I := I) hlegal.1 hlegal.2.2 hbelow
    (hrest ▸ hfree _ (by omega)) (hrest ▸ habsent _ (by simp))
  obtain hok | ⟨msg, args, hpanic⟩ := hnext
  · obtain ⟨k, hk, hv, -, -⟩ := hnTmpmapPost_spec Nat.one_pos rfl hok
    refine .inl ⟨{ s with
      slots := update s.slots _ ((s.slots _).aim mask paddr)
      live := ⟨I.tmpmapBase + 4096 * (withPages cs).length, 4096, paddr⟩ :: s.live }, ?_,
      h.page hlegal.2.2 (by omega) rfl rfl rfl⟩
    rw [TmpCall.run, hok]
    rfl
  · exact .inr ⟨msg, args, by rw [TmpCall.run, hpanic]; rfl⟩

/-- **A window of more pages shows the wrong ones.**  The slot behind its last page is aimed at the
first frame. -/
theorem onePage_of_good {size : ℕ} (hsize : size % 4096 = 0) (hpos : size ≠ 0)
    (h : (TmpCall.map paddr size mask).run I s = .ok s') (hgood : s'.Good I) : size = 4096 := by
  obtain ⟨⟨v, t'⟩, hmap, rfl⟩ := map_eq_ok_iff.mp h
  obtain ⟨q, rfl⟩ : ∃ q, size = 4096 * q := ⟨size / 4096, by omega⟩
  obtain ⟨k, hk, rfl, -, hfill⟩ := hnTmpmapPost_spec (by omega) rfl hmap
  have hlast := (hgood.translates _ mem_cons_self (q - 1)
    (show 4096 * (q - 1) < 4096 * q by omega)).2
  have hslot : (Window.pte I t' ⟨I.tmpmapBase + 4096 * k, 4096 * q, paddr⟩ (q - 1)) =
      t' (k + q - 1) := by
    rw [Window.pte, Nat.add_sub_cancel_left]
    congr 1
    omega
  obtain ⟨-, -, -, haim⟩ | ⟨hout, -⟩ := fillSlots_spec hfill (k + q - 1)
  · by_contra hne
    have hframe : pgRoundDown (paddr + 4096 * (q - 1)) ≠ pgRoundDown paddr := fun h => by
      have := congrArg BitVec.toNat h
      simp only [pgRoundDown, BitVec.toNat_ofNat] at this
      omega
    refine hframe ?_
    rw [← hlast]
    rw [hslot, haim, Nat.sub_self]
    rfl
  · omega

/-- **A window that is given back cannot be handed out again.** -/
theorem HandedOut.not_good_unmap (h : HandedOut I t cs s) {w : Window} (hw : w ∈ s.live)
    (hpos : w.size ≠ 0) (hrun : (TmpCall.unmap w).run I s = .ok s') : ¬ s'.Good I := by
  intro hgood
  obtain ⟨t', hunmap, rfl⟩ := map_eq_ok_iff.mp hrun
  obtain ⟨-, hz⟩ | ⟨k, hk, hv, hz, -⟩ := h.live w hw
  · exact hpos hz
  have hperm := h.apart.perm (perm_cons_erase hw) fun {w w'} hne => by tauto
  have hother : ∀ w' ∈ s.live.erase w, w'.size = 0 ∨ w'.vaddr ≠ w.vaddr := fun w' hw' =>
    (((pairwise_cons.mp hperm).1 w' hw').resolve_left hpos).imp_right Ne.symm
  have hapart : ∀ w' ∈ s.live.erase w, w.Apart w' := by
    intro w' hw' x hx1 hx2 hx3 hx4
    obtain ⟨-, hz'⟩ | ⟨k', -, hv', hz', -⟩ := h.live w' (mem_of_mem_erase hw')
    · omega
    · obtain hz' | hne := hother w' hw' <;> omega
  obtain ⟨cs', s', hmaps, hruns, paddr, hmem⟩ :=
    hgood.reusable w mem_cons_self (Nat.pos_of_ne_zero hpos) hapart
  rw [hv, hz] at hmem
  refine stale_keeps hmaps (hnTmpunmapPost_present hunmap (h.present k hk)) (fun p hp => ?_) hruns
    paddr hmem
  obtain hz' | hne := hother _ hp
  · cases hz'
  · exact hne hv.symm

/-- **A call that goes through as it should fits.** -/
theorem HandedOut.fits (hfree : ∀ k < 256, (t k).taken = false) (h : HandedOut I t cs s)
    (hsingle : SinglePages t cs) (hlegal : c.Legal s) (hrun : c.run I s = .ok s')
    (hgood : s'.Good I) : SinglePages t (cs ++ [c]) := by
  by_cases hc : c.size = 0
  · have hpages : withPages (cs ++ [c]) = withPages cs := by rw [withPages_concat, if_pos hc]
    exact ⟨hpages ▸ hsingle.onePage, hpages ▸ hsingle.marked, hpages ▸ hsingle.absent⟩
  have hpages : withPages (cs ++ [c]) = withPages cs ++ [c] := by rw [withPages_concat, if_neg hc]
  cases c with
  | unmap w => exact absurd hgood (h.not_good_unmap hlegal hc hrun)
  | map paddr size mask =>
    obtain rfl := onePage_of_good hlegal.2.1 hc hrun hgood
    obtain ⟨⟨v, t'⟩, hmap, rfl⟩ := map_eq_ok_iff.mp hrun
    obtain ⟨k, hk, rfl, hfirst, hfill⟩ := hnTmpmapPost_spec Nat.one_pos rfl hmap
    obtain ⟨hkfree, hbelow⟩ := hfirst rfl
    have habsent : (s.slots k).present = false := by
      obtain ⟨-, -, habsent, -⟩ | ⟨hout, -⟩ := fillSlots_spec hfill k
      · exact habsent
      · omega
    have hrest := h.rest (le_refl (withPages cs).length)
    obtain rfl : k = (withPages cs).length := by
      obtain hlt | heq | hgt := lt_trichotomy k (withPages cs).length
      · rw [h.present k hlt] at habsent
        cases habsent
      · exact heq
      · have := hbelow _ hgt
        rw [hrest, hfree _ (by omega)] at this
        cases this
    constructor
    · rw [hpages]
      intro c hc
      obtain hc | hc := mem_append.mp hc
      · exact hsingle.onePage c hc
      · exact ⟨paddr, mask, mem_singleton.mp hc⟩
    · rw [hpages, List.dropLast_concat]
      intro c hc
      obtain ⟨i, hi, rfl⟩ := List.getElem_of_mem hc
      exact (h.taken_iff hsingle.onePage hi).mp (hbelow i hi)
    · rw [hpages, length_append]
      intro i hi
      obtain hlt | rfl := Nat.lt_succ_iff_lt_or_eq.mp hi
      · exact hsingle.absent i hlt
      · rw [← hrest]
        exact habsent

end Conforms

section Theorem

variable {I} {t : Slots} {cs : List TmpCall} {c : TmpCall} {s : TmpState}

theorem LegalRun.init (h : LegalRun I (cs ++ [c]) s) : LegalRun I cs s :=
  fun cs₁ c' cs₂ s' hcs hrun => h cs₁ c' (cs₂ ++ [c]) s' (by rw [hcs]; simp) hrun

/-- Where a sequence does not panic, neither does its beginning. -/
theorem room_init (h : ∀ msg args, tmpRuns I (cs ++ [c]) s ≠ .error (.panic msg args))
    (msg : String) (args : List ℕ) : tmpRuns I cs s ≠ .error (.panic msg args) := by
  intro hpanic
  refine h msg args ?_
  rw [tmpRuns_concat, hpanic]
  rfl

theorem SinglePages.init (h : SinglePages t (cs ++ [c])) : SinglePages t cs := by
  by_cases hc : c.size = 0
  · have hpages : withPages (cs ++ [c]) = withPages cs := by rw [withPages_concat, if_pos hc]
    exact ⟨hpages ▸ h.onePage, hpages ▸ h.marked, hpages ▸ h.absent⟩
  · have hpages : withPages (cs ++ [c]) = withPages cs ++ [c] := by rw [withPages_concat, if_neg hc]
    obtain ⟨hone, hmarked, habsent⟩ := h
    rw [hpages] at hone hmarked habsent
    rw [List.dropLast_concat] at hmarked
    refine ⟨fun c hc => hone c (mem_append_left _ hc), fun c hc => ?_, fun k hk => ?_⟩
    · exact hmarked c (List.dropLast_subset _ hc)
    · exact habsent k (by rw [length_append]; exact Nat.lt_succ_of_lt hk)

/-- A sequence that fits goes through, as long as there is room. -/
theorem handedOut_of_singlePages (hfree : ∀ k < 256, (t k).taken = false)
    (hlegal : LegalRun I cs ⟨t, [], []⟩)
    (hroom : ∀ msg args, tmpRuns I cs ⟨t, [], []⟩ ≠ .error (.panic msg args))
    (h : SinglePages t cs) : ∃ s, tmpRuns I cs ⟨t, [], []⟩ = .ok s ∧ HandedOut I t cs s := by
  induction cs using List.reverseRecOn with
  | nil =>
    refine ⟨_, rfl, ⟨fun k => rfl, nofun, .nil, nofun, nofun, Nat.zero_le _⟩⟩
  | append_singleton cs c ih =>
    obtain ⟨s, hs, hout⟩ := ih hlegal.init (room_init hroom) h.init
    have hc : c.Legal s := hlegal cs c [] s rfl hs
    rw [tmpRuns_concat, hs] at hroom ⊢
    obtain hok | ⟨msg, args, hpanic⟩ := hout.step hfree hc h
    · exact hok
    · exact absurd hpanic (hroom msg args)

/-- **Which sequences of calls conform**, from a free area, as long as there is room: single pages,
each for a slot that is not present, all but the last with a mask that marks the slot, and none
given back. -/
theorem tmpmapPost_conforms_iff (I : TmpmapInfo) (t : Slots) (cs : List TmpCall)
    (hfree : ∀ k < 256, (t k).taken = false) (hlegal : LegalRun I cs ⟨t, [], []⟩)
    (hroom : ∀ msg args, tmpRuns I cs ⟨t, [], []⟩ ≠ .error (.panic msg args)) :
    TmpConforms I cs ⟨t, [], []⟩ ↔ SinglePages t cs := by
  constructor
  · intro h
    induction cs using List.reverseRecOn with
    | nil => exact ⟨nofun, nofun, nofun⟩
    | append_singleton cs c ih =>
      obtain ⟨hcs, s', hrun, hgood⟩ := tmpConforms_concat.mp h
      have hsingle := ih hlegal.init (room_init hroom) hcs
      obtain ⟨s, hs, hout⟩ := handedOut_of_singlePages hfree hlegal.init (room_init hroom) hsingle
      rw [tmpRuns_concat, hs] at hrun
      exact hout.fits hfree hsingle (hlegal cs c [] s rfl hs) hrun hgood
  · intro h
    induction cs using List.reverseRecOn with
    | nil =>
      intro cs₁ hcs₁
      obtain rfl := prefix_nil.mp hcs₁
      obtain ⟨s, hs, hout⟩ := handedOut_of_singlePages hfree hlegal hroom h
      exact ⟨s, hs, hout.good⟩
    | append_singleton cs c ih =>
      obtain ⟨s, hs, hout⟩ := handedOut_of_singlePages hfree hlegal hroom h
      exact tmpConforms_concat.mpr ⟨ih hlegal.init (room_init hroom) h.init, s, hs, hout.good⟩

end Theorem

/-! ## Examples -/

/-- An area of the kernel heap. -/
def tmpArea : TmpmapInfo where
  tmpmapBase := 0xffffc00000000000
  areaEnd := 0xffffffff80200000
  base_pos := by decide
  base_dvd := by decide

/-- PTEs that were never used. -/
def blankSlots : Slots := fun _ => Entry.zero

/-- PTEs as `mm_kvmalloc` leaves them when it reserves the area. -/
def reservedSlots : Slots := fun _ => ⟨PTE_P.setWidth 12, 0, true⟩

/-- Two windows of a page each in an area that was never used, the second with the mask `PTE_P`. -/
theorem tmpmapPost_conforms_two :
    TmpConforms tmpArea [.map 0x5000 4096 (PTE_P ||| PTE_RW), .map 0x6000 4096 PTE_P]
      ⟨blankSlots, [], []⟩ := by
  have hfree : Entry.zero.taken = false := by decide
  have habsent : Entry.zero.present = false := by decide
  refine (tmpmapPost_conforms_iff tmpArea blankSlots _ (fun _ _ => hfree)
    (fun cs₁ c cs₂ s hcs _ => ?_) fun msg args h => ?_).mpr
    ⟨fun c hc => ?_, fun c hc => ?_, fun _ _ => habsent⟩
  · have hc : c ∈ [TmpCall.map 0x5000 4096 (PTE_P ||| PTE_RW), .map 0x6000 4096 PTE_P] :=
      hcs ▸ mem_append_right _ mem_cons_self
    simp only [mem_cons, not_mem_nil, or_false] at hc
    obtain rfl | rfl := hc
    all_goals exact ⟨by decide, by decide, by decide⟩
  · cases h
  · obtain rfl | hc := mem_cons.mp hc
    · exact ⟨_, _, rfl⟩
    · exact ⟨_, _, mem_singleton.mp hc⟩
  · obtain rfl := mem_singleton.mp hc
    rfl

/-- A page that was given back, a second page behind one with the mask `PTE_P`, and any page of an
area as it is reserved fail the assertion.  A window of two pages is returned with its first page
missing. -/
theorem tmpmapPost_goes_wrong : tmpRuns tmpArea [.map 0x5000 4096 (PTE_P ||| PTE_RW),
        .unmap ⟨0xffffc00000000000, 4096, 0x5000⟩, .map 0x6000 4096 (PTE_P ||| PTE_RW)]
      ⟨blankSlots, [], []⟩ = .error (.assertion "hal/x86_64/mm/vmmgr/vm.cc" 1250) ∧
    tmpRuns tmpArea [.map 0x5000 4096 PTE_P, .map 0x6000 4096 PTE_P] ⟨blankSlots, [], []⟩ =
      .error (.assertion "hal/x86_64/mm/vmmgr/vm.cc" 1250) ∧
    hnTmpmapPost tmpArea 0x5000 4096 (PTE_P ||| PTE_RW) reservedSlots =
      .error (.assertion "hal/x86_64/mm/vmmgr/vm.cc" 1250) ∧
    ∃ t, hnTmpmapPost tmpArea 0x5000 0x2000 (PTE_P ||| PTE_RW) blankSlots =
      .ok (0xffffc00000000000, t) ∧ (t 0).present = false :=
  ⟨rfl, rfl, rfl, _, rfl, rfl⟩

end Pbos.Hal
