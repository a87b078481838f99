import Pbos.Hal.TmpmapRuns

/-!
# Hal/MmapEarly — mapping one page before the heap is there

`hn_mm_mmap_early` maps one page.  It sees every table below the PML4 through a window of
`hn_tmpmap_early`, and where a table is missing it takes one of three frames that its caller has set
aside and says so in the mask it returns.  Whether the page directory is missing it asks the first
entry of the PDPT, not the one it is about to use.

`Shade` tells the tables, with windows open, from what they would be without: the two differ in PTEs
of the area only.  Through the windows a call does to the tables what `pml4eEffect` says
(`hnMmMmapEarly_eq`).
-/

namespace Pbos.Hal

open Radix KernelImage List

/-! ## The model -/

/-- What `hn_mm_mmap_early` is asked for, its context apart. -/
structure EarlyMmap where
  vaddr : ℕ
  paddr : ℕ
  access : UInt32
  pdptePaddr : ℕ
  pdePaddr : ℕ
  ptePaddr : ℕ
  deriving DecidableEq, Repr

/-- The tables, `sz_mapped` and `result`. -/
structure EarlyMapped where
  mem : Mem
  szMapped : ℕ
  result : BitVec 8

namespace EarlyMmap

variable (c : EarlyMmap)

def range : VRange := ⟨c.vaddr, PAGESIZE⟩

/-- `addr_limit`. -/
def limit : ℕ := pgCeil ((c.vaddr + PAGESIZE) % 2 ^ 64)

/-- The PTE that is written when `sz` bytes are mapped already. -/
def pte (sz : ℕ) : Entry :=
  MmapArgs.pte ⟨c.range, c.paddr, c.access, 0⟩ ((c.paddr + sz) % 2 ^ 64)

/-- What an entry becomes when it is given one of the frames set aside. -/
def tableFrom (paddr : ℕ) (e : Entry) : Entry :=
  { e with address := pgRoundDown paddr, mask := (PTE_P ||| PTE_RW).setWidth 12 }

end EarlyMmap

namespace KernelImage

variable (K : KernelImage) (c : EarlyMmap)

/-- The frame that the window at `v` shows. -/
def shown (mem : Mem) (v : ℕ) : Frame := (K.pte mem (pageNo v)).address

/-- Go through the table in the frame `f` with the loop `inner`, which is given a window of it; the
window is closed on the way out.  A new table is cleared first. -/
def viaWindow (f : Frame) (init : Bool)
    (inner : ℕ → EarlyMapped → Except Fault (Exit EarlyMapped)) (s : EarlyMapped) :
    Except Fault (Turn EarlyMapped) := do
  let (v, mem) ← K.hnTmpmapEarly (unpgaddr f) PAGESIZE (PTE_P ||| PTE_RW) s.mem
  let mem := if init then fill mem (K.shown mem v) Entry.zero else mem
  let s ← match ← inner v { s with mem := mem } with
    | .done _ s => .ok s
    | .ret s => .ok s
  let mem ← K.hnTmpunmapEarly v PAGESIZE s.mem
  .ok (.next { s with mem := mem })

/-- Give the entry `x` of the table `f` the frame set aside for it, if `missing`, and say so in the
bits `flag` of the result. -/
def supply (missing : Bool) (f : Frame) (x paddr : ℕ) (flag : BitVec 8) (s : EarlyMapped) :
    EarlyMapped :=
  if missing then
    { s with
      result := s.result ||| flag
      mem := write s.mem f (Fin.ofNat 512 x) (EarlyMmap.tableFrom paddr (entryAt s.mem f x)) }
  else s

/-- One turn of the loop over PTEs. -/
def earlyPte (i4 i3 i2 ptt i1 : ℕ) (s : EarlyMapped) : Except Fault (Turn EarlyMapped) :=
  if PAGESIZE ≤ s.szMapped then .ok (.brk s)
  else if c.limit ≤ c.range.entryVaddr i4 i3 i2 i1 then .ok (.brk s)
  else .ok (.next { s with
    mem := write s.mem (K.shown s.mem ptt) (Fin.ofNat 512 i1) (c.pte s.szMapped)
    szMapped := s.szMapped + PAGESIZE })

/-- One turn of the loop over PDEs. -/
def earlyPde (i4 i3 pdt i2 : ℕ) (s : EarlyMapped) : Except Fault (Turn EarlyMapped) :=
  if PAGESIZE ≤ s.szMapped then .ok (.brk s)
  else if c.limit ≤ c.range.entryVaddr i4 i3 i2 0 then .ok (.brk s)
  else
    let missing := !(entryAt s.mem (K.shown s.mem pdt) i2).present
    let s := supply missing (K.shown s.mem pdt) i2 c.ptePaddr 0b001 s
    let first := c.range.firstPtx i4 i3 i2
    K.viaWindow (entryAt s.mem (K.shown s.mem pdt) i2).address missing
      (fun ptt => forLoop (K.earlyPte c i4 i3 i2 ptt) (512 - first) first) s

/-- One turn of the loop over PDPTEs.  Whether the page directory is missing is asked of the first
entry. -/
def earlyPdpte (i4 pdpt i3 : ℕ) (s : EarlyMapped) : Except Fault (Turn EarlyMapped) :=
  if PAGESIZE ≤ s.szMapped then .ok (.brk s)
  else if c.limit ≤ c.range.entryVaddr i4 i3 0 0 then .ok (.brk s)
  else
    let missing := !(entryAt s.mem (K.shown s.mem pdpt) 0).present
    let s := supply missing (K.shown s.mem pdpt) i3 c.pdePaddr 0b010 s
    let first := c.range.firstPdx i4 i3
    K.viaWindow (entryAt s.mem (K.shown s.mem pdpt) i3).address missing
      (fun pdt => forLoop (K.earlyPde c i4 i3 pdt) (512 - first) first) s

/-- One turn of the loop over PML4 entries. -/
def earlyPml4e (pml4t : Frame) (i4 : ℕ) (s : EarlyMapped) : Except Fault (Turn EarlyMapped) :=
  if PAGESIZE ≤ s.szMapped then .ok (.brk s)
  else
    let missing := !(entryAt s.mem pml4t i4).present
    let s := supply missing pml4t i4 c.pdptePaddr 0b100 s
    let first := c.range.firstPdptx i4
    K.viaWindow (entryAt s.mem pml4t i4).address missing
      (fun pdpt => forLoop (K.earlyPdpte c i4 pdpt) (512 - first) first) s

/-- `hn_mm_mmap_early`. -/
def hnMmMmapEarly (pml4t : Frame) (mem : Mem) : Except Fault (BitVec 8 × Mem) := do
  match ← forLoop (K.earlyPml4e c pml4t) (pml4x c.limit + 1 - pml4x c.vaddr) (pml4x c.vaddr)
      ⟨mem, 0, 0⟩ with
  | .done _ s => .ok (s.result, s.mem)
  | .ret s => .ok (s.result, s.mem)

end KernelImage

/-! ## The tables and the windows -/

namespace KernelImage

variable (K : KernelImage)

/-- Where the PTE of a page of the upper 2 GB stands. -/
def slotOf (p : ℕ) : Frame × Fin 512 :=
  (K.ptt + BitVec.ofNat 40 ((p - basePage) / 512), Fin.ofNat 512 (p - basePage))

/-- The page is one of the area's. -/
def InArea (p : ℕ) : Prop := K.firstPage ≤ p ∧ p < K.firstPage + 256

/-- The PTE of a page of the area stands there. -/
def AreaSlot (f : Frame) (i : Fin 512) : Prop := ∃ p, K.InArea p ∧ K.slotOf p = (f, i)

/-- **The tables with the windows `W` open**, each a page and the frame it shows, against the tables
without. -/
structure Shade (W : List (ℕ × Frame)) (mem shaded : Mem) : Prop where
  same : ∀ f i, (∀ w ∈ W, K.slotOf w.1 ≠ (f, i)) → shaded f i = mem f i ∨
    K.AreaSlot f i ∧ (shaded f i).present = false ∧ (mem f i).present = false
  window : ∀ w ∈ W, K.InArea w.1 ∧ (K.pte mem w.1).present = false ∧
    (K.pte shaded w.1).present = true ∧ (K.pte shaded w.1).address = w.2

variable {K} {W : List (ℕ × Frame)} {mem shaded : Mem} {p q k : ℕ} {f g : Frame} {i : Fin 512}
  {e : Entry}

theorem slotOf_inj (hp : basePage ≤ p) (hp' : p < 2 ^ 36) (hq : basePage ≤ q) (hq' : q < 2 ^ 36)
    (h : K.slotOf p = K.slotOf q) : p = q := by
  obtain ⟨hf, hi⟩ := Prod.mk.inj h
  have hf := congrArg BitVec.toNat ((BitVec.add_right_inj _).mp hf)
  simp only [BitVec.toNat_ofNat] at hf
  rw [ofNat_eq_iff] at hi
  omega

theorem InArea.bounds (h : K.InArea p) : basePage ≤ p ∧ p < 2 ^ 36 := by
  obtain ⟨-, hbase, htop⟩ := area_eq K
  exact ⟨hbase.trans h.1, by have := h.2; omega⟩

theorem isPtt_slotOf (hp' : p < 2 ^ 36) : K.IsPtt (K.slotOf p).1 := by
  have hbase := basePage_eq
  exact ⟨(p - basePage) / 512, by omega, rfl⟩

theorem AreaSlot.isPtt (h : K.AreaSlot f i) : K.IsPtt f := by
  obtain ⟨p, hp, hslot⟩ := h
  have := isPtt_slotOf (K := K) hp.bounds.2
  rwa [hslot] at this

theorem shade_refl : K.Shade [] mem mem := ⟨fun _ _ _ => .inl rfl, nofun⟩

section

variable (h : K.Shade W mem shaded)

include h

/-- Outside the area the two agree. -/
theorem Shade.read (hs : ¬ K.AreaSlot f i) : shaded f i = mem f i := by
  refine (h.same f i fun w hw heq => hs ⟨w.1, (h.window w hw).1, heq⟩).resolve_right fun hc => ?_
  exact hs hc.1

theorem Shade.frame (hf : ¬ K.IsPtt f) : shaded f = mem f :=
  funext fun _ => h.read fun hs => hf hs.isPtt

/-- A page that no window was given is as absent as it was. -/
theorem Shade.absent (hp : K.InArea p) (hW : ∀ w ∈ W, w.1 ≠ p)
    : (K.pte shaded p).present = (K.pte mem p).present := by
  have hslot : ∀ w ∈ W, K.slotOf w.1 ≠ K.slotOf p := fun w hw heq =>
    hW w hw (slotOf_inj (h.window w hw).1.bounds.1 (h.window w hw).1.bounds.2 hp.bounds.1
      hp.bounds.2 heq)
  obtain heq | ⟨-, h1, h2⟩ := h.same _ _ hslot
  · exact congrArg Entry.present heq
  · exact h1.trans h2.symm

/-- **A window is opened.** -/
theorem Shade.open (hk : K.InArea k) (habsent : (K.pte shaded k).present = false)
    (he : e.present = true) :
    K.Shade ((k, e.address) :: W) mem (K.setPte shaded k e) ∧ ∀ w ∈ W, w.1 ≠ k := by
  have hnew : ∀ w ∈ W, w.1 ≠ k := by
    rintro w hw rfl
    rw [(h.window w hw).2.2.1] at habsent
    cases habsent
  refine ⟨⟨fun f i hfi => ?_, fun w hw => ?_⟩, hnew⟩
  · have hne : ¬ (f = (K.slotOf k).1 ∧ i = (K.slotOf k).2) := fun ⟨h1, h2⟩ =>
      hfi (k, e.address) mem_cons_self (by rw [h1, h2])
    have hkeep : K.setPte shaded k e f i = shaded f i := write_of_ne hne
    rw [hkeep]
    exact h.same f i fun w hw => hfi w (mem_cons_of_mem _ hw)
  · obtain rfl | hw := mem_cons.mp hw
    · exact ⟨hk, by rw [← h.absent hk hnew]; exact habsent, by rw [pte_setPte_self]; exact he,
        by rw [pte_setPte_self]⟩
    · obtain ⟨hin, hmem, hshown⟩ := h.window w hw
      refine ⟨hin, hmem, ?_⟩
      rwa [pte_setPte_of_ne hin.bounds.1 hin.bounds.2 hk.bounds.1 hk.bounds.2 (hnew w hw)]

end

/-- **A window is closed.** -/
theorem Shade.close (h : K.Shade ((k, f) :: W) mem shaded) (hW : ∀ w ∈ W, w.1 ≠ k)
    (he : e.present = false) : K.Shade W mem (K.setPte shaded k e) := by
  obtain ⟨hk, hmem, -⟩ := h.window _ mem_cons_self
  refine ⟨fun f i hfi => ?_, fun w hw => ?_⟩
  · by_cases hslot : K.slotOf k = (f, i)
    · right
      cases hslot
      have hnew : K.setPte shaded k e (K.slotOf k).1 (K.slotOf k).2 = e := write_self
      exact ⟨⟨k, hk, rfl⟩, (congrArg Entry.present hnew).trans he, hmem⟩
    · have hkeep : K.setPte shaded k e f i = shaded f i :=
        write_of_ne fun ⟨h1, h2⟩ => hslot (by rw [h1, h2]; rfl)
      rw [hkeep]
      refine h.same f i fun w hw => ?_
      obtain rfl | hw := mem_cons.mp hw
      · exact hslot
      · exact hfi w hw
  · obtain ⟨hin, hmem, hshown⟩ := h.window w (mem_cons_of_mem _ hw)
    refine ⟨hin, hmem, ?_⟩
    rwa [pte_setPte_of_ne hin.bounds.1 hin.bounds.2 hk.bounds.1 hk.bounds.2 (hW w hw)]

/-- An edit that spares the area is made in both. -/
theorem Shade.edit {mem' shaded' : Mem} (h : K.Shade W mem shaded)
    (hedit : ∀ f i, (mem' f i = mem f i ∧ shaded' f i = shaded f i) ∨
      ¬ K.AreaSlot f i ∧ shaded' f i = mem' f i) : K.Shade W mem' shaded' := by
  refine ⟨fun f i hfi => ?_, fun w hw => ?_⟩
  · obtain ⟨h1, h2⟩ | ⟨-, heq⟩ := hedit f i
    · rw [h1, h2]
      exact h.same f i hfi
    · exact .inl heq
  · obtain ⟨hin, hrest⟩ := h.window w hw
    obtain ⟨h1, h2⟩ | ⟨hno, -⟩ := hedit (K.slotOf w.1).1 (K.slotOf w.1).2
    · have h1 : K.pte mem' w.1 = K.pte mem w.1 := h1
      have h2 : K.pte shaded' w.1 = K.pte shaded w.1 := h2
      rw [h1, h2]
      exact ⟨hin, hrest⟩
    · exact absurd ⟨w.1, hin, rfl⟩ hno

theorem Shade.write (h : K.Shade W mem shaded) (hs : ¬ K.AreaSlot f i) :
    K.Shade W (Radix.write mem f i e) (Radix.write shaded f i e) := by
  refine h.edit fun f' i' => ?_
  by_cases hfi : f' = f ∧ i' = i
  · obtain ⟨rfl, rfl⟩ := hfi
    exact .inr ⟨hs, by rw [write_self, write_self]⟩
  · exact .inl ⟨write_of_ne hfi, write_of_ne hfi⟩

theorem Shade.fill (h : K.Shade W mem shaded) (hg : ¬ K.IsPtt g) :
    K.Shade W (Radix.fill mem g e) (Radix.fill shaded g e) := by
  refine h.edit fun f' i' => ?_
  by_cases hf : f' = g
  · subst hf
    exact .inr ⟨fun hs => hg hs.isPtt, by rw [fill_self, fill_self]⟩
  · exact .inl ⟨fill_of_ne hf, fill_of_ne hf⟩

/-- **With all windows closed, every path is what it was.** -/
theorem Shade.path_eq (h : K.Shade [] mem shaded) (root : Frame) (π : List (Fin 512)) :
    path shaded root π = path mem root π := by
  refine follow_congr fun α i β g _ _ => ?_
  obtain heq | ⟨-, h1, h2⟩ := h.same g i nofun
  · rw [heq]
  · rw [Entry.child_eq_none h1, Entry.child_eq_none h2]

theorem Shade.mapping_eq (h : K.Shade [] mem shaded) (root : Frame) (p : ℕ) :
    mapping shaded root p = mapping mem root p := by
  rw [mapping, mapping, leaf, leaf]
  have hpath : follow Entry.child shaded root (tables p) = follow Entry.child mem root (tables p) :=
    h.path_eq root (tables p)
  rw [hpath]
  cases follow Entry.child mem root (tables p) with
  | none => rfl
  | some f =>
    obtain heq | ⟨-, h1, h2⟩ := h.same f (slot p) (by simp)
    · rw [Option.map_some, Option.map_some, heq]
    · rw [Option.map_some, Option.map_some, Option.filter_some, Option.filter_some, h1, h2]
      rfl

end KernelImage

/-! ## Opening windows -/

namespace KernelImage

section Windows

variable (K : KernelImage)

/-- The frame is one of the kernel's initial tables. -/
def KernelTable (f : Frame) : Prop :=
  f = K.pml4t ∨ f = K.pdpt ∨ (∃ m < 2, f = K.pdt + BitVec.ofNat 40 m) ∨ K.IsPtt f

/-- **Three windows can be opened.** -/
structure Able (mem : Mem) : Prop where
  linked : K.Linked mem
  behind : (K.pte mem (K.firstPage + 256)).present = true
  room : ∃ A : Finset ℕ, 3 ≤ A.card ∧ ∀ p ∈ A, K.InArea p ∧ (K.pte mem p).present = false

variable {K} {W : List (ℕ × Frame)} {mem mem' shaded : Mem} {f g : Frame} {i : Fin 512} {e : Entry}
  {inner : ℕ → EarlyMapped → Except Fault (Exit EarlyMapped)}

/-- What is present in the kernel's tables is left alone, and so is the area. -/
theorem Able.keep (h : K.Able mem)
    (hkeep : ∀ f i, K.KernelTable f → (mem f i).present = true → mem' f i = mem f i)
    (harea : ∀ f i, K.AreaSlot f i → mem' f i = mem f i) : K.Able mem' := by
  obtain ⟨-, hbase, htop⟩ := area_eq K
  refine ⟨⟨?_, fun i hi hi' => ?_, fun j hj => ?_⟩, ?_, ?_⟩
  · rw [hkeep _ _ (.inl rfl) h.linked.pml4e.1]
    exact h.linked.pml4e
  · rw [hkeep _ _ (.inr (.inl rfl)) (h.linked.pdpte i hi hi').1]
    exact h.linked.pdpte i hi hi'
  · have hpde := h.linked.pde j hj
    have hj' : elem mem' K.pdt j = elem mem K.pdt j :=
      hkeep _ _ (.inr (.inr (.inl ⟨j / 512, by omega, rfl⟩))) hpde.1
    rw [hj']
    exact hpde
  · have hb : K.pte mem' (K.firstPage + 256) = K.pte mem (K.firstPage + 256) :=
      hkeep _ _ (.inr (.inr (.inr (isPtt_slotOf (by omega))))) h.behind
    rw [hb]
    exact h.behind
  · obtain ⟨A, hcard, hA⟩ := h.room
    refine ⟨A, hcard, fun p hp => ⟨(hA p hp).1, ?_⟩⟩
    have hp' : K.pte mem' p = K.pte mem p := harea _ _ ⟨p, (hA p hp).1, rfl⟩
    rw [hp']
    exact (hA p hp).2

theorem Able.write (h : K.Able mem) (habsent : (mem f i).present = false)
    (hs : ¬ K.AreaSlot f i) : K.Able (Radix.write mem f i e) := by
  refine h.keep (fun f' i' _ hp => write_of_ne ?_) fun f' i' hs' => write_of_ne ?_
  · rintro ⟨rfl, rfl⟩
    rw [hp] at habsent
    cases habsent
  · rintro ⟨rfl, rfl⟩
    exact hs hs'

theorem Able.fill (h : K.Able mem) (hg : ¬ K.KernelTable g) : K.Able (Radix.fill mem g e) := by
  refine h.keep (fun f' i' hf _ => fill_of_ne ?_) fun f' i' hs => fill_of_ne ?_
  · rintro rfl
    exact hg hf
  · rintro rfl
    exact hg (.inr (.inr (.inr hs.isPtt)))

/-- **A window of the frame `f` is opened**; closing it leaves what was done in the meantime. -/
theorem hnTmpmapEarly_open (hable : K.Able mem) (hs : K.Shade W mem shaded)
    (hW : W.length < 3) (f : Frame) : ∃ k shaded',
      K.hnTmpmapEarly (unpgaddr f) PAGESIZE (PTE_P ||| PTE_RW) shaded = .ok (kaddr k, shaded') ∧
      K.Shade ((k, f) :: W) mem shaded' ∧
      ∀ {mem' : Mem} {shaded'' : Mem}, K.Shade ((k, f) :: W) mem' shaded'' →
        ∃ shaded₃, K.hnTmpunmapEarly (kaddr k) PAGESIZE shaded'' = .ok shaded₃ ∧
          K.Shade W mem' shaded₃ := by
  obtain ⟨-, hbase, htop⟩ := area_eq K
  have hlink : K.Linked shaded := hable.linked.congr fun f hf => hs.frame hf
  have hbehind : (K.pte shaded (K.firstPage + 256)).present = true := by
    have hno : ¬ K.AreaSlot (K.slotOf (K.firstPage + 256)).1 (K.slotOf (K.firstPage + 256)).2 := by
      rintro ⟨p, hp, hslot⟩
      have := slotOf_inj hp.bounds.1 hp.bounds.2 (by omega) (by omega) hslot
      have := hp.2
      omega
    have heq : K.pte shaded (K.firstPage + 256) = K.pte mem (K.firstPage + 256) := hs.read hno
    rw [heq]
    exact hable.behind
  obtain ⟨a, ha, hafree⟩ : ∃ a, K.InArea a ∧ (K.pte shaded a).present = false := by
    obtain ⟨A, hcard, hA⟩ := hable.room
    have hlt : (W.map Prod.fst).toFinset.card < A.card :=
      (List.toFinset_card_le _).trans_lt (by rw [length_map]; omega)
    obtain ⟨a, ha, haW⟩ := Finset.exists_mem_notMem_of_card_lt_card hlt
    refine ⟨a, (hA a ha).1, ?_⟩
    rw [hs.absent (hA a ha).1 fun w hw hwa => haW ?_]
    · exact (hA a ha).2
    · rw [mem_toFinset, ← hwa]
      exact mem_map_of_mem hw
  have hmask : (PTE_P ||| PTE_RW) &&& PTE_P ≠ 0 := by decide
  have halign : unpgaddr f % 4096 = 0 := by
    rw [unpgaddr]
    omega
  obtain ⟨k, hk, hkn, hrun, hmap⟩ | ⟨hno, -⟩ :=
    hnTmpmapEarly_cases hlink hbehind Nat.one_pos halign hmask
  case inr =>
    refine absurd (fun i hi hi' => ?_) (hno a ha.1 ha.2)
    obtain rfl : i = a := by omega
    exact hafree
  have hin : K.InArea k := ⟨hk, hkn⟩
  obtain ⟨hopen, hnew⟩ := hs.open (e := (K.pte shaded k).aim (PTE_P ||| PTE_RW) (unpgaddr f)) hin
    (hrun k le_rfl (by omega)) (present_of_mask hmask rfl)
  have haddr : ((K.pte shaded k).aim (PTE_P ||| PTE_RW) (unpgaddr f)).address = f :=
    pgRoundDown_unpgaddr f
  rw [haddr] at hopen
  refine ⟨k, _, hmap, hopen, fun {mem' shaded''} hs'' => ⟨K.cleared shaded'' k 1, ?_,
    hs''.close hnew (clear_present _)⟩⟩
  exact hnTmpunmapEarly_eq (by omega) (by omega) Nat.one_pos

/-- The window shows its frame. -/
theorem Shade.shown {k : ℕ} (h : K.Shade ((k, f) :: W) mem shaded) :
    K.shown shaded (kaddr k) = f := by
  obtain ⟨hin, -, -, haddr⟩ := h.window _ mem_cons_self
  rw [KernelImage.shown, pageNo_kaddr hin.bounds.2]
  exact haddr

/-- **The loop `inner` goes through the table `f`**, seen by a window besides the windows `W`. -/
def Passes (K : KernelImage) (W : List (ℕ × Frame)) (f : Frame)
    (inner : ℕ → EarlyMapped → Except Fault (Exit EarlyMapped)) (r : BitVec 8) (mem : Mem)
    (r' : BitVec 8) (mem' : Mem) : Prop :=
  ∀ k shaded, K.Shade ((k, f) :: W) mem shaded → ∃ y shaded',
    inner (kaddr k) ⟨shaded, 0, r⟩ = .ok (.done y ⟨shaded', PAGESIZE, r'⟩) ∧
      K.Shade ((k, f) :: W) mem' shaded'

/-- **A table is gone through by a window of it.** -/
theorem viaWindow_ok {init : Bool} {r r' : BitVec 8}
    (hable : K.Able mem)
    (hs : K.Shade W mem shaded) (hW : W.length < 3) (hf : init = true → ¬ K.IsPtt f)
    (hinner : K.Passes W f inner r (if init then Radix.fill mem f Entry.zero else mem) r' mem') :
    ∃ shaded', K.viaWindow f init inner ⟨shaded, 0, r⟩ = .ok (.next ⟨shaded', PAGESIZE, r'⟩) ∧
      K.Shade W mem' shaded' := by
  obtain ⟨k, shaded, hmap, hopen, hclose⟩ := hnTmpmapEarly_open hable hs hW f
  have hcleared : K.Shade ((k, f) :: W) (if init then Radix.fill mem f Entry.zero else mem)
      (if init then Radix.fill shaded f Entry.zero else shaded) := by
    cases init with
    | false => exact hopen
    | true => exact hopen.fill (hf rfl)
  obtain ⟨x, shaded', hrun, hshade⟩ := hinner k _ hcleared
  obtain ⟨shaded₃, hunmap, hs₃⟩ := hclose hshade
  refine ⟨shaded₃, ?_, hs₃⟩
  refine bind_eq_ok_iff.mpr ⟨_, hmap, ?_⟩
  dsimp only
  rw [hopen.shown]
  refine bind_eq_ok_iff.mpr ⟨_, hrun, ?_⟩
  refine bind_eq_ok_iff.mpr ⟨_, rfl, ?_⟩
  exact bind_eq_ok_iff.mpr ⟨_, hunmap, rfl⟩

end Windows

end KernelImage

/-! ## What a call does to the tables -/

/-- The table below the entry `x` of `f`: the frame set aside for it, if `missing`. -/
def below (missing : Bool) (f : Frame) (x paddr : ℕ) (mem : Mem) : Frame :=
  if missing then pgRoundDown paddr else (entryAt mem f x).address

/-- The tables once it is there. -/
def hang (missing : Bool) (f : Frame) (x paddr : ℕ) (mem : Mem) : Mem :=
  if missing then
    link mem f (Fin.ofNat 512 x) (EarlyMmap.tableFrom paddr (entryAt mem f x)) (pgRoundDown paddr)
      Entry.zero
  else mem

/-- The frame that becomes a table. -/
def newTable (missing : Bool) (paddr : ℕ) : List Frame :=
  bif missing then [pgRoundDown paddr] else []

@[simp] theorem mem_newTable {missing : Bool} {paddr : ℕ} {g : Frame} :
    g ∈ newTable missing paddr ↔ missing = true ∧ g = pgRoundDown paddr := by
  cases missing <;> simp [newTable]

/-- The bits that are set for it. -/
def flagOf (missing : Bool) (flag : BitVec 8) : BitVec 8 := if missing then flag else 0

namespace EarlyMmap

variable (c : EarlyMmap)

/-- What the loop over PTEs does to the table `ptt`. -/
def pteEffect (ptt : Frame) (mem : Mem) : Mem :=
  write mem ptt (Fin.ofNat 512 (ptx c.vaddr)) (c.pte 0)

/-- What the loop over PDEs does to the table `pdt` and what is below. -/
def pdeEffect (pdt : Frame) (mem : Mem) : BitVec 8 × Mem :=
  let missing := !(entryAt mem pdt (pdx c.vaddr)).present
  (flagOf missing 0b001, c.pteEffect (below missing pdt (pdx c.vaddr) c.ptePaddr mem)
    (hang missing pdt (pdx c.vaddr) c.ptePaddr mem))

/-- What the loop over PDPTEs does. -/
def pdpteEffect (pdpt : Frame) (mem : Mem) : BitVec 8 × Mem :=
  let missing := !(entryAt mem pdpt 0).present
  let r := c.pdeEffect (below missing pdpt (pdptx c.vaddr) c.pdePaddr mem)
    (hang missing pdpt (pdptx c.vaddr) c.pdePaddr mem)
  (flagOf missing 0b010 ||| r.1, r.2)

/-- What the loop over PML4 entries does. -/
def pml4eEffect (pml4t : Frame) (mem : Mem) : BitVec 8 × Mem :=
  let missing := !(entryAt mem pml4t (pml4x c.vaddr)).present
  let r := c.pdpteEffect (below missing pml4t (pml4x c.vaddr) c.pdptePaddr mem)
    (hang missing pml4t (pml4x c.vaddr) c.pdptePaddr mem)
  (flagOf missing 0b100 ||| r.1, r.2)

end EarlyMmap

namespace KernelImage

section Levels

variable {K : KernelImage} {c : EarlyMmap} {W : List (ℕ × Frame)} {mem mem' shaded : Mem}
  {f : Frame} {k x paddr n : ℕ} {flag r r' : BitVec 8} {missing : Bool}
  {inner : ℕ → EarlyMapped → Except Fault (Exit EarlyMapped)}

/-- **A level can be gone through**: its table is no page table of the kernel, the one hung below an
entry is none of the kernel's tables, and naming it there leaves room for windows. -/
structure Passable (K : KernelImage) (missing : Bool) (f : Frame) (x paddr : ℕ) (mem : Mem) :
    Prop where
  upper : ¬ K.IsPtt f
  fresh : missing = true → ¬ K.KernelTable (pgRoundDown paddr)
  link : missing = true → K.Able (write mem f (Fin.ofNat 512 x)
    (EarlyMmap.tableFrom paddr (entryAt mem f x)))

theorem Passable.entry {y : ℕ} (h : K.Passable missing f x paddr mem) :
    ¬ K.AreaSlot f (Fin.ofNat 512 y) := fun hs => h.upper hs.isPtt

theorem Passable.able (h : K.Passable missing f x paddr mem) (hable : K.Able mem) :
    K.Able (hang missing f x paddr mem) := by
  cases missing with
  | false => exact hable
  | true => exact (h.link rfl).fill (h.fresh rfl)

/-- **One level**: the entry is supplied, and the table below it is gone through. -/
theorem level_ok (hable : K.Able mem) (hpass : K.Passable missing f x paddr mem)
    (hs : K.Shade W mem shaded)
    (hW : W.length < 3) (hinner : K.Passes W (below missing f x paddr mem) inner
      (r ||| flagOf missing flag) (hang missing f x paddr mem) r' mem') :
    ∃ shaded', K.viaWindow (entryAt (supply missing f x paddr flag ⟨shaded, 0, r⟩).mem f x).address
      missing inner (supply missing f x paddr flag ⟨shaded, 0, r⟩) =
        .ok (.next ⟨shaded', PAGESIZE, r'⟩) ∧ K.Shade W mem' shaded' := by
  have hread : entryAt shaded f x = entryAt mem f x := hs.read hpass.entry
  cases missing with
  | false =>
    have hsupply : supply false f x paddr flag ⟨shaded, 0, r⟩ = ⟨shaded, 0, r⟩ := rfl
    rw [hsupply, hread]
    rw [show r ||| flagOf false flag = r from BitVec.or_zero] at hinner
    exact viaWindow_ok hable hs hW nofun hinner
  | true =>
    have hsupply : supply true f x paddr flag ⟨shaded, 0, r⟩ =
        ⟨write shaded f (Fin.ofNat 512 x) (EarlyMmap.tableFrom paddr (entryAt mem f x)), 0,
          r ||| flag⟩ := by
      rw [supply, if_pos rfl, hread]
    have haddr : (entryAt (write shaded f (Fin.ofNat 512 x)
        (EarlyMmap.tableFrom paddr (entryAt mem f x))) f x).address = pgRoundDown paddr := by
      rw [entryAt, write_self, EarlyMmap.tableFrom]
    rw [hsupply, haddr]
    exact viaWindow_ok (hpass.link rfl) (hs.write hpass.entry) hW
      (fun _ hptt => hpass.fresh rfl (.inr (.inr (.inr hptt)))) hinner

/-- A loop over entries goes through one of them. -/
theorem loop_once {body : ℕ → EarlyMapped → Except Fault (Turn EarlyMapped)} {s s' : EarlyMapped}
    (hn : 0 < n) (hbody : body x s = .ok (.next s'))
    (hstop : ∀ y, body y s' = .ok (.brk s')) : ∃ y, forLoop body n x s = .ok (.done y s') := by
  obtain ⟨n, rfl⟩ : ∃ m, n = m + 1 := ⟨n - 1, by omega⟩
  rw [forLoop, hbody]
  cases n with
  | zero => exact ⟨_, rfl⟩
  | succ n => exact ⟨x + 1, by simp only [forLoop, hstop]⟩

/-- One turn of a loop over the entries of `table`, above the PTEs: the entry `x` is supplied if the
entry `asked` is absent, and the table below it is gone through. -/
def earlyTurn (K : KernelImage) (stop : Prop) [Decidable stop] (table : Mem → Frame)
    (asked x paddr : ℕ) (flag : BitVec 8)
    (inner : ℕ → EarlyMapped → Except Fault (Exit EarlyMapped)) (s : EarlyMapped) :
    Except Fault (Turn EarlyMapped) :=
  if PAGESIZE ≤ s.szMapped then .ok (.brk s)
  else if stop then .ok (.brk s)
  else
    let missing := !(entryAt s.mem (table s.mem) asked).present
    let s := supply missing (table s.mem) x paddr flag s
    K.viaWindow (entryAt s.mem (table s.mem) x).address missing inner s

theorem not_pagesize_le_zero : ¬ PAGESIZE ≤ 0 := by decide

/-- **One loop over the entries of a table**: it goes through the first and stops. -/
theorem earlyTurn_loop {body : ℕ → EarlyMapped → Except Fault (Turn EarlyMapped)}
    {P : ℕ → Prop} [∀ y, Decidable (P y)] {z : ℕ → ℕ}
    {inner : ℕ → ℕ → EarlyMapped → Except Fault (Exit EarlyMapped)} (table : Mem → Frame)
    (hbody : ∀ y s, body y s = K.earlyTurn (P y) table (z y) y paddr flag (inner y) s)
    (hn : 0 < n) (hx : ¬ P x) (hmissing : missing = !(entryAt mem f (z x)).present)
    (htable : ∀ b, table (supply b f x paddr flag ⟨shaded, 0, r⟩).mem = f)
    (hable : K.Able mem) (hpass : K.Passable missing f x paddr mem) (hs : K.Shade W mem shaded)
    (hW : W.length < 3) (hinner : K.Passes W (below missing f x paddr mem) (inner x)
      (r ||| flagOf missing flag) (hang missing f x paddr mem) r' mem') :
    ∃ y shaded', forLoop body n x ⟨shaded, 0, r⟩ = .ok (.done y ⟨shaded', PAGESIZE, r'⟩) ∧
      K.Shade W mem' shaded' := by
  obtain ⟨shaded', hlevel, hs'⟩ := level_ok hable hpass hs hW hinner
  have hread : entryAt shaded f (z x) = entryAt mem f (z x) := hs.read hpass.entry
  have hshown : table shaded = f := htable false
  have hfirst : body x ⟨shaded, 0, r⟩ = .ok (.next ⟨shaded', PAGESIZE, r'⟩) := by
    rw [hbody, earlyTurn, if_neg not_pagesize_le_zero, if_neg hx, ← hlevel]
    simp only [hshown, hread, ← hmissing, htable]
  obtain ⟨y, hy⟩ := loop_once hn hfirst fun y => (hbody y _).trans (if_pos le_rfl)
  exact ⟨y, shaded', hy, hs'⟩

/-- Supplying an entry leaves the window alone. -/
theorem Shade.shown_supply (h : K.Shade ((k, f) :: W) mem shaded)
    (hs : ¬ K.AreaSlot f (Fin.ofNat 512 x)) :
    K.shown (supply missing f x paddr flag ⟨shaded, 0, r⟩).mem (kaddr k) = f := by
  cases missing with
  | false => exact h.shown
  | true => exact (h.write hs).shown

/-- **One level is gone through**: the entry asked for is missing as `m` says, and the call goes on
with the table `g` of the tables `mem'`. -/
structure LevelPass (K : KernelImage) (asked x paddr : ℕ) (m : Bool) (f : Frame) (mem : Mem)
    (g : Frame) (mem' : Mem) : Prop where
  missing : m = !(entryAt mem f asked).present
  passable : K.Passable m f x paddr mem
  table : g = below m f x paddr mem
  tables : mem' = hang m f x paddr mem

end Levels

section Loops

variable {K : KernelImage} {c : EarlyMmap} (hc : c.range.InHalf) {W : List (ℕ × Frame)}
  {mem mem₃ mem₂ mem₁ : Mem} {f f₃ f₂ f₁ : Frame} {r : BitVec 8} {m₄ m₃ m₂ : Bool}

include hc

theorem limit_eq : c.limit = c.range.limit := by
  have hv : c.vaddr % 4096 = 0 := hc.vaddr_dvd
  rw [EarlyMmap.limit, pgCeil_eq]
  change ((c.vaddr + 4096) % 2 ^ 64 + 4095) % 2 ^ 64 / 4096 * 4096 = (c.vaddr + 4096) % 2 ^ 64
  omega

omit hc in
theorem stop_eq : c.range.stop = pageNo c.vaddr + 1 := by
  have hsize : c.range.size / 4096 = 1 := Nat.div_self (show 0 < 4096 by decide)
  rw [VRange.stop, hsize, VRange.first]
  rfl

/-- The entries on the way to the page lie before `addr_limit`. -/
theorem not_limit_le {i3 i2 i1 : ℕ} (h3 : i3 < 512) (h2 : i2 < 512) (h1 : i1 < 512)
    (hle : spell (pml4x c.vaddr) i3 i2 i1 ≤ pageNo c.vaddr) :
    ¬ c.limit ≤ c.range.entryVaddr (pml4x c.vaddr) i3 i2 i1 := by
  have hlt := pageNo_lt c.vaddr
  have h4 : pml4x c.vaddr < 512 := by
    rw [pml4x_eq]
    omega
  rw [limit_eq hc, hc.limit_le_entryVaddr h4 h3 h2 h1, stop_eq]
  omega

omit hc in
theorem digits (v : ℕ) : pdptx v < 512 ∧ pdx v < 512 ∧ ptx v < 512 ∧
    spell (pml4x v) (pdptx v) (pdx v) (ptx v) = pageNo v := by
  have hlt := pageNo_lt v
  rw [pml4x_eq, pdptx_eq, pdx_eq, ptx_eq]
  simp only [spell]
  omega

theorem earlyPte_loop (hleaf : ¬ K.AreaSlot f (Fin.ofNat 512 (ptx c.vaddr))) :
    K.Passes W f (fun ptt => forLoop
      (K.earlyPte c (pml4x c.vaddr) (pdptx c.vaddr) (pdx c.vaddr) ptt)
      (512 - c.range.firstPtx (pml4x c.vaddr) (pdptx c.vaddr) (pdx c.vaddr))
      (c.range.firstPtx (pml4x c.vaddr) (pdptx c.vaddr) (pdx c.vaddr))) r mem r
      (c.pteEffect f mem) := by
  intro k shaded hs
  obtain ⟨h3, h2, h1, hspell⟩ := digits c.vaddr
  have hfirst : c.range.firstPtx (pml4x c.vaddr) (pdptx c.vaddr) (pdx c.vaddr) = ptx c.vaddr :=
    if_pos ⟨rfl, rfl, rfl⟩
  have hbody : K.earlyPte c (pml4x c.vaddr) (pdptx c.vaddr) (pdx c.vaddr) (kaddr k) (ptx c.vaddr)
      ⟨shaded, 0, r⟩ = .ok (.next ⟨c.pteEffect f shaded, PAGESIZE, r⟩) := by
    rw [earlyPte, if_neg (not_limit_le hc h3 h2 h1 hspell.le),
      hs.shown]
    rfl
  rw [hfirst]
  obtain ⟨y, hy⟩ := loop_once (show 0 < 512 - ptx c.vaddr by omega) hbody fun y => if_pos le_rfl
  exact ⟨y, _, hy, hs.write hleaf⟩

theorem earlyPde_loop (hW : W.length < 2) (hable : K.Able mem)
    (h2 : K.LevelPass (pdx c.vaddr) (pdx c.vaddr) c.ptePaddr m₂ f mem f₁ mem₁)
    (hleaf : ¬ K.AreaSlot f₁ (Fin.ofNat 512 (ptx c.vaddr))) :
    K.Passes W f (fun pdt => forLoop (K.earlyPde c (pml4x c.vaddr) (pdptx c.vaddr) pdt)
      (512 - c.range.firstPdx (pml4x c.vaddr) (pdptx c.vaddr))
      (c.range.firstPdx (pml4x c.vaddr) (pdptx c.vaddr))) r mem (r ||| (c.pdeEffect f mem).1)
      (c.pdeEffect f mem).2 := by
  intro k shaded hs
  obtain ⟨rfl, hpass, rfl, -⟩ := h2
  obtain ⟨h3, h2, h1, hspell⟩ := digits c.vaddr
  have hfirst : c.range.firstPdx (pml4x c.vaddr) (pdptx c.vaddr) = pdx c.vaddr := if_pos ⟨rfl, rfl⟩
  have hin : spell (pml4x c.vaddr) (pdptx c.vaddr) (pdx c.vaddr) 0 ≤ pageNo c.vaddr := by
    rw [← hspell]
    simp only [spell]
    omega
  rw [hfirst]
  exact earlyTurn_loop (K.shown · (kaddr k)) (fun _ _ => rfl) (by omega)
    (not_limit_le hc h3 h2 (by decide) hin) rfl
    (fun _ => hs.shown_supply hpass.entry) hable hpass hs (by rw [length_cons]; omega)
    (earlyPte_loop hc hleaf)

theorem earlyPdpte_loop (hW : W.length < 1) (hable : K.Able mem)
    (h3 : K.LevelPass 0 (pdptx c.vaddr) c.pdePaddr m₃ f mem f₂ mem₂)
    (h2 : K.LevelPass (pdx c.vaddr) (pdx c.vaddr) c.ptePaddr m₂ f₂ mem₂ f₁ mem₁)
    (hleaf : ¬ K.AreaSlot f₁ (Fin.ofNat 512 (ptx c.vaddr))) :
    K.Passes W f (fun pdpt => forLoop (K.earlyPdpte c (pml4x c.vaddr) pdpt)
      (512 - c.range.firstPdptx (pml4x c.vaddr)) (c.range.firstPdptx (pml4x c.vaddr)))
      r mem (r ||| (c.pdpteEffect f mem).1) (c.pdpteEffect f mem).2 := by
  intro k shaded hs
  obtain ⟨rfl, hpass, rfl, rfl⟩ := h3
  obtain ⟨h3, -, -, hspell⟩ := digits c.vaddr
  have hfirst : c.range.firstPdptx (pml4x c.vaddr) = pdptx c.vaddr := if_pos rfl
  have hin : spell (pml4x c.vaddr) (pdptx c.vaddr) 0 0 ≤ pageNo c.vaddr := by
    rw [← hspell]
    simp only [spell]
    omega
  rw [hfirst]
  refine earlyTurn_loop (K.shown · (kaddr k)) (fun _ _ => rfl) (by omega)
    (not_limit_le hc h3 (by decide) (by decide) hin) rfl
    (fun _ => hs.shown_supply hpass.entry) hable hpass hs (by rw [length_cons]; omega) ?_
  have := earlyPde_loop hc (r := r ||| flagOf (!(entryAt mem f 0).present) 0b010)
    (W := (k, f) :: W) (by rw [length_cons]; omega) (hpass.able hable) h2 hleaf
  rwa [BitVec.or_assoc] at this

/-- **`hn_mm_mmap_early` does to the tables what `pml4eEffect` says**, where every level can be gone
through. -/
theorem hnMmMmapEarly_eq (hable : K.Able mem)
    (h4 : K.LevelPass (pml4x c.vaddr) (pml4x c.vaddr) c.pdptePaddr m₄ f mem f₃ mem₃)
    (h3 : K.LevelPass 0 (pdptx c.vaddr) c.pdePaddr m₃ f₃ mem₃ f₂ mem₂)
    (h2 : K.LevelPass (pdx c.vaddr) (pdx c.vaddr) c.ptePaddr m₂ f₂ mem₂ f₁ mem₁)
    (hleaf : ¬ K.AreaSlot f₁ (Fin.ofNat 512 (ptx c.vaddr))) :
    ∃ shaded', K.hnMmMmapEarly c f mem = .ok ((c.pml4eEffect f mem).1, shaded') ∧
      K.Shade [] (c.pml4eEffect f mem).2 shaded' := by
  have hturns : 0 < pml4x c.limit + 1 - pml4x c.vaddr := by
    rw [limit_eq hc, hc.pml4x_limit, pml4x_eq, stop_eq]
    omega
  have hloop : ∃ y shaded', forLoop (K.earlyPml4e c f) (pml4x c.limit + 1 - pml4x c.vaddr)
      (pml4x c.vaddr) ⟨mem, 0, 0⟩ =
        .ok (.done y ⟨shaded', PAGESIZE, 0 ||| (c.pml4eEffect f mem).1⟩) ∧
      K.Shade [] (c.pml4eEffect f mem).2 shaded' := by
    obtain ⟨rfl, hpass, rfl, rfl⟩ := h4
    refine earlyTurn_loop (z := id) (fun _ => f)
      (fun _ _ => by rw [earlyTurn, if_neg id]; rfl) hturns id rfl (fun _ => rfl) hable hpass
      shade_refl (by decide) ?_
    have := earlyPdpte_loop hc (W := [])
      (r := 0 ||| flagOf (!(entryAt mem f (pml4x c.vaddr)).present) 0b100) (by decide)
      (hpass.able hable) h3 h2 hleaf
    rwa [BitVec.or_assoc] at this
  obtain ⟨y, shaded', hrun, hs⟩ := hloop
  refine ⟨shaded', ?_, hs⟩
  refine bind_eq_ok_iff.mpr ⟨_, hrun, ?_⟩
  exact congrArg (fun r => Except.ok (r, shaded')) BitVec.zero_or

end Loops

end KernelImage

end Pbos.Hal
