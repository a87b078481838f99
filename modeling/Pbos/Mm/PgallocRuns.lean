import Pbos.Lib.Run
import Pbos.Mm.FreeList

/-!
# Mm/PgallocRuns — the page allocator over whole runs

Two invariants of every run of `mm_pgalloc`, `mm_refpg` and `mm_pgfree`.

`StaleFree` is what the calls keep in any case.  The lists only shrink; a MAD that left its list, or
never was on one, keeps a null `prev_free`, and its `next_free` is null, or leads to such a MAD, or
to the first MAD of a list.  The stale links that freeing a page leaves behind are of this kind, so
later surgeries that follow them write to no listed MAD but the first.

`ExactFree` is what the lists are for: they hold the unreferenced MADs, all of them.  Taking
references keeps it, dropping the last reference to a page breaks it.
-/

namespace Pbos

open DList List

/-- `m` hangs on none of the lists. -/
def Off (L : ℕ → List ℕ) (m : ℕ) : Prop := ∀ area, m ∉ L area

/-- Every `free_list` is well formed, as initialisation builds it. -/
def FreeListsOk (P : PmadTree) (s : PgState) (L : ℕ → List ℕ) : Prop :=
  ∀ area, FreeList P s area none (L area)

/-- The links of the MADs on no list lead nowhere into a list, its first MAD excepted. -/
def OffLinksOk (P : PmadTree) (s : PgState) (L : ℕ → List ℕ) : Prop :=
  ∀ area m, P.IsMad area m → Off L m →
    s.prevFree m = none ∧
      ∀ y, s.nextFree m = some y → Off L y ∨ ∃ b, headOr (L b) none = some y

/-- Every listed MAD is the one that the address of its page leads to: the page lies in no area that
overlaps its own. -/
def Found (P : PmadTree) (L : ℕ → List ℕ) : Prop :=
  ∀ area, ∀ m ∈ L area, khGetMad P (P.rbValue m) = .ok m

/-- **The invariant of every run**: well-formed lists, whose first `prev_free` may be stale, and
harmless links elsewhere. -/
structure StaleFree (P : PmadTree) (s : PgState) (L : ℕ → List ℕ) : Prop where
  lists : ∀ area, ∃ p, FreeList P s area p (L area) ∧ ∀ m, p = some m → Off L m
  offLinks : OffLinksOk P s L
  found : Found P L

/-- The lists hold exactly the unreferenced MADs. -/
def ExactFree (P : PmadTree) (s : PgState) : Prop :=
  ∃ L, FreeListsOk P s L ∧ ∀ area m, P.IsMad area m → s.refCount m = 0 → m ∈ L area

variable {P : PmadTree} {s s' : PgState} {L : ℕ → List ℕ} {area b mad n addr : ℕ} {t : UInt8}

/-! ## Lists and areas -/

section

variable (h : StaleFree P s L)

include h

theorem StaleFree.nodup (b : ℕ) : (L b).Nodup := by
  obtain ⟨p, hb, -⟩ := h.lists b
  exact hb.nodup

theorem StaleFree.refCount (hm : mad ∈ L b) : s.refCount mad = 0 := by
  obtain ⟨p, hb, -⟩ := h.lists b
  exact hb.refCount mad hm

/-- A MAD hangs on the list of one area. -/
theorem StaleFree.area_eq {m : ℕ} (hm : m ∈ L area) (hm' : m ∈ L b) : area = b := by
  obtain ⟨p, ha, -⟩ := h.lists area
  obtain ⟨p', hb, -⟩ := h.lists b
  exact ha.area_eq hb hm hm'

/-- The head pointer of an area with a MAD. -/
theorem StaleFree.head (hmad : P.IsMad area mad) : s.freeList area = headOr (L area) none := by
  obtain ⟨p, ha, -⟩ := h.lists area
  exact ha.head_of_isMad hmad

/-- A MAD on no list of its own area is on no list. -/
theorem StaleFree.off_of_not_mem (hmad : P.IsMad area mad) (hm : mad ∉ L area) :
    Off L mad := fun b hb => by
  obtain ⟨p, hlb, -⟩ := h.lists b
  obtain rfl := hmad.area_eq (hlb.isMad mad hb)
  exact hm hb

/-- What hangs on no list once `mad` has left its own. -/
theorem StaleFree.off_erase_iff {y : ℕ} : Off (fun b => (L b).erase mad) y ↔ Off L y ∨ y = mad := by
  constructor
  · intro hy
    by_cases heq : y = mad
    · exact .inr heq
    · exact .inl fun b hb => hy b ((mem_erase_of_ne heq).mpr hb)
  · rintro (hy | rfl) b hb
    · exact hy b (mem_of_mem_erase hb)
    · exact ((h.nodup b).mem_erase_iff.mp hb).1 rfl

/-- A MAD on a list does not have the stale `prev_free` of another one. -/
theorem StaleFree.links_of_mem (hm : mad ∈ L area) :
    (∀ y, s.prevFree mad = some y → Off L y ∨ y ∈ L area) ∧
      ∀ y, s.nextFree mad = some y → y ∈ L area := by
  obtain ⟨p, ha, hp⟩ := h.lists area
  obtain ⟨hprev, hnext⟩ := ha.links_of_mem hm
  constructor
  · intro y hy
    rcases hprev with hprev | ⟨z, hz, hprev⟩
    · exact .inl (hp y (hprev.symm.trans hy))
    · exact .inr (Option.some.inj (hprev.symm.trans hy) ▸ hz)
  · intro y hy
    rcases hnext with hnext | ⟨z, hz, hnext⟩
    · rw [hnext] at hy; cases hy
    · exact Option.some.inj (hnext.symm.trans hy) ▸ hz

/-! ## One call -/

/-- The lists after the first reference to a page: its MAD leaves the list it hangs on, if any. -/
theorem StaleFree.lists_unlink (hmad : P.IsMad area mad) (b : ℕ) :
    ∃ p, FreeList P (unlinkFree (s.setRefCount mad n) area mad) b p ((L b).erase mad) ∧
      ∀ m, p = some m → Off (fun b => (L b).erase mad) m := by
  obtain ⟨p, hb, hp⟩ := h.lists b
  have hoff : ∀ m, p = some m → Off (fun b => (L b).erase mad) m := fun m hm =>
    h.off_erase_iff.mpr (.inl (hp m hm))
  by_cases hmb : mad ∈ L b
  · obtain rfl : b = area := (hb.isMad mad hmb).area_eq hmad
    exact ⟨p, hb.unlink_mem hmb fun y hy e => hp y e b hy, hoff⟩
  have hhead : b = area → s.freeList area ≠ some mad := fun hba hc => by
    rw [h.head hmad] at hc
    exact hmb (hba ▸ mem_of_headOr_eq_some hc)
  rw [erase_of_not_mem hmb]
  by_cases hma : mad ∈ L area
  · obtain ⟨hprev, hnext⟩ := h.links_of_mem hma
    have hnotin : ∀ y ∈ L b, y ∉ L area := fun y hy hya =>
      hmb (h.area_eq hya hy ▸ hma)
    obtain ⟨p', hb', rfl | ⟨-, y, hy, hny⟩⟩ := hb.unlink_not_mem hmb
      (fun y hy e => (hprev y e).elim (fun ho => ho b hy) (hnotin y hy))
      (fun y hy e => absurd (hnext y e) (hnotin y hy)) hhead
    · exact ⟨_, hb', hoff⟩
    · exact absurd (hnext y hny) (hnotin y hy)
  · have hoffm := h.off_of_not_mem hmad hma
    obtain ⟨hprev, hnext⟩ := h.offLinks area mad hmad hoffm
    have hfirst : ∀ y ∈ L b, s.nextFree mad = some y → headOr (L b) none = some y :=
      fun y hy e => by
        rcases hnext y e with ho | ⟨c, hc⟩
        · exact absurd hy (ho b)
        · exact h.area_eq (mem_of_headOr_eq_some hc) hy ▸ hc
    obtain ⟨p', hb', rfl | ⟨rfl, -⟩⟩ := hb.unlink_not_mem hmb
      (fun y _ e => by rw [hprev] at e; cases e) hfirst hhead
    · exact ⟨_, hb', hoff⟩
    · exact ⟨_, hb', fun m hm => by rw [hprev] at hm; cases hm⟩

/-- A MAD with references is on no list. -/
theorem StaleFree.off_of_refCount (hm : s.refCount mad ≠ 0) : Off L mad :=
  fun _ hb => hm (h.refCount hb)

/-- The links elsewhere after the first reference to a page. -/
theorem StaleFree.offLinks_unlink (hmad : P.IsMad area mad) :
    OffLinksOk P (unlinkFree (s.setRefCount mad n) area mad) fun b => (L b).erase mad := by
  intro c y hy hoff
  rw [unlinkFree_prevFree, unlinkFree_nextFree]
  by_cases hne : y = mad
  · simp [hne]
  have hoffy : Off L y := (h.off_erase_iff.mp hoff).resolve_right hne
  obtain ⟨hyprev, hynext⟩ := h.offLinks c y hy hoffy
  rw [if_neg hne, if_neg hne]
  change (if s.nextFree mad = some y then s.prevFree mad else s.prevFree y) = none ∧
    ∀ z, (if s.prevFree mad = some y then s.nextFree mad else s.nextFree y) = some z → _
  constructor
  · by_cases hnext : s.nextFree mad = some y
    · have hma : mad ∉ L area := fun hma => hoffy area ((h.links_of_mem hma).2 y hnext)
      rw [if_pos hnext]
      exact (h.offLinks area mad hmad (h.off_of_not_mem hmad hma)).1
    · rw [if_neg hnext, hyprev]
  · intro z hz
    by_cases hprev : s.prevFree mad = some y
    · have hma : mad ∈ L area := by
        by_contra hma
        rw [(h.offLinks area mad hmad (h.off_of_not_mem hmad hma)).1] at hprev
        cases hprev
      obtain ⟨p, ha, -⟩ := h.lists area
      obtain ⟨B, hB, hnext⟩ := ha.first_of_prev hma fun w hw e =>
        hoffy area (Option.some.inj (hprev.symm.trans e) ▸ hw)
      refine .inr ⟨area, ?_⟩
      change headOr ((L area).erase mad) none = some z
      rw [hB, erase_cons_head, ← hnext, ← hz, if_pos hprev]
    · rw [if_neg hprev] at hz
      rcases hynext z hz with ho | ⟨d, hd⟩
      · exact .inl (h.off_erase_iff.mpr (.inl ho))
      · by_cases hzm : z = mad
        · exact .inl (h.off_erase_iff.mpr (.inr hzm))
        · exact .inr ⟨d, headOr_erase_of_ne hd hzm⟩

/-- **The first reference to a page keeps the invariant.** -/
theorem StaleFree.unlink (hmad : P.IsMad area mad) :
    StaleFree P (unlinkFree (s.setRefCount mad n) area mad) fun b => (L b).erase mad :=
  ⟨h.lists_unlink hmad, h.offLinks_unlink hmad, fun b m hm => h.found b m (mem_of_mem_erase hm)⟩

/-- **Dropping the last reference keeps the invariant**: the MAD stays on no list. -/
theorem StaleFree.link (hmad : P.IsMad area mad) (hm : s.refCount mad ≠ 0) :
    StaleFree P (linkFree (s.setRefCount mad n) area mad) L := by
  have hoffm := h.off_of_refCount hm
  refine ⟨fun b => ?_, fun c y hy hoff => ?_, h.found⟩
  · obtain ⟨p, hb, hp⟩ := h.lists b
    have hhead : ∀ y ∈ L b, s.freeList area = some y → headOr (L b) none = some y :=
      fun y hy e => by
        rw [h.head hmad] at e
        exact h.area_eq (mem_of_headOr_eq_some e) hy ▸ e
    obtain ⟨p', hb', rfl | rfl⟩ := hb.link (hoffm b) hhead
    · exact ⟨_, hb', hp⟩
    · exact ⟨_, hb', fun m hm => Option.some.inj hm ▸ hoffm⟩
  · obtain ⟨hyprev, hynext⟩ := h.offLinks c y hy hoff
    rw [linkFree_prevFree, linkFree_nextFree]
    constructor
    · rw [if_neg]
      · exact hyprev
      · intro e
        exact hoff area (mem_of_headOr_eq_some ((h.head hmad).symm.trans e))
    · intro z hz
      split_ifs at hz with hym
      · exact .inr ⟨area, (h.head hmad).symm.trans hz⟩
      · exact hynext z hz

/-- Moving a positive count keeps the invariant. -/
theorem StaleFree.setRefCount (hm : s.refCount mad ≠ 0) : StaleFree P (s.setRefCount mad n) L := by
  refine ⟨fun b => ?_, h.offLinks, h.found⟩
  obtain ⟨p, hb, hp⟩ := h.lists b
  exact ⟨p, hb.setRefCount (h.off_of_refCount hm b), hp⟩

end

/-- **Every call keeps the invariant.** -/
theorem StaleFree.step (h : ∃ L, StaleFree P s L) (hstep : MadStep P s s') :
    ∃ L, StaleFree P s' L := by
  obtain ⟨L, h⟩ := h
  cases hstep with
  | none => exact ⟨L, h⟩
  | first hmad _ => exact ⟨_, h.unlink hmad⟩
  | last hmad h1 => exact ⟨L, h.link hmad (by omega)⟩
  | count _ h0 _ => exact ⟨L, h.setRefCount h0⟩

/-- **Every run keeps the invariant.** -/
theorem staleFree_of_run {calls : List PgCall} (hlists : FreeListsOk P s L)
    (hoff : OffLinksOk P s L) (hfound : Found P L) (hrun : Run (PgStep P) s calls s') :
    ∃ L', StaleFree P s' L' := by
  refine hrun.invariant (I := fun s => ∃ L, StaleFree P s L)
    (fun _ _ _ h hstep => StaleFree.step h hstep.madStep)
    ⟨L, fun area => ⟨none, hlists area, ?_⟩, hoff, hfound⟩
  intro m hm
  cases hm

/-! ## A machine with three pages

One area of usable memory at `0x1000`, with the MADs `1`, `2` and `3` of its pages `0x1000`,
`0x2000` and `0x3000`. -/

/-- The MADs of the three pages, filed by address. -/
def threeMads : OrdMap ℕ ℕ := ⟨[(0x1000, 1), (0x2000, 2), (0x3000, 3)], by decide⟩

/-- The one area. -/
def threePages : PmadTree where
  tree := ⟨[(0x1000, ⟨0x3000, 0, threeMads⟩)], by simp⟩
  rbValue := (· * 0x1000)
  home _ := 0x1000
  rbValue_of_find := @forall_find _ _ (by decide)
  home_of_find := @forall_find _ _ (by decide)

theorem threePages_isMad {area m : ℕ} :
    threePages.IsMad area m ↔ area = 0x1000 ∧ (m = 1 ∨ m = 2 ∨ m = 3) := by
  constructor
  · rintro ⟨pmad, harea, addr, haddr⟩
    obtain ⟨rfl, rfl⟩ : area = 0x1000 ∧ pmad = ⟨0x3000, 0, threeMads⟩ := by
      simpa [threePages, OrdMap.find_eq_some_iff] using harea
    rw [OrdMap.find_eq_some_iff] at haddr
    simp only [threeMads, mem_cons, Prod.mk.injEq, not_mem_nil, or_false] at haddr
    omega
  · rintro ⟨rfl, rfl | rfl | rfl⟩
    · exact ⟨_, rfl, 0x1000, rfl⟩
    · exact ⟨_, rfl, 0x2000, rfl⟩
    · exact ⟨_, rfl, 0x3000, rfl⟩

/-- The first two pages are free; the third one is in use. -/
def twoFree : PgState where
  freeList b := if b = 0x1000 then some 1 else none
  nextFree m := if m = 1 then some 2 else none
  prevFree m := if m = 2 then some 1 else none
  refCount m := if m = 3 then 1 else 0

/-- All pages are in use. -/
def noneFree : PgState where
  freeList _ := none
  nextFree _ := none
  prevFree _ := none
  refCount _ := 1

theorem twoFree_freeListsOk (s : PgState) (hfree : s.freeList = twoFree.freeList)
    (hnext : ∀ m, m = 1 ∨ m = 2 → s.nextFree m = twoFree.nextFree m)
    (hprev : ∀ m, m = 1 ∨ m = 2 → s.prevFree m = twoFree.prevFree m)
    (href : ∀ m, m = 1 ∨ m = 2 → s.refCount m = 0) :
    FreeListsOk threePages s fun b => if b = 0x1000 then [1, 2] else [] := by
  intro b
  by_cases hb : b = 0x1000
  · subst hb
    refine ⟨fun _ => by rw [hfree]; rfl, ⟨?_, ?_, ?_, ?_, trivial⟩, by decide, ?_, ?_⟩
    · exact hprev 1 (by simp)
    · exact hnext 1 (by simp)
    · exact hprev 2 (by simp)
    · exact hnext 2 (by simp)
    · intro m hm
      exact threePages_isMad.mpr ⟨rfl, by simp at hm; omega⟩
    · intro m hm
      exact href m (by simpa using hm)
  · simp only [hb]
    refine ⟨fun _ => by simp [hfree, twoFree, hb], trivial, nodup_nil, by simp, by simp⟩

theorem threePages_found (h : FreeListsOk threePages s L) : Found threePages L := by
  intro area m hm
  obtain ⟨-, rfl | rfl | rfl⟩ := threePages_isMad.mp ((h area).isMad m hm) <;> rfl

/-! ## What is handed out -/

/-- **What `mm_pgalloc` hands out** hangs on a list of the wanted type, and is taken off it. -/
theorem StaleFree.pgalloc_eq (h : StaleFree P s L) (hcall : mmPgalloc P s t = .ok (addr, s'))
    (h0 : addr ≠ 0) : ∃ area pmad mad, P.tree.find area = some pmad ∧ pmad.type = t ∧ mad ∈ L area ∧
      P.IsMad area mad ∧ P.rbValue mad = addr ∧
      s' = unlinkFree (s.setRefCount mad 1) area mad := by
  obtain ⟨haddr, ⟨hz, -⟩ | ⟨-, hused⟩⟩ := mmPgalloc_cases hcall
  · exact absurd hz h0
  obtain ⟨area, pmad, mad, hfind, htype, hhead, hrb⟩ : ∃ area pmad mad, P.tree.find area =
    some pmad ∧ pmad.type = t ∧
      s.freeList area = some mad ∧ P.rbValue mad = kiAllocFreePage P s t := by
    have h := haddr ▸ h0
    unfold kiAllocFreePage at h ⊢
    split at h
    · rename_i mad hmad
      obtain ⟨⟨area, pmad⟩, hmem, hsome⟩ := exists_of_findSome?_eq_some hmad
      by_cases htype : pmad.type = t
      · rw [if_pos htype] at hsome
        exact ⟨area, pmad, mad, P.tree.find_of_mem hmem, htype, hsome, rfl⟩
      · rw [if_neg htype] at hsome
        cases hsome
    · exact absurd rfl h
  rw [haddr] at hrb
  obtain ⟨p, ha, -⟩ := h.lists area
  have hmem : mad ∈ L area := by
    refine mem_of_headOr_eq_some ?_
    rw [← ha.head (by rw [hfind]; rfl), hhead]
  have hmad := ha.isMad mad hmem
  have hget : khGetMad P addr = .ok mad := hrb ▸ h.found area mad hmem
  have harea : areaOf P addr = area := (PmadTree.isMad_of_khGetMad hget).1.area_eq hmad
  refine ⟨area, pmad, mad, hfind, htype, hmem, hmad, hrb, ?_⟩
  obtain ⟨mad', hget', ⟨-, rfl⟩ | ⟨hne, -⟩⟩ := kiSetPageUsed_cases hused <;>
    obtain rfl : mad = mad' := Except.ok.inj (hget.symm.trans hget')
  · rw [harea]
  · exact absurd (ha.refCount mad hmem) hne

/-- **A page is handed out with its first reference.** -/
theorem StaleFree.pgalloc (h : StaleFree P s L) (hcall : mmPgalloc P s t = .ok (addr, s'))
    (h0 : addr ≠ 0) : ∃ area pmad mad, P.tree.find area = some pmad ∧ pmad.type = t ∧
      pmad.queryTree.find addr = some mad ∧ s.refCount mad = 0 ∧ s'.refCount mad = 1 := by
  obtain ⟨area, pmad, mad, hfind, htype, hmem, ⟨pmad', hfind', addr', hquery⟩, hrb, rfl⟩ :=
    h.pgalloc_eq hcall h0
  obtain rfl : pmad = pmad' := Option.some.inj (hfind.symm.trans hfind')
  obtain rfl : addr' = addr := (P.rbValue_of_find hfind hquery).symm.trans hrb
  exact ⟨area, pmad, mad, hfind, htype, hquery, h.refCount hmem, by simp⟩

/-- **The assertion of `ki_set_page_free` holds**: a MAD with references is on no list, so its
`prev_free` is null and stays so. -/
theorem StaleFree.pgfree_ne_assertion (h : StaleFree P s L) (ptr : ℕ) (file : String) (line : ℕ) :
    mmPgfree P s ptr ≠ .error (.assertion file line) := by
  intro hcall
  unfold mmPgfree kiSetPageFree at hcall
  cases hget : khGetMad P ptr with
  | error e =>
    simp only [hget, Except.error.injEq] at hcall
    subst hcall
    unfold khGetMad at hget
    split at hget
    · cases hget
    · split at hget <;> cases hget
  | ok mad =>
    obtain ⟨hmad, -⟩ := PmadTree.isMad_of_khGetMad hget
    simp only [hget] at hcall
    split at hcall
    · cases hcall
    rename_i h0
    have hoff := h.off_of_refCount h0
    have hprev : (linkFree (s.setRefCount mad (s.refCount mad - 1)) (areaOf P ptr) mad).prevFree mad
        = none := by
      rw [linkFree_prevFree, if_neg]
      · exact (h.offLinks _ mad hmad hoff).1
      · intro e
        exact hoff _ (mem_of_headOr_eq_some ((h.head hmad).symm.trans e))
    split at hcall <;> cases hcall

/-- **No page is handed out while it is referenced, and no assertion fires**, in any run from
well-formed lists of MADs that are found, with harmless links elsewhere. -/
theorem mmPgalloc_unreferenced_of_run {calls : List PgCall} (hlists : FreeListsOk P s L)
    (hoff : OffLinksOk P s L) (hfound : Found P L) (hrun : Run (PgStep P) s calls s') :
    (∀ t addr s'', mmPgalloc P s' t = .ok (addr, s'') → addr ≠ 0 →
      ∃ area pmad mad, P.tree.find area = some pmad ∧ pmad.type = t ∧
        pmad.queryTree.find addr = some mad ∧ s'.refCount mad = 0 ∧ s''.refCount mad = 1) ∧
    ∀ ptr file line, mmPgfree P s' ptr ≠ .error (.assertion file line) := by
  obtain ⟨L', h⟩ := staleFree_of_run hlists hoff hfound hrun
  exact ⟨fun t addr s'' hcall h0 => h.pgalloc hcall h0, h.pgfree_ne_assertion⟩

theorem forall_of_ok {x : Except Fault ℕ} {m : ℕ} {p : ℕ → Prop} (hx : x = .ok m) (hm : p m) :
    ∀ n, x = .ok n → p n := fun _ hn => Except.ok.inj (hx.symm.trans hn) ▸ hm

/-- One allocation from the machine with two free pages. -/
theorem mmPgalloc_unreferenced_twoFree :
    FreeListsOk threePages twoFree (fun b => if b = 0x1000 then [1, 2] else []) ∧
    ∃ s', Run (PgStep threePages) twoFree [.pgalloc 0] s' ∧
      ∀ ptr file line, mmPgfree threePages s' ptr ≠ .error (.assertion file line) := by
  have hlists := twoFree_freeListsOk twoFree rfl (fun _ _ => rfl) (fun _ _ => rfl)
    (by rintro m (rfl | rfl) <;> rfl)
  have hoff : OffLinksOk threePages twoFree fun b => if b = 0x1000 then [1, 2] else [] := by
    intro area m hm hoffm
    obtain ⟨-, rfl | rfl | rfl⟩ := threePages_isMad.mp hm
    · exact absurd (by simp) (hoffm 0x1000)
    · exact absurd (by simp) (hoffm 0x1000)
    · exact ⟨rfl, fun y hy => by cases hy⟩
  have hrun : Run (PgStep threePages) twoFree [.pgalloc 0]
      (unlinkFree (twoFree.setRefCount 1 1) 0x1000 1) :=
    .cons ⟨0x1000, rfl, fun _ => forall_of_ok rfl (by decide)⟩ (.nil _)
  exact ⟨hlists, _, hrun,
    (mmPgalloc_unreferenced_of_run hlists hoff (threePages_found hlists) hrun).2⟩

/-- All pages are in use, and the third MAD has a `prev_free`. -/
def stalePrev : PgState := noneFree.setPrevFree (some 3) (some 1)

/-- The first two pages are free; the third one is free as well, on no list, and its `next_free`
leads to the second MAD of the list. -/
def strayNext : PgState := (twoFree.setRefCount 3 0).setNextFree (some 3) (some 2)

/-- The three pages, and a second area over the last one, with a MAD of its own. -/
def overlapping : PmadTree where
  tree := ⟨[(0x1000, ⟨0x3000, 0, threeMads⟩), (0x3000, ⟨0x1000, 0, ⟨[(0x3000, 4)], by decide⟩⟩)],
    by simp⟩
  rbValue m := min m 3 * 0x1000
  home m := if m = 4 then 0x3000 else 0x1000
  rbValue_of_find := @forall_find _ _ (by decide)
  home_of_find := @forall_find _ _ (by decide)

/-- The last page is free in the first area, and in use in the second. -/
def halfFree : PgState where
  freeList b := if b = 0x1000 then some 3 else none
  nextFree _ := none
  prevFree _ := none
  refCount m := if m = 3 then 0 else 1

/-- **Well-formed lists alone are not enough.**  A `prev_free` left in a MAD in use trips the
assertion; a `next_free` leading into a list from outside makes the allocator hand out page `0x2000`
while it is referenced; so does a second area over a page, with null links everywhere. -/
theorem mmPgalloc_referenced_of_stray_links : (FreeListsOk threePages stalePrev (fun _ => []) ∧
      mmPgfree threePages stalePrev 0x3000 = .error (.assertion "kernel/mm/pgalloc.cc" 89)) ∧
    (FreeListsOk threePages strayNext (fun b => if b = 0x1000 then [1, 2] else []) ∧
      ∃ s', Run (PgStep threePages) strayNext [.refpg 0x3000, .refpg 0x2000, .pgalloc 0] s' ∧
        ∃ s'', mmPgalloc threePages s' 0 = .ok (0x2000, s'') ∧
          threeMads.find 0x2000 = some 2 ∧ s'.refCount 2 = 1) ∧
    FreeListsOk overlapping halfFree (fun b => if b = 0x1000 then [3] else []) ∧
      ∃ s', mmPgalloc overlapping halfFree 0 = .ok (0x3000, s') ∧
        khGetMad overlapping 0x3000 = .ok 4 ∧ halfFree.refCount 4 = 1 := by
  refine ⟨⟨fun b => ⟨fun _ => rfl, trivial, nodup_nil, by simp, by simp⟩, rfl⟩, ⟨?_, ?_⟩, ?_,
    _, rfl, rfl, rfl⟩
  · exact twoFree_freeListsOk strayNext rfl (by rintro m (rfl | rfl) <;> rfl)
      (by rintro m (rfl | rfl) <;> rfl) (by rintro m (rfl | rfl) <;> rfl)
  · exact ⟨_, .cons ⟨rfl, forall_of_ok rfl (by decide)⟩ (.cons ⟨rfl, forall_of_ok rfl (by decide)⟩
      (.cons ⟨0x1000, rfl, fun _ => forall_of_ok rfl (by decide)⟩ (.nil _))), _, rfl, rfl, rfl⟩
  · intro b
    by_cases hb : b = 0x1000
    · subst hb
      refine ⟨fun _ => rfl, ⟨rfl, rfl, trivial⟩, by decide, fun m hm => ?_, fun m hm => ?_⟩ <;>
        obtain rfl := mem_singleton.mp hm
      · exact ⟨_, rfl, 0x3000, rfl⟩
      · rfl
    · simp only [hb]
      exact ⟨fun _ => by simp [halfFree, hb], trivial, nodup_nil, by simp, by simp⟩

/-! ## Exact lists -/

/-- Lists as initialisation builds them hold no MAD twice. -/
theorem FreeListsOk.unlink (h : FreeListsOk P s L) (hmem : mad ∈ L area) :
    FreeListsOk P (unlinkFree (s.setRefCount mad n) area mad) fun b => (L b).erase mad := by
  intro b
  by_cases hb : mad ∈ L b
  · obtain rfl := (h b).area_eq (h area) hb hmem
    exact (h b).unlink_mem hb (by simp)
  · have hnotin : ∀ y ∈ L b, y ∉ L area := fun y hy hya => by
      obtain rfl := (h b).area_eq (h area) hy hya
      exact hb hmem
    obtain ⟨hprev, hnext⟩ := (h area).links_of_mem hmem
    have hnext' : ∀ y ∈ L b, s.nextFree mad ≠ some y := fun y hy e => by
      rcases hnext with hn | ⟨z, hz, hn⟩
      · rw [hn] at e; cases e
      · exact hnotin y hy (Option.some.inj (hn.symm.trans e) ▸ hz)
    have hprev' : ∀ y ∈ L b, s.prevFree mad ≠ some y := fun y hy e => by
      rcases hprev with hp | ⟨z, hz, hp⟩
      · rw [hp] at e; cases e
      · exact hnotin y hy (Option.some.inj (hp.symm.trans e) ▸ hz)
    have hhead : b = area → s.freeList area ≠ some mad := fun hba _ => hb (hba ▸ hmem)
    obtain ⟨p', hb', rfl | ⟨-, y, hy, hny⟩⟩ := (h b).unlink_not_mem hb hprev'
      (fun y hy e => absurd e (hnext' y hy)) hhead
    · simp only [erase_of_not_mem hb]
      exact hb'
    · exact absurd hny (hnext' y hy)

/-- Moving a positive count keeps the lists exact. -/
theorem ExactFree.setRefCount (h : ExactFree P s) (h0 : s.refCount mad ≠ 0) (hn : n ≠ 0) :
    ExactFree P (s.setRefCount mad n) := by
  obtain ⟨L, hlists, hall⟩ := h
  refine ⟨L, fun b => (hlists b).setRefCount fun hb => h0 ((hlists b).refCount mad hb),
    fun b y hy hy0 => ?_⟩
  have hne : y ≠ mad := by
    rintro rfl
    simp [hn] at hy0
  exact hall b y hy (by simpa [hne] using hy0)

/-- **Dropping the last reference to a page loses the page**: its MAD is unreferenced, and the list
of its area is the one it was. -/
theorem ExactFree.not_link (h : ExactFree P s) (hmad : P.IsMad area mad)
    (h0 : s.refCount mad ≠ 0) : ¬ ExactFree P (linkFree (s.setRefCount mad 0) area mad) := by
  rintro ⟨L', hlists', hall'⟩
  obtain ⟨L, hlists, -⟩ := h
  have hm : mad ∉ L area := fun hm => h0 ((hlists area).refCount mad hm)
  have hhead := (hlists area).head_of_isMad hmad
  obtain ⟨p, hlink, -⟩ := (hlists area).link hm fun y _ e => hhead.symm.trans e
  have hL : L' area = L area := (hlists' area).chain.unique hlink.chain
    (((hlists' area).head_of_isMad hmad).symm.trans (hlink.head_of_isMad hmad))
  exact hm (hL ▸ hall' area mad hmad (by simp))

/-- Page `0`, whose address is the null pointer, is not a free page of type `t`. -/
def PageZeroHeld (P : PmadTree) (s : PgState) (t : UInt8) : Prop :=
  ∀ area pmad mad, P.tree.find area = some pmad → pmad.type = t →
    pmad.queryTree.find 0 = some mad → s.refCount mad ≠ 0

/-- What a call must respect for the lists to stay exact: no last reference is dropped, and no
allocation meets a free page at the null address. -/
def KeepsFree (P : PmadTree) (s : PgState) : PgCall → Prop
  | .pgalloc t => PageZeroHeld P s t
  | .refpg _ => True
  | .pgfree ptr => ∀ mad, khGetMad P ptr = .ok mad → s.refCount mad ≠ 1

/-- With exact lists, `mm_pgalloc` fails only when every page of the type is referenced. -/
theorem ExactFree.pgalloc_null (h : ExactFree P s) (hz : PageZeroHeld P s t)
    (hcall : mmPgalloc P s t = .ok (0, s')) {area : ℕ} {pmad : KiPmad}
    (hfind : P.tree.find area = some pmad) (htype : pmad.type = t)
    (hquery : pmad.queryTree.find addr = some mad) : s.refCount mad ≠ 0 := by
  obtain ⟨L, hlists, hall⟩ := h
  obtain ⟨haddr, -⟩ := mmPgalloc_cases hcall
  have hmad : P.IsMad area mad := ⟨pmad, hfind, addr, hquery⟩
  intro h0
  have hmem := hall area mad hmad h0
  unfold kiAllocFreePage at haddr
  split at haddr
  · rename_i m hm
    obtain ⟨⟨b, pmad'⟩, hb, hsome⟩ := exists_of_findSome?_eq_some hm
    by_cases htype' : pmad'.type = t
    · rw [if_pos htype'] at hsome
      have hfind' := P.tree.find_of_mem hb
      have hhead := (hlists b).head (by rw [hfind']; rfl)
      have hmb : m ∈ L b := mem_of_headOr_eq_some (hhead.symm.trans hsome)
      obtain ⟨pmad₂, hfind₂, addr₂, hquery₂⟩ := (hlists b).isMad m hmb
      obtain rfl : pmad' = pmad₂ := Option.some.inj (hfind'.symm.trans hfind₂)
      have haddr₂ : addr₂ = 0 := (P.rbValue_of_find hfind₂ hquery₂).symm.trans haddr
      exact hz b pmad' m hfind' htype' (haddr₂ ▸ hquery₂) ((hlists b).refCount m hmb)
    · rw [if_neg htype'] at hsome
      cases hsome
  · rename_i hnone
    have hnil := List.findSome?_eq_none_iff.mp hnone (area, pmad) (P.tree.find_eq_some_iff.mp hfind)
    rw [if_pos htype, (hlists area).head_of_isMad hmad, headOr_eq_none_iff] at hnil
    rw [hnil] at hmem
    cases hmem

/-- **A call keeps exact lists exact unless it drops the last reference to a page.** -/
theorem ExactFree.step_iff {call : PgCall} (h : ExactFree P s) (hstep : PgStep P s call s') :
    ExactFree P s' ↔
      ∀ ptr mad, call = .pgfree ptr → khGetMad P ptr = .ok mad → s.refCount mad ≠ 1 := by
  have hused : ∀ {addr}, kiSetPageUsed P s addr = .ok s' → NoOverflow P s addr →
      ExactFree P s' := fun hu hover => by
    obtain ⟨mad, hget, ⟨h0, rfl⟩ | ⟨h0, rfl⟩⟩ := kiSetPageUsed_cases hu
    · obtain ⟨L, hlists, hall⟩ := h
      refine ⟨_, hlists.unlink (hall _ mad (PmadTree.isMad_of_khGetMad hget).1 h0),
        fun b y hy hy0 => ?_⟩
      have hne : y ≠ mad := by
        rintro rfl
        simp at hy0
      exact (mem_erase_of_ne hne).mpr (hall b y hy (by simpa [hne] using hy0))
    · refine h.setRefCount h0 ?_
      rw [Nat.mod_eq_of_lt (hover mad hget)]
      exact Nat.succ_ne_zero _
  cases call with
  | pgalloc t =>
    obtain ⟨addr, hcall, hover⟩ := hstep
    refine iff_of_true ?_ fun _ _ e => by cases e
    obtain ⟨-, ⟨-, rfl⟩ | ⟨h0, hu⟩⟩ := mmPgalloc_cases hcall
    · exact h
    · exact hused hu (hover h0)
  | refpg ptr => exact iff_of_true (hused hstep.1 hstep.2) fun _ _ e => by cases e
  | pgfree ptr =>
    obtain ⟨mad, hget, hcases⟩ := kiSetPageFree_cases hstep
    have hcond : (∀ ptr' mad', PgCall.pgfree ptr = .pgfree ptr' → khGetMad P ptr' = .ok mad' →
        s.refCount mad' ≠ 1) ↔ s.refCount mad ≠ 1 := by
      constructor
      · exact fun hall => hall ptr mad rfl hget
      · rintro h1 _ mad' ⟨⟩ hget'
        obtain rfl := Except.ok.inj (hget.symm.trans hget')
        exact h1
    rw [hcond]
    obtain ⟨h0, rfl⟩ | ⟨h1, rfl⟩ | ⟨h1, rfl⟩ := hcases
    · exact iff_of_true h (by omega)
    · exact iff_of_false (h.not_link (PmadTree.isMad_of_khGetMad hget).1 (by omega)) (by omega)
    · exact iff_of_true (h.setRefCount (by omega) (by omega)) (by omega)

/-- **The lists stay exact over every run that drops no last reference**; then `mm_pgalloc` fails
only when every page of the type is referenced, and the next call keeps the lists exact under the
same condition and no other. -/
theorem exactFree_of_run {calls : List PgCall} (h : ExactFree P s)
    (hrun : Run (fun s call s' => PgStep P s call s' ∧ KeepsFree P s call) s calls s') :
    ExactFree P s' ∧
    (∀ t s'', mmPgalloc P s' t = .ok (0, s'') → KeepsFree P s' (.pgalloc t) →
      ∀ area pmad addr mad, P.tree.find area = some pmad → pmad.type = t →
        pmad.queryTree.find addr = some mad → s'.refCount mad ≠ 0) ∧
    ∀ call s'', PgStep P s' call s'' → (ExactFree P s'' ↔
      ∀ ptr mad, call = .pgfree ptr → khGetMad P ptr = .ok mad → s'.refCount mad ≠ 1) := by
  have hs' : ExactFree P s' := by
    refine hrun.invariant (fun s call s' hs hstep => (hs.step_iff hstep.1).mpr ?_) h
    rintro ptr mad rfl hget
    exact hstep.2 mad hget
  exact ⟨hs', fun t s'' hcall hz area pmad addr mad hfind htype hquery =>
    hs'.pgalloc_null hz hcall hfind htype hquery, fun call s'' hstep => hs'.step_iff hstep⟩

theorem threePages_pageZeroHeld : PageZeroHeld threePages s t := by
  intro area pmad mad hfind _ hquery
  obtain ⟨-, hmad⟩ := threePages_isMad.mp ⟨pmad, hfind, 0, hquery⟩
  have hrb : mad * 0x1000 = 0 := threePages.rbValue_of_find hfind hquery
  omega

/-- The two free pages are handed out, with a second reference to the third one taken and dropped in
between; then the list is empty, and all pages are referenced. -/
theorem exactFree_twoFree : ∃ s',
    Run (fun s call s' => PgStep threePages s call s' ∧ KeepsFree threePages s call) twoFree
      [.pgalloc 0, .refpg 0x3000, .pgfree 0x3000, .pgalloc 0] s' ∧
    ExactFree threePages s' ∧ mmPgalloc threePages s' 0 = .ok (0, s') ∧
    ∀ addr mad, threeMads.find addr = some mad → s'.refCount mad ≠ 0 := by
  have h : ExactFree threePages twoFree := by
    refine ⟨_, twoFree_freeListsOk twoFree rfl (fun _ _ => rfl) (fun _ _ => rfl)
      (by rintro m (rfl | rfl) <;> rfl), fun b m hm h0 => ?_⟩
    obtain ⟨rfl, rfl | rfl | rfl⟩ := threePages_isMad.mp hm
    · simp
    · simp
    · cases h0
  obtain ⟨s', hrun, hcall⟩ : ∃ s', Run (fun s call s' => PgStep threePages s call s' ∧
      KeepsFree threePages s call) twoFree [.pgalloc 0, .refpg 0x3000, .pgfree 0x3000, .pgalloc 0]
      s' ∧ mmPgalloc threePages s' 0 = .ok (0, s') :=
    ⟨_, .cons ⟨⟨0x1000, rfl, fun _ => forall_of_ok rfl (by decide)⟩, threePages_pageZeroHeld⟩
      (.cons ⟨⟨rfl, forall_of_ok rfl (by decide)⟩, trivial⟩
      (.cons ⟨rfl, forall_of_ok rfl (by decide)⟩
      (.cons ⟨⟨0x2000, rfl, fun _ => forall_of_ok rfl (by decide)⟩, threePages_pageZeroHeld⟩
      (.nil _)))), rfl⟩
  obtain ⟨hexact, hnull, -⟩ := exactFree_of_run h hrun
  exact ⟨s', hrun, hexact, hcall, fun addr mad hquery =>
    hnull 0 s' hcall threePages_pageZeroHeld 0x1000 _ addr mad rfl rfl hquery⟩

/-- **A freed page is lost.**  All pages are in use and the lists are exact; `mm_pgfree` drops the
one reference to page `0x1000`, the list stays empty, and `mm_pgalloc` returns the null pointer. -/
theorem mmPgfree_loses_page : ExactFree threePages noneFree ∧
    ∃ s', Run (PgStep threePages) noneFree [.pgfree 0x1000] s' ∧ ¬ ExactFree threePages s' ∧
      threeMads.find 0x1000 = some 1 ∧ s'.refCount 1 = 0 ∧
      mmPgalloc threePages s' 0 = .ok (0, s') := by
  have h : ExactFree threePages noneFree := ⟨fun _ => [], fun b => ⟨fun _ => rfl, trivial,
    nodup_nil, by simp, by simp⟩, fun _ _ _ h0 => by cases h0⟩
  refine ⟨h, linkFree (noneFree.setRefCount 1 0) 0x1000 1, .cons rfl (.nil _), ?_, rfl, rfl, rfl⟩
  exact h.not_link (threePages_isMad.mpr ⟨rfl, by simp⟩) Nat.one_ne_zero

end Pbos
