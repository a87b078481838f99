import Pbos.Mm.KimaOps

/-!
# Mm/KimaPages — the loops of kima over pages

Each loop of `malloc.cc` over the pages of an area, read on the two maps of a pool.  None of them
touches a block; `refPages` and `unrefPages` move the counts of the pages they are given by one,
`newPages` describes new pages with one reference each, and `dropPages` takes descriptions away.
-/

namespace Pbos.Mm

open Pbos.Kfxx OrdMap

variable {σ : Type} {A : PtrAdd} {V : Vm σ} {L : Layout} {k k' : Kima σ} {a b n pg size i i' q : ℕ}
  {js is : List ℕ} {complete : Bool}

/-- The sum of two addresses, where it is taken, is the true one. -/
def ExactAt (A : PtrAdd) (a b : ℕ) : Prop := ∀ c, A a b = .ok c → c = a + b

theorem exactAt_checkedAdd (a b : ℕ) : ExactAt checkedAdd a b := fun c h => by
  unfold checkedAdd at h
  split at h
  · cases h
    rfl
  · cases h

theorem exactAt_wrapAdd (h : a + b < 2 ^ 64) : ExactAt wrapAdd a b := fun c hc => by
  cases hc
  exact Word.add_of_lt h

theorem lt_of_checkedAdd {c : ℕ} (h : checkedAdd a b = .ok c) : a + b < 2 ^ 64 := by
  unfold checkedAdd at h
  split at h
  · assumption
  · cases h

/-! ## One reference more -/

/-- **`refPages` adds one to the count of each page of an area.** -/
theorem refPages_cases {base : ℕ} (hA : ∀ j ∈ js, ExactAt A base j) (hjs : js.Nodup)
    (h : k.pool.Ok L) (hrun : refPages A base js k = .ok k') :
    k'.pool.Ok L ∧ k'.pool.live = k.pool.live ∧
      ∀ q, k'.pool.pages.find q = if q ∈ js.map (base + ·) then
        (k.pool.pages.find q).map (Word.add · 1) else k.pool.pages.find q := by
  induction js generalizing k with
  | nil =>
    cases hrun
    exact ⟨h, rfl, by simp⟩
  | cons j js ih =>
    obtain ⟨hj, hjs⟩ := List.nodup_cons.mp hjs
    obtain ⟨page, hpage, hrun⟩ := of_bind hrun
    obtain rfl := hA j List.mem_cons_self page hpage
    split at hrun
    · cases hrun
    · rename_i vpgdesc hfind
      obtain ⟨hok₁, hlive₁, hpages₁⟩ :=
        setRefCount_spec h hfind (Word.add (k.refCount vpgdesc) 1)
      obtain ⟨hok, hlive, hpages⟩ := ih (fun i hi => hA i (List.mem_cons_of_mem _ hi)) hjs hok₁ hrun
      refine ⟨hok, hlive.trans (live_of_slots_eq hlive₁), fun q => ?_⟩
      rw [hpages q, hpages₁, find_insert]
      by_cases hq : q = base + j
      · have hnot : base + j ∉ js.map (base + ·) := fun hmem => by
          obtain ⟨i, hi, he⟩ := List.mem_map.mp hmem
          exact hj (Nat.add_left_cancel he ▸ hi)
        rw [hq, if_neg hnot, if_pos rfl, if_pos (by simp), pages_find, hfind]
        rfl
      · have hiff : q ∈ (j :: js).map (base + ·) ↔ q ∈ js.map (base + ·) := by simp [hq]
        simp only [hiff, if_neg hq]

/-! ## New pages -/

/-- One new page, described with one reference. -/
theorem newPage_cases (hV : V.Contract L) (h : k.pool.Ok L) {page : ℕ}
    (hrun : kimaAllocVpgdesc V L k page = .ok (some n, k')) :
    let k'' := k'.setRefCount n (Word.add (k'.refCount n) 1)
    k''.pool.Ok L ∧ k''.pool.live = k.pool.live ∧ k.pool.pages.find page = none ∧
      ∀ q, k''.pool.pages.find q = if q = page then some 1 else k.pool.pages.find q := by
  obtain ⟨hok, hlive, ⟨hr, -⟩ | ⟨m, hr, hnone, hfind, hpages⟩⟩ := kimaAllocVpgdesc_cases hV h hrun
  · cases hr
  · cases hr
    obtain ⟨hok₁, hlive₁, hpages₁⟩ := setRefCount_spec hok hfind (Word.add (k'.refCount n) 1)
    have hzero : k'.refCount n = 0 := by
      have hcount := pages_find k' page
      rw [hpages, find_insert, if_pos rfl, hfind] at hcount
      exact (Option.some.inj hcount).symm
    refine ⟨hok₁, (live_of_slots_eq hlive₁).trans hlive, hnone, fun q => ?_⟩
    rw [hpages₁, find_insert, hzero, hpages, find_insert]
    split <;> rfl

/-- `newPages` keeps a pool in order and leaves the blocks alone. -/
theorem newPages_ok (hV : V.Contract L) (h : k.pool.Ok L)
    (hrun : newPages A V L pg size n i k = .ok (i', complete, k')) :
    k'.pool.Ok L ∧ k'.pool.live = k.pool.live := by
  induction n generalizing i k with
  | zero => cases hrun
  | succ n ih =>
    unfold newPages at hrun
    split at hrun
    · obtain ⟨page, -, ⟨r, k₁⟩, halloc, hrun⟩ := by simpa only [bind_eq_ok_iff] using hrun
      cases r with
      | none =>
        cases hrun
        obtain ⟨hok, hlive, -⟩ := kimaAllocVpgdesc_cases hV h halloc
        exact ⟨hok, hlive⟩
      | some m =>
        obtain ⟨hok, hlive, -⟩ := newPage_cases hV h halloc
        obtain ⟨hok', hlive'⟩ := ih hok hrun
        exact ⟨hok', hlive'.trans hlive⟩
    · cases hrun
      exact ⟨h, rfl⟩

/-- When no address wraps, every page of the new block has an address. -/
theorem newPages_checked (hsize : size ≤ 2 ^ 64) (hi : L.pageSize ∣ i)
    (hrun : newPages checkedAdd V L pg size n i k = .ok (i', true, k')) {j : ℕ}
    (hj : L.pageSize ∣ j) (hij : i ≤ j) (hjs : j < size) : pg + j < 2 ^ 64 := by
  induction n generalizing i k with
  | zero => cases hrun
  | succ n ih =>
    unfold newPages at hrun
    rw [if_pos (hij.trans_lt hjs)] at hrun
    obtain ⟨page, hadd, ⟨r, k₁⟩, -, hrun⟩ := by simpa only [bind_eq_ok_iff] using hrun
    rcases hij.eq_or_lt with rfl | hlt
    · exact lt_of_checkedAdd hadd
    · cases r with
      | none => cases hrun
      | some m =>
        have hstep : i + L.pageSize ≤ j := by
          obtain ⟨a, rfl⟩ := hi
          obtain ⟨b, rfl⟩ := hj
          exact Nat.mul_le_mul_left _ (lt_of_mul_lt_mul_left hlt (Nat.zero_le _))
        have hword : Word.add i L.pageSize = i + L.pageSize := Word.add_of_lt (by omega)
        rw [hword] at hrun
        exact ih (Nat.dvd_add hi dvd_rfl) hrun hstep

/-- **`newPages` describes the new pages with one reference each**, up to the offset where it
stops. -/
theorem newPages_cases (hV : V.Contract L) (h : k.pool.Ok L) (hA : ∀ i < size, ExactAt A pg i)
    (hsize : size + L.pageSize ≤ 2 ^ 64) (hpg : L.pageSize ∣ pg)
    (hi : L.pageSize ∣ i) (hrun : newPages A V L pg size n i k = .ok (i', complete, k')) :
    L.pageSize ∣ i' ∧ i ≤ i' ∧ (complete = true → size ≤ i') ∧
      (i < size + L.pageSize → i' < size + L.pageSize) ∧
      ∀ q, (L.pageSize ∣ q ∧ pg + i ≤ q ∧ q < pg + i' → k.pool.pages.find q = none) ∧
        k'.pool.pages.find q = if L.pageSize ∣ q ∧ pg + i ≤ q ∧ q < pg + i' then some 1
          else k.pool.pages.find q := by
  induction n generalizing i k with
  | zero => cases hrun
  | succ n ih =>
    unfold newPages at hrun
    split at hrun
    · rename_i hlt
      obtain ⟨page, hadd, ⟨r, k₁⟩, halloc, hrun⟩ := by simpa only [bind_eq_ok_iff] using hrun
      obtain rfl := hA i hlt page hadd
      cases r with
      | none =>
        cases hrun
        obtain ⟨-, -, ⟨-, hpages⟩ | ⟨m, hr, -⟩⟩ := kimaAllocVpgdesc_cases hV h halloc
        · refine ⟨hi, le_rfl, by simp, id, fun q => ⟨fun hq => by omega, ?_⟩⟩
          rw [if_neg (by omega), hpages]
        · cases hr
      | some m =>
        obtain ⟨hok, -, hnone, hpages⟩ := newPage_cases hV h halloc
        have hword : Word.add i L.pageSize = i + L.pageSize := Word.add_of_lt (by omega)
        rw [hword] at hrun
        obtain ⟨hi', hle, hdone, hlast, hq⟩ := ih hok (Nat.dvd_add hi dvd_rfl) hrun
        have hpos := L.pageSize_pos
        have hsplit : ∀ q, (L.pageSize ∣ q ∧ pg + i ≤ q ∧ q < pg + i') ↔
            q = pg + i ∨ (L.pageSize ∣ q ∧ pg + (i + L.pageSize) ≤ q ∧ q < pg + i') := fun q => by
          constructor
          · rintro ⟨hdvd, hqlo, hqhi⟩
            by_cases he : q = pg + i
            · exact .inl he
            · have hnext := Nat.le_of_dvd (by omega) (Nat.dvd_sub hdvd (Nat.dvd_add hpg hi))
              exact .inr ⟨hdvd, by omega, hqhi⟩
          · rintro (rfl | ⟨hdvd, hqlo, hqhi⟩)
            · exact ⟨Nat.dvd_add hpg hi, le_rfl, by omega⟩
            · exact ⟨hdvd, by omega, hqhi⟩
        refine ⟨hi', by omega, hdone, fun _ => ?_, fun q => ⟨fun hmem => ?_, ?_⟩⟩
        · exact hlast (by omega)
        · rcases (hsplit q).mp hmem with rfl | hmem
          · exact hnone
          · have := (hq q).1 hmem
            rw [hpages q] at this
            split at this
            · cases this
            · exact this
        · rw [(hq q).2, hpages q]
          simp only [hsplit q]
          by_cases he : q = pg + i
          · simp [he]
          · simp [he]
    · cases hrun
      refine ⟨hi, le_rfl, fun _ => by omega, id, fun q => ⟨fun hq => by omega, ?_⟩⟩
      rw [if_neg (by omega)]

/-! ## Taking descriptions away -/

/-- **`dropPages` takes the descriptions of the pages of an area away.** -/
theorem dropPages_cases (hA : ∀ j ∈ js, ExactAt A pg j) (h : k.pool.Ok L)
    (hrun : dropPages A V L pg js k = .ok k') :
    k'.pool.Ok L ∧ k'.pool.live = k.pool.live ∧
      ∀ q, k'.pool.pages.find q = if q ∈ js.map (pg + ·) then none else k.pool.pages.find q := by
  induction js generalizing k with
  | nil =>
    cases hrun
    exact ⟨h, rfl, by simp⟩
  | cons j js ih =>
    obtain ⟨page, hpage, hrun⟩ := of_bind hrun
    obtain rfl := hA j List.mem_cons_self page hpage
    split at hrun
    · cases hrun
    · rename_i vpgdesc hfind
      obtain ⟨k₁, hfree, hrun⟩ := of_bind hrun
      rcases kimaFreeVpgdesc_spec h hfind with ⟨k₂, hfree', hok₁, hlive₁, hpages₁⟩ |
        ⟨err, -, hfree'⟩
      · obtain rfl : k₂ = k₁ := by simpa using hfree'.symm.trans hfree
        obtain ⟨hok, hlive, hpages⟩ := ih (fun i hi => hA i (List.mem_cons_of_mem _ hi)) hok₁ hrun
        refine ⟨hok, hlive.trans (live_of_slots_eq hlive₁), fun q => ?_⟩
        rw [hpages q, hpages₁]
        by_cases hq : q = pg + j
        · simp [hq]
        · simp [hq]
      · cases hfree'.symm.trans hfree

/-! ## One reference less -/

/-- A count after one reference less; without any the page is not described. -/
def dropRef (r : ℕ) : Option ℕ := if r - 1 = 0 then none else some (r - 1)

/-- The lookup does not read the counts. -/
theorem kimaLookupVpgdesc_setRefCount (k : Kima σ) (n r q : ℕ) :
    kimaLookupVpgdesc (k.setRefCount n r).pool q = kimaLookupVpgdesc k.pool q := by
  simp [kimaLookupVpgdesc, Kima.setRefCount, Kima.setSlots, SlotPool.setData,
    SlotPool.lookup]

theorem refCount_setRefCount (k : Kima σ) (n r : ℕ) : (k.setRefCount n r).refCount n = r := by
  simp [Kima.refCount, Kima.setRefCount, Kima.setSlots, SlotPool.setData]

/-- One page, one reference less. -/
theorem unrefPage_spec (h : k.pool.Ok L) {r : ℕ} (hfind : kimaLookupVpgdesc k.pool q = some n)
    (hr : k.pool.pages.find q = some r) (hpos : 0 < r) (hlt : r < 2 ^ 64) :
    (∃ k', unrefPage V L k n = .ok k' ∧ k'.pool.Ok L ∧ k'.pool.slots .ublk = k.pool.slots .ublk ∧
      ∀ p, k'.pool.pages.find p = if p = q then dropRef r else k.pool.pages.find p) ∨
    ∃ err, V.FreeFault err ∧ unrefPage V L k n = .error err := by
  have hcount : k.refCount n = r := by
    rw [pages_find, hfind] at hr
    exact Option.some.inj hr
  have hsub : Word.sub (k.refCount n) 1 = r - 1 := by rw [hcount, Word.sub_of_le hpos hlt]
  obtain ⟨hok₁, hlive₁, hpages₁⟩ := setRefCount_spec h hfind (r - 1)
  have hfind₁ : kimaLookupVpgdesc (k.setRefCount n (r - 1)).pool q = some n := by
    rw [kimaLookupVpgdesc_setRefCount, hfind]
  simp only [unrefPage, hsub, refCount_setRefCount]
  by_cases hzero : r - 1 = 0
  · rw [if_pos hzero]
    rcases kimaFreeVpgdesc_spec hok₁ hfind₁ with ⟨k', hrun, hok, hlive, hpages⟩ | hfault
    · refine .inl ⟨k', hrun, hok, hlive.trans hlive₁, fun p => ?_⟩
      rw [hpages, find_erase, hpages₁, find_insert, dropRef]
      split <;> rfl
    · exact .inr hfault
  · rw [if_neg hzero]
    refine .inl ⟨_, rfl, hok₁, hlive₁, fun p => ?_⟩
    rw [hpages₁, find_insert, dropRef, if_neg hzero]

/-- One reference less keeps a pool in order, whatever the count is. -/
theorem unrefPage_ok (h : k.pool.Ok L) (hfind : kimaLookupVpgdesc k.pool q = some n)
    (hrun : unrefPage V L k n = .ok k') :
    k'.pool.Ok L ∧ k'.pool.slots .ublk = k.pool.slots .ublk := by
  obtain ⟨hok₁, hlive₁, -⟩ := setRefCount_spec h hfind (Word.sub (k.refCount n) 1)
  simp only [unrefPage] at hrun
  split at hrun
  · rcases kimaFreeVpgdesc_spec hok₁ ((kimaLookupVpgdesc_setRefCount ..).trans hfind) with
      ⟨k₂, hfree, hok₂, hlive₂, -⟩ | ⟨err, -, hfree⟩
    · obtain rfl : k₂ = k' := by simpa using hfree.symm.trans hrun
      exact ⟨hok₂, hlive₂.trans hlive₁⟩
    · cases hfree.symm.trans hrun
  · cases hrun
    exact ⟨hok₁, hlive₁⟩

/-- **`unrefPages` takes one from the count of each page**, and drops those without references; it
only fails where `kima_vpgfree` does. -/
theorem unrefPages_spec (his : is.Nodup) (h : k.pool.Ok L)
    (hpages : ∀ i ∈ is, ∃ r, k.pool.pages.find i = some r ∧ 0 < r ∧ r < 2 ^ 64) :
    (∃ k', unrefPages V L is k = .ok k' ∧ k'.pool.Ok L ∧ k'.pool.slots .ublk = k.pool.slots .ublk ∧
      ∀ q, k'.pool.pages.find q = if q ∈ is then (k.pool.pages.find q).bind dropRef
        else k.pool.pages.find q) ∨
    ∃ err, V.FreeFault err ∧ unrefPages V L is k = .error err := by
  induction is generalizing k with
  | nil => exact .inl ⟨k, rfl, h, rfl, by simp⟩
  | cons i is ih =>
    obtain ⟨hi, his⟩ := List.nodup_cons.mp his
    obtain ⟨r, hr, hpos, hlt⟩ := hpages i List.mem_cons_self
    cases hfind : kimaLookupVpgdesc k.pool i with
    | none =>
      rw [pages_find, hfind] at hr
      cases hr
    | some n =>
      have hstep : unrefPages V L (i :: is) k = (unrefPage V L k n >>= unrefPages V L is) := by
        simp only [unrefPages, hfind]
      rw [hstep]
      rcases unrefPage_spec h hfind hr hpos hlt with ⟨k₁, hrun₁, hok₁, hlive₁, hp₁⟩ |
        ⟨err, hfault, hrun₁⟩
      · rw [hrun₁]
        have hrest : ∀ j ∈ is, ∃ r, k₁.pool.pages.find j = some r ∧ 0 < r ∧ r < 2 ^ 64 :=
          fun j hj => by
            have hne : j ≠ i := fun e => hi (e ▸ hj)
            rw [hp₁, if_neg hne]
            exact hpages j (List.mem_cons_of_mem _ hj)
        rcases ih his hok₁ hrest with ⟨k', hrun, hok, hlive, hp⟩ | ⟨err, hfault, hrun⟩
        · refine .inl ⟨k', hrun, hok, hlive.trans hlive₁, fun q => ?_⟩
          rw [hp, hp₁]
          by_cases hq : q = i
          · simp [hq, hi, hr]
          · simp [hq]
        · exact .inr ⟨err, hfault, hrun⟩
      · rw [hrun₁]
        exact .inr ⟨err, hfault, rfl⟩

/-- `unrefPages` keeps a pool in order and leaves the blocks alone, whatever the counts are. -/
theorem unrefPages_ok (h : k.pool.Ok L) (hrun : unrefPages V L is k = .ok k') :
    k'.pool.Ok L ∧ k'.pool.slots .ublk = k.pool.slots .ublk := by
  induction is generalizing k with
  | nil =>
    cases hrun
    exact ⟨h, rfl⟩
  | cons i is ih =>
    unfold unrefPages at hrun
    split at hrun
    · cases hrun
    · rename_i n hfind
      obtain ⟨k₁, hstep, hrun⟩ := of_bind hrun
      obtain ⟨hok₁, hlive₁⟩ := unrefPage_ok h hfind hstep
      obtain ⟨hok, hlive⟩ := ih hok₁ hrun
      exact ⟨hok, hlive.trans hlive₁⟩

end Pbos.Mm
