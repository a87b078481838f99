import Pbos.Hal.Vmalloc

/-!
# Hal/VmallocSearch — the search for free pages, level by level

Both `kh_vmalloc` and `mm_vmalloc_early` go through the entries of four levels of tables and take
the first page they see to be free (`First`).  What is seen ends at `addr_limit`, except that an
absent PML4 entry is always taken.  An absent entry is a gap of many pages, which starts at
`gapStart`; one whose address is 0 is counted, but its address says that nothing was found (`Null`).

`Searched` says how far the search is; `Turns.finds` carries it through the loop over the
entries of one table, whichever the level (`Level`, `Scan`).
-/

namespace Pbos.Hal

open Radix

variable {p S x N : ℕ} {e : ℕ → ℕ}

/-! ## Pages -/

namespace VmallocArgs

variable (v : VmallocArgs)

/-- The range from `minaddr` to `maxaddr`. -/
def bounds : VRange := ⟨v.minaddr, v.maxaddr - v.minaddr⟩

/-- The number of the first page. -/
def lo : ℕ := pageNo v.minaddr

/-- The number of the page at `maxaddr`. -/
def hi : ℕ := v.lo + (v.maxaddr - v.minaddr) / 4096

/-- The last page a range of the size may start at, if nothing lies between. -/
def limitPage : ℕ := v.hi - (v.size + 4095) / 4096

/-- The address of a page in the half of `minaddr`. -/
def vaddrOf (p : ℕ) : ℕ := addrPrefix v.minaddr + 4096 * p

/-- Bounds in one half of the address space, and a size. -/
structure InBounds : Prop where
  half : v.bounds.InHalf
  size_pos : 0 < v.size

/-- There is room for the size between the bounds, and `addr_limit` does not wrap. -/
def Fits : Prop := v.minaddr + v.size ≤ v.maxaddr ∧ pgCeil v.size < v.maxaddr

variable {v} (h : v.InBounds)

include h

theorem InBounds.facts : v.minaddr % 4096 = 0 ∧ v.maxaddr % 4096 = 0 ∧ v.minaddr < v.maxaddr ∧
    (addrPrefix v.minaddr = 0 ∧ v.maxaddr ≤ 2 ^ 47 ∨
      addrPrefix v.minaddr = 0xffff000000000000 ∧ 2 ^ 64 - 2 ^ 47 ≤ v.minaddr ∧
        v.maxaddr < 2 ^ 64) := by
  have h1 : v.minaddr % 4096 = 0 := h.half.vaddr_dvd
  have h2 : (v.maxaddr - v.minaddr) % 4096 = 0 := h.half.size_dvd
  have h3 : 0 < v.maxaddr - v.minaddr := h.half.size_pos
  have h4 : v.minaddr + (v.maxaddr - v.minaddr) ≤ 2 ^ 47 ∨ 2 ^ 64 - 2 ^ 47 ≤ v.minaddr ∧
    v.minaddr + (v.maxaddr - v.minaddr) < 2 ^ 64 := h.half.half
  rw [addrPrefix_eq (by omega)]
  omega

theorem InBounds.vaddrOf_lo : v.vaddrOf v.lo = v.minaddr := by
  obtain ⟨h1, h2, h3, h4⟩ := h.facts
  rw [vaddrOf, lo, pageNo]
  omega

theorem InBounds.vaddrOf_hi : v.vaddrOf v.hi = v.maxaddr ∧ v.hi < 2 ^ 36 ∧ v.lo < v.hi := by
  obtain ⟨h1, h2, h3, h4⟩ := h.facts
  have := h.vaddrOf_lo
  rw [vaddrOf] at this ⊢
  rw [hi] at *
  omega

theorem InBounds.pageNo_vaddrOf (hp : p < 2 ^ 36) : pageNo (v.vaddrOf p) = p := by
  obtain ⟨h1, h2, h3, h4⟩ := h.facts
  rw [vaddrOf, pageNo]
  omega

theorem InBounds.pml4x_maxaddr : pml4x v.maxaddr = v.hi / 2 ^ 27 := by
  obtain ⟨hhi, hlt, hle⟩ := h.vaddrOf_hi
  rw [pml4x_eq, ← hhi, h.pageNo_vaddrOf hlt]

theorem InBounds.addrPrefix_maxaddr : addrPrefix v.minaddr = addrPrefix v.maxaddr := by
  obtain ⟨h1, h2, h3, h4⟩ := h.facts
  rw [addrPrefix_eq (show v.maxaddr < 2 ^ 64 by omega)]
  omega

theorem InBounds.entryVaddr_eq {i4 i3 i2 i1 : ℕ} (h4 : i4 < 512) (h3 : i3 < 512) (h2 : i2 < 512)
    (h1 : i1 < 512) : v.range.entryVaddr i4 i3 i2 i1 = v.vaddrOf (spell i4 i3 i2 i1) := by
  obtain ⟨_, _, _, hhalf⟩ := h.facts
  have hv : v.minaddr < 2 ^ 64 := by omega
  have hx : (((i4 * 512 + i3) * 512 + i2) * 512 + i1) * 4096 < 2 ^ 48 := by omega
  rw [VRange.entryVaddr, uvaddr_eq i4 h3 h2 h1, vaddrOf, spell]
  change addrPrefix v.minaddr ||| _ = _
  rw [addrPrefix_or_eq hv hx, addrPrefix_eq hv, Nat.shiftLeft_eq, Nat.mul_comm 4096]

/-- **`addr_limit` in pages.** -/
theorem InBounds.addrLimit_le_iff (hfit : v.Fits) : v.addrLimit ≤ v.vaddrOf p ↔
    v.limitPage ≤ p := by
  obtain ⟨h1, h2, h3, h4⟩ := h.facts
  have hlo := h.vaddrOf_lo
  rw [Fits, pgCeil_eq] at hfit
  rw [vaddrOf] at hlo
  rw [addrLimit, pgCeil_eq, pgCeil_eq, vaddrOf, limitPage, hi]
  omega

end VmallocArgs

/-! ## What is seen -/

section Seen

variable (mem : Mem) (root : Frame)

/-- The first page below the absent entry on the way to a page, or the page itself. -/
def gapStart (p : ℕ) : ℕ :=
  let i4 := Fin.ofNat 512 (p / 2 ^ 27)
  let i3 := Fin.ofNat 512 (p / 2 ^ 18)
  if path mem root [i4] = none then p / 2 ^ 27 * 2 ^ 27
  else if path mem root [i4, i3] = none then p / 2 ^ 18 * 2 ^ 18
  else if path mem root (tables p) = none then p / 2 ^ 9 * 2 ^ 9
  else p

/-- The search comes to see the entry that says what a page is mapped to: `addr_limit` does not stop
it before, which an absent PML4 entry is not asked for. -/
def VmallocArgs.Seen (v : VmallocArgs) (p : ℕ) : Prop :=
  path mem root [Fin.ofNat 512 (p / 2 ^ 27)] = none ∨ gapStart mem root p < v.limitPage

/-- What is taken for the address of the gap of a page, `take` of its start, is null. -/
def VmallocArgs.Null (v : VmallocArgs) (take : ℕ → ℕ) (p : ℕ) : Prop :=
  take (v.vaddrOf (gapStart mem root p)) = 0

/-- **The first page that is seen to be free**, in a gap that is not at null. -/
structure VmallocArgs.First (v : VmallocArgs) (take : ℕ → ℕ) (q : ℕ) : Prop where
  lo_le : v.lo ≤ q
  free : mapping mem root q = none
  seen : v.Seen mem root q
  notNull : ¬ v.Null mem root take q
  before : ∀ p, v.lo ≤ p → p < q → v.Seen mem root p → mapping mem root p = none →
    v.Null mem root take p

variable {mem root} {v : VmallocArgs} {p q : ℕ} {take : ℕ → ℕ}

theorem mapping_of_path_eq_none (h : path mem root (tables p) = none) :
    mapping mem root p = none := by
  rw [mapping, leaf_eq_none h, Option.filter_none]

/-! ### The gap by the level it lies at -/

section Levels

variable {i4 i3 i2 : ℕ}

theorem gapStart_pml4e (h : path mem root [Fin.ofNat 512 (p / 2 ^ 27)] = none) :
    gapStart mem root p = p / 2 ^ 27 * 2 ^ 27 := if_pos h

theorem gapStart_pdpte (h4 : path mem root [Fin.ofNat 512 (p / 2 ^ 27)] ≠ none)
    (h : path mem root [Fin.ofNat 512 (p / 2 ^ 27), Fin.ofNat 512 (p / 2 ^ 18)] = none) :
    gapStart mem root p = p / 2 ^ 18 * 2 ^ 18 := (if_neg h4).trans (if_pos h)

theorem gapStart_pde
    (h3 : path mem root [Fin.ofNat 512 (p / 2 ^ 27), Fin.ofNat 512 (p / 2 ^ 18)] ≠ none)
    (h : path mem root (tables p) = none) : gapStart mem root p = p / 2 ^ 9 * 2 ^ 9 := by
  have h4 : path mem root [Fin.ofNat 512 (p / 2 ^ 27)] ≠ none := fun h4 =>
    h3 (path_eq_none_of_above h4 ⟨[_], rfl⟩)
  exact (if_neg h4).trans ((if_neg h3).trans (if_pos h))

theorem gapStart_self (h : path mem root (tables p) ≠ none) : gapStart mem root p = p := by
  have h3 : path mem root [Fin.ofNat 512 (p / 2 ^ 27), Fin.ofNat 512 (p / 2 ^ 18)] ≠ none :=
    fun h3 => h (path_eq_none_of_above h3 ⟨[_], rfl⟩)
  have h4 : path mem root [Fin.ofNat 512 (p / 2 ^ 27)] ≠ none := fun h4 =>
    h3 (path_eq_none_of_above h4 ⟨[_], rfl⟩)
  exact (if_neg h4).trans ((if_neg h3).trans (if_neg h))

end Levels

theorem gapStart_le : gapStart mem root p ≤ p := by
  unfold gapStart
  simp only
  split_ifs <;> omega

/-- **The pages of a gap, up to one of them**: it is theirs, too, and none is mapped. -/
theorem gapStart_of_mem (hgap : gapStart mem root p < p) (hle : gapStart mem root p ≤ q)
    (hq : q ≤ p) : gapStart mem root q = gapStart mem root p ∧ mapping mem root q = none ∧
      (path mem root [Fin.ofNat 512 (p / 2 ^ 27)] = none →
        path mem root [Fin.ofNat 512 (q / 2 ^ 27)] = none) := by
  by_cases h4 : path mem root [Fin.ofNat 512 (p / 2 ^ 27)] = none
  · rw [gapStart_pml4e h4] at hle ⊢
    have e4 : q / 2 ^ 27 = p / 2 ^ 27 := by omega
    rw [← e4] at h4 ⊢
    exact ⟨gapStart_pml4e h4, mapping_of_path_eq_none (path_eq_none_of_above h4 ⟨[_, _], rfl⟩), id⟩
  by_cases h3 : path mem root [Fin.ofNat 512 (p / 2 ^ 27), Fin.ofNat 512 (p / 2 ^ 18)] = none
  · rw [gapStart_pdpte h4 h3] at hle ⊢
    have e3 : q / 2 ^ 18 = p / 2 ^ 18 := by omega
    have e4 : q / 2 ^ 27 = p / 2 ^ 27 := by omega
    rw [← e3, ← e4] at h3
    rw [← e4] at h4 ⊢
    rw [← e3]
    exact ⟨gapStart_pdpte h4 h3, mapping_of_path_eq_none (path_eq_none_of_above h3 ⟨[_], rfl⟩), id⟩
  by_cases h2 : path mem root (tables p) = none
  · rw [gapStart_pde h3 h2] at hle ⊢
    have e2 : q / 2 ^ 9 = p / 2 ^ 9 := by omega
    have e3 : q / 2 ^ 18 = p / 2 ^ 18 := by omega
    have e4 : q / 2 ^ 27 = p / 2 ^ 27 := by omega
    have htables : tables q = tables p := by rw [tables, tables, e2, e3, e4]
    rw [← htables] at h2
    rw [← e3, ← e4] at h3
    rw [← e2, ← e4]
    exact ⟨gapStart_pde h3 h2, mapping_of_path_eq_none h2, id⟩
  · exact absurd (gapStart_self h2) hgap.ne

/-- The first page seen to be free is the first of its gap, unless that starts before `minaddr`. -/
theorem VmallocArgs.First.gapStart_eq (h : v.First mem root take q) :
    gapStart mem root q = q ∨ q = v.lo := by
  by_contra hne
  have hlt : gapStart mem root q < q := lt_of_le_of_ne gapStart_le fun heq => hne (.inl heq)
  have hlo : v.lo < q := lt_of_le_of_ne h.lo_le fun heq => hne (.inr heq.symm)
  have hmax : max v.lo (gapStart mem root q) < q := max_lt hlo hlt
  obtain ⟨hsame, hfree, hpml4e⟩ := gapStart_of_mem hlt (le_max_right v.lo _) hmax.le
  have hnull := h.before _ (le_max_left _ _) hmax
    (h.seen.imp hpml4e fun hlimit => hsame.symm ▸ hlimit) hfree
  rw [VmallocArgs.Null, hsame] at hnull
  exact h.notNull hnull

end Seen

/-! ## The search -/

/-- **How far the search is**, when it has come to the page `y`: what it has seen to be free lies in
gaps at null, or it has taken the address of the first page that does not, or it has stopped with
enough pages at null. -/
def Searched (v : VmallocArgs) (mem : Mem) (root : Frame) (take : ℕ → ℕ) (y : ℕ) (t : FreeArea) :
    Prop :=
  (t.pFound = 0 ∧ ∀ p, v.lo ≤ p → p < y → v.Seen mem root p → mapping mem root p = none →
    v.Null mem root take p) ∨
  (t.pFound ≠ 0 ∧ ∃ q, v.First mem root take q ∧
    t.pFound = take (v.vaddrOf (gapStart mem root q))) ∨
  t.pFound = 0 ∧ v.size ≤ t.szFound

section Search

variable {v : VmallocArgs} {mem : Mem} {root : Frame} {take : ℕ → ℕ} {y y' : ℕ} {t : FreeArea}

theorem searched_zero : Searched v mem root take 0 ⟨mem, 0, 0⟩ :=
  .inl ⟨rfl, fun _ _ h => absurd h (Nat.not_lt_zero _)⟩

/-- No free page is seen on the way. -/
theorem Searched.pass (h : Searched v mem root take y t)
    (hpass : ∀ p, v.lo ≤ p → y ≤ p → p < y' → v.Seen mem root p → mapping mem root p ≠ none) :
    Searched v mem root take y' t := by
  refine h.imp_left fun ⟨hp, hall⟩ => ⟨hp, fun p hlo hlt hseen hfree => ?_⟩
  rcases lt_or_ge p y with hy | hy
  · exact hall p hlo hy hseen hfree
  · exact absurd hfree (hpass p hlo hy hlt hseen)

/-- **An absent entry is counted.**  It spans the pages from `y` to `y'`. -/
theorem Searched.add {len : ℕ} (h : Searched v mem root take y t) (hmore : t.szFound < v.size)
    (hlo : v.lo < y') (hyy' : y < y')
    (hgap : ∀ p, y ≤ p → p < y' → mapping mem root p = none ∧ gapStart mem root p = y)
    (hseen : v.Seen mem root (max v.lo y)) :
    Searched v mem root take y' (t.add (take (v.vaddrOf y)) len) := by
  obtain ⟨hp, hall⟩ | ⟨hp, hfirst⟩ | ⟨-, henough⟩ := h
  · rw [Searched, FreeArea.add, if_pos hp]
    by_cases hnull : take (v.vaddrOf y) = 0
    · refine .inl ⟨hnull, fun p hlo' hlt hseen' hfree => ?_⟩
      rcases lt_or_ge p y with hy | hy
      · exact hall p hlo' hy hseen' hfree
      · rw [VmallocArgs.Null, (hgap p hy hlt).2]
        exact hnull
    · obtain ⟨hfree, hstart⟩ := hgap _ (le_max_right v.lo y) (max_lt hlo hyy')
      refine .inr (.inl ⟨hnull, max v.lo y, ⟨le_max_left _ _, hfree, hseen, ?_, ?_⟩, ?_⟩)
      · rwa [VmallocArgs.Null, hstart]
      · exact fun p hlo' hlt => hall p hlo' ((lt_max_iff.mp hlt).resolve_left hlo'.not_gt)
      · rw [hstart]
  · rw [Searched, FreeArea.add, if_neg hp]
    exact .inr (.inl ⟨hp, hfirst⟩)
  · exact absurd henough hmore.not_ge

/-- **One level of the search**, over entries of `S` pages each. -/
theorem forLoop_searched {body : ℕ → FreeArea → Except Fault (Turn FreeArea)} {M : Mem → Prop}
    (he : Strides e S v.lo x) (hN : x ≤ N)
    (hbody : ∀ y t, y < N → v.lo < e y + S → M t.mem → Searched v mem root take (e y) t →
      ∃ t', M t'.mem ∧ (body y t = .ok (.next t') ∧ Searched v mem root take (e y + S) t' ∨
        body y t = .ok (.brk t') ∧ Searched v mem root take (e 0 + N * S) t'))
    (hM : M t.mem) (h0 : Searched v mem root take (e 0) t) :
    ∃ y t', forLoop body (N - x) x t = .ok (.done y t') ∧ M t'.mem ∧
      Searched v mem root take (e 0 + N * S) t' := by
  have hstart : Searched v mem root take (e x) t := by
    refine h0.pass fun p hlo hle hlt => ?_
    obtain rfl | hx := he.start <;> omega
  suffices h : ∃ r, forLoop body (N - x) x t = .ok r ∧ r.Holds
      (fun t => M t.mem ∧ Searched v mem root take (e 0 + N * S) t) (fun _ => False) by
    obtain ⟨r, hr, hholds⟩ := h
    cases r with
    | done y t' => exact ⟨y, t', hr, hholds⟩
    | ret t' => exact hholds.elim
  refine forLoop_reaches (I := fun y t => M t.mem ∧ Searched v mem root take (e y) t)
    (fun y t hy hy' ⟨hM, ht⟩ => ?_) (fun t h => ?_) ⟨hM, hstart⟩
  · obtain ⟨t', hM', ⟨hbody, ht'⟩ | ⟨hbody, ht'⟩⟩ := hbody y t (by omega) (he.lt_of_le hy) hM ht
    · exact ⟨_, hbody, hM', he.succ y ▸ ht'⟩
    · exact ⟨_, hbody, hM', ht'⟩
  · rwa [← he.eq_add, ← Nat.add_sub_of_le hN]

end Search

/-! ### The levels -/

/-- **The entries of the table `f`**, `S` pages each.  Where one is absent a gap starts; where the
table is below the PML4, no gap comes into it from before. -/
structure Level (mem : Mem) (root f : Frame) (e : ℕ → ℕ) (S : ℕ) (limited : Bool) : Prop where
  gap : ∀ y p, y < 512 → e y ≤ p → p < e y + S → (entryAt mem f y).present = false →
    mapping mem root p = none ∧ gapStart mem root p = e y ∧
      (limited = false → path mem root [Fin.ofNat 512 (p / 2 ^ 27)] = none)
  inside : limited = true → ∀ y p, e y ≤ p → p < e 0 + 512 * S →
    path mem root [Fin.ofNat 512 (p / 2 ^ 27)] ≠ none ∧ e y ≤ gapStart mem root p

section Levels

variable {v : VmallocArgs} {mem : Mem} {root : Frame} {i4 i3 i2 : ℕ} {f : Frame}

theorem level_pml4e : Level mem root root (spell · 0 0 0) (512 * (512 * 512)) false where
  gap y p _ hle hlt habsent := by
    simp only [spell] at hle hlt ⊢
    have e4 : p / 2 ^ 27 = y := by omega
    have hpml4e : path mem root [Fin.ofNat 512 (p / 2 ^ 27)] = none := by
      rw [e4]
      exact path_absent follow_nil habsent []
    refine ⟨mapping_of_path_eq_none (path_eq_none_of_above hpml4e ⟨[_, _], rfl⟩), ?_,
      fun _ => hpml4e⟩
    rw [gapStart_pml4e hpml4e]
    omega
  inside := nofun

theorem level_pdpte (hf : path mem root [Fin.ofNat 512 i4] = some f) :
    Level mem root f (spell i4 · 0 0) (512 * 512) true where
  gap y p hy hle hlt habsent := by
    simp only [spell] at hle hlt ⊢
    have e4 : p / 2 ^ 27 = i4 := by omega
    have e3 : Fin.ofNat 512 (p / 2 ^ 18) = Fin.ofNat 512 y := ofNat_eq_iff.mpr (by omega)
    have hpdpte :
        path mem root [Fin.ofNat 512 (p / 2 ^ 27), Fin.ofNat 512 (p / 2 ^ 18)] = none := by
      rw [e4, e3]
      exact path_absent hf habsent []
    refine ⟨mapping_of_path_eq_none (path_eq_none_of_above hpdpte ⟨[_], rfl⟩), ?_, by simp⟩
    rw [gapStart_pdpte (by rw [e4, hf]; simp) hpdpte]
    omega
  inside _ y p hle hlt := by
    simp only [spell] at hle hlt ⊢
    have e4 : p / 2 ^ 27 = i4 := by omega
    have hpml4e : path mem root [Fin.ofNat 512 (p / 2 ^ 27)] ≠ none := by
      rw [e4, hf]
      simp
    refine ⟨hpml4e, ?_⟩
    simp only [gapStart, if_neg hpml4e]
    split_ifs <;> omega

theorem level_pde (h3 : i3 < 512)
    (hf : path mem root [Fin.ofNat 512 i4, Fin.ofNat 512 i3] = some f) :
    Level mem root f (spell i4 i3 · 0) 512 true := by
  have hthere : ∀ p, spell i4 i3 0 0 ≤ p → p < spell i4 i3 0 0 + 512 * 512 →
      path mem root [Fin.ofNat 512 (p / 2 ^ 27), Fin.ofNat 512 (p / 2 ^ 18)] ≠ none := by
    intro p hle hlt
    rw [spell] at hle hlt
    have e4 : p / 2 ^ 27 = i4 := by omega
    have e3 : Fin.ofNat 512 (p / 2 ^ 18) = Fin.ofNat 512 i3 := ofNat_eq_iff.mpr (by omega)
    rw [e4, e3, hf]
    simp
  refine ⟨fun y p hy hle hlt habsent => ?_, fun _ y p hle hlt => ?_⟩
  · have htables : path mem root (tables p) = none := by
      rw [tables_of_pde h3 hy hle hlt]
      exact path_absent hf habsent []
    have hpdpte := hthere p (le_trans (by simp only [spell]; omega) hle)
      (hlt.trans_le (by simp only [spell]; omega))
    simp only [spell] at hle hlt ⊢
    refine ⟨mapping_of_path_eq_none htables, ?_, by simp⟩
    rw [gapStart_pde hpdpte htables]
    omega
  · have hpdpte := hthere p (le_trans (by simp only [spell]; omega) hle) hlt
    have hpml4e : path mem root [Fin.ofNat 512 (p / 2 ^ 27)] ≠ none := fun hpml4e =>
      hpdpte (path_eq_none_of_above hpml4e ⟨[_], rfl⟩)
    refine ⟨hpml4e, ?_⟩
    simp only [gapStart, if_neg hpml4e, if_neg hpdpte, spell] at hle ⊢
    split_ifs <;> omega

section

variable (h3 : i3 < 512) (h2 : i2 < 512)
  (hf : path mem root [Fin.ofNat 512 i4, Fin.ofNat 512 i3, Fin.ofNat 512 i2] = some f)

include h3 h2 hf

theorem level_pte : Level mem root f (spell i4 i3 i2) 1 true where
  gap y p hy hle hlt habsent := by
    obtain rfl : p = spell i4 i3 i2 y := by omega
    have htables : path mem root (tables (spell i4 i3 i2 y)) = some f := by
      rw [tables_spell h3 h2 hy, hf]
    refine ⟨?_, gapStart_self (by rw [htables]; nofun), nofun⟩
    rw [mapping_eq_none_iff htables, slot_spell]
    exact habsent
  inside _ y p hle hlt := by
    have htables : path mem root (tables p) = some f := by
      rw [tables_of_pde h3 h2 (le_trans (by simp only [spell]; omega) hle) hlt, hf]
    refine ⟨fun hpml4e => ?_, ?_⟩
    · exact nomatch htables.symm.trans (path_eq_none_of_above hpml4e ⟨[_, _], rfl⟩)
    · rwa [gapStart_self (by rw [htables]; nofun)]

end

/-- **A loop over the entries of a table**, from the one that holds `minaddr` or from the first on:
the addresses it computes, and when it leaves. -/
structure Scan (v : VmallocArgs) (e : ℕ → ℕ) (S x N : ℕ) (limited : Bool) (va : ℕ → ℕ)
    (stop : ℕ → FreeArea → Bool) : Prop extends Strides e S v.lo x where
  pos : 0 < S
  le : x ≤ N
  le_512 : N ≤ 512
  vaddr : ∀ y < 512, va y = v.vaddrOf (e y)
  stop_iff : ∀ y t, y < 512 → (stop y t = true ↔
    v.size ≤ t.szFound ∨ limited = true ∧ v.limitPage ≤ e y)

section Scans

variable (hb : v.InBounds) (hfit : v.Fits)

include hb hfit

/-- A loop that asks for `addr_limit`. -/
theorem scan_of_vaddr {va : ℕ → ℕ} (he : x ≤ 512 ∧ Strides e S v.lo x)
    (hS : 0 < S) (hva : ∀ y < 512, va y = v.vaddrOf (e y)) :
    Scan v e S x 512 true va fun y t => v.size ≤ t.szFound ∨ v.addrLimit ≤ va y where
  toStrides := he.2
  pos := hS
  le := he.1
  le_512 := le_rfl
  vaddr := hva
  stop_iff y t hy := by
    rw [decide_eq_true_iff, hva y hy, hb.addrLimit_le_iff hfit, eq_self, true_and]

omit hfit in
theorem scan_pml4e : Scan v (spell · 0 0 0) (512 * (512 * 512)) (pml4x v.minaddr)
    (pml4x v.maxaddr + 1) false (fun i4 => v.range.entryVaddr i4 0 0 0)
    fun _ t => v.size ≤ t.szFound := by
  obtain ⟨_, hhi, hlohi⟩ := hb.vaddrOf_hi
  have hmin : pml4x v.minaddr = v.lo / 2 ^ 27 := pml4x_eq _
  have hmax := hb.pml4x_maxaddr
  have he : Strides (spell · 0 0 0) (512 * (512 * 512)) v.lo (pml4x v.minaddr) :=
    ⟨fun y => by simp only [spell]; omega, .inr (by simp only [spell]; omega),
      by simp only [spell]; omega⟩
  refine ⟨he, by decide, by omega, by omega, fun i4 h4 => ?_, fun i4 t _ => ?_⟩
  · exact hb.entryVaddr_eq h4 (by decide) (by decide) (by decide)
  · rw [decide_eq_true_iff, Bool.false_eq_true, false_and, or_false]

end Scans

/-- **The pages from `b` to `e` are searched** by `loop`, which keeps `M` of the memory. -/
def Finds (v : VmallocArgs) (mem : Mem) (root : Frame) (take : ℕ → ℕ) (M : Mem → Prop)
    (loop : FreeArea → Except Fault (Exit FreeArea)) (b e : ℕ) : Prop :=
  ∀ t : FreeArea, M t.mem → Searched v mem root take b t →
    ∃ y t', loop t = .ok (.done y t') ∧ M t'.mem ∧ Searched v mem root take e t'

/-- What one turn of a loop over the entries of the table `f` does: it leaves, counts an absent
entry, or searches below a present one. -/
structure Turns (v : VmallocArgs) (mem : Mem) (root f : Frame) (take : ℕ → ℕ)
    (M : Mem → Prop) (e : ℕ → ℕ) (S len : ℕ) (va : ℕ → ℕ) (stop : ℕ → FreeArea → Bool)
    (body : ℕ → FreeArea → Except Fault (Turn FreeArea)) : Prop where
  leave : ∀ y t, stop y t = true → body y t = .ok (.brk t)
  count : ∀ y t, y < 512 → stop y t = false → M t.mem → v.lo < e y + S →
    (entryAt mem f y).present = false → body y t = .ok (.next (t.add (take (va y)) len))
  enter : ∀ y t, y < 512 → stop y t = false → M t.mem → v.lo < e y + S →
    (entryAt mem f y).present = true → Searched v mem root take (e y) t →
    ∃ t', body y t = .ok (.next t') ∧ M t'.mem ∧ Searched v mem root take (e y + S) t'

section Loops

variable {take va : ℕ → ℕ} {M : Mem → Prop} {stop : ℕ → FreeArea → Bool} {l : ℕ}
  {body : ℕ → FreeArea → Except Fault (Turn FreeArea)}

/-- **A loop searches the pages of the entries of a table.** -/
theorem Turns.finds {limited : Bool}
    (hturn : Turns v mem root f take M e S l va stop body) (hL : Level mem root f e S limited)
    (hscan : Scan v e S x N limited va stop) :
    Finds v mem root take M (forLoop body (N - x) x) (e 0) (e 0 + N * S) := by
  refine fun t hM ht =>
    forLoop_searched hscan.toStrides hscan.le (fun y t hy hlo hM ht => ?_) hM ht
  have hy512 : y < 512 := hy.trans_le hscan.le_512
  cases hs : stop y t with
  | true =>
    refine ⟨t, hM, .inr ⟨hturn.leave y t hs, ?_⟩⟩
    obtain henough | ⟨hlim, hle⟩ := (hscan.stop_iff y t hy512).mp hs
    · by_cases hp : t.pFound = 0
      · exact .inr (.inr ⟨hp, henough⟩)
      · exact .inr (.inl ((ht.resolve_left fun h => hp h.1).resolve_right fun h => hp h.1))
    · refine ht.pass fun p _ hbp hpe hseen => ?_
      have hend : e 0 + N * S ≤ e 0 + 512 * S :=
        Nat.add_le_add_left (Nat.mul_le_mul_right S hscan.le_512) _
      obtain ⟨hpml4e, hgap⟩ := hL.inside hlim y p hbp (hpe.trans_le hend)
      exact (hseen.elim hpml4e fun hlt => hlt.not_ge (hle.trans hgap)).elim
  | false =>
    cases hpres : (entryAt mem f y).present with
    | true =>
      obtain ⟨t', hok, hM', ht'⟩ := hturn.enter y t hy512 hs hM hlo hpres ht
      exact ⟨t', hM', .inl ⟨hok, ht'⟩⟩
    | false =>
      refine ⟨t.add (take (va y)) l, hM, .inl ⟨hturn.count y t hy512 hs hM hlo hpres, ?_⟩⟩
      have hpos : e y < e y + S := Nat.lt_add_of_pos_right hscan.pos
      obtain ⟨-, hstart, hpml4e⟩ :=
        hL.gap y (max v.lo (e y)) hy512 (le_max_right _ _) (max_lt hlo hpos) hpres
      have hmore : t.szFound < v.size := by
        refine not_le.mp fun henough => ?_
        rw [(hscan.stop_iff y t hy512).mpr (.inl henough)] at hs
        cases hs
      rw [hscan.vaddr y hy512]
      refine ht.add hmore hlo hpos (fun p hle hlt => ?_) ?_
      · obtain ⟨hfree, hgap, -⟩ := hL.gap y p hy512 hle hlt hpres
        exact ⟨hfree, hgap⟩
      cases limited with
      | false => exact .inl (hpml4e rfl)
      | true =>
        refine .inr (hstart.trans_lt (not_le.mp fun hle => ?_))
        rw [(hscan.stop_iff y t hy512).mpr (.inr ⟨rfl, hle⟩)] at hs
        exact nomatch hs

variable (hb : v.InBounds) (hfit : v.Fits) (h4 : i4 < 512) (h3 : i3 < 512) (h2 : i2 < 512)

include hb hfit h4

include h3 h2 in
/-- The loop over PTEs, in both functions.  The table is where `table` says. -/
theorem pteLoop_finds (table : FreeArea → Frame) (hpte : ∀ p, v.lo ≤ p → take (v.vaddrOf p) =
      v.vaddrOf p) (hlo : v.lo < spell i4 i3 i2 0 + 512)
    (hf : path mem root [Fin.ofNat 512 i4, Fin.ofNat 512 i3, Fin.ofNat 512 i2] = some f)
    (hread : ∀ i1 t, i1 < 512 → M t.mem → v.lo ≤ spell i4 i3 i2 i1 →
      spell i4 i3 i2 i1 < v.limitPage → entryAt t.mem (table t) i1 = entryAt mem f i1) :
    Finds v mem root take M (forLoop (fun i1 t => findPte v i4 i3 i2 (table t) i1 t)
        (512 - v.range.firstPtx i4 i3 i2) (v.range.firstPtx i4 i3 i2)) (spell i4 i3 i2 0)
      (spell i4 i3 i2 0 + 512) := by
  have hentry : ∀ i1 (t : FreeArea), i1 < 512 → M t.mem → v.lo < spell i4 i3 i2 i1 + 1 →
      ¬ (v.size ≤ t.szFound ∨ v.addrLimit ≤ v.range.entryVaddr i4 i3 i2 i1) →
      entryAt t.mem (table t) i1 = entryAt mem f i1 := fun i1 t h1 hM hlo hgo => by
    rw [hb.entryVaddr_eq h4 h3 h2 h1, hb.addrLimit_le_iff hfit] at hgo
    exact hread i1 t h1 hM (by omega) (by omega)
  refine Turns.finds (e := spell i4 i3 i2) (N := 512) (l := uvaddr 0 0 0 1 0)
    ⟨fun i1 t hs => if_pos (of_decide_eq_true hs), fun i1 t h1 hs hM hlo habsent => ?_,
      fun i1 t h1 hs hM hlo hpres ht => ?_⟩ (level_pte h3 h2 hf)
    (scan_of_vaddr hb hfit (firstPtx_spec h3 h2 hlo) (by decide) fun _ h1 =>
      hb.entryVaddr_eq h4 h3 h2 h1)
  · have hgo := of_decide_eq_false hs
    rw [if_neg hgo, hentry i1 t h1 hM hlo hgo, habsent, hb.entryVaddr_eq h4 h3 h2 h1,
      hpte _ (by omega)]
    rfl
  · have hgo := of_decide_eq_false hs
    refine ⟨t, ?_, hM, ht.pass fun p _ hle hlt _ hfree => ?_⟩
    · rw [if_neg hgo, hentry i1 t h1 hM hlo hgo, hpres]
      rfl
    · obtain rfl : p = spell i4 i3 i2 i1 := by omega
      have hpath : path mem root (tables (spell i4 i3 i2 i1)) = some f := by
        rw [tables_spell h3 h2 h1, hf]
      rw [mapping_eq_none_iff hpath, slot_spell] at hfree
      exact nomatch hpres.symm.trans hfree

include h3 in
/-- A loop over PDEs. -/
theorem pdeLoop_finds (hlo : v.lo < spell i4 i3 0 0 + 512 * 512)
    (hf : path mem root [Fin.ofNat 512 i4, Fin.ofNat 512 i3] = some f)
    (hturn : Turns v mem root f take M (spell i4 i3 · 0) 512 l
      (fun i2 => v.range.entryVaddr i4 i3 i2 0)
      (fun i2 t => v.size ≤ t.szFound ∨ v.addrLimit ≤ v.range.entryVaddr i4 i3 i2 0) body) :
    Finds v mem root take M (forLoop body (512 - v.range.firstPdx i4 i3)
      (v.range.firstPdx i4 i3)) (spell i4 i3 0 0) (spell i4 i3 0 0 + 512 * 512) :=
  hturn.finds (level_pde h3 hf) (scan_of_vaddr hb hfit
    (firstPdx_spec h3 hlo) (by decide) fun _ h2 => hb.entryVaddr_eq h4 h3 h2 (by decide))

/-- A loop over PDPTEs. -/
theorem pdpteLoop_finds (hlo : v.lo < spell i4 0 0 0 + 512 * (512 * 512))
    (hf : path mem root [Fin.ofNat 512 i4] = some f)
    (hturn : Turns v mem root f take M (spell i4 · 0 0) (512 * 512) l
      (fun i3 => v.range.entryVaddr i4 i3 0 0)
      (fun i3 t => v.size ≤ t.szFound ∨ v.addrLimit ≤ v.range.entryVaddr i4 i3 0 0) body) :
    Finds v mem root take M (forLoop body (512 - v.range.firstPdptx i4) (v.range.firstPdptx i4))
      (spell i4 0 0 0) (spell i4 0 0 0 + 512 * (512 * 512)) :=
  hturn.finds (level_pdpte hf) (scan_of_vaddr hb hfit (firstPdptx_spec hlo)
    (by decide) fun _ h3 => hb.entryVaddr_eq h4 h3 (by decide) (by decide))

end Loops

end Levels

end Pbos.Hal
