import Pbos.Mm.KimaPages

/-!
# Mm/KimaSearch — what the search of `kima_alloc` finds

A successful search names a described page with no gap behind it, and an address that the inner loop
settled on.  `fitLoop_cases` follows the inner loop for any property of its candidates: the first
candidate is the page, every later one the end of a live block.  `kimaAlloc_cases` and
`allocNew_cases` say what a whole call is made of.
-/

namespace Pbos.Mm

open Pbos.Kfxx

variable {σ : Type} {A : PtrAdd} {V : Vm σ} {L : Layout} {k k' : Kima σ} {p : Pool} {al c size : ℕ}
  {cur ptr n r : ℕ}

/-- The least multiple of `alignment` not below `c`. -/
def roundUp (c alignment : ℕ) : ℕ := c + (alignment - c % alignment) % alignment

theorem dvd_roundUp (hal : 0 < al) (c : ℕ) : al ∣ roundUp c al := Word.dvd_add_pad hal c

theorem le_roundUp (c al : ℕ) : c ≤ roundUp c al := Nat.le_add_right _ _

theorem roundUp_lt (hal : 0 < al) (c : ℕ) : roundUp c al < c + al :=
  Nat.add_lt_add_left (Word.pad_lt hal c) c

theorem roundUp_le {b : ℕ} (hal : 0 < al) (hcb : c ≤ b) (hb : al ∣ b) : roundUp c al ≤ b :=
  Word.add_pad_le_of_dvd hal hcb hb

theorem roundUp_of_dvd (h : al ∣ c) : roundUp c al = c := by
  rw [roundUp, Nat.mod_eq_zero_of_dvd h, Nat.sub_zero, Nat.mod_self, Nat.add_zero]

/-- `alignUp` rounds up. -/
theorem alignUp_eq {c' : ℕ} (hal : 0 < al) (hA : c % al ≠ 0 → ExactAt A c (al - c % al))
    (h : alignUp A c al = .ok c') : c' = roundUp c al := by
  unfold alignUp at h
  split at h
  · rename_i hne
    rw [hA hne c' h, roundUp, Nat.mod_eq_of_lt (by omega : al - c % al < al)]
  · rename_i hz
    cases h
    exact (roundUp_of_dvd (Nat.dvd_of_mod_eq_zero (not_not.mp hz))).symm

/-! ## The inner loop -/

/-- The nearest block, as the maps see it. -/
theorem Pool.Ok.nearest (h : p.Ok L) (ptr : ℕ) :
    match kimaLookupNearestUblk p ptr with
    | none => p.live.findMaxLteq ptr = none
    | some n => p.live.findMaxLteq ptr = some ((p.slots .ublk).rbValue n, (p.slots .ublk).data n) ∧
        p.live.find ((p.slots .ublk).rbValue n) = some ((p.slots .ublk).data n) := by
  obtain ⟨P, hP⟩ := h
  have hlive : p.live.findMaxLteq ptr = ((p.slots .ublk).queryTree.findMaxLteq ptr).map
      fun e => (e.1, (p.slots .ublk).data e.2) := OrdMap.findMaxLteq_mapVal ..
  rw [hlive, kimaLookupNearestUblk, SlotPool.lookupNearest]
  cases he : (p.slots .ublk).queryTree.findMaxLteq ptr with
  | none => rfl
  | some e =>
    have hmem := (OrdMap.findMaxLteq_eq_some_iff _).mp he
    have hfind := (p.slots .ublk).queryTree.find_of_mem hmem.1
    have hrb := ((hP.slots .ublk).query _ _ hfind).1
    simp only [Option.map_some, hrb, true_and]
    exact find_view_isSome hfind

/-- **A test against the nearest block** passes, or names the end of a block above the address. -/
theorem blockedBy_cases (h : p.Ok L) {r : Option ℕ}
    (hlive : ∀ b n, p.live.find b = some n → ExactAt A b n) (hcur : ExactAt A cur size)
    (hrun : blockedBy A p cur size ptr = .ok r) :
    (r = none ∧ ∀ e, p.live.findMaxLteq ptr = some e → ¬ Blocks.Overlap cur size e.1 e.2) ∨
    ∃ b n, p.live.find b = some n ∧ r = some (b + n) ∧ cur < b + n := by
  have hnear := h.nearest ptr
  unfold blockedBy at hrun
  split at hrun
  · rename_i hnone
    rw [hnone] at hnear
    cases hrun
    exact .inl ⟨rfl, fun e he => nomatch hnear.symm.trans he⟩
  · rename_i ublk hsome
    rw [hsome] at hnear
    obtain ⟨stop, hstop, curStop, hcurStop, hrun⟩ := by simpa only [bind_eq_ok_iff] using hrun
    obtain rfl := hlive _ _ hnear.2 stop hstop
    obtain rfl := hcur curStop hcurStop
    split at hrun
    · rename_i hover
      cases hrun
      exact .inr ⟨_, _, hnear.2, rfl, hover.1⟩
    · rename_i hclear
      cases hrun
      refine .inl ⟨rfl, fun e he => ?_⟩
      cases hnear.1.symm.trans he
      exact hclear

/-- **What the inner loop settles on.**  Its candidates keep a property `I` that holds of the first
one and of the end of every block that blocks a candidate. -/
theorem fitLoop_cases {limit : ℕ} {I : ℕ → Prop} (h : p.Ok L) (hal : 0 < al)
    (hlive : ∀ b n, p.live.find b = some n → ExactAt A b n)
    (hI : ∀ c, I c → c ≤ limit → (c % al ≠ 0 → ExactAt A c (al - c % al)) ∧
      ExactAt A (roundUp c al) size)
    (hnext : ∀ c b n, I c → c ≤ limit → p.live.find b = some n → roundUp c al < b + n → I (b + n))
    (hc : I c) (hrun : fitLoop A (blockedBy A p) size al limit n c = .ok (some cur)) :
    ∃ c', I c' ∧ c' ≤ limit ∧ cur = roundUp c' al ∧ (∃ stop, A cur size = .ok stop) ∧
      (∀ e, p.live.findMaxLteq cur = some e → ¬ Blocks.Overlap cur size e.1 e.2) ∧
      ∀ e, p.live.findMaxLteq (Word.sub (cur + size) 1) = some e →
        ¬ Blocks.Overlap cur size e.1 e.2 := by
  induction n generalizing c with
  | zero => cases hrun
  | succ n ih =>
    unfold fitLoop at hrun
    split at hrun
    · cases hrun
    · rename_i hle
      have hle := not_lt.mp hle
      obtain ⟨hA₁, hA₂⟩ := hI c hc hle
      obtain ⟨c', halign, r₁, hfirst, hrun⟩ := by simpa only [bind_eq_ok_iff] using hrun
      obtain rfl := alignUp_eq hal hA₁ halign
      rcases blockedBy_cases h hlive hA₂ hfirst with ⟨rfl, hclear₁⟩ | ⟨b, m, hb, rfl, hlt⟩
      · obtain ⟨stop, hstop, r₂, hsecond, hrun⟩ := by simpa only [bind_eq_ok_iff] using hrun
        obtain rfl := hA₂ stop hstop
        rcases blockedBy_cases h hlive hA₂ hsecond with ⟨rfl, hclear₂⟩ | ⟨b, m, hb, rfl, hlt⟩
        · cases hrun
          exact ⟨c, hc, hle, rfl, ⟨_, hstop⟩, hclear₁, hclear₂⟩
        · exact ih (hnext c b m hc hle hb hlt) hrun
      · exact ih (hnext c b m hc hle hb hlt) hrun

variable {blocked : ℕ → ℕ → ℕ → Except Fault (Option ℕ)}

/-- Whatever is asked of the nearest block, what the inner loop settles on has passed both tests. -/
theorem fitLoop_passed {limit : ℕ} (hrun : fitLoop A blocked size al limit n c = .ok (some cur)) :
    ∃ c' stop, alignUp A c' al = .ok cur ∧ blocked cur size cur = .ok none ∧
      A cur size = .ok stop ∧ blocked cur size (Word.sub stop 1) = .ok none := by
  induction n generalizing c with
  | zero => cases hrun
  | succ n ih =>
    unfold fitLoop at hrun
    split at hrun
    · cases hrun
    · obtain ⟨c', halign, r₁, hfirst, hrun⟩ := by simpa only [bind_eq_ok_iff] using hrun
      cases r₁ with
      | some stop => exact ih hrun
      | none =>
        obtain ⟨stop, hstop, r₂, hsecond, hrun⟩ := by simpa only [bind_eq_ok_iff] using hrun
        cases r₂ with
        | some stop => exact ih hrun
        | none =>
          cases hrun
          exact ⟨c, stop, halign, hfirst, hstop, hsecond⟩

/-! ## The outer loop -/

/-- **A successful search**: a described page, no gap in the area behind it, and the answer of the
inner loop. -/
theorem searchLoop_cases {cont base : ℕ} {it : Option ℕ}
    (hit : ∀ b, it = some b → ∃ m, (p.slots .vpgdesc).queryTree.find b = some m)
    (hrun : searchLoop A L p blocked size al n it cont = .ok (some (base, cur))) :
    (∃ m, (p.slots .vpgdesc).queryTree.find base = some m) ∧
      findGap A p base (Word.multiples 0 (ceilAlignTo size L.pageSize) L.pageSize) = .ok none ∧
      ∃ limit, A base (Word.sub (ceilAlignTo size L.pageSize) size) = .ok limit ∧
        fitLoop A blocked size al limit (2 ^ 64) base = .ok (some cur) := by
  induction n generalizing it cont with
  | zero =>
    cases it with
    | none => cases hrun
    | some b => cases hrun
  | succ n ih =>
    cases it with
    | none => cases hrun
    | some b =>
      unfold searchLoop at hrun
      split at hrun
      · exact ih (fun _ => OrdMap.find_of_next _) hrun
      · obtain ⟨gap, hgap, hrun⟩ := of_bind hrun
        cases gap with
        | some gap => exact ih (fun _ => OrdMap.find_of_findMaxLteq _) hrun
        | none =>
          obtain ⟨limit, hlimit, r, hfit, hrun⟩ := by simpa only [bind_eq_ok_iff] using hrun
          cases r with
          | none => exact ih (fun _ => OrdMap.find_of_next _) hrun
          | some c =>
            cases hrun
            exact ⟨hit _ rfl, hgap, limit, hlimit, hfit⟩

/-! ## Whole calls -/

/-- **What a block in new pages is made of.** -/
theorem allocNew_cases (hrun : allocNew A V L k size al = .ok (r, k')) :
    ∃ v k₁ pg, kimaVpgalloc V L k (ceilAlignTo (Word.add size al) L.pageSize) = .ok (v, k₁) ∧
      alignUp A v al = .ok pg ∧ (pg = 0 ∧ r = 0 ∧ k' = k₁ ∨ pg ≠ 0 ∧
      ∃ i complete k₂, newPages A V L pg size (2 ^ 64) 0 k₁ = .ok (i, complete, k₂) ∧
        (complete = false ∧ r = 0 ∧ releaseVpgdescs A V L pg i k₂ = .ok k' ∨ complete = true ∧
        ∃ n, n = Word.add k₂.pool.numAllocatedPages (ceilAlignTo size L.pageSize / L.pageSize) ∧
        ∃ ublk k₃, kimaAllocUblk V L (k₂.setNum n) pg size = .ok (ublk, k₃) ∧
          (ublk = none ∧ r = 0 ∧ releaseVpgdescs A V L pg i k₃ = .ok k' ∨
            ublk ≠ none ∧ r = pg ∧ k' = k₃))) := by
  obtain ⟨⟨v, k₁⟩, hcall, pg, hpg, hrun⟩ := by simpa only [allocNew, bind_eq_ok_iff] using hrun
  refine ⟨v, k₁, pg, hcall, hpg, ?_⟩
  split at hrun
  · rename_i hz
    cases hrun
    exact .inl ⟨hz, rfl, rfl⟩
  · rename_i hz
    obtain ⟨⟨i, complete, k₂⟩, hpages, hrun⟩ := of_bind hrun
    refine .inr ⟨hz, i, complete, k₂, hpages, ?_⟩
    cases complete with
    | false =>
      obtain ⟨k₃, hrel, hrun⟩ := by simpa only [if_true, bind_eq_ok_iff] using hrun
      cases hrun
      exact .inl ⟨rfl, rfl, hrel⟩
    | true =>
      obtain ⟨⟨ublk, k₃⟩, hublk, hrun⟩ := by
        simpa only [Bool.true_eq_false, if_false, bind_eq_ok_iff] using hrun
      refine .inr ⟨rfl, _, rfl, ublk, k₃, hublk, ?_⟩
      split at hrun
      · rename_i hnone
        obtain ⟨k₄, hrel, hrun⟩ := of_bind hrun
        cases hrun
        exact .inl ⟨hnone, rfl, hrel⟩
      · rename_i hsome
        cases hrun
        exact .inr ⟨hsome, rfl, rfl⟩

/-- **What a call of `kima_alloc` is made of**, by what the search finds. -/
theorem kimaAlloc_cases (hrun : kimaAlloc A V L k size al = .ok (r, k')) :
    (∃ base cur ublk k₁, search A L k.pool size al = .ok (some (base, cur)) ∧
      kimaAllocUblk V L k cur size = .ok (ublk, k₁) ∧ (ublk = none ∧ r = 0 ∧ k' = k₁ ∨
        ublk ≠ none ∧ r = cur ∧ refPages A base
          (Word.multiples 0 (ceilAlignTo size L.pageSize) L.pageSize) k₁ = .ok k')) ∨
    search A L k.pool size al = .ok none ∧ allocNew A V L k size al = .ok (r, k') := by
  obtain ⟨_, -, hrun⟩ := of_bind hrun
  split at hrun
  · cases hrun
  · obtain ⟨found, hsearch, hrun⟩ := by simpa only [bind_eq_ok_iff] using hrun
    cases found with
    | none => exact .inr ⟨hsearch, hrun⟩
    | some found =>
      obtain ⟨base, cur⟩ := found
      obtain ⟨⟨ublk, k₁⟩, hublk, hrun⟩ := of_bind hrun
      refine .inl ⟨base, cur, ublk, k₁, hsearch, hublk, ?_⟩
      split at hrun
      · rename_i hnone
        cases hrun
        exact .inl ⟨hnone, rfl, rfl⟩
      · rename_i hsome
        obtain ⟨k₂, href, hrun⟩ := of_bind hrun
        cases hrun
        exact .inr ⟨hsome, rfl, href⟩

/-- **What a call of `kima_free` is made of.** -/
theorem kimaFree_cases (hrun : kimaFree A V L k ptr = .ok k') :
    ∃ ublk stop k₁, kimaLookupUblk k.pool ptr = some ublk ∧
      A ((k.pool.slots .ublk).rbValue ublk) ((k.pool.slots .ublk).data ublk) = .ok stop ∧
      unrefPages V L (Word.multiples (floorAlignTo ((k.pool.slots .ublk).rbValue ublk) L.pageSize)
        (ceilAlignTo stop L.pageSize) L.pageSize) k = .ok k₁ ∧
      kimaFreeUblk V L k₁ ublk = .ok k' := by
  obtain ⟨_, -, hrun⟩ := of_bind hrun
  split at hrun
  · cases hrun
  · rename_i ublk hfind
    obtain ⟨stop, hstop, k₁, hpages, hrun⟩ := by simpa only [bind_eq_ok_iff] using hrun
    exact ⟨ublk, stop, k₁, hfind, hstop, hpages, hrun⟩

end Pbos.Mm
