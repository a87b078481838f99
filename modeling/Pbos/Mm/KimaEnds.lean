import Pbos.Mm.KimaRuns

/-!
# Mm/KimaEnds — the search of `kima_alloc` comes to an end

The inner loop goes up: a candidate that is blocked is left for the end of the block, which lies
above it.  The outer loop may go back, to the last described page before a gap, but that page lies
behind the one it comes from and before `continuous_area_base`, and is passed over next.  So each
round lowers `2 * left base`, by one more where the area at `base` is still to be tried.
-/

namespace Pbos.Mm

open Pbos.Kfxx

variable {L : Layout} {p : Pool}

/-- The computation comes to an end: it returns, or it is stopped at a sum that would wrap. -/
def Ends {α : Type} (x : Except Fault α) : Prop := x = .error .overflow ∨ ∃ a, x = .ok a

theorem ends_ok {α : Type} (a : α) : Ends (.ok a) := .inr ⟨a, rfl⟩

theorem Ends.bind {α β : Type} {x : Except Fault α} {f : α → Except Fault β} (hx : Ends x)
    (hf : ∀ a, x = .ok a → Ends (f a)) : Ends (x >>= f) := by
  obtain rfl | ⟨a, rfl⟩ := hx
  · exact .inl rfl
  · exact hf a rfl

theorem ends_add (a b : ℕ) : Ends (checkedAdd a b) := by
  unfold checkedAdd
  split
  · exact ends_ok _
  · exact .inl rfl

/-! ## The inner loop -/

theorem ends_blockedBy (p : Pool) (cur size ptr : ℕ) :
    Ends (blockedBy checkedAdd p cur size ptr) := by
  unfold blockedBy
  split
  · exact ends_ok _
  · refine (ends_add ..).bind fun stop _ => (ends_add ..).bind fun curStop _ => ?_
    split <;> exact ends_ok _

/-- A block that blocks an address ends above it. -/
theorem lt_of_blockedBy {cur size ptr stop : ℕ}
    (h : blockedBy checkedAdd p cur size ptr = .ok (some stop)) : cur < stop ∧ stop < 2 ^ 64 := by
  unfold blockedBy at h
  split at h
  · cases h
  · obtain ⟨stop', hstop, curStop, -, h⟩ := by simpa only [bind_eq_ok_iff] using h
    split at h
    · rename_i hover
      cases h
      refine ⟨hover.1, ?_⟩
      rw [exactAt_checkedAdd _ _ _ hstop]
      exact lt_of_checkedAdd hstop
    · cases h

/-- **The inner loop ends**: its candidates are addresses, each above the one before. -/
theorem ends_fitLoop {size al limit n cur : ℕ} (hcur : cur < 2 ^ 64) (hn : 2 ^ 64 ≤ cur + n) :
    Ends (fitLoop checkedAdd (blockedBy checkedAdd p) size al limit n cur) := by
  induction n generalizing cur with
  | zero => omega
  | succ n ih =>
    unfold fitLoop
    split
    · exact ends_ok _
    have halign : Ends (alignUp checkedAdd cur al) := by
      unfold alignUp
      split
      · exact ends_add ..
      · exact ends_ok _
    refine halign.bind fun c hc => (ends_blockedBy ..).bind fun r hr => ?_
    have hle : cur ≤ c := by
      unfold alignUp at hc
      split at hc
      · exact (exactAt_checkedAdd _ _ _ hc).symm ▸ Nat.le_add_right _ _
      · exact (Except.ok.inj hc).le
    have hblocked : ∀ {ptr stop}, blockedBy checkedAdd p c size ptr = .ok (some stop) →
        Ends (fitLoop checkedAdd (blockedBy checkedAdd p) size al limit n stop) := fun hr => by
      have := lt_of_blockedBy hr
      exact ih this.2 (by omega)
    cases r with
    | some stop => exact hblocked hr
    | none =>
      refine (ends_add ..).bind fun curStop _ => (ends_blockedBy ..).bind fun r hr => ?_
      cases r with
      | some stop => exact hblocked hr
      | none => exact ends_ok _

/-! ## The outer loop -/

theorem ends_findGap (p : Pool) (base : ℕ) (js : List ℕ) : Ends (findGap checkedAdd p base js) := by
  induction js with
  | nil => exact ends_ok _
  | cons j js ih =>
    refine (ends_add base j).bind fun page _ => ?_
    split
    · exact ends_ok _
    · exact ih

/-- A gap lies behind the page and has no descriptor. -/
theorem findGap_eq_some {base gap : ℕ} {js : List ℕ}
    (h : findGap checkedAdd p base js = .ok (some gap)) :
    base ≤ gap ∧ (p.slots .vpgdesc).queryTree.find gap = none := by
  induction js with
  | nil => cases h
  | cons j js ih =>
    obtain ⟨page, hpage, h⟩ := of_bind h
    split at h
    · rename_i hnone
      cases h
      exact ⟨(exactAt_checkedAdd _ _ _ hpage).symm ▸ Nat.le_add_right _ _, hnone⟩
    · exact ih h

/-- The number of described pages from `base` on. -/
def left (p : Pool) (base : ℕ) : ℕ := (p.slots .vpgdesc).queryTree.entries.countP (base ≤ ·.1)

theorem left_anti {b b' : ℕ} (h : b ≤ b') : left p b' ≤ left p b :=
  List.countP_mono_left fun _ _ hle => by simpa using h.trans (by simpa using hle)

/-- Behind a described page there are fewer. -/
theorem left_lt {b b' v : ℕ} (hb : (p.slots .vpgdesc).queryTree.find b = some v) (hlt : b < b') :
    left p b' < left p b := by
  have hout := OrdMap.countP_erase _ hb (b' ≤ ·.1)
  have hin := OrdMap.countP_erase _ hb (b ≤ ·.1)
  have hmono : ((p.slots .vpgdesc).queryTree.erase b).entries.countP (b' ≤ ·.1) ≤
      ((p.slots .vpgdesc).queryTree.erase b).entries.countP (b ≤ ·.1) :=
    List.countP_mono_left fun _ _ hle => by simpa using hlt.le.trans (by simpa using hle)
  rw [if_neg (by simpa using hlt)] at hout
  rw [if_pos (by simp)] at hin
  unfold left
  omega

/-- **The outer loop ends.**  A page before `continuous_area_base` counts for two rounds, any other
for three, since it may send the loop back once. -/
theorem ends_searchLoop {size al n cont : ℕ} {it : Option ℕ}
    (hit : ∀ b, it = some b → (∃ v, (p.slots .vpgdesc).queryTree.find b = some v) ∧
      2 * left p b + (if cont ≤ b then 1 else 0) ≤ n) :
    Ends (searchLoop checkedAdd L p (blockedBy checkedAdd p) size al n it cont) := by
  induction n generalizing it cont with
  | zero =>
    cases it with
    | none => exact ends_ok _
    | some b =>
      obtain ⟨⟨v, hv⟩, hle⟩ := hit b rfl
      have := left_lt hv (Nat.lt_succ_self b)
      omega
  | succ n ih =>
    cases it with
    | none => exact ends_ok _
    | some base =>
      obtain ⟨⟨v, hv⟩, hle⟩ := hit base rfl
      have hnext : Ends (searchLoop checkedAdd L p (blockedBy checkedAdd p) size al n
          (((p.slots .vpgdesc).queryTree.next base).map (·.1)) cont) := by
        refine ih fun b hb => ⟨OrdMap.find_of_next _ hb, ?_⟩
        obtain ⟨e, he, rfl⟩ := Option.map_eq_some_iff.mp hb
        have := left_lt hv ((OrdMap.next_eq_some_iff _).mp he).2.1
        split <;> omega
      simp only [searchLoop]
      split
      · exact hnext
      rename_i hcont
      refine (ends_findGap ..).bind fun gap hgap => ?_
      cases gap with
      | some gap =>
        obtain ⟨hbase, hnone⟩ := findGap_eq_some hgap
        refine ih fun b hb => ⟨OrdMap.find_of_findMaxLteq _ hb, ?_⟩
        obtain ⟨e, he, rfl⟩ := Option.map_eq_some_iff.mp hb
        obtain ⟨hmem, hlast, hmax⟩ := (OrdMap.findMaxLteq_eq_some_iff _).mp he
        have hback : ¬ gap ≤ e.1 := fun hge => by
          rw [← le_antisymm hlast hge, OrdMap.find_of_mem _ hmem] at hnone
          cases hnone
        have hleft : left p e.1 ≤ left p base :=
          left_anti (hmax _ ((OrdMap.find_eq_some_iff _).mp hv) hbase)
        rw [if_pos (not_lt.mp hcont)] at hle
        rw [if_neg hback]
        omega
      | none =>
        refine (ends_add ..).bind fun limit hlimit => ?_
        have := lt_of_checkedAdd hlimit
        refine (ends_fitLoop (by omega) (Nat.le_add_left _ _)).bind fun r _ => ?_
        cases r with
        | some cur => exact ends_ok _
        | none => exact hnext

/-- **The search of `kima_alloc` comes to an end**, whatever the pool, if no address wraps. -/
theorem search_returns {size al : ℕ} (hwrap : search checkedAdd L p size al ≠ .error .overflow) :
    ∃ r, search wrapAdd L p size al = .ok r := by
  have hends : Ends (search checkedAdd L p size al) := by
    refine ends_searchLoop fun b hb => ⟨OrdMap.find_of_first _ hb, ?_⟩
    have hle : left p b ≤ (p.slots .vpgdesc).queryTree.size := List.countP_le_length
    split <;> omega
  obtain ⟨r, hr⟩ := hends.resolve_left hwrap
  exact ⟨r, (agrees_search p size al).of_ok r hr⟩

/-- A pool of two described pages with another between them. -/
def gapPool : Pool :=
  match execs checkedAdd (growingVm (pages4k 3)) (pages4k 3) ⟨kiInitKimaPool, ()⟩
    [.alloc 24 8, .alloc 4096 8] with
  | .ok (_, k) => k.pool
  | .error _ => kiInitKimaPool

theorem search_returns_gapPool : gapPool.pages.entries.length = 2 ∧
    ∃ r, search wrapAdd (pages4k 3) gapPool 4097 8 = .ok r :=
  ⟨by decide +kernel, search_returns (by decide +kernel)⟩

end Pbos.Mm
