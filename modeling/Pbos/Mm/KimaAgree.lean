import Pbos.Mm.KimaSearch

/-!
# Mm/KimaAgree — checked and wrapping arithmetic give the same runs

With every sum of addresses checked, a call either stops at a sum that would wrap or does exactly
what the machine does (`agrees_exec`).
-/

namespace Pbos.Mm

open Pbos.Kfxx

variable {σ : Type} {V : Vm σ} {L : Layout}

/-- Whatever the first computation returns, the second returns too. -/
structure Agrees {α : Type} (x y : Except Fault α) : Prop where
  of_ok : ∀ a, x = .ok a → y = .ok a

theorem Agrees.refl {α : Type} (x : Except Fault α) : Agrees x x := ⟨fun _ h => h⟩

theorem Agrees.bind {α β : Type} {x y : Except Fault α} {f g : α → Except Fault β}
    (hx : Agrees x y) (hf : ∀ a, Agrees (f a) (g a)) : Agrees (x >>= f) (y >>= g) := by
  refine ⟨fun b hb => ?_⟩
  obtain ⟨a, ha, hb⟩ := of_bind hb
  exact bind_eq_ok_iff.mpr ⟨a, hx.of_ok a ha, (hf a).of_ok b hb⟩

theorem agrees_add (a b : ℕ) : Agrees (checkedAdd a b) (wrapAdd a b) := by
  refine ⟨fun c h => ?_⟩
  have hlt := lt_of_checkedAdd h
  rw [exactAt_checkedAdd a b c h]
  exact congrArg Except.ok (Word.add_of_lt hlt)

theorem agrees_alignUp (p al : ℕ) : Agrees (alignUp checkedAdd p al) (alignUp wrapAdd p al) := by
  unfold alignUp
  split
  · exact agrees_add ..
  · exact Agrees.refl _

theorem agrees_findGap (p : Pool) (base : ℕ) (js : List ℕ) :
    Agrees (findGap checkedAdd p base js) (findGap wrapAdd p base js) := by
  induction js with
  | nil => exact Agrees.refl _
  | cons j js ih =>
    refine (agrees_add base j).bind fun page => ?_
    split
    · exact Agrees.refl _
    · exact ih

theorem agrees_blockedBy (p : Pool) (cur size ptr : ℕ) :
    Agrees (blockedBy checkedAdd p cur size ptr) (blockedBy wrapAdd p cur size ptr) := by
  unfold blockedBy
  split
  · exact Agrees.refl _
  · exact (agrees_add ..).bind fun stop => (agrees_add ..).bind fun curStop => Agrees.refl _

theorem agrees_fitLoop (p : Pool) (size al limit n cur : ℕ) :
    Agrees (fitLoop checkedAdd (blockedBy checkedAdd p) size al limit n cur)
      (fitLoop wrapAdd (blockedBy wrapAdd p) size al limit n cur) := by
  induction n generalizing cur with
  | zero => exact Agrees.refl _
  | succ n ih =>
    unfold fitLoop
    split
    · exact Agrees.refl _
    · refine (agrees_alignUp ..).bind fun cur => (agrees_blockedBy ..).bind fun r => ?_
      cases r with
      | some stop => exact ih stop
      | none =>
        refine (agrees_add ..).bind fun curStop => (agrees_blockedBy ..).bind fun r => ?_
        cases r with
        | some stop => exact ih stop
        | none => exact Agrees.refl _

theorem agrees_searchLoop (p : Pool) (size al n : ℕ) (it : Option ℕ) (cont : ℕ) :
    Agrees (searchLoop checkedAdd L p (blockedBy checkedAdd p) size al n it cont)
      (searchLoop wrapAdd L p (blockedBy wrapAdd p) size al n it cont) := by
  induction n generalizing it cont with
  | zero => cases it <;> exact Agrees.refl _
  | succ n ih =>
    cases it with
    | none => exact Agrees.refl _
    | some base =>
      simp only [searchLoop]
      split
      · exact ih ..
      · refine (agrees_findGap ..).bind fun gap => ?_
        cases gap with
        | some gap => exact ih ..
        | none =>
          refine (agrees_add ..).bind fun limit => (agrees_fitLoop ..).bind fun r => ?_
          cases r with
          | some cur => exact Agrees.refl _
          | none => exact ih ..

theorem agrees_search (p : Pool) (size al : ℕ) :
    Agrees (search checkedAdd L p size al) (search wrapAdd L p size al) := agrees_searchLoop ..

theorem agrees_refPages (base : ℕ) (js : List ℕ) (k : Kima σ) :
    Agrees (refPages checkedAdd base js k) (refPages wrapAdd base js k) := by
  induction js generalizing k with
  | nil => exact Agrees.refl _
  | cons j js ih =>
    refine (agrees_add base j).bind fun page => ?_
    split
    · exact Agrees.refl _
    · exact ih _

theorem agrees_newPages (pg size n i : ℕ) (k : Kima σ) :
    Agrees (newPages checkedAdd V L pg size n i k) (newPages wrapAdd V L pg size n i k) := by
  induction n generalizing i k with
  | zero => exact Agrees.refl _
  | succ n ih =>
    unfold newPages
    split
    · refine (agrees_add pg i).bind fun page => (Agrees.refl _).bind fun r => ?_
      obtain ⟨r, k₁⟩ := r
      cases r with
      | none => exact Agrees.refl _
      | some vpgdesc => exact ih ..
    · exact Agrees.refl _

theorem agrees_dropPages (pg : ℕ) (js : List ℕ) (k : Kima σ) :
    Agrees (dropPages checkedAdd V L pg js k) (dropPages wrapAdd V L pg js k) := by
  induction js generalizing k with
  | nil => exact Agrees.refl _
  | cons j js ih =>
    refine (agrees_add pg j).bind fun page => ?_
    split
    · exact Agrees.refl _
    · exact (Agrees.refl _).bind ih

theorem agrees_releaseVpgdescs (pg i : ℕ) (k : Kima σ) :
    Agrees (releaseVpgdescs checkedAdd V L pg i k) (releaseVpgdescs wrapAdd V L pg i k) :=
  (agrees_dropPages ..).bind fun _ => Agrees.refl _

theorem agrees_allocNew (k : Kima σ) (size al : ℕ) :
    Agrees (allocNew checkedAdd V L k size al) (allocNew wrapAdd V L k size al) := by
  refine (Agrees.refl _).bind fun r => (agrees_alignUp ..).bind fun pg => ?_
  split
  · exact Agrees.refl _
  · refine (agrees_newPages ..).bind fun r => ?_
    split
    split
    · exact (agrees_releaseVpgdescs ..).bind fun _ => Agrees.refl _
    · refine (Agrees.refl _).bind fun r => ?_
      split
      split
      · exact (agrees_releaseVpgdescs ..).bind fun _ => Agrees.refl _
      · exact Agrees.refl _

theorem agrees_kimaAlloc (k : Kima σ) (size al : ℕ) :
    Agrees (kimaAlloc checkedAdd V L k size al) (kimaAlloc wrapAdd V L k size al) := by
  refine (Agrees.refl _).bind fun _ => ?_
  split
  · exact Agrees.refl _
  · refine (agrees_search ..).bind fun found => ?_
    cases found with
    | none => exact agrees_allocNew ..
    | some found =>
      refine (Agrees.refl _).bind fun r => ?_
      split
      split
      · exact Agrees.refl _
      · exact (agrees_refPages ..).bind fun _ => Agrees.refl _

theorem agrees_kimaFree (k : Kima σ) (ptr : ℕ) :
    Agrees (kimaFree checkedAdd V L k ptr) (kimaFree wrapAdd V L k ptr) := by
  refine (Agrees.refl _).bind fun _ => ?_
  split
  · exact Agrees.refl _
  · exact (agrees_add ..).bind fun stop => Agrees.refl _

/-- **A call in which no address wraps runs on the machine as it does with every sum checked.** -/
theorem agrees_exec (k : Kima σ) (c : KimaCall) :
    Agrees (exec checkedAdd V L k c) (exec wrapAdd V L k c) := by
  cases c with
  | alloc size al => exact agrees_kimaAlloc ..
  | free ptr => exact (agrees_kimaFree ..).bind fun _ => Agrees.refl _

end Pbos.Mm
