import Pbos.Lib.DList
import Pbos.Mm.Pgalloc

/-!
# Mm/FreeList — what the list surgery of the page allocator does to a free list

`FreeList P s area p L` says that `free_list` of `area` is the chain of the MADs `L`, all of them
unreferenced MADs of the area, and that the first one's `prev_free` is `p`.  A list as
initialisation builds it has `p = none`; the surgery of `ki_set_page_free` leaves a stale `p`
behind.

The lemmas follow one list through the two surgeries: the list the MAD hangs on
(`FreeList.unlink_mem`), any other list (`FreeList.unlink_not_mem`), and any list when a MAD is
freed (`FreeList.link`).
-/

namespace Pbos

open DList List

variable {P : PmadTree} {s : PgState} {area b mad n : ℕ} {p : Option ℕ} {L : List ℕ}

/-! ## The fields after a surgery -/

section Fields

@[simp] theorem unlinkFree_refCount : (unlinkFree s area mad).refCount = s.refCount := by
  simp only [unlinkFree]
  split_ifs <;> rfl

@[simp] theorem unlinkFree_freeList (b : ℕ) : (unlinkFree s area mad).freeList b =
    if b = area ∧ s.freeList area = some mad then s.nextFree mad else s.freeList b := by
  by_cases h : s.freeList area = some mad <;> simp [unlinkFree, h]

theorem unlinkFree_nextFree (y : ℕ) : (unlinkFree s area mad).nextFree y =
    if y = mad then none else if s.prevFree mad = some y then s.nextFree mad else s.nextFree y := by
  by_cases h : s.freeList area = some mad <;> simp [unlinkFree, h, eq_comm]

/-- The second write reads `next_free` after the first one, which leaves the MAD's own link as it
was. -/
theorem unlinkFree_prevFree (y : ℕ) : (unlinkFree s area mad).prevFree y =
    if y = mad then none else if s.nextFree mad = some y then s.prevFree mad else s.prevFree y := by
  by_cases h : s.freeList area = some mad <;> simp [unlinkFree, h, eq_comm]

@[simp] theorem linkFree_refCount : (linkFree s area mad).refCount = s.refCount := rfl

theorem linkFree_nextFree (y : ℕ) : (linkFree s area mad).nextFree y =
    if y = mad then s.freeList area else s.nextFree y := by
  simp [linkFree, eq_comm]

theorem linkFree_prevFree (y : ℕ) : (linkFree s area mad).prevFree y =
    if s.freeList area = some y then some mad else s.prevFree y := by
  simp [linkFree]

end Fields

/-! ## A well-formed free list -/

/-- `free_list` of `area` is the chain of the MADs `L`, which are unreferenced MADs of the area; the
first one's `prev_free` is `p`. -/
structure FreeList (P : PmadTree) (s : PgState) (area : ℕ) (p : Option ℕ) (L : List ℕ) : Prop where
  head : (P.tree.find area).isSome → s.freeList area = headOr L none
  chain : Chain s.nextFree s.prevFree p L none
  nodup : L.Nodup
  isMad : ∀ m ∈ L, P.IsMad area m
  refCount : ∀ m ∈ L, s.refCount m = 0

namespace FreeList

section

variable (h : FreeList P s area p L)

include h

/-- The head pointer of an area with a MAD. -/
theorem head_of_isMad (hm : P.IsMad area mad) : s.freeList area = headOr L none := by
  obtain ⟨pmad, hp, -⟩ := hm
  exact h.head (by rw [hp]; rfl)

/-- **Two areas share no listed MAD.** -/
theorem area_eq {p' : Option ℕ} {L' : List ℕ} (h' : FreeList P s b p' L') (hm : mad ∈ L)
    (hm' : mad ∈ L') : area = b :=
  (h.isMad mad hm).area_eq (h'.isMad mad hm')

/-- The links of a listed MAD stay in the list, or leave it at its two ends. -/
theorem links_of_mem (hm : mad ∈ L) : (s.prevFree mad = p ∨ ∃ y ∈ L, s.prevFree mad = some y) ∧
      (s.nextFree mad = none ∨ ∃ y ∈ L, s.nextFree mad = some y) := by
  obtain ⟨A, B, rfl⟩ := append_of_mem hm
  obtain ⟨hprev, hnext⟩ := chain_at h.chain
  constructor
  · rcases lastOr_eq_or_mem p A with ⟨-, hl⟩ | ⟨y, hy, hl⟩
    · exact .inl (hprev.trans hl)
    · exact .inr ⟨y, mem_append_left _ hy, hprev.trans hl⟩
  · rcases headOr_eq_or_mem B none with ⟨-, hl⟩ | ⟨y, hy, hl⟩
    · exact .inl (hnext.trans hl)
    · exact .inr ⟨y, mem_append_right _ (mem_cons_of_mem _ hy), hnext.trans hl⟩

/-- A listed MAD whose `prev_free` is outside the list is the first one. -/
theorem first_of_prev (hm : mad ∈ L) (hprev : ∀ y ∈ L, s.prevFree mad ≠ some y) :
    ∃ B, L = mad :: B ∧ s.nextFree mad = headOr B none := by
  obtain ⟨A, B, rfl⟩ := append_of_mem hm
  obtain ⟨hp, hnext⟩ := chain_at h.chain
  rcases lastOr_eq_or_mem p A with ⟨rfl, -⟩ | ⟨y, hy, hl⟩
  · exact ⟨B, rfl, hnext⟩
  · exact absurd (hp.trans hl) (hprev y (mem_append_left _ hy))

/-- **The list the MAD hangs on loses it**, and nothing else. -/
theorem unlink_mem (hm : mad ∈ L) (hp : ∀ y ∈ L, p ≠ some y) :
    FreeList P (unlinkFree (s.setRefCount mad n) area mad) area p (L.erase mad) := by
  obtain ⟨A, B, rfl⟩ := append_of_mem hm
  have hmA := notMem_of_nodup_middle h.nodup
  have hmB : mad ∉ B := (nodup_cons.mp (nodup_append.mp h.nodup).2.1).1
  have hsub : ∀ y ∈ A ++ B, y ∈ A ++ mad :: B ∧ y ≠ mad := fun y hy => by
    rcases mem_append.mp hy with hy | hy
    · exact ⟨mem_append_left _ hy, fun e => hmA (e ▸ hy)⟩
    · exact ⟨mem_append_right _ (mem_cons_of_mem _ hy), fun e => hmB (e ▸ hy)⟩
  rw [erase_middle hmA]
  refine ⟨fun harea => ?_, h.chain.unlink h.nodup (fun y hy => hp y ?_) (by simp) (fun y hy => ?_)
    fun y hy => ?_, ?_, fun y hy => h.isMad y (hsub y hy).1, fun y hy => ?_⟩
  · have hhead := h.head harea
    obtain ⟨-, hnext⟩ := chain_at h.chain
    cases A with
    | nil => simpa [hhead] using hnext
    | cons x A =>
      have hx : x ≠ mad := (hsub x (by simp)).2
      simp [hhead, hx]
  · exact mem_append_right _ (mem_cons_of_mem _ hy)
  · rw [unlinkFree_nextFree, if_neg (hsub y hy).2]; rfl
  · rw [unlinkFree_prevFree, if_neg (hsub y hy).2]; rfl
  · exact erase_middle hmA ▸ h.nodup.erase mad
  · simp [(hsub y hy).2, h.refCount y (hsub y hy).1]

end

/-- A list keeps its MADs where at most the `prev_free` of its first one changes: `o`, if it is
listed, gets `q`. -/
theorem restart {t : PgState} {o q : Option ℕ} (h : FreeList P s b p L)
    (hfree : t.freeList b = s.freeList b) (hn : ∀ y ∈ L, t.nextFree y = s.nextFree y)
    (hp : ∀ y ∈ L, t.prevFree y = if o = some y then q else s.prevFree y)
    (hcount : ∀ y ∈ L, t.refCount y = s.refCount y)
    (ho : ∀ y ∈ L, o = some y → headOr L none = some y) :
    ∃ p', FreeList P t b p' L ∧ (p' = p ∨ p' = q ∧ ∃ y ∈ L, o = some y) := by
  have hfields : ∀ p', Chain t.nextFree t.prevFree p' L none → FreeList P t b p' L :=
    fun p' hchain => ⟨fun harea => hfree.trans (h.head harea), hchain, h.nodup, h.isMad,
      fun y hy => (hcount y hy).trans (h.refCount y hy)⟩
  by_cases hc : ∃ y ∈ L, o = some y
  · obtain ⟨x, hx, hox⟩ := hc
    refine ⟨q, hfields _ (h.chain.setStart h.nodup (fun y hy e => ?_) (fun y hy e => ?_) hn),
      .inr ⟨rfl, x, hx, hox⟩⟩
    · rw [hp y hy, if_pos (hox.trans ((ho x hx hox).symm.trans e))]
    · rw [hp y hy, if_neg fun e' => e (ho y hy e')]
  · refine ⟨p, hfields _ (h.chain.congr hn fun y hy => ?_), .inl rfl⟩
    rw [hp y hy, if_neg fun e' => hc ⟨y, hy, e'⟩]

/-- **A list the MAD does not hang on keeps its MADs** when the MAD's `prev_free` is outside it.
Its first MAD may lose a stale `prev_free`. -/
theorem unlink_not_mem (h : FreeList P s b p L) (hm : mad ∉ L)
    (hprev : ∀ y ∈ L, s.prevFree mad ≠ some y)
    (hnext : ∀ y ∈ L, s.nextFree mad = some y → headOr L none = some y)
    (hhead : b = area → s.freeList area ≠ some mad) :
    ∃ p', FreeList P (unlinkFree (s.setRefCount mad n) area mad) b p' L ∧
      (p' = p ∨ p' = s.prevFree mad ∧ ∃ y ∈ L, s.nextFree mad = some y) := by
  have hne : ∀ y ∈ L, y ≠ mad := fun y hy e => hm (e ▸ hy)
  refine h.restart ?_ (fun y hy => ?_) (fun y hy => ?_) (fun y hy => ?_) hnext
  · rw [unlinkFree_freeList]
    exact if_neg fun hc => hhead hc.1 hc.2
  · rw [unlinkFree_nextFree, if_neg (hne y hy)]
    exact if_neg (hprev y hy)
  · rw [unlinkFree_prevFree, if_neg (hne y hy)]
    rfl
  · simp [hne y hy]

/-- **A freed MAD joins no list**: at most it becomes the stale `prev_free` of a first MAD. -/
theorem link (h : FreeList P s b p L) (hm : mad ∉ L)
    (hhead : ∀ y ∈ L, s.freeList area = some y → headOr L none = some y) :
    ∃ p', FreeList P (linkFree (s.setRefCount mad n) area mad) b p' L ∧
      (p' = p ∨ p' = some mad) := by
  have hne : ∀ y ∈ L, y ≠ mad := fun y hy e => hm (e ▸ hy)
  obtain ⟨p', hfree, hp'⟩ := h.restart (t := linkFree (s.setRefCount mad n) area mad) rfl
    (fun y hy => by rw [linkFree_nextFree, if_neg (hne y hy)]; rfl)
    (fun y _ => linkFree_prevFree ..) (fun y hy => by simp [hne y hy]) hhead
  exact ⟨p', hfree, hp'.imp_right (·.1)⟩

/-- Changing the count of a MAD outside the list. -/
theorem setRefCount (h : FreeList P s area p L) (hm : mad ∉ L) :
    FreeList P (s.setRefCount mad n) area p L := by
  refine ⟨h.head, h.chain, h.nodup, h.isMad, fun y hy => ?_⟩
  have hne : y ≠ mad := fun e => hm (e ▸ hy)
  simp [hne, h.refCount y hy]

end FreeList

end Pbos
