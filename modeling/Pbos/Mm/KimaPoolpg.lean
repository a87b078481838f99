import Pbos.Lib.DList
import Pbos.Mm.KimaRuns

/-!
# Mm/KimaPoolpg — the pool pages of kima and the lists they hang on

A descriptor is taken from the free tree or from a new pool page, and given back alone or with its
page.  `allocSlot_moves` and `freeSlot_moves` say what that does to everything a pool keeps about
its pages: the list and its links, the pages held, `num_allocated_pages` and the two trees.  What
becomes of the lists is then a matter of three moves, `Keeps`, `Pushes` and `Drops`.

`kima_free_ublk` and `kima_free_vpgdesc` never write the head of a list, so a list survives a page
that goes exactly if that page is not its first (`Drops.pagesOk`).
-/

namespace Pbos.Mm

open Pbos.Kfxx SlotPool DList Function

/-! ## The links -/

namespace SlotPool

theorem linkPage_prev (hdr : Headers) (list : Option ℕ) (pg y : ℕ) : (linkPage hdr list pg).prev y =
    if list = some y then some pg else if y = pg then none else hdr.prev y := by
  cases list <;> simp [linkPage, update_apply, eq_comm]

theorem linkPage_next (hdr : Headers) (list : Option ℕ) (pg y : ℕ) : (linkPage hdr list pg).next y =
    if y = pg then list else hdr.next y := by
  simp [linkPage, update_apply]

theorem unlinkPage_next (hdr : Headers) (pg y : ℕ) : (unlinkPage hdr pg).next y =
    if hdr.prev pg = some y then hdr.next pg else hdr.next y := by
  cases h : hdr.prev pg <;> simp [unlinkPage, h, update_apply, eq_comm]

/-- The second write reads `next` after the first one, which leaves the page's own link as it
was. -/
theorem unlinkPage_prev (hdr : Headers) (pg y : ℕ) : (unlinkPage hdr pg).prev y =
    if hdr.next pg = some y then hdr.prev pg else hdr.prev y := by
  have hown : (unlinkPage hdr pg).next pg = hdr.next pg := by rw [unlinkPage_next, ite_self]
  simp only [unlinkPage] at hown ⊢
  rw [hown]
  cases hdr.next pg <;> simp [update_apply, eq_comm]

end SlotPool

/-! ## Moves -/

variable {σ : Type} {V : Vm σ} {L : Layout} {k k' k'' : Kima σ} {κ : Kind} {p p' p'' : Pool}
  {P P' P'' : Kind → List ℕ} {pg pages n i r : ℕ} {A : PtrAdd} {complete : Bool} {js : List ℕ}
  {m size i' q : ℕ}

/-- **The pool pages `P`**: their slots are divided between the two trees, and they are what the two
lists of pool pages consist of. -/
structure PagesOk (L : Layout) (p : Pool) (P : Kind → List ℕ) : Prop extends PoolOk L p P where
  head : ∀ κ, (p.slots κ).poolpgList = headOr (P κ) none
  chain : ∀ κ, Chain p.hdr.next p.hdr.prev none (P κ) none

theorem Keeps.pagesOk (h : Keeps p p') (hok : PoolOk L p' P) (hP : PagesOk L p P) :
    PagesOk L p' P where
  toPoolOk := hok
  head κ := (h.list κ).trans (hP.head κ)
  chain κ := by
    rw [h.prev, h.next]
    exact hP.chain κ

theorem Pushes.pagesOk (h : Pushes κ pg pages p p')
    (hok : PoolOk L p' (update P κ (pg :: P κ))) (hP : PagesOk L p P) :
    PagesOk L p' (update P κ (pg :: P κ)) := by
  have hnew : ∀ κ', pg ∉ P κ' := fun κ' hmem => h.fresh (hP.held κ' pg hmem)
  have hne : ∀ {κ' y}, y ∈ P κ' → y ≠ pg := fun {κ' y} hy e => hnew κ' (e ▸ hy)
  have hfirst : ∀ κ' y, y ∈ P κ' → (p.slots κ).poolpgList = some y → κ' = κ := by
    intro κ' y hy heq
    rw [hP.head κ] at heq
    exact hP.apart κ' κ y hy (mem_of_headOr_eq_some heq)
  refine ⟨hok, fun κ' => ?_, fun κ' => ?_⟩
  · rw [h.list κ']
    by_cases hκ : κ' = κ
    · subst hκ
      simp
    · rw [if_neg hκ, update_of_ne hκ, hP.head κ']
  · rw [h.prev, h.next]
    by_cases hκ : κ' = κ
    · subst hκ
      rw [update_self]
      refine ⟨?_, ?_, (hP.chain κ').setStart (hP.slots κ').nodup (fun y _ hy => ?_)
        (fun y hy hlater => ?_) fun y hy => ?_⟩
      · rw [linkPage_prev, if_neg (fun heq => ?_), if_pos rfl]
        rw [hP.head κ'] at heq
        exact hnew κ' (mem_of_headOr_eq_some heq)
      · rw [linkPage_next, if_pos rfl, hP.head κ']
      · rw [linkPage_prev, hP.head κ', if_pos hy]
      · rw [linkPage_prev, hP.head κ', if_neg hlater, if_neg (hne hy)]
      · rw [linkPage_next, if_neg (hne hy)]
    · rw [update_of_ne hκ]
      refine (hP.chain κ').congr (fun y hy => ?_) fun y hy => ?_
      · rw [linkPage_next, if_neg (hne hy)]
      · rw [linkPage_prev, if_neg fun heq => hκ (hfirst κ' y hy heq), if_neg (hne hy)]

/-- **A list survives a page that goes, unless it is its first.** -/
theorem Drops.pagesOk (h : Drops pg pages p p') (hpg : pg ∈ P κ)
    (hfirst : (p.slots κ).poolpgList ≠ some pg)
    (hok : PoolOk L p' (update P κ ((P κ).erase pg))) (hP : PagesOk L p P) :
    PagesOk L p' (update P κ ((P κ).erase pg)) := by
  obtain ⟨A, B, hAB⟩ := List.append_of_mem hpg
  have hnd := (hP.slots κ).nodup
  have hchain := hP.chain κ
  rw [hAB] at hnd hchain
  obtain ⟨hprev, hnext⟩ := chain_at hchain
  have herase : (P κ).erase pg = A ++ B := by
    rw [hAB, erase_middle (notMem_of_nodup_middle hnd)]
  have hnear : ∀ κ' y, y ∈ P κ' → p.hdr.prev pg = some y ∨ p.hdr.next pg = some y → κ' = κ := by
    intro κ' y hy hor
    have hmem : y ∈ P κ := by
      rw [hprev, hnext] at hor
      rw [hAB]
      rcases hor with hl | hl
      · exact List.mem_append_left _ (mem_of_lastOr_eq_some hl)
      · exact List.mem_append_right _ (List.mem_cons_of_mem _ (mem_of_headOr_eq_some hl))
    exact hP.apart κ' κ y hy hmem
  refine ⟨hok, fun κ' => ?_, fun κ' => ?_⟩
  · rw [h.list κ', hP.head κ']
    by_cases hκ : κ' = κ
    · subst hκ
      rw [update_self]
      have hhead := hP.head κ'
      cases hh : headOr (P κ') none with
      | none =>
        rw [headOr_eq_none_iff.mp hh] at hpg
        cases hpg
      | some x => rw [headOr_erase_of_ne hh fun e => hfirst (hhead.trans (hh.trans (e ▸ rfl)))]
    · rw [update_of_ne hκ]
  · rw [h.prev, h.next]
    by_cases hκ : κ' = κ
    · subst hκ
      rw [update_self, herase]
      exact hchain.unlink hnd (by simp) (by simp) (fun y _ => unlinkPage_next ..)
        fun y _ => unlinkPage_prev ..
    · rw [update_of_ne hκ]
      refine (hP.chain κ').congr (fun y hy => ?_) fun y hy => ?_
      · rw [unlinkPage_next, if_neg fun e => hκ (hnear κ' y hy (.inl e))]
      · rw [unlinkPage_prev, if_neg fun e => hκ (hnear κ' y hy (.inr e))]

/-! ## The pages held -/

/-- The number of pool pages of both kinds. -/
def poolpgs (P : Kind → List ℕ) : ℕ := (P .ublk).length + (P .vpgdesc).length

theorem poolpgs_update (P : Kind → List ℕ) (κ : Kind) (Q : List ℕ) :
    poolpgs (update P κ Q) + (P κ).length = poolpgs P + Q.length := by
  cases κ <;> simp [poolpgs] <;> omega

/-- Pages come and go, but those that are no pool pages stay. -/
structure Evolves (p : Pool) (P : Kind → List ℕ) (p' : Pool) (P' : Kind → List ℕ) : Prop where
  nodup : p.held.Nodup → p'.held.Nodup
  blocks : ∀ v ∈ p.held, (∀ κ, v ∉ P κ) → v ∈ p'.held ∧ ∀ κ, v ∉ P' κ

theorem Evolves.refl (p : Pool) (P : Kind → List ℕ) : Evolves p P p P :=
  ⟨id, fun _ hv hout => ⟨hv, hout⟩⟩

theorem Evolves.trans (h : Evolves p P p' P') (h' : Evolves p' P' p'' P'') :
    Evolves p P p'' P'' where
  nodup hnd := h'.nodup (h.nodup hnd)
  blocks v hv hout := by
    obtain ⟨hv', hout'⟩ := h.blocks v hv hout
    exact h'.blocks v hv' hout'

/-- **Only pool pages come and go**: the number of pages held changes with them. -/
structure Moved (p : Pool) (P : Kind → List ℕ) (p' : Pool) (P' : Kind → List ℕ) : Prop
    extends Evolves p P p' P' where
  length : p.held.Nodup → p'.held.length + poolpgs P = p.held.length + poolpgs P'

theorem Moved.of_held (h : p'.held = p.held) : Moved p P p' P :=
  ⟨⟨fun hnd => h ▸ hnd, fun _ hv hout => ⟨h ▸ hv, hout⟩⟩, fun _ => by rw [h]⟩

theorem Moved.trans (h : Moved p P p' P') (h' : Moved p' P' p'' P'') : Moved p P p'' P'' where
  toEvolves := h.toEvolves.trans h'.toEvolves
  length hnd := by
    have h₁ := h.length hnd
    have h₂ := h'.length (h.nodup hnd)
    omega

theorem Pushes.moved (h : Pushes κ pg pages p p') : Moved p P p' (update P κ (pg :: P κ)) where
  nodup hnd := h.held ▸ List.nodup_cons.mpr ⟨h.fresh, hnd⟩
  length _ := by
    have hcount := poolpgs_update P κ (pg :: P κ)
    rw [h.held]
    simp only [List.length_cons] at hcount ⊢
    omega
  blocks v hv hout := by
    refine ⟨h.held ▸ List.mem_cons_of_mem _ hv, fun κ' hmem => ?_⟩
    by_cases hκ : κ' = κ
    · subst hκ
      rw [update_self] at hmem
      rcases List.mem_cons.mp hmem with rfl | hmem
      · exact h.fresh hv
      · exact hout κ' hmem
    · rw [update_of_ne hκ] at hmem
      exact hout κ' hmem

theorem Drops.moved (h : Drops pg pages p p') (hP : PoolOk L p P) (hpg : pg ∈ P κ) :
    Moved p P p' (update P κ ((P κ).erase pg)) where
  nodup hnd := h.held ▸ hnd.filter _
  length hnd := by
    have hcount := poolpgs_update P κ ((P κ).erase pg)
    have herase : p'.held = p.held.erase pg := by
      rw [h.held, hnd.erase_eq_filter]
      exact List.filter_congr fun x _ => by simp [bne, beq_eq_decide]
    have hheld := List.length_erase_of_mem (hP.held κ pg hpg)
    have hpos := List.length_pos_of_mem (hP.held κ pg hpg)
    have hpos' := List.length_pos_of_mem hpg
    rw [List.length_erase_of_mem hpg] at hcount
    rw [herase]
    omega
  blocks v hv hout := by
    have hne : v ≠ pg := fun e => hout κ (e ▸ hpg)
    refine ⟨h.held ▸ List.mem_filter.mpr ⟨hv, by simpa using hne⟩, fun κ' hmem => ?_⟩
    by_cases hκ : κ' = κ
    · subst hκ
      rw [update_self] at hmem
      exact hout κ' (List.mem_of_mem_erase hmem)
    · rw [update_of_ne hκ] at hmem
      exact hout κ' hmem

/-- **The pool pages are where the descriptors in use are.** -/
theorem PoolOk.mem_iff (hP : PoolOk L p P) :
    pg ∈ P κ ↔ ∃ q n, (p.slots κ).queryTree.find q = some n ∧ floorAlignTo n L.pageSize = pg := by
  have h := hP.slots κ
  constructor
  · intro hpg
    have hpos := h.used_pos pg hpg
    rw [h.used_eq pg hpg] at hpos
    obtain ⟨n, hn, hin⟩ := List.countP_pos_iff.mp hpos
    exact ⟨_, n, of_decide_eq_true hin, (L.slots κ).floor_slot (h.aligned pg hpg) hn⟩
  · rintro ⟨q, n, hq, rfl⟩
    obtain ⟨-, pg, hpg, hn⟩ := h.query q n hq
    have hfloor := (L.slots κ).floor_slot (h.aligned pg hpg) hn
    exact hfloor.symm ▸ hpg

/-! ## Pages in and out of use -/

/-- Only reference counts are written. -/
structure Recounts (L : Layout) (k k' : Kima σ) : Prop where
  keeps : Keeps k.pool k'.pool
  env : k'.env = k.env
  ublk : k'.pool.slots .ublk = k.pool.slots .ublk
  query : (k'.pool.slots .vpgdesc).queryTree = (k.pool.slots .vpgdesc).queryTree
  free : (k'.pool.slots .vpgdesc).freeTree = (k.pool.slots .vpgdesc).freeTree
  ok : ∀ {P}, PoolOk L k.pool P → PoolOk L k'.pool P

theorem Recounts.refl (L : Layout) (k : Kima σ) : Recounts L k k :=
  ⟨⟨rfl, rfl, fun _ => rfl, rfl, rfl⟩, rfl, rfl, rfl, rfl, id⟩

theorem Recounts.trans (h : Recounts L k k') (h' : Recounts L k' k'') : Recounts L k k'' where
  keeps := ⟨h'.keeps.prev.trans h.keeps.prev, h'.keeps.next.trans h.keeps.next,
    fun κ => (h'.keeps.list κ).trans (h.keeps.list κ), h'.keeps.held.trans h.keeps.held,
    h'.keeps.num.trans h.keeps.num⟩
  env := h'.env.trans h.env
  ublk := h'.ublk.trans h.ublk
  query := h'.query.trans h.query
  free := h'.free.trans h.free
  ok hP := h'.ok (h.ok hP)

theorem Recounts.pagesOk (h : Recounts L k k') (hP : PagesOk L k.pool P) : PagesOk L k'.pool P :=
  h.keeps.pagesOk (h.ok hP.toPoolOk) hP

theorem Recounts.moved (h : Recounts L k k') : Moved k.pool P k'.pool P := .of_held h.keeps.held

theorem recounts_setRefCount (k : Kima σ) (node n : ℕ) : Recounts L k (k.setRefCount node n) where
  keeps := by
    refine ⟨rfl, rfl, fun κ => ?_, rfl, rfl⟩
    cases κ <;> rfl
  env := rfl
  ublk := rfl
  query := rfl
  free := rfl
  ok hP := by
    have h := hP.setSlots ((hP.slots .vpgdesc).setData node n) (fun _ _ _ => rfl)
      (hP.held .vpgdesc) fun q hq κ' hκ hq' => hκ (hP.apart κ' _ q hq' hq)
    rwa [update_eq_self] at h

theorem refPages_recounts {base : ℕ} (hrun : refPages A base js k = .ok k') :
    Recounts L k k' := by
  induction js generalizing k with
  | nil =>
    obtain rfl := Except.ok.inj hrun
    exact .refl L k
  | cons j js ih =>
    obtain ⟨page, -, hrun⟩ := of_bind hrun
    split at hrun
    · cases hrun
    · exact (recounts_setRefCount k _ _).trans (ih hrun)

/-- **`m` pages are described**, the pool pages `Q` being made for their descriptors. -/
structure NewDescs (L : Layout) (P : Kind → List ℕ) (m : ℕ) (Q : List ℕ) (k k' : Kima σ) :
    Prop where
  ok : PoolOk L k'.pool (update P .vpgdesc (Q ++ P .vpgdesc))
  pages : PagesOk L k.pool P → PagesOk L k'.pool (update P .vpgdesc (Q ++ P .vpgdesc))
  moved : Moved k.pool P k'.pool (update P .vpgdesc (Q ++ P .vpgdesc))
  num : k.pool.numAllocatedPages < 2 ^ 64 → k'.pool.numAllocatedPages = k.pool.numAllocatedPages
  ublk : k'.pool.slots .ublk = k.pool.slots .ublk
  query : ∀ q n, (k.pool.slots .vpgdesc).queryTree.find q = some n →
    (k'.pool.slots .vpgdesc).queryTree.find q = some n
  free : (k'.pool.slots .vpgdesc).freeTree.size + m =
    (k.pool.slots .vpgdesc).freeTree.size + Q.length * (L.slots .vpgdesc).slotsSize
  full : Q ≠ [] → (k'.pool.slots .vpgdesc).freeTree.size < (L.slots .vpgdesc).slotsSize

theorem NewDescs.of_pool_eq (hP : PoolOk L k.pool P) (h : k'.pool = k.pool) :
    NewDescs L P 0 [] k k' := by
  have hsame : update P .vpgdesc ([] ++ P .vpgdesc) = P := update_eq_self ..
  constructor <;> rw [h]
  · exact hsame.symm ▸ hP
  · exact fun hpages => hsame.symm ▸ hpages
  · exact hsame.symm ▸ .of_held rfl
  · exact fun _ => rfl
  · exact fun _ _ hq => hq
  · simp
  · exact absurd rfl

theorem NewDescs.trans {m' : ℕ} {Q Q' : List ℕ} (h : NewDescs L P m Q k k')
    (h' : NewDescs L (update P .vpgdesc (Q ++ P .vpgdesc)) m' Q' k' k'') :
    NewDescs L P (m + m') (Q' ++ Q) k k'' := by
  have hpages : update (update P .vpgdesc (Q ++ P .vpgdesc)) .vpgdesc
      (Q' ++ update P .vpgdesc (Q ++ P .vpgdesc) .vpgdesc) =
      update P .vpgdesc ((Q' ++ Q) ++ P .vpgdesc) := by
    rw [update_self, update_idem, List.append_assoc]
  refine ⟨hpages ▸ h'.ok, fun hP => hpages ▸ h'.pages (h.pages hP), hpages ▸ h.moved.trans h'.moved,
    fun hlt => (h'.num (h.num hlt ▸ hlt)).trans (h.num hlt), h'.ublk.trans h.ublk,
    fun q n hq => h'.query q n (h.query q n hq), ?_, fun hne => ?_⟩
  · have h₁ := h.free
    have h₂ := h'.free
    rw [List.length_append, Nat.add_mul]
    omega
  · by_cases hQ' : Q' = []
    · subst hQ'
      have h₁ := h.full (by simpa using hne)
      have h₂ := h'.free
      simp only [List.length_nil] at h₂
      omega
    · exact h'.full hQ'

/-- One page more is described. -/
theorem newDesc (hV : V.Contract L) (hP : PoolOk L k.pool P) {page : ℕ} {r : Option ℕ}
    (hrun : kimaAllocVpgdesc V L k page = .ok (r, k')) :
    r = none ∧ k'.pool = k.pool ∧ (k.pool.slots .vpgdesc).freeTree.size = 0 ∧
      V.vpgalloc k.pool k.env L.pageSize = .ok (0, k'.env) ∨
    ∃ n Q, r = some n ∧ (k.pool.slots .vpgdesc).queryTree.find page = none ∧
      NewDescs L P 1 Q k (k'.setRefCount n (Word.add (k'.refCount n) 1)) ∧
      (Q = [] ∧ k'.env = k.env ∨
        ∃ v, Q = [v] ∧ v ≠ 0 ∧ V.vpgalloc k.pool k.env L.pageSize = .ok (v, k'.env)) := by
  obtain ⟨rfl, hsame, hzero, hnull⟩ | ⟨n, rfl, hdesc, hmove⟩ := allocSlot_moves hV hP hrun
  · exact .inl ⟨rfl, hsame, hzero, hnull⟩
  have hcount : Recounts L k' (k'.setRefCount n (Word.add (k'.refCount n) 1)) :=
    recounts_setRefCount ..
  refine .inr ⟨n, ?_⟩
  generalize k'.setRefCount n (Word.add (k'.refCount n) 1) = k'' at hcount ⊢
  have hublk : k''.pool.slots .ublk = k.pool.slots .ublk :=
    hcount.ublk.trans (hdesc.others .ublk (by decide))
  have hquery : ∀ q m, (k.pool.slots .vpgdesc).queryTree.find q = some m →
      (k''.pool.slots .vpgdesc).queryTree.find q = some m := by
    intro q m hq
    have hne : q ≠ page := fun e => nomatch (e ▸ hq).symm.trans hdesc.absent
    rw [hcount.query, hdesc.query, OrdMap.find_insert, if_neg hne, hq]
  obtain ⟨hok, hkeep, henv, hsize⟩ | ⟨pg, hok, hpush, hpg, hcall, hzero, hsize⟩ := hmove
  · have hsame : update P .vpgdesc ([] ++ P .vpgdesc) = P := update_eq_self ..
    refine ⟨[], rfl, hdesc.absent, ⟨hsame.symm ▸ hcount.ok hok, fun hpages =>
      hsame.symm ▸ hcount.pagesOk (hkeep.pagesOk hok hpages), hsame.symm ▸
      Moved.trans (.of_held hkeep.held) hcount.moved, fun _ => hcount.keeps.num.trans hkeep.num,
      hublk, hquery, ?_, absurd rfl⟩, .inl ⟨rfl, henv⟩⟩
    rw [hcount.free, hsize]
    simp
  · refine ⟨[pg], rfl, hdesc.absent, ⟨hcount.ok hok, fun hpages =>
      hcount.pagesOk (hpush.pagesOk hok hpages), hpush.moved.trans hcount.moved, fun hlt => ?_,
      hublk, hquery, ?_, fun _ => ?_⟩, .inr ⟨pg, rfl, hpg, hcall⟩⟩
    · rw [hcount.keeps.num, hpush.num, Word.add_of_lt (by omega), Nat.add_zero]
    · rw [hcount.free, hsize, hzero]
      simp
    · rw [hcount.free]
      omega

/-- **`newPages` describes one page after another**, none of which had a descriptor. -/
theorem newPages_moves (hV : V.Contract L) (hP : PoolOk L k.pool P)
    (hrun : newPages A V L pg size n i k = .ok (i', complete, k')) :
    ∃ m Q, NewDescs L P m Q k k' ∧ (complete = true → size ≤ i') ∧
      (size + L.pageSize ≤ 2 ^ 64 → i' = i + m * L.pageSize ∧ (0 < m → i' < size + L.pageSize) ∧
        ∀ t < m, ∃ page, A pg (i + t * L.pageSize) = .ok page ∧
          (k.pool.slots .vpgdesc).queryTree.find page = none) := by
  induction n generalizing i k P with
  | zero => cases hrun
  | succ n ih =>
    unfold newPages at hrun
    split at hrun
    · rename_i hlt
      obtain ⟨page, hpage, ⟨r, k₁⟩, halloc, hrun⟩ := by simpa only [bind_eq_ok_iff] using hrun
      obtain ⟨rfl, hsame, -⟩ | ⟨d, Q, rfl, hnone, hnew, -⟩ := newDesc hV hP halloc
      · cases hrun
        exact ⟨0, [], .of_pool_eq hP hsame, by simp, by simp⟩
      · obtain ⟨m, Q', hnew', hdone, hrest⟩ := ih hnew.ok hrun
        refine ⟨1 + m, Q' ++ Q, hnew.trans hnew', hdone, fun hsize => ?_⟩
        have hword : Word.add i L.pageSize = i + L.pageSize := Word.add_of_lt (by omega)
        obtain ⟨rfl, hlast, hpages⟩ := hrest hsize
        refine ⟨by rw [Nat.add_mul]; omega, fun _ => ?_, fun t ht => ?_⟩
        · rcases Nat.eq_zero_or_pos m with rfl | hm
          · omega
          · exact hlast hm
        · cases t with
          | zero => exact ⟨page, by simpa using hpage, hnone⟩
          | succ t =>
            obtain ⟨page', hpage', hnone'⟩ := hpages t (by omega)
            refine ⟨page', by rw [← hpage']; congr 1; rw [Nat.add_mul]; omega, ?_⟩
            cases hq : (k.pool.slots .vpgdesc).queryTree.find page' with
            | none => rfl
            | some q => cases hnone'.symm.trans (hnew.query _ _ hq)
    · cases hrun
      exact ⟨0, [], .of_pool_eq hP rfl, fun _ => by omega, by simp⟩

/-! ## Requests for pages -/

/-- A descriptor needs a new pool page. -/
def newPoolpg (κ : Kind) (p : Pool) : ℕ := if (p.slots κ).freeTree.size = 0 then 1 else 0

/-- The pool pages that `d` page descriptors need. -/
def descPoolpgs (L : Layout) (p : Pool) (d : ℕ) : ℕ :=
  (d - (p.slots .vpgdesc).freeTree.size + ((L.slots .vpgdesc).slotsSize - 1)) /
    (L.slots .vpgdesc).slotsSize

theorem descPoolpgs_zero (L : Layout) (p : Pool) : descPoolpgs L p 0 = 0 := by
  have hS := (L.slots .vpgdesc).size_pos
  exact Nat.div_eq_of_lt (by omega)

theorem descPoolpgs_pos {p : Pool} (h : (p.slots .vpgdesc).freeTree.size = 0) (d : ℕ) :
    0 < descPoolpgs L p (d + 1) :=
  Nat.div_pos (by omega) (L.slots .vpgdesc).size_pos

/-- What has been made for `m` descriptors need not be made again. -/
theorem NewDescs.descPoolpgs_add {Q : List ℕ} (h : NewDescs L P m Q k k') (d : ℕ) :
    descPoolpgs L k.pool (m + d) = descPoolpgs L k'.pool d + Q.length := by
  have hS := (L.slots .vpgdesc).size_pos
  have hfree := h.free
  have hfull := h.full
  unfold descPoolpgs
  generalize (k.pool.slots .vpgdesc).freeTree.size = f at *
  generalize (k'.pool.slots .vpgdesc).freeTree.size = f' at *
  generalize (L.slots .vpgdesc).slotsSize = S at *
  rcases Q.eq_nil_or_concat with rfl | ⟨Q', q, hQ⟩
  · rw [List.length_nil] at hfree ⊢
    rw [show m + d - f = d - f' by omega, Nat.add_zero]
  · have hlt := hfull (by simp [hQ])
    have hmul : S ≤ Q.length * S := Nat.le_mul_of_pos_left S (by simp [hQ])
    rw [← Nat.add_mul_div_right _ _ hS]
    rcases le_total f' d with hle | hle
    · rw [show m + d - f + (S - 1) = d - f' + (S - 1) + Q.length * S by omega]
    · rw [show m + d - f + (S - 1) = (S - 1 - (f' - d)) + Q.length * S by omega,
        Nat.sub_eq_zero_of_le hle, Nat.add_mul_div_right _ _ hS, Nat.add_mul_div_right _ _ hS,
        Nat.div_eq_of_lt (by omega), Nat.div_eq_of_lt (by omega)]

/-- **The memory manager meets these requests**, one after the other. -/
def Vm.Meets (V : Vm σ) : List ℕ → σ → Prop
  | [], _ => True
  | n :: ns, e => ∀ p v e', V.vpgalloc p e n = .ok (v, e') → v ≠ 0 ∧ V.Meets ns e'

/-- **With the requests for pool pages met every page of the block is described.** -/
theorem newPages_supplied (hV : V.Contract L) (hP : PoolOk L k.pool P) {c : ℕ}
    (hsize : size + L.pageSize ≤ 2 ^ 64)
    (hrun : newPages A V L pg size n i k = .ok (i', complete, k')) (hr : size ≤ i + r * L.pageSize)
    (hlt : 0 < r → i + r * L.pageSize < size + L.pageSize)
    (hmeets : V.Meets (List.replicate (descPoolpgs L k.pool r + c) L.pageSize) k.env) :
    complete = true ∧ V.Meets (List.replicate c L.pageSize) k'.env := by
  induction n generalizing i k P r with
  | zero => cases hrun
  | succ n ih =>
    unfold newPages at hrun
    split at hrun
    · obtain ⟨page, hpage, ⟨d, k₁⟩, halloc, hrun⟩ := by simpa only [bind_eq_ok_iff] using hrun
      obtain ⟨r, rfl⟩ : ∃ r', r = r' + 1 := Nat.exists_eq_succ_of_ne_zero (by rintro rfl; omega)
      rw [Nat.add_mul, Nat.one_mul] at hr hlt
      obtain ⟨rfl, -, hzero, hnull⟩ | ⟨d, Q, rfl, -, hnew, henv⟩ := newDesc hV hP halloc
      · obtain ⟨x, hx⟩ := Nat.exists_eq_succ_of_ne_zero
          (Nat.add_pos_left (descPoolpgs_pos (L := L) hzero r) c).ne'
        rw [hx] at hmeets
        exact absurd rfl (hmeets _ _ _ hnull).1
      · have hword : Word.add i L.pageSize = i + L.pageSize := Word.add_of_lt (by omega)
        rw [Nat.add_comm r, hnew.descPoolpgs_add] at hmeets
        refine ih (r := r) hnew.ok hrun (by omega) (fun _ => by omega) ?_
        rcases henv with ⟨rfl, henv⟩ | ⟨v, rfl, -, hcall⟩
        · exact (henv ▸ hmeets : V.Meets _ k₁.env)
        · rw [List.length_singleton, Nat.add_right_comm] at hmeets
          exact (hmeets _ _ _ hcall).2
    · rename_i hge
      cases hrun
      obtain rfl : r = 0 := by
        by_contra h0
        have hle := Nat.le_mul_of_pos_left L.pageSize (Nat.pos_of_ne_zero h0)
        have := hlt (Nat.pos_of_ne_zero h0)
        omega
      rw [descPoolpgs_zero, Nat.zero_add] at hmeets
      exact ⟨rfl, hmeets⟩

/-- **Page descriptors are given back**, and with them pool pages until `P'` is left. -/
structure Shrinks (L : Layout) (P P' : Kind → List ℕ) (k k' : Kima σ) : Prop where
  ok : PoolOk L k'.pool P'
  moved : Moved k.pool P k'.pool P'
  pages : PagesOk L k.pool P → (∀ h, (k.pool.slots .vpgdesc).poolpgList = some h →
    h ∈ P' .vpgdesc) → PagesOk L k'.pool P'
  ublks : P' .ublk = P .ublk
  sub : (P' .vpgdesc).Sublist (P .vpgdesc)
  list : ∀ κ, (k'.pool.slots κ).poolpgList = (k.pool.slots κ).poolpgList
  num : k.pool.numAllocatedPages < 2 ^ 64 → k'.pool.numAllocatedPages = k.pool.numAllocatedPages
  ublk : k'.pool.slots .ublk = k.pool.slots .ublk

theorem Shrinks.trans (h : Shrinks L P P' k k') (h' : Shrinks L P' P'' k' k'') :
    Shrinks L P P'' k k'' where
  ok := h'.ok
  moved := h.moved.trans h'.moved
  pages hP hkeep := h'.pages (h.pages hP fun x hx => h'.sub.subset (hkeep x hx)) fun x hx =>
    hkeep x ((h.list .vpgdesc).symm.trans hx)
  ublks := h'.ublks.trans h.ublks
  sub := h'.sub.trans h.sub
  list κ := (h'.list κ).trans (h.list κ)
  num hlt := (h'.num (h.num hlt ▸ hlt)).trans (h.num hlt)
  ublk := h'.ublk.trans h.ublk

theorem Recounts.shrinks (h : Recounts L k k') (hP : PoolOk L k.pool P) : Shrinks L P P k k' :=
  ⟨h.ok hP, h.moved, fun hpages _ => h.pagesOk hpages, rfl, List.Sublist.refl _, h.keeps.list,
    fun _ => h.keeps.num, h.ublk⟩

/-- One descriptor is given back. -/
theorem kimaFreeVpgdesc_shrinks (hP : PoolOk L k.pool P)
    (hfind : kimaLookupVpgdesc k.pool q = some n) (hrun : kimaFreeVpgdesc V L k n = .ok k') :
    ∃ P', Shrinks L P P' k k' ∧ Forgets .vpgdesc q k.pool k'.pool := by
  obtain ⟨hforget, hpg, ⟨hok, hkeep⟩ | ⟨hok, hdrop⟩⟩ := freeSlot_moves hP hfind hrun
  · exact ⟨P, ⟨hok, .of_held hkeep.held, fun hpages _ => hkeep.pagesOk hok hpages, rfl,
      List.Sublist.refl _, hkeep.list, fun _ => hkeep.num, hforget.others .ublk (by decide)⟩,
      hforget⟩
  · refine ⟨_, ⟨hok, hdrop.moved hP hpg, fun hpages hlist => ?_, update_of_ne (by decide) _ _,
      ?_, hdrop.list, fun hlt => ?_, hforget.others .ublk (by decide)⟩, hforget⟩
    · refine hdrop.pagesOk hpg (fun hfirst => ?_) hok hpages
      have hmem := hlist _ hfirst
      exact (hP.slots .vpgdesc).nodup.not_mem_erase hmem
    · rw [update_self]
      exact List.erase_sublist
    · rw [hdrop.num, Word.sub_of_le (Nat.zero_le _) hlt, Nat.sub_zero]

/-- `dropPages` gives the descriptors of its pages back. -/
theorem dropPages_shrinks (hP : PoolOk L k.pool P)
    (hrun : dropPages A V L pg js k = .ok k') : ∃ P', Shrinks L P P' k k' ∧
      ∀ q n, (k.pool.slots .vpgdesc).queryTree.find q = some n → (∀ j ∈ js, A pg j ≠ .ok q) →
        (k'.pool.slots .vpgdesc).queryTree.find q = some n := by
  induction js generalizing k P with
  | nil =>
    obtain rfl := Except.ok.inj hrun
    exact ⟨P, (Recounts.refl L k).shrinks hP, fun _ _ h _ => h⟩
  | cons j js ih =>
    obtain ⟨page, hpage, hrun⟩ := of_bind hrun
    split at hrun
    · cases hrun
    · rename_i vpgdesc hfind
      obtain ⟨k₁, hfree, hrun⟩ := of_bind hrun
      obtain ⟨P₁, hshrink, hforget⟩ := kimaFreeVpgdesc_shrinks hP hfind hfree
      obtain ⟨P', hshrink', hkeep⟩ := ih hshrink.ok hrun
      refine ⟨P', hshrink.trans hshrink', fun q n hq hne => ?_⟩
      obtain ⟨hnej, hne⟩ := List.forall_mem_cons.mp hne
      refine hkeep q n ?_ hne
      have hqp : q ≠ page := fun e => hnej (e ▸ hpage)
      rw [hforget.query, OrdMap.find_erase, if_neg hqp, hq]

/-- The last reference to a page. -/
def LastRef (k : Kima σ) (q : ℕ) : Prop :=
  ∃ n ∈ kimaLookupVpgdesc k.pool q, Word.sub (k.refCount n) 1 = 0

instance (k : Kima σ) (q : ℕ) : Decidable (LastRef k q) :=
  inferInstanceAs (Decidable (∃ n ∈ kimaLookupVpgdesc k.pool q, Word.sub (k.refCount n) 1 = 0))

theorem unrefPage_shrinks (hP : PoolOk L k.pool P) (hfind : kimaLookupVpgdesc k.pool q = some n)
    (hrun : unrefPage V L k n = .ok k') :
    ∃ P', Shrinks L P P' k k' ∧ (∀ x, kimaLookupVpgdesc k'.pool x = if x = q ∧ LastRef k q then none
        else kimaLookupVpgdesc k.pool x) ∧ ∀ m, m ≠ n → k'.refCount m = k.refCount m := by
  have hcount : Recounts L k (k.setRefCount n (Word.sub (k.refCount n) 1)) :=
    recounts_setRefCount ..
  have hlast : LastRef k q ↔ Word.sub (k.refCount n) 1 = 0 := by
    refine ⟨?_, fun h => ⟨n, hfind, h⟩⟩
    rintro ⟨m, hm, h⟩
    exact Option.some.inj (hfind.symm.trans hm) ▸ h
  have hdata : ∀ m, m ≠ n →
      (k.setRefCount n (Word.sub (k.refCount n) 1)).refCount m = k.refCount m :=
    fun m hm => update_of_ne hm _ _
  simp only [unrefPage, refCount_setRefCount] at hrun
  split at hrun
  · rename_i hzero
    obtain ⟨P', hshrink, hforget⟩ := kimaFreeVpgdesc_shrinks (hcount.ok hP)
      ((kimaLookupVpgdesc_setRefCount ..).trans hfind) hrun
    refine ⟨P', (hcount.shrinks hP).trans hshrink, fun x => ?_, fun m hm => ?_⟩
    · rw [kimaLookupVpgdesc, SlotPool.lookup, hforget.query, OrdMap.find_erase]
      simp only [hlast, hzero, and_true]
      rfl
    · rw [← hdata m hm, Kima.refCount, hforget.data]
      rfl
  · rename_i hne
    cases hrun
    refine ⟨P, hcount.shrinks hP, fun x => ?_, hdata⟩
    rw [kimaLookupVpgdesc_setRefCount, if_neg fun h => hne (hlast.mp h.2)]

/-- **`unrefPages` gives the descriptors back that it takes the last reference from.** -/
theorem unrefPages_shrinks {is : List ℕ} (his : is.Nodup) (hP : PoolOk L k.pool P)
    (hrun : unrefPages V L is k = .ok k') : ∃ P', Shrinks L P P' k k' ∧
      ∀ x, kimaLookupVpgdesc k'.pool x = if x ∈ is ∧ LastRef k x then none
        else kimaLookupVpgdesc k.pool x := by
  induction is generalizing k P with
  | nil =>
    obtain rfl := Except.ok.inj hrun
    exact ⟨P, (Recounts.refl L k).shrinks hP, fun x => by simp⟩
  | cons i is ih =>
    obtain ⟨hi, his⟩ := List.nodup_cons.mp his
    unfold unrefPages at hrun
    split at hrun
    · cases hrun
    · rename_i n hfind
      obtain ⟨k₁, hstep, hrun⟩ := of_bind hrun
      obtain ⟨P₁, hshrink, hlook, hdata⟩ := unrefPage_shrinks hP hfind hstep
      obtain ⟨P', hshrink', hlook'⟩ := ih his hshrink.ok hrun
      refine ⟨P', hshrink.trans hshrink', fun x => ?_⟩
      rw [hlook']
      by_cases hx : x = i
      · subst hx
        simp [hi, hlook]
      · have hsame : kimaLookupVpgdesc k₁.pool x = kimaLookupVpgdesc k.pool x := by
          rw [hlook, if_neg fun h => hx h.1]
        have hlast : LastRef k₁ x ↔ LastRef k x := by
          unfold LastRef
          rw [hsame]
          refine exists_congr fun m => and_congr_right fun hm => ?_
          have hne : m ≠ n := fun e => hx (((hP.slots .vpgdesc).query x m hm).1.symm.trans
            (e ▸ ((hP.slots .vpgdesc).query i n hfind).1))
          rw [hdata m hne]
        simp [hx, hlast, hsame]

/-! ## Whole calls -/

theorem evolves_setNum (k : Kima σ) (P : Kind → List ℕ) (n : ℕ) :
    Evolves k.pool P (k.setNum n).pool P := ⟨id, fun _ hv hout => ⟨hv, hout⟩⟩

theorem allocSlot_evolves (hV : V.Contract L) (hP : PoolOk L k.pool P) {ptr d : ℕ} {r : Option ℕ}
    (hrun : allocSlot V L κ k ptr d pages = .ok (r, k')) :
    ∃ P', PoolOk L k'.pool P' ∧ Evolves k.pool P k'.pool P' := by
  obtain ⟨-, hsame, -⟩ | ⟨n, -, -, ⟨hok, hkeep, -⟩ | ⟨pg, hok, hpush, -⟩⟩ :=
    allocSlot_moves hV hP hrun
  · exact ⟨P, hsame ▸ hP, hsame ▸ .refl _ _⟩
  · exact ⟨P, hok, (Moved.of_held hkeep.held).toEvolves⟩
  · exact ⟨_, hok, hpush.moved.toEvolves⟩

theorem newPages_evolves (hV : V.Contract L) (hP : PoolOk L k.pool P)
    (hrun : newPages A V L pg size n i k = .ok (i', complete, k')) :
    ∃ P', PoolOk L k'.pool P' ∧ Evolves k.pool P k'.pool P' := by
  obtain ⟨m, Q, hnew, -⟩ := newPages_moves hV hP hrun
  exact ⟨_, hnew.ok, hnew.moved.toEvolves⟩

theorem releaseVpgdescs_evolves (hP : PoolOk L k.pool P)
    (hrun : releaseVpgdescs A V L pg i k = .ok k') :
    ∃ P', PoolOk L k'.pool P' ∧ Evolves k.pool P k'.pool P' := by
  obtain ⟨k₁, hdrop, hrun⟩ := of_bind hrun
  cases hrun
  obtain ⟨P', hshrink, -⟩ := dropPages_shrinks hP hdrop
  exact ⟨P', hshrink.ok.setNum _, hshrink.moved.toEvolves.trans (evolves_setNum _ _ _)⟩

section

variable (hV : V.Contract L) (hP : PoolOk L k.pool P)

include hV hP

/-- The pages handed out for a block are new. -/
theorem kimaVpgalloc_evolves {v : ℕ} (hsize : L.pageSize ∣ size)
    (hrun : kimaVpgalloc V L k size = .ok (v, k')) :
    PoolOk L k'.pool P ∧ Evolves k.pool P k'.pool P := by
  have hpos := L.pageSize_pos
  obtain ⟨-, hvd, ⟨-, hk'⟩ | ⟨-, hk', -, -, hnew⟩⟩ := kimaVpgalloc_cases hV hrun <;> rw [hk']
  · exact ⟨hP, .refl _ _⟩
  · refine ⟨hP.mono_held fun q hq => List.mem_append_right _ hq, fun hnd => ?_, fun q hq hout =>
      ⟨List.mem_append_right _ hq, hout⟩⟩
    refine List.nodup_append.mpr ⟨Word.nodup_multiples hpos, hnd, ?_⟩
    rintro q hq _ hheld rfl
    obtain ⟨-, hle, hlt⟩ := (Word.mem_multiples hpos hvd (Nat.dvd_add hvd hsize)).mp hq
    exact hnew q hheld ⟨by omega, hlt⟩

/-- A block in new pages keeps the pages it was given. -/
theorem allocNew_evolves {al : ℕ} (hrun : allocNew wrapAdd V L k size al = .ok (r, k')) :
    ∃ v k₁ P', kimaVpgalloc V L k (ceilAlignTo (Word.add size al) L.pageSize) = .ok (v, k₁) ∧
      Evolves k.pool P k₁.pool P ∧ PoolOk L k'.pool P' ∧ Evolves k₁.pool P k'.pool P' := by
  obtain ⟨v, k₁, pg, hcall, -, hrest⟩ := allocNew_cases hrun
  obtain ⟨hP₁, hevolves⟩ := kimaVpgalloc_evolves hV hP (dvd_ceilAlignTo L.pageSize_pos
    L.pageSize_dvd) hcall
  refine ⟨v, k₁, ?_⟩
  obtain ⟨-, -, rfl⟩ | ⟨-, i, complete, k₂, hpages, hrest⟩ := hrest
  · exact ⟨P, hcall, hevolves, hP₁, .refl _ _⟩
  obtain ⟨P₂, hP₂, hevolves₂⟩ := newPages_evolves hV hP₁ hpages
  obtain ⟨-, -, hrel⟩ | ⟨-, n, -, ublk, k₃, hublk, hrest⟩ := hrest
  · obtain ⟨P', hok, hevolves'⟩ := releaseVpgdescs_evolves hP₂ hrel
    exact ⟨P', hcall, hevolves, hok, hevolves₂.trans hevolves'⟩
  · obtain ⟨P₃, hP₃, hevolves₃⟩ := allocSlot_evolves hV (hP₂.setNum n) hublk
    have hevolves₃ := (hevolves₂.trans (evolves_setNum _ _ n)).trans hevolves₃
    obtain ⟨-, -, hrel⟩ | ⟨-, -, rfl⟩ := hrest
    · obtain ⟨P', hok, hevolves'⟩ := releaseVpgdescs_evolves hP₃ hrel
      exact ⟨P', hcall, hevolves, hok, hevolves₃.trans hevolves'⟩
    · exact ⟨P₃, hcall, hevolves, hP₃, hevolves₃⟩

/-- **Pages that a block was given stay with the pool**, and the descriptors stay in order, whatever
is called. -/
theorem exec_evolves {c : KimaCall} (hrun : exec wrapAdd V L k c = .ok (r, k')) :
    ∃ P', PoolOk L k'.pool P' ∧ Evolves k.pool P k'.pool P' := by
  cases c with
  | alloc size al =>
    obtain ⟨base, cur, ublk, k₁, -, hublk, hrest⟩ | ⟨-, hnew⟩ := kimaAlloc_cases hrun
    · obtain ⟨P₁, hP₁, hevolves⟩ := allocSlot_evolves hV hP hublk
      obtain ⟨-, -, rfl⟩ | ⟨-, -, href⟩ := hrest
      · exact ⟨P₁, hP₁, hevolves⟩
      · have hcount : Recounts L k₁ k' := refPages_recounts href
        exact ⟨P₁, hcount.ok hP₁, hevolves.trans hcount.moved.toEvolves⟩
    · obtain ⟨v, k₁, P', -, hevolves, hok, hevolves'⟩ := allocNew_evolves hV hP hnew
      exact ⟨P', hok, hevolves.trans hevolves'⟩
  | free ptr =>
    obtain ⟨k₁, hfree, hrun⟩ := of_bind hrun
    cases hrun
    obtain ⟨ublk, stop, k₂, hfind, -, hunref, hfree⟩ := kimaFree_cases hfree
    obtain ⟨P₁, hshrink, -⟩ := unrefPages_shrinks (Word.nodup_multiples L.pageSize_pos) hP hunref
    have hfind₁ : (k₂.pool.slots .ublk).queryTree.find ptr = some ublk := by
      rw [hshrink.ublk]
      exact hfind
    obtain ⟨-, hpg, ⟨hok, hkeep⟩ | ⟨hok, hdrop⟩⟩ := freeSlot_moves hshrink.ok hfind₁ hfree
    · exact ⟨P₁, hok, (hshrink.moved.trans (.of_held hkeep.held)).toEvolves⟩
    · exact ⟨_, hok, (hshrink.moved.trans (hdrop.moved hshrink.ok hpg)).toEvolves⟩

end

end Pbos.Mm
