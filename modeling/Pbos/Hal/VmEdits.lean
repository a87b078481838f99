import Pbos.Hal.VmUnmap

/-!
# Hal/VmEdits — what the walks may do to the tables, whatever the range

`WalkInv` follows a walk page by page and needs a range of whole pages in one half of the address
space.  What a walk does to tables is the same for any range: `kh_mmap` hangs fresh tables below
absent entries and writes entries of page tables (`EditInv`).
-/

namespace Pbos.Hal

open Radix

variable {σ : Type} {A : Platform σ} {c : MmapArgs} {root : Frame} {x i3 i2 : ℕ} {missing : String}

/-! ## `kh_mmap` -/

variable (A c root) in
/-- What an invariant of `kh_mmap` has to stand, and what it has to say (`K`) when there is no page
for a table. -/
structure EditInv (J K : VmState σ → Prop) : Prop where
  tree {s} : J s → Tree Entry.child s.mem root 3
  direct {s f} : J s → Table s.mem root f → A.direct f = true
  link {s α f x page pg} : J s → path s.mem root α = some f → α.length < 3 →
    (s.mem f x).present = false → A.pgalloc s.mem s.pg = .ok (page, pg) → pgRoundDown page ≠ 0 →
    ¬ Table s.mem root (pgRoundDown page) ∧ A.direct (pgRoundDown page) = true ∧
      J { s with
        mem := link s.mem f x (tableEntry (pgRoundDown page)) (pgRoundDown page) Entry.zero
        pg := pg }
  fail {s α f x page pg} : J s → path s.mem root α = some f → α.length < 3 →
    (s.mem f x).present = false → A.pgalloc s.mem s.pg = .ok (page, pg) → pgRoundDown page = 0 →
    K { s with mem := write s.mem f x { s.mem f x with address := 0 }, pg := pg }
  put {s α f x q s'} : J s → path s.mem root α = some f → α.length = 3 →
    (∃ va, A.drop c.flags va (s.mem f x) s = .ok s') →
    J { s' with mem := write s.mem f x (c.pte q) }

variable {s s' : VmState σ}

section Map

variable {J K : VmState σ → Prop} (hE : EditInv A c root J K) {mem : Mem} {α : List (Fin 512)}
  {f : Frame} {t : VmState σ × ℕ} {fl : Turn (VmState σ × ℕ)} {i4 : ℕ}

variable (root J) in
/-- The invariant holds, and no table of `mem` is lost. -/
structure Edited (mem : Mem) (t : VmState σ × ℕ) : Prop where
  inv : J t.1
  grows : Grows root mem t.1.mem

variable (root J K) in
/-- How a turn may end. -/
def TurnEdited (mem : Mem) : Turn (VmState σ × ℕ) → Prop
  | .next t => Edited root J mem t
  | .brk t => Edited root J mem t
  | .ret t => K t.1

/-- What every turn keeps, a loop keeps. -/
theorem forLoop_edited {body : ℕ → VmState σ × ℕ → Except Fault (Turn (VmState σ × ℕ))} {n : ℕ}
    {r : Exit (VmState σ × ℕ)}
    (hbody : ∀ y t fl, Edited root J mem t → body y t = .ok fl → TurnEdited root J K mem fl)
    (h0 : Edited root J mem t) (h : forLoop body n x t = .ok r) :
    r.Holds (Edited root J mem) fun t => K t.1 :=
  forLoop_holds (I := fun _ => Edited root J mem) (fun y t _ _ _ ht hb => hbody y t _ ht hb)
    (fun y t _ _ _ ht hb => hbody y t _ ht hb) (fun y t _ _ _ ht hb => hbody y t _ ht hb)
    (fun _ => id) h0 h

include hE in
/-- The table below an entry is there after `ensureTable`, or there is no page for it. -/
theorem ensureTable_edited {o : Option Frame} (h0 : J s)
    (hα : path s.mem root α = some f) (hlen : α.length < 3)
    (h : ensureTable A c.flags missing f x s = .ok (o, s')) :
    (o = none ∧ K s') ∨ ∃ g, o = some g ∧ J s' ∧ Grows root s.mem s'.mem ∧
      path s'.mem root (α ++ [Fin.ofNat 512 x]) = some g := by
  have hlen' : (α ++ [Fin.ofNat 512 x]).length ≤ 3 := by
    rw [List.length_append, List.length_singleton]
    exact hlen
  rcases ensureTable_cases h with ⟨hpres, mem, hmem, rfl, rfl⟩ |
    ⟨hnone, page, pg, hpage, ⟨hzero, rfl, rfl⟩ | ⟨hne, mem, hmem, rfl, rfl⟩⟩
  · have hg : path s.mem root (α ++ [Fin.ofNat 512 x]) = some (entryAt s.mem f x).address :=
      path_present hα hpres
    rw [Platform.reach, if_pos (hE.direct h0 ⟨_, hlen', hg⟩)] at hmem
    cases hmem
    exact .inr ⟨_, rfl, h0, Grows.refl _ _, hg⟩
  · exact .inl ⟨rfl, hE.fail h0 hα hlen hnone hpage hzero⟩
  · obtain ⟨hfresh, hdirect, hJ⟩ := hE.link h0 hα hlen hnone hpage hne
    rw [Platform.reach, if_pos hdirect] at hmem
    cases hmem
    have hfollow := follow_link (hE.tree h0) hα hlen (Entry.child_eq_none hnone)
      (child_tableEntry _) Entry.child_zero hfresh hlen'
    exact .inr ⟨_, rfl, hJ, grows_link (hE.tree h0) hα hlen hnone hfresh,
      hfollow.trans (if_pos rfl)⟩

section

variable (h0 : Edited root J mem t) (hα : path mem root α = some f)

include h0 hα

include hE in
/-- A turn of an upper loop is the loop over the table below. -/
theorem descend_edited {inner : Frame → VmState σ × ℕ → Except Fault (Exit (VmState σ × ℕ))}
    (hlen : α.length < 3)
    (hinner : ∀ g t r, J t.1 → path t.1.mem root (α ++ [Fin.ofNat 512 x]) = some g →
      inner g t = .ok r → r.Holds (Edited root J t.1.mem) fun t => K t.1)
    (h : descend A c missing f x inner t = .ok fl) : TurnEdited root J K mem fl := by
  obtain ⟨⟨o, s⟩, hs, h⟩ := of_bind h
  rcases ensureTable_edited hE h0.inv (h0.grows hlen.le hα) hlen hs with
    ⟨rfl, hK⟩ | ⟨g, rfl, hinv, hgrows, hg⟩
  · cases h
    exact hK
  · obtain ⟨r, hr, h⟩ := of_bind h
    have hloop := hinner g (s, t.2) r hinv hg hr
    cases r with
    | done y t' =>
      cases h
      exact ⟨hloop.inv, (h0.grows.trans hgrows).trans hloop.grows⟩
    | ret t' =>
      cases h
      exact hloop

include hE in
theorem mapPte_edited {i1 : ℕ} (hlen : α.length = 3) (h : mapPte A c i4 i3 i2 f i1 t = .ok fl)
    : TurnEdited root J K mem fl := by
  simp only [mapPte] at h
  split at h
  · cases h
    exact h0
  · obtain ⟨s, hd, rfl⟩ := map_eq_ok_iff.mp h
    have hα' := h0.grows hlen.le hα
    have hput := hE.put (q := t.2) h0.inv hα' hlen ⟨_, hd⟩
    rw [← Platform.drop_mem hd] at hput
    refine ⟨hput, fun π g hπ hg => ?_⟩
    change path (write s.mem _ _ _) root π = some g
    rw [Platform.drop_mem hd]
    exact (follow_write (hE.tree h0.inv) hα' hlen hπ).trans (h0.grows hπ hg)

include hE in
theorem mapPde_edited (hlen : α.length = 2) (h : mapPde A c i4 i3 f i2 t = .ok fl) :
    TurnEdited root J K mem fl := by
  simp only [mapPde] at h
  split at h
  · cases h
    exact h0
  · exact descend_edited hE h0 hα (by omega) (fun g t r ht hg hr => forLoop_edited
      (fun _ _ _ hu hb => mapPte_edited hE hu hg (by simp [hlen]) hb) ⟨ht, Grows.refl _ _⟩ hr) h

include hE in
theorem mapPdpte_edited (hlen : α.length = 1) (h : mapPdpte A c i4 f i3 t = .ok fl) :
    TurnEdited root J K mem fl := by
  simp only [mapPdpte] at h
  split at h
  · cases h
    exact h0
  · exact descend_edited hE h0 hα (by omega) (fun g t r ht hg hr => forLoop_edited
      (fun _ _ _ hu hb => mapPde_edited hE hu hg (by simp [hlen]) hb) ⟨ht, Grows.refl _ _⟩ hr) h

end

include hE in
theorem mapPml4e_edited (h0 : Edited root J mem t) (h : mapPml4e A c root i4 t = .ok fl) :
    TurnEdited root J K mem fl := by
  simp only [mapPml4e] at h
  exact descend_edited (α := []) hE h0 follow_nil (by decide) (fun g t r ht hg hr => forLoop_edited
    (fun _ _ _ hu hb => mapPdpte_edited hE hu hg (by simp) hb) ⟨ht, Grows.refl _ _⟩ hr) h

include hE in
/-- **The invariant rule for `kh_mmap` and any range.** -/
theorem khMmap_of_editInv {res : KmResult} (h0 : J s) (h : khMmap A c root s = .ok (res, s')) :
    res = .ok ∧ J s' ∨ res = .noMem ∧ ∃ s'', K s'' ∧ khUnmmap A c.toVRange 0 root s'' = .ok s' := by
  unfold khMmap at h
  split at h
  · cases h
  split at h
  · cases h
  obtain ⟨r, hr, h⟩ := of_bind h
  have hloop := forLoop_edited (K := K) (fun _ _ _ hu hb => mapPml4e_edited hE hu hb)
    ⟨h0, Grows.refl root s.mem⟩ hr
  cases r with
  | done y t =>
    cases h
    exact .inl ⟨rfl, hloop.inv⟩
  | ret t =>
    obtain ⟨s'', hs'', heq⟩ := map_eq_ok_iff.mp h
    cases heq
    exact .inr ⟨rfl, t.1, hloop, hs''⟩

end Map

end Pbos.Hal
