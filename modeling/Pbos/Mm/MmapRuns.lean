import Pbos.Lib.Blocks
import Pbos.Lib.Run
import Pbos.Mm.Mmap

/-!
# Mm/MmapRuns — regions over whole runs

The regions of a context are blocks of its user space (`regions`), and each call edits them in one
of four ways: a block is added, dropped, cut in two or joined with its neighbour.  `WellPlaced` is
what they should keep: whole pages, none empty, no two overlapping.

`mm_mmap` asks only for the regions nearest to its first and its last byte, so it does not see one
that lies between them; and it records the address and the size as given, not as rounded.
`Call.Meets` is the condition on a call under which neither happens.  Under it every run keeps the
regions well placed, and the first successful call outside it does not (`regions_wellPlaced`).
-/

namespace Pbos.Mm

open Pbos.Hal Blocks OrdMap

variable {σ : Type} {A : Platform σ} (t : OrdMap ℕ Vmr) {new : Option ℕ} {c : MmapArgs}

/-! ## Regions as blocks -/

/-- Where the regions lie. -/
def regions : Blocks := t.mapVal Vmr.size

theorem find_regions (k : ℕ) : (regions t).find k = (t.find k).map Vmr.size :=
  t.find_mapVal Vmr.size k

theorem regions_insert (k : ℕ) (v : Vmr) :
    regions (t.insert k v) = (regions t).insert k v.size := by
  refine ext_find fun k' => ?_
  rw [find_regions, find_insert, find_insert, find_regions]
  split <;> rfl

theorem regions_erase (k : ℕ) : regions (t.erase k) = (regions t).erase k := by
  refine ext_find fun k' => ?_
  rw [find_regions, find_erase, find_erase, find_regions]
  split <;> rfl

theorem regions_modify (k : ℕ) {f : Vmr → Vmr} (g : ℕ → ℕ) (hfg : ∀ v, (f v).size = g v.size) :
    regions (t.modify k f) = (regions t).modify k g := by
  refine ext_find fun k' => ?_
  rw [find_regions, find_modify, find_modify, find_regions]
  split
  · rw [Option.map_map, Option.map_map]
    exact congrArg (Option.map · _) (funext hfg)
  · rfl

/-- Whole pages, none of them empty, no two overlapping. -/
structure WellPlaced (m : Blocks) : Prop where
  apart : Apart m
  pages : m.All fun k n => 4096 ∣ k ∧ 4096 ∣ n

/-- Well placed, and every block ends in user space. -/
structure Placed (m : Blocks) : Prop extends WellPlaced m where
  user : m.All fun k n => k + n ≤ 2 ^ 47

section Edits

variable {m : Blocks} {k n x : ℕ}

theorem placed_empty : Placed OrdMap.empty := ⟨⟨apart_empty, all_empty⟩, all_empty⟩

theorem Placed.erase (h : Placed m) (k : ℕ) : Placed (m.erase k) :=
  ⟨⟨h.apart.erase k, OrdMap.All.erase h.pages k⟩, OrdMap.All.erase h.user k⟩

theorem Placed.split (h : Placed m) (hk : m.find k = some n) (hlo : k < x) (hhi : x < k + n)
    (hx : 4096 ∣ x) : Placed ((m.insert x (k + n - x)).modify k fun _ => x - k) := by
  obtain ⟨hdk, hdn⟩ := h.pages k n hk
  have huser := h.user k n hk
  refine ⟨⟨h.apart.split hk hlo hhi, ?_⟩, ?_⟩
  · refine OrdMap.All.modify (OrdMap.All.insert h.pages ⟨hx, ?_⟩) fun _ _ => ⟨hdk, ?_⟩
    · exact Nat.dvd_sub (Nat.dvd_add hdk hdn) hx
    · exact Nat.dvd_sub hx hdk
  · refine OrdMap.All.modify (OrdMap.All.insert h.user ?_) fun _ _ => ?_
    · omega
    · omega

theorem Placed.merge (h : Placed m) {n' : ℕ} (hk : m.find k = some n)
    (hx : m.find (k + n) = some n') : Placed ((m.modify k fun _ => n + n').erase (k + n)) := by
  have huser := h.user _ _ hx
  refine ⟨⟨h.apart.merge hk hx, ?_⟩, ?_⟩
  · exact OrdMap.All.erase (OrdMap.All.modify h.pages fun _ _ =>
      ⟨(h.pages k n hk).1, Nat.dvd_add (h.pages k n hk).2 (h.pages _ _ hx).2⟩) _
  · exact OrdMap.All.erase (OrdMap.All.modify h.user fun _ _ => by omega) _

end Edits

/-! ## Calls -/

/-- A call on the regions of a context; `new` is what `kima_alloc` returns in it. -/
inductive Call
  | mmap (new : Option ℕ) (c : MmapArgs)
  | unmmap (r : VRange) (flags : UInt32)
  | merge (a b : ℕ)
  | split (new : Option ℕ) (area splitPoint : ℕ)
  | setAccess (r : VRange) (access : UInt32)

variable {call : Call}

/-- Perform a call. -/
def Call.run (A : Platform σ) (p : ℕ) : Call → MmState σ → Except Fault (KmResult × MmState σ)
  | .mmap new c => mmMmap A new (some p) c
  | .unmmap r flags => mmUnmmap A (some p) r flags
  | .merge a b => fun s => .ok (mmMergeMappedArea p a b s)
  | .split new area splitPoint => mmSplitMappedArea new p area splitPoint
  | .setAccess r access => fun s => .ok (mmSetPageAccess (some p) r access s)

/-- The calls in question: on user space, without `MMAP_IGNORE_VMR`, with words as arguments. -/
def Call.OnUserSpace : Call → Prop
  | .mmap _ c => keepsVmr c.toVRange c.flags = true ∧ c.vaddr < 2 ^ 64 ∧ c.size < 2 ^ 64
  | .unmmap r flags => keepsVmr r flags = true
  | .setAccess r _ => isUserSpace r = true
  | _ => True

/-- No region starts after the first byte of the range and ends before its last. -/
def NoneInside (r : VRange) : Prop :=
  ∀ k n, (regions t).find k = some n → ¬ (r.vaddr < k ∧ k + n < r.vaddr + r.size)

/-- The condition on a call.  A range that `mm_mmap` accepts consists of whole pages and has no
region inside; a region is split between two pages. -/
def Call.Meets : Call → Prop
  | .mmap new c => ¬ Refused c → ¬ Blocked t c.toVRange → new ≠ none →
      4096 ∣ c.vaddr ∧ 4096 ∣ c.size ∧ NoneInside t c.toVRange
  | .split new area splitPoint => ∀ n, (regions t).find area = some n → area < splitPoint →
      splitPoint < area + n → new ≠ none → 4096 ∣ splitPoint
  | _ => True

/-! ## `mm_mmap` -/

section Mmap

variable {t : OrdMap ℕ Vmr} {c : MmapArgs}

theorem lastByte_lt_of_not_blocked {r : VRange} (h : ¬ Blocked t r) :
    (∀ e, t.findMaxLteq (pgFloor r.vaddr) = some e → lastByte e < pgFloor r.vaddr) ∧
      ∀ e, t.findMaxLteq (vaddrLimit r) = some e → lastByte e < vaddrLimit r := by
  have hsize : ∀ {k e}, t.findMaxLteq k = some e → t.size ≠ 0 := fun he => by
    have hmem := (t.findMaxLteq_eq_some_iff.mp he).1
    exact (List.length_pos_of_mem hmem).ne'
  simp only [Blocked, not_and, not_or, not_exists, not_le] at h
  exact ⟨fun e he => (h (hsize he)).1 e he, fun e he => (h (hsize he)).2 e he⟩

theorem lastByte_eq {e : ℕ × Vmr} (hpos : 0 < e.2.size) (hle : e.1 + e.2.size ≤ 2 ^ 47) :
    lastByte e = e.1 + e.2.size - 1 := by
  rw [lastByte, show e.1 + (e.2.size + (2 ^ 64 - 1)) = e.1 + e.2.size - 1 + 2 ^ 64 by omega,
    Nat.add_mod_right, Nat.mod_eq_of_lt (by omega)]

/-- **A range that `mm_mmap` accepts overlaps no region**, if none lies inside it. -/
theorem clear_of_not_blocked (hp : Placed (regions t)) (hlt : c.vaddr < 2 ^ 64)
    (hva : 4096 ∣ c.vaddr) (hpos : 0 < c.size)
    (hlimit : vaddrLimit c.toVRange = c.vaddr + c.size - 1) (hb : ¬ Blocked t c.toVRange)
    (hin : NoneInside t c.toVRange) {k n : ℕ} (hk : (regions t).find k = some n) :
    ¬ Overlap c.vaddr c.size k n := by
  obtain ⟨hfirst, hlast⟩ := lastByte_lt_of_not_blocked hb
  rw [pgFloor_of_dvd hlt hva] at hfirst
  rw [hlimit] at hlast
  have hend : ∀ y bound, (∀ e, t.findMaxLteq y = some e → lastByte e < bound) →
      ∀ e, (regions t).findMaxLteq y = some e → e.1 + e.2 ≤ bound := by
    intro y bound hbound e' he'
    rw [regions, OrdMap.findMaxLteq_mapVal] at he'
    obtain ⟨e, he, rfl⟩ := Option.map_eq_some_iff.mp he'
    have hfind := t.find_of_mem (t.findMaxLteq_eq_some_iff.mp he).1
    have hr : (regions t).find e.1 = some e.2.size := by rw [find_regions, hfind]; rfl
    have hlt := hbound e he
    rw [lastByte_eq (hp.apart.pos _ _ hr) (hp.user _ _ hr)] at hlt
    omega
  refine hp.apart.clear_of_ends hpos (hend _ _ hfirst) (fun e he => ?_) hin hk
  have := hend _ _ hlast e he
  omega

end Mmap

/-! ## One call -/

section Step

variable {p : ℕ} {s s' : MmState σ} {r : KmResult}

/-- The regions of a context. -/
def MmState.regions (s : MmState σ) (p : ℕ) : Blocks := Mm.regions (s.ctxts p).vmrTree

theorem regions_setCtxt (s : MmState σ) (p : ℕ) (ctxt : MmContext) :
    (s.setCtxt p ctxt).regions p = Mm.regions ctxt.vmrTree := by
  rw [MmState.regions, setCtxt_self]

theorem mmMmap_placed (hp : Placed (s.regions p))
    (huser : (Call.mmap new c).OnUserSpace) (hmeets : (Call.mmap new c).Meets (s.ctxts p).vmrTree)
    (h : mmMmap A new (some p) c s = .ok (r, s')) : Placed (s'.regions p) := by
  obtain ⟨hkeep, hlt, hsz⟩ := huser
  obtain ⟨-, -, rfl⟩ | ⟨-, -, -, rfl⟩ | ⟨node, vm, href, hb, rfl, hfind, -, rfl⟩ :=
    mmMmap_cases hkeep h
  · exact hp
  · rw [regions_setCtxt, MmContext.removeVmr, regions_erase]
    exact hp.erase _
  · obtain ⟨hva, hsize, hin⟩ := hmeets href hb (by simp)
    have hspace : isUserSpace c.toVRange = true := ((Bool.and_eq_true _ _).mp hkeep).2
    obtain ⟨hpos, hle, hlimit⟩ : 0 < c.size ∧ c.vaddr + c.size ≤ 2 ^ 47 ∧ vaddrLimit c.toVRange =
      c.vaddr + c.size - 1 := by
      simp only [Refused, not_or, Overflows, Crosses, vaddrLimit, isUserSpace, mmIsUserSpace,
        pgFloor_of_dvd hlt hva, pgCeil_eq, not_not, decide_eq_true_eq] at href hspace ⊢
      obtain ⟨hpos, hover, hcross, -⟩ := href
      have hlim := of_decide_eq_true (hcross.symm.trans (decide_eq_true hspace))
      refine ⟨?_, ?_, ?_⟩ <;> omega
    have hnew : Placed (Mm.regions (withVmr c node (s.ctxts p)).vmrTree) := by
      rw [withVmr, regions_insert]
      exact ⟨⟨hp.apart.insert hpos fun k n hk =>
        clear_of_not_blocked hp hlt hva hpos hlimit hb hin hk,
        OrdMap.All.insert hp.pages ⟨hva, hsize⟩⟩, OrdMap.All.insert hp.user hle⟩
    change Placed ((s.setCtxt p _).regions p)
    rw [regions_setCtxt]
    split
    · exact hnew
    · rw [MmContext.removeVmr, regions_erase]
      exact hnew.erase _

/-- A region that `mm_mmap` has recorded is well placed only if the call met the condition. -/
theorem meets_of_mmMmap (huser : (Call.mmap new c).OnUserSpace)
    (h : mmMmap A new (some p) c s = .ok (.ok, s')) (hw : WellPlaced (s'.regions p)) :
    (Call.mmap new c).Meets (s.ctxts p).vmrTree := by
  intro _ _ _
  obtain ⟨-, hr, -⟩ | ⟨-, hr, -⟩ | ⟨node, vm, -, -, -, hfind, -, rfl⟩ := mmMmap_cases huser.1 h
  · cases hr
  · exact absurd rfl hr
  · change WellPlaced ((s.setCtxt p _).regions p) at hw
    rw [regions_setCtxt, if_pos rfl, withVmr, regions_insert] at hw
    have hself := (s.regions p).find_insert c.vaddr c.vaddr c.size
    rw [if_pos rfl] at hself
    obtain ⟨hva, hsize⟩ := hw.pages _ _ hself
    refine ⟨hva, hsize, fun k n hk hin => ?_⟩
    have hother : ((s.regions p).insert c.vaddr c.size).find k = some n := by
      rw [find_insert, if_neg hin.1.ne']
      exact hk
    exact hw.apart.apart _ _ _ _ hself hother hin.1.ne ⟨by omega, by omega⟩

theorem mmMergeMappedArea_placed (a b : ℕ) (hp : Placed (s.regions p)) :
    Placed ((mmMergeMappedArea p a b s).2.regions p) := by
  unfold mmMergeMappedArea
  split
  · exact hp
  · split
    · rename_i vmrA vmrB ha hb
      split
      · exact hp
      · rename_i hend
        have hra : (s.regions p).find a = some vmrA.size := by
          rw [MmState.regions, find_regions, ha]; rfl
        have hrb : (s.regions p).find b = some vmrB.size := by
          rw [MmState.regions, find_regions, hb]; rfl
        have hua := hp.user _ _ hra
        have hub := hp.user _ _ hrb
        rw [not_not, Nat.mod_eq_of_lt (by omega)] at hend
        subst hend
        have hgrow : (s.regions p).modify a (fun n => (n + vmrB.size) % 2 ^ 64) =
            (s.regions p).modify a fun _ => vmrA.size + vmrB.size := by
          refine modify_congr _ fun n hn => ?_
          rw [hra, Option.some.injEq] at hn
          rw [← hn, Nat.mod_eq_of_lt (by omega)]
        rw [regions_setCtxt, MmContext.freeVmr, MmContext.modifyVmr, regions_erase,
          regions_modify _ _ (fun n => (n + vmrB.size) % 2 ^ 64) fun _ => rfl]
        exact hgrow ▸ hp.merge hra hrb
    · exact hp

/-- How `mm_split_mapped_area` ends. -/
theorem mmSplitMappedArea_cases {area splitPoint : ℕ} (hp : Placed (s.regions p))
    (h : mmSplitMappedArea new p area splitPoint s = .ok (r, s')) :
    (r ≠ .ok ∧ s' = s) ∨ ∃ n, (s.regions p).find area = some n ∧ area < splitPoint ∧
      splitPoint < area + n ∧ new ≠ none ∧
      s'.regions p = ((s.regions p).insert splitPoint (area + n - splitPoint)).modify area
        fun _ => splitPoint - area := by
  simp only [mmSplitMappedArea] at h
  split at h
  · cases h
    exact .inl ⟨by simp, rfl⟩
  split at h
  · cases h
    exact .inl ⟨by simp, rfl⟩
  rename_i hlo vmr hfind
  have hr : (s.regions p).find area = some vmr.size := by
    rw [MmState.regions, find_regions, hfind]; rfl
  have hu := hp.user _ _ hr
  rw [Nat.mod_eq_of_lt (by omega)] at h
  split at h
  · cases h
    exact .inl ⟨by simp, rfl⟩
  cases new with
  | none =>
    cases h
    exact .inl ⟨by simp, rfl⟩
  | some node =>
    simp only [MmContext.insertVmr] at h
    split at h
    · cases h
      refine .inr ⟨vmr.size, hr, by omega, by omega, by simp, ?_⟩
      rw [regions_setCtxt, MmContext.modifyVmr,
        regions_modify _ _ (fun _ => splitPoint - area) fun _ => rfl, regions_insert]
      rfl
    · cases h

theorem mmSetPageAccess_regions (range : VRange) (access : UInt32) (s : MmState σ) :
    (mmSetPageAccess (some p) range access s).2.regions p = s.regions p := by
  simp only [mmSetPageAccess]
  split
  · rfl
  split
  · split
    · rfl
    split
    · rfl
    · rw [regions_setCtxt]
      have hsize : ∀ v : Vmr, ({ v with access := access } : Vmr).size = id v.size := fun _ => rfl
      refine (regions_modify _ _ id hsize).trans (ext_find fun k => ?_)
      rw [find_modify]
      split
      · exact congrFun Option.map_id _
      · rfl
  · rfl

/-- **A call that meets the condition keeps the regions placed.** -/
theorem Call.run_placed (hp : Placed (s.regions p)) (huser : call.OnUserSpace)
    (hmeets : call.Meets (s.ctxts p).vmrTree) (h : call.run A p s = .ok (r, s')) :
    Placed (s'.regions p) := by
  cases call with
  | mmap new c => exact mmMmap_placed hp huser hmeets h
  | unmmap range flags =>
    obtain ⟨-, rfl⟩ := ok_mk_inj ((mmUnmmap_eq_invalidArgs huser (some p) s).symm.trans h)
    exact hp
  | merge a b =>
    obtain rfl : _ = s' := congrArg Prod.snd (Except.ok.inj h)
    exact mmMergeMappedArea_placed a b hp
  | split new area splitPoint =>
    obtain ⟨-, rfl⟩ | ⟨n, hk, hlo, hhi, hnew, hs'⟩ := mmSplitMappedArea_cases hp h
    · exact hp
    · exact hs' ▸ hp.split hk hlo hhi (hmeets n hk hlo hhi hnew)
  | setAccess range access =>
    obtain rfl : _ = s' := congrArg Prod.snd (Except.ok.inj h)
    exact (mmSetPageAccess_regions range access s).symm ▸ hp

/-- **A successful call after which the regions are well placed met the condition.** -/
theorem Call.meets_of_run (hp : Placed (s.regions p)) (huser : call.OnUserSpace)
    (h : call.run A p s = .ok (.ok, s')) (hw : WellPlaced (s'.regions p)) :
    call.Meets (s.ctxts p).vmrTree := by
  cases call with
  | mmap new c => exact meets_of_mmMmap huser h hw
  | unmmap range flags => trivial
  | merge a b => trivial
  | split new area splitPoint =>
    intro _ _ _ _ _
    obtain ⟨hr, -⟩ | ⟨n, -, hlo, -, -, hs'⟩ := mmSplitMappedArea_cases hp h
    · exact absurd rfl hr
    · have hfind : (s'.regions p).find splitPoint = some (area + n - splitPoint) := by
        rw [hs', find_modify, if_neg hlo.ne', find_insert, if_pos rfl]
      exact (hw.pages _ _ hfind).1
  | setAccess range access => trivial

end Step

/-! ## Runs -/

/-- One call of a run that meets the condition. -/
def Step (A : Platform σ) (p : ℕ) (s : MmState σ) (call : Call) (s' : MmState σ) : Prop :=
  call.OnUserSpace ∧ call.Meets (s.ctxts p).vmrTree ∧ ∃ r, call.run A p s = .ok (r, s')

/-- **When the regions stay well placed.**  From a context without regions, a run whose calls meet
the condition keeps them so after every call; the first successful call that does not meet it leaves
regions that are not. -/
theorem regions_wellPlaced {p : ℕ} {s s' : MmState σ} {calls : List Call}
    (hempty : (s.ctxts p).vmrTree = OrdMap.empty) (hrun : Run (Step A p) s calls s') :
    WellPlaced (s'.regions p) ∧ ∀ (call : Call) (s'' : MmState σ), call.OnUserSpace →
      call.run A p s' = .ok (.ok, s'') →
      (WellPlaced (s''.regions p) ↔ call.Meets (s'.ctxts p).vmrTree) := by
  have h0 : Placed (s.regions p) := by
    rw [MmState.regions, hempty]
    exact placed_empty
  have hp : Placed (s'.regions p) := hrun.invariant (I := fun s => Placed (s.regions p))
      (fun _ _ _ hp ⟨huser, hmeets, _, h⟩ => Call.run_placed hp huser hmeets h) h0
  exact ⟨hp.toWellPlaced, fun call s'' huser h =>
    ⟨Call.meets_of_run hp huser h, fun hmeets => (Call.run_placed hp huser hmeets h).toWellPlaced⟩⟩

/-- A context without regions, above the page table of `belowSlots`. -/
def noRegions : MmState Unit := ⟨fun _ => ⟨1, OrdMap.empty, []⟩, belowSlots [0]⟩

/-- Map `n` pages at `vaddr`, with a new object at `node`. -/
def mapPages (node vaddr n : ℕ) : Call :=
  .mmap (some node) { twoPages with vaddr := vaddr, size := 4096 * n }

theorem regions_wellPlaced_twoRanges : ∃ s s' : MmState Unit,
    (mapPages 200 0x5000 2).run noPages 0 noRegions = .ok (.ok, s) ∧
      (mapPages 300 0x8000 1).run noPages 0 s = .ok (.ok, s') ∧ WellPlaced (s.regions 0) ∧
      WellPlaced (s'.regions 0) := by
  obtain ⟨r, s, hs, rfl, hentries, r', s', hs', rfl⟩ : ∃ r s, (mapPages 200 0x5000 2).run noPages 0
      noRegions = .ok (r, s) ∧ r = .ok ∧ (s.regions 0).entries = [(0x5000, 0x2000)] ∧
      ∃ r' s', (mapPages 300 0x8000 1).run noPages 0 s = .ok (r', s') ∧ r' = .ok := by
    decide +kernel
  have hmeets : (mapPages 200 0x5000 2).Meets (noRegions.ctxts 0).vmrTree :=
    fun _ _ _ => ⟨by decide, by decide, fun k n hk => by cases hk⟩
  have hmeets' : (mapPages 300 0x8000 1).Meets (s.ctxts 0).vmrTree := by
    refine fun _ _ _ => ⟨by decide, by decide, fun k n hk hin => ?_⟩
    have hmem : (k, n) ∈ (s.regions 0).entries := (find_eq_some_iff _).mp hk
    rw [hentries] at hmem
    cases List.mem_singleton.mp hmem
    exact absurd hin.1 (by decide)
  have hrun : Run (Step noPages 0) noRegions [mapPages 200 0x5000 2] s :=
    .cons ⟨⟨by decide, by decide, by decide⟩, hmeets, _, hs⟩ (.nil _)
  obtain ⟨hw, hiff⟩ := regions_wellPlaced rfl hrun
  exact ⟨s, s', hs, hs', hw, (hiff (mapPages 300 0x8000 1) s' ⟨by decide, by decide, by decide⟩
    hs').mpr hmeets'⟩

set_option synthInstance.maxSize 256 in
/-- A range of three pages is mapped over a region that covers the second. -/
theorem mmMmap_covers_region : ∃ s s' : MmState Unit,
    (mapPages 200 0x2000 1).run noPages 0 noRegions = .ok (.ok, s) ∧
      (mapPages 300 0x1000 3).run noPages 0 s = .ok (.ok, s') ∧
      (s'.regions 0).entries = [(0x1000, 0x3000), (0x2000, 0x1000)] ∧
      ¬ WellPlaced (s'.regions 0) := by
  obtain ⟨r, s, hs, rfl, r', s', hs', rfl, hentries, ha, hb⟩ : ∃ r s,
      (mapPages 200 0x2000 1).run noPages 0 noRegions = .ok (r, s) ∧ r = .ok ∧
      ∃ r' s', (mapPages 300 0x1000 3).run noPages 0 s = .ok (r', s') ∧ r' = .ok ∧
      (s'.regions 0).entries = [(0x1000, 0x3000), (0x2000, 0x1000)] ∧
      (s'.regions 0).find 0x1000 = some 0x3000 ∧ (s'.regions 0).find 0x2000 = some 0x1000 := by
    decide +kernel
  exact ⟨s, s', hs, hs', hentries, fun hw =>
    hw.apart.apart _ _ _ _ ha hb (by decide) ⟨by decide, by decide⟩⟩

end Pbos.Mm
