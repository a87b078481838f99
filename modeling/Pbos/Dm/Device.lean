import Pbos.Km.Panic
import Pbos.Lib.DList
import Pbos.Lib.Run

/-!
# Dm/Device — linking devices under one another

Devices hang under a parent: `child_devices` is the first of them, `prev_same_level` and
`next_same_level` link them to one another.  `Forest base s` is what the fields are meant to say
about the links made and not yet undone: the children of each device are enumerated from its
`child_devices` and linked both ways, each knows its parent, and holds one reference more; a device
that is not linked has none of these pointers.

`forest_of_run` says which calls keep that shape: those that change nothing.  `dm_link_device`
stores the parent, not the device, as the parent's first child and never sets `parent_device`, and
`dm_unlink_device` never clears the pointers of the device.
-/

namespace Pbos.Dm

open DList Function List

/-- The devices: the fields of `dm_device_t` by address, and which of them were destroyed. -/
structure Devices where
  refCount : ℕ → UInt64
  parentDevice : ℕ → Option ℕ
  prevSameLevel : ℕ → Option ℕ
  nextSameLevel : ℕ → Option ℕ
  childDevices : ℕ → Option ℕ
  bus : ℕ → Option ℕ
  destroyed : List ℕ

namespace Devices

variable (s : Devices)

def setPrev (d : ℕ) (v : Option ℕ) : Devices :=
  { s with prevSameLevel := update s.prevSameLevel d v }

def setNext (d : ℕ) (v : Option ℕ) : Devices :=
  { s with nextSameLevel := update s.nextSameLevel d v }

def setChild (d : ℕ) (v : Option ℕ) : Devices :=
  { s with childDevices := update s.childDevices d v }

def setRefCount (d : ℕ) (v : UInt64) : Devices :=
  { s with refCount := update s.refCount d v }

end Devices

/-- `ki_dm_destroy_device(device)`. -/
def kiDmDestroyDevice (s : Devices) (device : ℕ) : Except Fault Devices := do
  kdAssert (s.parentDevice device = none) "kernel/dm/device.cc" 85
  .ok { s with destroyed := device :: s.destroyed }

/-- `dm_ref_device(device)`. -/
def dmRefDevice (s : Devices) (device : ℕ) : Devices :=
  s.setRefCount device (s.refCount device + 1)

/-- `dm_unref_device(device)`. -/
def dmUnrefDevice (s : Devices) (device : ℕ) : Except Fault Devices :=
  let s₁ := s.setRefCount device (s.refCount device - 1)
  if s₁.refCount device = 0 then kiDmDestroyDevice s₁ device else .ok s₁

/-- `dm_link_device(parent, device)`; `prelink` is what the parent's callback answers. -/
def dmLinkDevice (prelink : KmResult) (s : Devices) (parent device : ℕ) : KmResult × Devices :=
  if s.bus device = none then (.invalidArgs, s)
  else if prelink ≠ .ok then (prelink, s)
  else if s.parentDevice device ≠ none ∨ s.prevSameLevel device ≠ none ∨
      s.nextSameLevel device ≠ none then (.invalidArgs, s)
  else
    let s₁ := match s.childDevices parent with
      | none => s
      | some c => s.setPrev c (some device)
    let s₂ := s₁.setNext device (s₁.childDevices parent)
    -- the parent becomes its own first child
    (.ok, (dmRefDevice s₂ device).setChild parent (some parent))

/-- `dm_unlink_device(device)`.  The guard on the parent's mutex follows `parent_device` before it
is compared with null. -/
def dmUnlinkDevice (s : Devices) (device : ℕ) : Except Fault Devices :=
  match s.parentDevice device with
  | none => .error .nullDeref
  | some parent =>
    let s₁ := if s.prevSameLevel device = s.childDevices parent then
      s.setChild parent (s.nextSameLevel device) else s
    let s₂ := match s₁.prevSameLevel device with
      | none => s₁
      | some q => s₁.setNext q (s₁.nextSameLevel device)
    let s₃ := match s₂.nextSameLevel device with
      | none => s₂
      | some q => s₂.setPrev q (s₂.prevSameLevel device)
    dmUnrefDevice s₃ device

/-! ## What the links should look like -/

/-- The devices linked under `p`, the latest first; `links` lists parents with their children. -/
def childrenOf (links : List (ℕ × ℕ)) (p : ℕ) : List ℕ :=
  (links.filter (·.1 = p)).map Prod.snd

/-- **The links form a forest**, each device linked holds one reference beyond `base`, and one that
is not linked has no neighbours and no parent. -/
structure Forest (base : ℕ → UInt64) (s : Devices) (links : List (ℕ × ℕ)) : Prop where
  nodup : (links.map Prod.snd).Nodup
  acyclic : ∀ d, ¬ Relation.TransGen (fun p c => (p, c) ∈ links) d d
  child : ∀ p, s.childDevices p = headOr (childrenOf links p) none
  siblings : ∀ p, Chain s.nextSameLevel s.prevSameLevel none (childrenOf links p) none
  parent : ∀ p d, (p, d) ∈ links → s.parentDevice d = some p
  apart : ∀ d, d ∉ links.map Prod.snd →
    s.parentDevice d = none ∧ s.prevSameLevel d = none ∧ s.nextSameLevel d = none
  refs : ∀ d, s.refCount d = base d + if d ∈ links.map Prod.snd then 1 else 0

variable {base : ℕ → UInt64} {s : Devices} {links : List (ℕ × ℕ)} {p d : ℕ} {r : KmResult}

theorem childrenOf_cons_self : childrenOf ((p, d) :: links) p = d :: childrenOf links p := by
  simp [childrenOf]

/-! ## Linking -/

/-- **A link that is made breaks the shape**: the parent is then its own first child. -/
theorem not_forest_of_link (hok : (dmLinkDevice r s p d).1 = .ok) :
    ¬ Forest base (dmLinkDevice r s p d).2 ((p, d) :: links) := by
  intro h
  have hchild : (dmLinkDevice r s p d).2.childDevices p = some p := by
    revert hok
    unfold dmLinkDevice
    split
    · nofun
    split
    · exact fun hr => absurd hr ‹_›
    split
    · nofun
    · exact fun _ => update_self _ _ _
  have hp := h.child p
  rw [hchild, childrenOf_cons_self, headOr_cons, Option.some.injEq] at hp
  exact h.acyclic p (.single (hp ▸ mem_cons_self))

/-- A link that is refused changes nothing. -/
theorem dmLinkDevice_of_ne_ok (h : (dmLinkDevice r s p d).1 ≠ .ok) :
    (dmLinkDevice r s p d).2 = s := by
  revert h
  unfold dmLinkDevice
  split
  · exact fun _ => rfl
  split
  · exact fun _ => rfl
  split
  · exact fun _ => rfl
  · exact absurd rfl

/-- **Which links are refused**: those of a device without a bus, those the parent does not take,
and those of a device that is linked already. -/
theorem Forest.dmLinkDevice_ne_ok_iff (h : Forest base s links) : (dmLinkDevice r s p d).1 ≠ .ok ↔
    s.bus d = none ∨ r ≠ .ok ∨ d ∈ links.map Prod.snd := by
  have hlinked : (s.parentDevice d ≠ none ∨ s.prevSameLevel d ≠ none ∨ s.nextSameLevel d ≠ none) ↔
      d ∈ links.map Prod.snd := by
    by_cases hd : d ∈ links.map Prod.snd
    · obtain ⟨⟨q, d⟩, hlink, rfl⟩ := mem_map.mp hd
      exact iff_of_true (.inl (by simp [h.parent q d hlink])) hd
    · obtain ⟨hparent, hprev, hnext⟩ := h.apart d hd
      simp [hparent, hprev, hnext, hd]
  simp only [dmLinkDevice, hlinked]
  split_ifs <;> simp_all

/-! ## Unlinking -/

/-- **Unlinking a device leaves its parent pointer set.** -/
theorem parentDevice_of_unlink {s' : Devices} (h : dmUnlinkDevice s d = .ok s') :
    s'.parentDevice d ≠ none := by
  have hkeep : ∀ m : Devices, dmUnrefDevice m d = .ok s' → s'.parentDevice = m.parentDevice := by
    intro m hm
    simp only [dmUnrefDevice] at hm
    split at hm
    · obtain ⟨_, -, hm⟩ := of_bind hm
      rw [← Except.ok.inj hm]
      rfl
    · rw [← Except.ok.inj hm]
      rfl
  unfold dmUnlinkDevice at h
  split at h
  · cases h
  · rename_i p hp
    rw [hkeep _ h]
    split_ifs <;> repeat' split
    all_goals
      intro hnone
      cases hp.symm.trans hnone

/-! ## Runs -/

/-- The devices, with the links made and not yet undone. -/
structure DeviceRun where
  devices : Devices
  links : List (ℕ × ℕ)

inductive DeviceCall
  | link (parent device : ℕ) (prelink : KmResult)
  | unlink (device : ℕ)

namespace DeviceCall

/-- One call, and what it means for the links. -/
def exec (s : DeviceRun) : DeviceCall → Except Fault DeviceRun
  | link p d r => .ok ⟨(dmLinkDevice r s.devices p d).2,
      if (dmLinkDevice r s.devices p d).1 = .ok then (p, d) :: s.links else s.links⟩
  | unlink d => (dmUnlinkDevice s.devices d).map (⟨·, s.links.filter (·.2 != d)⟩)

/-- A link of a device without a bus, of one the parent does not take or of one that is linked
already; no unlink fits. -/
def Fits (s : DeviceRun) : DeviceCall → Prop
  | link _ d r => s.devices.bus d = none ∨ r ≠ .ok ∨ d ∈ s.links.map Prod.snd
  | unlink _ => False

end DeviceCall

/-- One call; one that faults ends the run. -/
def DeviceStep : Except Fault DeviceRun → DeviceCall → Except Fault DeviceRun → Prop
  | .ok s, c, t => t = c.exec s
  | .error _, _, _ => False

/-- The call fits the state it is made in. -/
def FitsAt : Except Fault DeviceRun → DeviceCall → Prop
  | .ok s, c => c.Fits s
  | .error _, _ => False

/-- The call returned, and the devices are linked as the calls so far ask. -/
def Shaped (base : ℕ → UInt64) : Except Fault DeviceRun → Prop
  | .ok s => Forest base s.devices s.links
  | .error _ => False

/-- One call, from devices that are linked as they should be. -/
theorem shaped_exec_iff {s : DeviceRun} (h : Forest base s.devices s.links) (c : DeviceCall) :
    Shaped base (c.exec s) ↔ c.Fits s := by
  cases c with
  | link p d r =>
    rw [DeviceCall.Fits, ← h.dmLinkDevice_ne_ok_iff (p := p)]
    by_cases hok : (dmLinkDevice r s.devices p d).1 = .ok
    · rw [DeviceCall.exec, if_pos hok]
      exact iff_of_false (not_forest_of_link hok) fun hfits => hfits hok
    · rw [DeviceCall.exec, if_neg hok, dmLinkDevice_of_ne_ok hok]
      exact iff_of_true h hok
  | unlink d =>
    refine iff_of_false (fun hshaped => ?_) id
    rw [DeviceCall.exec] at hshaped
    cases hrun : dmUnlinkDevice s.devices d with
    | error e =>
      rw [hrun] at hshaped
      exact hshaped
    | ok s' =>
      rw [hrun] at hshaped
      have hd : d ∉ (s.links.filter (·.2 != d)).map Prod.snd := by simp
      exact parentDevice_of_unlink hrun (hshaped.apart d hd).1

/-- **The runs through forests are the runs of links that are refused**: from devices that are
linked as they should be, no link that is made and no unlink leaves the shape. -/
theorem forest_of_run {s : DeviceRun} (h : Forest base s.devices s.links) (calls : List DeviceCall)
    (t : Except Fault DeviceRun) :
    Run (fun s c t => DeviceStep s c t ∧ Shaped base t) (.ok s) calls t ↔
      Run (fun s c t => DeviceStep s c t ∧ FitsAt s c) (.ok s) calls t :=
  Run.through_iff (I := fun _ => True) (G := Shaped base) (fun _ _ _ _ _ => trivial)
    (fun s c t _ hs hstep => by
      cases s with
      | error e => exact hs.elim
      | ok s =>
        obtain rfl : t = c.exec s := hstep
        exact shaped_exec_iff hs c) trivial h

/-- Devices 1, 2 and 3, in this order, under device 10; every device has a reference of its own. -/
def Devices.threeChildren : Devices where
  refCount d := if d ∈ [1, 2, 3] then 2 else 1
  parentDevice d := if d ∈ [1, 2, 3] then some 10 else none
  prevSameLevel d := if d = 2 then some 1 else if d = 3 then some 2 else none
  nextSameLevel d := if d = 1 then some 2 else if d = 2 then some 3 else none
  childDevices d := if d = 10 then some 1 else none
  bus _ := some 0
  destroyed := []

theorem forest_threeChildren : Forest (fun _ => 1) .threeChildren [(10, 1), (10, 2), (10, 3)] := by
  have hkids : ∀ p, p ≠ 10 → childrenOf [(10, 1), (10, 2), (10, 3)] p = [] := fun p hp => by
    simp [childrenOf, hp.symm]
  refine ⟨by decide, fun d h => ?_, fun p => ?_, fun p => ?_, fun p d h => ?_, fun d hd => ?_,
    fun d => ?_⟩
  · have hlt : ∀ {a b}, Relation.TransGen
        (fun p c => (p, c) ∈ [(10, 1), (10, 2), (10, 3)]) a b → b < a := fun h => by
      induction h with
      | single h => simp at h; omega
      | tail _ h ih => simp at h; omega
    exact Nat.lt_irrefl d (hlt h)
  · by_cases hp : p = 10
    · subst hp
      rfl
    · rw [hkids p hp]
      exact if_neg hp
  · by_cases hp : p = 10
    · subst hp
      exact ⟨rfl, rfl, rfl, rfl, rfl, rfl, trivial⟩
    · rw [hkids p hp]
      trivial
  · simp at h
    rcases h with ⟨rfl, rfl⟩ | ⟨rfl, rfl⟩ | ⟨rfl, rfl⟩ <;> rfl
  · simp only [map_cons, map_nil, mem_cons, not_mem_nil, or_false, not_or] at hd
    simp [Devices.threeChildren, hd]
  · simp only [Devices.threeChildren, map_cons, map_nil]
    split <;> rfl

/-- Devices that are linked already are refused, under another parent and under their own. -/
theorem forest_linked_already : ∃ t, Run (fun s c t => DeviceStep s c t ∧ Shaped (fun _ => 1) t)
      (.ok ⟨.threeChildren, [(10, 1), (10, 2), (10, 3)]⟩) [.link 3 1 .ok, .link 10 2 .ok] t :=
  ⟨_, (forest_of_run (s := ⟨.threeChildren, [(10, 1), (10, 2), (10, 3)]⟩) forest_threeChildren _
    _).mpr (.cons ⟨rfl, .inr (.inr (by decide))⟩ (.cons ⟨rfl, .inr (.inr (by decide))⟩ (.nil _)))⟩

/-- Devices registered to a bus and not linked. -/
def Devices.registered (refs : ℕ → UInt64) : Devices where
  refCount := refs
  parentDevice _ := none
  prevSameLevel _ := none
  nextSameLevel _ := none
  childDevices _ := none
  bus _ := some 0
  destroyed := []

/-- Devices that are not linked form a forest. -/
theorem forest_registered (refs : ℕ → UInt64) : Forest refs (.registered refs) [] where
  nodup := nodup_nil
  acyclic d h := by
    cases h with
    | single h => cases h
    | tail _ h => cases h
  child _ := rfl
  siblings _ := trivial
  parent _ _ := nofun
  apart _ _ := ⟨rfl, rfl, rfl⟩
  refs d := by simp [Devices.registered]

/-- Device 2 is linked under device 1: device 1 becomes its own first child, device 2 has no parent,
and unlinking it again follows a null pointer.  Device 3 of three that are linked is unlinked: it
keeps its parent and its neighbour, so it cannot be linked again. -/
theorem dmLinkDevice_breaks_forest : (Forest (fun _ => 1) (.registered fun _ => 1) [] ∧
      (dmLinkDevice .ok (.registered fun _ => 1) 1 2).1 = .ok ∧
      (dmLinkDevice .ok (.registered fun _ => 1) 1 2).2.childDevices 1 = some 1 ∧
      (dmLinkDevice .ok (.registered fun _ => 1) 1 2).2.parentDevice 2 = none ∧
      ¬ Forest (fun _ => 1) (dmLinkDevice .ok (.registered fun _ => 1) 1 2).2 [(1, 2)] ∧
      dmUnlinkDevice (dmLinkDevice .ok (.registered fun _ => 1) 1 2).2 2 = .error .nullDeref) ∧
    Forest (fun _ => 1) .threeChildren [(10, 1), (10, 2), (10, 3)] ∧
      ∃ s, dmUnlinkDevice .threeChildren 3 = .ok s ∧ s.parentDevice 3 = some 10 ∧
        s.prevSameLevel 3 = some 2 ∧ (dmLinkDevice .ok s 10 3).1 = .invalidArgs :=
  ⟨⟨forest_registered _, rfl, by decide, rfl, not_forest_of_link rfl, rfl⟩, forest_threeChildren,
    _, rfl, rfl, rfl, rfl⟩

end Pbos.Dm
