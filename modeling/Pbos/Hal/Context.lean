import Pbos.Hal.VmShared

/-!
# Hal/Context — switching between contexts

Every context has a PML4 of its own, and its upper half is to be the same in all of them.
`kh_mm_copy_global_mappings` sees to that: `mm_switch_context` calls it to copy the upper half from
the context that is left to the one that is entered.  A context is named by the frame of its PML4,
and `pageTable` says at which address that is mapped.
-/

namespace Pbos.Hal

open Radix

/-- `KSPACE_VBASE`. -/
def KSPACE_VBASE : ℕ := 0xffff800000000000

/-- The indices of the PML4 entries that are copied. -/
def IsGlobal (i : Fin 512) : Prop :=
  pml4x KSPACE_VBASE ≤ i ∧ (i : ℕ) < pml4x KSPACE_VBASE + pml4x (2 ^ 64 - 1 - KSPACE_VBASE + 1)

instance : DecidablePred IsGlobal := fun _ => inferInstanceAs (Decidable (_ ∧ _))

/-- `kh_mm_copy_global_mappings`. -/
def khMmCopyGlobalMappings (dest src : Frame) (mem : Mem) : Mem :=
  if dest = src then mem else overlay mem dest src IsGlobal

/-- `mm_switch_context`, on a CPU that runs `prevContext`: the frame that is loaded as the PML4, and
the tables. -/
def mmSwitchContext {σ : Type} (A : Platform σ) (pageTable : Frame → ℕ)
    (context prevContext : Frame) (mem : Mem) : Except Fault (Frame × Mem) := do
  let mem := khMmCopyGlobalMappings context prevContext mem
  let ((paddr, _), mem) ← khGetmap A prevContext (pageTable context) mem
  .ok (pgRoundDown paddr, mem)

/-- The PML4 entries of a context that are present in the upper half. -/
def globalEntries (mem : Mem) (r : Frame) : Set (Fin 512 × Entry) :=
  {x | IsGlobal x.1 ∧ mem r x.1 = x.2 ∧ x.2.present = true}

section Copy

variable {σ : Type} {A : Platform σ} {mem : Mem} {R : Set Frame} {dest src r f : Frame}
  {pageTable : Frame → ℕ}

/-- **The copy has the entries of the original.** -/
theorem globalEntries_copy_dest :
    globalEntries (khMmCopyGlobalMappings dest src mem) dest = globalEntries mem src := by
  unfold khMmCopyGlobalMappings
  split
  · rename_i heq
    rw [heq]
  · ext x
    exact and_congr_right fun hx => by rw [overlay_of_mem hx]

/-- No other context changes. -/
theorem globalEntries_copy_of_ne (hr : r ≠ dest) :
    globalEntries (khMmCopyGlobalMappings dest src mem) r = globalEntries mem r := by
  unfold khMmCopyGlobalMappings
  split
  · rfl
  · ext x
    exact and_congr_right fun _ => by rw [overlay_of_ne hr]

variable (h : Aligned Entry.child mem 3 R) (hdest : dest ∈ R) (hsrc : src ∈ R)

include h hdest hsrc

theorem aligned_copy : Aligned Entry.child (khMmCopyGlobalMappings dest src mem) 3 R := by
  unfold khMmCopyGlobalMappings
  split
  · exact h
  · exact h.overlay hdest hsrc

/-- The tables are those that there were. -/
theorem tableIn_of_copy (hf : TableIn (khMmCopyGlobalMappings dest src mem) R f) :
    TableIn mem R f := by
  unfold khMmCopyGlobalMappings at hf
  split at hf
  · exact hf
  · exact h.tableOf_overlay hdest hsrc hf

/-- **A switch copies the upper half and does nothing else to the tables.** -/
theorem mmSwitchContext_eq (pageTable : Frame → ℕ) (hdirect : ∀ f, TableIn mem R f →
    A.direct f = true) :
    ∃ cr3, mmSwitchContext A pageTable dest src mem =
      .ok (cr3, khMmCopyGlobalMappings dest src mem) := by
  have hreach : ∀ f, Table (khMmCopyGlobalMappings dest src mem) src f → A.direct f = true :=
    fun f hf => hdirect f (tableIn_of_copy h hdest hsrc ⟨src, hsrc, hf⟩)
  simp only [mmSwitchContext, khGetmap_eq hreach]
  exact ⟨_, rfl⟩

end Copy

end Pbos.Hal
