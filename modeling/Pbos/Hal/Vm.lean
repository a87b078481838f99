import Pbos.Hal.Memconf
import Pbos.Km.Panic
import Pbos.Lib.Loop
import Pbos.Lib.Radix

/-!
# Hal/Vm — mapping, unmapping and looking up pages

    PML4 ──pml4x──▸ PDPT ──pdptx──▸ PD ──pdx──▸ PT ──ptx──▸ page

`kh_mmap` and `kh_unmmap` walk the four table levels with nested loops, `kh_getmap` follows one
path.  A table is a page frame, and the memory holds 512 entries for each frame.  A context is named
by the frame of its PML4.

What the walks call is a parameter, `Platform`: the page allocator with a state of its own, whether
a frame has an address in the direct map, and what a temporary window onto a frame that has none
leaves in the tables.  Invalidating the TLB is left out.
-/

namespace Pbos.Hal

open Radix

/-! ## Entries -/

/-- A page frame number, as the `address` field of an entry holds it. -/
abbrev Frame := BitVec 40

/-- `PGROUNDDOWN`, stored in the `address` field of an entry. -/
def pgRoundDown (addr : ℕ) : Frame := BitVec.ofNat 40 (addr >>> 12)

/-- `UNPGADDR`. -/
def unpgaddr (f : Frame) : ℕ := f.toNat <<< 12

/-- `arch_pml4te_t`, `arch_pdpte_t`, `arch_pde_t` and `arch_pte_t`, which have the same fields. -/
structure Entry where
  mask : BitVec 12
  address : Frame
  xd : Bool
  deriving DecidableEq, Repr

def PTE_P : BitVec 16 := 0x0001
def PTE_RW : BitVec 16 := 0x0002
def PTE_U : BitVec 16 := 0x0004
def PTE_CD : BitVec 16 := 0x0010

namespace Entry

/-- `mask & bit`. -/
def has (e : Entry) (bit : BitVec 16) : Bool := e.mask.setWidth 16 &&& bit != 0

/-- `mask & PTE_P`, and the same bit of the other levels. -/
def present (e : Entry) : Bool := e.has PTE_P

/-- What `memset` leaves of an entry. -/
def zero : Entry := ⟨0, 0, false⟩

/-- The table below an entry. -/
def child (e : Entry) : Option Frame := if e.present then some e.address else none

end Entry

/-- The entries of every frame, for the frames that are tables. -/
abbrev Mem := Frame → Fin 512 → Entry

instance neZero_tableSize : NeZero 512 := ⟨by decide⟩

/-! ## Flags -/

def MM_PAGE_MAPPED : UInt32 := 0x01
def MM_PAGE_READ : UInt32 := 0x02
def MM_PAGE_WRITE : UInt32 := 0x04
def MM_PAGE_EXEC : UInt32 := 0x08
def MM_PAGE_NOCACHE : UInt32 := 0x10
def MM_PAGE_USER : UInt32 := 0x20

def MMAP_NO_REMAP : UInt32 := 0x00000002
def MMAP_IGNORE_VMR : UInt32 := 0x40000000
def MMAP_NO_PGTAB_ALLOC : UInt32 := 0x40000000
def MMAP_NO_RC : UInt32 := 0x80000000

/-- `a & b`, as a condition. -/
def hasFlag (a b : UInt32) : Bool := a &&& b != 0

/-- `hn_pgaccess_to_pgmask`. -/
def hnPgaccessToPgmask (access : UInt32) : BitVec 16 :=
  (bif hasFlag access MM_PAGE_MAPPED then PTE_P else 0) |||
  (bif hasFlag access MM_PAGE_WRITE then PTE_RW else 0) |||
  (bif hasFlag access MM_PAGE_NOCACHE then PTE_CD else 0) |||
  (bif hasFlag access MM_PAGE_USER then PTE_U else 0)

/-! ## What the walks stand on -/

/-- The rest of the kernel, as the page table walks see it. -/
structure Platform (σ : Type) where
  /-- Whether the build defines `NDEBUG`. -/
  ndebug : Bool
  /-- Whether `kh_get_direct_mmap` returns an address for the frame. -/
  direct : Frame → Bool
  /-- `hn_tmpmap_post`: open a window onto a frame that has no such address. -/
  tmpmap : Frame → Mem → Except Fault Mem
  /-- `mm_pgalloc(MM_PHYSICAL_MEMORY_TYPE_AVAILABLE)`. -/
  pgalloc : Mem → σ → Except Fault (ℕ × σ)
  /-- `mm_pgfree`. -/
  pgfree : σ → ℕ → Except Fault σ

/-- What a walk changes.  `freed` lists the frames `mm_pgfree` was called on, the last one first. -/
structure VmState (σ : Type) where
  mem : Mem
  pg : σ
  freed : List Frame

variable {σ : Type} (A : Platform σ)

namespace Platform

/-- Make the entries of a frame accessible. -/
def reach (f : Frame) (mem : Mem) : Except Fault Mem :=
  if A.direct f then .ok mem else A.tmpmap f mem

/-- `mm_pgfree(UNPGADDR(f))`. -/
def free (f : Frame) (s : VmState σ) : Except Fault (VmState σ) :=
  (A.pgfree s.pg (unpgaddr f)).map fun pg => { s with pg := pg, freed := f :: s.freed }

/-- What both walks do to a PTE that is present, before they overwrite it. -/
def drop (flags : UInt32) (va : ℕ) (pte : Entry) (s : VmState σ) : Except Fault (VmState σ) :=
  if pte.present then
    if hasFlag flags MMAP_NO_REMAP then
      .error (.panic "Remapping address %p with MMAP_NO_REMAP" [va])
    else if hasFlag flags MMAP_NO_RC then .ok s
    else A.free pte.address s
  else .ok s

end Platform

/-- `[vaddr, vaddr + size)`, as the walks see it. -/
structure VRange where
  vaddr : ℕ
  size : ℕ
  deriving DecidableEq, Repr

namespace VRange

variable (r : VRange)

/-- `addr_limit`. -/
def limit : ℕ := (r.vaddr + r.size) % 2 ^ 64

/-- `addr_prefix | UVADDR(…)`: the address an entry stands for. -/
def entryVaddr (pml4x pdptx pdx ptx : ℕ) : ℕ :=
  addrPrefix r.vaddr ||| uvaddr pml4x pdptx pdx ptx 0

/-- The first index to visit in a page directory pointer table. -/
def firstPdptx (i4 : ℕ) : ℕ := if i4 = pml4x r.vaddr then pdptx r.vaddr else 0

/-- The first index to visit in a page directory. -/
def firstPdx (i4 i3 : ℕ) : ℕ := if i4 = pml4x r.vaddr ∧ i3 = pdptx r.vaddr then pdx r.vaddr else 0

/-- The first index to visit in a page table. -/
def firstPtx (i4 i3 i2 : ℕ) : ℕ :=
  if i4 = pml4x r.vaddr ∧ i3 = pdptx r.vaddr ∧ i2 = pdx r.vaddr then ptx r.vaddr else 0

/-- The range starts and ends on different sides of the user space boundary. -/
def crossesSpaces : Prop :=
  mmIsUserSpace r.vaddr ≠ mmIsUserSpace ((r.vaddr + r.size + (2 ^ 64 - 1)) % 2 ^ 64)

instance : Decidable r.crossesSpaces := inferInstanceAs (Decidable (_ ≠ _))

end VRange

/-- The entry at an index of a loop. -/
def entryAt (mem : Mem) (f : Frame) (x : ℕ) : Entry := mem f (Fin.ofNat 512 x)

namespace VmState

/-- Store an entry of a table. -/
def store (s : VmState σ) (f : Frame) (x : ℕ) (e : Entry) : VmState σ :=
  { s with mem := write s.mem f (Fin.ofNat 512 x) e }

end VmState

/-! ## `kh_unmmap` -/

section Unmmap

variable (r : VRange) (flags : UInt32)

/-- Whether the first 511 entries of a table are absent; the walk does not ask for the last one. -/
def unneeded (mem : Mem) (f : Frame) : Bool :=
  (List.range 511).all fun i => !(entryAt mem f i).present

/-- The table that the walk takes for the one below an entry.  It asks for the direct map address of
the table the PML4 entry names, and asks for the right one only when that has none. -/
def Platform.lower (pdtPaddr below : Frame) (mem : Mem) : Except Fault (Frame × Mem) :=
  if A.direct pdtPaddr then .ok (pdtPaddr, mem)
  else (A.tmpmap below mem).map fun mem => (below, mem)

/-- One turn of the loop over PTEs. -/
def unmapPte (i4 i3 i2 : ℕ) (ptt : Frame) (i1 : ℕ) (s : VmState σ) :
    Except Fault (Turn (VmState σ)) :=
  let ptt_vaddr := r.entryVaddr i4 i3 i2 i1
  if r.limit ≤ ptt_vaddr then .ok (.brk s)
  else (A.drop flags ptt_vaddr (entryAt s.mem ptt i1) s).map fun s =>
    .next (s.store ptt i1 { entryAt s.mem ptt i1 with address := 0, mask := 0 })

/-- One turn of the loop over PDEs. -/
def unmapPde (i4 i3 : ℕ) (pdtPaddr pdt : Frame) (i2 : ℕ) (s : VmState σ) :
    Except Fault (Turn (VmState σ)) :=
  if r.limit ≤ r.entryVaddr i4 i3 i2 0 then .ok (.brk s)
  else if !(entryAt s.mem pdt i2).present then .ok (.next s)
  else do
    let (ptt, mem) ← A.lower pdtPaddr (entryAt s.mem pdt i2).address s.mem
    let first := r.firstPtx i4 i3 i2
    match ← forLoop (unmapPte A r flags i4 i3 i2 ptt) (512 - first) first { s with mem := mem } with
    | .ret s => .ok (.ret s)
    | .done _ s =>
      if unneeded s.mem ptt then
        (A.free (entryAt s.mem pdt i2).address
          (s.store pdt i2 { entryAt s.mem pdt i2 with mask := 0 })).map .next
      else .ok (.next s)

/-- One turn of the loop over PDPTEs.  The frame it frees is named by the entry at `pdx`, the index
the inner loop stopped at; after the last one there is no entry. -/
def unmapPdpte (pml4te : Entry) (i4 : ℕ) (pdpt : Frame) (i3 : ℕ) (s : VmState σ) :
    Except Fault (Turn (VmState σ)) :=
  if r.limit ≤ r.entryVaddr i4 i3 0 0 then .ok (.brk s)
  else if !(entryAt s.mem pdpt i3).present then .ok (.next s)
  else do
    let pdtPaddr := pml4te.address
    let (pdt, mem) ← A.lower pdtPaddr (entryAt s.mem pdpt i3).address s.mem
    let first := r.firstPdx i4 i3
    match ← forLoop (unmapPde A r flags i4 i3 pdtPaddr pdt) (512 - first) first
        { s with mem := mem } with
    | .ret s => .ok (.ret s)
    | .done pdx s =>
      if unneeded s.mem pdt then
        let s := s.store pdpt i3 { entryAt s.mem pdpt i3 with mask := 0 }
        if pdx < 512 then (A.free (entryAt s.mem pdpt pdx).address s).map .next
        else .error .undefined
      else .ok (.next s)

/-- One turn of the loop over PML4 entries. -/
def unmapPml4e (pml4t : Frame) (i4 : ℕ) (s : VmState σ) : Except Fault (Turn (VmState σ)) :=
  if !(entryAt s.mem pml4t i4).present then .ok (.next s)
  else do
    let pdpt := (entryAt s.mem pml4t i4).address
    let mem ← A.reach pdpt s.mem
    let first := r.firstPdptx i4
    match ← forLoop (fun i3 s => unmapPdpte A r flags (entryAt s.mem pml4t i4) i4 pdpt i3 s)
        (512 - first) first { s with mem := mem } with
    | .ret s => .ok (.ret s)
    | .done _ s =>
      if unneeded s.mem pdpt then
        (A.free (entryAt s.mem pml4t i4).address
          (s.store pml4t i4 { entryAt s.mem pml4t i4 with mask := 0 })).map .next
      else .ok (.next s)

/-- `kh_unmmap`.  The loop ends before the PML4 entry that holds `addr_limit`. -/
def khUnmmap (pml4t : Frame) (s : VmState σ) : Except Fault (VmState σ) :=
  if A.ndebug = false ∧ r.crossesSpaces then
    .error (.panic "Cannot map across user and kernel spaces" [])
  else do
    match ← forLoop (unmapPml4e A r flags pml4t) (pml4x r.limit - pml4x r.vaddr) (pml4x r.vaddr)
        s with
    | .done _ s => .ok s
    | .ret s => .ok s

end Unmmap

/-! ## `kh_mmap` -/

/-- What `kh_mmap` is asked for, its context apart. -/
structure MmapArgs extends VRange where
  paddr : ℕ
  access : UInt32
  flags : UInt32
  deriving DecidableEq, Repr

section Mmap

variable (c : MmapArgs)

/-- The PTE for the page at `pi`. -/
def MmapArgs.pte (pi : ℕ) : Entry where
  address := pgRoundDown pi
  mask := ((hnPgaccessToPgmask c.access).setWidth 8).setWidth 12
  xd := !hasFlag c.access MM_PAGE_EXEC

/-- `pi_diff`. -/
def MmapArgs.piDiff : ℕ := if c.paddr ≠ 0 then PAGESIZE else 0

/-- The entry that names a table the walk has allocated: present, writable, for users too. -/
def tableEntry (g : Frame) : Entry where
  mask := (PTE_P ||| PTE_RW ||| PTE_U).setWidth 12
  address := g
  xd := false

/-- The table below an entry.  A missing one is allocated and cleared; no page is `none`. -/
def ensureTable (flags : UInt32) (missing : String) (f : Frame) (x : ℕ) (s : VmState σ) :
    Except Fault (Option Frame × VmState σ) :=
  let e := entryAt s.mem f x
  if e.present then
    (A.reach e.address s.mem).map fun mem => (some e.address, { s with mem := mem })
  else if hasFlag flags MMAP_NO_PGTAB_ALLOC then .error (.panic missing [])
  else do
    let (page, pg) ← A.pgalloc s.mem s.pg
    let g := pgRoundDown page
    if g = 0 then .ok (none, { s.store f x { e with address := 0 } with pg := pg })
    else do
      let s := { s.store f x (tableEntry g) with pg := pg }
      let mem ← A.reach g s.mem
      .ok (some g, { s with mem := fill mem g Entry.zero })

/-- Visit the table below an entry with the loop `inner`; running out of pages ends the walk. -/
def descend (missing : String) (f : Frame) (x : ℕ)
    (inner : Frame → VmState σ × ℕ → Except Fault (Exit (VmState σ × ℕ))) (t : VmState σ × ℕ) :
    Except Fault (Turn (VmState σ × ℕ)) := do
  match ← ensureTable A c.flags missing f x t.1 with
  | (none, s) => .ok (.ret (s, t.2))
  | (some g, s) =>
    match ← inner g (s, t.2) with
    | .done _ t => .ok (.next t)
    | .ret t => .ok (.ret t)

/-- One turn of the loop over PTEs.  The second component of the state is `pi`. -/
def mapPte (i4 i3 i2 : ℕ) (ptt : Frame) (i1 : ℕ) (t : VmState σ × ℕ) :
    Except Fault (Turn (VmState σ × ℕ)) :=
  let ptt_vaddr := c.entryVaddr i4 i3 i2 i1
  if c.limit ≤ ptt_vaddr then .ok (.brk t)
  else (A.drop c.flags ptt_vaddr (entryAt t.1.mem ptt i1) t.1).map fun s =>
    .next (s.store ptt i1 (c.pte t.2), (t.2 + c.piDiff) % 2 ^ 64)

/-- One turn of the loop over PDEs. -/
def mapPde (i4 i3 : ℕ) (pdt : Frame) (i2 : ℕ) (t : VmState σ × ℕ) :
    Except Fault (Turn (VmState σ × ℕ)) :=
  if c.limit ≤ c.entryVaddr i4 i3 i2 0 then .ok (.brk t)
  else
    let first := c.firstPtx i4 i3 i2
    descend A c
      "Missing page directory table entry with MMAP_NO_PGTAB_ALLOC, please report this bug." pdt i2
      (fun ptt => forLoop (mapPte A c i4 i3 i2 ptt) (512 - first) first) t

/-- One turn of the loop over PDPTEs. -/
def mapPdpte (i4 : ℕ) (pdpt : Frame) (i3 : ℕ) (t : VmState σ × ℕ) :
    Except Fault (Turn (VmState σ × ℕ)) :=
  if c.limit ≤ c.entryVaddr i4 i3 0 0 then .ok (.brk t)
  else
    let first := c.firstPdx i4 i3
    descend A c "Missing PDP table entry with MMAP_NO_PGTAB_ALLOC, please report this bug."
      pdpt i3 (fun pdt => forLoop (mapPde A c i4 i3 pdt) (512 - first) first) t

/-- One turn of the loop over PML4 entries. -/
def mapPml4e (pml4t : Frame) (i4 : ℕ) (t : VmState σ × ℕ) : Except Fault (Turn (VmState σ × ℕ)) :=
  let first := c.firstPdptx i4
  descend A c "Missing PML4 table entry with MMAP_NO_PGTAB_ALLOC, please report this bug."
    pml4t i4 (fun pdpt => forLoop (mapPdpte A c i4 pdpt) (512 - first) first) t

/-- `kh_mmap`.  Leaving early runs `unmmap_guard`. -/
def khMmap (pml4t : Frame) (s : VmState σ) : Except Fault (KmResult × VmState σ) :=
  if A.ndebug = false ∧ c.size = 0 then .error (.panic "Cannot call mmap with size == 0" [])
  else if A.ndebug = false ∧ c.crossesSpaces then
    .error (.panic "Cannot map across user and kernel spaces" [])
  else do
    match ← forLoop (mapPml4e A c pml4t) (pml4x c.limit + 1 - pml4x c.vaddr) (pml4x c.vaddr)
        (s, c.paddr) with
    | .done _ t => .ok (.ok, t.1)
    | .ret t => (khUnmmap A c.toVRange 0 pml4t t.1).map fun s => (.noMem, s)

end Mmap

/-! ## `kh_getmap` -/

/-- The access `kh_getmap` reports for a PTE. -/
def pteAccess (pte : Entry) : UInt32 :=
  MM_PAGE_READ |||
  (bif pte.has PTE_P then MM_PAGE_MAPPED else 0) |||
  (bif pte.has PTE_RW then MM_PAGE_WRITE else 0) |||
  (bif pte.has PTE_U then MM_PAGE_USER else 0) |||
  (bif !pte.xd then MM_PAGE_EXEC else 0)

/-- `kh_getmap`: the returned pointer, `0` for null, and `*pgaccess_out` where it is written. -/
def khGetmap (pml4t : Frame) (vaddr : ℕ) (mem : Mem) :
    Except Fault ((ℕ × Option UInt32) × Mem) :=
  if !(entryAt mem pml4t (pml4x vaddr)).present then .ok ((0, none), mem)
  else do
    let pdpt := (entryAt mem pml4t (pml4x vaddr)).address
    let mem ← A.reach pdpt mem
    if !(entryAt mem pdpt (pdptx vaddr)).present then .ok ((0, none), mem)
    else do
      let pdt := (entryAt mem pdpt (pdptx vaddr)).address
      let mem ← A.reach pdt mem
      if !(entryAt mem pdt (pdx vaddr)).present then .ok ((0, none), mem)
      else do
        let ptt := (entryAt mem pdt (pdx vaddr)).address
        let mem ← A.reach ptt mem
        let pte := entryAt mem ptt (ptx vaddr)
        if !pte.present then .ok ((0, none), mem)
        else .ok ((unpgaddr pte.address, some (pteAccess pte)), mem)

end Pbos.Hal
