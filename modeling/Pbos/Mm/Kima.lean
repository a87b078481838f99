import Pbos.Lib.Blocks
import Pbos.Mm.KimaSlots

/-!
# Mm/Kima — the kernel's memory allocator

`kima_alloc` looks for room in the pages the pool already describes, and asks for new pages when
there is none; `kima_free` gives a block back.  `kima_vpgalloc` and `kima_vpgfree` stand for the
virtual memory manager: `Vm` is any pair of functions with a state of their own, which may look at
the pool, and `held` records the pages it has handed out.

Addresses are words.  Every sum of addresses goes through a `PtrAdd`: `wrapAdd` is the machine's
addition, `checkedAdd` stops where that would wrap.
-/

namespace Pbos.Mm

open Pbos.Kfxx

/-! ## The pool -/

/-- The two kinds of descriptors. -/
inductive Kind
  | ublk
  | vpgdesc
  deriving DecidableEq, Repr

/-- What `ki_init_kima_pool` computes: the page size, a power of two, and the slots of each kind of
pool page. -/
structure Layout where
  shift : ℕ
  shift_lt : shift < 64
  slots : Kind → SlotLayout (2 ^ shift)

/-- `pool->page_size`. -/
def Layout.pageSize (L : Layout) : ℕ := 2 ^ L.shift

/-- A pool. -/
structure Pool where
  initialized : Bool
  hdr : Headers
  slots : Kind → SlotPool
  numAllocatedPages : ℕ
  /-- the pages obtained by `kima_vpgalloc` and not returned -/
  held : List ℕ

/-- The live blocks, first address to size. -/
def Pool.live (p : Pool) : Blocks := (p.slots .ublk).view

/-- The reference counts of the described pages. -/
def Pool.pages (p : Pool) : OrdMap ℕ ℕ := (p.slots .vpgdesc).view

/-- Replacing the descriptors of one kind. -/
def Pool.setSlots (p : Pool) (κ : Kind) (hdr : Headers) (sp : SlotPool) : Pool :=
  { p with hdr := hdr, slots := Function.update p.slots κ sp }

/-- A pool after `ki_init_kima_pool`. -/
def emptySlots : SlotPool where
  poolpgList := none
  queryTree := OrdMap.empty
  freeTree := OrdMap.empty
  rbValue := fun _ => 0
  data := fun _ => 0

/-- `ki_init_kima_pool`: an empty pool. -/
def kiInitKimaPool : Pool where
  initialized := true
  hdr := ⟨fun _ => none, fun _ => none, fun _ => 0⟩
  slots := fun _ => emptySlots
  numAllocatedPages := 0
  held := []

/-- The virtual memory manager under the pool: the calls of `kima_vpgalloc` (zero for null) and
`kima_vpgfree`. -/
structure Vm (σ : Type) where
  vpgalloc : Pool → σ → ℕ → Except Fault (ℕ × σ)
  vpgfree : Pool → σ → ℕ → ℕ → Except Fault σ

/-- A pool and the state of the virtual memory manager. -/
structure Kima (σ : Type) where
  pool : Pool
  env : σ

variable {σ : Type}

/-- Replacing the descriptors of one kind. -/
def Kima.setSlots (k : Kima σ) (κ : Kind) (hdr : Headers) (sp : SlotPool) : Kima σ :=
  { k with pool := k.pool.setSlots κ hdr sp }

/-- Writing `num_allocated_pages`. -/
def Kima.setNum (k : Kima σ) (n : ℕ) : Kima σ :=
  { k with pool := { k.pool with numAllocatedPages := n } }

/-! ## Address arithmetic -/

/-- How addresses are added. -/
abbrev PtrAdd := ℕ → ℕ → Except Fault ℕ

/-- The machine's addition. -/
def wrapAdd : PtrAdd := fun a b => .ok (Word.add a b)

/-- Addition that stops where the machine's would wrap. -/
def checkedAdd : PtrAdd := fun a b => if a + b < 2 ^ 64 then .ok (a + b) else .error .overflow

/-- `cur_base` moved up to a multiple of `alignment`. -/
def alignUp (A : PtrAdd) (p alignment : ℕ) : Except Fault ℕ :=
  if p % alignment ≠ 0 then A p (alignment - p % alignment) else .ok p

/-! ## `vmalloc.cc`, `ublk.cc`, `vpgdesc.cc` -/

section Descriptors

variable (V : Vm σ) (L : Layout) (k : Kima σ)

/-- `kima_vpgalloc(pool, NULL, size)`. -/
def kimaVpgalloc (size : ℕ) : Except Fault (ℕ × Kima σ) := do
  kdAssert (size ≠ 0) "kernel/mm/kima/vmalloc.cc" 5
  let (vaddr, env) ← V.vpgalloc k.pool k.env size
  if vaddr = 0 then
    return (0, { k with env := env })
  let held := Word.multiples vaddr (vaddr + size) L.pageSize ++ k.pool.held
  return (vaddr, { pool := { k.pool with held := held }, env := env })

/-- `kima_vpgfree(pool, addr, size)`. -/
def kimaVpgfree (addr size : ℕ) : Except Fault (Kima σ) := do
  kdAssert (size ≠ 0) "kernel/mm/kima/vmalloc.cc" 19
  let env ← V.vpgfree k.pool k.env addr size
  let held := k.pool.held.filter (· ∉ Word.multiples addr (addr + size) L.pageSize)
  return { pool := { k.pool with held := held }, env := env }

/-- A descriptor of `ptr` with payload `d`, from the free tree or from a new pool page; a new page
adds `pages` to `num_allocated_pages`. -/
def allocSlot (κ : Kind) (k : Kima σ) (ptr d pages : ℕ) : Except Fault (Option ℕ × Kima σ) :=
  match (k.pool.slots κ).freeTree.first with
  | some (_, desc) => do
    let (hdr, sp) ← (k.pool.slots κ).takeFree L.pageSize k.pool.hdr desc ptr d
    return (some desc, k.setSlots κ hdr sp)
  | none => do
    let (pg, k) ← kimaVpgalloc V L k L.pageSize
    if pg = 0 then
      return (none, k)
    let (hdr, sp) ← (k.pool.slots κ).addPage (L.slots κ) k.pool.hdr pg ptr d
    return (some (pg + (L.slots κ).slotsOff),
      (k.setSlots κ hdr sp).setNum (Word.add k.pool.numAllocatedPages pages))

/-- Giving a descriptor back; a pool page that goes with it takes `pages` from
`num_allocated_pages`. -/
def freeSlot (κ : Kind) (k : Kima σ) (node pages : ℕ) : Except Fault (Kima σ) := do
  let (hdr, sp, gone) ← (k.pool.slots κ).release (L.slots κ) k.pool.hdr node
  let k := k.setSlots κ hdr sp
  if gone then
    let k ← kimaVpgfree V L k (floorAlignTo node L.pageSize) L.pageSize
    return k.setNum (Word.sub k.pool.numAllocatedPages pages)
  return k

/-- `kima_lookup_ublk(pool, ptr)`. -/
def kimaLookupUblk (p : Pool) (ptr : ℕ) : Option ℕ := (p.slots .ublk).lookup ptr

/-- `kima_lookup_nearest_ublk(pool, ptr)`. -/
def kimaLookupNearestUblk (p : Pool) (ptr : ℕ) : Option ℕ := (p.slots .ublk).lookupNearest ptr

/-- `kima_alloc_ublk(pool, ptr, size)`. -/
def kimaAllocUblk (ptr size : ℕ) : Except Fault (Option ℕ × Kima σ) :=
  allocSlot V L .ublk k ptr size (ceilAlignTo size L.pageSize / L.pageSize)

/-- `kima_free_ublk(pool, ublk)`. -/
def kimaFreeUblk (ublk : ℕ) : Except Fault (Kima σ) := freeSlot V L .ublk k ublk 1

/-- `kima_lookup_vpgdesc(pool, ptr)`. -/
def kimaLookupVpgdesc (p : Pool) (ptr : ℕ) : Option ℕ := (p.slots .vpgdesc).lookup ptr

/-- `kima_alloc_vpgdesc(pool, ptr)`. -/
def kimaAllocVpgdesc (ptr : ℕ) : Except Fault (Option ℕ × Kima σ) :=
  allocSlot V L .vpgdesc k ptr 0 0

/-- `kima_free_vpgdesc(pool, vpgdesc)`. -/
def kimaFreeVpgdesc (vpgdesc : ℕ) : Except Fault (Kima σ) :=
  freeSlot V L .vpgdesc k vpgdesc 0

/-- `vpgdesc->ref_count`. -/
def Kima.refCount (vpgdesc : ℕ) : ℕ := (k.pool.slots .vpgdesc).data vpgdesc

/-- Writing `vpgdesc->ref_count`. -/
def Kima.setRefCount (vpgdesc n : ℕ) : Kima σ :=
  k.setSlots .vpgdesc k.pool.hdr ((k.pool.slots .vpgdesc).setData vpgdesc n)

end Descriptors

/-! ## The search for room -/

section Search

variable (A : PtrAdd) (L : Layout) (p : Pool)

/-- The first page of an area, given by the offsets of its pages, that has no descriptor. -/
def findGap (base : ℕ) : List ℕ → Except Fault (Option ℕ)
  | [] => .ok none
  | j :: js => do
    let page ← A base j
    if kimaLookupVpgdesc p page = none then .ok (some page) else findGap base js

/-- The end of the block nearest to `ptr`, if that block overlaps `[cur, cur + size)`
(`PBOS_ISOVERLAPPED`). -/
def blockedBy (cur size ptr : ℕ) : Except Fault (Option ℕ) :=
  match kimaLookupNearestUblk p ptr with
  | none => .ok none
  | some ublk => do
    let start := (p.slots .ublk).rbValue ublk
    let stop ← A start ((p.slots .ublk).data ublk)
    let curStop ← A cur size
    if cur < stop ∧ start < curStop then .ok (some stop) else .ok none

variable (blocked : ℕ → ℕ → ℕ → Except Fault (Option ℕ)) (size alignment : ℕ)

/-- The inner loop of `kima_alloc` and `kima_realloc`: the first address from `cur` up to `limit`
that is aligned and not blocked by a block nearest to its first or last byte.  The address is the
whole state of the loop, so `2 ^ 64` rounds are enough for every search that ends. -/
def fitLoop (limit : ℕ) : ℕ → ℕ → Except Fault (Option ℕ)
  | 0, _ => .error .hang
  | n + 1, cur =>
    if limit < cur then .ok none
    else do
      let cur ← alignUp A cur alignment
      match ← blocked cur size cur with
      | some stop => fitLoop limit n stop
      | none => do
        let curStop ← A cur size
        match ← blocked cur size (Word.sub curStop 1) with
        | some stop => fitLoop limit n stop
        | none => .ok (some cur)

/-- The outer loop: over the described pages in order, from the one at `it`.  An area with a gap is
skipped up to the gap.  The answer is the first page of the area and the address found in it. -/
def searchLoop : ℕ → Option ℕ → ℕ → Except Fault (Option (ℕ × ℕ))
  | _, none, _ => .ok none
  | 0, some _, _ => .error .hang
  | n + 1, some base, continuousAreaBase =>
    let tree := (p.slots .vpgdesc).queryTree
    let area := ceilAlignTo size L.pageSize
    if base < continuousAreaBase then
      searchLoop n ((tree.next base).map (·.1)) continuousAreaBase
    else do
      match ← findGap A p base (Word.multiples 0 area L.pageSize) with
      | some gap => searchLoop n ((tree.findMaxLteq gap).map (·.1)) gap
      | none => do
        let limit ← A base (Word.sub area size)
        match ← fitLoop A blocked size alignment limit (2 ^ 64) base with
        | some cur => .ok (some (base, cur))
        | none => searchLoop n ((tree.next base).map (·.1)) continuousAreaBase

/-- The whole search.  A round is determined by the page and by `continuous_area_base`. -/
def searchWith : Except Fault (Option (ℕ × ℕ)) :=
  let tree := (p.slots .vpgdesc).queryTree
  searchLoop A L p blocked size alignment (2 ^ 64 * (tree.size + 1)) (tree.first.map (·.1)) 0

/-- The search of `kima_alloc`. -/
def search : Except Fault (Option (ℕ × ℕ)) := searchWith A L p (blockedBy A p) size alignment

end Search

/-! ## `malloc.cc` -/

section Malloc

variable (A : PtrAdd) (V : Vm σ) (L : Layout)

/-- One reference more to each page of an area. -/
def refPages (base : ℕ) : List ℕ → Kima σ → Except Fault (Kima σ)
  | [], k => .ok k
  | j :: js, k => do
    let page ← A base j
    match kimaLookupVpgdesc k.pool page with
    | none => .error (.panic
        "BUG: vpgdesc == nullptr, please report this bug to the developer" [])
    | some vpgdesc => refPages base js (k.setRefCount vpgdesc (Word.add (k.refCount vpgdesc) 1))

/-- Descriptors for new pages, one reference each, from offset `i` on.  The answer is the offset
where the loop stopped, and whether it got to the end. -/
def newPages (pg size : ℕ) : ℕ → ℕ → Kima σ → Except Fault (ℕ × Bool × Kima σ)
  | 0, _, _ => .error .hang
  | n + 1, i, k =>
    if i < size then do
      let page ← A pg i
      let (vpgdesc, k) ← kimaAllocVpgdesc V L k page
      match vpgdesc with
      | none => .ok (i, false, k)
      | some vpgdesc =>
        newPages pg size n (Word.add i L.pageSize)
          (k.setRefCount vpgdesc (Word.add (k.refCount vpgdesc) 1))
    else .ok (i, true, k)

/-- The loop of the scope guard: the descriptors made so far are given back. -/
def dropPages (pg : ℕ) : List ℕ → Kima σ → Except Fault (Kima σ)
  | [], k => .ok k
  | j :: js, k => do
    let page ← A pg j
    match kimaLookupVpgdesc k.pool page with
    | none => .error .nullDeref
    | some vpgdesc => do
      let k ← kimaFreeVpgdesc V L k vpgdesc
      dropPages pg js k

/-- The scope guard of `kima_alloc`, at offset `i`. -/
def releaseVpgdescs (pg i : ℕ) (k : Kima σ) : Except Fault (Kima σ) := do
  let k ← dropPages A V L pg (Word.multiples 0 i L.pageSize) k
  return k.setNum (Word.sub k.pool.numAllocatedPages i)

variable (k : Kima σ) (size alignment : ℕ)

/-- The end of `kima_alloc`: a block in new pages. -/
def allocNew : Except Fault (ℕ × Kima σ) := do
  let (newFreePg, k) ← kimaVpgalloc V L k (ceilAlignTo (Word.add size alignment) L.pageSize)
  let newFreePg ← alignUp A newFreePg alignment
  if newFreePg = 0 then
    return (0, k)
  let (i, complete, k) ← newPages A V L newFreePg size (2 ^ 64) 0 k
  if complete = false then
    let k ← releaseVpgdescs A V L newFreePg i k
    return (0, k)
  let k := k.setNum (Word.add k.pool.numAllocatedPages (ceilAlignTo size L.pageSize / L.pageSize))
  let (ublk, k) ← kimaAllocUblk V L k newFreePg size
  if ublk = none then
    let k ← releaseVpgdescs A V L newFreePg i k
    return (0, k)
  return (newFreePg, k)

/-- `kima_alloc(pool, size, alignment)`; zero is null. -/
def kimaAlloc : Except Fault (ℕ × Kima σ) := do
  kdAssert (k.pool.initialized = true) "kernel/mm/kima/malloc.cc" 8
  if size = 0 then
    .error (.panic "The size for mm_kalloc must not be 0" [])
  else
    match ← search A L k.pool size alignment with
    | some (base, cur) => do
      let (ublk, k) ← kimaAllocUblk V L k cur size
      if ublk = none then
        return (0, k)
      let k ← refPages A base (Word.multiples 0 (ceilAlignTo size L.pageSize) L.pageSize) k
      return (cur, k)
    | none => allocNew A V L k size alignment

/-- One reference less to a page; without any its descriptor is given back. -/
def unrefPage (vpgdesc : ℕ) : Except Fault (Kima σ) :=
  let k := k.setRefCount vpgdesc (Word.sub (k.refCount vpgdesc) 1)
  if k.refCount vpgdesc = 0 then kimaFreeVpgdesc V L k vpgdesc else .ok k

/-- One reference less to each of the pages. -/
def unrefPages : List ℕ → Kima σ → Except Fault (Kima σ)
  | [], k => .ok k
  | i :: is, k =>
    match kimaLookupVpgdesc k.pool i with
    | none => .error (.assertion "kernel/mm/kima/malloc.cc" 338)
    | some vpgdesc => do
      let k ← unrefPage V L k vpgdesc
      unrefPages is k

/-- `kima_free(pool, ptr)`. -/
def kimaFree (ptr : ℕ) : Except Fault (Kima σ) := do
  kdAssert (k.pool.initialized = true) "kernel/mm/kima/malloc.cc" 326
  match kimaLookupUblk k.pool ptr with
  | none => .error (.assertion "kernel/mm/kima/malloc.cc" 332)
  | some ublk => do
    let start := (k.pool.slots .ublk).rbValue ublk
    let stop ← A start ((k.pool.slots .ublk).data ublk)
    let k ← unrefPages V L (Word.multiples (floorAlignTo start L.pageSize)
      (ceilAlignTo stop L.pageSize) L.pageSize) k
    kimaFreeUblk V L k ublk

end Malloc

/-! ## Calls -/

/-- The calls a user of the pool makes. -/
inductive KimaCall
  | alloc (size alignment : ℕ)
  | free (ptr : ℕ)
  deriving DecidableEq, Repr

/-- Performing a call; the answer is the pointer returned, zero for `kima_free`. -/
def exec (A : PtrAdd) (V : Vm σ) (L : Layout) (k : Kima σ) : KimaCall → Except Fault (ℕ × Kima σ)
  | .alloc size alignment => kimaAlloc A V L k size alignment
  | .free ptr => do
    let k ← kimaFree A V L k ptr
    return (0, k)

end Pbos.Mm
