import Pbos.Km.Panic
import Pbos.Lib.Moves

/-!
# Kfxx/DynArray — the dynamic array over memory with object lifetimes

`kfxx::DynArray` holds its elements in one block of an allocator and picks its code by the traits of
the element type.  The memory knows for each element-sized cell whether an object lives in it and
whether its value was moved away; it notes when the storage of an object is reused or given back
before the object is destroyed.  Reading, assigning to or destroying what is no object is undefined,
and so is handing the allocator a block that is not the array's.  A null pointer is 0.
-/

namespace Pbos.Kfxx

open Moves

/-- The storage of one element: no object, an object, or an object whose value was moved away or is
unspecified otherwise. -/
inductive Cell (V : Type)
  | raw
  | live (v : V)
  | moved
  deriving DecidableEq

def Cell.isObject {V : Type} : Cell V → Bool
  | raw => false
  | _ => true

/-- What the element type brings along: its size, a default-constructed value, and its traits. -/
structure ElemType (V : Type) where
  size : ℕ
  default : V
  trivMoveAssignable : Bool
  trivMoveConstructible : Bool
  trivConstructible : Bool
  trivDestructible : Bool
  nothrowConstructible : Bool
  moveAssignable : Bool
  size_pos : 0 < size
  -- an object cannot be constructed trivially if it is not destroyed trivially
  destructible_of_construct : trivConstructible = true → trivDestructible = true
  destructible_of_move : trivMoveConstructible = true → trivDestructible = true

/-- The blocks the array has from the allocator, in cells; the cells; and whether an object has lost
its storage without being destroyed. -/
structure Mem (V : Type) where
  size : ℕ → Option ℕ
  cell : ℕ × ℕ → Cell V
  leak : Bool

variable {V : Type}

/-- The address of a cell: a block and an index in it. -/
def ElemType.address (τ : ElemType V) (p : ℕ × ℕ) : ℕ := p.1 + p.2 * τ.size

namespace Mem

/-- The cell lies in an allocated block. -/
def Valid (m : Mem V) (p : ℕ × ℕ) : Prop := ∃ n ∈ m.size p.1, p.2 < n

instance (m : Mem V) (p : ℕ × ℕ) : Decidable (m.Valid p) :=
  inferInstanceAs (Decidable (∃ n ∈ m.size p.1, p.2 < n))

def get (m : Mem V) (p : ℕ × ℕ) : Except Fault (Cell V) :=
  if m.Valid p then .ok (m.cell p) else .error .undefined

def set (m : Mem V) (p : ℕ × ℕ) (c : Cell V) : Mem V :=
  { m with cell := Function.update m.cell p c }

/-- Objects lose their storage; it does not matter where destroying them would do nothing. -/
def leakIf (m : Mem V) (τ : ElemType V) (objects : Bool) : Mem V :=
  { m with leak := m.leak || (!τ.trivDestructible && objects) }

end Mem

/-! ## Objects -/

variable (τ : ElemType V) (m : Mem V)

/-- The value of an object.  A trivially constructed one may have none yet. -/
def objectAt (p : ℕ × ℕ) : Except Fault (Cell V) := do
  let c ← m.get p
  if c.isObject = false ∧ τ.trivConstructible = false then .error .undefined else .ok c

/-- `construct_at(p, ...)`. -/
def constructAt (p : ℕ × ℕ) (c : Cell V) : Except Fault (Mem V) := do
  let old ← m.get p
  .ok ((m.leakIf τ old.isObject).set p c)

/-- `destroy_at(p)`. -/
def destroyAt (p : ℕ × ℕ) : Except Fault (Mem V) :=
  if τ.trivDestructible then .ok m
  else do
    let c ← m.get p
    if c.isObject then .ok (m.set p .raw) else .error .undefined

/-- `construct_at(x.1, std::move(*x.2))`. -/
def moveConstruct (x : (ℕ × ℕ) × ℕ × ℕ) : Except Fault (Mem V) := do
  let c ← objectAt τ m x.2
  let m' ← constructAt τ m x.1 c
  .ok (m'.set x.2 .moved)

/-- `move_assign_or_move_construct(*x.1, std::move(*x.2))`.  Without a move assignment the object is
destroyed and then constructed from itself. -/
def moveAssignOrMoveConstruct (x : (ℕ × ℕ) × ℕ × ℕ) : Except Fault (Mem V) :=
  if τ.moveAssignable then do
    let c ← objectAt τ m x.2
    let _ ← objectAt τ m x.1
    .ok ((m.set x.1 c).set x.2 .moved)
  else do
    let m' ← destroyAt τ m x.1
    constructAt τ m' x.1 .moved

/-- `memmove`, in cells. -/
def memmove (d s : ℕ × ℕ) (n : ℕ) : Except Fault (Mem V) :=
  if n = 0 ∨ m.Valid (d.1, d.2 + (n - 1)) ∧ m.Valid (s.1, s.2 + (n - 1)) then
    .ok { m with cell := fun p =>
      if p.1 = d.1 ∧ d.2 ≤ p.2 ∧ p.2 < d.2 + n then m.cell (s.1, s.2 + (p.2 - d.2)) else m.cell p }
  else .error .undefined

/-- The moves of a loop over `n` elements, the first or the last element first. -/
def moveOrder (up : Prop) [Decidable up] (d s : ℕ × ℕ) (n : ℕ) : List ((ℕ × ℕ) × ℕ × ℕ) :=
  (if up then List.range n else (List.range n).reverse).map (row d s)

/-- `_move_data(new_data, old_data, length)`. -/
def moveData (d s : ℕ × ℕ) (n : ℕ) : Except Fault (Mem V) :=
  if τ.trivMoveAssignable then memmove m d s n
  else (moveOrder (τ.address d + n * τ.size ≤ τ.address s) d s n).foldlM
    (moveAssignOrMoveConstruct τ) m

/-- `_move_data_uninit(new_data, old_data, length)`. -/
def moveDataUninit (d s : ℕ × ℕ) (n : ℕ) : Except Fault (Mem V) :=
  if τ.trivMoveConstructible then memmove m d s n
  else (moveOrder (τ.address d + n * τ.size < τ.address s) d s n).foldlM (moveConstruct τ) m

/-- The cells `p, p + 1, …`. -/
def cellsFrom (p : ℕ × ℕ) (n : ℕ) : List (ℕ × ℕ) := (List.range n).map fun k => (p.1, p.2 + k)

/-- `_construct_data(new_data, length)`. -/
def constructData (p : ℕ × ℕ) (n : ℕ) : Except Fault (Mem V) :=
  if τ.trivConstructible then .ok m
  else (cellsFrom p n).foldlM (fun m q => constructAt τ m q (.live τ.default)) m

/-- `_destruct_data(original_data, length)`. -/
def destructData (p : ℕ × ℕ) (n : ℕ) : Except Fault (Mem V) :=
  if τ.trivDestructible then .ok m else (cellsFrom p n).foldlM (destroyAt τ) m

/-! ## The allocator

It is asked for bytes; what it answers is the address of the block, or null. -/

/-- What the allocator answers: `realloc_in_place` in place or not, and the block given. -/
structure ArrayGrants where
  inPlace : Bool
  block : ℕ

/-- `alloc(size, alignment)`. -/
def alloc (bytes block : ℕ) : ℕ × Mem V :=
  if block = 0 then (0, m)
  else (block, { m with
    size := Function.update m.size block (some (bytes / τ.size))
    cell := fun p => if p.1 = block then .raw else m.cell p })

/-- Some cell from `lo` on, of the block of `n`, holds an object. -/
def objectsFrom (b lo n : ℕ) : Bool :=
  (List.range n).any fun k => decide (lo ≤ k) && (m.cell (b, k)).isObject

/-- `realloc(ptr, ..., new_size, ...)`: the contents are kept as far as they fit. -/
def realloc (ptr bytes block : ℕ) : Except Fault (ℕ × Mem V) :=
  match m.size ptr with
  | none => .error .undefined
  | some n =>
    if block = 0 then .ok (0, m)
    else
      let n' := bytes / τ.size
      .ok (block, { m.leakIf τ (objectsFrom m ptr n' n) with
        size := Function.update (Function.update m.size ptr none) block (some n')
        cell := fun p =>
          if p.1 = block then if p.2 < n ∧ p.2 < n' then m.cell (ptr, p.2) else .raw
          else m.cell p })

/-- `realloc_in_place(ptr, ..., new_size, ...)`. -/
def reallocInPlace (ptr bytes : ℕ) (inPlace : Bool) : Except Fault (ℕ × Mem V) :=
  realloc τ m ptr bytes (if inPlace then ptr else 0)

/-- `release(ptr, size, alignment)`. -/
def release (ptr : ℕ) : Except Fault (Mem V) :=
  match m.size ptr with
  | none => .error .undefined
  | some n =>
    .ok { m.leakIf τ (objectsFrom m ptr 0 n) with size := Function.update m.size ptr none }

/-! ## The array -/

structure DynArray (V : Type) where
  length : ℕ
  capacity : ℕ
  data : ℕ
  mem : Mem V

/-- `kd_assert(c)` in this file. -/
def arrayAssert (c : Prop) [Decidable c] (line : ℕ) : Except Fault Unit :=
  kdAssert c "include/pbos/kfxx/dynarray.hh" line

/-- `_get_grown_capacity(length, old_capacity)`. -/
def getGrownCapacity (length oldCapacity : ℕ) : ℕ :=
  if oldCapacity = 0 then length
  else
    let newCapacity := (oldCapacity + oldCapacity >>> 1) % 2 ^ 64
    if newCapacity < length then length else newCapacity

namespace DynArray

/-- `DynArray(allocator)`. -/
def new (m : Mem V) : DynArray V := ⟨0, 0, 0, m⟩

variable (construct : Bool) (τ : ElemType V) (a : DynArray V)

/-- `_expand_to<construct>(new_data, length)`. -/
def expandTo (newData length : ℕ) : Except Fault (Mem V) := do
  arrayAssert (a.length < length) 111
  let m ← (if construct then constructData τ a.mem (newData, a.length) (length - a.length)
    else .ok a.mem)
  if newData ≠ a.data ∧ a.data ≠ 0 then moveDataUninit τ m (newData, 0) (a.data, 0) a.length
  else .ok m

/-- `_shrink(new_data, length)`. -/
def shrink (newData length : ℕ) : Except Fault (Mem V) := do
  arrayAssert (length < a.length) 148
  let m ← destructData τ a.mem (a.data, length) (a.length - length)
  if newData ≠ a.data ∧ a.data ≠ 0 then moveDataUninit τ m (newData, 0) (a.data, 0) length
  else .ok m

/-- `_clear()`, and `~DynArray()`.  Objects of a trivial type are not destroyed, which makes no
difference. -/
def clearAll : Except Fault (DynArray V) := do
  let m ← destructData τ a.mem (a.data, 0) a.length
  let m' ← (if a.capacity = 0 then .ok m else release τ m a.data)
  .ok ⟨0, 0, 0, m'⟩

/-- The end of `_grow_capacity` and `_shrink_capacity`: the old block goes, the new one comes. -/
def takeOver (newData length newCapacity : ℕ) : Except Fault (Bool × DynArray V) := do
  let a' ← a.clearAll τ
  .ok (true, ⟨length, newCapacity, newData, a'.mem⟩)

/-- `_grow_capacity<construct>(length, new_capacity)`. -/
def growCapacity (length newCapacity : ℕ) (g : ArrayGrants) : Except Fault (Bool × DynArray V) := do
  arrayAssert (a.length < newCapacity) 164
  arrayAssert (a.length < length) 165
  let bytes := newCapacity * τ.size % 2 ^ 64
  if τ.trivMoveAssignable then
    if a.data ≠ 0 then
      let r ← realloc τ a.mem a.data bytes g.block
      if r.1 = 0 then .ok (false, a) else .ok (true, ⟨length, newCapacity, r.1, r.2⟩)
    else
      let r := alloc τ a.mem bytes g.block
      if r.1 = 0 then .ok (false, a)
      else takeOver τ { a with mem := r.2 } r.1 length newCapacity
  else
    let inPlace ← (if a.data = 0 ∧ τ.nothrowConstructible then
        reallocInPlace τ a.mem a.data bytes g.inPlace
      else .ok (0, a.mem))
    let r := if inPlace.1 = 0 then alloc τ a.mem bytes g.block else inPlace
    if r.1 = 0 then .ok (false, a)
    else
      let m ← expandTo construct τ { a with mem := r.2 } r.1 length
      takeOver τ { a with mem := m } r.1 length newCapacity

/-- `_shrink_capacity(length, new_capacity)`. -/
def shrinkCapacity (length newCapacity : ℕ) (g : ArrayGrants) :
    Except Fault (Bool × DynArray V) := do
  arrayAssert (length ≤ a.length) 233
  arrayAssert (newCapacity ≤ a.capacity) 234
  let bytes := newCapacity * τ.size % 2 ^ 64
  if τ.trivMoveAssignable then
    if a.data ≠ 0 then
      let r ← realloc τ a.mem a.data bytes g.block
      if r.1 = 0 then .ok (false, a) else .ok (true, ⟨length, newCapacity, r.1, r.2⟩)
    else
      let r := alloc τ a.mem bytes g.block
      if r.1 = 0 then .ok (false, a)
      else takeOver τ { a with mem := r.2 } r.1 length newCapacity
  else
    let r := alloc τ a.mem bytes g.block
    if r.1 = 0 then .ok (false, a)
    else
      let m ← shrink τ { a with mem := r.2 } r.1 length
      takeOver τ { a with mem := m } r.1 length newCapacity

/-- `_auto_grow_capacity<construct>(length)`. -/
def autoGrowCapacity (length : ℕ) (g : ArrayGrants) : Except Fault (Bool × DynArray V) :=
  if a.capacity < length then
    a.growCapacity construct τ length (getGrownCapacity length a.capacity) g
  else .ok (true, a)

/-- `_insert_range<construct>(index, length)`: the gap, or null. -/
def insertRange (index length : ℕ) (g : ArrayGrants) :
    Except Fault (Option (ℕ × ℕ) × DynArray V) := do
  let oldLength := a.length
  let newLength := (a.length + length) % 2 ^ 64
  let r ← a.autoGrowCapacity construct τ newLength g
  if r.1 then
    let a' := r.2
    let gapStart := (a'.data, index)
    let m ← (if index < oldLength then
        if τ.trivMoveAssignable then
          memmove a'.mem (a'.data, index + length) gapStart (oldLength - index)
        else moveDataUninit τ a'.mem (a'.data, index + length) gapStart (oldLength - index)
      else .ok a'.mem)
    let m' ← (if construct ∧ τ.trivMoveAssignable = false then constructData τ m gapStart length
      else .ok m)
    .ok (some gapStart, { a' with length := newLength, mem := m' })
  else .ok (none, r.2)

/-- `insert(index, data)`. -/
def insert (index : ℕ) (x : V) (g : ArrayGrants) : Except Fault (Bool × DynArray V) := do
  match ← a.insertRange false τ index 1 g with
  | (some gap, a') =>
    let m ← constructAt τ a'.mem gap (.live x)
    .ok (true, { a' with mem := m })
  | (none, a') => .ok (false, a')

/-- `push_front(data)`. -/
def pushFront (x : V) (g : ArrayGrants) : Except Fault (Bool × DynArray V) := a.insert τ 0 x g

/-- `push_back(data)`. -/
def pushBack (x : V) (g : ArrayGrants) : Except Fault (Bool × DynArray V) := a.insert τ a.length x g

/-- `resize(length)` and `resize_uninit(length)`. -/
def resizeWith (length : ℕ) (g : ArrayGrants) : Except Fault (Bool × DynArray V) :=
  if a.length < length then
    if a.capacity < length then a.autoGrowCapacity construct τ length g
    else do
      let m ← a.expandTo construct τ a.data length
      .ok (true, { a with length, mem := m })
  else if length < a.length then do
    let m ← a.shrink τ a.data length
    .ok (true, { a with length, mem := m })
  else .ok (true, a)

/-- `resize(length)`. -/
def resize (length : ℕ) (g : ArrayGrants) :
    Except Fault (Bool × DynArray V) := a.resizeWith true τ length g

/-- `resize_uninit(length)`. -/
def resizeUninit (length : ℕ) (g : ArrayGrants) :
    Except Fault (Bool × DynArray V) := a.resizeWith false τ length g

/-- `resize_and_shrink(length)`. -/
def resizeAndShrink (length : ℕ) (g : ArrayGrants) : Except Fault (Bool × DynArray V) :=
  if a.length < length then
    if a.capacity < length then a.growCapacity true τ length length g
    else do
      let r ← a.shrinkCapacity τ length length g
      if r.1 then
        let m ← r.2.expandTo true τ r.2.data length
        .ok (true, { r.2 with mem := m })
      else .ok (false, r.2)
  else if length < a.length then a.shrinkCapacity τ length length g
  else .ok (true, a)

/-- `shrink_to_fit()`. -/
def shrinkToFit (g : ArrayGrants) : Except Fault (Bool × DynArray V) :=
  if a.capacity < a.length then a.shrinkCapacity τ a.length a.length g else .ok (true, a)

/-- What `erase_range` and `erase_range_and_shrink` do to the elements. -/
def eraseMove (idxStart idxEnd : ℕ) : Except Fault (Mem V) := do
  let gapLength := idxEnd - idxStart
  let postGapLength := a.length - idxEnd
  let m ← (if postGapLength < gapLength then
      destructData τ a.mem (a.data, idxStart + postGapLength) (gapLength - postGapLength)
    else .ok a.mem)
  moveData τ m (a.data, idxStart) (a.data, idxEnd) postGapLength

/-- `erase_range(idx_start, idx_end)`. -/
def eraseRange (idxStart idxEnd : ℕ) : Except Fault (Bool × DynArray V) := do
  arrayAssert (idxStart < a.length) 327
  arrayAssert (idxEnd ≤ a.length) 328
  let m ← a.eraseMove τ idxStart idxEnd
  .ok (true, { a with length := a.length - (idxEnd - idxStart), mem := m })

/-- `erase_range_and_shrink(idx_start, idx_end)`. -/
def eraseRangeAndShrink (idxStart idxEnd : ℕ) (g : ArrayGrants) :
    Except Fault (Bool × DynArray V) := do
  arrayAssert (idxStart < a.length) 311
  arrayAssert (idxEnd ≤ a.length) 312
  let newLength := a.length - (idxEnd - idxStart)
  let m ← a.eraseMove τ idxStart idxEnd
  { a with mem := m }.shrinkCapacity τ newLength newLength g

/-- `extract_range(idx_start, idx_end)`. -/
def extractRange (idxStart idxEnd : ℕ) (g : ArrayGrants) : Except Fault (Bool × DynArray V) :=
  let newLength := idxEnd - idxStart
  if newLength = a.length then .ok (true, a)
  else if newLength = 0 then do
    let r ← a.resizeUninit τ 0 g
    if r.1 then .ok r else .error (.panic "BUG: clearing dynarray failed" [])
  else if idxStart ≠ 0 then do
    let m ← moveData τ a.mem (a.data, 0) (a.data, idxStart) newLength
    let r ← { a with mem := m }.resize τ newLength g
    arrayAssert (r.1 = true) 365
    .ok r
  else do
    let r ← a.resize τ newLength g
    arrayAssert (r.1 = true) 368
    .ok r

/-- `extract_range_and_shrink(idx_start, idx_end)`. -/
def extractRangeAndShrink (idxStart idxEnd : ℕ) (g : ArrayGrants) :
    Except Fault (Bool × DynArray V) :=
  let newLength := idxEnd - idxStart
  if newLength = a.length then .ok (true, a) else a.shrinkCapacity τ newLength newLength g

/-- `_length - 1`. -/
def lengthPred : ℕ := (a.length + (2 ^ 64 - 1)) % 2 ^ 64

/-- `pop_back()`, which does not look at the answer. -/
def popBack (g : ArrayGrants) : Except Fault (Bool × DynArray V) := do
  let r ← a.resizeUninit τ a.lengthPred g
  .ok (true, r.2)

/-- `pop_front()`. -/
def popFront (g : ArrayGrants) : Except Fault (Bool × DynArray V) := do
  let m ← moveData τ a.mem (a.data, 0) (a.data, 1) a.lengthPred
  let r ← { a with mem := m }.resize τ a.lengthPred g
  arrayAssert (r.1 = true) 713
  .ok r

/-- `pop_front_and_shrink()`.  If the memory is refused the elements are moved back. -/
def popFrontAndShrink (g : ArrayGrants) : Except Fault (Bool × DynArray V) := do
  arrayAssert (0 < a.length) 630
  let frontData ← objectAt τ a.mem (a.data, 0)
  let m₀ := if τ.trivMoveConstructible then a.mem else a.mem.set (a.data, 0) .moved
  let len := a.lengthPred
  let m ← moveData τ m₀ (a.data, 0) (a.data, 1) len
  let r ← { a with mem := m }.shrinkCapacity τ len len g
  if r.1 then .ok r
  else
    let m₁ ← moveData τ r.2.mem (r.2.data, 1) (r.2.data, 0) len
    let m₂ ← constructAt τ m₁ (r.2.data, 0) frontData
    .ok (false, { r.2 with mem := m₂ })

/-- The first `_length` cells. -/
def cells : List (Cell V) :=
  (List.range a.length).map fun k => a.mem.cell (a.data, k)

/-- **The contents**, if the block has room for them. -/
def contents : Option (List (Cell V)) :=
  if a.length = 0 ∨ a.mem.Valid (a.data, a.length - 1) then some a.cells else none

end DynArray

end Pbos.Kfxx
