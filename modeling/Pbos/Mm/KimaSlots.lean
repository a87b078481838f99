import Pbos.Kfxx.Utils
import Pbos.Km.Panic
import Pbos.Lib.OrdMap

/-!
# Mm/KimaSlots — the descriptors of kima and the pages they live in

Block descriptors (`kima_ublk_t`) and page descriptors (`kima_vpgdesc_t`) are kept the same way.  A
pool page starts with a header (`prev`, `next`, `used_num`) and is cut into slots; a slot is a tree
node with one field of payload, the `size` of a block or the `ref_count` of a page.  The node is
either in the query tree, under the address it describes, or in the free tree, under its own
address.

`SlotPool` is one such collection, `Headers` the headers of all pool pages.  The query tree is read
through `view`, the payloads by described address: `alloc` adds an entry to it and `free` drops one
(`takeFree_spec`, `addPage_spec`, `release_spec`), while the slots stay divided between the two
trees and `used_num` counts those in use (`SlotOk`).
-/

namespace Pbos.Mm

open Pbos.Kfxx Function List OrdMap

/-! ## Model -/

/-- The slots of a pool page of `ps` bytes. -/
structure SlotLayout (ps : ℕ) where
  slotsOff : ℕ
  slotsSize : ℕ
  /-- `sizeof` of a slot -/
  slotBytes : ℕ
  bytes_pos : 0 < slotBytes
  size_pos : 0 < slotsSize
  fits : slotsOff + slotsSize * slotBytes ≤ ps

/-- `&slots[0]`, `&slots[1]`, … of a pool page. -/
def SlotLayout.slots {ps : ℕ} (l : SlotLayout ps) (pg : ℕ) : List ℕ :=
  (List.range l.slotsSize).map fun i => pg + l.slotsOff + i * l.slotBytes

/-- The headers of the pool pages. -/
structure Headers where
  prev : ℕ → Option ℕ
  next : ℕ → Option ℕ
  usedNum : ℕ → ℕ

/-- Writing `used_num` of a page. -/
def Headers.setUsed (hdr : Headers) (pg v : ℕ) : Headers :=
  { hdr with usedNum := update hdr.usedNum pg v }

/-- Descriptors of one kind: the list of their pool pages, the two trees, and the fields of the
nodes. -/
structure SlotPool where
  poolpgList : Option ℕ
  queryTree : OrdMap ℕ ℕ
  freeTree : OrdMap ℕ ℕ
  rbValue : ℕ → ℕ
  data : ℕ → ℕ

/-- `tree.insert_unwrap(node)`, for a node whose `rb_value` is `key`. -/
def insertUnwrap (t : OrdMap ℕ ℕ) (key node : ℕ) : Except Fault (OrdMap ℕ ℕ) :=
  if t.find key = none then .ok (t.insert key node)
  else .error (.panic "Calling insert_unwrap with insertion failed" [])

/-- `tree.remove(node)`, which only makes sense for a node of the tree. -/
def treeRemove (t : OrdMap ℕ ℕ) (key node : ℕ) : Except Fault (OrdMap ℕ ℕ) :=
  if t.find key = some node then .ok (t.erase key) else .error .undefined

namespace SlotPool

variable (sp : SlotPool)

/-- The descriptor of an address. -/
def lookup (ptr : ℕ) : Option ℕ := sp.queryTree.find ptr

/-- The descriptor of the greatest address not above `ptr`. -/
def lookupNearest (ptr : ℕ) : Option ℕ := (sp.queryTree.findMaxLteq ptr).map (·.2)

/-- Writing the payload of a node. -/
def setData (node d : ℕ) : SlotPool :=
  { sp with data := update sp.data node d }

/-- Allocation from the free tree: its first node describes `ptr` from now on. -/
def takeFree (ps : ℕ) (hdr : Headers) (sp : SlotPool) (desc ptr d : ℕ) :
    Except Fault (Headers × SlotPool) := do
  let poolpg := floorAlignTo desc ps
  let hdr := hdr.setUsed poolpg (Word.add (hdr.usedNum poolpg) 1)
  let freeTree ← treeRemove sp.freeTree (sp.rbValue desc) desc
  let queryTree ← insertUnwrap sp.queryTree ptr desc
  return (hdr, { sp with
    freeTree := freeTree
    queryTree := queryTree
    rbValue := update sp.rbValue desc ptr
    data := update sp.data desc d })

/-- Slots that start out free. -/
def addFree : List ℕ → SlotPool → Except Fault SlotPool
  | [], sp => .ok sp
  | slot :: slots, sp => do
    let freeTree ← insertUnwrap sp.freeTree slot slot
    addFree slots { sp with freeTree := freeTree, rbValue := update sp.rbValue slot slot }

/-- A new pool page `pg`, in use with one slot, linked before the list of pool pages. -/
def linkPage (hdr : Headers) (poolpgList : Option ℕ) (pg : ℕ) : Headers :=
  let prev := update hdr.prev pg none
  { prev := match poolpgList with
      | none => prev
      | some q => update prev q (some pg)
    next := update hdr.next pg poolpgList
    usedNum := update hdr.usedNum pg 1 }

/-- Allocation from a new pool page: it is put before the list of pool pages, its first slot
describes `ptr`, and the others are free. -/
def addPage {ps : ℕ} (l : SlotLayout ps) (hdr : Headers) (sp : SlotPool) (pg ptr d : ℕ) :
    Except Fault (Headers × SlotPool) := do
  let hdr := linkPage hdr sp.poolpgList pg
  let slot := pg + l.slotsOff
  let queryTree ← insertUnwrap sp.queryTree ptr slot
  let sp ← addFree (l.slots pg).tail { sp with
    poolpgList := some pg
    queryTree := queryTree
    rbValue := update sp.rbValue slot ptr
    data := update sp.data slot d }
  return (hdr, sp)

/-- Taking the slots of a pool page out of the free tree. -/
def dropFree (rbValue : ℕ → ℕ) : List ℕ → OrdMap ℕ ℕ → Except Fault (OrdMap ℕ ℕ)
  | [], t => .ok t
  | slot :: slots, t => do
    let t ← treeRemove t (rbValue slot) slot
    dropFree rbValue slots t

/-- Unlinking a pool page.  The head of the list stays as it is. -/
def unlinkPage (hdr : Headers) (pg : ℕ) : Headers :=
  let next := match hdr.prev pg with
    | none => hdr.next
    | some q => update hdr.next q (hdr.next pg)
  let prev := match next pg with
    | none => hdr.prev
    | some q => update hdr.prev q (hdr.prev pg)
  { hdr with prev := prev, next := next }

/-- Giving a descriptor back.  The answer says whether its pool page is not used any more; the page
has then been unlinked and its slots are in neither tree. -/
def release {ps : ℕ} (l : SlotLayout ps) (hdr : Headers) (sp : SlotPool) (node : ℕ) :
    Except Fault (Headers × SlotPool × Bool) := do
  let poolpg := floorAlignTo node ps
  let queryTree ← treeRemove sp.queryTree (sp.rbValue node) node
  let rbValue := update sp.rbValue node node
  let freeTree ← insertUnwrap sp.freeTree node node
  let used := Word.sub (hdr.usedNum poolpg) 1
  let hdr := hdr.setUsed poolpg used
  if used ≠ 0 then
    return (hdr, { sp with queryTree := queryTree, freeTree := freeTree, rbValue := rbValue },
      false)
  let freeTree ← dropFree rbValue (l.slots poolpg) freeTree
  return (unlinkPage hdr poolpg,
    { sp with queryTree := queryTree, freeTree := freeTree, rbValue := rbValue }, true)

/-- The payloads, by described address. -/
def view : OrdMap ℕ ℕ := sp.queryTree.mapVal sp.data

end SlotPool

/-! ## The slots of a page -/

section Slots

variable {ps : ℕ} (l : SlotLayout ps) {pg n : ℕ}

theorem SlotLayout.mem_slots (h : n ∈ l.slots pg) : pg ≤ n ∧ n < pg + ps := by
  obtain ⟨i, hi, rfl⟩ := mem_map.mp h
  have hi := mem_range.mp hi
  have hle : (i + 1) * l.slotBytes ≤ l.slotsSize * l.slotBytes := Nat.mul_le_mul_right _ hi
  have hb := l.bytes_pos
  have hf := l.fits
  rw [Nat.add_mul] at hle
  omega

theorem SlotLayout.nodup_slots (pg : ℕ) : (l.slots pg).Nodup :=
  nodup_range.map fun _ _ h => Nat.eq_of_mul_eq_mul_right l.bytes_pos (Nat.add_left_cancel h)

theorem SlotLayout.length_slots (pg : ℕ) : (l.slots pg).length = l.slotsSize := by
  simp [SlotLayout.slots]

theorem SlotLayout.slots_eq_cons (pg : ℕ) :
    l.slots pg = (pg + l.slotsOff) :: (l.slots pg).tail := by
  obtain ⟨m, hm⟩ := Nat.exists_eq_add_one.mpr l.size_pos
  simp [SlotLayout.slots, hm, range_succ_eq_map]

/-- **A slot leads back to its page.** -/
theorem SlotLayout.floor_slot (hpg : ps ∣ pg) (h : n ∈ l.slots pg) : floorAlignTo n ps = pg :=
  floorAlignTo_eq hpg (l.mem_slots h).1 (l.mem_slots h).2

/-- A page has fewer slots than bytes. -/
theorem SlotLayout.slotsSize_le : l.slotsSize ≤ ps := by
  have hle := Nat.le_mul_of_pos_right l.slotsSize l.bytes_pos
  have hf := l.fits
  omega

end Slots

/-- Turning one element of a list from false to true adds one to the count. -/
private theorem countP_add_one {p q : ℕ → Bool} {s : List ℕ} {a : ℕ} (hs : s.Nodup) (ha : a ∈ s)
    (hp : p a = false) (hq : q a = true) (h : ∀ b ∈ s, b ≠ a → q b = p b) :
    s.countP q = s.countP p + 1 := by
  obtain ⟨A, B, rfl⟩ := append_of_mem ha
  have hnd := nodup_append.mp hs
  have hA : A.countP q = A.countP p := List.countP_congr fun b hb => by
    rw [h b (by simp [hb]) (hnd.2.2 b hb a (by simp))]
  have hB : B.countP q = B.countP p := List.countP_congr fun b hb => by
    rw [h b (by simp [hb]) fun e => (nodup_cons.mp hnd.2.1).1 (e ▸ hb)]
  simp only [List.countP_append, List.countP_cons, hp, hq]
  simp
  omega

namespace SlotPool

/-- The node is in the query tree. -/
def InQuery (sp : SlotPool) (n : ℕ) : Prop := sp.queryTree.find (sp.rbValue n) = some n

instance (sp : SlotPool) (n : ℕ) : Decidable (sp.InQuery n) :=
  inferInstanceAs (Decidable (_ = _))

/-- **The slots of the pool pages `P` are divided between the two trees**, a node of the query tree
under the address it describes, a free one under its own; `used_num` counts the slots in use. -/
structure Divided {ps : ℕ} (l : SlotLayout ps) (used : ℕ → ℕ) (sp : SlotPool) (P : List ℕ) :
    Prop where
  nodup : P.Nodup
  aligned : ∀ pg ∈ P, ps ∣ pg
  query : ∀ k n, sp.queryTree.find k = some n → sp.rbValue n = k ∧ ∃ pg ∈ P, n ∈ l.slots pg
  free : ∀ k n, sp.freeTree.find k = some n → k = n ∧ sp.rbValue n = n ∧ ∃ pg ∈ P, n ∈ l.slots pg
  slot : ∀ pg ∈ P, ∀ n ∈ l.slots pg, sp.InQuery n ↔ sp.freeTree.find n = none
  used_eq : ∀ pg ∈ P, used pg = (l.slots pg).countP fun n => sp.InQuery n

/-- …and no page without a slot in use is kept. -/
structure SlotOk {ps : ℕ} (l : SlotLayout ps) (used : ℕ → ℕ) (sp : SlotPool) (P : List ℕ) : Prop
    extends Divided l used sp P where
  used_pos : ∀ pg ∈ P, 0 < used pg

variable {ps : ℕ} {l : SlotLayout ps} {used used' : ℕ → ℕ} {hdr : Headers} {sp sp' : SlotPool}
  {P : List ℕ} {k n d pg ptr desc : ℕ}

theorem find_view (sp : SlotPool) (k : ℕ) : sp.view.find k = (sp.queryTree.find k).map sp.data :=
  find_mapVal ..

theorem find_view_eq_none : sp.view.find k = none ↔ sp.queryTree.find k = none := by
  rw [find_view, Option.map_eq_none_iff]

/-- The invariant only reads the headers of its own pages. -/
theorem SlotOk.congr_used (h : SlotOk l used sp P) (hu : ∀ pg ∈ P, used' pg = used pg) :
    SlotOk l used' sp P :=
  { h with
    used_eq := fun pg hpg => (hu pg hpg).trans (h.used_eq pg hpg)
    used_pos := fun pg hpg => (hu pg hpg) ▸ h.used_pos pg hpg }

/-- What the query tree finds is in use. -/
theorem Divided.inQuery (h : Divided l used sp P) (hk : sp.queryTree.find k = some n) :
    sp.InQuery n := by
  rw [InQuery, (h.query k n hk).1, hk]

/-- What the free tree finds is not in use. -/
theorem Divided.not_inQuery (h : Divided l used sp P) (hk : sp.freeTree.find k = some n) :
    ¬ sp.InQuery n := by
  obtain ⟨rfl, -, pg, hpg, hn⟩ := h.free k n hk
  rw [h.slot pg hpg k hn, hk]
  exact Option.some_ne_none k

/-- A slot of no page of `P` is in neither tree. -/
theorem Divided.not_mem (h : Divided l used sp P) (hal : ps ∣ pg) (hpg : pg ∉ P)
    (hn : n ∈ l.slots pg) :
    (∀ k, sp.queryTree.find k ≠ some n) ∧ sp.freeTree.find n = none := by
  have hfloor := l.floor_slot hal hn
  have hout : ∀ q ∈ P, n ∉ l.slots q := fun q hq hn' => by
    rw [l.floor_slot (h.aligned q hq) hn'] at hfloor
    exact hpg (hfloor ▸ hq)
  constructor
  · intro k hk
    obtain ⟨-, q, hq, hn'⟩ := h.query k n hk
    exact hout q hq hn'
  · cases hf : sp.freeTree.find n with
    | none => rfl
    | some m =>
      obtain ⟨rfl, -, q, hq, hn'⟩ := h.free n m hf
      exact absurd hn' (hout q hq)

/-- The count of a page is below the word size, so it never wraps. -/
theorem Divided.used_lt (h : Divided l used sp P) (hps : ps < 2 ^ 64) (hpg : pg ∈ P) :
    used pg < 2 ^ 64 := by
  have hle : used pg ≤ l.slotsSize := by
    rw [h.used_eq pg hpg, ← l.length_slots pg]
    exact List.countP_le_length
  have := l.slotsSize_le
  omega

/-- A node joins the query tree: the view gets an entry. -/
theorem view_eq_insert (hq : sp'.queryTree = sp.queryTree.insert ptr n)
    (hd : sp'.data = update sp.data n d) (hn : ∀ k, sp.queryTree.find k ≠ some n) :
    sp'.view = sp.view.insert ptr d := by
  refine ext_find fun k => ?_
  rw [find_view, hq, hd, find_insert, find_insert, find_view]
  split
  · simp
  · cases hk : sp.queryTree.find k with
    | none => rfl
    | some m =>
      have hmn : m ≠ n := fun e => hn k (e ▸ hk)
      simp [update_of_ne hmn]

/-- A node leaves the query tree: the view loses an entry. -/
theorem view_eq_erase (hq : sp'.queryTree = sp.queryTree.erase k) (hd : sp'.data = sp.data) :
    sp'.view = sp.view.erase k := by
  refine ext_find fun k' => ?_
  rw [find_view, hq, hd, find_erase, find_erase, find_view]
  split <;> rfl

/-- The pool after a node has been given the address `ptr` to describe. -/
def describe (sp : SlotPool) (n ptr d : ℕ) : SlotPool :=
  { sp with
    queryTree := sp.queryTree.insert ptr n
    rbValue := update sp.rbValue n ptr
    data := update sp.data n d }

/-- **One more node is in use.** -/
theorem inQuery_describe (hptr : sp.queryTree.find ptr = none) {m : ℕ} :
    (sp.describe n ptr d).InQuery m ↔ m = n ∨ sp.InQuery m := by
  by_cases hm : m = n
  · simp [InQuery, describe, hm]
  · by_cases hr : sp.rbValue m = ptr
    · simp [InQuery, describe, hm, hr, hptr, Ne.symm hm]
    · simp [InQuery, describe, hm, hr]

/-- The nodes of the query tree, one more in use. -/
theorem query_describe (h : Divided l used sp P) (hn : ∀ k, sp.queryTree.find k ≠ some n) {m : ℕ}
    (hk : (sp.describe n ptr d).queryTree.find k = some m) :
    (sp.describe n ptr d).rbValue m = k ∧ (m = n ∨ ∃ pg ∈ P, m ∈ l.slots pg) := by
  simp only [describe, find_insert] at hk ⊢
  split at hk
  · rename_i he
    cases hk
    exact ⟨by simp [he], .inl rfl⟩
  · have hmn : m ≠ n := fun e => hn k (e ▸ hk)
    rw [update_of_ne hmn]
    exact ⟨(h.query k m hk).1, .inr (h.query k m hk).2⟩

/-! ## Allocation from the free tree -/

/-- **A free slot is put to use.** -/
theorem takeFree_spec (h : SlotOk l hdr.usedNum sp P) (hps : ps < 2 ^ 64)
    (hdesc : sp.freeTree.find k = some desc) (hptr : sp.queryTree.find ptr = none) (d : ℕ) :
    ∃ hdr' sp', takeFree ps hdr sp desc ptr d = .ok (hdr', sp') ∧ SlotOk l hdr'.usedNum sp' P ∧
      ∀ q ∉ P, hdr'.usedNum q = hdr.usedNum q := by
  obtain ⟨rfl, hrb, pg, hpg, hslot⟩ := h.free k desc hdesc
  have hfloor := l.floor_slot (h.aligned pg hpg) hslot
  have hnot : ¬ sp.InQuery k := h.not_inQuery hdesc
  have hnotq : ∀ k', sp.queryTree.find k' ≠ some k := fun k' hk' => hnot (h.inQuery hk')
  have hin : ∀ n, (sp.describe k ptr d).InQuery n ↔ n = k ∨ sp.InQuery n := fun n =>
    inQuery_describe hptr
  have hcount := countP_add_one (p := sp.InQuery)
    (q := (sp.describe k ptr d).InQuery) (l.nodup_slots pg) hslot (by simpa using hnot)
    (by simp [hin]) fun b _ hb => by simp [hin, hb]
  have hused : Word.add (hdr.usedNum pg) 1 = hdr.usedNum pg + 1 := by
    refine Word.add_of_lt (lt_of_le_of_lt ?_ (l.slotsSize_le.trans_lt hps))
    rw [h.used_eq pg hpg, ← hcount, ← l.length_slots pg]
    exact List.countP_le_length
  refine ⟨hdr.setUsed pg (hdr.usedNum pg + 1),
    { sp.describe k ptr d with freeTree := sp.freeTree.erase k }, ?_, ?_, fun q hq => ?_⟩
  · simp only [takeFree, treeRemove, insertUnwrap, hrb, hdesc, hptr, hfloor, hused]
    rfl
  · refine ⟨⟨h.nodup, h.aligned, fun k' n hk' => ?_, fun k' n hk' => ?_, fun q hq n hn => ?_,
      fun q hq => ?_⟩, fun q hq => ?_⟩
    · obtain ⟨hr, rfl | hpage⟩ := query_describe (d := d) h.toDivided hnotq hk'
      · exact ⟨hr, pg, hpg, hslot⟩
      · exact ⟨hr, hpage⟩
    · rw [find_erase] at hk'
      split at hk'
      · cases hk'
      · rename_i hne
        obtain ⟨rfl, hr, hpage⟩ := h.free k' n hk'
        exact ⟨rfl, (update_of_ne hne _ _).trans hr, hpage⟩
    · rw [find_erase]
      refine (hin n).trans ?_
      rw [h.slot q hq n hn]
      split <;> simp_all
    · simp only [Headers.setUsed]
      by_cases hqp : q = pg
      · rw [hqp, update_self, h.used_eq pg hpg]
        exact hcount.symm
      · rw [update_of_ne hqp, h.used_eq q hq]
        refine List.countP_congr fun n hn => ?_
        have hne : n ≠ k := fun e => hqp (by
          rw [← hfloor, ← e, l.floor_slot (h.aligned q hq) hn])
        simp only [decide_eq_true_eq]
        exact ((hin n).trans (or_iff_right hne)).symm
    · simp only [Headers.setUsed]
      by_cases hqp : q = pg
      · rw [hqp, update_self]
        exact Nat.succ_pos _
      · rw [update_of_ne hqp]
        exact h.used_pos q hq
  · have hne : q ≠ pg := fun e => hq (e ▸ hpg)
    exact update_of_ne hne _ _

/-! ## Allocation from a new page -/

/-- Slots that start out free. -/
theorem addFree_spec {S : List ℕ} (sp : SlotPool) (hS : S.Nodup)
    (hnone : ∀ s ∈ S, sp.freeTree.find s = none) :
    ∃ T R, addFree S sp = .ok { sp with freeTree := T, rbValue := R } ∧
      (∀ k, T.find k = if k ∈ S then some k else sp.freeTree.find k) ∧
      ∀ n, R n = if n ∈ S then n else sp.rbValue n := by
  induction S generalizing sp with
  | nil => exact ⟨sp.freeTree, sp.rbValue, rfl, by simp, by simp⟩
  | cons s S ih =>
    obtain ⟨hs, hS⟩ := nodup_cons.mp hS
    obtain ⟨T, R, hok, hT, hR⟩ := ih { sp with
        freeTree := sp.freeTree.insert s s, rbValue := update sp.rbValue s s } hS
      fun k hk => by
        have hne : k ≠ s := fun e => hs (e ▸ hk)
        simpa [hne] using hnone k (mem_cons_of_mem _ hk)
    refine ⟨T, R, ?_, fun k => ?_, fun n => ?_⟩
    · simp only [addFree, insertUnwrap, hnone s mem_cons_self, if_true, bind, Except.bind, hok]
    · rw [hT]
      by_cases hk : k = s
      · simp [hk]
      · simp [hk]
    · rw [hR]
      by_cases hn : n = s
      · simp [hn]
      · simp [hn]

/-- The slots of a new page: the first one in use, the others free. -/
theorem SlotOk.newPage (h : SlotOk l used sp P) (hal : ps ∣ pg) (hpg : pg ∉ P)
    (hptr : sp.queryTree.find ptr = none)
    (hq : sp'.queryTree = sp.queryTree.insert ptr (pg + l.slotsOff))
    (hT : ∀ k, sp'.freeTree.find k = if k ∈ (l.slots pg).tail then some k else sp.freeTree.find k)
    (hR : ∀ n, sp'.rbValue n = if n ∈ (l.slots pg).tail then n
      else update sp.rbValue (pg + l.slotsOff) ptr n)
    (hone : used' pg = 1) (hu : ∀ q ∈ P, used' q = used q) : SlotOk l used' sp' (pg :: P) := by
  have hslots := l.slots_eq_cons pg
  have hnd := l.nodup_slots pg
  rw [hslots, nodup_cons] at hnd
  have hfirst : pg + l.slotsOff ∈ l.slots pg := by rw [hslots]; exact mem_cons_self
  have htail : ∀ n ∈ (l.slots pg).tail, n ∈ l.slots pg := fun n hn => mem_of_mem_tail hn
  have hout : ∀ n ∈ l.slots pg, (∀ k, sp.queryTree.find k ≠ some n) ∧ sp.freeTree.find n = none :=
    fun n hn => h.not_mem hal hpg hn
  have hold : ∀ q ∈ P, ∀ n ∈ l.slots q, n ∉ l.slots pg := fun q hq n hn hn' => by
    have := l.floor_slot (h.aligned q hq) hn
    rw [l.floor_slot hal hn'] at this
    exact hpg (this ▸ hq)
  have hRold : ∀ n ∉ l.slots pg, sp'.rbValue n = sp.rbValue n := fun n hn => by
    have hne : n ≠ pg + l.slotsOff := fun e => hn (e ▸ hfirst)
    rw [hR, if_neg fun ht => hn (htail n ht), update_of_ne hne]
  have hRfirst : sp'.rbValue (pg + l.slotsOff) = ptr := by
    rw [hR, if_neg hnd.1, update_self]
  have hinFirst : sp'.InQuery (pg + l.slotsOff) := by
    rw [InQuery, hq, find_insert, if_pos hRfirst]
  have hinTail : ∀ n ∈ (l.slots pg).tail, ¬ sp'.InQuery n := fun n hn hin => by
    rw [InQuery, hq, find_insert] at hin
    split at hin
    · exact hnd.1 (Option.some.inj hin ▸ hn)
    · exact (hout n (htail n hn)).1 _ hin
  have hinOld : ∀ n ∉ l.slots pg, sp'.InQuery n ↔ sp.InQuery n := fun n hn => by
    have hne : pg + l.slotsOff ≠ n := fun e => hn (e ▸ hfirst)
    rw [InQuery, InQuery, hq, find_insert, hRold n hn]
    split
    · rename_i hr
      simp [hr, hptr, hne]
    · rfl
  refine ⟨⟨nodup_cons.mpr ⟨hpg, h.nodup⟩, ?_, fun k n hk => ?_, fun k n hk => ?_, ?_, ?_⟩, ?_⟩
  · exact forall_mem_cons.mpr ⟨hal, h.aligned⟩
  · rw [hq, find_insert] at hk
    split at hk
    · rename_i he
      cases hk
      exact ⟨he ▸ hRfirst, pg, mem_cons_self, hfirst⟩
    · obtain ⟨hr, q, hqP, hn⟩ := h.query k n hk
      exact ⟨(hRold n (hold q hqP n hn)).trans hr, q, mem_cons_of_mem _ hqP, hn⟩
  · rw [hT] at hk
    split at hk
    · rename_i ht
      cases hk
      exact ⟨rfl, by rw [hR, if_pos ht], pg, mem_cons_self, htail k ht⟩
    · obtain ⟨rfl, hr, q, hqP, hn⟩ := h.free k n hk
      exact ⟨rfl, (hRold k (hold q hqP k hn)).trans hr, q, mem_cons_of_mem _ hqP, hn⟩
  · refine forall_mem_cons.mpr ⟨fun n hn => ?_, fun q hqP n hn => ?_⟩
    · rw [hT]
      by_cases ht : n ∈ (l.slots pg).tail
      · simp [ht, hinTail n ht]
      · have hn' := hn
        rw [hslots, mem_cons] at hn'
        rw [if_neg ht, (hout n hn).2, hn'.resolve_right ht]
        exact iff_of_true hinFirst rfl
    · have hnew := hold q hqP n hn
      rw [hinOld n hnew, h.slot q hqP n hn, hT, if_neg fun ht => hnew (htail n ht)]
  · refine forall_mem_cons.mpr ⟨?_, fun q hqP => ?_⟩
    · have hzero : (l.slots pg).tail.countP sp'.InQuery = 0 :=
        List.countP_eq_zero.mpr fun n hn => by simpa using hinTail n hn
      rw [hone, hslots, List.countP_cons, hzero]
      simp [hinFirst]
    · rw [hu q hqP, h.used_eq q hqP]
      exact List.countP_congr fun n hn => by simpa using (hinOld n (hold q hqP n hn)).symm
  · exact forall_mem_cons.mpr ⟨hone ▸ one_pos, fun q hqP => hu q hqP ▸ h.used_pos q hqP⟩

/-- **A new page comes into use, with its first slot.** -/
theorem addPage_spec (h : SlotOk l hdr.usedNum sp P) (hal : ps ∣ pg) (hpg : pg ∉ P)
    (hptr : sp.queryTree.find ptr = none) (d : ℕ) :
    ∃ hdr' sp', addPage l hdr sp pg ptr d = .ok (hdr', sp') ∧
      SlotOk l hdr'.usedNum sp' (pg :: P) ∧ ∀ q ∉ pg :: P, hdr'.usedNum q = hdr.usedNum q := by
  have hnd := l.nodup_slots pg
  rw [l.slots_eq_cons pg, nodup_cons] at hnd
  obtain ⟨T, R, hok, hT, hR⟩ := addFree_spec { sp.describe (pg + l.slotsOff) ptr d with
    poolpgList := some pg } hnd.2 fun s hs => (h.not_mem hal hpg (mem_of_mem_tail hs)).2
  have hframe : ∀ q, q ≠ pg → (linkPage hdr sp.poolpgList pg).usedNum q = hdr.usedNum q :=
    fun q hq => update_of_ne hq _ _
  refine ⟨linkPage hdr sp.poolpgList pg, { sp.describe (pg + l.slotsOff) ptr d with
      poolpgList := some pg, freeTree := T, rbValue := R }, ?_,
    h.newPage hal hpg hptr rfl hT hR (update_self ..) fun q hq => hframe q fun e =>
      hpg (e ▸ hq),
    fun q hq => hframe q fun e => hq (e ▸ mem_cons_self)⟩
  simp only [addPage, insertUnwrap, hptr]
  exact congrArg (Except.bind · fun a => Except.ok (linkPage hdr sp.poolpgList pg, a)) hok

/-! ## Giving back -/

/-- The pool after a node has been put back into the free tree. -/
def forget (sp : SlotPool) (n k : ℕ) : SlotPool :=
  { sp with
    queryTree := sp.queryTree.erase k
    freeTree := sp.freeTree.insert n n
    rbValue := update sp.rbValue n n }

/-- **One node less is in use.** -/
theorem Divided.inQuery_forget (h : Divided l used sp P)
    (hk : sp.queryTree.find k = some n) {m : ℕ} :
    (sp.forget n k).InQuery m ↔ m ≠ n ∧ sp.InQuery m := by
  have hrb := (h.query k n hk).1
  by_cases hm : m = n
  · subst hm
    simp only [InQuery, forget, update_self, find_erase, ne_eq, not_true_eq_false,
      false_and, iff_false]
    split
    · exact fun hn => nomatch hn
    · rename_i hne
      intro hq
      exact hne ((h.query m m hq).1.symm.trans hrb)
  · simp only [InQuery, forget, update_of_ne hm, find_erase, ne_eq, hm, not_false_eq_true, true_and]
    split
    · rename_i hr
      rw [hr, hk]
      simp [Ne.symm hm]
    · rfl

/-- Putting a node back keeps the slots divided; its page has one slot less in use. -/
theorem Divided.forget (h : Divided l used sp P) (hk : sp.queryTree.find k = some n) (hpg : pg ∈ P)
    (hn : n ∈ l.slots pg) :
    0 < used pg ∧ Divided l (update used pg (used pg - 1)) (sp.forget n k) P := by
  have hin : ∀ m, (sp.forget n k).InQuery m ↔ m ≠ n ∧ sp.InQuery m := fun m => h.inQuery_forget hk
  have hinn := h.inQuery hk
  have hcount := countP_add_one (p := (sp.forget n k).InQuery)
    (q := sp.InQuery) (l.nodup_slots pg) hn (by simp [hin]) (by simpa using hinn)
    fun b _ hb => by simp [hin, hb]
  have hused := h.used_eq pg hpg
  refine ⟨by omega, h.nodup, h.aligned, fun k' m hk' => ?_, fun k' m hk' => ?_, fun q hq m hm => ?_,
    fun q hq => ?_⟩
  · simp only [SlotPool.forget, find_erase] at hk' ⊢
    split at hk'
    · cases hk'
    · rename_i hne
      have hmn : m ≠ n := fun e => hne ((h.query k' m hk').1.symm.trans (e ▸ (h.query k n hk).1))
      rw [update_of_ne hmn]
      exact h.query k' m hk'
  · simp only [SlotPool.forget, find_insert] at hk' ⊢
    split at hk'
    · rename_i he
      cases hk'
      exact ⟨he, update_self .., pg, hpg, hn⟩
    · rename_i hne
      obtain ⟨rfl, hr, hpage⟩ := h.free k' m hk'
      exact ⟨rfl, (update_of_ne hne _ _).trans hr, hpage⟩
  · rw [hin, h.slot q hq m hm]
    simp only [SlotPool.forget, find_insert]
    split <;> simp_all
  · by_cases hqp : q = pg
    · rw [hqp, update_self]
      omega
    · rw [update_of_ne hqp, h.used_eq q hq]
      refine List.countP_congr fun m hm => ?_
      have hmn : m ≠ n := fun e => hqp (by
        rw [← l.floor_slot (h.aligned q hq) hm, e, l.floor_slot (h.aligned pg hpg) hn])
      simp [hin, hmn]

/-- Taking free slots out of the free tree. -/
theorem dropFree_spec {R : ℕ → ℕ} {S : List ℕ} {T : OrdMap ℕ ℕ} (hS : S.Nodup)
    (h : ∀ s ∈ S, R s = s ∧ T.find s = some s) :
    ∃ T', dropFree R S T = .ok T' ∧ ∀ k, T'.find k = if k ∈ S then none else T.find k := by
  induction S generalizing T with
  | nil => exact ⟨T, rfl, by simp⟩
  | cons s S ih =>
    obtain ⟨hs, hS⟩ := nodup_cons.mp hS
    obtain ⟨hRs, hTs⟩ := h s mem_cons_self
    obtain ⟨T', hok, hT'⟩ := ih (T := T.erase s) hS fun k hk => by
      have hne : k ≠ s := fun e => hs (e ▸ hk)
      simpa [hne] using h k (mem_cons_of_mem _ hk)
    refine ⟨T', ?_, fun k => ?_⟩
    · simp only [dropFree, treeRemove, hRs, hTs, if_true, bind, Except.bind, hok]
    · rw [hT']
      by_cases hk : k = s
      · simp [hk]
      · simp [hk]

/-- A page without a slot in use can go, once its slots are out of the free tree. -/
theorem Divided.dropPage (h : Divided l used sp P) (hpg : pg ∈ P) (hzero : used pg = 0) :
    ∃ T, dropFree sp.rbValue (l.slots pg) sp.freeTree = .ok T ∧
      Divided l used { sp with freeTree := T } (P.erase pg) := by
  have hidle : ∀ n ∈ l.slots pg, ¬ sp.InQuery n := fun n hn => by
    have := List.countP_eq_zero.mp ((h.used_eq pg hpg).symm.trans hzero) n hn
    simpa using this
  have hfree : ∀ n ∈ l.slots pg, sp.rbValue n = n ∧ sp.freeTree.find n = some n := fun n hn => by
    cases hf : sp.freeTree.find n with
    | none => exact absurd ((h.slot pg hpg n hn).mpr hf) (hidle n hn)
    | some m =>
      obtain ⟨rfl, hr, -⟩ := h.free n m hf
      exact ⟨hr, rfl⟩
  obtain ⟨T, hok, hT⟩ := dropFree_spec (l.nodup_slots pg) hfree
  have hmem : ∀ q ∈ P.erase pg, q ∈ P ∧ q ≠ pg := fun q hq =>
    ((h.nodup.mem_erase_iff).mp hq).symm
  have hkeep : ∀ q ∈ P, ∀ n ∈ l.slots q, n ∉ l.slots pg → q ∈ P.erase pg := fun q hq n hn hn' =>
    h.nodup.mem_erase_iff.mpr ⟨fun e => hn' (e ▸ hn), hq⟩
  have hother : ∀ q ∈ P.erase pg, ∀ n ∈ l.slots q, n ∉ l.slots pg := fun q hq n hn hn' => by
    have := l.floor_slot (h.aligned q (hmem q hq).1) hn
    rw [l.floor_slot (h.aligned pg hpg) hn'] at this
    exact (hmem q hq).2 this.symm
  refine ⟨T, hok, h.nodup.erase pg, fun q hq => h.aligned q (hmem q hq).1, fun k n hk => ?_,
    fun k n hk => ?_, fun q hq n hn => ?_, fun q hq => h.used_eq q (hmem q hq).1⟩
  · obtain ⟨hr, q, hq, hn⟩ := h.query k n hk
    exact ⟨hr, q, hkeep q hq n hn fun hn' => hidle n hn' (h.inQuery hk), hn⟩
  · have hk' : T.find k = some n := hk
    rw [hT] at hk'
    split at hk'
    · cases hk'
    · rename_i hout
      obtain ⟨rfl, hr, q, hq, hn⟩ := h.free k n hk'
      exact ⟨rfl, hr, q, hkeep q hq k hn hout, hn⟩
  · refine (h.slot q (hmem q hq).1 n hn).trans ?_
    rw [show T.find n = sp.freeTree.find n by rw [hT, if_neg (hother q hq n hn)]]

/-- **A descriptor is given back**, and with the last one its page. -/
theorem release_spec (h : SlotOk l hdr.usedNum sp P) (hps : ps < 2 ^ 64)
    (hk : sp.queryTree.find k = some n) :
    floorAlignTo n ps ∈ P ∧ ∃ hdr' sp' gone, release l hdr sp n = .ok (hdr', sp', gone) ∧
      SlotOk l hdr'.usedNum sp' (if gone then P.erase (floorAlignTo n ps) else P) ∧
      ∀ q ∉ P, hdr'.usedNum q = hdr.usedNum q := by
  obtain ⟨hrb, pg, hpg, hn⟩ := h.query k n hk
  rw [l.floor_slot (h.aligned pg hpg) hn]
  have hnone : sp.freeTree.find n = none := (h.slot pg hpg n hn).mp (h.inQuery hk)
  have hfloor := l.floor_slot (h.aligned pg hpg) hn
  obtain ⟨hpos, hdiv⟩ := h.toDivided.forget hk hpg hn
  have hsub : Word.sub (hdr.usedNum pg) 1 = hdr.usedNum pg - 1 :=
    Word.sub_of_le hpos (h.used_lt hps hpg)
  have hframe : ∀ q ∉ P, update hdr.usedNum pg (hdr.usedNum pg - 1) q = hdr.usedNum q := by
    intro q hq
    have hne : q ≠ pg := fun e => hq (e ▸ hpg)
    exact update_of_ne hne _ _
  refine ⟨hpg, ?_⟩
  by_cases hlast : hdr.usedNum pg - 1 = 0
  · obtain ⟨T, hok, hdiv'⟩ := hdiv.dropPage hpg (by rw [update_self, hlast])
    refine ⟨unlinkPage (hdr.setUsed pg (hdr.usedNum pg - 1)) pg,
      { sp.forget n k with freeTree := T }, true, ?_, ⟨hdiv', fun q hq => ?_⟩, hframe⟩
    · simp only [release, treeRemove, insertUnwrap, hrb, hk, hnone, hfloor, hsub, if_true, bind,
        Except.bind]
      rw [if_neg (not_not.mpr hlast)]
      simp only [SlotPool.forget] at hok
      rw [hok]
      rfl
    · have hq := h.nodup.mem_erase_iff.mp hq
      have hu : (unlinkPage (hdr.setUsed pg (hdr.usedNum pg - 1)) pg).usedNum q = hdr.usedNum q :=
        update_of_ne hq.1 _ _
      rw [hu]
      exact h.used_pos q hq.2
  · refine ⟨hdr.setUsed pg (hdr.usedNum pg - 1), sp.forget n k, false, ?_, ⟨hdiv, fun q hq => ?_⟩,
      hframe⟩
    · simp only [release, treeRemove, insertUnwrap, hrb, hk, hnone, hfloor, hsub, if_true, bind,
        Except.bind]
      rw [if_pos hlast]
      rfl
    · simp only [Headers.setUsed]
      by_cases hqp : q = pg
      · rw [hqp, update_self]
        omega
      · rw [update_of_ne hqp]
        exact h.used_pos q hq

/-! ## What an operation writes -/

section Writes

variable {hdr' : Headers} {t t' : OrdMap ℕ ℕ} {key node : ℕ} {gone : Bool}

theorem treeRemove_eq_ok (h : treeRemove t key node = .ok t') :
    t.find key = some node ∧ t' = t.erase key := by
  unfold treeRemove at h
  split at h
  · exact ⟨‹_›, (Except.ok.inj h).symm⟩
  · cases h

theorem insertUnwrap_eq_ok (h : insertUnwrap t key node = .ok t') :
    t.find key = none ∧ t' = t.insert key node := by
  unfold insertUnwrap at h
  split at h
  · exact ⟨‹_›, (Except.ok.inj h).symm⟩
  · cases h

/-- What `takeFree` writes. -/
theorem takeFree_eq_ok (h : takeFree ps hdr sp desc ptr d = .ok (hdr', sp')) :
    (hdr'.prev = hdr.prev ∧ hdr'.next = hdr.next) ∧ sp'.poolpgList = sp.poolpgList ∧
      (sp.queryTree.find ptr = none ∧ sp'.queryTree = sp.queryTree.insert ptr desc) ∧
      sp.freeTree.find (sp.rbValue desc) = some desc ∧
      sp'.freeTree = sp.freeTree.erase (sp.rbValue desc) ∧
      sp'.data = update sp.data desc d := by
  obtain ⟨free, hfree, query, hquery, h⟩ := by simpa only [takeFree, bind_eq_ok_iff] using h
  cases h
  obtain ⟨hin, rfl⟩ := treeRemove_eq_ok hfree
  exact ⟨⟨rfl, rfl⟩, rfl, insertUnwrap_eq_ok hquery, hin, rfl, rfl⟩

theorem addFree_eq_ok {slots : List ℕ} (h : addFree slots sp = .ok sp') :
    sp'.poolpgList = sp.poolpgList ∧ sp'.queryTree = sp.queryTree ∧ sp'.data = sp.data ∧
      sp'.freeTree.size = sp.freeTree.size + slots.length := by
  induction slots generalizing sp with
  | nil =>
    cases h
    exact ⟨rfl, rfl, rfl, rfl⟩
  | cons slot slots ih =>
    obtain ⟨free, hfree, h⟩ := of_bind h
    obtain ⟨hnone, rfl⟩ := insertUnwrap_eq_ok hfree
    obtain ⟨hlist, hquery, hdata, hsize⟩ := ih h
    refine ⟨hlist, hquery, hdata, hsize.trans ?_⟩
    rw [size_insert _ hnone, length_cons]
    omega

/-- What `addPage` writes. -/
theorem addPage_eq_ok (h : addPage l hdr sp pg ptr d = .ok (hdr', sp')) :
    hdr' = linkPage hdr sp.poolpgList pg ∧ sp'.poolpgList = some pg ∧
      (sp.queryTree.find ptr = none ∧ sp'.queryTree = sp.queryTree.insert ptr (pg + l.slotsOff)) ∧
      sp'.freeTree.size + 1 = sp.freeTree.size + l.slotsSize ∧
      sp'.data = update sp.data (pg + l.slotsOff) d := by
  obtain ⟨query, hquery, sp₁, hfree, h⟩ := by simpa only [addPage, bind_eq_ok_iff] using h
  cases h
  obtain ⟨hnone, rfl⟩ := insertUnwrap_eq_ok hquery
  obtain ⟨hlist, hq, hdata, hsize⟩ := addFree_eq_ok hfree
  refine ⟨rfl, hlist, ⟨hnone, hq⟩, ?_, hdata⟩
  have hpos := l.size_pos
  rw [hsize, length_tail, l.length_slots]
  simp only
  omega

/-- What `release` writes. -/
theorem release_eq_ok (h : release l hdr sp node = .ok (hdr', sp', gone)) :
    sp'.poolpgList = sp.poolpgList ∧ sp'.queryTree = sp.queryTree.erase (sp.rbValue node) ∧
      sp'.data = sp.data ∧
      (gone = false → hdr'.prev = hdr.prev ∧ hdr'.next = hdr.next) ∧
      (gone = true → hdr'.prev = (unlinkPage hdr (floorAlignTo node ps)).prev ∧
        hdr'.next = (unlinkPage hdr (floorAlignTo node ps)).next) := by
  obtain ⟨query, hquery, free, -, h⟩ := by simpa only [release, bind_eq_ok_iff] using h
  obtain ⟨-, rfl⟩ := treeRemove_eq_ok hquery
  split at h
  · cases h
    exact ⟨rfl, rfl, rfl, fun _ => ⟨rfl, rfl⟩, by simp⟩
  · obtain ⟨free', -, h⟩ := of_bind h
    cases h
    exact ⟨rfl, rfl, rfl, by simp, fun _ => ⟨rfl, rfl⟩⟩

end Writes

/-! ## Writing a payload -/

/-- Writing a payload changes one entry of the view. -/
theorem view_setData (h : Divided l used sp P) (hk : sp.queryTree.find k = some n) (d : ℕ) :
    (sp.setData n d).view = sp.view.insert k d := by
  refine ext_find fun k' => ?_
  rw [find_view, find_insert, find_view]
  simp only [setData]
  split
  · rename_i he
    simp [he, hk]
  · rename_i hne
    cases hk' : sp.queryTree.find k' with
    | none => rfl
    | some m =>
      have hmn : m ≠ n := fun e => hne ((h.query k' m hk').1.symm.trans (e ▸ (h.query k n hk).1))
      simp [update_of_ne hmn]

theorem SlotOk.setData (h : SlotOk l used sp P) (n d : ℕ) : SlotOk l used (sp.setData n d) P :=
  ⟨⟨h.nodup, h.aligned, h.query, h.free, h.slot, h.used_eq⟩, h.used_pos⟩

end SlotPool

end Pbos.Mm
