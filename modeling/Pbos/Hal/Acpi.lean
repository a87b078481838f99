import Pbos.Km.Panic
import Pbos.Lib.Word

/-!
# Hal/Acpi — the ACPI tables

`ki_acpi_rsdt_length` counts entries of four bytes, while `ki_acpi_rsdt_paddr_at` reads entries of
eight at revision 2, so the two agree at revision 0 only (`entries_iff`).  The walk of
`kh_mp_init_topology` through the MADT believes the length each record gives for itself, and counts
right exactly if the records end with the table (`topology_iff`).
-/

namespace Pbos.Hal

open List

/-- A mapped table: the `acpi_sdt_header_t` and what follows it, as long as `length` says. -/
structure Sdt where
  bytes : List UInt8
  header_le : 36 ≤ bytes.length
  length_lt : bytes.length < 2 ^ 32

/-- The number that bytes stand for, the lowest first. -/
def leValue (bs : List UInt8) : ℕ := bs.foldr (fun b n => b.toNat + 256 * n) 0

namespace Sdt

variable (t : Sdt)

/-- The field `length` of the header. -/
def length : ℕ := t.bytes.length

/-- A read of `w` bytes, which must lie in the table. -/
def read (off w : ℕ) : Except Fault ℕ :=
  if off + w ≤ t.length then .ok (leValue ((t.bytes.drop off).take w)) else .error .undefined

/-- `!memcmp(sdt->signature, "APIC", sizeof(sdt->signature))`. -/
def isMadt : Bool := t.bytes.take 4 = [0x41, 0x50, 0x49, 0x43]

end Sdt

variable {t : Sdt}

/-! ## The root table -/

/-- `ki_acpi_rsdt_length()`, with `t` at `ki_acpi_rsdt_vaddr`. -/
def kiAcpiRsdtLength (t : Sdt) : ℕ := Word.sub t.length 36 / 4 % 2 ^ 32

/-- `ki_acpi_rsdt_paddr_at(index)`, at the revision in the RSDP. -/
def kiAcpiRsdtPaddrAt (revision : ℕ) (t : Sdt) (index : ℕ) : Except Fault ℕ :=
  if ¬ index < kiAcpiRsdtLength t then .error (.panic "ACPI RSDT out of range" [])
  else match revision with
    | 0 =>
      if ¬ index ≤ 2 ^ 32 - 1 then .error (.panic "Invalid index for RSDT" [])
      else t.read (36 + 4 * index) 4
    | 2 => t.read (36 + 8 * index) 8
    | _ => .error .undefined

/-- **What is asked of the two**, for entries of `w` bytes: the whole entries are counted, and each
one that is counted can be read. -/
structure Sdt.Entries (t : Sdt) (revision w : ℕ) : Prop where
  count : ∀ i, i < kiAcpiRsdtLength t ↔ 36 + w * (i + 1) ≤ t.length
  entry : ∀ i < kiAcpiRsdtLength t,
    kiAcpiRsdtPaddrAt revision t i = .ok (leValue (((t.bytes.drop 36).drop (w * i)).take w))

theorem kiAcpiRsdtLength_eq : kiAcpiRsdtLength t = (t.length - 36) / 4 := by
  have hle : 36 ≤ t.length := t.header_le
  have hlt : t.length < 2 ^ 32 := t.length_lt
  rw [kiAcpiRsdtLength, Word.sub_of_le hle (by omega)]
  omega

/-- **The entries of the root table are counted and read right** at revision 0, and at revision 2
only if there are none. -/
theorem entries_iff (t : Sdt) : t.Entries 0 4 ∧ (t.Entries 2 8 ↔ t.length < 40) := by
  have hlt : t.length < 2 ^ 32 := t.length_lt
  refine ⟨⟨fun i => ?_, fun i hi => ?_⟩, fun h => ?_, fun h => ⟨fun i => ?_, fun i hi => ?_⟩⟩
  · rw [kiAcpiRsdtLength_eq]
    omega
  · rw [kiAcpiRsdtPaddrAt, if_neg (not_not.mpr hi)]
    rw [kiAcpiRsdtLength_eq] at hi
    rw [if_neg (by omega), Sdt.read, if_pos (by omega), drop_drop]
  · by_contra hlong
    have hlast := (h.count (kiAcpiRsdtLength t - 1)).mp (by rw [kiAcpiRsdtLength_eq]; omega)
    rw [kiAcpiRsdtLength_eq] at hlast
    omega
  · rw [kiAcpiRsdtLength_eq]
    omega
  · rw [kiAcpiRsdtLength_eq] at hi
    omega

/-- One entry of eight bytes. -/
def oneEntry : Sdt := ⟨replicate 36 0 ++ [0, 0, 0, 0x80, 0, 0, 0, 0], by decide, by decide⟩

/-- The one entry is counted twice, and the second is read behind the end of the table. -/
theorem rsdt_overread : kiAcpiRsdtLength oneEntry = 2 ∧
    kiAcpiRsdtPaddrAt 2 oneEntry 0 = .ok 0x80000000 ∧
      kiAcpiRsdtPaddrAt 2 oneEntry 1 = .error .undefined := by decide

/-! ## The processors in the MADT -/

/-- The cases of the switch: `lapic_num` and `lx2apic_num`, which cannot wrap, as a table has fewer
bytes.  What is printed of a record is read, too. -/
def countRecord (t : Sdt) (off : ℕ) (num : ℕ × ℕ) : ℕ → Except Fault (ℕ × ℕ)
  | 0x00 => (t.read (off + 2) 1).map fun _ => (num.1 + 1, num.2)
  | 0x09 => (t.read (off + 4) 4).map fun _ => (num.1, num.2 + 1)
  | _ => .ok num

/-- The record walk. -/
def madtLoop (t : Sdt) : ℕ → ℕ → ℕ × ℕ → Except Fault (ℕ × ℕ)
  | 0, _, _ => .error .hang
  | fuel + 1, off, num =>
    if off < t.length then do
      let entryType ← t.read off 1
      let num ← countRecord t off num entryType
      let recordLength ← t.read (off + 1) 1
      madtLoop t fuel (off + recordLength) num
    else .ok num

/-- `kh_mp_init_topology()`: the tables at `ki_mapped_acpi_rsdt_entries`, and `mp_num_total_cpu`
afterwards. -/
def khMpInitTopology (available : Bool) (tables : List Sdt) (fuel : ℕ) : Except Fault ℕ :=
  if available then do
    let (lapicNum, lx2apicNum) ← match tables.find? Sdt.isMadt with
      | some t => madtLoop t fuel 44 (0, 0)
      | none => .ok (0, 0)
    if lapicNum = 0 ∧ lx2apicNum = 0 then
      .error (.panic "The ACPI root tables does not contain MADT table" [])
    else .ok (if lx2apicNum ≠ 0 then lx2apicNum else lapicNum)
  else .error (.panic "Unable to detect CPU topology" [])

/-- The bytes of a record of a type that are looked at. -/
def extent : ℕ → ℕ
  | 0x00 => 3
  | 0x09 => 8
  | _ => 2

/-- **The types of the consecutive records** from an offset to the end of the table.  There is no
such list if a record is cut off by the end or has the length zero. -/
inductive Sdt.Records (t : Sdt) : ℕ → List ℕ → Prop
  | nil {off : ℕ} : t.length ≤ off → Records t off []
  | cons {off entryType recordLength : ℕ} {ts : List ℕ} : off + extent entryType ≤ t.length →
    t.read off 1 = .ok entryType → t.read (off + 1) 1 = .ok recordLength →
    Records t (off + recordLength) ts → Records t off (entryType :: ts)

/-- The processors that records announce: by their x2APIC records, if there are any. -/
def cpuCount (ts : List ℕ) : ℕ := if 0x09 ∈ ts then ts.count 0x09 else ts.count 0x00

theorem two_le_extent (ty : ℕ) : 2 ≤ extent ty := by
  unfold extent
  split <;> decide

theorem Sdt.read_eq_ok {off w v : ℕ} (h : t.read off w = .ok v) : off + w ≤ t.length := by
  unfold Sdt.read at h
  split_ifs at h with hle
  exact hle

theorem Sdt.Records.unique {off : ℕ} {ts ts' : List ℕ} (h : t.Records off ts)
    (h' : t.Records off ts') : ts = ts' := by
  induction h generalizing ts' with
  | nil hend =>
    cases h' with
    | nil => rfl
    | @cons _ ty =>
      have := two_le_extent ty
      omega
  | @cons off ty _ _ hext hty hlen _ ih =>
    cases h' with
    | nil hend =>
      have := two_le_extent ty
      omega
    | cons _ hty' hlen' hrest =>
      cases hty.symm.trans hty'
      cases hlen.symm.trans hlen'
      rw [ih hrest]

theorem countRecord_eq {off ty : ℕ} (num : ℕ × ℕ) (h : off + extent ty ≤ t.length) :
    countRecord t off num ty = .ok (num.1 + [ty].count 0x00, num.2 + [ty].count 0x09) := by
  unfold countRecord
  split <;> simp_all [extent, Sdt.read, Except.map, Nat.add_assoc]

/-- The walk counts the records of the table. -/
theorem madtLoop_of_records {off : ℕ} {ts : List ℕ} (h : t.Records off ts) (num : ℕ × ℕ) :
    ∃ fuel, madtLoop t fuel off num = .ok (num.1 + ts.count 0x00, num.2 + ts.count 0x09) := by
  induction h generalizing num with
  | nil hend => exact ⟨1, if_neg (not_lt.mpr hend)⟩
  | @cons off ty recordLength ts hext hty hlen _ ih =>
    obtain ⟨fuel, hfuel⟩ := ih (num.1 + [ty].count 0x00, num.2 + [ty].count 0x09)
    have hoff : off < t.length := by
      have := two_le_extent ty
      omega
    refine ⟨fuel + 1, ?_⟩
    rw [madtLoop, if_pos hoff, hty]
    change (countRecord t off num ty >>= _) = _
    rw [countRecord_eq num hext, show ty :: ts = [ty] ++ ts from rfl, count_append, count_append,
      ← Nat.add_assoc, ← Nat.add_assoc, ← hfuel]
    rw [hlen]
    rfl

/-- What is looked at of a record that is counted lies in the table. -/
theorem extent_le_of_countRecord {off ty v : ℕ} {num num' : ℕ × ℕ}
    (h : countRecord t off num ty = .ok num') (hlen : t.read (off + 1) 1 = .ok v) :
    off + extent ty ≤ t.length := by
  have hle := Sdt.read_eq_ok hlen
  unfold countRecord at h
  split at h
  · obtain ⟨_, hread, -⟩ := map_eq_ok_iff.mp h
    have := Sdt.read_eq_ok hread
    rw [extent]
    omega
  · obtain ⟨_, hread, -⟩ := map_eq_ok_iff.mp h
    have := Sdt.read_eq_ok hread
    rw [extent]
    omega
  · simp_all [extent]
    omega

/-- A walk that returns has gone over the records of the table. -/
theorem records_of_madtLoop {fuel off : ℕ} {num num' : ℕ × ℕ}
    (h : madtLoop t fuel off num = .ok num') :
    ∃ ts, t.Records off ts ∧ num' = (num.1 + ts.count 0x00, num.2 + ts.count 0x09) := by
  induction fuel generalizing off num with
  | zero => cases h
  | succ fuel ih =>
    rw [madtLoop] at h
    split_ifs at h with hoff
    · obtain ⟨ty, hty, h⟩ := of_bind h
      obtain ⟨num₁, hcount, h⟩ := of_bind h
      obtain ⟨recordLength, hlen, h⟩ := of_bind h
      have hext := extent_le_of_countRecord hcount hlen
      obtain ⟨ts, hts, rfl⟩ := ih h
      obtain rfl := Except.ok.inj (hcount.symm.trans (countRecord_eq num hext))
      refine ⟨ty :: ts, .cons hext hty hlen hts, ?_⟩
      rw [show ty :: ts = [ty] ++ ts from rfl, count_append, count_append, Nat.add_assoc,
        Nat.add_assoc]
    · cases h
      exact ⟨[], .nil (not_lt.mp hoff), rfl⟩

/-- **`kh_mp_init_topology` finds the processors of a MADT** exactly if its records end with the
table and announce one. -/
theorem topology_iff {tables : List Sdt} (ht : tables.find? Sdt.isMadt = some t) :
    (∃ fuel cpus, khMpInitTopology true tables fuel = .ok cpus ∧
      ∀ ts, t.Records 44 ts → cpus = cpuCount ts) ↔
    ∃ ts, t.Records 44 ts ∧ 0 < cpuCount ts := by
  constructor
  · rintro ⟨fuel, cpus, hcall, -⟩
    rw [khMpInitTopology, ht] at hcall
    obtain ⟨num, hloop, hcpus⟩ := of_bind hcall
    obtain ⟨ts, hts, rfl⟩ := records_of_madtLoop hloop
    refine ⟨ts, hts, ?_⟩
    have hsome : 0x00 ∈ ts ∨ 0x09 ∈ ts := by
      by_contra hnone
      rw [not_or] at hnone
      simp [count_eq_zero.mpr hnone.1, count_eq_zero.mpr hnone.2] at hcpus
    rw [cpuCount]
    split_ifs with hx2apic
    · exact count_pos_iff.mpr hx2apic
    · exact count_pos_iff.mpr (hsome.resolve_right hx2apic)
  · rintro ⟨ts, hts, hpos⟩
    obtain ⟨fuel, hfuel⟩ := madtLoop_of_records hts (0, 0)
    refine ⟨fuel, cpuCount ts, ?_, fun ts' hts' => by rw [hts.unique hts']⟩
    rw [khMpInitTopology, ht]
    refine bind_eq_ok_iff.mpr ⟨_, hfuel, ?_⟩
    rw [cpuCount] at hpos ⊢
    simp only [Nat.zero_add, ne_eq, count_eq_zero]
    split_ifs at hpos ⊢ <;> simp_all

/-- A MADT with the records given. -/
def madt (records : List UInt8) (h : records.length < 256) : Sdt where
  bytes := [0x41, 0x50, 0x49, 0x43] ++ replicate 40 0 ++ records
  header_le := by simp
  length_lt := by simp; omega

theorem topology_iff_oneCpu : ∃ fuel cpus, khMpInitTopology true
    [madt [0, 8, 0, 0, 1, 0, 0, 0] (by decide)] fuel = .ok cpus ∧
      ∀ ts, (madt [0, 8, 0, 0, 1, 0, 0, 0] (by decide)).Records 44 ts → cpus = cpuCount ts :=
  (topology_iff rfl).mpr ⟨[0x00], .cons (by decide) rfl rfl (.nil (by decide)), by decide⟩

/-- A record of length zero is walked for ever, and a record of one byte is read beyond the end. -/
theorem topology_malformed :
    (∀ fuel, khMpInitTopology true [madt [2, 0] (by decide)] fuel = .error .hang) ∧
      khMpInitTopology true [madt [2] (by decide)] 1 = .error .undefined := by
  refine ⟨fun fuel => ?_, by decide⟩
  have hloop : madtLoop (madt [2, 0] (by decide)) fuel 44 (0, 0) = .error .hang := by
    induction fuel with
    | zero => rfl
    | succ fuel ih => exact ih
  change (madtLoop _ fuel 44 (0, 0) >>= _) = _
  rw [hloop]
  rfl

end Pbos.Hal
