import Pbos.Freestdc.String

/-!
# Hal/Initcar — the initial archive

The entry loop of `kh_initcar_init` records where the data of a file starts and how long it is
without looking at the end of the image.  That the data lies inside (`entryLoop_files`) comes from
the next entry: its own check, or its flag, is what lets the loop go on.  `kh_initcar_read` is right
as long as the offset lies in the file and the end of the read does not wrap to a place inside it
(`khInitcarRead_iff`).
-/

namespace Pbos.Hal

open Copy Freestdc List

/-- `pbcar_fentry_t`, with the name up to its NUL. -/
structure Fentry where
  filename : List UInt8
  isEnd : Bool
  size : UInt32

/-- An archive in memory: what an entry at an offset would read as, and the sizes of the structures
of the format. -/
structure CarImage where
  ptr : ℕ
  size : ℕ
  -- the loop compares with the size as a `uint32_t`
  size_lt : size < 2 ^ 32
  fentry : ℕ → Fentry
  metadataSize : ℕ
  fentrySize : ℕ
  fentrySize_pos : 0 < fentrySize

/-- `hn_initcar_file_exdata`. -/
structure FileExdata where
  ptr : ℕ
  szTotal : ℕ

/-- What the allocations made for one entry come to. -/
structure EntryGrants where
  fnode : Bool
  filename : Bool
  exdata : Bool
  subnode : Bool

/-- The files linked to `kh_initcar_dir`, by name. -/
abbrev CarDir := List (List UInt8 × FileExdata)

/-- `fs_link_subnode(kh_initcar_dir, file)`. -/
def linkSubnode (dir : CarDir) (name : List UInt8) (f : FileExdata) (granted : Bool) :
    KmResult × CarDir :=
  if name ∈ dir.map Prod.fst then (.existed, dir)
  else if granted then (.ok, dir ++ [(name, f)])
  else (.noMem, dir)

/-- A round of the entry loop; `p` is `p_cur`, relative to the image.  The last entry ends it.  A
panic that prints the name of the file is given its entry. -/
def entryRound (img : CarImage) (g : EntryGrants) (p : ℕ) (dir : CarDir) :
    Except Fault (Option CarDir) :=
  if img.size < p + img.fentrySize then .error (.panic "Prematured end of file\n" [])
  else if (img.fentry p).isEnd then .ok none
  else if !g.fnode || !g.filename then
    .error (.panic "Error creating file object for initcar file: %s\n" [p])
  else if !g.exdata then
    .error (.panic "Error allocating extension data for INITCAR file: %s" [p])
  else
    match linkSubnode dir (img.fentry p).filename
        ⟨img.ptr + (p + img.fentrySize), (img.fentry p).size.toNat⟩ g.subnode with
    | (.ok, dir') => .ok (some dir')
    | _ => .error (.panic "Error mounting initcar file `%s', error code = %x\n" [p])

/-- The entry loop of `kh_initcar_init`. -/
def entryLoop (img : CarImage) (grants : ℕ → EntryGrants) :
    ℕ → ℕ → CarDir → Except Fault CarDir
  | 0, _, _ => .error .hang
  | fuel + 1, p, dir => do
    match ← entryRound img (grants p) p dir with
    | none => .ok dir
    | some dir' => entryLoop img grants fuel (p + img.fentrySize + (img.fentry p).size.toNat) dir'

/-- What a read does: its result, `*bytes_read_out`, and the `memcpy` it ends in. -/
structure CarRead where
  result : KmResult
  bytesRead : ℕ
  src : ℕ
  len : ℕ
  mem : Mem

/-- `kh_initcar_read(fcb, dest, size, off, bytes_read_out)`, for the file `f`. -/
def khInitcarRead (f : FileExdata) (M : Mem) (dest size off : ℕ) : CarRead :=
  let src := (f.ptr + off) % 2 ^ 64
  let copy (result : KmResult) (n : ℕ) : CarRead := ⟨result, n, src, n, memcpy M dest src n⟩
  if f.szTotal < (size + off) % 2 ^ 64 then copy .eof ((f.szTotal + (2 ^ 64 - off)) % 2 ^ 64)
  else copy .ok size

/-! ## The entries -/

namespace CarImage

variable {img : CarImage} {grants : ℕ → EntryGrants} {dir dir' : CarDir} {fuel p k n : ℕ}

/-- **The offset of the `k`-th entry**: each one lies behind the data of the one before. -/
def offset (img : CarImage) : ℕ → ℕ
  | 0 => img.metadataSize
  | k + 1 => img.offset k + img.fentrySize + (img.fentry (img.offset k)).size.toNat

/-- The file of the `k`-th entry. -/
def file (img : CarImage) (k : ℕ) : List UInt8 × FileExdata :=
  ((img.fentry (img.offset k)).filename,
    ⟨img.ptr + (img.offset k + img.fentrySize), (img.fentry (img.offset k)).size.toNat⟩)

/-- **A round** stops the kernel, or its entry is in the image and is the last or adds its file. -/
theorem entryRound_cases (img : CarImage) (g : EntryGrants) (p : ℕ) (dir : CarDir) :
    (∃ fmt args, entryRound img g p dir = .error (.panic fmt args)) ∨
      p + img.fentrySize ≤ img.size ∧
        ((img.fentry p).isEnd = true ∧ entryRound img g p dir = .ok none ∨
          (img.fentry p).isEnd = false ∧ (img.fentry p).filename ∉ dir.map Prod.fst ∧
            entryRound img g p dir = .ok (some (dir ++ [((img.fentry p).filename,
              ⟨img.ptr + (p + img.fentrySize), (img.fentry p).size.toNat⟩)]))) := by
  rw [entryRound]
  split
  · exact .inl ⟨_, _, rfl⟩
  rename_i hin
  cases hend : (img.fentry p).isEnd with
  | true => exact .inr ⟨Nat.not_lt.mp hin, .inl ⟨rfl, rfl⟩⟩
  | false =>
    simp only [Bool.false_eq_true, if_false]
    split
    · exact .inl ⟨_, _, rfl⟩
    split
    · exact .inl ⟨_, _, rfl⟩
    split
    · rename_i hlink
      rw [linkSubnode] at hlink
      split at hlink
      · cases hlink
      rename_i hname
      split at hlink <;> cases hlink
      exact .inr ⟨Nat.not_lt.mp hin, .inr ⟨trivial, hname, rfl⟩⟩
    · exact .inl ⟨_, _, rfl⟩

/-- **The whole loop**: the entries from the `k`-th on, up to the first with the flag, are added,
and that one lies inside the image. -/
theorem entryLoop_eq (h : entryLoop img grants fuel (img.offset k) dir = .ok dir')
    (hnd : (dir.map Prod.fst).Nodup) :
    ∃ n, k ≤ n ∧ (img.fentry (img.offset n)).isEnd = true ∧
      (∀ i, k ≤ i → i < n → (img.fentry (img.offset i)).isEnd = false) ∧
      img.offset n + img.fentrySize ≤ img.size ∧ (dir'.map Prod.fst).Nodup ∧
      dir' = dir ++ (range' k (n - k)).map img.file := by
  induction fuel generalizing k dir with
  | zero => cases h
  | succ fuel ih =>
    obtain ⟨r, hr, h⟩ := of_bind h
    obtain ⟨_, _, hround⟩ | ⟨hin, ⟨hend, hround⟩ | ⟨hend, hname, hround⟩⟩ :=
      entryRound_cases img (grants (img.offset k)) (img.offset k) dir
    all_goals rw [hround] at hr; cases hr
    · cases h
      exact ⟨k, le_rfl, hend, fun i hi hi' => by omega, hin, hnd, by simp⟩
    · obtain ⟨n, hkn, hlast, hbefore, hsize, hnd', rfl⟩ := ih (k := k + 1) h (by
        rw [map_append, nodup_append]
        exact ⟨hnd, by simp, fun a ha b hb e => hname (by simp_all)⟩)
      refine ⟨n, by omega, hlast, fun i hi hi' => ?_, hsize, hnd', ?_⟩
      · obtain rfl | hlt := Nat.eq_or_lt_of_le hi
        · exact hend
        · exact hbefore i hlt hi'
      · rw [show n - k = n - (k + 1) + 1 by omega, append_assoc]
        rfl

theorem offset_le (h : k ≤ n) : img.offset k ≤ img.offset n := by
  induction h with
  | refl => exact Nat.le_refl _
  | step _ ih => exact ih.trans (by rw [offset]; omega)

/-- A round takes at least one byte of the image, so the loop ends. -/
theorem entryLoop_ends (h : img.size < p + fuel) (hfuel : 0 < fuel) :
    (∃ dir', entryLoop img grants fuel p dir = .ok dir') ∨
      ∃ fmt args, entryLoop img grants fuel p dir = .error (.panic fmt args) := by
  induction fuel generalizing p dir with
  | zero => exact absurd hfuel (Nat.lt_irrefl 0)
  | succ fuel ih =>
    have hpos := img.fentrySize_pos
    rw [entryLoop]
    obtain ⟨fmt, args, hround⟩ | ⟨hin, ⟨-, hround⟩ | ⟨-, -, hround⟩⟩ :=
      entryRound_cases img (grants p) p dir
    all_goals rw [hround]
    · exact .inr ⟨fmt, args, rfl⟩
    · exact .inl ⟨dir, rfl⟩
    · exact ih (by omega) (by omega)

end CarImage

/-- The bytes of two files do not meet. -/
def FileExdata.Apart (f g : FileExdata) : Prop :=
  f.ptr + f.szTotal ≤ g.ptr ∨ g.ptr + g.szTotal ≤ f.ptr

/-- **The entry loop** ends, and if it returns, the files linked are those of the entries before the
first one with the flag, each under its own name, with their data inside the image and apart. -/
theorem entryLoop_files (img : CarImage) (grants : ℕ → EntryGrants) :
    ((∃ dir, entryLoop img grants (img.size + 1) img.metadataSize [] = .ok dir) ∨
      ∃ fmt args, entryLoop img grants (img.size + 1) img.metadataSize [] =
        .error (.panic fmt args)) ∧
    ∀ dir, entryLoop img grants (img.size + 1) img.metadataSize [] = .ok dir →
      ∃ n, (img.fentry (img.offset n)).isEnd = true ∧
        (∀ i < n, (img.fentry (img.offset i)).isEnd = false) ∧
        dir = (range n).map img.file ∧ (dir.map Prod.fst).Nodup ∧
        (∀ f ∈ dir, img.ptr ≤ f.2.ptr ∧ f.2.ptr + f.2.szTotal ≤ img.ptr + img.size) ∧
        dir.Pairwise fun f g => f.2.Apart g.2 := by
  refine ⟨CarImage.entryLoop_ends (by omega) (by omega), fun dir h => ?_⟩
  obtain ⟨n, -, hend, hbefore, hin, hnd, rfl⟩ := CarImage.entryLoop_eq (k := 0) h nodup_nil
  rw [Nat.sub_zero, ← range_eq_range'] at hnd ⊢
  have hnext : ∀ {i j}, i < j → (img.file i).2.ptr + (img.file i).2.szTotal ≤
      img.ptr + img.offset j := fun {i j} hij => by
    have : img.offset (i + 1) ≤ img.offset j := CarImage.offset_le hij
    rw [CarImage.offset] at this
    simp only [CarImage.file]
    omega
  refine ⟨n, hend, fun i => hbefore i (Nat.zero_le i), rfl, hnd, fun f hf => ?_, ?_⟩
  · obtain ⟨i, hi, rfl⟩ := mem_map.mp hf
    have := hnext (mem_range.mp hi)
    exact ⟨by simp only [CarImage.file]; omega, by omega⟩
  · refine pairwise_map.mpr (pairwise_lt_range.imp fun {i j} hij => .inl ?_)
    have := hnext hij
    simp only [CarImage.file] at this ⊢
    omega

/-- An archive of two files, of three bytes and of five. -/
def twoFiles : CarImage where
  ptr := 0x100000
  size := 128
  size_lt := by decide
  fentry
    | 16 => ⟨[97], false, 3⟩
    | 51 => ⟨[98], false, 5⟩
    | _ => ⟨[], true, 0⟩
  metadataSize := 16
  fentrySize := 32
  fentrySize_pos := by decide

example : entryLoop twoFiles (fun _ => ⟨true, true, true, true⟩) 129 16 [] =
    .ok [([97], ⟨0x100030, 3⟩), ([98], ⟨0x100053, 5⟩)] := rfl

/-! ## Reading a file -/

/-- **A read is right**: it copies the bytes of the file from `off` on, as many as there are and
were asked for, reads no others, and reports their number. -/
def ReadsRight (f : FileExdata) (M : Mem) (dest size off : ℕ) : Prop :=
  let n := min size (f.szTotal - off)
  let r := khInitcarRead f M dest size off
  r.bytesRead = n ∧ r.len = n ∧ (r.result = .ok ↔ n = size) ∧
    (∀ i < r.len, f.ptr ≤ r.src + i ∧ r.src + i < f.ptr + f.szTotal) ∧
    r.mem = moved dest (f.ptr + off) n M

/-- **When a read is right**: the offset lies in the file, and the end of the read does not wrap to
a place in it. -/
theorem khInitcarRead_iff (f : FileExdata) (M : Mem) {dest size off : ℕ} (hsize : size < 2 ^ 64)
    (hoff : off < 2 ^ 64) (hn : f.ptr + f.szTotal < 2 ^ 64)
    (hapart : dest + size ≤ f.ptr ∨ f.ptr + f.szTotal ≤ dest) :
    ReadsRight f M dest size off ↔
      off ≤ f.szTotal ∧ (size + off < 2 ^ 64 ∨ f.szTotal < (size + off) % 2 ^ 64) := by
  have hsrc : off ≤ f.szTotal → (f.ptr + off) % 2 ^ 64 = f.ptr + off := fun h =>
    Nat.mod_eq_of_lt (by omega)
  have hcopy : ∀ n, n ≤ size → off + n ≤ f.szTotal →
      memcpy M dest (f.ptr + off) n = moved dest (f.ptr + off) n M := fun n hns hin => by
    have hw := words_mul n
    rw [memcpy, copyUp_eq (by omega), hw]
  rw [ReadsRight, khInitcarRead]
  by_cases hover : f.szTotal < (size + off) % 2 ^ 64
  · simp only [if_pos hover]
    refine ⟨fun h => ⟨by have := h.1; omega, .inr hover⟩, fun h => ?_⟩
    have hle := h.1
    have hlen : (f.szTotal + (2 ^ 64 - off)) % 2 ^ 64 = f.szTotal - off := by omega
    have hlt : f.szTotal - off < size := by omega
    rw [hsrc hle, hlen, Nat.min_eq_right hlt.le, hcopy _ hlt.le (by omega)]
    exact ⟨rfl, rfl, ⟨by simp, fun e => absurd e hlt.ne⟩, fun i hi => by omega, rfl⟩
  · simp only [if_neg hover]
    refine ⟨fun h => ⟨by have := h.1; omega, .inl (by omega)⟩, ?_⟩
    rintro ⟨hle, hwrap⟩
    have hin : off + size ≤ f.szTotal := by omega
    rw [hsrc hle, Nat.min_eq_left (by omega), hcopy _ le_rfl hin]
    exact ⟨rfl, rfl, by simp, fun i hi => by omega, rfl⟩

/-- Four bytes are asked for where two are left. -/
theorem khInitcarRead_iff_tail : ReadsRight ⟨4096, 10⟩ (fun _ => 0) 8192 4 8 :=
  (khInitcarRead_iff ⟨4096, 10⟩ (fun _ => 0) (by decide) (by decide) (by decide)
    (.inr (by decide))).mpr (by decide)

/-- Behind the end of a file of ten bytes, `2 ^ 64 - 1` bytes are copied; and at an offset of
`2 ^ 64 - 1`, the byte in front of the file. -/
theorem khInitcarRead_outside :
    let r := khInitcarRead ⟨4096, 10⟩ (fun _ => 0) 8192 1 11
    let r' := khInitcarRead ⟨4096, 10⟩ (fun _ => 0) 8192 1 (2 ^ 64 - 1)
    r.len = 2 ^ 64 - 1 ∧ r.bytesRead = 2 ^ 64 - 1 ∧ r'.result = .ok ∧ r'.len = 1 ∧
      r'.src = 4095 := by
  decide

end Pbos.Hal
