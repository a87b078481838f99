import Pbos.Hal.Init
import Pbos.Hal.VmMap
import Pbos.Mm.PgallocRuns

/-!
# Mm/Frames — page tables over the page allocator

`pgPlatform` runs the page table walks on the allocator of `Mm/Pgalloc`.  The frames it has left to
give are no tables and have an address in the direct map (`FreePages`); a walk keeps that, since a
frame that becomes a table is taken off its list (`freshUnder_freePages`).
-/

namespace Pbos.Mm

open Pbos.Hal Radix DList

/-- The walks of the kernel, over the allocator of the areas `P`. -/
def pgPlatform (P : PmadTree) (ndebug : Bool) (direct : Frame → Bool)
    (tmpmap : Frame → Mem → Except Fault Mem) : Platform PgState where
  ndebug := ndebug
  direct := direct
  tmpmap := tmpmap
  pgalloc _ s := mmPgalloc P s MM_PHYSICAL_MEMORY_TYPE_AVAILABLE
  pgfree s ptr := mmPgfree P s ptr

/-- A page whose number fits an entry. -/
def IsPage (addr : ℕ) : Prop := addr % 4096 = 0 ∧ addr < 2 ^ 52

theorem IsPage.unpgaddr_pgRoundDown {addr : ℕ} (h : IsPage addr) :
    unpgaddr (pgRoundDown addr) = addr := Hal.unpgaddr_pgRoundDown h.1 h.2

variable {P : PmadTree} {direct : Frame → Bool} {root : Frame} {mem : Mem} {pg pg' : PgState}

/-- The free pages of usable memory, listed by `L`, are pages, in the direct map, and no tables. -/
structure FreeAt (P : PmadTree) (direct : Frame → Bool) (isTable : Frame → Prop) (pg : PgState)
    (L : ℕ → List ℕ) : Prop where
  lists : StaleFree P pg L
  page : ∀ {area pmad mad}, P.tree.find area = some pmad →
    pmad.type = MM_PHYSICAL_MEMORY_TYPE_AVAILABLE → mad ∈ L area → IsPage (P.rbValue mad)
  direct : ∀ {area pmad mad}, P.tree.find area = some pmad →
    pmad.type = MM_PHYSICAL_MEMORY_TYPE_AVAILABLE → mad ∈ L area →
    direct (pgRoundDown (P.rbValue mad)) = true
  apart : ∀ {area pmad mad}, P.tree.find area = some pmad →
    pmad.type = MM_PHYSICAL_MEMORY_TYPE_AVAILABLE → mad ∈ L area →
    ¬ isTable (pgRoundDown (P.rbValue mad))

variable (P direct root) in
/-- The pages that `mm_pgalloc` has left are no tables of the context. -/
def FreePages (mem : Mem) (pg : PgState) : Prop := ∃ L, FreeAt P direct (Table mem root) pg L

section FreeAt

variable {isTable isTable' : Frame → Prop} {L : ℕ → List ℕ}

section

variable (h : FreeAt P direct isTable pg L)

include h

theorem FreeAt.congr (heq : ∀ f, isTable' f → isTable f) : FreeAt P direct isTable' pg L :=
  ⟨h.lists, h.page, h.direct, fun hfind htype hmem ht => h.apart hfind htype hmem (heq _ ht)⟩

/-- Freeing a page puts nothing on a list. -/
theorem FreeAt.pgfree {addr : ℕ} (hfree : mmPgfree P pg addr = .ok pg') :
    FreeAt P direct isTable pg' L := by
  refine ⟨?_, h.page, h.direct, h.apart⟩
  obtain ⟨mad, hmad, ⟨-, rfl⟩ | ⟨h1, rfl⟩ | ⟨h1, rfl⟩⟩ := kiSetPageFree_cases hfree
  · exact h.lists
  · exact h.lists.link (PmadTree.isMad_of_khGetMad hmad).1 (by omega)
  · exact h.lists.setRefCount (by omega)

/-- The first reference to a page takes it off its list. -/
theorem FreeAt.unlink {area mad n : ℕ} (hmad : P.IsMad area mad) :
    FreeAt P direct isTable (unlinkFree (pg.setRefCount mad n) area mad) fun b => (L b).erase mad :=
  ⟨h.lists.unlink hmad, fun hf ht hm => h.page hf ht (List.mem_of_mem_erase hm),
    fun hf ht hm => h.direct hf ht (List.mem_of_mem_erase hm),
    fun hf ht hm => h.apart hf ht (List.mem_of_mem_erase hm)⟩

/-- **A page that is handed out** was no table; the pages left are no tables even if it is one. -/
theorem FreeAt.pgalloc {addr : ℕ}
    (hcall : mmPgalloc P pg MM_PHYSICAL_MEMORY_TYPE_AVAILABLE = .ok (addr, pg')) (h0 : addr ≠ 0) :
    IsPage addr ∧ direct (pgRoundDown addr) = true ∧ ¬ isTable (pgRoundDown addr) ∧
      ∃ L', FreeAt P direct (fun f => isTable f ∨ f = pgRoundDown addr) pg' L' ∧
        ∀ b, L' b ⊆ L b := by
  obtain ⟨area, pmad, mad, hfind, htype, hmem, hmad, rfl, rfl⟩ := h.lists.pgalloc_eq hcall h0
  have hleft := h.unlink (n := 1) hmad
  refine ⟨h.page hfind htype hmem, h.direct hfind htype hmem, h.apart hfind htype hmem,
    fun b => (L b).erase mad, ⟨hleft.lists, hleft.page, hleft.direct, ?_⟩,
    fun _ => List.erase_subset⟩
  rintro b pmad' mad' hf ht hm (htable | heq)
  · exact hleft.apart hf ht hm htable
  · have hm' := List.mem_of_mem_erase hm
    have hrb : P.rbValue mad' = P.rbValue mad := by
      rw [← (h.page hf ht hm').unpgaddr_pgRoundDown, heq,
        (h.page hfind htype hmem).unpgaddr_pgRoundDown]
    have hsame : mad' = mad := by
      have hget := h.lists.found b mad' hm'
      rw [hrb, h.lists.found area mad hmem] at hget
      exact (Except.ok.inj hget).symm
    exact (h.lists.nodup b).mem_erase_iff.mp hm |>.1 hsame

/-- Handing out a page of any type leaves the free pages apart from the tables. -/
theorem FreeAt.pgalloc_any {t : UInt8} {addr : ℕ} (hcall : mmPgalloc P pg t = .ok (addr, pg')) :
    ∃ L', FreeAt P direct isTable pg' L' := by
  by_cases h0 : addr = 0
  · obtain ⟨-, ⟨-, rfl⟩ | ⟨hne, -⟩⟩ := mmPgalloc_cases hcall
    · exact ⟨L, h⟩
    · exact absurd h0 hne
  · obtain ⟨area, pmad, mad, -, -, -, hmad, -, rfl⟩ := h.lists.pgalloc_eq hcall h0
    exact ⟨_, h.unlink hmad⟩

end

end FreeAt

/-- **The walks keep the free pages apart from the tables.** -/
theorem freshUnder_freePages {ndebug : Bool} {tmpmap : Frame → Mem → Except Fault Mem} :
    (pgPlatform P ndebug direct tmpmap).FreshUnder root (FreePages P direct root) where
  alloc {mem pg pg' page} h hpage hne := by
    obtain ⟨L, h⟩ := h
    obtain ⟨-, hdirect, htable, -⟩ := h.pgalloc hpage fun h0 => hne (by rw [h0]; rfl)
    exact ⟨htable, hdirect⟩
  link {mem pg pg' page α f x} h hpage hne ht hα hlen hnone := by
    obtain ⟨L, h⟩ := h
    obtain ⟨-, -, hfresh, L', h', -⟩ := h.pgalloc hpage fun h0 => hne (by rw [h0]; rfl)
    exact ⟨L', h'.congr fun g hg => (isTable_link_iff ht hα hlen (Entry.child_eq_none hnone)
      (child_tableEntry _) Entry.child_zero hfresh).mp hg⟩
  free h hfree := h.imp fun L h => h.pgfree hfree
  put {mem pg q f} e h ht hf := by
    obtain ⟨L, h⟩ := h
    exact ⟨L, h.congr fun g hg => (isTable_congr fun _ hπ => follow_write ht hf rfl hπ).mp hg⟩

end Pbos.Mm
