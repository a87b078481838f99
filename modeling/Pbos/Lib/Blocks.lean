import Pbos.Lib.OrdMap

/-!
# Lib/Blocks — disjoint blocks of an address space

A set of blocks is a map from the first address of a block to its length.  Blocks that do not
overlap are found by looking at two neighbours only (`Apart.clear_of_nearest`): the last block that
starts at or below the first byte of a candidate, and the last one that starts at or below its last
byte.  `meets` counts the blocks that meet a window.
-/

/-- Blocks: first address to length. -/
abbrev Blocks := OrdMap ℕ ℕ

namespace Blocks

/-- Two half-open intervals overlap. -/
def Overlap (a an b bn : ℕ) : Prop := a < b + bn ∧ b < a + an

instance (a an b bn : ℕ) : Decidable (Overlap a an b bn) := inferInstanceAs (Decidable (_ ∧ _))

theorem Overlap.symm {a an b bn : ℕ} (h : Overlap a an b bn) : Overlap b bn a an := ⟨h.2, h.1⟩

/-- For blocks that are not empty, not to overlap is to share no address. -/
theorem disjoint_Ico_of_not_overlap {a an b bn : ℕ} (h : ¬ Overlap a an b bn) :
    Disjoint (Set.Ico a (a + an)) (Set.Ico b (b + bn)) := by
  refine Set.disjoint_left.mpr fun x hx hy => h ?_
  simp only [Set.mem_Ico] at hx hy
  exact ⟨by omega, by omega⟩

/-- The blocks are not empty, and no two of them overlap. -/
structure Apart (m : Blocks) : Prop where
  pos : ∀ k n, m.find k = some n → 0 < n
  apart : ∀ k n k' n', m.find k = some n → m.find k' = some n' → k ≠ k' → ¬ Overlap k n k' n'

variable {m : Blocks} {k n x : ℕ} {k s p w : ℕ}

theorem apart_empty : Apart OrdMap.empty := ⟨by simp, by simp⟩

theorem apart_iff : Apart m ↔ ∀ e ∈ m.entries, 0 < e.2 ∧
    ∀ e' ∈ m.entries, e.1 ≠ e'.1 → ¬ Overlap e.1 e.2 e'.1 e'.2 := by
  constructor
  · intro h e he
    exact ⟨h.pos e.1 e.2 (m.find_of_mem he), fun e' he' hne =>
      h.apart e.1 e.2 e'.1 e'.2 (m.find_of_mem he) (m.find_of_mem he') hne⟩
  · intro h
    refine ⟨fun k n hk => (h (k, n) (m.find_eq_some_iff.mp hk)).1, fun k n k' n' hk hk' hne => ?_⟩
    exact (h (k, n) (m.find_eq_some_iff.mp hk)).2 (k', n') (m.find_eq_some_iff.mp hk') hne

instance (m : Blocks) : Decidable (Apart m) := decidable_of_iff _ apart_iff.symm

section

variable (h : Apart m)

include h

/-- A block that overlaps none can be added. -/
theorem Apart.insert (hn : 0 < n) (hclear : ∀ k' n', m.find k' = some n' → ¬ Overlap k n k' n') :
    Apart (m.insert k n) := by
  refine ⟨fun a an ha => ?_, fun a an b bn ha hb hab => ?_⟩
  · rw [OrdMap.find_insert] at ha
    split at ha
    · cases ha
      exact hn
    · exact h.pos a an ha
  · rw [OrdMap.find_insert] at ha hb
    by_cases hak : a = k
    · subst hak
      rw [if_pos rfl, Option.some.injEq] at ha
      rw [if_neg hab.symm] at hb
      exact ha ▸ hclear b bn hb
    · rw [if_neg hak] at ha
      by_cases hbk : b = k
      · subst hbk
        rw [if_pos rfl, Option.some.injEq] at hb
        exact hb ▸ fun ho => hclear a an ha ho.symm
      · rw [if_neg hbk] at hb
        exact h.apart a an b bn ha hb hab

/-- Dropping a block. -/
theorem Apart.erase (k : ℕ) : Apart (m.erase k) := by
  have hfind : ∀ a an, (m.erase k).find a = some an → m.find a = some an := fun a an ha => by
    rw [OrdMap.find_erase] at ha
    split at ha
    · cases ha
    · exact ha
  exact ⟨fun a an ha => h.pos a an (hfind a an ha), fun a an b bn ha hb =>
    h.apart a an b bn (hfind a an ha) (hfind b bn hb)⟩

/-- **Two neighbours are enough, but for one block.**  A candidate that may overlap the block at `o`
overlaps no other one if it overlaps neither the block nearest to its first byte nor the one nearest
to its last byte.  When `o` is a neighbour it hides the blocks before it, so none of those may start
inside the candidate. -/
theorem Apart.clear_of_nearest_but (hn : 0 < n) {o : ℕ}
    (hfirst : ∀ e, m.findMaxLteq x = some e → e.1 ≠ o → ¬ Overlap x n e.1 e.2)
    (hlast : ∀ e, m.findMaxLteq (x + n - 1) = some e → e.1 ≠ o → ¬ Overlap x n e.1 e.2)
    (hbetween : o < x + n → ∀ k s, m.find k = some s → ¬ (x < k ∧ k < o)) (hk : m.find k = some s)
    (hko : k ≠ o) : ¬ Overlap x n k s := by
  have hmem : (k, s) ∈ m.entries := m.find_eq_some_iff.mp hk
  rcases le_or_gt k x with hkx | hxk
  · cases he : m.findMaxLteq x with
    | none => exact absurd hkx (not_le.mpr (m.findMaxLteq_eq_none_iff.mp he _ hmem))
    | some e =>
      obtain ⟨hem, hex, hmax⟩ := m.findMaxLteq_eq_some_iff.mp he
      have hes := m.find_of_mem hem
      have hke : k ≤ e.1 := hmax _ hmem hkx
      by_cases heq : k = e.1
      · have hse : s = e.2 := by
          rw [← heq, hk] at hes
          exact Option.some.inj hes
        rw [heq, hse]
        exact hfirst e he (heq ▸ hko)
      · have hap := h.apart k s e.1 e.2 hk hes heq
        simp only [Overlap] at hap ⊢
        omega
  · intro ho
    have hle : k ≤ x + n - 1 := by
      have := ho.2
      omega
    cases he : m.findMaxLteq (x + n - 1) with
    | none => exact absurd hle (not_le.mpr (m.findMaxLteq_eq_none_iff.mp he _ hmem))
    | some e =>
      obtain ⟨hem, hex, hmax⟩ := m.findMaxLteq_eq_some_iff.mp he
      have hke : k ≤ e.1 := hmax _ hmem hle
      by_cases heo : e.1 = o
      · exact hbetween (by omega) k s hk ⟨hxk, by omega⟩
      · exact hlast e he heo ⟨by omega, by omega⟩

/-- **Two neighbours are enough.**  A candidate that overlaps neither the block nearest to its first
byte nor the one nearest to its last byte overlaps no block at all. -/
theorem Apart.clear_of_nearest (hn : 0 < n)
    (hfirst : ∀ e, m.findMaxLteq x = some e → ¬ Overlap x n e.1 e.2)
    (hlast : ∀ e, m.findMaxLteq (x + n - 1) = some e → ¬ Overlap x n e.1 e.2)
    (hk : m.find k = some s) : ¬ Overlap x n k s := by
  by_cases hend : k = x + n
  · exact fun ho => absurd ho.2 (by omega)
  · exact h.clear_of_nearest_but hn (fun e he _ => hfirst e he) (fun e he _ => hlast e he)
      (fun hlt => absurd hlt (lt_irrefl _)) hk hend

/-- **Ends are enough where nothing lies inside.**  If the block nearest to the first byte ends
before it, the one nearest to the last byte ends before that, and no block starts after the first
byte and ends before the last, then no block overlaps. -/
theorem Apart.clear_of_ends (hn : 0 < n) (hfirst : ∀ e, m.findMaxLteq x = some e → e.1 + e.2 ≤ x)
    (hlast : ∀ e, m.findMaxLteq (x + n - 1) = some e → e.1 + e.2 < x + n)
    (hinside : ∀ k s, m.find k = some s → ¬ (x < k ∧ k + s < x + n)) (hk : m.find k = some s) :
    ¬ Overlap x n k s := by
  refine h.clear_of_nearest hn (fun e he ho => ?_) (fun e he ho => ?_) hk
  · have := hfirst e he
    have := ho.1
    omega
  · obtain ⟨hem, hex, hmax⟩ := m.findMaxLteq_eq_some_iff.mp he
    rcases le_or_gt e.1 x with hle | hgt
    · have he' : m.findMaxLteq x = some e :=
        m.findMaxLteq_eq_some_iff.mpr ⟨hem, hle, fun a ha hax => hmax a ha (by omega)⟩
      have := hfirst e he'
      have := ho.1
      omega
    · exact hinside e.1 e.2 (m.find_of_mem hem) ⟨hgt, hlast e he⟩

/-- **Cutting a block in two.** -/
theorem Apart.split (hk : m.find k = some n) (hlo : k < x) (hhi : x < k + n) :
    Apart ((m.insert x (k + n - x)).modify k fun _ => x - k) := by
  have hfind : ∀ a an, ((m.insert x (k + n - x)).modify k fun _ => x - k).find a = some an →
      (a = k ∧ an = x - k) ∨ (a = x ∧ an = k + n - x) ∨ (a ≠ k ∧ m.find a = some an) := by
    intro a an ha
    rw [OrdMap.find_modify, OrdMap.find_insert] at ha
    by_cases hak : a = k
    · subst hak
      rw [if_pos rfl, if_neg hlo.ne, hk] at ha
      exact .inl ⟨rfl, (Option.some.inj ha).symm⟩
    · rw [if_neg hak] at ha
      by_cases hax : a = x
      · rw [if_pos hax] at ha
        exact .inr (.inl ⟨hax, (Option.some.inj ha).symm⟩)
      · rw [if_neg hax] at ha
        exact .inr (.inr ⟨hak, ha⟩)
  refine ⟨fun a an ha => ?_, fun a an b bn ha hb hab => ?_⟩
  · obtain ⟨-, rfl⟩ | ⟨-, rfl⟩ | ⟨-, ha⟩ := hfind a an ha
    · omega
    · omega
    · exact h.pos a an ha
  · replace ha := hfind a an ha
    replace hb := hfind b bn hb
    rcases ha with ⟨rfl, rfl⟩ | ⟨rfl, rfl⟩ | ⟨hak, ha⟩ <;>
      rcases hb with ⟨rfl, rfl⟩ | ⟨rfl, rfl⟩ | ⟨hbk, hb⟩
    · exact absurd rfl hab
    · simp only [Overlap]; omega
    · have := h.apart _ _ b bn hk hb hab
      simp only [Overlap] at *; omega
    · simp only [Overlap]; omega
    · exact absurd rfl hab
    · have := h.apart _ _ b bn hk hb hbk.symm
      simp only [Overlap] at *; omega
    · have := h.apart _ _ a an hk ha hab.symm
      simp only [Overlap] at *; omega
    · have := h.apart _ _ a an hk ha hak.symm
      simp only [Overlap] at *; omega
    · exact h.apart a an b bn ha hb hab

/-- **Joining a block with the one that starts where it ends.** -/
theorem Apart.merge {n' : ℕ} (hk : m.find k = some n) (hx : m.find (k + n) = some n') :
    Apart ((m.modify k fun _ => n + n').erase (k + n)) := by
  have hn := h.pos k n hk
  have hfind : ∀ a an, ((m.modify k fun _ => n + n').erase (k + n)).find a = some an →
      (a = k ∧ an = n + n') ∨ (a ≠ k ∧ a ≠ k + n ∧ m.find a = some an) := by
    intro a an ha
    rw [OrdMap.find_erase, OrdMap.find_modify] at ha
    split at ha
    · cases ha
    · rename_i hax
      by_cases hak : a = k
      · subst hak
        rw [if_pos rfl, hk] at ha
        exact .inl ⟨rfl, (Option.some.inj ha).symm⟩
      · rw [if_neg hak] at ha
        exact .inr ⟨hak, hax, ha⟩
  have hpart : ∀ b bn, b ≠ k → b ≠ k + n → m.find b = some bn → ¬ Overlap k (n + n') b bn := by
    intro b bn hbk hbx hb
    have := h.apart _ _ b bn hk hb hbk.symm
    have := h.apart _ _ b bn hx hb hbx.symm
    simp only [Overlap] at *
    omega
  refine ⟨fun a an ha => ?_, fun a an b bn ha hb hab => ?_⟩
  · obtain ⟨-, rfl⟩ | ⟨-, -, ha⟩ := hfind a an ha
    · omega
    · exact h.pos a an ha
  · replace ha := hfind a an ha
    replace hb := hfind b bn hb
    rcases ha with ⟨rfl, rfl⟩ | ⟨hak, hax, ha⟩ <;> rcases hb with ⟨rfl, rfl⟩ | ⟨hbk, hbx, hb⟩
    · exact absurd rfl hab
    · exact hpart b bn hbk hbx hb
    · exact fun ho => hpart a an hak hax ha ho.symm
    · exact h.apart a an b bn ha hb hab

end

/-! ## Counting the blocks that meet a window -/

/-- The number of blocks that meet `[p, p + w)`. -/
def meets (m : Blocks) (p w : ℕ) : ℕ := m.entries.countP fun b => Overlap p w b.1 b.2

theorem meets_insert (h : m.find k = none) (n p w : ℕ) :
    meets (m.insert k n) p w = meets m p w + if Overlap p w k n then 1 else 0 := by
  simp only [meets, m.countP_insert h, decide_eq_true_eq]

theorem meets_erase (h : m.find k = some n) (p w : ℕ) :
    meets (m.erase k) p w + (if Overlap p w k n then 1 else 0) = meets m p w := by
  simpa only [decide_eq_true_eq, meets] using m.countP_erase h fun b => Overlap p w b.1 b.2

/-- A window no block meets. -/
theorem meets_eq_zero (h : ∀ k n, m.find k = some n → ¬ Overlap p w k n) :
    meets m p w = 0 := by
  refine List.countP_eq_zero.mpr fun b hb => ?_
  simpa using h b.1 b.2 (m.find_of_mem hb)

theorem meets_pos (h : m.find k = some n) (ho : Overlap p w k n) : 0 < meets m p w :=
  List.countP_pos_iff.mpr ⟨(k, n), m.find_eq_some_iff.mp h, by simpa using ho⟩

/-- **Fewer blocks than addresses**, when no block starts at zero. -/
theorem meets_lt {W : ℕ} (h : ∀ k n, m.find k = some n → 0 < k ∧ k < W) (hW : 0 < W) (p w : ℕ) :
    meets m p w < W := by
  have hlen : m.keys.length ≤ W - 1 := by
    have hnd : m.keys.Nodup := (List.pairwise_map.mpr m.sorted).imp fun hab => hab.ne
    have hsub : m.keys.toFinset ⊆ Finset.Ico 1 W := fun k hk => by
      obtain ⟨n, hn⟩ := m.mem_keys_iff.mp (List.mem_toFinset.mp hk)
      exact Finset.mem_Ico.mpr (h k n hn)
    have hcard := Finset.card_le_card hsub
    rwa [List.toFinset_card_of_nodup hnd, Nat.card_Ico] at hcard
  have hle : meets m p w ≤ m.entries.length := List.countP_le_length
  simp only [OrdMap.keys, List.length_map] at hlen
  omega

end Blocks
