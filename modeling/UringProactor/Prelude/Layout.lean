import Mathlib

/-!
# Ranges laid out one after the other

A list of items, each with an offset and a length, is `Contiguous` from a start when the first
item begins there and every other one where the one before it ends.  Ranges of one size that
are disjoint need as much room as they have together.
-/

section

variable {α : Type*} (offset length : α → ℕ)

/-- The ranges of the items follow one another, from `start` on. -/
def Contiguous : ℕ → List α → Prop
  | _, [] => True
  | start, a :: as => offset a = start ∧ Contiguous (start + length a) as

end

namespace Contiguous

variable {α : Type*} {offset length : α → ℕ} {start : ℕ} {a : α} {as : List α}

theorem concat_iff :
  Contiguous offset length start (as ++ [a])
    ↔ Contiguous offset length start as ∧ offset a = start + (as.map length).sum
  := by
  induction as generalizing start with
  | nil => simp [Contiguous]
  | cons b as ih => simp [Contiguous, ih, and_assoc, Nat.add_assoc]

/-- An item ends before the end of all. -/
theorem end_le (h : Contiguous offset length start as) (ha : a ∈ as) :
  offset a + length a ≤ start + (as.map length).sum
  := by
  induction as generalizing start with
  | nil => cases ha
  | cons b as ih =>
      obtain ⟨hb, has⟩ := h
      rw [List.map_cons, List.sum_cons, ← Nat.add_assoc]
      rcases List.mem_cons.mp ha with rfl | ha
      · rw [hb]
        apply Nat.le_add_right
      · apply ih has ha

/-- An item begins after the start. -/
theorem le_offset (h : Contiguous offset length start as) (ha : a ∈ as) :
  start ≤ offset a
  := by
  induction as generalizing start with
  | nil => cases ha
  | cons b as ih =>
      obtain ⟨hb, has⟩ := h
      rcases List.mem_cons.mp ha with rfl | ha
      · exact Nat.le_of_eq hb.symm
      · apply Nat.le_trans (Nat.le_add_right _ _) (ih has ha)

/-- The ranges are disjoint. -/
theorem pairwise (h : Contiguous offset length start as) :
  as.Pairwise (fun a b => offset a + length a ≤ offset b)
  := by
  induction as generalizing start with
  | nil => exact .nil
  | cons b as ih =>
      obtain ⟨rfl, has⟩ := h
      apply List.Pairwise.cons _ (ih has)
      intro c hc
      apply has.le_offset hc

/-- There is no gap: every position up to the end of all lies in the range of an item. -/
theorem exists_mem_range {p : ℕ} (h : Contiguous offset length start as) (hstart : start ≤ p)
    (hend : p < start + (as.map length).sum) :
  ∃ a ∈ as, offset a ≤ p ∧ p < offset a + length a
  := by
  induction as generalizing start with
  | nil =>
      simp only [List.map_nil, List.sum_nil, Nat.add_zero] at hend
      omega
  | cons b as ih =>
      obtain ⟨rfl, has⟩ := h
      rw [List.map_cons, List.sum_cons, ← Nat.add_assoc] at hend
      by_cases hp : p < offset b + length b
      · use b, List.mem_cons_self, hstart
      · obtain ⟨a, ha, hrange⟩ := ih has (Nat.le_of_not_lt hp) hend
        use a, List.mem_cons_of_mem _ ha

/-- A bound of the start and of the ends of all items that are not empty bounds the end of
all. -/
theorem end_le_of_forall {m : ℕ} (h : Contiguous offset length start as) (hstart : start ≤ m)
    (hall : ∀ a ∈ as, length a = 0 ∨ offset a + length a ≤ m) :
  start + (as.map length).sum ≤ m
  := by
  induction as generalizing start with
  | nil => exact hstart
  | cons b as ih =>
      obtain ⟨rfl, has⟩ := h
      rw [List.map_cons, List.sum_cons, ← Nat.add_assoc]
      apply ih has
      · rcases hall b List.mem_cons_self with hzero | hle
        · rw [hzero]
          exact hstart
        · exact hle
      · intro c hc
        apply hall c (List.mem_cons_of_mem _ hc)

end Contiguous

/-- Disjoint ranges of one size need as much room as they have together. -/
theorem mul_le_of_disjoint {n size m : ℕ} {addr : ℕ → ℕ}
    (hinside : ∀ i < n, addr i + size ≤ m)
    (hdisjoint : ∀ i < n, ∀ j < n, i ≠ j → addr i + size ≤ addr j ∨ addr j + size ≤ addr i) :
  n * size ≤ m
  := by
  have hsub : (Finset.range n).biUnion (fun i => Finset.Ico (addr i) (addr i + size))
      ⊆ Finset.range m := by
    intro x hx
    obtain ⟨i, hi, hx⟩ := Finset.mem_biUnion.mp hx
    have hend := hinside i (Finset.mem_range.mp hi)
    rw [Finset.mem_Ico] at hx
    rw [Finset.mem_range]
    omega
  have hcard := Finset.card_le_card hsub
  rw [Finset.card_biUnion] at hcard
  · simpa using hcard
  · intro i hi j hj hij
    have hranges := hdisjoint i (Finset.mem_range.mp hi) j (Finset.mem_range.mp hj) hij
    change Disjoint (Finset.Ico _ _) (Finset.Ico _ _)
    rw [Finset.disjoint_left]
    intro x hx hx'
    rw [Finset.mem_Ico] at hx hx'
    omega
