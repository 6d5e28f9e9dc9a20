import Mathlib

/-!
# Streams of lines

A stream is `Separable` into lines for a list of items when it consists of one line for each
item, which begins with the header of the item and is ended by a separator that does not occur
in it.  A concatenation of records, one for each item, is separable exactly when every record
is such a line, if the other records have no separator.
-/

open scoped List

section

variable {α γ : Type*} (sep : α) (header : γ → List α)

/-- The record is a line for the item, with its separator. -/
def IsLine (item : γ) (record : List α) : Prop :=
  ∃ line, record = line ++ [sep] ∧ sep ∉ line ∧ header item <+: line

/-- The stream consists of one line for each item. -/
def Separable (items : List γ) (stream : List α) : Prop :=
  ∃ records : List (List α), stream = records.flatten
    ∧ List.Forall₂ (IsLine sep header) items records

end

namespace Separable

variable {α γ : Type*} [DecidableEq α] {sep : α} {header : γ → List α} {items : List γ}
  {records : List (List α)} {stream : List α} {item : γ} {record : List α}

theorem count_of_isLine (h : IsLine sep header item record) :
  record.count sep = 1
  := by
  obtain ⟨line, rfl, hline, -⟩ := h
  rw [List.count_append, List.count_eq_zero_of_not_mem hline, List.count_singleton_self]

/-- There is one separator for each item. -/
theorem count_eq (h : Separable sep header items stream) :
  stream.count sep = items.length
  := by
  obtain ⟨records, rfl, hlines⟩ := h
  induction hlines with
  | nil => rfl
  | cons hline _ ih =>
      rw [List.flatten_cons, List.count_append, count_of_isLine hline, ih, List.length_cons,
        Nat.add_comm]

/-- Records that are lines or have no separator have at most one separator each, and one each
only if they are all lines. -/
theorem count_flatten_le {fits : γ → Prop}
    (h : List.Forall₂ (fun item record => (fits item → IsLine sep header item record)
      ∧ (¬ fits item → sep ∉ record)) items records) :
  records.flatten.count sep ≤ items.length
    ∧ (records.flatten.count sep = items.length → ∀ item ∈ items, fits item)
  := by
  induction h with
  | nil => exact ⟨Nat.le_refl _, fun _ => nofun⟩
  | @cons item record items records hrecord _ ih =>
      obtain ⟨hle, hall⟩ := ih
      rw [List.flatten_cons, List.count_append, List.length_cons]
      by_cases hfits : fits item
      · rw [count_of_isLine (hrecord.1 hfits)]
        refine ⟨by omega, ?_⟩
        intro heq
        apply List.forall_mem_cons.mpr ⟨hfits, hall (by omega)⟩
      · rw [List.count_eq_zero_of_not_mem (hrecord.2 hfits)]
        refine ⟨by omega, ?_⟩
        intro heq
        omega

/-- The exact condition for a concatenation of records to be separable. -/
theorem flatten_iff {fits : γ → Prop}
    (h : List.Forall₂ (fun item record => (fits item → IsLine sep header item record)
      ∧ (¬ fits item → sep ∉ record)) items records) :
  Separable sep header items records.flatten ↔ ∀ item ∈ items, fits item
  := by
  constructor
  · intro hseparable
    apply (count_flatten_le h).2 hseparable.count_eq
  · intro hall
    refine ⟨records, rfl, ?_⟩
    induction h with
    | nil => exact .nil
    | cons hrecord _ ih =>
        obtain ⟨hfits, hall⟩ := List.forall_mem_cons.mp hall
        exact .cons (hrecord.1 hfits) (ih hall)

end Separable

/-- A sublist of related items has related items. -/
theorem exists_sublist_of_forall₂ {α β : Type*} {R : α → β → Prop} {l : List α} {l' k' : List β}
    (h : List.Forall₂ R l l') (hsub : k' <+ l') :
  ∃ k, k <+ l ∧ List.Forall₂ R k k'
  := by
  induction hsub generalizing l with
  | slnil =>
      use [], List.nil_sublist _
      exact .nil
  | cons b _ ih =>
      cases h with
      | @cons a _ l _ _ hrest =>
          obtain ⟨k, hk, hrel⟩ := ih hrest
          use k, hk.cons a
  | cons_cons b _ ih =>
      cases h with
      | @cons a _ l _ hab hrest =>
          obtain ⟨k, hk, hrel⟩ := ih hrest
          use a :: k, hk.cons_cons a
          exact .cons hab hrel
