import Mathlib

/-!
# Conservation of resources among owners

A pool and finitely many owners hold lists of resources.  That every resource is held
exactly once is the statement that the pool's list followed by the owners' lists is a
permutation of the resources.  An exchange between the pool and one owner that permutes
what the two hold preserves it.
-/

open scoped List

namespace Ownership

variable {α : Type*}

/-- What a pool holding `pool` and `n` owners holding `own 0`, ..., `own (n - 1)` hold
together. -/
def holdings (pool : List α) (n : ℕ) (own : ℕ → List α) : List α :=
  pool ++ (List.range n).flatMap own

/-- What a list of owners holds, with one owner's share in front. -/
theorem flatMap_perm_cons {l : List ℕ} {c : ℕ} (hc : c ∈ l) (own : ℕ → List α) :
  (l.flatMap own).Perm (own c ++ (l.erase c).flatMap own)
  := by
  have h := (List.perm_cons_erase hc).flatMap_right own
  rw [List.flatMap_cons] at h
  exact h

/-- An exchange between the pool and the owner `c` that permutes what the two hold
permutes the holdings. -/
theorem holdings_exchange {pool pool' : List α} {n c : ℕ} {own own' : ℕ → List α}
    (hc : c < n) (hother : ∀ d, d ≠ c → own' d = own d)
    (hexchange : (pool' ++ own' c).Perm (pool ++ own c)) :
  (holdings pool' n own').Perm (holdings pool n own)
  := by
  have hmem : c ∈ List.range n := List.mem_range.mpr hc
  have hrest : ((List.range n).erase c).flatMap own' = ((List.range n).erase c).flatMap own := by
    apply List.flatMap_congr
    intro d hd
    apply hother
    rintro rfl
    exact List.nodup_range.not_mem_erase hd
  calc holdings pool' n own'
      _ ~ pool' ++ (own' c ++ ((List.range n).erase c).flatMap own') :=
        (flatMap_perm_cons hmem own').append_left pool'
      _ = (pool' ++ own' c) ++ ((List.range n).erase c).flatMap own := by
        rw [hrest, List.append_assoc]
      _ ~ (pool ++ own c) ++ ((List.range n).erase c).flatMap own :=
        hexchange.append_right _
      _ = pool ++ (own c ++ ((List.range n).erase c).flatMap own) := by
        rw [List.append_assoc]
      _ ~ holdings pool n own :=
        ((flatMap_perm_cons hmem own).symm).append_left pool

/-! ### When every number below a bound is held once -/

section

variable {pool : List ℕ} {n N : ℕ} {own : ℕ → List ℕ}

/-- What the pool and one owner hold, in front of what the others hold. -/
theorem perm_split (h : holdings pool n own ~ List.range N) {c : ℕ} (hc : c < n) :
  (pool ++ own c) ++ ((List.range n).erase c).flatMap own ~ List.range N
  := by
  rw [List.append_assoc]
  exact ((flatMap_perm_cons (List.mem_range.mpr hc) own).append_left pool).symm.trans h

/-- The pool and one owner hold different numbers below the bound. -/
theorem nodup_of_perm (h : holdings pool n own ~ List.range N) {c : ℕ} (hc : c < n) :
  (pool ++ own c).Nodup ∧ ∀ i ∈ pool ++ own c, i < N
  := by
  have hperm := perm_split h hc
  constructor
  · apply List.Nodup.of_append_left (hperm.nodup_iff.mpr List.nodup_range)
  · intro i hi
    apply List.mem_range.mp
    apply hperm.mem_iff.mp (List.mem_append_left _ hi)

/-- What another owner holds is held neither by the pool nor by the owner `c`. -/
theorem not_mem_of_mem (h : holdings pool n own ~ List.range N) {c d : ℕ} (hc : c < n)
    (hd : d < n) (hdc : d ≠ c) {i : ℕ} (hi : i ∈ own d) :
  i < N ∧ i ∉ pool ++ own c
  := by
  have hperm := perm_split h hc
  have hrest : i ∈ ((List.range n).erase c).flatMap own := by
    apply List.mem_flatMap.mpr
    use d
    use (List.mem_erase_of_ne hdc).mpr (List.mem_range.mpr hd)
  constructor
  · apply List.mem_range.mp
    apply hperm.mem_iff.mp (List.mem_append_right _ hrest)
  · intro hmem
    apply List.disjoint_of_nodup_append (hperm.nodup_iff.mpr List.nodup_range) hmem hrest

end

/-- Different numbers below `n` are at most `n` many. -/
theorem length_le_of_nodup {l : List ℕ} {n : ℕ} (hnodup : l.Nodup) (hlt : ∀ i ∈ l, i < n) :
  l.length ≤ n
  := by
  have hsub : l ⊆ List.range n := by
    intro i hi
    apply List.mem_range.mpr (hlt i hi)
  have := (List.subperm_of_subset hnodup hsub).length_le
  rwa [List.length_range] at this

/-- Lists of bounded length, put together. -/
theorem length_flatMap_le {β : Type*} {f : α → List β} {n : ℕ} {l : List α}
    (h : ∀ a ∈ l, (f a).length ≤ n) :
  (l.flatMap f).length ≤ l.length * n
  := by
  induction l with
  | nil => apply Nat.zero_le
  | cons a l ih =>
      rw [List.flatMap_cons, List.length_append, List.length_cons, Nat.succ_mul, Nat.add_comm]
      apply Nat.add_le_add
      · apply ih
        intro b hb
        apply h b (List.mem_cons_of_mem _ hb)
      · apply h a List.mem_cons_self

end Ownership
