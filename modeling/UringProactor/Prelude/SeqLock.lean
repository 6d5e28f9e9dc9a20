import Mathlib

/-!
# Sequence locks

A sequence lock is a memory of cells with a counter.  A writer increments the counter, stores
into the cells, and increments the counter again; a reader waits for an even count, copies some
of the cells, and takes the copy if the count is still the same.

`Copies l begun src out S` says of a reader's copy that it is right on `S` unless the count has
changed since it was `begun`.  A reader may rely on this as long as stores happen at odd counts
only; that no two writers overlap is what makes them so.
-/

/-- Cells of type `β`, with the number of increments of the counter. -/
structure SeqLock (ι β : Type*) where
  count : ℕ
  cells : ι → β

namespace SeqLock

variable {ι κ β : Type*}

/-- An increment of the counter. -/
def bump (l : SeqLock ι β) : SeqLock ι β := { l with count := l.count + 1 }

/-- A store into a cell. -/
def store [DecidableEq ι] (l : SeqLock ι β) (i : ι) (b : β) : SeqLock ι β :=
  { l with cells := Function.update l.cells i b }

variable {l : SeqLock ι β} {v : ι → β} {begun : ℕ} {src : κ → ι} {out : κ → β}

/-! ### Writers -/

/-- A store of the right value extends what is written. -/
theorem eqOn_store [DecidableEq ι] {S : Set ι} (h : Set.EqOn l.cells v S) (i : ι) :
  Set.EqOn (l.store i (v i)).cells v (insert i S)
  := by
  intro j hj
  rcases eq_or_ne j i with rfl | hne
  · apply Function.update_self
  · change Function.update l.cells i (v i) j = v j
    rw [Function.update_of_ne hne]
    apply h (Set.mem_of_mem_insert_of_ne hj hne)

/-! ### Readers -/

/-- A copy of the cells `src j` into `out j`, which began at the count `begun` and has come to
the `j` in `S`. -/
structure Copies (l : SeqLock ι β) (begun : ℕ) (src : κ → ι) (out : κ → β) (S : Set κ) :
    Prop where
  even : begun % 2 = 0
  le : begun ≤ l.count
  eqOn : l.count = begun → Set.EqOn out (l.cells ∘ src) S

theorem copies_start (heven : l.count % 2 = 0) (src : κ → ι) (out : κ → β) :
  l.Copies l.count src out ∅
  := ⟨heven, le_rfl, fun _ => Set.eqOn_empty _ _⟩

namespace Copies

variable {S : Set κ}

theorem load [DecidableEq κ] (h : l.Copies begun src out S) (j : κ) :
  l.Copies begun src (Function.update out j (l.cells (src j))) (insert j S)
  := by
  refine ⟨h.even, h.le, ?_⟩
  intro hcount k hk
  rcases eq_or_ne k j with rfl | hne
  · apply Function.update_self
  · rw [Function.update_of_ne hne]
    apply h.eqOn hcount (Set.mem_of_mem_insert_of_ne hk hne)

theorem bump (h : l.Copies begun src out S) :
  l.bump.Copies begun src out S
  := by
  have hle := h.le
  refine ⟨h.even, Nat.le_succ_of_le hle, ?_⟩
  intro hcount
  change l.count + 1 = begun at hcount
  omega

theorem store [DecidableEq ι] (h : l.Copies begun src out S) (hodd : l.count % 2 = 1) (i : ι)
    (b : β) :
  (l.store i b).Copies begun src out S
  := by
  refine ⟨h.even, h.le, ?_⟩
  intro hcount
  change l.count = begun at hcount
  rw [hcount, h.even] at hodd
  cases hodd

theorem mono {S' : Set κ} (h : l.Copies begun src out S) (hsub : S' ⊆ S) :
  l.Copies begun src out S'
  := ⟨h.even, h.le, fun hcount => (h.eqOn hcount).mono hsub⟩

/-- A counter of `w` bits that is the same at the end of a copy has not moved, unless it went
all the way round. -/
theorem count_eq (h : l.Copies begun src out S) {w : ℕ}
    (hmod : l.count % 2 ^ w = begun % 2 ^ w) (hlt : l.count < begun + 2 ^ w) :
  l.count = begun
  := by
  have hle := h.le
  have hzero := Nat.sub_mod_eq_zero_of_mod_eq hmod
  rw [Nat.mod_eq_of_lt (by omega)] at hzero
  omega

end Copies

end SeqLock
