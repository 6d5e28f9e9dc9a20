import Mathlib

/-!
# Unsigned words and byte stores

`u32 n` is `n` as a 32-bit unsigned integer, and `u32Sub` the subtraction of such
integers.  A store assigns a cell to every address; `Store.read` reads a range of addresses and
`Store.write` overwrites one.  A range that a write does not meet reads as before.
-/

/-- `n` reduced to a 32-bit unsigned integer. -/
def u32 (n : ℕ) : ℕ := n % 2 ^ 32

/-- The difference of 32-bit unsigned integers, which wraps below zero. -/
def u32Sub (a b : ℕ) : ℕ := if b ≤ a then a - b else 2 ^ 32 - (b - a)

theorem u32_of_lt {n : ℕ} (h : n < 2 ^ 32) :
  u32 n = n
  := by
  rw [u32, Nat.mod_eq_of_lt h]

/-- The difference of 32-bit integers is the difference of numbers when it is not
negative. -/
theorem u32Sub_of_le {a b : ℕ} (h : b ≤ a) :
  u32Sub a b = a - b
  := if_pos h

namespace Store

variable {α : Type*}

/-- The cells at the `n` addresses from `a` on. -/
def read (m : ℕ → α) (a n : ℕ) : List α :=
  (List.range n).map (fun j => m (a + j))

/-- Overwrite the cells from the address `a` on with `data`. -/
def write (m : ℕ → α) (a : ℕ) (data : List α) : ℕ → α :=
  fun x => if x < a then m x else data.getD (x - a) (m x)

@[simp]
theorem length_read (m : ℕ → α) (a n : ℕ) :
  (read m a n).length = n
  := by
  simp [read]

@[simp]
theorem read_zero (m : ℕ → α) (a : ℕ) :
  read m a 0 = []
  := rfl

/-- Reading depends only on the cells in range. -/
theorem read_congr {m m' : ℕ → α} {a n : ℕ} (h : ∀ j < n, m' (a + j) = m (a + j)) :
  read m' a n = read m a n
  := by
  apply List.map_congr_left
  intro j hj
  apply h j (List.mem_range.mp hj)

/-- Reading a range in two parts. -/
theorem read_add (m : ℕ → α) (a n k : ℕ) :
  read m a (n + k) = read m a n ++ read m (a + n) k
  := by
  simp only [read, List.range_add, List.map_append, List.map_map]
  congr 1
  apply List.map_congr_left
  intro j _
  simp [Nat.add_assoc]

theorem drop_read (m : ℕ → α) (a n k : ℕ) :
  (read m a n).drop k = read m (a + k) (n - k)
  := by
  rcases Nat.le_total k n with h | h
  · obtain ⟨d, rfl⟩ := Nat.exists_eq_add_of_le h
    rw [read_add, List.drop_left' (length_read m a k), Nat.add_sub_cancel_left]
  · rw [Nat.sub_eq_zero_of_le h, read_zero]
    apply List.drop_of_length_le
    simpa using h

theorem take_read (m : ℕ → α) {a n k : ℕ} (h : k ≤ n) :
  (read m a n).take k = read m a k
  := by
  obtain ⟨d, rfl⟩ := Nat.exists_eq_add_of_le h
  rw [read_add, List.take_left' (length_read m a k)]

/-- A cell outside the written range keeps its value. -/
theorem write_apply_of_disjoint (m : ℕ → α) {a x : ℕ} {data : List α}
    (h : x < a ∨ a + data.length ≤ x) :
  write m a data x = m x
  := by
  unfold write
  split
  · rfl
  · rw [List.getD_eq_getElem?_getD, List.getElem?_eq_none (by omega), Option.getD_none]

/-- A range that the written range does not meet reads as before. -/
theorem read_write_of_disjoint (m : ℕ → α) {a n b : ℕ} {data : List α}
    (h : a + n ≤ b ∨ b + data.length ≤ a) :
  read (write m b data) a n = read m a n
  := by
  apply read_congr
  intro j hj
  apply write_apply_of_disjoint
  omega

/-- The written range reads as what was written. -/
theorem read_write_self (m : ℕ → α) (a : ℕ) (data : List α) :
  read (write m a data) a data.length = data
  := by
  apply List.ext_getElem
  · simp
  · intro j hj hj'
    simp [read, write, hj']

/-- Writing right after a range extends what is read from the range on. -/
theorem read_write_after (m : ℕ → α) (a n : ℕ) (data : List α) :
  read (write m (a + n) data) a (n + data.length) = read m a n ++ data
  := by
  rw [read_add, read_write_self, read_write_of_disjoint m (.inl le_rfl)]

/-- Blocks of one size that lie one after the other do not overlap. -/
theorem block_disjoint (size : ℕ) {i j : ℕ} (hij : i ≠ j) :
  i * size + size ≤ j * size ∨ j * size + size ≤ i * size
  := by
  rw [← Nat.succ_mul, ← Nat.succ_mul]
  rcases Nat.lt_or_gt_of_ne hij with hlt | hlt
  · left
    apply Nat.mul_le_mul_right _ hlt
  · right
    apply Nat.mul_le_mul_right _ hlt

end Store
