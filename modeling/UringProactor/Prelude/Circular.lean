import Mathlib

/-!
# Circular queues with free-running counters

`Circular w α` is a backing array with a head and a tail counter of `w` bits.  The
counters run freely and wrap at `2 ^ w`; in an array of `2 ^ k` slots the counter `i`
selects the slot `i &&& (2 ^ k - 1)`.  The elements of the queue are those at the
counters from the head up to the tail.  As long as `k < w` and the queue holds at most
`2 ^ k` elements, the operations act on `toList` as on a double-ended list, at every
value of the counters.
-/

/-- A backing array with a head and a tail counter of `w` bits. -/
structure Circular (w : ℕ) (α : Type*) where
  /-- The backing array. -/
  slots : ℕ → α
  /-- The counter of the first element. -/
  head : BitVec w
  /-- The counter after the last element. -/
  tail : BitVec w

namespace Circular

variable {w k : ℕ} {α : Type*}

/-- The slot the counter `i` selects among `2 ^ k` slots. -/
def slot (k : ℕ) (i : BitVec w) : ℕ :=
  (i &&& BitVec.ofNat w (2 ^ k - 1)).toNat

/-- The element in the slot of the counter `i`. -/
def get (q : Circular w α) (k : ℕ) (i : BitVec w) : α :=
  q.slots (slot k i)

/-- Store `a` in the slot of the counter `i`. -/
def set (q : Circular w α) (k : ℕ) (i : BitVec w) (a : α) : Circular w α :=
  { q with slots := Function.update q.slots (slot k i) a }

/-- The number of elements, the difference of the counters modulo `2 ^ w`. -/
def size (q : Circular w α) : ℕ :=
  (q.tail - q.head).toNat

/-- The elements at the `n` counters from `i` on. -/
def window (q : Circular w α) (k : ℕ) : BitVec w → ℕ → List α
  | _, 0 => []
  | i, n + 1 => q.get k i :: q.window k (i + 1) n

/-- The elements of the queue, from the head on. -/
def toList (q : Circular w α) (k : ℕ) : List α :=
  q.window k q.head q.size

/-- Store `a` at the tail and advance the tail. -/
def push (q : Circular w α) (k : ℕ) (a : α) : Circular w α :=
  { q.set k q.tail a with tail := q.tail + 1 }

/-- The element at the head. -/
def front (q : Circular w α) (k : ℕ) : α :=
  q.get k q.head

/-- Advance the head. -/
def pop (q : Circular w α) : Circular w α :=
  { q with head := q.head + 1 }

/-- The element before the tail. -/
def back (q : Circular w α) (k : ℕ) : α :=
  q.get k (q.tail - 1)

/-- Move the tail back. -/
def popBack (q : Circular w α) : Circular w α :=
  { q with tail := q.tail - 1 }

/-! ### Slots -/

theorem pow_lt_pow (hk : k < w) :
  2 ^ k < 2 ^ w
  := Nat.pow_lt_pow_right (by decide) hk

/-- The slot of a counter is its remainder modulo the number of slots. -/
theorem slot_eq_mod (hk : k < w) (i : BitVec w) :
  slot k i = i.toNat % 2 ^ k
  := by
  have hlt : 2 ^ k - 1 < 2 ^ w :=
    lt_of_le_of_lt (Nat.sub_le _ _) (pow_lt_pow hk)
  rw [slot, BitVec.toNat_and, BitVec.toNat_ofNat, Nat.mod_eq_of_lt hlt,
    Nat.and_two_pow_sub_one_eq_mod]

/-- The slot of a counter advanced by `j`. -/
theorem slot_add (hk : k < w) (i : BitVec w) (j : ℕ) :
  slot k (i + BitVec.ofNat w j) = (i.toNat + j) % 2 ^ k
  := by
  have hd : 2 ^ k ∣ 2 ^ w := Nat.pow_dvd_pow 2 hk.le
  rw [slot_eq_mod hk, BitVec.toNat_add, BitVec.toNat_ofNat, Nat.mod_mod_of_dvd _ hd, Nat.add_mod,
    Nat.mod_mod_of_dvd _ hd, ← Nat.add_mod]

/-- Counters less than `2 ^ k` apart select different slots. -/
theorem slot_add_ne (hk : k < w) (i : BitVec w) {j j' : ℕ} (h : j < j') (h' : j' < j + 2 ^ k) :
  slot k (i + BitVec.ofNat w j) ≠ slot k (i + BitVec.ofNat w j')
  := by
  rw [slot_add hk, slot_add hk]
  intro heq
  have hd : 2 ^ k ∣ (i.toNat + j') - (i.toNat + j) :=
    (Nat.modEq_iff_dvd' (by omega)).mp heq
  have := Nat.le_of_dvd (by omega) hd
  omega

/-! ### Windows -/

@[simp]
theorem window_zero (q : Circular w α) (i : BitVec w) :
  q.window k i 0 = []
  := rfl

theorem window_succ (q : Circular w α) (i : BitVec w) (n : ℕ) :
  q.window k i (n + 1) = q.get k i :: q.window k (i + 1) n
  := rfl

@[simp]
theorem length_window (q : Circular w α) (i : BitVec w) (n : ℕ) :
  (q.window k i n).length = n
  := by
  induction n generalizing i with
  | zero => rfl
  | succ n ih => rw [window_succ, List.length_cons, ih]

/-- Advancing by one and then by `j` is advancing by `j + 1`. -/
theorem add_one_add (i : BitVec w) (j : ℕ) :
  i + 1 + BitVec.ofNat w j = i + BitVec.ofNat w (j + 1)
  := by
  rw [BitVec.add_assoc, Nat.add_comm j 1, BitVec.ofNat_add]
  rfl

/-- A window depends only on the elements at its counters. -/
theorem window_congr {q q' : Circular w α} {i : BitVec w} {n : ℕ}
    (h : ∀ j < n, q'.get k (i + BitVec.ofNat w j) = q.get k (i + BitVec.ofNat w j)) :
  q'.window k i n = q.window k i n
  := by
  induction n generalizing i with
  | zero => rfl
  | succ n ih =>
      rw [window_succ, window_succ]
      congr 1
      · simpa using h 0 (by omega)
      · apply ih
        intro j hj
        rw [add_one_add]
        apply h (j + 1) (by omega)

/-- A window depends only on the backing array. -/
theorem window_eq_of_slots_eq {q q' : Circular w α} (h : q'.slots = q.slots) (i : BitVec w)
    (n : ℕ) :
  q'.window k i n = q.window k i n
  := by
  apply window_congr
  intro j _
  rw [get, get, h]

/-- The elements of a window by position. -/
theorem getElem?_window (q : Circular w α) (i : BitVec w) (n j : ℕ) :
  (q.window k i n)[j]? = if j < n then some (q.get k (i + BitVec.ofNat w j)) else none
  := by
  induction n generalizing i j with
  | zero => simp
  | succ n ih =>
      rw [window_succ]
      cases j with
      | zero => simp
      | succ j =>
          rw [List.getElem?_cons_succ, ih, add_one_add]
          simp

/-- A window as a list of the elements at its counters. -/
theorem window_eq_map (q : Circular w α) (i : BitVec w) (n : ℕ) :
  q.window k i n = (List.range n).map (fun j => q.get k (i + BitVec.ofNat w j))
  := by
  apply List.ext_getElem?
  intro j
  rw [getElem?_window, List.getElem?_map]
  split
  case isTrue hj =>
    rw [List.getElem?_range hj]
    rfl
  case isFalse hj =>
    rw [List.getElem?_eq_none (by rwa [List.length_range, ← Nat.not_lt])]
    rfl

/-- A window splits at any counter. -/
theorem window_add (q : Circular w α) (i : BitVec w) (m n : ℕ) :
  q.window k i (m + n) = q.window k i m ++ q.window k (i + BitVec.ofNat w m) n
  := by
  induction m generalizing i with
  | zero => simp
  | succ m ih =>
      rw [Nat.add_right_comm, window_succ, window_succ, ih, add_one_add, List.cons_append]

/-- The last element of a window. -/
theorem window_succ_last (q : Circular w α) (i : BitVec w) (n : ℕ) :
  q.window k i (n + 1) = q.window k i n ++ [q.get k (i + BitVec.ofNat w n)]
  := by
  rw [window_add]
  rfl

@[simp]
theorem get_set_self (q : Circular w α) (i : BitVec w) (a : α) :
  (q.set k i a).get k i = a
  := Function.update_self ..

theorem get_set_of_ne (q : Circular w α) {i j : BitVec w} (a : α) (h : slot k j ≠ slot k i) :
  (q.set k i a).get k j = q.get k j
  := Function.update_of_ne h _ _

/-- Storing in a slot that no counter of a window selects leaves the window as it is. -/
theorem window_set_of_ne (q : Circular w α) {i s : BitVec w} {n : ℕ} (a : α)
    (h : ∀ j < n, slot k (i + BitVec.ofNat w j) ≠ slot k s) :
  (q.set k s a).window k i n = q.window k i n
  := by
  apply window_congr
  intro j hj
  apply get_set_of_ne _ _ (h j hj)

/-- Storing right after a window that leaves a slot free does not change it. -/
theorem window_set_after (hk : k < w) (q : Circular w α) (i : BitVec w) {n : ℕ} (a : α)
    (hn : n < 2 ^ k) :
  (q.set k (i + BitVec.ofNat w n) a).window k i n = q.window k i n
  := by
  apply window_set_of_ne
  intro j hj
  apply slot_add_ne hk i hj (by omega)

/-! ### The operations on `toList` -/

@[simp]
theorem length_toList (q : Circular w α) :
  (q.toList k).length = q.size
  := length_window ..

theorem getElem?_toList (q : Circular w α) (j : ℕ) :
  (q.toList k)[j]? = if j < q.size then some (q.get k (q.head + BitVec.ofNat w j)) else none
  := getElem?_window ..

/-- The tail is the head advanced by the number of elements. -/
theorem head_add_size (q : Circular w α) :
  q.head + BitVec.ofNat w q.size = q.tail
  := by
  rw [size, BitVec.ofNat_toNat, BitVec.setWidth_eq, BitVec.add_comm, BitVec.sub_add_cancel]

/-- A queue whose counters are `n` apart has `n` elements. -/
theorem size_eq_of_tail_eq {q : Circular w α} {n : ℕ} (hn : n < 2 ^ w)
    (h : q.tail = q.head + BitVec.ofNat w n) :
  q.size = n
  := by
  rw [size, h, BitVec.add_comm, BitVec.add_sub_cancel, BitVec.toNat_ofNat, Nat.mod_eq_of_lt hn]

theorem toList_eq_nil_iff (q : Circular w α) :
  q.toList k = [] ↔ q.head = q.tail
  := by
  rw [← List.length_eq_zero_iff, length_toList, size]
  constructor
  · intro h
    have h' : q.tail - q.head = 0 := BitVec.eq_of_toNat_eq (by simpa using h)
    rw [← BitVec.sub_add_cancel q.tail q.head, h']
    exact (BitVec.zero_add _).symm
  · intro h
    simp [h]

theorem size_eq_zero_iff (q : Circular w α) :
  q.size = 0 ↔ q.head = q.tail
  := by
  rw [← toList_eq_nil_iff (k := 0), ← List.length_eq_zero_iff, length_toList]

theorem size_push (hk : k < w) {q : Circular w α} {a : α} (h : q.size < 2 ^ k) :
  (q.push k a).size = q.size + 1
  := by
  apply size_eq_of_tail_eq
  · have := pow_lt_pow hk
    omega
  · change q.tail + 1 = q.head + _
    rw [BitVec.ofNat_add, ← BitVec.add_assoc, head_add_size]
    rfl

/-- Pushing appends an element, as long as a slot is free. -/
theorem toList_push (hk : k < w) {q : Circular w α} (a : α) (h : q.size < 2 ^ k) :
  (q.push k a).toList k = q.toList k ++ [a]
  := by
  have hslots : (q.push k a).slots = (q.set k q.tail a).slots := rfl
  rw [toList, size_push hk h, window_eq_of_slots_eq hslots]
  change (q.set k q.tail a).window k q.head (q.size + 1) = _
  rw [window_succ_last, head_add_size, get_set_self]
  congr 1
  rw [← head_add_size q]
  apply window_set_after hk q q.head a h

/-- Pushing the elements of a list appends them, as long as slots are free. -/
theorem toList_foldl_push (hk : k < w) {q : Circular w α} {l : List α}
    (h : q.size + l.length ≤ 2 ^ k) :
  (l.foldl (fun q a => q.push k a) q).toList k = q.toList k ++ l
  := by
  induction l generalizing q with
  | nil => rw [List.foldl_nil, List.append_nil]
  | cons a l ih =>
      rw [List.length_cons] at h
      have hlt : q.size < 2 ^ k := by omega
      rw [List.foldl_cons, ih, toList_push hk a hlt, List.append_assoc, List.singleton_append]
      rw [size_push hk hlt]
      omega

/-- Storing behind the tail, where slots are free, leaves the elements as they are. -/
theorem toList_set_tail_add (hk : k < w) {q : Circular w α} (a : α) {j : ℕ}
    (h : q.size + j < 2 ^ k) :
  (q.set k (q.tail + BitVec.ofNat w j) a).toList k = q.toList k
  := by
  apply window_set_of_ne
  intro i hi
  rw [← head_add_size q, BitVec.add_assoc, ← BitVec.ofNat_add]
  have hlt : i < q.size := hi
  apply slot_add_ne hk q.head (by omega) (by omega)

/-- The elements behind the tail, after one of them was stored. -/
theorem get_set_tail_add (hk : k < w) (q : Circular w α) (a : α) {i j : ℕ} (hi : i < 2 ^ k)
    (hj : j < 2 ^ k) :
  (q.set k (q.tail + BitVec.ofNat w i) a).get k (q.tail + BitVec.ofNat w j)
    = if j = i then a else q.get k (q.tail + BitVec.ofNat w j)
  := by
  split
  case isTrue heq =>
    rw [heq, get_set_self]
  case isFalse hne =>
    apply get_set_of_ne
    rcases Nat.lt_or_gt_of_ne hne with hlt | hlt
    · apply slot_add_ne hk q.tail hlt (by omega)
    · apply (slot_add_ne hk q.tail hlt (by omega)).symm

/-- Advancing the tail appends the elements behind it. -/
theorem toList_advance {q : Circular w α} {n : ℕ} (h : q.size + n < 2 ^ w) :
  ({ q with tail := q.tail + BitVec.ofNat w n } : Circular w α).toList k
    = q.toList k ++ (List.range n).map (fun j => q.get k (q.tail + BitVec.ofNat w j))
  := by
  have hsize : ({ q with tail := q.tail + BitVec.ofNat w n } : Circular w α).size = q.size + n := by
    apply size_eq_of_tail_eq h
    change q.tail + _ = q.head + _
    rw [BitVec.ofNat_add, ← BitVec.add_assoc, head_add_size]
  rw [toList, hsize, ← window_eq_map, ← head_add_size q, toList, ← window_add]
  apply window_eq_of_slots_eq
  rfl

/-- Moving the tail back to a counter of the queue keeps the elements before it. -/
theorem toList_of_tail_eq {q : Circular w α} {L F : List α} {t : BitVec w}
    (hlist : q.toList k = L ++ F) (ht : t = q.head + BitVec.ofNat w L.length) :
  ({ q with tail := t } : Circular w α).toList k = L
  := by
  have hlen : q.size = L.length + F.length := by
    rw [← length_toList (k := k), hlist, List.length_append]
  have hlt : q.size < 2 ^ w := BitVec.isLt _
  have hsize : ({ q with tail := t } : Circular w α).size = L.length :=
    size_eq_of_tail_eq (by omega) ht
  rw [toList, hlen, window_add] at hlist
  rw [toList, hsize]
  apply Eq.trans _ (List.append_inj hlist (length_window ..)).1
  apply window_eq_of_slots_eq
  rfl

/-- Moving the head down by `n` counters puts the elements there in front. -/
theorem toList_of_head_eq {q : Circular w α} {n : ℕ} {i : BitVec w}
    (hsize : n + q.size < 2 ^ w) (hi : i + BitVec.ofNat w n = q.head) :
  ({ q with head := i } : Circular w α).toList k = q.window k i n ++ q.toList k
  := by
  have htail : q.tail = i + BitVec.ofNat w (n + q.size) := by
    rw [BitVec.ofNat_add, ← BitVec.add_assoc, hi, head_add_size]
  have hsize' : ({ q with head := i } : Circular w α).size = n + q.size :=
    size_eq_of_tail_eq hsize htail
  rw [toList, hsize', toList, ← hi, ← window_add]
  apply window_eq_of_slots_eq
  rfl

theorem size_pop {q : Circular w α} {n : ℕ} (h : q.size = n + 1) :
  q.pop.size = n
  := by
  have hlt : q.size < 2 ^ w := BitVec.isLt _
  apply size_eq_of_tail_eq (by omega)
  change q.tail = q.head + 1 + _
  rw [add_one_add, ← h, head_add_size]

theorem size_pop_lt {q : Circular w α} (h : q.head ≠ q.tail) :
  q.pop.size < q.size
  := by
  have hne : q.size ≠ 0 := mt q.size_eq_zero_iff.mp h
  rw [size_pop (n := q.size - 1) (by omega)]
  omega

/-- A queue with an element is its front followed by the rest. -/
theorem toList_eq_cons {q : Circular w α} {n : ℕ} (h : q.size = n + 1) :
  q.toList k = q.front k :: q.pop.toList k
  := by
  rw [toList, h, window_succ, toList, size_pop h]
  congr 1
  symm
  apply window_eq_of_slots_eq
  rfl

theorem toList_of_ne {q : Circular w α} (h : q.head ≠ q.tail) :
  q.toList k = q.front k :: q.pop.toList k
  := by
  apply toList_eq_cons (n := q.size - 1)
  have := mt q.size_eq_zero_iff.mp h
  omega

theorem size_popBack {q : Circular w α} {n : ℕ} (h : q.size = n + 1) :
  q.popBack.size = n
  := by
  have hlt : q.size < 2 ^ w := BitVec.isLt _
  apply size_eq_of_tail_eq (by omega)
  change q.tail - 1 = q.head + _
  rw [← head_add_size q, h, BitVec.ofNat_add, ← BitVec.add_assoc]
  exact BitVec.add_sub_cancel ..

/-- A queue with an element is the rest followed by its back. -/
theorem toList_eq_concat {q : Circular w α} {n : ℕ} (h : q.size = n + 1) :
  q.toList k = q.popBack.toList k ++ [q.back k]
  := by
  have hback : q.back k = q.get k (q.head + BitVec.ofNat w n) := by
    rw [back, ← head_add_size q, h, BitVec.ofNat_add, ← BitVec.add_assoc]
    congr 1
    exact BitVec.add_sub_cancel ..
  rw [toList, h, window_succ_last, hback, toList, size_popBack h]
  congr 1
  symm
  apply window_eq_of_slots_eq
  rfl

end Circular
