import Mathlib

/-!
# Bounded queues by tickets

A `TicketQueue` is a queue of many producers and one consumer, seen through its history.
A producer takes a ticket for its element and publishes the ticket later; the consumer
consumes the tickets in order, each after it was published.  `Step` lists what can happen to
a queue of a given capacity, and `Sound` what holds in every state.
-/

/-- The history of a queue: the elements by ticket, the tickets that were published, and the
number of tickets that were consumed. -/
structure TicketQueue (α : Type*) where
  taken : List α
  published : List ℕ
  consumed : ℕ

namespace TicketQueue

variable {α : Type*} {capacity k : ℕ} {q q' : TicketQueue α}

/-- The queue without a ticket. -/
def empty : TicketQueue α := ⟨[], [], 0⟩

/-- Take the next ticket for `a`. -/
def reserve (q : TicketQueue α) (a : α) : TicketQueue α := { q with taken := q.taken ++ [a] }

/-- Publish the ticket `k`. -/
def publish (q : TicketQueue α) (k : ℕ) : TicketQueue α := { q with published := k :: q.published }

/-- Consume the oldest ticket that is left. -/
def consume (q : TicketQueue α) : TicketQueue α := { q with consumed := q.consumed + 1 }

/-- The elements whose tickets were taken but not consumed, oldest first. -/
def waiting (q : TicketQueue α) : List α := q.taken.drop q.consumed

/-- At least `capacity` tickets were taken but not consumed. -/
def Full (capacity : ℕ) (q : TicketQueue α) : Prop := q.consumed + capacity ≤ q.taken.length

instance : Decidable (q.Full capacity) := inferInstanceAs (Decidable (_ ≤ _))

/-- The element the consumer finds: that of the oldest ticket left, once it is published. -/
def front (q : TicketQueue α) : Option α :=
  if q.consumed ∈ q.published then q.taken[q.consumed]? else none

/-- What can happen to a queue of the given capacity. -/
inductive Step (capacity : ℕ) : TicketQueue α → TicketQueue α → Prop where
  | reserve {q : TicketQueue α} (a : α) (hroom : ¬ q.Full capacity) :
      Step capacity q (q.reserve a)
  | publish {q : TicketQueue α} {k : ℕ} (hlt : k < q.taken.length)
      (hnew : k ∉ q.published) : Step capacity q (q.publish k)
  | consume {q : TicketQueue α} {a : α} (hfront : q.front = some a) :
      Step capacity q q.consume

/-- The tickets are consumed after they were published and published after they were taken,
and no more than `capacity` are taken but not consumed. -/
structure Sound (capacity : ℕ) (q : TicketQueue α) : Prop where
  consumed_le : q.consumed ≤ q.taken.length
  length_le : q.taken.length ≤ q.consumed + capacity
  published_lt : ∀ k ∈ q.published, k < q.taken.length
  consumed_published : ∀ k < q.consumed, k ∈ q.published

@[simp]
theorem length_taken_reserve (a : α) :
  (q.reserve a).taken.length = q.taken.length + 1
  := List.length_append

@[simp]
theorem consumed_consume :
  q.consume.consumed = q.consumed + 1
  := rfl

theorem sound_empty :
  (empty : TicketQueue α).Sound capacity
  := by
  constructor <;> simp [empty]

theorem front_eq_some {a : α} (h : q.front = some a) :
  q.consumed ∈ q.published ∧ q.taken[q.consumed]? = some a
  := by
  rw [front] at h
  split at h
  case isTrue hmem => exact ⟨hmem, h⟩
  case isFalse => cases h

/-- Without an element at the front the oldest ticket left is not published. -/
theorem Sound.not_mem_of_front_eq_none (hsound : q.Sound capacity) (h : q.front = none) :
  q.consumed ∉ q.published
  := by
  intro hmem
  rw [front, if_pos hmem, List.getElem?_eq_none_iff] at h
  have := hsound.published_lt _ hmem
  omega

/-- A queue that has consumed all its tickets has nothing waiting. -/
theorem waiting_eq_nil_iff (hsound : q.Sound capacity) :
  q.waiting = [] ↔ q.consumed = q.taken.length
  := by
  have := hsound.consumed_le
  rw [waiting, List.drop_eq_nil_iff]
  omega

theorem waiting_of_front {a : α} (h : q.front = some a) :
  q.waiting = a :: q.consume.waiting
  := by
  obtain ⟨-, hget⟩ := front_eq_some h
  obtain ⟨hlt, rfl⟩ := List.getElem?_eq_some_iff.mp hget
  rw [waiting, List.drop_eq_getElem_cons hlt]
  rfl

theorem Sound.waiting_reserve (hsound : q.Sound capacity) (a : α) :
  (q.reserve a).waiting = q.waiting ++ [a]
  := List.drop_append_of_le_length hsound.consumed_le

/-- Everything that can happen to a queue keeps it sound. -/
theorem Step.sound (h : Step capacity q q') (hsound : q.Sound capacity) :
  q'.Sound capacity
  := by
  obtain ⟨hle, hcap, hpub, hcons⟩ := hsound
  cases h with
  | reserve a hroom =>
      have hroom : ¬ q.consumed + capacity ≤ q.taken.length := hroom
      refine ⟨?_, ?_, ?_, hcons⟩
      · rw [length_taken_reserve]
        exact Nat.le_succ_of_le hle
      · rw [length_taken_reserve]
        exact Nat.lt_of_not_le hroom
      · intro k hk
        rw [length_taken_reserve]
        exact Nat.lt_succ_of_lt (hpub k hk)
  | publish hlt hnew =>
      refine ⟨hle, hcap, ?_, ?_⟩
      · intro k hk
        rcases List.mem_cons.mp hk with rfl | hk
        · exact hlt
        · exact hpub k hk
      · intro k hk
        exact List.mem_cons_of_mem _ (hcons k hk)
  | consume hfront =>
      obtain ⟨hmem, hget⟩ := front_eq_some hfront
      have hlt := hpub _ hmem
      refine ⟨hlt, ?_, hpub, ?_⟩
      · rw [consumed_consume]
        exact Nat.le_trans hcap (by omega)
      · intro k hk
        rcases Nat.lt_succ_iff_lt_or_eq.mp hk with hk | rfl
        · exact hcons k hk
        · exact hmem

end TicketQueue
