import UringProactor.Prelude.Circular
import UringProactor.Prelude.Run
import UringProactor.Prelude.TicketQueue

/-!
# The queue of many producers and one consumer

`MPSCQueue` is the memory of the queue.  A `QueueSystem` adds the producers, each somewhere in
`enqueue`, and the consumer, somewhere in `dequeue`.  An event is a call or one load, store or
compare-exchange of one of them, and the events of all of them interleave freely.

The system carries its history: `tickets` records the successful compare-exchanges on `tail_`,
the stores that publish a slot and the stores that give a slot back, and `returned` what the
successful calls of `dequeue` returned.  No step reads the history.
-/

namespace Proactor

/-- `MPSCQueue`, with `Capacity` equal to `2 ^ bits`. -/
structure MPSCQueue (T : Type*) where
  bits : ℕ
  /-- `head_`. -/
  head : BitVec 64
  /-- `tail_`. -/
  tail : BitVec 64
  /-- The fields `sequence` of `buffer_`. -/
  sequence : ℕ → BitVec 64
  /-- The fields `data` of `buffer_`. -/
  data : ℕ → T

namespace MPSCQueue

variable {T : Type*}

/-- `Capacity`. -/
def capacity (q : MPSCQueue T) : ℕ := 2 ^ q.bits

/-- The index `pos & (Capacity - 1)` of a slot. -/
def index (q : MPSCQueue T) (pos : BitVec 64) : ℕ := Circular.slot q.bits pos

/-- The difference of two counters as `intptr_t`. -/
def diff (a b : BitVec 64) : Int := a.toInt - b.toInt

/-- The constructor.  It leaves the data of the slots as it is. -/
def new (bits : ℕ) (data : ℕ → T) : MPSCQueue T where
  bits := bits
  head := 0
  tail := 0
  sequence i := BitVec.ofNat 64 i
  data := data

/-- `slot->data = item`. -/
def storeData (q : MPSCQueue T) (pos : BitVec 64) (item : T) : MPSCQueue T :=
  { q with data := Function.update q.data (q.index pos) item }

/-- `slot->sequence.store(seq)`. -/
def storeSequence (q : MPSCQueue T) (pos seq : BitVec 64) : MPSCQueue T :=
  { q with sequence := Function.update q.sequence (q.index pos) seq }

end MPSCQueue

/-- Where a producer is: outside of `enqueue`, or before the step the name tells, with its
local variables. -/
inductive EnqueuePc (T : Type*) where
  | idle
  | returned (ok : Bool)
  | loadTail (item : T)
  | loadSequence (item : T) (pos : BitVec 64)
  | compareExchange (item : T) (pos : BitVec 64)
  | storeData (item : T) (pos : BitVec 64)
  | storeSequence (item : T) (pos : BitVec 64)

/-- Where the consumer is: outside of `dequeue`, or before the step the name tells, with the
item it has read. -/
inductive DequeuePc (T : Type*) where
  | idle
  | returned (ok : Bool)
  | loadSequence
  | readData
  | storeSequence (item : T)
  | advance (item : T)

/-- The queue with its producers and its consumer, and their history. -/
structure QueueSystem (P T : Type*) where
  queue : MPSCQueue T
  producers : P → EnqueuePc T
  consumer : DequeuePc T
  /-- The tickets, each with the producer that took it and its item. -/
  tickets : TicketQueue (P × T)
  /-- The items that the successful calls of `dequeue` returned. -/
  returned : List T

/-- An event: a call of `enqueue` or `dequeue`, or the next step of a producer or of the
consumer.  A `compare_exchange_weak` with the flag `spurious` fails in any case. -/
inductive QueueEvent (P T : Type*) where
  | enqueue (p : P) (item : T)
  | produce (p : P) (spurious : Bool)
  | dequeue
  | consume

namespace QueueSystem

variable {P T : Type*} [DecidableEq P]

/-- Move the producer `p`. -/
def goto (s : QueueSystem P T) (p : P) (pc : EnqueuePc T) : QueueSystem P T :=
  { s with producers := Function.update s.producers p pc }

/-- The next step of the producer `p` in `enqueue`. -/
def produce (s : QueueSystem P T) (p : P) (spurious : Bool) : Option (QueueSystem P T) :=
  match s.producers p with
  | .idle => none
  | .returned _ => none
  | .loadTail item => some (s.goto p (.loadSequence item s.queue.tail))
  | .loadSequence item pos =>
      let diff := MPSCQueue.diff (s.queue.sequence (s.queue.index pos)) pos
      if diff = 0 then
        some (s.goto p (.compareExchange item pos))
      else if diff < 0 then
        some (s.goto p (.returned false))
      else
        some (s.goto p (.loadTail item))
  | .compareExchange item pos =>
      if s.queue.tail = pos ∧ spurious = false then
        some { s.goto p (.storeData item pos) with
          queue := { s.queue with tail := pos + 1 }
          tickets := s.tickets.reserve (p, item) }
      else
        some (s.goto p (.loadTail item))
  | .storeData item pos =>
      some { s.goto p (.storeSequence item pos) with queue := s.queue.storeData pos item }
  | .storeSequence _ pos =>
      some { s.goto p (.returned true) with
        queue := s.queue.storeSequence pos (pos + 1)
        tickets := s.tickets.publish pos.toNat }

/-- The next step of the consumer in `dequeue`. -/
def consume (s : QueueSystem P T) : Option (QueueSystem P T) :=
  match s.consumer with
  | .idle => none
  | .returned _ => none
  | .loadSequence =>
      let seq := s.queue.sequence (s.queue.index s.queue.head)
      if MPSCQueue.diff seq (s.queue.head + 1) = 0 then
        some { s with consumer := .readData }
      else
        some { s with consumer := .returned false }
  | .readData =>
      some { s with consumer := .storeSequence (s.queue.data (s.queue.index s.queue.head)) }
  | .storeSequence item =>
      some { s with
        consumer := .advance item
        queue := s.queue.storeSequence s.queue.head
          (s.queue.head + BitVec.ofNat 64 s.queue.capacity)
        tickets := s.tickets.consume }
  | .advance item =>
      some { s with
        consumer := .returned true
        queue := { s.queue with head := s.queue.head + 1 }
        returned := s.returned ++ [item] }

/-- One event; `none` when it cannot happen. -/
def step (s : QueueSystem P T) : QueueEvent P T → Option (QueueSystem P T)
  | .enqueue p item =>
      match s.producers p with
      | .idle => some (s.goto p (.loadTail item))
      | .returned _ => some (s.goto p (.loadTail item))
      | _ => none
  | .produce p spurious => s.produce p spurious
  | .dequeue =>
      match s.consumer with
      | .idle => some { s with consumer := .loadSequence }
      | .returned _ => some { s with consumer := .loadSequence }
      | _ => none
  | .consume => s.consume

/-- A new queue whose producers and consumer are outside of its functions. -/
def start (bits : ℕ) (data : ℕ → T) : QueueSystem P T where
  queue := .new bits data
  producers _ := .idle
  consumer := .idle
  tickets := .empty
  returned := []

/-! ### What a step does -/

/-- The steps of the system. -/
inductive Steps (s : QueueSystem P T) : QueueEvent P T → QueueSystem P T → Prop where
  | enqueue (p : P) (item : T) :
      Steps s (.enqueue p item) (s.goto p (.loadTail item))
  | loadTail {p : P} {item : T} (spurious : Bool) (hpc : s.producers p = .loadTail item) :
      Steps s (.produce p spurious) (s.goto p (.loadSequence item s.queue.tail))
  | free {p : P} {item : T} {pos : BitVec 64} (spurious : Bool)
      (hpc : s.producers p = .loadSequence item pos)
      (hdiff : MPSCQueue.diff (s.queue.sequence (s.queue.index pos)) pos = 0) :
      Steps s (.produce p spurious) (s.goto p (.compareExchange item pos))
  | full {p : P} {item : T} {pos : BitVec 64} (spurious : Bool)
      (hpc : s.producers p = .loadSequence item pos)
      (hdiff : MPSCQueue.diff (s.queue.sequence (s.queue.index pos)) pos < 0) :
      Steps s (.produce p spurious) (s.goto p (.returned false))
  | retry {p : P} {item : T} (spurious : Bool) :
      Steps s (.produce p spurious) (s.goto p (.loadTail item))
  | reserve {p : P} {item : T} {pos : BitVec 64} (spurious : Bool)
      (hpc : s.producers p = .compareExchange item pos) (htail : s.queue.tail = pos) :
      Steps s (.produce p spurious) { s.goto p (.storeData item pos) with
        queue := { s.queue with tail := pos + 1 }
        tickets := s.tickets.reserve (p, item) }
  | storeData {p : P} {item : T} {pos : BitVec 64} (spurious : Bool)
      (hpc : s.producers p = .storeData item pos) :
      Steps s (.produce p spurious) { s.goto p (.storeSequence item pos) with
        queue := s.queue.storeData pos item }
  | publish {p : P} {item : T} {pos : BitVec 64} (spurious : Bool)
      (hpc : s.producers p = .storeSequence item pos) :
      Steps s (.produce p spurious) { s.goto p (.returned true) with
        queue := s.queue.storeSequence pos (pos + 1)
        tickets := s.tickets.publish pos.toNat }
  | dequeue (hpc : s.consumer = .idle ∨ ∃ ok, s.consumer = .returned ok) :
      Steps s .dequeue { s with consumer := .loadSequence }
  | found (hpc : s.consumer = .loadSequence)
      (hdiff : MPSCQueue.diff (s.queue.sequence (s.queue.index s.queue.head))
        (s.queue.head + 1) = 0) :
      Steps s .consume { s with consumer := .readData }
  | missed (hpc : s.consumer = .loadSequence)
      (hdiff : MPSCQueue.diff (s.queue.sequence (s.queue.index s.queue.head))
        (s.queue.head + 1) ≠ 0) :
      Steps s .consume { s with consumer := .returned false }
  | readData (hpc : s.consumer = .readData) :
      Steps s .consume { s with
        consumer := .storeSequence (s.queue.data (s.queue.index s.queue.head)) }
  | giveBack {item : T} (hpc : s.consumer = .storeSequence item) :
      Steps s .consume { s with
        consumer := .advance item
        queue := s.queue.storeSequence s.queue.head
          (s.queue.head + BitVec.ofNat 64 s.queue.capacity)
        tickets := s.tickets.consume }
  | advance {item : T} (hpc : s.consumer = .advance item) :
      Steps s .consume { s with
        consumer := .returned true
        queue := { s.queue with head := s.queue.head + 1 }
        returned := s.returned ++ [item] }

variable {s s' : QueueSystem P T} {e : QueueEvent P T}

/-- Every step of a producer is in the list. -/
theorem produce_cases {p : P} {spurious : Bool} (h : s.produce p spurious = some s') :
  Steps s (.produce p spurious) s'
  := by
  rw [produce] at h
  split at h
  case h_1 => cases h
  case h_2 => cases h
  case h_3 item hpc =>
    cases h
    exact .loadTail spurious hpc
  case h_4 item pos hpc =>
    dsimp only at h
    split at h
    case isTrue hdiff =>
      cases h
      exact .free spurious hpc hdiff
    case isFalse =>
      split at h
      case isTrue hdiff =>
        cases h
        exact .full spurious hpc hdiff
      case isFalse =>
        cases h
        exact .retry spurious
  case h_5 item pos hpc =>
    split at h
    case isTrue hcond =>
      cases h
      exact .reserve spurious hpc hcond.1
    case isFalse =>
      cases h
      exact .retry spurious
  case h_6 item pos hpc =>
    cases h
    exact .storeData spurious hpc
  case h_7 item pos hpc =>
    cases h
    exact .publish spurious hpc

/-- Every step of the consumer is in the list. -/
theorem consume_cases (h : s.consume = some s') :
  Steps s .consume s'
  := by
  rw [consume] at h
  split at h
  case h_1 => cases h
  case h_2 => cases h
  case h_3 hpc =>
    dsimp only at h
    split at h
    case isTrue hdiff =>
      cases h
      exact .found hpc hdiff
    case isFalse hdiff =>
      cases h
      exact .missed hpc hdiff
  case h_4 hpc =>
    cases h
    exact .readData hpc
  case h_5 item hpc =>
    cases h
    exact .giveBack hpc
  case h_6 item hpc =>
    cases h
    exact .advance hpc

/-- Every step is in the list. -/
theorem step_cases (h : s.step e = some s') :
  Steps s e s'
  := by
  cases e with
  | enqueue p item =>
      rw [step] at h
      split at h
      case h_1 =>
        cases h
        exact .enqueue p item
      case h_2 =>
        cases h
        exact .enqueue p item
      case h_3 => cases h
  | produce p spurious => exact produce_cases h
  | dequeue =>
      rw [step] at h
      split at h
      case h_1 hpc =>
        cases h
        exact .dequeue (.inl hpc)
      case h_2 ok hpc =>
        cases h
        exact .dequeue (.inr ⟨ok, hpc⟩)
      case h_3 => cases h
  | consume => exact consume_cases h

end QueueSystem

end Proactor
