import UringProactor.Prelude.Monitor
import UringProactor.Util.MpscRuns

/-!
# The calls of the queue

A monitor records the calls of `enqueue` that returned `true`, in the order in which they returned,
each with its ticket and the number of calls that had returned when it began.  The order of the
tickets is a linear order of the calls that agrees with real time: a call that returned before
another one began has the smaller ticket.  `dequeue` returns the items in this order, each once, and
only items of calls that have returned.  The history of the queue is one of the bounded queue by
tickets.
-/

namespace Proactor

/-- A call of `enqueue` that returned `true`. -/
structure EnqueueCall (P T : Type*) where
  producer : P
  item : T
  /-- The position it took. -/
  ticket : ℕ
  /-- The number of calls that had returned `true` when it began. -/
  earlier : ℕ
deriving DecidableEq

/-- What the monitor records: the calls that returned `true`, in the order of their returns, and
for each producer how many there were when its last call began. -/
structure EnqueueRecord (P T : Type*) where
  accepted : List (EnqueueCall P T)
  began : P → ℕ

/-- The position that a producer has taken in the call it is in. -/
def EnqueuePc.ticket? {T : Type*} : EnqueuePc T → Option (BitVec 64)
  | .storeData _ pos => some pos
  | .storeSequence _ pos => some pos
  | _ => none

/-- A queue with the record of its calls. -/
abbrev CalledQueue (P T : Type*) := Monitored (QueueSystem P T) (EnqueueRecord P T)

namespace CalledQueue

open QueueSystem

variable {P T : Type*} [DecidableEq P]

/-- The call that the next step of `p` ends with the result `true`. -/
def returns (s : QueueSystem P T) (g : EnqueueRecord P T) (p : P) : Option (EnqueueCall P T) :=
  match s.producers p with
  | .storeSequence item pos => some ⟨p, item, pos.toNat, g.began p⟩
  | _ => none

/-- The record after an event. -/
def observe (s : QueueSystem P T) (g : EnqueueRecord P T) (e : QueueEvent P T) (_ : Unit)
    (_ : QueueSystem P T) : EnqueueRecord P T :=
  match e with
  | .enqueue p _ => { g with began := Function.update g.began p g.accepted.length }
  | .produce p _ => { g with accepted := g.accepted ++ (returns s g p).toList }
  | _ => g

/-- A step of the queue and its monitor. -/
def step (m : CalledQueue P T) (e : QueueEvent P T) : Option (CalledQueue P T) :=
  Monitored.step (fun s e => (s.step e).map (Prod.mk ())) observe m e

/-- A new queue, with nothing recorded. -/
def start (bits : ℕ) (data : ℕ → T) : CalledQueue P T := ⟨.start bits data, [], fun _ => 0⟩

/-! ### The record -/

/-- What holds of the record. -/
structure Recorded (s : QueueSystem P T) (g : EnqueueRecord P T) : Prop where
  published : s.tickets.published = (g.accepted.map EnqueueCall.ticket).reverse
  nodup : (g.accepted.map EnqueueCall.ticket).Nodup
  taken : ∀ c ∈ g.accepted, s.tickets.taken[c.ticket]? = some (c.producer, c.item)
  began_le : ∀ p, g.began p ≤ g.accepted.length
  earlier_le : ∀ c ∈ g.accepted, c.earlier ≤ g.accepted.length
  /-- A producer that has taken a position took it after the calls that had returned before. -/
  ahead : ∀ p, ∀ pos ∈ (s.producers p).ticket?, ∀ c ∈ g.accepted.take (g.began p),
    c.ticket < pos.toNat
  order : ∀ c' ∈ g.accepted, ∀ c ∈ g.accepted.take c'.earlier, c.ticket < c'.ticket
  /-- Every position was taken by a call that has returned, or by one that is not over. -/
  held : ∀ k < s.tickets.taken.length, k ∈ g.accepted.map EnqueueCall.ticket
    ∨ ∃ p, ∃ pos ∈ (s.producers p).ticket?, pos.toNat = k

variable {s s' : QueueSystem P T} {g : EnqueueRecord P T} {p : P} {pc : EnqueuePc T}

/-- The position of a producer after the producer `p` has moved. -/
theorem ticket?_of_update (hproducers : s'.producers = Function.update s.producers p pc) (q : P) :
  (s'.producers q).ticket? = if q = p then pc.ticket? else (s.producers q).ticket?
  := by
  rw [hproducers, Function.update_apply, apply_ite EnqueuePc.ticket?]

omit [DecidableEq P] in
theorem Recorded.mem_published (h : Recorded s g) {c : EnqueueCall P T} (hc : c ∈ g.accepted) :
  c.ticket ∈ s.tickets.published
  := by
  rw [h.published, List.mem_reverse]
  apply List.mem_map_of_mem hc

omit [DecidableEq P] in
/-- A step in which no position is taken or published. -/
theorem Recorded.congr (h : Recorded s g) (htaken : s'.tickets.taken = s.tickets.taken)
    (hpublished : s'.tickets.published = s.tickets.published)
    (hproducers : ∀ p, (s'.producers p).ticket? = (s.producers p).ticket?) :
  Recorded s' g
  := by
  refine { h with published := ?_, taken := ?_, ahead := ?_, held := ?_ }
  · rw [hpublished, h.published]
  · rw [htaken]
    apply h.taken
  · simp only [hproducers]
    apply h.ahead
  · simp only [hproducers, htaken]
    apply h.held

/-- A producer moves to a place where it has the position it had. -/
theorem Recorded.move (h : Recorded s g) (htickets : s'.tickets = s.tickets)
    (hproducers : s'.producers = Function.update s.producers p pc)
    (hpc : pc.ticket? = (s.producers p).ticket?) :
  Recorded s' g
  := by
  apply h.congr (congrArg _ htickets) (congrArg _ htickets)
  intro q
  rw [ticket?_of_update hproducers]
  split
  case isTrue hq => rw [hpc, hq]
  case isFalse => rfl

/-- A call of `enqueue` begins. -/
theorem Recorded.enqueue (h : Recorded s g) (hpc : (s.producers p).ticket? = none) (item : T) :
  Recorded (s.goto p (.loadTail item))
    { g with began := Function.update g.began p g.accepted.length }
  := by
  have hgoto : Recorded (s.goto p (.loadTail item)) g := h.move rfl rfl hpc.symm
  refine { hgoto with began_le := ?_, ahead := ?_ } <;> dsimp only
  · intro q
    by_cases hq : q = p
    · rw [hq, Function.update_self]
    · rw [Function.update_of_ne hq]
      apply h.began_le
  · intro q pos hpos
    by_cases hq : q = p
    · rw [hq, goto_producers] at hpos
      cases hpos
    · rw [Function.update_of_ne hq]
      apply hgoto.ahead q pos hpos

/-- A producer takes a position, behind all that were published. -/
theorem Recorded.reserve (h : Recorded s g) (hinv : Inv s) {item : T} {pos : BitVec 64}
    (hpc : s.producers p = .compareExchange item pos) (htail : s.queue.tail = pos)
    (hproducers : s'.producers = Function.update s.producers p (.storeData item pos))
    (htickets : s'.tickets = s.tickets.reserve (p, item)) :
  Recorded s' g
  := by
  have hlt : ∀ c ∈ g.accepted, c.ticket < s.tickets.taken.length :=
    fun c hc => hinv.tickets.published_lt _ (h.mem_published hc)
  have hpos : pos.toNat = s.tickets.taken.length := by
    rw [← htail, hinv.tail]
  have htaken : s'.tickets.taken = s.tickets.taken ++ [(p, item)] :=
    congrArg TicketQueue.taken htickets
  refine { h with published := ?_, taken := ?_, ahead := ?_, held := ?_ }
  · rw [htickets]
    apply h.published
  · intro c hc
    rw [htaken, List.getElem?_append_left (hlt c hc)]
    apply h.taken c hc
  · intro q pos' hpos' c hc
    rw [ticket?_of_update hproducers] at hpos'
    split at hpos'
    case isTrue =>
      cases hpos'
      rw [hpos]
      apply hlt c (List.mem_of_mem_take hc)
    case isFalse => apply h.ahead q pos' hpos' c hc
  · intro k hk
    rw [htaken, List.length_append, List.length_singleton] at hk
    rcases Nat.lt_succ_iff_lt_or_eq.mp hk with hk | rfl
    · rcases h.held k hk with hmem | ⟨q, pos', hpos', hk'⟩
      · left
        apply hmem
      · right
        use q, pos'
        rw [ticket?_of_update hproducers, if_neg]
        · use hpos'
        · rintro rfl
          rw [hpc] at hpos'
          cases hpos'
    · right
      use p, pos
      rw [ticket?_of_update hproducers, if_pos rfl]
      use rfl

/-- A call of `enqueue` publishes its position and returns. -/
theorem Recorded.publish (h : Recorded s g) (hinv : Inv s) {item : T} {pos : BitVec 64}
    (hpc : s.producers p = .storeSequence item pos)
    (hproducers : s'.producers = Function.update s.producers p (.returned true))
    (htickets : s'.tickets = s.tickets.publish pos.toNat) :
  Recorded s' { g with accepted := g.accepted ++ [⟨p, item, pos.toNat, g.began p⟩] }
  := by
  obtain ⟨hholds, -⟩ : Holds s.tickets p item pos ∧ _ := by
    have hok := hinv.producers p
    rw [hpc] at hok
    apply hok
  have hnew : pos.toNat ∉ g.accepted.map EnqueueCall.ticket := by
    rw [← List.mem_reverse, ← h.published]
    apply hholds.unpublished
  constructor <;> dsimp only
  case published =>
    rw [htickets, TicketQueue.publish, h.published, List.map_append, List.reverse_append]
    rfl
  case nodup =>
    rw [List.map_append]
    apply h.nodup.append (List.nodup_singleton _)
    intro k hk hk'
    rw [List.mem_singleton.mp hk'] at hk
    apply hnew hk
  case taken =>
    rw [htickets]
    intro c hc
    rcases List.mem_append.mp hc with hc | hc
    · apply h.taken c hc
    · rw [List.mem_singleton.mp hc]
      apply hholds.taken
  case began_le =>
    intro q
    rw [List.length_append]
    apply Nat.le_add_right_of_le (h.began_le q)
  case earlier_le =>
    intro c hc
    rw [List.length_append]
    apply Nat.le_add_right_of_le
    rcases List.mem_append.mp hc with hc | hc
    · apply h.earlier_le c hc
    · rw [List.mem_singleton.mp hc]
      apply h.began_le
  case ahead =>
    intro q pos' hpos'
    rw [List.take_append_of_le_length (h.began_le q)]
    rw [ticket?_of_update hproducers] at hpos'
    split at hpos'
    case isTrue => cases hpos'
    case isFalse => apply h.ahead q pos' hpos'
  case order =>
    intro c' hc'
    rcases List.mem_append.mp hc' with hc' | hc'
    · rw [List.take_append_of_le_length (h.earlier_le c' hc')]
      apply h.order c' hc'
    · rw [List.mem_singleton.mp hc', List.take_append_of_le_length (h.began_le p)]
      apply h.ahead p pos
      rw [hpc]
      rfl
  case held =>
    intro k hk
    rw [htickets] at hk
    rw [List.map_append, List.mem_append]
    rcases h.held k hk with hmem | ⟨q, pos', hpos', hk'⟩
    · left
      left
      apply hmem
    · by_cases hq : q = p
      · left
        right
        rw [hq, hpc] at hpos'
        cases hpos'
        rw [← hk']
        apply List.mem_singleton_self
      · right
        use q, pos'
        rw [ticket?_of_update hproducers, if_neg hq]
        use hpos'

/-- A call begins when the producer is in no other. -/
theorem ticket?_of_enqueue {item : T} (hstep : s.step (.enqueue p item) = some s') :
  (s.producers p).ticket? = none
  := by
  rw [QueueSystem.step] at hstep
  split at hstep
  case h_1 hpc => exact congrArg EnqueuePc.ticket? hpc
  case h_2 hpc => exact congrArg EnqueuePc.ticket? hpc
  case h_3 => cases hstep

/-- A producer that goes back to its load of `tail_` has taken no position. -/
theorem ticket?_of_retry {item : T} {spurious : Bool}
    (hstep : s.produce p spurious = some (s.goto p (.loadTail item))) :
  (s.producers p).ticket? = none
  := by
  cases hpc : s.producers p with
  | storeData item' pos =>
      rw [produce, hpc] at hstep
      have hproducers := congrArg (fun s => s.producers p) (Option.some.inj hstep)
      dsimp only at hproducers
      rw [goto_producers, goto_producers] at hproducers
      cases hproducers
  | storeSequence item' pos =>
      rw [produce, hpc] at hstep
      have hproducers := congrArg (fun s => s.producers p) (Option.some.inj hstep)
      dsimp only at hproducers
      rw [goto_producers, goto_producers] at hproducers
      cases hproducers
  | _ => rfl

omit [DecidableEq P] in
theorem returns_of_ticket? (h : (s.producers p).ticket? = none) :
  returns s g p = none
  := by
  rw [returns]
  split
  case h_1 hpc =>
    rw [hpc] at h
    cases h
  case h_2 => rfl

/-- Every step keeps the record right. -/
theorem Recorded.step (h : Recorded s g) (hinv : Inv s) {e : QueueEvent P T}
    (hstep : s.step e = some s') :
  Recorded s' (observe s g e () s')
  := by
  have hsame : ∀ {p : P} {spurious : Bool}, returns s g p = none →
      observe s g (.produce p spurious) () s' = g := by
    intro p spurious hnone
    rw [observe, hnone, Option.toList_none, List.append_nil]
  cases step_cases hstep with
  | enqueue p item => apply h.enqueue (ticket?_of_enqueue hstep)
  | loadTail spurious hpc =>
      rw [hsame (by rw [returns, hpc])]
      exact h.move rfl rfl (by rw [hpc]; rfl)
  | free spurious hpc hdiff =>
      rw [hsame (by rw [returns, hpc])]
      exact h.move rfl rfl (by rw [hpc]; rfl)
  | full spurious hpc hdiff =>
      rw [hsame (by rw [returns, hpc])]
      exact h.move rfl rfl (by rw [hpc]; rfl)
  | retry spurious =>
      have hnone := ticket?_of_retry hstep
      rw [hsame (returns_of_ticket? hnone)]
      exact h.move rfl rfl hnone.symm
  | reserve spurious hpc htail =>
      rw [hsame (by rw [returns, hpc])]
      apply h.reserve hinv hpc htail rfl rfl
  | storeData spurious hpc =>
      rw [hsame (by rw [returns, hpc])]
      exact h.move rfl rfl (by rw [hpc]; rfl)
  | publish spurious hpc =>
      rw [observe, returns, hpc]
      apply h.publish hinv hpc rfl rfl
  | dequeue => exact h.congr rfl rfl (fun _ => rfl)
  | found => exact h.congr rfl rfl (fun _ => rfl)
  | missed => exact h.congr rfl rfl (fun _ => rfl)
  | readData => exact h.congr rfl rfl (fun _ => rfl)
  | giveBack => exact h.congr rfl rfl (fun _ => rfl)
  | advance => exact h.congr rfl rfl (fun _ => rfl)

/-! ### Runs -/

variable {bits : ℕ} {data : ℕ → T} {m : CalledQueue P T}

/-- The monitor does not influence the queue. -/
theorem reachable (h : Reaches step (fun _ _ => True) (start bits data) m) :
  Reachable bits data m.state
  := by
  obtain ⟨s, hreach, rfl⟩ : ∃ s, Reachable bits data s ∧ m.state = s := by
    apply h.simulation (R := fun m s => m.state = s) rfl
    rintro m m' e s rfl - hstep
    right
    obtain ⟨u, hresult, -⟩ := Monitored.step_eq_some hstep
    obtain ⟨s', hstep', heq⟩ := Option.map_eq_some_iff.mp hresult
    use e, s', trivial, hstep'
    exact (congrArg Prod.snd heq).symm
  apply hreach

/-- The tickets that fit at the end of a step fitted before it. -/
theorem fits_of_step {e : QueueEvent P T} (hstep : s.step e = some s') (hfits : s'.Fits) :
  s.Fits
  := by
  have hsteps := step_cases hstep
  have hlen := hsteps.taken_prefix.length_le
  have hcap : s'.queue.capacity = s.queue.capacity := congrArg (2 ^ ·) hsteps.bits_eq
  rw [Fits, hcap] at hfits
  rw [Fits]
  omega

/-- The record is right, and the tickets are those of a run of the bounded queue, in every state
reached before the counters wrap. -/
theorem recorded (h : Reaches step (fun _ _ => True) (start bits data) m) (hbits : 1 ≤ bits)
    (hfits : m.state.Fits) :
  Recorded m.state m.record
    ∧ Relation.ReflTransGen (TicketQueue.Step (2 ^ bits)) .empty m.state.tickets
  := by
  induction h with
  | start =>
      refine ⟨⟨rfl, List.nodup_nil, ?_, fun _ => Nat.le_refl 0, ?_, ?_, ?_, ?_⟩, .refl⟩
      · intro c hc
        cases hc
      · intro c hc
        cases hc
      · intro p pos hpos
        cases hpos
      · intro c hc
        cases hc
      · intro k hk
        cases hk
  | @next m m' e hreach _ hstep ih =>
      obtain ⟨u, hresult, hrecord⟩ := Monitored.step_eq_some hstep
      obtain ⟨s', hstep', heq⟩ := Option.map_eq_some_iff.mp hresult
      obtain rfl : s' = m'.state := congrArg Prod.snd heq
      have hfits' := fits_of_step hstep' hfits
      obtain ⟨hrecorded, hrun⟩ := ih hfits'
      have hinv := (reachable hreach).inv hbits hfits'
      constructor
      · rw [hrecord]
        apply hrecorded.step hinv hstep'
      · have hcap : m.state.queue.capacity = 2 ^ bits := congrArg (2 ^ ·) (reachable hreach).bits_eq
        rcases hinv.refines (step_cases hstep') with hsame | hticket
        · rw [hsame]
          apply hrun
        · rw [hcap] at hticket
          apply hrun.tail hticket

/-- The queue is a bounded queue whose order is the real order of the calls.  In every run of at
most `2 ^ 63 - Capacity` tickets, over a queue of two slots or more: the tickets are those of a run
of the bounded queue by tickets; every call of `enqueue` that returned `true` has a ticket of its
own, with its item, and any other ticket is that of a call that is not over; a call that returned
before another one began has the smaller ticket; and `dequeue` has returned the items of the first
tickets, in order, all of them tickets of calls that have returned. -/
theorem calls_linearized (hbits : 1 ≤ bits)
    (hreach : Reaches step (fun _ _ => True) (start bits data) m)
    (hfits : m.state.tickets.taken.length + 2 ^ bits ≤ 2 ^ 63) :
  let s := m.state
  let calls := m.record.accepted
  Relation.ReflTransGen (TicketQueue.Step (2 ^ bits)) .empty s.tickets
    ∧ (calls.map EnqueueCall.ticket).Nodup
    ∧ (∀ c ∈ calls, s.tickets.taken[c.ticket]? = some (c.producer, c.item))
    ∧ (∀ k < s.tickets.taken.length, k ∈ calls.map EnqueueCall.ticket
      ∨ ∃ p, ∃ pos ∈ (s.producers p).ticket?, pos.toNat = k)
    ∧ (∀ c' ∈ calls, ∀ c ∈ calls.take c'.earlier, c.ticket < c'.ticket)
    ∧ s.returned = (s.tickets.taken.take s.returned.length).map Prod.snd
    ∧ ∀ k < s.returned.length, k ∈ calls.map EnqueueCall.ticket
  := by
  have hcap : m.state.queue.capacity = 2 ^ bits := congrArg (2 ^ ·) (reachable hreach).bits_eq
  have hfits' : m.state.Fits := by
    rw [Fits, hcap]
    apply lt_of_le_of_lt hfits (by decide)
  obtain ⟨hrecorded, hrun⟩ := recorded hreach hbits hfits'
  have hinv := (reachable hreach).inv hbits hfits'
  use hrun, hrecorded.nodup, hrecorded.taken, hrecorded.held, hrecorded.order, hinv.returned
  intro k hk
  rw [← List.mem_reverse, ← hrecorded.published]
  apply hinv.tickets.consumed_published
  have hconsumer := hinv.consumer
  cases hpc : m.state.consumer <;> simp only [hpc, ConsumerOk] at hconsumer <;> omega

/-- Producer 3 passes an item through the queue; then the calls of producers 4 and 5 overlap, and
that of producer 5, which takes its ticket second, returns first. -/
theorem calls_linearized_overlapping :
  ∃ m : CalledQueue ℕ ℕ, Reaches step (fun _ _ => True) (start 2 (fun _ => 0)) m
    ∧ m.record.accepted = [⟨3, 7, 0, 0⟩, ⟨5, 9, 2, 1⟩, ⟨4, 8, 1, 1⟩]
    ∧ m.state.returned = [7]
    ∧ ∀ k < 1, k ∈ m.record.accepted.map EnqueueCall.ticket
  := by
  obtain ⟨m, hreach, haccepted, hreturned, hfits⟩ : ∃ m : CalledQueue ℕ ℕ,
      Reaches step (fun _ _ => True) (start 2 (fun _ => 0)) m
      ∧ m.record.accepted = [⟨3, 7, 0, 0⟩, ⟨5, 9, 2, 1⟩, ⟨4, 8, 1, 1⟩]
      ∧ m.state.returned = [7]
      ∧ m.state.tickets.taken.length + 2 ^ 2 ≤ 2 ^ 63 := by
    apply Reaches.exists_of_follow [.enqueue 3 7, .produce 3 false, .produce 3 false,
      .produce 3 false, .produce 3 false, .produce 3 false, .dequeue, .consume, .consume, .consume,
      .consume, .enqueue 4 8, .enqueue 5 9, .produce 4 false, .produce 4 false, .produce 4 false,
      .produce 5 false, .produce 5 false, .produce 5 false, .produce 5 false, .produce 5 false,
      .produce 4 false, .produce 4 false]
    decide +kernel
  use m, hreach, haccepted, hreturned
  obtain ⟨-, -, -, -, -, -, hdequeued⟩ := calls_linearized (by decide) hreach hfits
  rw [hreturned] at hdequeued
  apply hdequeued

end CalledQueue

end Proactor
