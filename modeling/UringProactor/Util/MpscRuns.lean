import UringProactor.Util.MpscSafety

/-!
# Runs of the queue

The invariant holds in every state a queue can reach before its counters wrap.  From it come
the order in which items are returned, the meaning of the two failures, and the progress of
undisturbed calls.  A run of undisturbed calls also shows where the comparison of counters as
`intptr_t` ends to be right.
-/

namespace Proactor

namespace QueueSystem

variable {P T : Type*} {s : QueueSystem P T} {bits : ℕ} {data : ℕ → T}

theorem start_inv (hfits : (start bits data : QueueSystem P T).Fits) :
  Inv (start bits data : QueueSystem P T)
  := by
  constructor
  case tickets => exact TicketQueue.sound_empty
  case tail => rfl
  case head => rfl
  case sequence =>
    intro k _ hk
    have hk : k < 0 + 2 ^ bits := hk
    have hfits : 0 + 2 ^ bits < 2 ^ 64 := hfits
    rw [Nat.zero_add] at hk hfits
    change (BitVec.ofNat 64 (k % 2 ^ bits)).toNat = k
    rw [Nat.mod_eq_of_lt hk, BitVec.toNat_ofNat, Nat.mod_eq_of_lt (hk.trans hfits)]
  case data =>
    intro k hk
    cases hk
  case producers =>
    intro p
    trivial
  case consumer => rfl
  case returned => rfl

variable [DecidableEq P]

/-- The states of the system with a queue of `2 ^ bits` slots. -/
def Reachable (bits : ℕ) (data : ℕ → T) (s : QueueSystem P T) : Prop :=
  Reaches step (fun _ _ => True) (start bits data) s

theorem Reachable.bits_eq (h : Reachable bits data s) :
  s.queue.bits = bits
  := by
  apply h.invariant (I := fun s => s.queue.bits = bits)
  · rfl
  · intro t u e ih _ hstep
    rw [(step_cases hstep).bits_eq, ih]

/-- The invariant holds in every state reached before the counters wrap. -/
theorem Reachable.inv (h : Reachable bits data s) (hbits : 1 ≤ bits) (hfits : s.Fits) :
  Inv s
  := by
  induction h with
  | start => exact start_inv hfits
  | @next t u e hreach _ hstep ih =>
      have hsteps := step_cases hstep
      have hfits : t.Fits := by
        have hlen := hsteps.taken_prefix.length_le
        have hcap : u.queue.capacity = t.queue.capacity := congrArg (2 ^ ·) hsteps.bits_eq
        rw [Fits, hcap] at hfits
        rw [Fits]
        omega
      apply (ih hfits).step hfits _ hsteps
      rw [Reachable.bits_eq hreach]
      exact hbits

/-- In every run of at most `2 ^ 63 - Capacity` tickets, over a queue of two slots or more:
`dequeue` returns the items in the order of their tickets; a producer about to store its data
has no published slot that is not consumed; `enqueue` fails only when `Capacity` tickets were
taken but not consumed, and `dequeue` only when the oldest ticket left is not published. -/
theorem queue_safe (hbits : 1 ≤ bits) (hreach : Reachable bits data s)
    (hfits : s.tickets.taken.length + 2 ^ bits ≤ 2 ^ 63) :
  (s.returned = (s.tickets.taken.take s.returned.length).map Prod.snd
      ∧ s.returned.length ≤ s.tickets.taken.length)
    ∧ (∀ p item pos, s.producers p = .storeData item pos →
        ∀ k ∈ s.tickets.published, s.tickets.consumed ≤ k → s.queue.index pos ≠ k % 2 ^ bits)
    ∧ (∀ p spurious s', s.step (.produce p spurious) = some s' →
        s'.producers p = .returned false → s.tickets.Full (2 ^ bits))
    ∧ (∀ s', s.step .consume = some s' → s'.consumer = .returned false →
        s.tickets.consumed ∉ s.tickets.published)
  := by
  have hcap : s.queue.capacity = 2 ^ bits := congrArg (2 ^ ·) hreach.bits_eq
  rw [← hcap] at hfits ⊢
  have hfits' : s.Fits := lt_of_le_of_lt hfits (by decide)
  have hinv := hreach.inv hbits hfits'
  refine ⟨⟨hinv.returned, hinv.length_returned_le⟩, ?_, ?_, ?_⟩
  · intro p item pos hpc k hk hle
    have hholds := hinv.producers p
    rw [hpc] at hholds
    exact hinv.index_ne_of_published hfits' hholds hk hle
  · intro p spurious s' hstep hfailed
    cases produce_cases hstep with
    | full _ hpc hdiff =>
        have hpos := hinv.producers p
        rw [hpc] at hpos
        exact hinv.full_of_diff_neg hfits hpos hdiff
    | _ => simp [goto] at hfailed
  · intro s' hstep hfailed
    cases consume_cases hstep with
    | missed hpc hdiff =>
        have hconsumed := hinv.consumer
        rw [hpc] at hconsumed
        exact mt (hinv.found_iff hfits' hconsumed).mpr hdiff
    | _ => cases hfailed

/-- Two producers meet at the compare-exchange, and the one that wins publishes last; `dequeue` fails
before that, and then returns the items in the order of the tickets. -/
theorem queue_safe_two_producers :
  ∃ s : QueueSystem ℕ ℕ, Reachable 1 (fun _ => 0) s ∧ s.returned = [8, 7]
    ∧ s.returned = (s.tickets.taken.take s.returned.length).map Prod.snd
  := by
  obtain ⟨s, hreach, hreturned, hfits⟩ : ∃ s : QueueSystem ℕ ℕ, Reachable 1 (fun _ => 0) s
      ∧ s.returned = [8, 7] ∧ s.tickets.taken.length + 2 ^ 1 ≤ 2 ^ 63 := by
    apply Reaches.exists_of_follow [[.enqueue 3 7, .enqueue 4 8, .produce 3 false, .produce 4 false,
      .produce 3 false, .produce 4 false, .produce 4 false], List.replicate 6 (.produce 3 false),
      [.dequeue, .consume, .produce 4 false, .produce 4 false, .dequeue], List.replicate 4 .consume,
      [.dequeue], List.replicate 4 .consume].flatten
    decide +kernel
  use s, hreach, hreturned
  exact (queue_safe (by decide) hreach hfits).1.1

/-! ### Undisturbed calls -/

section

variable {p : P} {item : T} {pos : BitVec 64}

theorem goto_producers (pc : EnqueuePc T) :
  (s.goto p pc).producers p = pc
  := Function.update_self ..

theorem step_loadTail (hpc : s.producers p = .loadTail item) :
  s.step (.produce p false) = some (s.goto p (.loadSequence item s.queue.tail))
  := by
  rw [step, produce, hpc]

theorem step_free (hpc : s.producers p = .loadSequence item pos)
    (hdiff : MPSCQueue.diff (s.queue.sequence (s.queue.index pos)) pos = 0) :
  s.step (.produce p false) = some (s.goto p (.compareExchange item pos))
  := by
  rw [step, produce, hpc]
  apply if_pos hdiff

theorem step_reserve (hpc : s.producers p = .compareExchange item pos)
    (htail : s.queue.tail = pos) :
  s.step (.produce p false) = some { s.goto p (.storeData item pos) with
    queue := { s.queue with tail := pos + 1 }
    tickets := s.tickets.reserve (p, item) }
  := by
  rw [step, produce, hpc]
  apply if_pos ⟨htail, rfl⟩

theorem step_storeData (hpc : s.producers p = .storeData item pos) :
  s.step (.produce p false) = some { s.goto p (.storeSequence item pos) with
    queue := s.queue.storeData pos item }
  := by
  rw [step, produce, hpc]

theorem step_publish (hpc : s.producers p = .storeSequence item pos) :
  s.step (.produce p false) = some { s.goto p (.returned true) with
    queue := s.queue.storeSequence pos (pos + 1)
    tickets := s.tickets.publish pos.toNat }
  := by
  rw [step, produce, hpc]

/-- An `enqueue` that nobody disturbs, on a queue that is not full, takes a ticket and
publishes it. -/
theorem Reachable.enqueue (h : Reachable bits data s) (hbits : 1 ≤ bits) (hfits : s.Fits)
    (hroom : ¬ s.tickets.Full s.queue.capacity)
    (hpc : s.producers p = .idle ∨ ∃ ok, s.producers p = .returned ok) (item : T) :
  ∃ s', Reachable bits data s'
    ∧ s'.producers = Function.update s.producers p (.returned true)
    ∧ s'.consumer = s.consumer
    ∧ s'.returned = s.returned
    ∧ s'.tickets = (s.tickets.reserve (p, item)).publish s.tickets.taken.length
  := by
  have hinv := h.inv hbits hfits
  have hroom : ¬ s.tickets.consumed + s.queue.capacity ≤ s.tickets.taken.length := hroom
  have hfits' : s.tickets.taken.length + s.queue.capacity < 2 ^ 64 := hfits
  have hfree : MPSCQueue.diff (s.queue.sequence (s.queue.index s.queue.tail)) s.queue.tail = 0 := by
    have hnot : s.tickets.taken.length ∉ s.tickets.published := by
      intro hmem
      exact Nat.lt_irrefl _ (hinv.tickets.published_lt _ hmem)
    rw [diff_eq_zero_iff, index_eq (by omega), hinv.tail,
      hinv.sequence _ hinv.tickets.consumed_le (by omega), if_neg hnot]
  have hcall : s.step (.enqueue p item) = some (s.goto p (.loadTail item)) := by
    obtain hpc | ⟨ok, hpc⟩ := hpc <;> rw [step, hpc]
  have hcalled : Reachable bits data _ := .next h trivial hcall
  have hloaded : Reachable bits data _ := .next hcalled trivial (step_loadTail (goto_producers _))
  have hchecked : Reachable bits data _ :=
    .next hloaded trivial (step_free (goto_producers _) hfree)
  have hreserved : Reachable bits data _ :=
    .next hchecked trivial (step_reserve (goto_producers _) rfl)
  have hstored : Reachable bits data _ :=
    .next hreserved trivial (step_storeData (goto_producers _))
  have hpublished : Reachable bits data _ :=
    .next hstored trivial (step_publish (goto_producers _))
  refine ⟨_, hpublished, ?_, rfl, rfl, ?_⟩
  · simp only [goto, Function.update_idem]
  · rw [← hinv.tail]
    rfl

/-- A `dequeue` that nobody disturbs, with a published ticket, consumes it. -/
theorem Reachable.dequeue (h : Reachable bits data s) (hbits : 1 ≤ bits) (hfits : s.Fits)
    (hmem : s.tickets.consumed ∈ s.tickets.published)
    (hpc : s.consumer = .idle ∨ ∃ ok, s.consumer = .returned ok) :
  ∃ s', Reachable bits data s'
    ∧ s'.producers = s.producers
    ∧ s'.consumer = .returned true
    ∧ s'.tickets = s.tickets.consume
  := by
  have hinv := h.inv hbits hfits
  have hconsumed : s.tickets.consumed = s.returned.length := by
    have hok := hinv.consumer
    obtain hpc | ⟨ok, hpc⟩ := hpc
    · rwa [hpc] at hok
    · rwa [hpc] at hok
  have hfound := (hinv.found_iff hfits hconsumed).mpr hmem
  have hcalled : Reachable bits data { s with consumer := .loadSequence } := by
    apply Reaches.next (e := .dequeue) h trivial
    obtain hpc | ⟨ok, hpc⟩ := hpc <;> rw [step, hpc]
  have hloaded : Reachable bits data { s with consumer := .readData } :=
    .next (e := .consume) hcalled trivial (if_pos hfound)
  have hread : Reachable bits data _ := .next (e := .consume) hloaded trivial rfl
  have hgiven : Reachable bits data _ := .next (e := .consume) hread trivial rfl
  have hadvanced : Reachable bits data _ := .next (e := .consume) hgiven trivial rfl
  exact ⟨_, hadvanced, rfl, rfl, rfl⟩

end

/-! ### A stalled producer -/

/-- A producer stalls behind its first load of `tail_`, at the position 0, while another one
passes `n` items through a queue of four slots. -/
theorem exists_stalled {n : ℕ} (hn : n + 4 < 2 ^ 64) :
  ∃ s : QueueSystem ℕ ℕ, Reachable 2 (fun _ => 0) s
    ∧ s.producers 1 = .loadSequence 0 0
    ∧ (s.producers 0 = .idle ∨ ∃ ok, s.producers 0 = .returned ok)
    ∧ (s.consumer = .idle ∨ ∃ ok, s.consumer = .returned ok)
    ∧ s.tickets.taken.length = n
    ∧ s.tickets.consumed = n
  := by
  induction n with
  | zero =>
      have hcalled : Reachable 2 (fun _ => 0)
          ((start 2 (fun _ => 0) : QueueSystem ℕ ℕ).goto 1 (.loadTail 0)) :=
        .next (e := .enqueue 1 0) .start trivial rfl
      have hloaded : Reachable 2 (fun _ => 0) _ :=
        .next hcalled trivial (step_loadTail (goto_producers _))
      exact ⟨_, hloaded, rfl, .inl rfl, .inl rfl, rfl, rfl⟩
  | succ n ih =>
      obtain ⟨s, hreach, hstalled, hidle, hconsumer, htaken, hconsumed⟩ := ih (by omega)
      have hcap : s.queue.capacity = 4 := congrArg (2 ^ ·) hreach.bits_eq
      have hroom : ¬ s.tickets.Full s.queue.capacity := by
        rw [TicketQueue.Full]
        omega
      obtain ⟨s₁, hreach₁, hproducers₁, hconsumer₁, -, htickets₁⟩ :=
        hreach.enqueue (p := 0) (by decide) (by rw [Fits]; omega) hroom hidle 0
      have hcap₁ : s₁.queue.capacity = 4 := congrArg (2 ^ ·) hreach₁.bits_eq
      have htaken₁ : s₁.tickets.taken.length = n + 1 := by
        rw [htickets₁, ← htaken]
        apply TicketQueue.length_taken_reserve
      have hconsumed₁ : s₁.tickets.consumed = n := by
        rw [htickets₁, ← hconsumed]
        rfl
      have hmem : s₁.tickets.consumed ∈ s₁.tickets.published := by
        rw [hconsumed₁, htickets₁, ← htaken]
        apply List.mem_cons_self
      obtain ⟨s₂, hreach₂, hproducers₂, hconsumer₂, htickets₂⟩ :=
        hreach₁.dequeue (by decide) (by rw [Fits]; omega) hmem (by rwa [hconsumer₁])
      refine ⟨s₂, hreach₂, ?_, .inr ⟨true, ?_⟩, .inr ⟨true, hconsumer₂⟩, ?_, ?_⟩
      · rw [hproducers₂, hproducers₁, Function.update_of_ne (by decide), hstalled]
      · rw [hproducers₂, hproducers₁, Function.update_self]
      · rw [htickets₂]
        exact htaken₁
      · rw [htickets₂, TicketQueue.consumed_consume, hconsumed₁]

/-- After `2 ^ 63 - 2` tickets, all of them consumed, the sequence of the first slot of four is
`2 ^ 63`, which as `intptr_t` is less than 0: a producer that stalled at the position 0 finds
the empty queue full. -/
theorem enqueue_fails_on_empty_queue :
  ∃ s s' : QueueSystem ℕ ℕ, Reachable 2 (fun _ => 0) s
    ∧ s.tickets.taken.length = 2 ^ 63 - 2
    ∧ s.tickets.waiting = []
    ∧ s.step (.produce 1 false) = some s'
    ∧ s'.producers 1 = .returned false
  := by
  obtain ⟨s, hreach, hstalled, -, -, htaken, hconsumed⟩ :=
    exists_stalled (n := 2 ^ 63 - 2) (by decide)
  have hcap : s.queue.capacity = 4 := congrArg (2 ^ ·) hreach.bits_eq
  have hfits : s.Fits := by
    rw [Fits, htaken, hcap]
    decide
  have hinv := hreach.inv (by decide) hfits
  have hseq : (s.queue.sequence (s.queue.index 0)).toNat = 2 ^ 63 := by
    have hnot : 2 ^ 63 ∉ s.tickets.published := by
      intro hmem
      have := hinv.tickets.published_lt _ hmem
      omega
    have hsequence := hinv.sequence (2 ^ 63) (by omega) (by omega)
    rw [if_neg hnot, hcap] at hsequence
    rw [index_eq (by omega), hcap]
    exact hsequence
  have hneg : MPSCQueue.diff (s.queue.sequence (s.queue.index 0)) 0 = -2 ^ 63 := by
    rw [MPSCQueue.diff, BitVec.toInt_eq_toNat_cond, hseq]
    decide
  refine ⟨s, s.goto 1 (.returned false), hreach, htaken, ?_, ?_, goto_producers _⟩
  · rw [TicketQueue.waiting_eq_nil_iff hinv.tickets, htaken, hconsumed]
  · rw [step, produce, hstalled]
    dsimp only
    rw [hneg, if_neg (by decide), if_pos (by decide)]

end QueueSystem

end Proactor
