import UringProactor.Util.LogQueue

/-!
# The logger over the memory of its queue is the logger

Every run over the memory is a run of the logger: a buffer gets its ticket at the compare-exchange
on `tail_`, a full queue is seen at the load of a sequence, and a buffer is taken out at the store
that gives its slot back.  All other steps of `enqueue` and `dequeue` the logger does not see.
-/

namespace Proactor

namespace QueuedLogger

variable {s : QueuedLogger} {l : Logger} {e : LogEvent}

/-- The history of the logger is that of the queue, every thread is where it is in `enqueue`, and
the backend is in one of its loops over `dequeue` when it is there. -/
structure Agrees (s : QueuedLogger) : Prop where
  taken : s.logger.queue.taken.map Flush.buf = s.flushQueue.tickets.taken.map Prod.snd
  published : s.logger.queue.published = s.flushQueue.tickets.published
  consumed : s.logger.queue.consumed = s.flushQueue.tickets.consumed
  threads : ∀ t, (s.logger.threads t).Calls t (s.flushQueue.producers t)
  backend : s.flushQueue.consumer.outside = true ∨ (∃ buf, s.flushQueue.consumer = .advance buf)
    ∨ s.logger.dequeues = true

theorem Agrees.length_taken (h : s.Agrees) :
  s.logger.queue.taken.length = s.flushQueue.tickets.taken.length
  := by
  simpa using congrArg List.length h.taken

theorem Agrees.full_iff (h : s.Agrees) (capacity : ℕ) :
  s.logger.queue.Full capacity ↔ s.flushQueue.tickets.Full capacity
  := by
  rw [TicketQueue.Full, TicketQueue.Full, h.consumed, h.length_taken]

/-- An event of the logger that is not about the queue. -/
theorem Agrees.log (h : s.Agrees) (hallows : s.allows e = true) (hstep : s.logger.step e = some l) :
  Agrees { s with logger := l }
  := by
  have hsteps := Logger.step_cases hstep
  obtain ⟨hqueue, hcalls⟩ := allowed_spec hallows hsteps
  constructor <;> dsimp only
  · rw [hqueue]
    exact h.taken
  · rw [hqueue]
    exact h.published
  · rw [hqueue]
    exact h.consumed
  · exact fun t => hcalls t _ (h.threads t)
  · rcases h.backend with houtside | hadvance | hdequeues
    · exact .inl houtside
    · exact .inr (.inl hadvance)
    · cases hinside : s.flushQueue.consumer.outside with
      | true => exact .inl rfl
      | false =>
          rw [dequeues_of_allowed hallows hsteps hinside]
          exact .inr (.inr hdequeues)

section

variable {t : ℕ} {q : QueueSystem ℕ BufId} {pc : EnqueuePc BufId}

/-- The thread `t` moves in `enqueue`. -/
theorem Agrees.update (h : s.Agrees)
    (hproducers : q.producers = Function.update s.flushQueue.producers t pc)
    (hconsumer : q.consumer = s.flushQueue.consumer) (hself : (l.threads t).Calls t pc)
    (hother : ∀ u, u ≠ t → l.threads u = s.logger.threads u)
    (hdequeues : l.dequeues = s.logger.dequeues)
    (htaken : l.queue.taken.map Flush.buf = q.tickets.taken.map Prod.snd)
    (hpublished : l.queue.published = q.tickets.published)
    (hconsumed : l.queue.consumed = q.tickets.consumed) :
  Agrees ⟨l, q⟩
  := by
  refine ⟨htaken, hpublished, hconsumed, ?_, ?_⟩
  · intro u
    dsimp only
    rw [hproducers, Function.update_apply]
    split
    case isTrue hu =>
      rw [hu]
      exact hself
    case isFalse hu =>
      rw [hother u hu]
      exact h.threads u
  · dsimp only
    rw [hconsumer, hdequeues]
    exact h.backend

/-- The thread `t` moves in `enqueue`, and the logger does not see it. -/
theorem Agrees.goto (h : s.Agrees)
    (hproducers : q.producers = Function.update s.flushQueue.producers t pc)
    (hconsumer : q.consumer = s.flushQueue.consumer) (htickets : q.tickets = s.flushQueue.tickets)
    (hself : (s.logger.threads t).Calls t pc) :
  Agrees ⟨s.logger, q⟩
  := by
  apply h.update hproducers hconsumer hself (fun _ _ => rfl) rfl
  · rw [htickets]
    exact h.taken
  · rw [htickets]
    exact h.published
  · rw [htickets]
    exact h.consumed

/-- The thread `t` moves in `enqueue`, and goes on in the logger. -/
theorem Agrees.next (h : s.Agrees) {th : LogThread} {effect : LogEffect}
    (hproducers : q.producers = Function.update s.flushQueue.producers t pc)
    (hconsumer : q.consumer = s.flushQueue.consumer) (hself : th.Calls t pc)
    (htaken : (s.logger.apply t effect).queue.taken.map Flush.buf = q.tickets.taken.map Prod.snd)
    (hpublished : (s.logger.apply t effect).queue.published = q.tickets.published)
    (hconsumed : (s.logger.apply t effect).queue.consumed = q.tickets.consumed) :
  Agrees ⟨(s.logger.setThread t th).apply t effect, q⟩
  := by
  have hqueue : ((s.logger.setThread t th).apply t effect).queue
      = (s.logger.apply t effect).queue := by
    cases effect <;> rfl
  apply h.update hproducers hconsumer
  · rw [Logger.threads_apply]
    apply Logger.of_setThread (P := fun th => th.Calls t pc) (fun _ => hself)
    exact fun hne => absurd rfl hne
  · intro u hu
    rw [Logger.threads_apply]
    exact Function.update_of_ne hu ..
  · cases effect <;> rfl
  · rw [hqueue]
    exact htaken
  · rw [hqueue]
    exact hpublished
  · rw [hqueue]
    exact hconsumed

/-- After a step of the thread `t` in `enqueue` to the queue `q` the history agrees with the memory,
and it was a step of the logger, or none. -/
structure Produces (s : QueuedLogger) (t : ℕ) (q : QueueSystem ℕ BufId) : Prop where
  agrees : Agrees ⟨s.logger.produced t (q.producers t), q⟩
  step : (q.producers t).decided = false ∧ s.logger.produced t (q.producers t) = s.logger
    ∨ (q.producers t).decided = true
      ∧ s.logger.step (.thread t) = some (s.logger.produced t (q.producers t))

/-- The logger does not see the loads, nor the store of the data. -/
theorem Produces.goto (h : s.Agrees)
    (hproducers : q.producers = Function.update s.flushQueue.producers t pc)
    (hconsumer : q.consumer = s.flushQueue.consumer) (htickets : q.tickets = s.flushQueue.tickets)
    (hdecided : pc.decided = false) (hself : (s.logger.threads t).Calls t pc) :
  Produces s t q
  := by
  have hpc : q.producers t = pc := by
    rw [hproducers, Function.update_self]
  have hsame : s.logger.produced t (q.producers t) = s.logger := by
    rw [hpc]
    exact Logger.produced_of_not_decided hdecided
  constructor
  · rw [hsame]
    exact h.goto hproducers hconsumer htickets hself
  · rw [hpc] at hsame ⊢
    exact .inl ⟨hdecided, hsame⟩

/-- The logger sees that the queue is full. -/
theorem Produces.full (h : s.Agrees) {f : FlushFor}
    (hpc : (s.logger.threads t).pc = .enqueue f)
    (hfull : s.flushQueue.tickets.Full flushQueueCapacity) :
  Produces s t (s.flushQueue.goto t (.returned false))
  := by
  have hplace : (s.flushQueue.goto t (.returned false)).producers t = .returned false :=
    Function.update_self ..
  constructor
  · rw [hplace, Logger.produced_full hpc]
    have hself : LogThread.Calls t { s.logger.threads t with pc := f.whenFull } (.returned false) :=
      fun f' ticket => (LogThread.ne_publish f f' ticket).2.1
    have hnext : Agrees ⟨(s.logger.setThread t { s.logger.threads t with
        pc := f.whenFull }).apply t .none, s.flushQueue.goto t (.returned false)⟩ :=
      h.next rfl rfl hself h.taken h.published h.consumed
    exact hnext
  · rw [hplace]
    exact .inr ⟨rfl, Logger.step_full hpc ((h.full_iff _).mpr hfull)⟩

/-- The logger sees the compare-exchange that takes a slot. -/
theorem Produces.reserve (h : s.Agrees) {f : FlushFor} {pos : BitVec 64}
    (hpc : (s.logger.threads t).pc = .enqueue f)
    (hroom : ¬ s.flushQueue.tickets.Full flushQueueCapacity)
    (hpos : pos.toNat = s.flushQueue.tickets.taken.length)
    (hproducers : q.producers = Function.update s.flushQueue.producers t
      (.storeData (t, (s.logger.threads t).writeIdx) pos))
    (hconsumer : q.consumer = s.flushQueue.consumer)
    (htickets : q.tickets
      = s.flushQueue.tickets.reserve (t, (t, (s.logger.threads t).writeIdx))) :
  Produces s t q
  := by
  have hplace : q.producers t = .storeData (t, (s.logger.threads t).writeIdx) pos := by
    rw [hproducers, Function.update_self]
  constructor
  · rw [hplace, Logger.produced_reserved hpc]
    apply h.next hproducers hconsumer ⟨f, rfl⟩
    · rw [htickets]
      change (s.logger.queue.taken ++ [_]).map Flush.buf
        = (s.flushQueue.tickets.taken ++ [_]).map Prod.snd
      rw [List.map_append, List.map_append, h.taken]
      rfl
    · rw [htickets]
      exact h.published
    · rw [htickets]
      exact h.consumed
  · rw [hplace]
    exact .inr ⟨rfl, Logger.step_reserved hpc (mt (h.full_iff _).mp hroom)
      (hpos.trans h.length_taken.symm)⟩

/-- The logger sees the store of the sequence. -/
theorem Produces.publish (h : s.Agrees) {f : FlushFor} {pos : BitVec 64}
    (hpc : (s.logger.threads t).pc = .publish f pos.toNat)
    (hproducers : q.producers = Function.update s.flushQueue.producers t (.returned true))
    (hconsumer : q.consumer = s.flushQueue.consumer)
    (htickets : q.tickets = s.flushQueue.tickets.publish pos.toNat) :
  Produces s t q
  := by
  have hplace : q.producers t = .returned true := by
    rw [hproducers, Function.update_self]
  constructor
  · rw [hplace, Logger.produced_published hpc]
    have hself : LogThread.Calls t { s.logger.threads t with pc := .release f } (.returned true) :=
      fun f' ticket => by simp
    apply h.next hproducers hconsumer hself
    · rw [htickets]
      exact h.taken
    · rw [htickets]
      exact congrArg (pos.toNat :: ·) h.published
    · rw [htickets]
      exact h.consumed
  · rw [hplace]
    exact .inr ⟨rfl, Logger.step_published hpc⟩

/-- Every step of a thread in `enqueue` is one of the logger, or none. -/
theorem Agrees.produce (h : s.Agrees) (hinv : s.flushQueue.Inv)
    (hcapacity : s.flushQueue.queue.capacity = flushQueueCapacity)
    (hfits : s.flushQueue.tickets.taken.length + flushQueueCapacity ≤ 2 ^ 63) {spurious : Bool}
    (hstep : s.flushQueue.step (.produce t spurious) = some q) :
  Produces s t q
  := by
  have hcalls := h.threads t
  have hok := hinv.producers t
  rw [QueueSystem.step, QueueSystem.produce] at hstep
  cases hpc : s.flushQueue.producers t with
  | idle | returned =>
      rw [hpc] at hstep
      cases hstep
  | loadTail buf =>
      rw [hpc] at hstep hcalls
      cases hstep
      exact .goto h rfl rfl rfl rfl hcalls
  | loadSequence buf pos =>
      rw [hpc] at hstep hcalls hok
      obtain ⟨rfl, f, hf⟩ := hcalls
      dsimp only at hstep
      split at hstep
      case isTrue =>
        cases hstep
        exact .goto h rfl rfl rfl rfl ⟨rfl, f, hf⟩
      case isFalse =>
        split at hstep
        case isTrue hdiff =>
          cases hstep
          apply Produces.full h hf
          rw [← hcapacity] at hfits ⊢
          exact hinv.full_of_diff_neg hfits hok hdiff
        case isFalse =>
          cases hstep
          exact .goto h rfl rfl rfl rfl ⟨rfl, f, hf⟩
  | compareExchange buf pos =>
      rw [hpc] at hstep hcalls
      obtain ⟨rfl, f, hf⟩ := hcalls
      dsimp only at hstep
      split at hstep
      case isTrue hcond =>
        cases hstep
        have hroom := hinv.room hpc hcond.1
        rw [hcapacity] at hroom
        exact .reserve h hf hroom (by rw [← hcond.1, hinv.tail]) rfl rfl rfl
      case isFalse =>
        cases hstep
        exact .goto h rfl rfl rfl rfl ⟨rfl, f, hf⟩
  | storeData buf pos =>
      rw [hpc] at hstep hcalls
      cases hstep
      exact .goto h rfl rfl rfl rfl hcalls
  | storeSequence buf pos =>
      rw [hpc] at hstep hcalls
      cases hstep
      obtain ⟨f, hf⟩ := hcalls
      exact .publish h hf rfl rfl rfl

end

/-! ### The backend in `dequeue` -/

section

variable {q : QueueSystem ℕ BufId}

/-- After a step of the backend in `dequeue` to the queue `q` the history agrees with the memory,
and it was a step of the logger, or none. -/
structure Consumes (s : QueuedLogger) (q : QueueSystem ℕ BufId) : Prop where
  agrees : Agrees ⟨s.logger.dequeued q.consumer, q⟩
  step : q.consumer.decided = false ∧ s.logger.dequeued q.consumer = s.logger
    ∨ q.consumer.decided = true
      ∧ s.logger.step (.backend 0 .ok) = some (s.logger.dequeued q.consumer)

/-- The backend moves in `dequeue`, and the logger does not see it. -/
theorem Consumes.goto (h : s.Agrees) (hproducers : q.producers = s.flushQueue.producers)
    (htickets : q.tickets = s.flushQueue.tickets) (hdecided : q.consumer.decided = false)
    (hbackend : q.consumer.outside = true ∨ s.logger.dequeues = true) :
  Consumes s q
  := by
  have hsame := Logger.dequeued_of_not_decided (s := s.logger) hdecided
  constructor
  · rw [hsame]
    constructor <;> dsimp only
    · rw [htickets]
      exact h.taken
    · rw [htickets]
      exact h.published
    · rw [htickets]
      exact h.consumed
    · rw [hproducers]
      exact h.threads
    · rcases hbackend with houtside | hdequeues
      · exact .inl houtside
      · exact .inr (.inr hdequeues)
  · exact .inl ⟨hdecided, hsame⟩

/-- The oldest ticket of the history is that of the queue. -/
theorem Agrees.front (h : s.Agrees) {buf : BufId}
    (hpublished : s.flushQueue.tickets.consumed ∈ s.flushQueue.tickets.published)
    (htaken : s.flushQueue.tickets.taken[s.flushQueue.tickets.consumed]?.map Prod.snd = some buf) :
  ∃ f, s.logger.queue.front = some f ∧ f.buf = buf
  := by
  rw [← List.getElem?_map, ← h.taken, List.getElem?_map, ← h.consumed] at htaken
  obtain ⟨f, hf, hbuf⟩ := Option.map_eq_some_iff.mp htaken
  rw [← h.published, ← h.consumed] at hpublished
  use f
  rw [TicketQueue.front, if_pos hpublished]
  exact ⟨hf, hbuf⟩

/-- While the backend is in `dequeue`, it is in one of its loops over it. -/
theorem Agrees.dequeues (h : s.Agrees) (hinside : s.flushQueue.consumer.outside = false)
    (hadvance : ∀ buf, s.flushQueue.consumer ≠ .advance buf) :
  s.logger.dequeues = true
  := by
  rcases h.backend with houtside | ⟨buf, hbuf⟩ | hdequeues
  · rw [houtside] at hinside
    cases hinside
  · exact absurd hbuf (hadvance buf)
  · exact hdequeues

/-- The logger sees that there is no buffer. -/
theorem Consumes.missed (h : s.Agrees) (hdequeues : s.logger.dequeues = true)
    (hmissed : s.flushQueue.tickets.consumed ∉ s.flushQueue.tickets.published) :
  Consumes s { s.flushQueue with consumer := .returned false }
  := by
  have hfront : s.logger.queue.front = none := by
    rw [← h.published, ← h.consumed] at hmissed
    rw [TicketQueue.front, if_neg hmissed]
  constructor
  · exact ⟨h.taken, h.published, h.consumed, h.threads, .inl rfl⟩
  · exact .inr ⟨rfl, Logger.step_missed hdequeues hfront⟩

/-- The logger sees the store that gives a slot back. -/
theorem Consumes.giveBack (h : s.Agrees) (hdequeues : s.logger.dequeues = true) {buf : BufId}
    (hpublished : s.flushQueue.tickets.consumed ∈ s.flushQueue.tickets.published)
    (htaken : s.flushQueue.tickets.taken[s.flushQueue.tickets.consumed]?.map Prod.snd = some buf)
    (hproducers : q.producers = s.flushQueue.producers) (hconsumer : q.consumer = .advance buf)
    (htickets : q.tickets = s.flushQueue.tickets.consume) :
  Consumes s q
  := by
  obtain ⟨f, hfront, rfl⟩ := h.front hpublished htaken
  constructor
  · rw [hconsumer]
    constructor <;> dsimp only
    · rw [htickets]
      exact h.taken
    · rw [htickets]
      exact h.published
    · rw [htickets]
      exact congrArg (· + 1) h.consumed
    · rw [hproducers]
      exact h.threads
    · exact .inr (.inl ⟨f.buf, hconsumer⟩)
  · rw [hconsumer]
    exact .inr ⟨rfl, Logger.step_taken hdequeues hfront⟩

/-- Every step of the backend in `dequeue` is one of the logger, or none. -/
theorem Agrees.consume (h : s.Agrees) (hinv : s.flushQueue.Inv) (hfits : s.flushQueue.Fits)
    (hstep : s.flushQueue.step .consume = some q) :
  Consumes s q
  := by
  have hok := hinv.consumer
  rw [QueueSystem.step] at hstep
  cases QueueSystem.consume_cases hstep with
  | found hpc =>
      have hdequeues := h.dequeues (by rw [hpc]; rfl) (by simp [hpc])
      exact .goto h rfl rfl rfl (.inr hdequeues)
  | missed hpc hdiff =>
      rw [hpc] at hok
      have hdequeues := h.dequeues (by rw [hpc]; rfl) (by simp [hpc])
      exact .missed h hdequeues (mt (hinv.found_iff hfits hok).mpr hdiff)
  | readData hpc =>
      have hdequeues := h.dequeues (by rw [hpc]; rfl) (by simp [hpc])
      exact .goto h rfl rfl rfl (.inr hdequeues)
  | giveBack hpc =>
      rw [hpc] at hok
      obtain ⟨hconsumed, hpublished, htaken⟩ := hok
      have hdequeues := h.dequeues (by rw [hpc]; rfl) (by simp [hpc])
      rw [← hconsumed] at htaken
      exact .giveBack h hdequeues hpublished htaken rfl rfl rfl
  | advance hpc => exact .goto h rfl rfl rfl (.inl rfl)

end

/-! ### Runs -/

section

variable {files : ℕ → ℕ} {data : ℕ → BufId} {ok : Logger → LogEvent → Prop} {s' : QueuedLogger}
  {e : QueuedLogEvent}

/-- An event leaves the memory of the queue as it is, or it is one of the queue. -/
theorem queue_step (hstep : s.step e = some s') :
  s'.flushQueue = s.flushQueue ∨ ∃ e', s.flushQueue.step e' = some s'.flushQueue
  := by
  cases e with
  | log e =>
      rw [step] at hstep
      split at hstep
      case isTrue =>
        obtain ⟨l, -, rfl⟩ := Option.map_eq_some_iff.mp hstep
        exact .inl rfl
      case isFalse => cases hstep
  | enqueue t =>
      rw [step] at hstep
      split at hstep
      case h_1 =>
        obtain ⟨q, hq, rfl⟩ := Option.map_eq_some_iff.mp hstep
        exact .inr ⟨_, hq⟩
      case h_2 => cases hstep
  | produce t spurious =>
      obtain ⟨q, hq, rfl⟩ := Option.map_eq_some_iff.mp hstep
      exact .inr ⟨_, hq⟩
  | dequeue =>
      rw [step] at hstep
      split at hstep
      case isTrue =>
        obtain ⟨q, hq, rfl⟩ := Option.map_eq_some_iff.mp hstep
        exact .inr ⟨_, hq⟩
      case isFalse => cases hstep
  | consume =>
      obtain ⟨q, hq, rfl⟩ := Option.map_eq_some_iff.mp hstep
      exact .inr ⟨_, hq⟩

/-- The memory of the queue goes through a run of the queue. -/
theorem reachable (h : Reaches step (Meets ok) (start files data) s) :
  QueueSystem.Reachable 7 data s.flushQueue
  := by
  apply h.invariant (I := fun s => QueueSystem.Reachable 7 data s.flushQueue)
  · exact .start
  · intro s s' e hreach _ hstep
    rcases queue_step hstep with hsame | ⟨e', hqueue⟩
    · rw [hsame]
      exact hreach
    · exact .next hreach trivial hqueue

/-- Tickets are only ever added. -/
theorem taken_le (hstep : s.step e = some s') :
  s.flushQueue.tickets.taken.length ≤ s'.flushQueue.tickets.taken.length
  := by
  rcases queue_step hstep with hsame | ⟨e', hqueue⟩
  · rw [hsame]
  · have hsteps := QueueSystem.step_cases hqueue
    exact hsteps.taken_prefix.length_le

/-- Every step is one of the logger, or none. -/
theorem Agrees.step (h : s.Agrees) (hinv : s.flushQueue.Inv)
    (hcapacity : s.flushQueue.queue.capacity = flushQueueCapacity)
    (hfits : s.flushQueue.tickets.taken.length + flushQueueCapacity ≤ 2 ^ 63) (hok : Meets ok s e)
    (hstep : s.step e = some s') :
  s'.Agrees ∧ (s'.logger = s.logger
    ∨ ∃ e', ok s.logger e' ∧ s.logger.step e' = some s'.logger)
  := by
  cases e with
  | log e =>
      rw [QueuedLogger.step] at hstep
      split at hstep
      case isTrue hallows =>
        obtain ⟨l, hlog, rfl⟩ := Option.map_eq_some_iff.mp hstep
        exact ⟨h.log hallows hlog, .inr ⟨e, hok, hlog⟩⟩
      case isFalse => cases hstep
  | enqueue t =>
      rw [QueuedLogger.step] at hstep
      split at hstep
      case h_1 f hpc =>
        obtain ⟨q, hq, rfl⟩ := Option.map_eq_some_iff.mp hstep
        cases QueueSystem.step_cases hq with
        | enqueue => exact ⟨h.goto rfl rfl rfl ⟨rfl, f, hpc⟩, .inl rfl⟩
      case h_2 => cases hstep
  | produce t spurious =>
      obtain ⟨q, hq, rfl⟩ := Option.map_eq_some_iff.mp hstep
      obtain ⟨hagrees, hlogger⟩ := h.produce hinv hcapacity hfits hq
      use hagrees
      rcases hlogger with ⟨-, hsame⟩ | ⟨hdecided, hlog⟩
      · exact .inl hsame
      · exact .inr ⟨.thread t, hok q hq hdecided, hlog⟩
  | dequeue =>
      rw [QueuedLogger.step] at hstep
      split at hstep
      case isTrue hdequeues =>
        obtain ⟨q, hq, rfl⟩ := Option.map_eq_some_iff.mp hstep
        cases QueueSystem.step_cases hq with
        | dequeue =>
            have hagrees : Agrees { s with
                flushQueue := { s.flushQueue with consumer := .loadSequence } } :=
              ⟨h.taken, h.published, h.consumed, h.threads, .inr (.inr hdequeues)⟩
            exact ⟨hagrees, .inl rfl⟩
      case isFalse => cases hstep
  | consume =>
      obtain ⟨q, hq, rfl⟩ := Option.map_eq_some_iff.mp hstep
      have hfits' : s.flushQueue.Fits := by
        rw [QueueSystem.Fits, hcapacity]
        omega
      obtain ⟨hagrees, hlogger⟩ := h.consume hinv hfits' hq
      use hagrees
      rcases hlogger with ⟨-, hsame⟩ | ⟨hdecided, hlog⟩
      · exact .inl hsame
      · exact .inr ⟨.backend 0 .ok, hok q hq hdecided, hlog⟩

theorem agrees_start :
  (start files data).Agrees
  := by
  refine ⟨rfl, rfl, rfl, ?_, .inl rfl⟩
  intro t f ticket hpc
  cases hpc

/-- The logger over the memory of its queue refines the logger over tickets.  Let `ok` be any
condition on the steps of a logger.  Every run over the memory whose steps meet it, in which at most
`2 ^ 63 - 128` tickets are taken, is a run of the logger whose steps meet it, and the tickets of the
logger are those of the memory: the same buffers, of which the same are published and consumed. -/
theorem memory_refines_tickets (h : Reaches step (Meets ok) (start files data) s)
    (hfits : s.flushQueue.tickets.taken.length + flushQueueCapacity ≤ 2 ^ 63) :
  Reaches Logger.step ok (Logger.start files) s.logger
    ∧ s.logger.queue.taken.map Flush.buf = s.flushQueue.tickets.taken.map Prod.snd
    ∧ s.logger.queue.published = s.flushQueue.tickets.published
    ∧ s.logger.queue.consumed = s.flushQueue.tickets.consumed
  := by
  suffices hrun : s.Agrees ∧ Reaches Logger.step ok (Logger.start files) s.logger from
    ⟨hrun.2, hrun.1.taken, hrun.1.published, hrun.1.consumed⟩
  induction h with
  | start => exact ⟨agrees_start, .start⟩
  | @next s s' e hreach hok hstep ih =>
      have hle := taken_le hstep
      obtain ⟨hagrees, hrun⟩ := ih (by omega)
      have hcapacity : s.flushQueue.queue.capacity = flushQueueCapacity :=
        congrArg (2 ^ ·) (reachable hreach).bits_eq
      have hinv : s.flushQueue.Inv := by
        apply (reachable hreach).inv (by decide)
        rw [QueueSystem.Fits, hcapacity]
        omega
      obtain ⟨hagrees', hlogger⟩ := hagrees.step hinv hcapacity (by omega) hok hstep
      use hagrees'
      rcases hlogger with hsame | ⟨e', hok', hlog⟩
      · rw [hsame]
        exact hrun
      · exact .next hrun hok' hlog

/-- Two threads hand their buffers over and meet at the compare-exchange; the one that loses it also
finds one that fails for no reason.  The backend takes the first buffer out. -/
theorem memory_refines_tickets_two_buffers :
  ∃ s, Reaches step (Meets fun _ _ => True) (start (fun _ => 0) (fun _ => (0, true))) s
    ∧ Reaches Logger.step (fun _ _ => True) (Logger.start fun _ => 0) s.logger
    ∧ s.logger.queue.taken = [⟨(1, false), [[66]]⟩, ⟨(0, false), [[65]]⟩]
    ∧ s.flushQueue.tickets.published = [0, 1] ∧ s.logger.queue.consumed = 1
  := by
  obtain ⟨s, hreach, htaken, hpublished, hconsumed, hfits⟩ : ∃ s,
      Reaches step (Meets fun _ _ => True) (start (fun _ => 0) (fun _ => (0, true))) s
      ∧ s.logger.queue.taken = [⟨(1, false), [[66]]⟩, ⟨(0, false), [[65]]⟩]
      ∧ s.flushQueue.tickets.published = [0, 1] ∧ s.logger.queue.consumed = 1
      ∧ s.flushQueue.tickets.taken.length + flushQueueCapacity ≤ 2 ^ 63 := by
    apply Reaches.exists_of_follow [[.log (.append 0 [65] false), .log (.append 1 [66] false),
      .log (.thread 0), .log (.thread 1), .log (.append 0 [67] true), .log (.append 1 [68] true),
      .log (.thread 0), .log (.thread 0), .log (.thread 1), .log (.thread 1), .enqueue 0,
      .enqueue 1, .produce 0 false, .produce 1 false, .produce 0 false, .produce 1 false,
      .produce 1 false, .produce 0 false, .produce 0 false, .produce 0 false, .produce 0 true],
      List.replicate 5 (.produce 0 false), List.replicate 2 (.produce 1 false),
      [.log (.thread 0), .log (.thread 1)], List.replicate 5 (.log (.backend 7 .ok)), [.dequeue],
      List.replicate 4 .consume].flatten
    decide +kernel
  exact ⟨s, hreach, (memory_refines_tickets hreach hfits).1, htaken, hpublished, hconsumed⟩

end

end QueuedLogger

end Proactor
