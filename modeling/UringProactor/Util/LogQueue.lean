import UringProactor.Util.LogSteps
import UringProactor.Util.MpscRuns

/-!
# The logger over the memory of its queue

`Logger` takes a ticket of `flush_queue_`, publishes it and consumes one in a step each.  Here the
threads and the backend run `MPSCQueue::enqueue` and `MPSCQueue::dequeue` load by load and store by
store, and these interleave with all other steps of the logger.  What a thread or the backend does
next is decided by the memory of the queue; the queue of the logger is its history.
-/

namespace Proactor

/-- The logger with the memory of `flush_queue_`.  The threads are the producers, and the backend is
the consumer. -/
structure QueuedLogger where
  logger : Logger
  flushQueue : QueueSystem ℕ BufId

/-- An event: one of the logger that is not about the queue; a call of `enqueue` by a thread, or its
next step there; a call of `dequeue` by the backend, or its next step there. -/
inductive QueuedLogEvent where
  | log (e : LogEvent)
  | enqueue (t : ℕ)
  | produce (t : ℕ) (spurious : Bool)
  | dequeue
  | consume

/-- The thread is in `enqueue`, or about to call it. -/
def LogPc.enqueues : LogPc → Bool
  | .enqueue _ => true
  | .publish _ _ => true
  | _ => false

/-- The producer has taken its slot, or `enqueue` has returned. -/
def EnqueuePc.decided {T : Type*} : EnqueuePc T → Bool
  | .storeData _ _ => true
  | .returned _ => true
  | _ => false

/-- The consumer has given the slot back, or `dequeue` has returned `false`. -/
def DequeuePc.decided {T : Type*} : DequeuePc T → Bool
  | .advance _ => true
  | .returned false => true
  | _ => false

/-- The consumer is not in `dequeue`. -/
def DequeuePc.outside {T : Type*} : DequeuePc T → Bool
  | .idle => true
  | .returned _ => true
  | _ => false

namespace Logger

/-- The backend is in one of its loops over `dequeue`. -/
def dequeues (s : Logger) : Bool :=
  match s.task with
  | .none => s.pc = .drain || s.pc = .finalDrain
  | _ => false

/-- The logger when the thread `t` has got to the given place in `enqueue`. -/
def produced (s : Logger) (t : ℕ) (pc : EnqueuePc BufId) : Logger :=
  let th := s.threads t
  match th.pc, pc with
  | .enqueue f, .storeData buf pos =>
      (s.setThread t { th with pc := .publish f pos.toNat }).apply t
        (.reserve ⟨buf, th.front.records⟩)
  | .enqueue f, .returned false => s.setThread t { th with pc := f.whenFull }
  | .publish f ticket, .returned true =>
      (s.setThread t { th with pc := .release f }).apply t (.publish ticket)
  | _, _ => s

/-- The logger when the backend has got to the given place in `dequeue`.  The history tells what
records the buffer held when it was enqueued. -/
def dequeued (s : Logger) : DequeuePc BufId → Logger
  | .advance buf =>
      { s with
        queue := s.queue.consume
        task := .submitBuf ⟨buf, (s.queue.taken[s.queue.consumed]?.map Flush.records).getD []⟩ }
  | .returned false => { s with pc := if s.pc = .finalDrain then .finalSubmit else .submit }
  | _ => s

end Logger

namespace QueuedLogger

/-- Whether the event of the logger can happen: it is not about the queue, and not one of the
backend while that is in `dequeue`. -/
def allows (s : QueuedLogger) : LogEvent → Bool
  | .thread t => !(s.logger.threads t).pc.enqueues
  | .backend _ _ => !s.logger.dequeues && s.flushQueue.consumer.outside
  | _ => true

/-- One event; `none` when it cannot happen. -/
def step (s : QueuedLogger) : QueuedLogEvent → Option QueuedLogger
  | .log e => if s.allows e then (s.logger.step e).map (fun l => { s with logger := l }) else none
  | .enqueue t =>
      match (s.logger.threads t).pc with
      | .enqueue _ =>
          (s.flushQueue.step (.enqueue t (t, (s.logger.threads t).writeIdx))).map (fun q =>
            { s with flushQueue := q })
      | _ => none
  | .produce t spurious =>
      (s.flushQueue.step (.produce t spurious)).map (fun q =>
        ⟨s.logger.produced t (q.producers t), q⟩)
  | .dequeue =>
      if s.logger.dequeues then
        (s.flushQueue.step .dequeue).map (fun q => { s with flushQueue := q })
      else
        none
  | .consume =>
      (s.flushQueue.step .consume).map (fun q => ⟨s.logger.dequeued q.consumer, q⟩)

/-- A new logger, whose queue has `2 ^ 7` slots. -/
def start (files : ℕ → ℕ) (data : ℕ → BufId) : QueuedLogger := ⟨.start files, .start 7 data⟩

/-- The steps that a condition on the steps of a logger admits. -/
def Meets (ok : Logger → LogEvent → Prop) (s : QueuedLogger) : QueuedLogEvent → Prop
  | .log e => ok s.logger e
  | .produce t spurious => ∀ q ∈ s.flushQueue.step (.produce t spurious),
      (q.producers t).decided = true → ok s.logger (.thread t)
  | .consume => ∀ q ∈ s.flushQueue.step .consume,
      q.consumer.decided = true → ok s.logger (.backend 0 .ok)
  | _ => True

instance (ok : Logger → LogEvent → Prop) [∀ s e, Decidable (ok s e)] (s : QueuedLogger) :
    ∀ e, Decidable (Meets ok s e)
  | .log e => inferInstanceAs (Decidable (ok s.logger e))
  | .produce t spurious =>
      inferInstanceAs (Decidable (∀ q ∈ s.flushQueue.step (.produce t spurious), _ → _))
  | .consume => inferInstanceAs (Decidable (∀ q ∈ s.flushQueue.step .consume, _ → _))
  | .enqueue _ | .dequeue => inferInstanceAs (Decidable True)

end QueuedLogger

/-! ### Threads and producers -/

/-- Where a thread is in the logger, when it is at the given place in `enqueue`. -/
def LogThread.Calls (t : ℕ) (th : LogThread) : EnqueuePc BufId → Prop
  | .loadTail buf => buf = (t, th.writeIdx) ∧ ∃ f, th.pc = .enqueue f
  | .loadSequence buf _ => buf = (t, th.writeIdx) ∧ ∃ f, th.pc = .enqueue f
  | .compareExchange buf _ => buf = (t, th.writeIdx) ∧ ∃ f, th.pc = .enqueue f
  | .storeData _ pos => ∃ f, th.pc = .publish f pos.toNat
  | .storeSequence _ pos => ∃ f, th.pc = .publish f pos.toNat
  | _ => ∀ f ticket, th.pc ≠ .publish f ticket

namespace LogThread

variable {t : ℕ} {th th' : LogThread} {pc : EnqueuePc BufId}

theorem Calls.congr (h : Calls t th pc) (hpc : th'.pc = th.pc) (hidx : th'.writeIdx = th.writeIdx) :
  Calls t th' pc
  := by
  cases pc <;> simp only [Calls, hpc, hidx] at h ⊢ <;> exact h

/-- A thread that is not in `enqueue` may go anywhere but into it. -/
theorem Calls.move (h : Calls t th pc) (hpc : th.pc.enqueues = false)
    (hpc' : ∀ f ticket, th'.pc ≠ .publish f ticket) :
  Calls t th' pc
  := by
  cases pc with
  | idle => exact hpc'
  | returned => exact hpc'
  | loadTail | loadSequence | compareExchange =>
      obtain ⟨-, f, hf⟩ := h
      rw [hf] at hpc
      cases hpc
  | storeData | storeSequence =>
      obtain ⟨f, hf⟩ := h
      rw [hf] at hpc
      cases hpc

/-- No thread goes on with its store into the queue when it has not taken a slot. -/
theorem ne_publish (f f' : FlushFor) (ticket : ℕ) :
  f.whenBusy ≠ .publish f' ticket ∧ f.whenFull ≠ .publish f' ticket
    ∧ f.whenQueued ≠ .publish f' ticket ∧ f.whenRefused ≠ .publish f' ticket
  := by
  cases f with
  | append r isFull =>
      cases isFull <;>
        simp [FlushFor.whenBusy, FlushFor.whenFull, FlushFor.whenQueued, FlushFor.whenRefused]
  | _ => simp [FlushFor.whenBusy, FlushFor.whenFull, FlushFor.whenQueued, FlushFor.whenRefused]

variable {queue : TicketQueue Flush} {finished : Bool} {effect : LogEffect}

/-- The steps that are not about the queue do not lead into it. -/
theorem Advances.outside (h : Advances t queue finished th th' effect)
    (hpc : th.pc.enqueues = false) :
  (∀ f ticket, th'.pc ≠ .publish f ticket)
    ∧ ∀ s : Logger, (s.apply t effect).queue = s.queue
  := by
  cases h with
  | full henqueue | reserve henqueue | publish henqueue =>
      rw [henqueue] at hpc
      cases hpc
  | busy => exact ⟨fun f' ticket => (ne_publish _ f' ticket).1, fun _ => rfl⟩
  | release => exact ⟨fun f' ticket => (ne_publish _ f' ticket).2.2.1, fun _ => rfl⟩
  | clearFlag => exact ⟨fun f' ticket => (ne_publish _ f' ticket).2.2.2, fun _ => rfl⟩
  | spin hwait =>
      rw [hwait]
      exact ⟨by simp, fun _ => rfl⟩
  | @waited i =>
      refine ⟨?_, fun _ => rfl⟩
      cases i <;> simp
  | _ => exact ⟨by simp, fun _ => rfl⟩

theorem append_ne_publish (r : Record) (late : Bool) (f : FlushFor) (ticket : ℕ) :
  (th.append r late).pc ≠ .publish f ticket
  := by
  rcases append_cases th r late with ⟨-, heq⟩ | ⟨isFull, -, heq⟩
  · rw [heq]
    simp
  · rw [heq]
    simp

theorem exit_ne_publish (hpc : th.pc = .idle) (f : FlushFor) (ticket : ℕ) :
  th.exit.pc ≠ .publish f ticket
  := by
  rw [exit]
  split
  · dsimp only
    split <;> simp
  · simp [hpc]

theorem destroy_ne_publish (f : FlushFor) (ticket : ℕ) :
  th.destroy.pc ≠ .publish f ticket
  := by
  rw [destroy]
  dsimp only
  split <;> simp

end LogThread

namespace Logger

variable {s s' : Logger} {e : LogEvent}

/-- The backend leaves the threads where they are. -/
theorem Backs.threads {date : ℕ} {opened : OpenResult} (h : Backs s date opened s') (t : ℕ) :
  (s'.threads t).pc = (s.threads t).pc ∧ (s'.threads t).writeIdx = (s.threads t).writeIdx
  := by
  cases h with
  | openFirst | openNext => cases opened <;> exact ⟨rfl, rfl⟩
  | clear =>
      apply of_setThread (P := fun th => th.pc = (s.threads t).pc
        ∧ th.writeIdx = (s.threads t).writeIdx)
      · rintro rfl
        exact ⟨rfl, rfl⟩
      · exact fun _ => ⟨rfl, rfl⟩
  | unflag =>
      apply of_setThread (P := fun th => th.pc = (s.threads t).pc
        ∧ th.writeIdx = (s.threads t).writeIdx)
      · rintro rfl
        exact ⟨rfl, rfl⟩
      · exact fun _ => ⟨rfl, rfl⟩
  | _ => exact ⟨rfl, rfl⟩

theorem Backs.queue_eq {date : ℕ} {opened : OpenResult} (h : Backs s date opened s')
    (hnot : s.dequeues = false) :
  s'.queue = s.queue
  := by
  cases h with
  | dequeue htask hpc =>
      rw [dequeues, htask] at hnot
      rcases hpc with hpc | hpc
      · simp [hpc] at hnot
      · simp [hpc] at hnot
  | openFirst | openNext => cases opened <;> rfl
  | _ => rfl

/-- A thread that is not in `enqueue` goes anywhere but into it. -/
theorem calls_setThread {t u : ℕ} {th : LogThread} {pc : EnqueuePc BufId}
    (hcalls : (s.threads u).Calls u pc) (hnot : (s.threads t).pc.enqueues = false)
    (hpublish : ∀ f ticket, th.pc ≠ .publish f ticket) :
  ((s.setThread t th).threads u).Calls u pc
  := by
  apply of_setThread (P := fun th => th.Calls u pc)
  · rintro rfl
    exact hcalls.move hnot hpublish
  · exact fun _ => hcalls

/-! ### What the places in `enqueue` mean for the logger -/

section

variable {t ticket : ℕ} {f : FlushFor} {buf : BufId} {pos : BitVec 64}

theorem produced_of_not_decided {pc : EnqueuePc BufId} (hdecided : pc.decided = false) :
  s.produced t pc = s
  := by
  unfold produced
  dsimp only
  split
  · cases hdecided
  · cases hdecided
  · cases hdecided
  · rfl

theorem produced_reserved (hpc : (s.threads t).pc = .enqueue f) :
  s.produced t (.storeData buf pos)
    = (s.setThread t { s.threads t with pc := .publish f pos.toNat }).apply t
      (.reserve ⟨buf, (s.threads t).front.records⟩)
  := by
  simp only [produced, hpc]

theorem produced_full (hpc : (s.threads t).pc = .enqueue f) :
  s.produced t (.returned false) = s.setThread t { s.threads t with pc := f.whenFull }
  := by
  simp only [produced, hpc]

theorem produced_published (hpc : (s.threads t).pc = .publish f ticket) :
  s.produced t (.returned true)
    = (s.setThread t { s.threads t with pc := .release f }).apply t (.publish ticket)
  := by
  simp only [produced, hpc]

/-- The compare-exchange on `tail_` takes a ticket. -/
theorem step_reserved (hpc : (s.threads t).pc = .enqueue f)
    (hroom : ¬ s.queue.Full flushQueueCapacity) (hpos : pos.toNat = s.queue.taken.length) :
  s.step (.thread t) = some (s.produced t (.storeData (t, (s.threads t).writeIdx) pos))
  := by
  rw [produced_reserved hpc, step, LogThread.advance, hpc]
  dsimp only
  rw [if_neg hroom, hpos]
  rfl

/-- The load of a sequence that is too small finds the queue full. -/
theorem step_full (hpc : (s.threads t).pc = .enqueue f) (hfull : s.queue.Full flushQueueCapacity) :
  s.step (.thread t) = some (s.produced t (.returned false))
  := by
  rw [produced_full hpc, step, LogThread.advance, hpc]
  dsimp only
  rw [if_pos hfull]
  rfl

/-- The store of the sequence publishes the ticket. -/
theorem step_published (hpc : (s.threads t).pc = .publish f ticket) :
  s.step (.thread t) = some (s.produced t (.returned true))
  := by
  rw [produced_published hpc, step, LogThread.advance, hpc]
  rfl

end

/-! ### What the places in `dequeue` mean for the logger -/

theorem of_dequeues (h : s.dequeues = true) :
  s.task = .none ∧ (s.pc = .drain ∨ s.pc = .finalDrain)
  := by
  rw [dequeues] at h
  split at h
  case h_1 htask =>
    use htask
    simpa using h
  case h_2 => cases h

theorem dequeued_of_not_decided {pc : DequeuePc BufId} (hdecided : pc.decided = false) :
  s.dequeued pc = s
  := by
  unfold dequeued
  split
  · cases hdecided
  · cases hdecided
  · rfl

/-- The store of a sequence that gives the slot back takes the oldest buffer out. -/
theorem step_taken (h : s.dequeues = true) {f : Flush} (hfront : s.queue.front = some f) :
  s.step (.backend 0 .ok) = some (s.dequeued (.advance f.buf))
  := by
  obtain ⟨htask, hpc⟩ := of_dequeues h
  have hrecords : (s.queue.taken[s.queue.consumed]?.map Flush.records).getD [] = f.records := by
    rw [(TicketQueue.front_eq_some hfront).2]
    rfl
  rw [dequeued, hrecords, step, htask]
  dsimp only
  rcases hpc with hpc | hpc
  · simp only [loopStep, hpc, hfront]
  · simp only [loopStep, hpc, hfront]

/-- The load of another sequence finds no buffer. -/
theorem step_missed (h : s.dequeues = true) (hfront : s.queue.front = none) :
  s.step (.backend 0 .ok) = some (s.dequeued (.returned false))
  := by
  obtain ⟨htask, hpc⟩ := of_dequeues h
  rcases hpc with hpc | hpc
  · simp [dequeued, step, loopStep, htask, hpc, hfront]
  · simp [dequeued, step, loopStep, htask, hpc, hfront]

end Logger

namespace QueuedLogger

variable {s : QueuedLogger} {l : Logger} {e : LogEvent}

/-- An event of the logger that is not about the queue leaves the history alone, and every thread
at its place in `enqueue`. -/
theorem allowed_spec (hallows : s.allows e = true) (h : s.logger.Steps e l) :
  l.queue = s.logger.queue
    ∧ ∀ t pc, (s.logger.threads t).Calls t pc → (l.threads t).Calls t pc
  := by
  cases h with
  | append r late hpc =>
      refine ⟨rfl, fun t pc hcalls => ?_⟩
      apply Logger.calls_setThread hcalls (by rw [hpc]; rfl) (LogThread.append_ne_publish r late)
  | exit hpc =>
      refine ⟨rfl, fun t pc hcalls => ?_⟩
      apply Logger.calls_setThread hcalls (by rw [hpc]; rfl) (LogThread.exit_ne_publish hpc)
  | destroy hpc =>
      refine ⟨rfl, fun t pc hcalls => ?_⟩
      apply Logger.calls_setThread hcalls (by rw [hpc]; rfl) LogThread.destroy_ne_publish
  | @thread t th effect hadvances =>
      have hnot : (s.logger.threads t).pc.enqueues = false := by
        simpa [allows] using hallows
      obtain ⟨hpublish, hqueue⟩ := hadvances.outside hnot
      refine ⟨hqueue _, fun u pc hcalls => ?_⟩
      rw [Logger.threads_apply]
      apply Logger.calls_setThread hcalls hnot hpublish
  | backend hbacks =>
      have hnot : s.logger.dequeues = false ∧ s.flushQueue.consumer.outside = true := by
        simpa [allows] using hallows
      refine ⟨hbacks.queue_eq hnot.1, fun t pc hcalls => ?_⟩
      exact hcalls.congr (hbacks.threads t).1 (hbacks.threads t).2
  | complete => exact ⟨rfl, fun _ _ hcalls => hcalls⟩

/-- The backend does not move while it is in `dequeue`. -/
theorem dequeues_of_allowed (hallows : s.allows e = true) (h : s.logger.Steps e l)
    (hinside : s.flushQueue.consumer.outside = false) :
  l.dequeues = s.logger.dequeues
  := by
  have hsame : l.task = s.logger.task → l.pc = s.logger.pc → l.dequeues = s.logger.dequeues := by
    intro htask hpc
    rw [Logger.dequeues, htask, hpc]
    rfl
  cases h with
  | append | exit | destroy | complete => exact hsame rfl rfl
  | @thread t th effect hadvances => cases effect <;> exact hsame rfl rfl
  | backend hbacks =>
      have hnot : s.logger.dequeues = false ∧ s.flushQueue.consumer.outside = true := by
        simpa [allows] using hallows
      rw [hinside] at hnot
      cases hnot.2

end QueuedLogger

end Proactor
