import UringProactor.Core.TcpThread

/-!
# Stopping a TCP worker

When stop is requested, `run_loop` leaves its loop at the next test and calls
`TcpThread::on_stop`.  This prepares the request that cancels all operations, with a null
`user_data`, and then handles completions in a loop of its own until it has seen the completion
of that request.  Stop may be requested at any time; it makes the wake-up read complete.

The two loops tell completions apart by the pointer in `user_data`.  The model records the SQEs
on whose pointer `Token::complete` was called; no step reads the record.
-/

namespace Proactor

/-- Where a worker is: in the loop of `run_loop`; in the loop of `on_stop`, with the flag
`done`; behind a call of `Token::complete` on a pointer to no token; or behind `on_stop`. -/
inductive StopPhase where
  | loop
  | drain (done : Bool)
  | undefined
  | returned
deriving DecidableEq

/-- Where the SQE of the cancel request is. -/
inductive CancelSqe where
  | none
  | prepared
  | submitted
  | completed
deriving DecidableEq

/-- A TCP worker that may be stopped. -/
structure StopWorker where
  worker : Worker
  /-- `cpu_id_`. -/
  cpuId : Int
  /-- Whether stop was requested. -/
  stop : Bool
  phase : StopPhase
  cancel : CancelSqe
  /-- The SQEs on whose `user_data` `Token::complete` was called; `none` would be the cancel
  request, whose `user_data` is null. -/
  completed : List (Option Sqe)

/-- An event: stop is requested; a step of the worker in the loop it is in; `run_loop` leaves its
loop; a pass of the loop of `on_stop` begins, handles the completion of the cancel request, or
ends. -/
inductive StopEvent where
  | requestStop
  | worker (e : Event)
  | leave
  | poll
  | cancelled
  | advance

namespace Worker

/-- Replace the ring. -/
def setRing (w : Worker) (r : IoRing) : Worker :=
  { w with thread := { w.thread with ioRing := r } }

/-- The SQEs on whose `user_data` `run_loop` calls `Token::complete` in an event. -/
def calls (w : Worker) : Event → List (Option Sqe)
  | .complete i _ _ _ _ =>
      match w.thread.ioRing.inflight[i]? with
      | some sqe => if sqe.data = .wakeup then [] else [some sqe]
      | none => []
  | _ => []

/-- The event is a completion of the wake-up read. -/
def wakes (w : Worker) : Event → Bool
  | .complete i _ _ _ _ => w.thread.ioRing.inflight[i]?.map Sqe.data = some .wakeup
  | _ => false

end Worker

namespace StopWorker

/-- The ring of the worker. -/
def ring (s : StopWorker) : IoRing := s.worker.thread.ioRing

/-- The worker when `run_loop` enters its loop. -/
def start (cpuId : Int) (w : Worker) : StopWorker where
  worker := w
  cpuId := cpuId
  stop := false
  phase := .loop
  cancel := .none
  completed := []

/-- A step of the worker. -/
def run (s : StopWorker) (e : Event) : Option StopWorker :=
  (s.worker.step e).map (fun w =>
    { s with worker := w, completed := s.completed ++ s.worker.calls e })

/-- A step of the worker in the loop of `run_loop`, which is left when stop was requested. -/
def loopStep (s : StopWorker) : Event → Option StopWorker
  | .submit => if s.stop then none else s.run .submit
  | e => s.run e

/-- A step of the worker in the loop of `on_stop`.  The sentinel of the wake-up read is not
null, so `Token::complete` is called on it. -/
def drainStep (s : StopWorker) : Event → Option StopWorker
  | .submit => none
  | .batchDone => none
  | .complete i res more idx data =>
      match s.ring.inflight[i]? with
      | some ⟨op, .wakeup⟩ =>
          if s.worker.ctl = .batch then
            some { s with
              phase := .undefined
              completed := s.completed ++ [some ⟨op, .wakeup⟩] }
          else
            none
      | _ => s.run (.complete i res more idx data)
  | e => s.run e

/-- The start of `TcpThread::on_stop`.  Until the next submit the SQE of the cancel request
takes one place in the submission queue; `none` also stands for the exception of `get_sqe`. -/
def leave (s : StopWorker) : Option StopWorker :=
  if s.phase = .loop ∧ s.worker.ctl = .poll ∧ s.stop = true ∧ s.ring.sq.length < s.ring.depth then
    some { s with
      worker := s.worker.setRing { s.ring with depth := s.ring.depth - 1 }
      phase := .drain false
      cancel := .prepared }
  else
    none

/-- The start of a pass of the loop of `on_stop`: `submit_and_wait`, if `cpu_id_` is `-1`. -/
def poll (s : StopWorker) : Option StopWorker :=
  if s.phase = .drain false ∧ s.worker.ctl = .poll then
    if s.cpuId = -1 then
      if s.cancel = .prepared then
        some { s with
          worker := { s.worker.setRing { s.ring.submit with depth := s.ring.depth + 1 } with
            ctl := .batch }
          cancel := .submitted }
      else
        some { s with worker := { s.worker.setRing s.ring.submit with ctl := .batch } }
    else
      some { s with worker := { s.worker with ctl := .batch } }
  else
    none

/-- One event; `none` when it cannot happen, or ends the program. -/
def step (s : StopWorker) : StopEvent → Option StopWorker
  | .requestStop => some { s with stop := true }
  | .worker e =>
      match s.phase with
      | .loop => s.loopStep e
      | .drain _ => s.drainStep e
      | _ => none
  | .leave => s.leave
  | .poll => s.poll
  | .cancelled =>
      match s.phase with
      | .drain _ =>
          if s.worker.ctl = .batch ∧ s.cancel = .submitted then
            some { s with phase := .drain true, cancel := .completed }
          else
            none
      | _ => none
  | .advance =>
      match s.phase with
      | .drain done =>
          if s.worker.ctl = .batch then
            if done then
              some { s with phase := .returned }
            else
              some { s with worker := { s.worker with ctl := .poll } }
          else
            none
      | _ => none

/-- What the kernel and the application do: the wake-up read completes only when stop was
requested. -/
def Admits (s : StopWorker) : StopEvent → Prop
  | .worker e => s.worker.Admits e ∧ (s.worker.wakes e = true → s.stop = true)
  | _ => True

instance (s : StopWorker) : ∀ e, Decidable (s.Admits e)
  | .worker _ => inferInstanceAs (Decidable (_ ∧ _))
  | .requestStop | .leave | .poll | .cancelled | .advance => inferInstanceAs (Decidable True)

/-! ### What an event does -/

/-- A step, by what the worker does: stop is requested; the worker takes a step in one of the two
loops; the loop of `on_stop` calls `Token::complete` on the sentinel; `run_loop` leaves its loop;
a pass begins with a submit of the cancel request, with a submit, or without; the cancel request
completes; a pass ends, or the loop of `on_stop` does. -/
inductive Steps (s : StopWorker) : StopEvent → StopWorker → Prop where
  | requestStop : Steps s .requestStop { s with stop := true }
  | runs {e : Event} {s' : StopWorker} (hphase : s.phase ≠ .returned ∧ s.phase ≠ .undefined)
      (hsentinel : s.phase = .loop ∨ s.worker.wakes e = false) (hrun : s.run e = some s') :
      Steps s (.worker e) s'
  | sentinel {i idx : ℕ} {res : Int} {more done : Bool} {data : List UInt8} {op : SqeOp}
      (hphase : s.phase = .drain done) (hsqe : s.ring.inflight[i]? = some ⟨op, .wakeup⟩) :
      Steps s (.worker (.complete i res more idx data))
        { s with phase := .undefined, completed := s.completed ++ [some ⟨op, .wakeup⟩] }
  | leave (hphase : s.phase = .loop) (hctl : s.worker.ctl = .poll) (hstop : s.stop = true)
      (hroom : s.ring.sq.length < s.ring.depth) :
      Steps s .leave { s with
        worker := s.worker.setRing { s.ring with depth := s.ring.depth - 1 }
        phase := .drain false
        cancel := .prepared }
  | flush (hphase : s.phase = .drain false) (hctl : s.worker.ctl = .poll) (hcpu : s.cpuId = -1)
      (hcancel : s.cancel = .prepared) :
      Steps s .poll { s with
        worker := { s.worker.setRing { s.ring.submit with depth := s.ring.depth + 1 } with
          ctl := .batch }
        cancel := .submitted }
  | submit (hphase : s.phase = .drain false) (hctl : s.worker.ctl = .poll) (hcpu : s.cpuId = -1)
      (hcancel : s.cancel ≠ .prepared) :
      Steps s .poll { s with worker := { s.worker.setRing s.ring.submit with ctl := .batch } }
  | peek (hphase : s.phase = .drain false) (hctl : s.worker.ctl = .poll) (hcpu : s.cpuId ≠ -1) :
      Steps s .poll { s with worker := { s.worker with ctl := .batch } }
  | cancelled {done : Bool} (hphase : s.phase = .drain done) (hctl : s.worker.ctl = .batch)
      (hcancel : s.cancel = .submitted) :
      Steps s .cancelled { s with phase := .drain true, cancel := .completed }
  | advance (hphase : s.phase = .drain false) (hctl : s.worker.ctl = .batch) :
      Steps s .advance { s with worker := { s.worker with ctl := .poll } }
  | returns (hphase : s.phase = .drain true) (hctl : s.worker.ctl = .batch) :
      Steps s .advance { s with phase := .returned }

variable {s s' : StopWorker}

theorem drainStep_cases {e : Event} {done : Bool} (hphase : s.phase = .drain done)
    (h : s.drainStep e = some s') :
  Steps s (.worker e) s'
  := by
  have hdrain : s.phase ≠ .returned ∧ s.phase ≠ .undefined := by
    rw [hphase]
    exact ⟨nofun, nofun⟩
  cases e with
  | submit => cases h
  | batchDone => cases h
  | ret => exact .runs hdrain (.inr rfl) h
  | app c op => exact .runs hdrain (.inr rfl) h
  | complete i res more idx data =>
      rw [drainStep] at h
      split at h
      case h_1 op hsqe =>
        split at h
        · cases h
          exact .sentinel hphase hsqe
        · cases h
      case h_2 hne =>
        refine .runs hdrain (.inr ?_) h
        apply decide_eq_false
        intro hwakes
        obtain ⟨⟨op, u⟩, hsqe, hdata⟩ := Option.map_eq_some_iff.mp hwakes
        cases hdata
        exact hne op hsqe

theorem step_cases {e : StopEvent} (h : s.step e = some s') :
  Steps s e s'
  := by
  cases e with
  | requestStop =>
      cases h
      exact .requestStop
  | worker e =>
      rw [step] at h
      split at h
      case h_1 hphase =>
        have hloop : s.phase ≠ .returned ∧ s.phase ≠ .undefined := by
          rw [hphase]
          exact ⟨nofun, nofun⟩
        cases e with
        | submit =>
            rw [loopStep] at h
            split at h
            · cases h
            · exact .runs hloop (.inl hphase) h
        | _ => exact .runs hloop (.inl hphase) h
      case h_2 hphase => exact drainStep_cases hphase h
      case h_3 => cases h
  | leave =>
      rw [step, leave] at h
      split at h
      case isTrue hif =>
        cases h
        exact .leave hif.1 hif.2.1 hif.2.2.1 hif.2.2.2
      case isFalse => cases h
  | poll =>
      rw [step, poll] at h
      split at h
      case isTrue hif =>
        split at h
        case isTrue hcpu =>
          split at h
          case isTrue hcancel =>
            cases h
            exact .flush hif.1 hif.2 hcpu hcancel
          case isFalse hcancel =>
            cases h
            exact .submit hif.1 hif.2 hcpu hcancel
        case isFalse hcpu =>
          cases h
          exact .peek hif.1 hif.2 hcpu
      case isFalse => cases h
  | cancelled =>
      rw [step] at h
      split at h
      case h_1 hphase =>
        split at h
        case isTrue hif =>
          cases h
          exact .cancelled hphase hif.1 hif.2
        case isFalse => cases h
      case h_2 => cases h
  | advance =>
      rw [step] at h
      split at h
      case h_1 done hphase =>
        split at h
        case isTrue hctl =>
          cases done with
          | true =>
              cases h
              exact .returns hphase hctl
          | false =>
              cases h
              exact .advance hphase hctl
        case isFalse => cases h
      case h_2 => cases h

/-- A step of the worker changes the worker and the record only. -/
theorem run_eq {e : Event} (h : s.run e = some s') :
  ∃ ok w, s.worker.stepResult e = some (ok, w)
    ∧ s' = { s with worker := w, completed := s.completed ++ s.worker.calls e }
  := by
  obtain ⟨w, hstep, rfl⟩ := Option.map_eq_some_iff.mp h
  obtain ⟨⟨ok, _⟩, hresult, rfl⟩ := Option.map_eq_some_iff.mp hstep
  exact ⟨ok, _, hresult, rfl⟩

end StopWorker

end Proactor
