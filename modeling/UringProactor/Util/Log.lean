import UringProactor.Prelude.Run
import UringProactor.Prelude.TicketQueue

/-!
# The logger

Every logging thread has two buffers; it fills one and hands it to the backend thread through
`flush_queue_`, guarded by the flag `in_flight_` of each buffer and by `semaphore_`.  A thread
is somewhere in `Logger::append`, in `~ThreadFlushGuard` or in `~Logger`; the backend is
somewhere in `backend_loop`; the kernel completes the writes in any order and at any time.  An
event is a call, or one access of a thread or of the backend to what the threads share, and
the events of all of them interleave freely.

The queue is the bounded queue by tickets that `MPSCQueue` refines.  The tickets carry what
their buffers held at the enqueue, and the logger records what was logged and written; no step
reads these.
-/

namespace Proactor

/-- A log record, as `Logger::append` gets it. -/
abbrev Record := List UInt8

/-- A buffer: the thread whose `ThreadState` it is part of, and its index in `bufs`. -/
abbrev BufId := ℕ × Bool

/-- `LoggerBuffer`, by the records that `buffer_` holds one after the other. -/
structure LoggerBuffer where
  records : List Record := []
  /-- `in_flight_`. -/
  inFlight : Bool := false

namespace LoggerBuffer

/-- `LoggerBuffer::BUFFER_SIZE`. -/
def bufferSize : ℕ := 1024 * 1024 * 32

/-- `current_size_`. -/
def size (b : LoggerBuffer) : ℕ := (b.records.map List.length).sum

/-- `LoggerBuffer::empty`. -/
def isEmpty (b : LoggerBuffer) : Bool := b.size = 0

/-- `LoggerBuffer::append`. -/
def append (b : LoggerBuffer) (r : Record) : LoggerBuffer :=
  { b with records := b.records ++ [r] }

/-- `LoggerBuffer::clear`. -/
def clear (b : LoggerBuffer) : LoggerBuffer := { b with records := [] }

end LoggerBuffer

/-- `FLUSH_QUEUE_CAPACITY`. -/
def flushQueueCapacity : ℕ := 128

/-- The depth of `ring_`. -/
def logRingDepth : ℕ := 64

/-- An enqueued buffer, with the records it held at the enqueue. -/
structure Flush where
  buf : BufId
  records : List Record
deriving DecidableEq

/-- What a thread hands a buffer over for: `append` of a record, which fits into the buffer or
not; the exit of the thread; or the destruction of the logger. -/
inductive FlushFor where
  | append (r : Record) (isFull : Bool)
  | exit
  | destroy
deriving DecidableEq

/-- Where a thread is: outside of the logger, or before the step the name tells.  The steps
from `loadBack` to `clearFlag` hand the current buffer over. -/
inductive LogPc where
  | idle
  | loadBack (f : FlushFor)
  | setFlag (f : FlushFor)
  | enqueue (f : FlushFor)
  | publish (f : FlushFor) (ticket : ℕ)
  | release (f : FlushFor)
  | clearFlag (f : FlushFor)
  | switch (r : Record)
  | copy (r : Record)
  | wait (i : Bool)
  | delete
  | requestStop
  | releaseStop
  | join
  | deleteMain
  | close
  | destroyed
deriving DecidableEq

namespace FlushFor

/-- Where a thread goes on when its other buffer is in flight. -/
def whenBusy : FlushFor → LogPc
  | .append r isFull => if isFull then .idle else .copy r
  | .exit => .wait false
  | .destroy => .loadBack .destroy

/-- Where a thread goes on when the queue is full. -/
def whenFull : FlushFor → LogPc
  | .destroy => .enqueue .destroy
  | f => .clearFlag f

/-- Where a thread goes on when it has taken the flag of the buffer back. -/
def whenRefused : FlushFor → LogPc
  | .append r isFull => if isFull then .idle else .copy r
  | .exit => .wait false
  | .destroy => .enqueue .destroy

/-- Where a thread goes on when the buffer is handed over. -/
def whenQueued : FlushFor → LogPc
  | .append r _ => .switch r
  | .exit => .wait false
  | .destroy => .requestStop

end FlushFor

/-- A logging thread with its `ThreadState`. -/
structure LogThread where
  /-- Whether the `ThreadState` exists. -/
  allocated : Bool := false
  bufs : Bool → LoggerBuffer := fun _ => {}
  /-- `write_idx`. -/
  writeIdx : Bool := false
  pc : LogPc := .idle

/-- What a step of a thread does to what the threads share. -/
inductive LogEffect where
  | none
  | reserve (f : Flush)
  | publish (ticket : ℕ)
  | release
  | requestStop
  | copied (r : Record)
  | closeFd

namespace LogThread

/-- The current buffer. -/
def front (th : LogThread) : LoggerBuffer := th.bufs th.writeIdx

/-- The other buffer. -/
def back (th : LogThread) : LoggerBuffer := th.bufs (!th.writeIdx)

/-- Replace the current buffer. -/
def setFront (th : LogThread) (b : LoggerBuffer) : LogThread :=
  { th with bufs := Function.update th.bufs th.writeIdx b }

/-- The thread with a `ThreadState`, a new one unless it has one. -/
def withState (th : LogThread) : LogThread :=
  if th.allocated then th else { allocated := true }

/-- A call of `Logger::append`; `late` tells whether the last flush is a second ago. -/
def append (th : LogThread) (r : Record) (late : Bool) : LogThread :=
  let th := th.withState
  let isFull : Bool := LoggerBuffer.bufferSize < th.front.size + r.length
  let timedOut := !isFull && !th.front.isEmpty && late
  { th with pc := if isFull || timedOut then .loadBack (.append r isFull) else .copy r }

/-- The start of `~ThreadFlushGuard`. -/
def exit (th : LogThread) : LogThread :=
  if th.allocated then
    { th with pc := if th.front.isEmpty then .wait false else .loadBack .exit }
  else
    th

/-- The start of `~Logger`. -/
def destroy (th : LogThread) : LogThread :=
  { th with pc := if th.allocated && !th.front.isEmpty then .loadBack .destroy else .requestStop }

/-- The next step of the thread `t`, which finds the given queue, and the backend finished or
not; `none` when the thread has to wait. -/
def advance (t : ℕ) (th : LogThread) (queue : TicketQueue Flush) (finished : Bool) :
    Option (LogThread × LogEffect) :=
  match th.pc with
  | .idle => none
  | .loadBack f =>
      some ({ th with pc := if th.back.inFlight then f.whenBusy else .setFlag f }, .none)
  | .setFlag f =>
      some ({ th.setFront { th.front with inFlight := true } with pc := .enqueue f }, .none)
  | .enqueue f =>
      if queue.Full flushQueueCapacity then
        some ({ th with pc := f.whenFull }, .none)
      else
        some ({ th with pc := .publish f queue.taken.length },
          .reserve ⟨(t, th.writeIdx), th.front.records⟩)
  | .publish f ticket => some ({ th with pc := .release f }, .publish ticket)
  | .release f => some ({ th with pc := f.whenQueued }, .release)
  | .clearFlag f =>
      some ({ th.setFront { th.front with inFlight := false } with pc := f.whenRefused }, .none)
  | .switch r => some ({ th with writeIdx := !th.writeIdx, pc := .copy r }, .none)
  | .copy r => some ({ th.setFront (th.front.append r) with pc := .idle }, .copied r)
  | .wait i =>
      if (th.bufs i).inFlight then
        some (th, .none)
      else
        some ({ th with pc := if i then .delete else .wait true }, .none)
  | .delete => some ({ th with allocated := false, pc := .idle }, .none)
  | .requestStop => some ({ th with pc := .releaseStop }, .requestStop)
  | .releaseStop => some ({ th with pc := .join }, .release)
  | .join => if finished then some ({ th with pc := .deleteMain }, .none) else none
  | .deleteMain => some ({ th with allocated := false, pc := .close }, .none)
  | .close => some ({ th with pc := .destroyed }, .closeFd)
  | .destroyed => none

end LogThread

/-- A prepared write: its buffer, the date of its file, its offset, and the records of the
buffer. -/
structure LogWrite where
  buf : BufId
  file : ℕ
  offset : ℕ
  records : List Record
deriving DecidableEq

/-- The number of bytes of a write. -/
def LogWrite.length (w : LogWrite) : ℕ := (w.records.map List.length).sum

/-- Where the backend is in `backend_loop`.  `settle`, `wait` and `reapAll` wait for all writes
in flight, at a change of the date or, with the flag `final`, at the end. -/
inductive BackendPc where
  | start
  | openFirst
  | top
  | date
  | openNext
  | acquire
  | drain
  | submit
  | reap
  | check
  | finalDrain
  | finalSubmit
  | settle (final : Bool)
  | wait (final : Bool)
  | reapAll (final : Bool)
  | finished
deriving DecidableEq

/-- What the backend is doing with a buffer: `submit_buf` of a dequeued one, or the two stores
that give it back, after a completion or because no file is open. -/
inductive BackendTask where
  | none
  | submitBuf (f : Flush)
  | clear (b : BufId) (reaped : Bool)
  | unflag (b : BufId) (reaped : Bool)

/-- The results of `open` and `fstat`. -/
inductive OpenResult where
  | failed
  | noStat
  | ok
deriving DecidableEq

/-- The logger with its threads, its backend, the ring and the log files. -/
structure Logger where
  threads : ℕ → LogThread
  /-- `flush_queue_`. -/
  queue : TicketQueue Flush
  /-- The count of `semaphore_`. -/
  semaphore : ℕ
  /-- Whether the backend thread was requested to stop. -/
  stop : Bool
  pc : BackendPc
  task : BackendTask
  /-- `today_`. -/
  today : ℕ
  /-- `fd_`, by the date of the open file. -/
  fd : Option ℕ
  /-- `offset_`. -/
  offset : ℕ
  /-- `in_flight_`. -/
  inFlight : ℕ
  /-- The writes prepared since the last submit. -/
  sq : List LogWrite
  /-- The submitted writes that the kernel has not completed. -/
  submitted : List LogWrite
  /-- The completed writes that the backend has not seen. -/
  cq : List LogWrite
  /-- The sizes of the log files, by their dates. -/
  files : ℕ → ℕ
  /-- The thread that runs `~Logger`. -/
  destroyer : Option ℕ
  /-- The records that each thread has copied into its buffers. -/
  logged : ℕ → List Record
  /-- The writes prepared so far. -/
  writes : List LogWrite
  /-- The writes completed so far, with the records their buffers held at the completion. -/
  written : List LogWrite

/-- An event: a call of a thread; the next step of a thread; the next step of the backend,
which finds the given date or the given results of `open` and `fstat`; or the completion of the
`i`-th submitted write, of which `len` bytes were written. -/
inductive LogEvent where
  | append (t : ℕ) (r : Record) (late : Bool)
  | exit (t : ℕ)
  | destroy (t : ℕ)
  | thread (t : ℕ)
  | backend (date : ℕ) (opened : OpenResult)
  | complete (i len : ℕ)

namespace Logger

/-- A buffer. -/
def buf (s : Logger) (b : BufId) : LoggerBuffer := (s.threads b.1).bufs b.2

/-- Replace the thread `t`. -/
def setThread (s : Logger) (t : ℕ) (th : LogThread) : Logger :=
  { s with threads := Function.update s.threads t th }

/-- Replace a buffer. -/
def setBuf (s : Logger) (b : BufId) (lb : LoggerBuffer) : Logger :=
  s.setThread b.1 { s.threads b.1 with
    bufs := Function.update (s.threads b.1).bufs b.2 lb }

/-- What a step of the thread `t` does to what the threads share. -/
def apply (s : Logger) (t : ℕ) : LogEffect → Logger
  | .none => s
  | .reserve f => { s with queue := s.queue.reserve f }
  | .publish ticket => { s with queue := s.queue.publish ticket }
  | .release => { s with semaphore := s.semaphore + 1 }
  | .requestStop => { s with stop := true }
  | .copied r => { s with logged := Function.update s.logged t (s.logged t ++ [r]) }
  | .closeFd => { s with fd := none }

/-- `switch_log_file_date`. -/
def switchLogFileDate (s : Logger) : OpenResult → Logger
  | .failed => { s with fd := none }
  | .noStat => { s with fd := some s.today }
  | .ok => { s with fd := some s.today, offset := s.files s.today }

/-- `submit_buf`; `none` stands for the exception of `get_sqe`, which ends the program. -/
def submitBuf (s : Logger) (b : BufId) : Option Logger :=
  match s.fd with
  | none => some { s with task := .clear b false }
  | some file =>
      if s.sq.length < logRingDepth then
        let w : LogWrite := ⟨b, file, s.offset, (s.buf b).records⟩
        some { s with
          task := .none
          sq := s.sq ++ [w]
          offset := s.offset + (s.buf b).size
          inFlight := s.inFlight + 1
          writes := s.writes ++ [w] }
      else
        none

/-- `IoRing::submit` of `ring_`. -/
def submitRing (s : Logger) : Logger := { s with sq := [], submitted := s.submitted ++ s.sq }

/-- The next step of the backend in one of its tasks. -/
def taskStep (s : Logger) : Option Logger :=
  match s.task with
  | .none => none
  | .submitBuf f => s.submitBuf f.buf
  | .clear b reaped =>
      some { s.setBuf b (s.buf b).clear with task := .unflag b reaped }
  | .unflag b reaped =>
      some { s.setBuf b { s.buf b with inFlight := false } with
        task := .none
        inFlight := if reaped then s.inFlight - 1 else s.inFlight }

/-- The next step of the backend in `backend_loop`; `none` when it has to wait. -/
def loopStep (s : Logger) (date : ℕ) (opened : OpenResult) : Option Logger :=
  match s.pc with
  | .start => some { s with today := date, pc := .openFirst }
  | .openFirst => some { s.switchLogFileDate opened with pc := .top }
  | .top => some { s with pc := if s.stop then .drain else .date }
  | .date =>
      if date = s.today then
        some { s with pc := .acquire }
      else
        some { s with today := date, pc := .settle false }
  | .openNext => some { s.switchLogFileDate opened with pc := .acquire }
  | .acquire =>
      if 0 < s.semaphore then
        some { s with semaphore := s.semaphore - 1, pc := .drain }
      else
        none
  | .drain =>
      match s.queue.front with
      | some f => some { s with queue := s.queue.consume, task := .submitBuf f }
      | none => some { s with pc := .submit }
  | .submit => some { s.submitRing with pc := .reap }
  | .reap =>
      match s.cq with
      | w :: cq => some { s with cq := cq, task := .clear w.buf true }
      | [] => some { s with pc := .check }
  | .check => some { s with pc := if s.stop then .finalDrain else .top }
  | .finalDrain =>
      match s.queue.front with
      | some f => some { s with queue := s.queue.consume, task := .submitBuf f }
      | none => some { s with pc := .finalSubmit }
  | .finalSubmit => some { s.submitRing with pc := .settle true }
  | .settle final =>
      if s.inFlight = 0 then
        some { s with pc := if final then .finished else .openNext }
      else
        some { s.submitRing with pc := .wait final }
  | .wait final =>
      if s.inFlight ≤ s.cq.length then some { s with pc := .reapAll final } else none
  | .reapAll final =>
      if s.inFlight = 0 then
        some { s with pc := .settle final }
      else
        match s.cq with
        | w :: cq => some { s with cq := cq, task := .clear w.buf true }
        | [] => none
  | .finished => none

/-- The kernel completes the `i`-th submitted write, of which it has written `len` bytes. -/
def complete (s : Logger) (i len : ℕ) : Option Logger :=
  s.submitted[i]?.map (fun w => { s with
    submitted := s.submitted.eraseIdx i
    cq := s.cq ++ [w]
    files := if len = 0 then s.files else
      Function.update s.files w.file (max (s.files w.file) (w.offset + len))
    written := s.written ++ [{ w with records := (s.buf w.buf).records }] })

/-- One event; `none` when it cannot happen. -/
def step (s : Logger) : LogEvent → Option Logger
  | .append t r late =>
      match (s.threads t).pc with
      | .idle => some (s.setThread t ((s.threads t).append r late))
      | _ => none
  | .exit t =>
      match (s.threads t).pc with
      | .idle => some (s.setThread t (s.threads t).exit)
      | _ => none
  | .destroy t =>
      match (s.threads t).pc with
      | .idle => some { s.setThread t (s.threads t).destroy with destroyer := some t }
      | _ => none
  | .thread t =>
      ((s.threads t).advance t s.queue (s.pc = .finished)).map (fun (th, effect) =>
        (s.setThread t th).apply t effect)
  | .backend date opened =>
      match s.task with
      | .none => s.loopStep date opened
      | _ => s.taskStep
  | .complete i len => s.complete i len

/-- The logger when its backend thread starts, with log files of the given sizes. -/
def start (files : ℕ → ℕ) : Logger where
  threads _ := {}
  queue := .empty
  semaphore := 0
  stop := false
  pc := .start
  task := .none
  today := 0
  fd := none
  offset := 0
  inFlight := 0
  sq := []
  submitted := []
  cq := []
  files := files
  destroyer := none
  logged _ := []
  writes := []
  written := []

end Logger

end Proactor
