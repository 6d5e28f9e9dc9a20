import UringProactor.Net.Channel

/-!
# The lifecycle of a channel

`Conn` is what the close and release protocol of a channel is about: its notify token, its
count `in_flight_`, the places of its two coroutines, the SQEs it has outstanding and how
often its index is in the free queue.  `Conn.Step` says how an action changes it; what the
buffers decide is left open.
-/

namespace Proactor

/-- The part of a channel, its SQEs and the free queue that the close and release protocol
is about. -/
structure Conn where
  /-- `is_closed()`. -/
  closed : Bool
  /-- `notify_token_`. -/
  token : NotifyToken
  /-- `in_flight_`. -/
  inFlight : Int
  read : ReadCo
  write : WriteCo
  /-- The outstanding `recv` SQEs. -/
  recvs : ℕ
  /-- The outstanding `writev` SQEs. -/
  writes : ℕ
  /-- How often the index of the channel occurs in the free queue. -/
  free : ℕ

/-- What happens to a channel: a connection is assigned to it; its read coroutine gets a
completion, which may end the stream; its write coroutine gets a completion, which may be a
failure; a completion finds no coroutine suspended on its token; a callback returns; the
application submits data or closes the channel. -/
inductive Action where
  | assign
  | recv (ended more : Bool)
  | written (failed : Bool)
  | staleRecv
  | staleWrite
  | onCloseReturns
  | onWriteReturns
  | submit
  | close
deriving DecidableEq

/-- Whether the read coroutine runs after an action, given whether it ran before: it runs from
the end of its stream until `on_close` returns. -/
def Action.ReadRuns : Action → Prop → Prop
  | .assign, _ => False
  | .recv ended _, _ => ended = true
  | .onCloseReturns, _ => False
  | _, p => p

/-- Whether the write coroutine runs after an action, given whether it ran before: it runs
from a successful write until `on_write` returns. -/
def Action.WriteRuns : Action → Prop → Prop
  | .assign, _ => False
  | .written failed, _ => failed = false
  | .onWriteReturns, _ => False
  | _, p => p

/-- The write coroutine has not started, or has finished. -/
def WriteCo.Dead (co : WriteCo) : Prop := co = .unstarted ∨ co = .finished

instance (co : WriteCo) : Decidable co.Dead := inferInstanceAs (Decidable (_ ∨ _))

/-- The number of SQEs a write coroutine waits for. -/
def WriteCo.tokens : WriteCo → ℕ
  | .onToken _ => 1
  | _ => 0

@[simp, grind =]
theorem WriteCo.tokens_onToken (submittedBytes : ℕ) :
  (WriteCo.onToken submittedBytes).tokens = 1
  := rfl

@[simp, grind =]
theorem WriteCo.tokens_onNotify :
  WriteCo.onNotify.tokens = 0
  := rfl

@[simp, grind =]
theorem WriteCo.tokens_running :
  WriteCo.running.tokens = 0
  := rfl

@[simp, grind =]
theorem WriteCo.tokens_finished :
  WriteCo.finished.tokens = 0
  := rfl

theorem WriteCo.tokens_le (co : WriteCo) :
  co.tokens ≤ 1
  := by
  cases co with
  | onToken => exact le_rfl
  | _ => exact Nat.zero_le _

/-- A coroutine that is not suspended on its token waits for no SQE. -/
theorem WriteCo.tokens_of_ne {co : WriteCo} (h : ∀ submittedBytes, co ≠ .onToken submittedBytes) :
  co.tokens = 0
  := by
  cases co with
  | onToken submittedBytes => exact absurd rfl (h submittedBytes)
  | _ => rfl

namespace Conn

/-- The condition under which the write coroutine leaves its loop. -/
def Drained (k : Conn) : Prop := k.token.closed = true ∧ k.inFlight ≤ 0

/-- A run of the write coroutine, from behind the `co_await` of `notify_token_` if `woken`. -/
inductive Runs (woken : Bool) (k : Conn) : Conn → Prop where
  | finish (pending : Bool) (hdrained : k.Drained) :
      Runs woken k { k with token := { k.token with pending := pending }, write := .finished }
  | suspend (hopen : woken = true ∨ k.token.pending = true → ¬ k.Drained) :
      Runs woken k { k with
        token := { k.token with pending := false, handle := true }
        write := .onNotify }
  | prepare (submittedBytes : ℕ) (hopen : ¬ k.Drained) :
      Runs woken k { k with
        inFlight := k.inFlight + 1
        write := .onToken submittedBytes
        writes := k.writes + 1 }
  | throw (hopen : ¬ k.Drained) : Runs woken k { k with write := .finished }

/-- `NotifyToken::notify`. -/
inductive Notifies (k : Conn) : Conn → Prop where
  | resume {k' : Conn} (hhandle : k.token.handle = true)
      (hrun : Runs true { k with token := { k.token with handle := false }, write := .running } k') :
      Notifies k k'
  | mark (hhandle : k.token.handle = false) :
      Notifies k { k with token := { k.token with pending := true } }

/-- `TcpChannel::in_flight_dec`. -/
inductive Drains (k : Conn) : Conn → Prop where
  | keep (hkeep : k.inFlight = 1 → k.token.closed = false) :
      Drains k { k with inFlight := k.inFlight - 1 }
  | release {k' : Conn} (hlast : k.inFlight = 1) (hclosing : k.token.closed = true)
      (hnotify : Notifies { k with inFlight := 0 } k') :
      Drains k { k' with free := k'.free + 1 }

/-- `TcpChannel::close`. -/
inductive Closes (k : Conn) : Conn → Prop where
  | mk {k' : Conn} (hnotify : Notifies { k with token := { k.token with closed := true } } k') :
      Closes k { k' with closed := true }

/-- `if (!is_closing()) close()`. -/
inductive ClosesOnce (k : Conn) : Conn → Prop where
  | skip (hclosing : k.token.closed = true) : ClosesOnce k k
  | close {k' : Conn} (hopen : k.token.closed = false) (hclose : Closes k k') : ClosesOnce k k'

/-- The start of the read coroutine, which arms a `recv` or fails. -/
inductive Arms (k : Conn) : Conn → Prop where
  | arm : Arms k { k with inFlight := k.inFlight + 1, read := .awaiting, recvs := k.recvs + 1 }
  | throw : Arms k { k with read := .finished }

/-- The changes of a channel by an action. -/
inductive Step (k : Conn) : Action → Conn → Prop where
  | assign {k₁ k' : Conn} (hfree : 0 < k.free)
      (harm : Arms { k with closed := false, token := {}, free := k.free - 1 } k₁)
      (hrun : Runs false { k₁ with write := .running } k') : Step k .assign k'
  | ended {k' : Conn} {more : Bool} {n : ℕ} (hread : k.read = .awaiting)
      (hrecvs : k.recvs = n + (!more).toNat)
      (hdrain : Drains { k with recvs := n, read := .running } k') : Step k (.recv true more) k'
  | more {k' : Conn} (hread : k.read = .awaiting)
      (hdrain : Drains { k with read := .running } k') :
      Step k (.recv false true) { k' with read := .awaiting }
  | rearm {k₁ k' : Conn} {n : ℕ} (hread : k.read = .awaiting) (hrecvs : k.recvs = n + 1)
      (hdrain : Drains { k with recvs := n, read := .running } k₁) (harm : Arms k₁ k') :
      Step k (.recv false false) k'
  | written {k' : Conn} {submittedBytes n : ℕ} (hwrite : k.write = .onToken submittedBytes)
      (hwrites : k.writes = n + 1)
      (hdrain : Drains { k with writes := n, write := .running } k') : Step k (.written false) k'
  | failed {k₁ k' : Conn} {submittedBytes n : ℕ} (hwrite : k.write = .onToken submittedBytes)
      (hwrites : k.writes = n + 1)
      (hdrain : Drains { k with writes := n, write := .running } k₁) (hclose : ClosesOnce k₁ k') :
      Step k (.written true) { k' with write := .finished }
  | staleRecv {n : ℕ} (hread : k.read ≠ .awaiting) (hrecvs : k.recvs = n + 1) :
      Step k .staleRecv { k with recvs := n }
  | staleWrite {n : ℕ} (hwrite : ∀ submittedBytes, k.write ≠ .onToken submittedBytes)
      (hwrites : k.writes = n + 1) : Step k .staleWrite { k with writes := n }
  | onCloseReturns {k' : Conn} (hread : k.read = .running) (hclose : ClosesOnce k k') :
      Step k .onCloseReturns { k' with read := .finished }
  | onWriteReturns {k' : Conn} (hwrite : k.write = .running) (hrun : Runs false k k') :
      Step k .onWriteReturns k'
  | submit {k' : Conn} (hnotify : Notifies k k') : Step k .submit k'
  | close {k' : Conn} (hclose : Closes k k') : Step k .close k'

/-! ### Which coroutine runs after an action -/

variable {k k' : Conn} {a : Action}

theorem Runs.not_running {woken : Bool} (hrun : Runs woken k k') :
  k'.read = k.read ∧ k'.write ≠ .running
  := by
  cases hrun <;> simp

/-- Notifying runs the write coroutine to its next suspension, or leaves it as it is. -/
theorem Notifies.running_iff (hnotify : Notifies k k')
    (hhandle : k.token.handle = true → k.write = .onNotify) :
  k'.read = k.read ∧ (k'.write = .running ↔ k.write = .running)
  := by
  cases hnotify with
  | resume hresumed hrun =>
      have := hrun.not_running
      grind -linarith
  | mark _ => simp

theorem Drains.running_iff (hdrain : Drains k k')
    (hhandle : k.token.handle = true → k.write = .onNotify) :
  k'.read = k.read ∧ (k'.write = .running ↔ k.write = .running)
  := by
  cases hdrain with
  | keep _ => simp
  | release _ _ hnotify => exact hnotify.running_iff hhandle

theorem Drains.handle_of_false (hdrain : Drains k k') (hhandle : k.token.handle = false) :
  k'.token.handle = false
  := by
  cases hdrain with
  | keep _ => exact hhandle
  | release _ _ hnotify =>
      cases hnotify with
      | resume hresumed _ => simp [hhandle] at hresumed
      | mark _ => exact hhandle

theorem ClosesOnce.running_iff (hclose : ClosesOnce k k')
    (hhandle : k.token.handle = true → k.write = .onNotify) :
  k'.read = k.read ∧ (k'.write = .running ↔ k.write = .running)
  := by
  cases hclose with
  | skip _ => simp
  | close _ hclose =>
      obtain ⟨hnotify⟩ := hclose
      exact hnotify.running_iff hhandle

/-- Which coroutines run after an action. -/
theorem Step.running_iff (hstep : Step k a k')
    (hhandle : k.token.handle = true → k.write = .onNotify) :
  (k'.read = .running ↔ a.ReadRuns (k.read = .running))
    ∧ (k'.write = .running ↔ a.WriteRuns (k.write = .running))
  := by
  cases hstep with
  | assign _ harm hrun =>
      cases harm <;> grind -linarith [Action.ReadRuns, Action.WriteRuns, hrun.not_running]
  | ended _ _ hdrain =>
      grind -linarith [Action.ReadRuns, Action.WriteRuns, hdrain.running_iff hhandle]
  | more _ hdrain =>
      grind -linarith [Action.ReadRuns, Action.WriteRuns, hdrain.running_iff hhandle]
  | rearm _ _ hdrain harm =>
      cases harm <;> grind -linarith [Action.ReadRuns, Action.WriteRuns, hdrain.running_iff hhandle]
  | written hwrite _ hdrain =>
      have := hdrain.running_iff (by grind -linarith)
      grind -linarith [Action.ReadRuns, Action.WriteRuns]
  | failed hwrite _ hdrain hclose =>
      have := hdrain.handle_of_false (by grind -linarith)
      have := hdrain.running_iff (by grind -linarith)
      have := hclose.running_iff (by grind -linarith)
      grind -linarith [Action.ReadRuns, Action.WriteRuns]
  | staleRecv _ _ => simp [Action.ReadRuns, Action.WriteRuns]
  | staleWrite _ _ => simp [Action.ReadRuns, Action.WriteRuns]
  | onCloseReturns _ hclose =>
      grind -linarith [Action.ReadRuns, Action.WriteRuns, hclose.running_iff hhandle]
  | onWriteReturns _ hrun => grind -linarith [Action.ReadRuns, Action.WriteRuns, hrun.not_running]
  | submit hnotify =>
      grind -linarith [Action.ReadRuns, Action.WriteRuns, hnotify.running_iff hhandle]
  | close hclose =>
      obtain ⟨hnotify⟩ := hclose
      grind -linarith [Action.ReadRuns, Action.WriteRuns, hnotify.running_iff hhandle]

end Conn

end Proactor
