import UringProactor.Net.Outcome

/-!
# The write side of a channel

`WriteSide` is what the write path of a channel is about: the write coroutine and whether it
waits for a notification, the write buffer with the pool it takes its blocks from, and the
outstanding `writev` SQEs.  `WriteSide.Step` says how the write side changes; what does not
concern it, such as the count `in_flight_`, is left open.  Each function of a channel changes
the write side as listed, and prepares SQEs for no other channel.
-/

namespace Proactor

/-- The write side of a channel. -/
structure WriteSide where
  /-- `is_closing()`. -/
  closing : Bool
  /-- Whether the write coroutine is suspended on `notify_token_`. -/
  handle : Bool
  co : WriteCo
  /-- `write_buf_`. -/
  buf : WriteBufStream
  /-- The numbers of iovecs of the outstanding `writev` SQEs. -/
  writevs : Multiset ℕ
  /-- The pool, which all channels of a worker share. -/
  pool : BufPool
  /-- Whether `io_uring_get_sqe` has returned null, for any channel. -/
  failed : Bool

/-- What happens on the write side of a channel: nothing but that the channel is closed or its
write coroutine notified; a call of `append` or `prepend` with its result; a successful
`submit`; the completion of a `writev`, with the bytes written or a failure; a completion
without a coroutine that waits for it; the return of `on_write`; a new connection. -/
inductive WriteLabel where
  | quiet
  | append (data : List UInt8) (ok : Bool)
  | prepend (data : List UInt8) (ok : Bool)
  | submit
  | written (bytes : ℕ)
  | failed
  | stale
  | returned
  | assign
deriving DecidableEq

namespace WriteSide

/-- The ends of a run of `tcp_write_loop`. -/
inductive Runs (s : WriteSide) : WriteSide → Prop where
  | finish {buf : WriteBufStream} {pool : BufPool} (hclosing : s.closing = true)
      (hreset : s.buf.reset s.pool = some (buf, pool)) :
      Runs s { s with co := .finished, buf := buf, pool := pool }
  | suspend (hidle : s.buf.sendList = []) : Runs s { s with handle := true, co := .onNotify }
  | prepare {count submittedBytes : ℕ} {buf : WriteBufStream} (hcount : count ≠ 0)
      (hpeek : s.buf.peekIovec s.pool = (count, submittedBytes, buf)) :
      Runs s { s with
        co := .onToken submittedBytes
        buf := buf
        writevs := count ::ₘ s.writevs }
  | throw {count submittedBytes : ℕ} {buf : WriteBufStream} (hcount : count ≠ 0)
      (hpeek : s.buf.peekIovec s.pool = (count, submittedBytes, buf)) :
      Runs s { s with co := .finished, buf := buf, failed := true }

/-- `NotifyToken::notify`. -/
inductive Notifies (s : WriteSide) : WriteSide → Prop where
  | resume {s' : WriteSide} (hhandle : s.handle = true)
      (hrun : Runs { s with handle := false, co := .running } s') : Notifies s s'
  | mark (hhandle : s.handle = false) : Notifies s s

/-- What the functions do that are not about the write buffer: they may close the channel,
notify the write coroutine, and fail to get an SQE of their own. -/
inductive Stirs (s : WriteSide) : WriteSide → Prop where
  | rest (closing failed : Bool) (hclosing : s.closing = true → closing = true)
      (hfailed : s.failed = true → failed = true) :
      Stirs s { s with closing := closing, failed := failed }
  | notify (s' : WriteSide) (closing failed : Bool) (hclosing : s.closing = true → closing = true)
      (hfailed : s'.failed = true → failed = true)
      (hnotify : Notifies { s with closing := closing } s') :
      Stirs s { s' with failed := failed }

/-- The changes of the write side of a channel. -/
inductive Step (s : WriteSide) : WriteLabel → WriteSide → Prop where
  | quiet {s' : WriteSide} (h : Stirs s s') : Step s .quiet s'
  | append {data : List UInt8} {ok : Bool} {b : WriteBufBase} {p : BufPool}
      (h : s.buf.append s.pool data = some (ok, b, p)) :
      Step s (.append data ok)
        { s with buf := { s.buf with toWriteBufBase := b }, pool := p }
  | prepend {data : List UInt8} {ok : Bool} {b : WriteBufBase} {p : BufPool}
      (h : s.buf.prepend s.pool data = some (ok, b, p)) :
      Step s (.prepend data ok)
        { s with buf := { s.buf with toWriteBufBase := b }, pool := p }
  | submit {buf : WriteBufStream} {s' : WriteSide} (hsubmit : s.buf.submit = (true, buf))
      (hnotify : Notifies { s with buf := buf } s') : Step s .submit s'
  | written {submittedBytes bytes nr : ℕ} {rest : Multiset ℕ} {s' : WriteSide}
      {buf : WriteBufStream} {pool : BufPool} (hco : s.co = .onToken submittedBytes)
      (hwritevs : s.writevs = nr ::ₘ rest) (hpos : 0 < bytes) (hle : bytes ≤ submittedBytes)
      (hdrain : Stirs { s with co := .running, writevs := rest } s')
      (hconsume : s'.buf.consumeWritten s'.pool bytes = some (buf, pool)) :
      Step s (.written bytes) { s' with buf := buf, pool := pool }
  | failed {submittedBytes nr : ℕ} {rest : Multiset ℕ} {s₁ s₂ : WriteSide}
      {buf : WriteBufStream} {pool : BufPool} (hco : s.co = .onToken submittedBytes)
      (hwritevs : s.writevs = nr ::ₘ rest)
      (hdrain : Stirs { s with co := .running, writevs := rest } s₁) (hclose : Stirs s₁ s₂)
      (hclosing : s₂.closing = true) (hreset : s₂.buf.reset s₂.pool = some (buf, pool)) :
      Step s .failed { s₂ with co := .finished, buf := buf, pool := pool }
  | stale {nr : ℕ} {rest : Multiset ℕ} (hco : ∀ submittedBytes, s.co ≠ .onToken submittedBytes)
      (hwritevs : s.writevs = nr ::ₘ rest) : Step s .stale { s with writevs := rest }
  | returned {s' : WriteSide} (hrun : Runs s s') : Step s .returned s'
  | assign {s' : WriteSide} (failed : Bool) (hfailed : s.failed = true → failed = true)
      (hrun : Runs
        { s with closing := false, handle := false, co := .running, failed := failed } s') :
      Step s .assign s'

variable {s s' s'' : WriteSide} {l : WriteLabel}

theorem Stirs.refl :
  Stirs s s
  := .rest s.closing s.failed id id

/-- What comes after a change of the write side may fail to get an SQE. -/
theorem Stirs.fail (h : Stirs s s') :
  Stirs s { s' with failed := true }
  := by
  cases h with
  | rest closing _ hclosing _ => exact .rest closing true hclosing (fun _ => rfl)
  | notify s₁ closing _ hclosing _ hnotify =>
      exact .notify s₁ closing true hclosing (fun _ => rfl) hnotify

/-- Nothing is forgotten about a failure of `io_uring_get_sqe`. -/
theorem Runs.failed_mono (h : Runs s s') (hfailed : s.failed = true) :
  s'.failed = true
  := by
  cases h with
  | throw => rfl
  | _ => exact hfailed

theorem Notifies.failed_mono (h : Notifies s s') (hfailed : s.failed = true) :
  s'.failed = true
  := by
  cases h with
  | resume _ hrun => exact hrun.failed_mono hfailed
  | mark => exact hfailed

theorem Stirs.failed_mono (h : Stirs s s') (hfailed : s.failed = true) :
  s'.failed = true
  := by
  cases h with
  | rest _ _ _ hmono => exact hmono hfailed
  | notify _ _ _ _ hmono hnotify => exact hmono (hnotify.failed_mono hfailed)

theorem Step.failed_mono (h : Step s l s') (hfailed : s.failed = true) :
  s'.failed = true
  := by
  cases h with
  | quiet h => exact h.failed_mono hfailed
  | append => exact hfailed
  | prepend => exact hfailed
  | submit _ hnotify => exact hnotify.failed_mono hfailed
  | written _ _ _ _ hdrain => exact hdrain.failed_mono hfailed
  | failed _ _ hdrain hclose => exact hclose.failed_mono (hdrain.failed_mono hfailed)
  | stale => exact hfailed
  | returned hrun => exact hrun.failed_mono hfailed
  | assign _ hmono hrun => exact hrun.failed_mono (hmono hfailed)

/-! ### The buffer -/

/-- `peek_iovec` leaves the windows of the buffer as they are. -/
theorem peekIovec_base {b b' : WriteBufStream} {p : BufPool} {count submittedBytes : ℕ}
    (h : b.peekIovec p = (count, submittedBytes, b')) :
  b'.toWriteBufBase = b.toWriteBufBase ∧ b'.sendHeadOffset = b.sendHeadOffset
  := by
  rw [WriteBufStream.peekIovec] at h
  dsimp only at h
  split at h
  · cases h
    exact ⟨rfl, rfl⟩
  · cases h
    exact ⟨rfl, rfl⟩

/-- `peek_iovec` reports iovecs only when the send queue has blocks. -/
theorem sendList_of_peekIovec {b b' : WriteBufStream} {p : BufPool} {count submittedBytes : ℕ}
    (h : b.peekIovec p = (count, submittedBytes, b')) (hcount : count ≠ 0) :
  b'.sendList ≠ []
  := by
  have hdata := WriteBufStream.hasSendData_of_peekIovec h hcount
  rw [WriteBufBase.sendList, (peekIovec_base h).1, Ne, Circular.toList_eq_nil_iff]
  simpa [WriteBufStream.hasSendData] using hdata

/-! ### Closing is for good -/

theorem Runs.closing_eq (h : Runs s s') :
  s'.closing = s.closing
  := by
  cases h <;> rfl

theorem Notifies.closing_eq (h : Notifies s s') :
  s'.closing = s.closing
  := by
  cases h with
  | resume _ hrun => exact hrun.closing_eq
  | mark => rfl

theorem Stirs.closing_mono (h : Stirs s s') (hclosing : s.closing = true) :
  s'.closing = true
  := by
  cases h with
  | rest _ _ hmono => exact hmono hclosing
  | notify _ _ _ hmono _ hnotify => exact hnotify.closing_eq.trans (hmono hclosing)

/-- Only a new connection finds the channel open again. -/
theorem Step.closing_mono (h : Step s l s') (hl : l ≠ .assign) (hclosing : s.closing = true) :
  s'.closing = true
  := by
  cases h with
  | quiet h => exact h.closing_mono hclosing
  | append => exact hclosing
  | prepend => exact hclosing
  | submit _ hnotify => exact hnotify.closing_eq.trans hclosing
  | written _ _ _ _ hdrain => exact hdrain.closing_mono hclosing
  | failed _ _ hdrain hclose => exact hclose.closing_mono (hdrain.closing_mono hclosing)
  | stale => exact hclosing
  | returned hrun => exact hrun.closing_eq.trans hclosing
  | assign => cases hl rfl

/-! ### While the write coroutine does not wait for a notification -/

theorem Notifies.eq_of_handle (h : Notifies s s') (hhandle : s.handle = false) :
  s' = s
  := by
  cases h with
  | resume htrue =>
      rw [hhandle] at htrue
      cases htrue
  | mark => rfl

/-- The token has no handle of a coroutine that waits for something else. -/
theorem handle_eq_false (h : s.handle = true ↔ s.co = .onNotify) (hco : s.co ≠ .onNotify) :
  s.handle = false
  := by
  rw [← Bool.not_eq_true, h]
  exact hco

/-- A coroutine that does not wait for a notification is not resumed. -/
theorem Stirs.eq_of_handle (h : Stirs s s') (hhandle : s.handle = false) :
  ∃ closing failed, s' = { s with closing := closing, failed := failed }
  := by
  cases h with
  | rest closing failed => exact ⟨closing, failed, rfl⟩
  | notify _ closing failed _ _ hnotify =>
      rw [hnotify.eq_of_handle hhandle]
      exact ⟨closing, failed, rfl⟩

end WriteSide

/-! ### The functions of a channel -/

namespace TcpChannel

open WriteSide

/-- The write side of the channel `ch` with index `c` on the thread `th`. -/
def writeSide (c : ℕ) (ch : TcpChannel) (th : TcpThread) : WriteSide where
  closing := ch.isClosing
  handle := ch.notifyToken.handle
  co := ch.writeCo
  buf := ch.writeBuf
  writevs := th.ioRing.writevs c
  pool := th.bufPool
  failed := th.ioRing.failed

variable {c : ℕ} {ch ch' : TcpChannel} {th th' : TcpThread}

/-- What the write side of a channel depends on besides the channel. -/
theorem writeSide_congr (hwritevs : th'.ioRing.writevs c = th.ioRing.writevs c)
    (hfailed : th'.ioRing.failed = th.ioRing.failed) (hpool : th'.bufPool = th.bufPool) :
  ch.writeSide c th' = ch.writeSide c th
  := by
  rw [writeSide, hwritevs, hfailed, hpool]
  rfl

/-- Without data to send, the send queue is empty. -/
theorem sendList_of_hasSendData {s : WriteBufStream} (h : s.hasSendData = false) :
  s.sendList = []
  := by
  apply (Circular.toList_eq_nil_iff _).mpr
  simpa [WriteBufStream.hasSendData] using h

/-- A run of the write coroutine. -/
theorem WriteOutcome.runs {woken : Bool} (h : WriteOutcome c woken ch th ch' th') :
  Runs (ch.writeSide c th) (ch'.writeSide c th') ∧ th.ioRing.Extends c 1 th'.ioRing
  := by
  cases h with
  | finish pending hdrained hreset => exact ⟨.finish hdrained.1 hreset, .refl⟩
  | suspend hidle _ => exact ⟨.suspend (sendList_of_hasSendData hidle), .refl⟩
  | @prepare count submittedBytes writeBuf ioRing _ hcount hpeek hprep =>
      constructor
      · have hside : writeSide c
            { ch with
              writeBuf := writeBuf
              inFlight := ch.inFlight + 1
              writeCo := .onToken submittedBytes }
            { th with ioRing := ioRing }
            = { ch.writeSide c th with
                co := .onToken submittedBytes
                buf := writeBuf
                writevs := count ::ₘ th.ioRing.writevs c } := by
          rw [writeSide, IoRing.writevs_prep hprep, IoRing.prep_eq_some hprep]
          rfl
        rw [hside]
        exact .prepare hcount hpeek
      · exact .of_prep hprep (.inr rfl)
  | throw _ hcount hpeek hprep => exact ⟨.throw hcount hpeek, .of_fail hprep⟩

/-- `NotifyToken::notify`. -/
theorem notify_notifies (h : ch.notify c th = some (ch', th')) :
  Notifies (ch.writeSide c th) (ch'.writeSide c th') ∧ th.ioRing.Extends c 1 th'.ioRing
  := by
  rw [notify] at h
  split at h
  case isTrue hhandle =>
    obtain ⟨hrun, hextends⟩ := (resumeNotified_outcome h).runs
    exact ⟨.resume hhandle hrun, hextends⟩
  case isFalse hhandle =>
    cases h
    exact ⟨.mark (Bool.eq_false_iff.mpr hhandle), .refl⟩

/-- Notifying a closing channel without SQEs in flight prepares nothing. -/
theorem notify_drained (h : ch.notify c th = some (ch', th')) (hdrained : ch.Drained) :
  th'.ioRing = th.ioRing
  := by
  rw [notify] at h
  split at h
  case isTrue =>
    cases resumeNotified_outcome h with
    | finish => rfl
    | suspend => rfl
    | prepare hopen => exact absurd hdrained hopen
    | throw hopen => exact absurd hdrained hopen
  case isFalse =>
    cases h
    rfl

/-- `TcpChannel::in_flight_dec`. -/
theorem inFlightDec_stirs (h : ch.inFlightDec c th = some (ch', th')) :
  Stirs (ch.writeSide c th) (ch'.writeSide c th') ∧ th'.ioRing = th.ioRing
  := by
  cases inFlightDec_cases h with
  | keep => exact ⟨.refl, rfl⟩
  | @drain _ th₁ _ _ hclosing hnotify _ =>
      obtain ⟨hnotifies, -⟩ := notify_notifies hnotify
      have hring : th₁.ioRing = th.ioRing := notify_drained hnotify ⟨hclosing, le_rfl⟩
      refine ⟨?_, hring⟩
      exact .notify (ch'.writeSide c th₁) ch.isClosing _ id id hnotifies

/-- `TcpChannel::close`. -/
theorem close_stirs (h : ch.close c th = some (ch', th')) :
  Stirs (ch.writeSide c th) (ch'.writeSide c th') ∧ th.ioRing.Extends c 1 th'.ioRing
    ∧ ch'.isClosing = true
  := by
  obtain ⟨⟨ch₁, th₁⟩, hnotify, heq⟩ := Option.map_eq_some_iff.mp h
  cases heq
  obtain ⟨hnotifies, hextends⟩ := notify_notifies hnotify
  have hclosing : ch₁.isClosing = true := hnotifies.closing_eq
  refine ⟨?_, hextends, hclosing⟩
  exact .notify (ch₁.writeSide c th') true _ (fun _ => rfl) id hnotifies

/-- `if (!is_closing()) close()`. -/
theorem closeOnce_stirs (h : ch.closeOnce c th = some (ch', th')) :
  Stirs (ch.writeSide c th) (ch'.writeSide c th') ∧ th.ioRing.Extends c 1 th'.ioRing
    ∧ ch'.isClosing = true
  := by
  rw [closeOnce] at h
  split at h
  case isTrue hclosing =>
    cases h
    exact ⟨.refl, .refl, hclosing⟩
  case isFalse => exact close_stirs h

/-- Queueing received data is not about the write side. -/
theorem pushReceived_writeSide {idx size : ℕ} (h : ch.pushReceived c th idx size = (ch', th')) :
  ch'.writeSide c th' = ch.writeSide c th ∧ th'.ioRing = th.ioRing
  := by
  rw [pushReceived, markPendingRead] at h
  split at h
  · cases h
    exact ⟨rfl, rfl⟩
  · cases h
    exact ⟨rfl, rfl⟩

/-- Arming a `recv` is not about the write side. -/
theorem writeSide_prep_read {op : SqeOp} {ioRing : IoRing}
    (hprep : th.ioRing.prep ⟨op, .read c⟩ = some ioRing) :
  ch.writeSide c { th with ioRing := ioRing } = ch.writeSide c th
  := by
  apply writeSide_congr
  · exact IoRing.writevs_prep_of_ne hprep nofun
  · rw [IoRing.prep_eq_some hprep]
  · rfl

/-- `tcp_read_loop` after a completion. -/
theorem resumeRead_stirs {idx : ℕ} {res : Int} {more callback : Bool}
    (h : ch.resumeRead c th res more idx = some (ch', th', callback)) :
  Stirs (ch.writeSide c th) (ch'.writeSide c th') ∧ th.ioRing.Extends c 1 th'.ioRing
  := by
  obtain ⟨ch₁, th₁, hdec, hrest⟩ := resumeRead_cases h
  obtain ⟨hstirs, hring⟩ := inFlightDec_stirs hdec
  cases hrest with
  | ended =>
      refine ⟨hstirs, ?_⟩
      rw [hring]
      exact .refl
  | pushed _ hpush =>
      obtain ⟨hside, hring'⟩ := pushReceived_writeSide hpush
      rw [hside, hring', hring]
      exact ⟨hstirs, .refl⟩
  | threw _ hprep =>
      refine ⟨hstirs.fail, ?_⟩
      change th.ioRing.Extends c 1 th₁.ioRing.fail
      rw [hring] at hprep ⊢
      exact .of_fail hprep
  | rearmed _ hprep hpush =>
      obtain ⟨hside, hring'⟩ := pushReceived_writeSide hpush
      rw [hside, hring']
      constructor
      · rw [writeSide_prep_read hprep]
        exact hstirs
      · rw [hring] at hprep
        exact .of_prep hprep (.inl rfl)

/-- `tcp_read_loop` after `on_close`. -/
theorem afterOnClose_stirs (h : ch.afterOnClose c th = some (ch', th')) :
  Stirs (ch.writeSide c th) (ch'.writeSide c th') ∧ th.ioRing.Extends c 1 th'.ioRing
  := by
  obtain ⟨⟨ch₁, th₁⟩, hclose, hrest⟩ := Option.bind_eq_some_iff.mp h
  obtain ⟨⟨readBuf, bufRing⟩, -, heq⟩ := Option.bind_eq_some_iff.mp hrest
  cases heq
  obtain ⟨hstirs, hextends, -⟩ := closeOnce_stirs hclose
  exact ⟨hstirs, hextends⟩

/-- `tcp_write_loop` after `on_write`. -/
theorem writeLoop_step (h : ch.writeLoop c th = some (ch', th')) :
  Step (ch.writeSide c th) .returned (ch'.writeSide c th') ∧ th.ioRing.Extends c 1 th'.ioRing
  := by
  obtain ⟨hrun, hextends⟩ := (writeLoop_outcome h).runs
  exact ⟨.returned hrun, hextends⟩

/-- The label of a completion of a `writev`. -/
def writtenLabel (res : Int) : WriteLabel := if res ≤ 0 then .failed else .written res.toNat

/-- `tcp_write_loop` after a completion prepares at most one SQE. -/
theorem resumeWrite_extends {submittedBytes : ℕ} {res : Int} {callback : Bool}
    (h : ch.resumeWrite c th submittedBytes res = some (ch', th', callback)) :
  th.ioRing.Extends c 1 th'.ioRing
  := by
  obtain ⟨ch₁, th₁, hdec, hrest⟩ := resumeWrite_cases h
  obtain ⟨-, hring⟩ := inFlightDec_stirs hdec
  rw [← hring]
  cases hrest with
  | failed _ hclose _ => exact (closeOnce_stirs hclose).2.1
  | consumed => exact .refl

/-- `tcp_write_loop` after a completion; `s` is the write side before the kernel finished the
SQE. -/
theorem resumeWrite_step {s : WriteSide} {submittedBytes nr : ℕ} {res : Int} {callback : Bool}
    (h : ch.resumeWrite c th submittedBytes res = some (ch', th', callback))
    (hco : s.co = .onToken submittedBytes) (hwritevs : s.writevs = nr ::ₘ th.ioRing.writevs c)
    (hside : ch.writeSide c th = { s with writevs := th.ioRing.writevs c }) :
  Step s (writtenLabel res) (ch'.writeSide c th') ∧ callback = (0 < res : Bool)
  := by
  obtain ⟨ch₁, th₁, hdec, hrest⟩ := resumeWrite_cases h
  obtain ⟨hstirs, -⟩ := inFlightDec_stirs hdec
  have hrunning : writeSide c { ch with writeCo := .running } th
      = { s with co := .running, writevs := th.ioRing.writevs c } := by
    change { ch.writeSide c th with co := .running } = _
    rw [hside]
  rw [hrunning] at hstirs
  rw [writtenLabel]
  cases hrest with
  | failed hres hclose hreset =>
      obtain ⟨hstirs', -, hclosing⟩ := closeOnce_stirs hclose
      rw [if_pos hres, decide_eq_false (Int.not_lt.mpr hres)]
      exact ⟨.failed hco hwritevs hstirs hstirs' hclosing hreset, rfl⟩
  | consumed hres hle hconsume =>
      rw [if_neg (Int.not_le.mpr hres), decide_eq_true hres]
      exact ⟨.written hco hwritevs (by omega) hle hstirs hconsume, rfl⟩

/-- `TcpChannel::assign`. -/
theorem assign_step {fd : Int} (h : ch.assign c th fd = some (ch', th')) :
  Step (ch.writeSide c th) .assign (ch'.writeSide c th') ∧ th.ioRing.Extends c 2 th'.ioRing
  := by
  rw [assign, startRead] at h
  split at h
  case h_1 ch₁ th₁ hstart =>
    split at hstart
    case h_1 hprep =>
      cases hstart
      obtain ⟨hrun, hextends⟩ := (writeLoop_outcome h).runs
      have hfail : th.ioRing.Extends c 1 th.getSqeFailed.ioRing := .of_fail hprep
      exact ⟨.assign true (fun _ => rfl) hrun, hfail.trans hextends⟩
    case h_2 ioRing hprep =>
      cases hstart
      obtain ⟨hrun, hextends⟩ := (writeLoop_outcome h).runs
      rw [writeSide_prep_read hprep] at hrun
      have hprepared : th.ioRing.Extends c 1 ioRing := .of_prep hprep (.inl rfl)
      exact ⟨.assign th.ioRing.failed id hrun, hprepared.trans hextends⟩

end TcpChannel

end Proactor
