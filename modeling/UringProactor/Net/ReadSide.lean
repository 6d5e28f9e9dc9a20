import UringProactor.Net.Outcome

/-!
# The read side of a channel

`ReadSide` is what the read path of a channel is about: the read coroutine, the read buffer with
the ring of provided buffers, and whether the channel is in `pending_reads_`.  `ReadSide.Step` says
how the read side changes.  All other functions of a channel leave it at rest, but for closing the
channel and for failures of `io_uring_get_sqe`.
-/

namespace Proactor

/-- The read side of a channel. -/
structure ReadSide where
  /-- `is_closing()`. -/
  closing : Bool
  co : ReadCo
  /-- `read_buf_`. -/
  buf : ReadBufStream
  /-- `buf_ring_`. -/
  ring : BufRing
  /-- `in_pending_reads_`. -/
  marked : Bool
  /-- `pending_reads_`, which all channels of a worker share. -/
  pending : List ℕ
  /-- Whether `io_uring_get_sqe` has returned null, for any channel. -/
  failed : Bool

/-- What happens on the read side of a channel: nothing but that the channel is closed; a new
connection; a completion of its `recv`; the return of `on_close`; a call of `peek` or `consume`;
a call of `on_read`. -/
inductive ReadLabel where
  | quiet
  | assign
  | recv (res : Int) (idx : ℕ) (data : List UInt8)
  | closed
  | peek
  | consume
  | serve
deriving DecidableEq

namespace ReadSide

/-- Nothing changes but that the channel may be closed, and that `io_uring_get_sqe` may fail. -/
structure Rests (s s' : ReadSide) : Prop where
  closing : s.closing = true → s'.closing = true
  co : s'.co = s.co
  buf : s'.buf = s.buf
  ring : s'.ring = s.ring
  marked : s'.marked = s.marked
  pending : s'.pending = s.pending
  failed : s.failed = true → s'.failed = true

/-- The kernel has put what it received into the provided buffer `idx`. -/
def filled (s : ReadSide) (res : Int) (idx : ℕ) (data : List UInt8) : ReadSide :=
  if 0 < res then { s with ring := s.ring.fill idx data } else s

/-- The read side of the channel `c` at the end of a pass of `tcp_read_loop`. -/
def queued (c : ℕ) (s : ReadSide) (idx size : ℕ) : ReadSide :=
  { s with
    co := .awaiting
    buf := { s.buf with
      toReadBufBase := (s.buf.pushBuf (s.ring.setDataSize idx size) idx).2 }
    ring := s.ring.setDataSize idx size
    marked := true
    pending := if s.marked then s.pending else s.pending ++ [c] }

/-- The passes of `tcp_read_loop` from a completion on: the buffer is queued, the stream has
ended, or `get_sqe` throws. -/
inductive Receives (c : ℕ) (s : ReadSide) (res : Int) (idx : ℕ) : ReadSide → Prop where
  | received {s' : ReadSide} (hres : 0 < res) (h : Rests { s with co := .running } s') :
      Receives c s res idx (s'.queued c idx res.toNat)
  | ended {s' : ReadSide} (hres : res ≤ 0) (h : Rests { s with co := .running } s') :
      Receives c s res idx s'
  | threw {s' : ReadSide} (hres : 0 < res) (h : Rests { s with co := .running } s') :
      Receives c s res idx { s' with co := .finished, failed := true }

/-- The changes of the read side of the channel `c`. -/
inductive Step (c : ℕ) (s : ReadSide) : ReadLabel → ReadSide → Prop where
  | quiet {s' : ReadSide} (h : Rests s s') : Step c s .quiet s'
  | assign {s' : ReadSide} (co : ReadCo) (failed : Bool)
      (hco : co = .awaiting ∨ co = .finished ∧ failed = true)
      (hfailed : s.failed = true → failed = true)
      (h : Rests { s with closing := false, co := co, failed := failed } s') : Step c s .assign s'
  | stale {res : Int} {idx : ℕ} {data : List UInt8} (hco : s.co ≠ .awaiting) :
      Step c s (.recv res idx data) (s.filled res idx data)
  | recv {s' : ReadSide} {res : Int} {idx : ℕ} {data : List UInt8} (hco : s.co = .awaiting)
      (h : Receives c (s.filled res idx data) res idx s') : Step c s (.recv res idx data) s'
  | closed {s' : ReadSide} {buf : ReadBufStream} {ring : BufRing} (h : Rests s s')
      (hclosing : s'.closing = true) (hreset : s'.buf.reset s'.ring = some (buf, ring)) :
      Step c s .closed { s' with co := .finished, buf := buf, ring := ring }
  | peek (size : ℕ) : Step c s .peek { s with buf := (s.buf.peek s.ring size).2 }
  | consume {size : ℕ} {ok : Bool} {buf : ReadBufStream} {ring : BufRing}
      (hconsume : s.buf.consume s.ring size = some (ok, buf, ring)) :
      Step c s .consume { s with buf := buf, ring := ring }
  | serve : Step c s .serve { s with marked := false }

variable {s s' s'' : ReadSide}

/-- Filling a buffer changes nothing but the ring. -/
theorem filled_eq_with (res : Int) (idx : ℕ) (data : List UInt8) :
  s.filled res idx data = { s with ring := (s.filled res idx data).ring }
  := by
  rw [filled]
  split <;> rfl

theorem Rests.refl :
  Rests s s
  := ⟨id, rfl, rfl, rfl, rfl, rfl, id⟩

theorem Rests.trans (h : Rests s s') (h' : Rests s' s'') :
  Rests s s''
  := by
  constructor
  · exact h'.closing ∘ h.closing
  · rw [h'.co, h.co]
  · rw [h'.buf, h.buf]
  · rw [h'.ring, h.ring]
  · rw [h'.marked, h.marked]
  · rw [h'.pending, h.pending]
  · exact h'.failed ∘ h.failed

/-- A pass of `tcp_read_loop` keeps the channel's place in `pending_reads_`, or marks it. -/
theorem Receives.pending {c idx : ℕ} {res : Int} (h : Receives c s res idx s') :
  s'.marked = s.marked ∧ s'.pending = s.pending
    ∨ s'.marked = true ∧ s.marked = false ∧ s'.pending = s.pending ++ [c]
  := by
  cases h with
  | @received s₁ _ h =>
      rw [queued]
      cases hmarked : s₁.marked with
      | true => exact .inl ⟨(h.marked.symm.trans hmarked).symm, h.pending⟩
      | false => exact .inr ⟨rfl, h.marked.symm.trans hmarked, congrArg (· ++ [c]) h.pending⟩
  | ended _ h => exact .inl ⟨h.marked, h.pending⟩
  | threw _ h => exact .inl ⟨h.marked, h.pending⟩

/-- Only completions of a `recv` and calls of `on_read` change whether a channel is marked. -/
theorem Step.pending {c : ℕ} {l : ReadLabel} (h : Step c s l s') :
  s'.marked = s.marked ∧ s'.pending = s.pending
    ∨ (∃ res idx data, l = .recv res idx data)
      ∧ s'.marked = true ∧ s.marked = false ∧ s'.pending = s.pending ++ [c]
    ∨ l = .serve ∧ s' = { s with marked := false }
  := by
  have hfilled : ∀ res idx data,
      (s.filled res idx data).marked = s.marked ∧ (s.filled res idx data).pending = s.pending := by
    intro res idx data
    rw [filled_eq_with]
    exact ⟨rfl, rfl⟩
  cases h with
  | quiet h => exact .inl ⟨h.marked, h.pending⟩
  | assign _ _ _ _ h => exact .inl ⟨h.marked, h.pending⟩
  | stale => exact .inl (hfilled _ _ _)
  | @recv _ res idx data _ h =>
      obtain ⟨hmarked, hpending⟩ := hfilled res idx data
      have hcases := h.pending
      rw [hmarked, hpending] at hcases
      rcases hcases with hkeep | hmark
      · exact .inl hkeep
      · exact .inr (.inl ⟨⟨res, idx, data, rfl⟩, hmark⟩)
  | closed h => exact .inl ⟨h.marked, h.pending⟩
  | peek => exact .inl ⟨rfl, rfl⟩
  | consume => exact .inl ⟨rfl, rfl⟩
  | serve => exact .inr (.inr ⟨rfl, rfl⟩)

end ReadSide

namespace TcpChannel

open ReadSide

/-- The read side of the channel `ch` on the thread `th`. -/
def readSide (ch : TcpChannel) (th : TcpThread) : ReadSide where
  closing := ch.isClosing
  co := ch.readCo
  buf := ch.readBuf
  ring := th.bufRing
  marked := ch.inPendingReads
  pending := th.pendingReads
  failed := th.ioRing.failed

variable {c : ℕ} {ch ch' : TcpChannel} {th th' : TcpThread}

/-! ### What is not about the read side -/

/-- A run of the write coroutine. -/
theorem WriteOutcome.rests {woken : Bool} (h : WriteOutcome c woken ch th ch' th') :
  Rests (ch.readSide th) (ch'.readSide th')
  := by
  cases h with
  | finish => exact ⟨id, rfl, rfl, rfl, rfl, rfl, id⟩
  | suspend => exact ⟨id, rfl, rfl, rfl, rfl, rfl, id⟩
  | prepare _ _ _ hprep =>
      refine ⟨id, rfl, rfl, rfl, rfl, rfl, ?_⟩
      rw [IoRing.prep_eq_some hprep]
      exact id
  | throw => exact ⟨id, rfl, rfl, rfl, rfl, rfl, fun _ => rfl⟩

/-- `NotifyToken::notify`. -/
theorem notify_rests (h : ch.notify c th = some (ch', th')) :
  Rests (ch.readSide th) (ch'.readSide th')
  := by
  rw [notify] at h
  split at h
  · obtain ⟨hclosing, hco, hbuf, hring, hmarked, hpending, hfailed⟩ := (resumeNotified_outcome h).rests
    exact ⟨hclosing, hco, hbuf, hring, hmarked, hpending, hfailed⟩
  · cases h
    exact ⟨id, rfl, rfl, rfl, rfl, rfl, id⟩

/-- `TcpChannel::in_flight_dec`. -/
theorem inFlightDec_rests (h : ch.inFlightDec c th = some (ch', th')) :
  Rests (ch.readSide th) (ch'.readSide th')
  := by
  cases inFlightDec_cases h with
  | keep => exact ⟨id, rfl, rfl, rfl, rfl, rfl, id⟩
  | drain _ _ hnotify _ =>
      obtain ⟨hclosing, hco, hbuf, hring, hmarked, hpending, hfailed⟩ := notify_rests hnotify
      exact ⟨hclosing, hco, hbuf, hring, hmarked, hpending, hfailed⟩

/-- `TcpChannel::close`. -/
theorem close_rests (h : ch.close c th = some (ch', th')) :
  Rests (ch.readSide th) (ch'.readSide th') ∧ ch'.isClosing = true
  := by
  obtain ⟨⟨ch₁, th₁⟩, hnotify, heq⟩ := Option.map_eq_some_iff.mp h
  cases heq
  obtain ⟨hclosing, hco, hbuf, hring, hmarked, hpending, hfailed⟩ := notify_rests hnotify
  exact ⟨⟨fun _ => hclosing rfl, hco, hbuf, hring, hmarked, hpending, hfailed⟩, hclosing rfl⟩

/-- `if (!is_closing()) close()`. -/
theorem closeOnce_rests (h : ch.closeOnce c th = some (ch', th')) :
  Rests (ch.readSide th) (ch'.readSide th') ∧ ch'.isClosing = true
  := by
  rw [closeOnce] at h
  split at h
  case isTrue hclosing =>
    cases h
    exact ⟨.refl, hclosing⟩
  case isFalse => exact close_rests h

/-- `tcp_write_loop` after a completion. -/
theorem resumeWrite_rests {submittedBytes : ℕ} {res : Int} {callback : Bool}
    (h : ch.resumeWrite c th submittedBytes res = some (ch', th', callback)) :
  Rests (ch.readSide th) (ch'.readSide th')
  := by
  obtain ⟨ch₁, th₁, hdec, hrest⟩ := resumeWrite_cases h
  have hrests : Rests (readSide { ch with writeCo := .running } th) (ch₁.readSide th₁) :=
    inFlightDec_rests hdec
  cases hrest with
  | failed _ hclose _ => exact hrests.trans (closeOnce_rests hclose).1
  | consumed => exact hrests

/-! ### The functions of the read path -/

/-- `TcpChannel::assign`. -/
theorem assign_readStep {fd : Int} (h : ch.assign c th fd = some (ch', th')) :
  Step c (ch.readSide th) .assign (ch'.readSide th')
  := by
  rw [assign, startRead] at h
  split at h
  case h_1 ch₁ th₁ hstart =>
    have hrests := (writeLoop_outcome h).rests
    split at hstart
    case h_1 =>
      cases hstart
      exact .assign .finished true (.inr ⟨rfl, rfl⟩) (fun _ => rfl) hrests
    case h_2 ioRing hprep =>
      cases hstart
      have hfailed : ioRing.failed = th.ioRing.failed := by
        rw [IoRing.prep_eq_some hprep]
      refine .assign .awaiting th.ioRing.failed (.inl rfl) id ?_
      obtain ⟨hclosing, hco, hbuf, hring, hmarked, hpending, hmono⟩ := hrests
      refine ⟨hclosing, hco, hbuf, hring, hmarked, hpending, ?_⟩
      intro htrue
      apply hmono
      exact hfailed.trans htrue

/-- The end of a pass of `tcp_read_loop`. -/
theorem pushReceived_readSide {idx size : ℕ} (h : ch.pushReceived c th idx size = (ch', th')) :
  ch'.readSide th' = (ch.readSide th).queued c idx size
  := by
  rw [pushReceived, markPendingRead] at h
  split at h
  case isTrue hmarked =>
    cases h
    simp_all [readSide, queued, isClosing]
  case isFalse hmarked =>
    cases h
    simp_all [readSide, queued, isClosing]

/-- `tcp_read_loop` after a completion. -/
theorem resumeRead_receives {idx : ℕ} {res : Int} {more callback : Bool}
    (h : ch.resumeRead c th res more idx = some (ch', th', callback)) :
  Receives c (ch.readSide th) res idx (ch'.readSide th')
  := by
  obtain ⟨ch₁, th₁, hdec, hrest⟩ := resumeRead_cases h
  have hrests : Rests { ch.readSide th with co := .running } (ch₁.readSide th₁) :=
    inFlightDec_rests hdec
  cases hrest with
  | ended hres => exact .ended hres hrests
  | pushed hres hpush =>
      rw [pushReceived_readSide hpush]
      exact .received hres hrests
  | threw hres _ => exact .threw hres hrests
  | rearmed hres hprep hpush =>
      rw [pushReceived_readSide hpush, IoRing.prep_eq_some hprep]
      exact .received hres hrests

/-- `on_close` is called at the end of the stream. -/
theorem resumeRead_callback {idx : ℕ} {res : Int} {more : Bool}
    (h : ch.resumeRead c th res more idx = some (ch', th', true)) :
  res ≤ 0 ∧ ch'.readCo = .running
  := by
  obtain ⟨ch₁, th₁, hdec, hrest⟩ := resumeRead_cases h
  cases hrest with
  | ended hres => exact ⟨hres, (inFlightDec_rests hdec).co⟩

/-- `tcp_read_loop` after `on_close`. -/
theorem afterOnClose_readStep (h : ch.afterOnClose c th = some (ch', th')) :
  Step c (ch.readSide th) .closed (ch'.readSide th')
  := by
  obtain ⟨⟨ch₁, th₁⟩, hclose, hrest⟩ := Option.bind_eq_some_iff.mp h
  obtain ⟨⟨readBuf, bufRing⟩, hreset, heq⟩ := Option.bind_eq_some_iff.mp hrest
  cases heq
  obtain ⟨hrests, hclosing⟩ := closeOnce_rests hclose
  exact .closed hrests hclosing hreset

end TcpChannel

end Proactor
