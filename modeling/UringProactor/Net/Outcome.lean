import UringProactor.Net.Channel

/-!
# How a run of a coroutine ends

Whatever starts or resumes `tcp_write_loop`, its run ends in one of four ways: it leaves the
loop and resets the buffer, it suspends on `notify_token_`, it prepares a `writev` and
suspends on its token, or an exception of `get_sqe` ends it.  `WriteOutcome` lists them with
what holds in each; the functions that resume the coroutine are then described by it.

A completion first decrements `in_flight_`, and what the coroutine then does depends on the
result: `Decrements`, `Receiving` and `Sending` list these cases in the same way.
-/

namespace Proactor

/-- `peek_iovec` reports iovecs only when the send queue has blocks. -/
theorem WriteBufStream.hasSendData_of_peekIovec {s s' : WriteBufStream} {p : BufPool}
    {count bytes : ℕ} (h : s.peekIovec p = (count, bytes, s')) (hcount : count ≠ 0) :
  s.hasSendData = true
  := by
  by_contra hidle
  have hsize : s.send.size = 0 := by
    apply s.send.size_eq_zero_iff.mpr
    simpa [hasSendData] using hidle
  apply hcount
  simpa [peekIovec, hsize] using (congrArg Prod.fst h).symm

namespace TcpChannel

/-- The condition under which `tcp_write_loop` leaves its loop. -/
def Drained (ch : TcpChannel) : Prop := ch.isClosing = true ∧ ch.inFlight ≤ 0

/-- The ends of a run of `tcp_write_loop` on the channel `ch`; `woken` says that the run starts
behind the `co_await` of `notify_token_`. -/
inductive WriteOutcome (c : ℕ) (woken : Bool) (ch : TcpChannel) (th : TcpThread) :
    TcpChannel → TcpThread → Prop where
  | finish (pending : Bool) {writeBuf : WriteBufStream} {bufPool : BufPool}
      (hdrained : ch.Drained)
      (hreset : ch.writeBuf.reset th.bufPool = some (writeBuf, bufPool)) :
      WriteOutcome c woken ch th
        { ch with
          notifyToken := { ch.notifyToken with pending := pending }
          writeBuf := writeBuf
          writeCo := .finished }
        { th with bufPool := bufPool }
  | suspend (hidle : ch.writeBuf.hasSendData = false)
      (hopen : woken = true ∨ ch.notifyToken.pending = true → ¬ ch.Drained) :
      WriteOutcome c woken ch th
        { ch with
          notifyToken := { ch.notifyToken with pending := false, handle := true }
          writeCo := .onNotify }
        th
  | prepare {count submittedBytes : ℕ} {writeBuf : WriteBufStream} {ioRing : IoRing}
      (hopen : ¬ ch.Drained) (hcount : count ≠ 0)
      (hpeek : ch.writeBuf.peekIovec th.bufPool = (count, submittedBytes, writeBuf))
      (hprep : th.ioRing.prep ⟨.writev ch.fd count, .write c⟩ = some ioRing) :
      WriteOutcome c woken ch th
        { ch with
          writeBuf := writeBuf
          inFlight := ch.inFlight + 1
          writeCo := .onToken submittedBytes }
        { th with ioRing := ioRing }
  | throw {count submittedBytes : ℕ} {writeBuf : WriteBufStream}
      (hopen : ¬ ch.Drained) (hcount : count ≠ 0)
      (hpeek : ch.writeBuf.peekIovec th.bufPool = (count, submittedBytes, writeBuf))
      (hprep : th.ioRing.prep ⟨.writev ch.fd count, .write c⟩ = none) :
      WriteOutcome c woken ch th
        { ch with writeBuf := writeBuf, writeCo := .finished } th.getSqeFailed

variable {c : ℕ} {ch ch' : TcpChannel} {th th' : TcpThread}

theorem drained_iff :
  (ch.isClosing && !ch.hasInFlight) = true ↔ ch.Drained
  := by
  simp [Drained, hasInFlight]

/-- A pass of the loop ends the run as listed, or continues because there is nothing to
send. -/
theorem writePass_cases (woken : Bool) {r : Option (TcpChannel × TcpThread)}
    (h : ch.writePass c th = some r) :
  (r = none ∧ ¬ ch.Drained) ∨ ∃ ch' th', r = some (ch', th') ∧ WriteOutcome c woken ch th ch' th'
  := by
  rw [writePass] at h
  split at h
  case isTrue hdrained =>
    right
    obtain ⟨⟨ch', th'⟩, hfinish, rfl⟩ := Option.map_eq_some_iff.mp h
    obtain ⟨⟨writeBuf, bufPool⟩, hreset, heq⟩ := Option.map_eq_some_iff.mp hfinish
    cases heq
    refine ⟨_, _, rfl, ?_⟩
    exact .finish ch.notifyToken.pending (drained_iff.mp hdrained) hreset
  case isFalse hdrained =>
    have hopen : ¬ ch.Drained := mt drained_iff.mpr hdrained
    obtain ⟨count, submittedBytes, writeBuf, hpeek⟩ :
        ∃ count submittedBytes writeBuf,
          ch.writeBuf.peekIovec th.bufPool = (count, submittedBytes, writeBuf) := ⟨_, _, _, rfl⟩
    simp only [hpeek] at h
    split at h
    case isTrue =>
      left
      cases h
      exact ⟨rfl, hopen⟩
    case isFalse hcount =>
      right
      split at h
      case h_1 hprep =>
        cases h
        exact ⟨_, _, rfl, .throw hopen hcount hpeek hprep⟩
      case h_2 ioRing hprep =>
        cases h
        exact ⟨_, _, rfl, .prepare hopen hcount hpeek hprep⟩

/-- An outcome of a run with the pending flag taken is an outcome of the run that takes it. -/
theorem WriteOutcome.of_pending
    (h : WriteOutcome c true { ch with notifyToken := { ch.notifyToken with pending := false } }
      th ch' th') (hidle : ch.writeBuf.hasSendData = false) :
  WriteOutcome c false ch th ch' th'
  := by
  cases h with
  | finish pending hdrained hreset => exact .finish pending hdrained hreset
  | suspend hidle hopen => exact .suspend hidle (fun _ => hopen (.inl rfl))
  | prepare hopen hcount hpeek hprep =>
      rw [WriteBufStream.hasSendData_of_peekIovec hpeek hcount] at hidle
      cases hidle
  | throw hopen hcount hpeek =>
      rw [WriteBufStream.hasSendData_of_peekIovec hpeek hcount] at hidle
      cases hidle

/-- When the loop is not to be left, an outcome of a run from the top is one of a run from
behind the `co_await`. -/
theorem WriteOutcome.to_woken (h : WriteOutcome c false ch th ch' th') (hopen : ¬ ch.Drained) :
  WriteOutcome c true ch th ch' th'
  := by
  cases h with
  | finish pending hdrained hreset => exact absurd hdrained hopen
  | suspend hidle _ => exact .suspend hidle (fun _ => hopen)
  | prepare hopen hcount hpeek hprep => exact .prepare hopen hcount hpeek hprep
  | throw hopen hcount hpeek hprep => exact .throw hopen hcount hpeek hprep

/-- The outcomes of `tcp_write_loop` from the top of its loop. -/
theorem writeLoop_outcome (h : ch.writeLoop c th = some (ch', th')) :
  WriteOutcome c false ch th ch' th'
  := by
  fun_induction writeLoop c ch th with
  | case1 ch hdata =>
      obtain ⟨hnone, -⟩ | ⟨ch₁, th₁, heq, hout⟩ :=
        writePass_cases false (Option.join_eq_some_iff.mp h)
      · cases hnone
      · cases heq
        exact hout
  | case2 => cases h
  | case3 ch hdata hpending ch₁ r hpass =>
      cases h
      obtain ⟨hnone, -⟩ | ⟨ch₂, th₂, heq, hout⟩ := writePass_cases true hpass
      · cases hnone
      · cases heq
        apply hout.of_pending (by simpa using hdata)
  | case4 ch hdata hpending ch₁ hpass ih =>
      obtain ⟨-, hopen⟩ | ⟨ch₂, th₂, heq, -⟩ := writePass_cases true hpass
      · apply ((ih h).to_woken hopen).of_pending (by simpa using hdata)
      · cases heq
  | case5 ch hdata hpending =>
      cases h
      have hfalse : ch.notifyToken.pending = false := by simpa using hpending
      have htoken : ({ ch.notifyToken with handle := true } : NotifyToken)
          = { ch.notifyToken with pending := false, handle := true } := by
        rw [← hfalse]
      change WriteOutcome c false ch th { ch with
        notifyToken := { ch.notifyToken with handle := true }
        writeCo := .onNotify } th
      rw [htoken]
      apply WriteOutcome.suspend (by simpa using hdata)
      simp [hfalse]

/-- The outcomes of `tcp_write_loop` when it is resumed from `notify_token_`. -/
theorem resumeNotified_outcome (h : ch.resumeNotified c th = some (ch', th')) :
  WriteOutcome c true ch th ch' th'
  := by
  rw [resumeNotified] at h
  split at h
  case h_1 => cases h
  case h_2 r hpass =>
    cases h
    obtain ⟨hnone, -⟩ | ⟨ch₁, th₁, heq, hout⟩ := writePass_cases true hpass
    · cases hnone
    · cases heq
      exact hout
  case h_3 hpass =>
    obtain ⟨-, hopen⟩ | ⟨ch₁, th₁, heq, -⟩ := writePass_cases true hpass
    · apply (writeLoop_outcome h).to_woken hopen
    · cases heq

/-! ### Completions -/

/-- The ends of `in_flight_dec`: the channel goes on, or it is drained, and after its writer is
notified it goes back to the pool. -/
inductive Decrements (c : ℕ) (ch : TcpChannel) (th : TcpThread) :
    TcpChannel → TcpThread → Prop where
  | keep (hopen : ch.inFlight = 1 → ch.isClosing = false) :
      Decrements c ch th { ch with inFlight := ch.inFlight - 1 } th
  | drain {ch' : TcpChannel} {th' : TcpThread} {pool : TcpChannelPool} (hone : ch.inFlight = 1)
      (hclosing : ch.isClosing = true)
      (hnotify : notify c { ch with inFlight := 0 } th = some (ch', th'))
      (hrelease : th'.channelPool.release c ch' = some pool) :
      Decrements c ch th ch' { th' with channelPool := pool }

theorem inFlightDec_cases (h : ch.inFlightDec c th = some (ch', th')) :
  Decrements c ch th ch' th'
  := by
  rw [inFlightDec] at h
  split at h
  case isTrue hzero =>
    have hzero : ch.inFlight - 1 = 0 := hzero
    have hone : ch.inFlight = 1 := Int.sub_eq_zero.mp hzero
    rw [onDrained] at h
    split at h
    case isTrue hclosing =>
      obtain ⟨⟨ch₁, th₁⟩, hnotify, hrest⟩ := Option.bind_eq_some_iff.mp h
      obtain ⟨pool, hrelease, heq⟩ := Option.bind_eq_some_iff.mp hrest
      cases heq
      simp only [hzero] at hnotify
      exact .drain hone hclosing hnotify hrelease
    case isFalse hopen =>
      cases h
      exact .keep (fun _ => Bool.eq_false_iff.mpr hopen)
  case isFalse hzero =>
    cases h
    exact .keep (fun hone => absurd (Int.sub_eq_zero.mpr hone) hzero)

/-- What `tcp_read_loop` does after `in_flight_dec`, by the result of the `recv` and by its flag
`IORING_CQE_F_MORE`; the last flag tells that `on_close` is called. -/
inductive Receiving (c : ℕ) (ch : TcpChannel) (th : TcpThread) (res : Int) (idx : ℕ) :
    Bool → TcpChannel → TcpThread → Bool → Prop where
  | ended {more : Bool} (hres : res ≤ 0) : Receiving c ch th res idx more ch th true
  | pushed {ch' : TcpChannel} {th' : TcpThread} (hres : 0 < res)
      (hpush : ch.pushReceived c th idx res.toNat = (ch', th')) :
      Receiving c ch th res idx true ch' th' false
  | threw (hres : 0 < res)
      (hprep : th.ioRing.prep ⟨.multishotRecv ch.fd, .read c⟩ = none) :
      Receiving c ch th res idx false { ch with readCo := .finished } th.getSqeFailed false
  | rearmed {ioRing : IoRing} {ch' : TcpChannel} {th' : TcpThread} (hres : 0 < res)
      (hprep : th.ioRing.prep ⟨.multishotRecv ch.fd, .read c⟩ = some ioRing)
      (hpush : pushReceived c { ch with inFlight := ch.inFlight + 1 }
        { th with ioRing := ioRing } idx res.toNat = (ch', th')) :
      Receiving c ch th res idx false ch' th' false

theorem resumeRead_cases {idx : ℕ} {res : Int} {more callback : Bool}
    (h : ch.resumeRead c th res more idx = some (ch', th', callback)) :
  ∃ ch₁ th₁, inFlightDec c { ch with readCo := .running } th = some (ch₁, th₁)
    ∧ Receiving c ch₁ th₁ res idx more ch' th' callback
  := by
  obtain ⟨⟨ch₁, th₁⟩, hdec, hrest⟩ := Option.bind_eq_some_iff.mp h
  use ch₁, th₁, hdec
  dsimp only at hrest
  split at hrest
  case isTrue hres =>
    cases hrest
    exact .ended hres
  case isFalse hres =>
    have hpos : 0 < res := by omega
    cases more with
    | true =>
        cases hrest
        exact .pushed hpos rfl
    | false =>
        rw [if_neg Bool.false_ne_true] at hrest
        split at hrest
        case h_1 hprep =>
          cases hrest
          exact .threw hpos hprep
        case h_2 ioRing hprep =>
          cases hrest
          exact .rearmed hpos hprep rfl

/-- What `tcp_write_loop` does after `in_flight_dec`, by the result of the `writev`; the last flag
tells that `on_write` is called. -/
inductive Sending (c : ℕ) (ch : TcpChannel) (th : TcpThread) (submittedBytes : ℕ) (res : Int) :
    TcpChannel → TcpThread → Bool → Prop where
  | failed {ch' : TcpChannel} {th' : TcpThread} {writeBuf : WriteBufStream} {bufPool : BufPool}
      (hres : res ≤ 0) (hclose : ch.closeOnce c th = some (ch', th'))
      (hreset : ch'.writeBuf.reset th'.bufPool = some (writeBuf, bufPool)) :
      Sending c ch th submittedBytes res
        { ch' with writeBuf := writeBuf, writeCo := .finished } { th' with bufPool := bufPool }
        false
  | consumed {writeBuf : WriteBufStream} {bufPool : BufPool} (hres : 0 < res)
      (hle : res.toNat ≤ submittedBytes)
      (hconsume : ch.writeBuf.consumeWritten th.bufPool res.toNat = some (writeBuf, bufPool)) :
      Sending c ch th submittedBytes res
        { ch with writeBuf := writeBuf } { th with bufPool := bufPool } true

theorem resumeWrite_cases {submittedBytes : ℕ} {res : Int} {callback : Bool}
    (h : ch.resumeWrite c th submittedBytes res = some (ch', th', callback)) :
  ∃ ch₁ th₁, inFlightDec c { ch with writeCo := .running } th = some (ch₁, th₁)
    ∧ Sending c ch₁ th₁ submittedBytes res ch' th' callback
  := by
  obtain ⟨⟨ch₁, th₁⟩, hdec, hrest⟩ := Option.bind_eq_some_iff.mp h
  use ch₁, th₁, hdec
  dsimp only at hrest
  split at hrest
  case isTrue hres =>
    obtain ⟨⟨ch₂, th₂⟩, hclose, hrest⟩ := Option.bind_eq_some_iff.mp hrest
    obtain ⟨⟨ch₃, th₃⟩, hfinish, heq⟩ := Option.bind_eq_some_iff.mp hrest
    cases heq
    obtain ⟨⟨writeBuf, bufPool⟩, hreset, heq⟩ := Option.map_eq_some_iff.mp hfinish
    cases heq
    exact .failed hres hclose hreset
  case isFalse hres =>
    split at hrest
    case isTrue => cases hrest
    case isFalse hle =>
      obtain ⟨⟨writeBuf, bufPool⟩, hconsume, heq⟩ := Option.bind_eq_some_iff.mp hrest
      cases heq
      exact .consumed (by omega) (Nat.le_of_not_lt hle) hconsume

end TcpChannel

end Proactor
