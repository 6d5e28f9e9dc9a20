import UringProactor.Buffer.Receive
import UringProactor.Buffer.Stream
import UringProactor.Net.Descriptors
import UringProactor.Net.ReadSide

/-!
# Channels with nothing to send

While the send queue of a channel is empty, the functions of the channel prepare no `writev`.
If moreover its buffers are sound and its descriptor is given up when it is closing, they
return: no assertion fails, and the write coroutine does not spin.
-/

namespace Proactor

/-- An empty send queue has no data. -/
theorem WriteBufStream.hasSendData_of_sendList {s : WriteBufStream} (h : s.sendList = []) :
  s.hasSendData = false
  := by
  have hempty := (Circular.toList_eq_nil_iff _).mp h
  simpa [hasSendData] using hempty

namespace TcpChannel

variable {c : ℕ} {ch ch' : TcpChannel} {th th' : TcpThread}

/-- A write coroutine that waits for a notification has nothing to send. -/
def Idle (ch : TcpChannel) : Prop :=
  ch.notifyToken.handle = true → ch.writeBuf.sendList = []

/-! ### Nothing is prepared -/

theorem WriteOutcome.ring_eq {woken : Bool} (h : WriteOutcome c woken ch th ch' th')
    (hidle : ch.writeBuf.sendList = []) :
  th'.ioRing = th.ioRing
  := by
  have hnone := WriteBufStream.hasSendData_of_sendList hidle
  cases h with
  | finish => rfl
  | suspend => rfl
  | prepare _ hcount hpeek =>
      rw [WriteBufStream.hasSendData_of_peekIovec hpeek hcount] at hnone
      cases hnone
  | throw _ hcount hpeek =>
      rw [WriteBufStream.hasSendData_of_peekIovec hpeek hcount] at hnone
      cases hnone

theorem notify_ring (h : ch.notify c th = some (ch', th')) (hidle : ch.Idle) :
  th'.ioRing = th.ioRing
  := by
  rw [notify] at h
  split at h
  case isTrue hhandle => exact (resumeNotified_outcome h).ring_eq (hidle hhandle)
  case isFalse =>
    cases h
    rfl

theorem close_ring (h : ch.close c th = some (ch', th')) (hidle : ch.Idle) :
  th'.ioRing = th.ioRing
  := by
  obtain ⟨⟨ch₁, th₁⟩, hnotify, heq⟩ := Option.map_eq_some_iff.mp h
  cases heq
  exact notify_ring hnotify hidle

theorem closeOnce_ring (h : ch.closeOnce c th = some (ch', th')) (hidle : ch.Idle) :
  th'.ioRing = th.ioRing
  := by
  rw [closeOnce] at h
  split at h
  case isTrue =>
    cases h
    rfl
  case isFalse => exact close_ring h hidle

theorem afterOnClose_ring (h : ch.afterOnClose c th = some (ch', th')) (hidle : ch.Idle) :
  th'.ioRing = th.ioRing
  := by
  obtain ⟨⟨ch₁, th₁⟩, hclose, hrest⟩ := Option.bind_eq_some_iff.mp h
  obtain ⟨⟨readBuf, bufRing⟩, -, heq⟩ := Option.bind_eq_some_iff.mp hrest
  cases heq
  have hring := closeOnce_ring hclose hidle
  exact hring

/-- A `recv` is armed again only by data without `IORING_CQE_F_MORE`. -/
theorem resumeRead_ring {idx : ℕ} {res : Int} {more callback : Bool}
    (h : ch.resumeRead c th res more idx = some (ch', th', callback))
    (hmore : 0 < res → more = true) :
  th'.ioRing = th.ioRing
  := by
  obtain ⟨ch₁, th₁, hdec, hrest⟩ := resumeRead_cases h
  obtain ⟨-, hring⟩ := inFlightDec_stirs hdec
  cases hrest with
  | ended => exact hring
  | pushed _ hpush => exact (pushReceived_fd hpush).2.trans hring
  | threw hres _ | rearmed hres _ _ => cases hmore hres

/-- The coroutine that runs is not the one that waits for a notification. -/
theorem inFlightDec_eq {ch : TcpChannel} (h : ch.inFlightDec c th = some (ch', th'))
    (hhandle : ch.notifyToken.handle = false) :
  ch'.notifyToken.handle = false ∧ ch'.writeBuf = ch.writeBuf ∧ th'.bufPool = th.bufPool
  := by
  obtain ⟨closing, failed, heq⟩ := (inFlightDec_stirs h).1.eq_of_handle hhandle
  refine ⟨?_, congrArg WriteSide.buf heq, congrArg WriteSide.pool heq⟩
  exact (congrArg WriteSide.handle heq).trans hhandle

theorem resumeWrite_ring {submittedBytes : ℕ} {res : Int} {callback : Bool}
    (h : ch.resumeWrite c th submittedBytes res = some (ch', th', callback))
    (hhandle : ch.notifyToken.handle = false) :
  th'.ioRing = th.ioRing
  := by
  obtain ⟨ch₁, th₁, hdec, hrest⟩ := resumeWrite_cases h
  obtain ⟨-, hring⟩ := inFlightDec_stirs hdec
  obtain ⟨hhandle₁, -, -⟩ := inFlightDec_eq hdec hhandle
  cases hrest with
  | failed _ hclose _ =>
      have hidle : ch₁.Idle := by
        intro htrue
        rw [hhandle₁] at htrue
        cases htrue
      exact (closeOnce_ring hclose hidle).trans hring
  | consumed => exact hring

/-! ### The functions return -/

theorem finishWrite_total (hsound : WriteBufBase.Sound ch.writeBuf.toWriteBufBase th.bufPool) :
  ∃ ch' th', ch.finishWrite th = some (ch', th')
  := by
  obtain ⟨writeBuf, bufPool, hreset, -⟩ := WriteBufStream.reset_spec hsound
  rw [finishWrite, hreset]
  exact ⟨_, _, rfl⟩

/-- A pass with nothing to send leaves the loop or continues. -/
theorem writePass_total (c : ℕ) (ch : TcpChannel)
    (hsound : WriteBufBase.Sound ch.writeBuf.toWriteBufBase th.bufPool)
    (hidle : ch.writeBuf.sendList = []) :
  ch.writePass c th = some none ∨ ∃ ch' th', ch.writePass c th = some (some (ch', th'))
  := by
  rw [writePass]
  split
  · obtain ⟨ch', th', hfinish⟩ := finishWrite_total hsound
    rw [hfinish]
    exact .inr ⟨ch', th', rfl⟩
  · rw [WriteBufStream.peekIovec_of_nil hidle]
    exact .inl rfl

theorem writeLoop_total (hsound : WriteBufBase.Sound ch.writeBuf.toWriteBufBase th.bufPool)
    (hidle : ch.writeBuf.sendList = []) :
  ∃ ch' th', ch.writeLoop c th = some (ch', th')
  := by
  have hnone := WriteBufStream.hasSendData_of_sendList hidle
  fun_induction writeLoop c ch th with
  | case1 ch hdata =>
      rw [hnone] at hdata
      cases hdata
  | case2 ch hdata hpending ch₁ hpass =>
      obtain hcontinue | ⟨_, _, hfinish⟩ := writePass_total c ch₁ hsound hidle
      · rw [hcontinue] at hpass
        cases hpass
      · rw [hfinish] at hpass
        cases hpass
  | case3 ch hdata hpending ch₁ r hpass => exact ⟨r.1, r.2, rfl⟩
  | case4 ch hdata hpending ch₁ hpass ih => exact ih hsound hidle hnone
  | case5 ch hdata hpending => exact ⟨_, _, rfl⟩

theorem notify_total (c : ℕ) (ch : TcpChannel)
    (hsound : WriteBufBase.Sound ch.writeBuf.toWriteBufBase th.bufPool)
    (hidle : ch.Idle) :
  ∃ ch' th', ch.notify c th = some (ch', th')
  := by
  rw [notify]
  split
  case isTrue hhandle =>
    rw [resumeNotified]
    obtain hcontinue | ⟨ch', th', hfinish⟩ := writePass_total c
      { ch with notifyToken := { ch.notifyToken with handle := false }, writeCo := .running }
      hsound (hidle hhandle)
    · rw [hcontinue]
      exact writeLoop_total hsound (hidle hhandle)
    · rw [hfinish]
      exact ⟨ch', th', rfl⟩
  case isFalse => exact ⟨_, _, rfl⟩

theorem close_total (hsound : WriteBufBase.Sound ch.writeBuf.toWriteBufBase th.bufPool)
    (hidle : ch.Idle) :
  ∃ ch' th', ch.close c th = some (ch', th')
  := by
  obtain ⟨ch', th', hnotify⟩ := notify_total c
    { ch with notifyToken := { ch.notifyToken with closed := true } } hsound hidle
  rw [close, notifyClose, hnotify]
  exact ⟨_, _, rfl⟩

theorem closeOnce_total (hsound : WriteBufBase.Sound ch.writeBuf.toWriteBufBase th.bufPool)
    (hidle : ch.Idle) :
  ∃ ch' th', ch.closeOnce c th = some (ch', th')
  := by
  rw [closeOnce]
  split
  · exact ⟨_, _, rfl⟩
  · exact close_total hsound hidle

/-- `TcpChannelPool::release` finds the descriptor of a closing channel given up. -/
theorem inFlightDec_total (c : ℕ) (ch : TcpChannel)
    (hsound : WriteBufBase.Sound ch.writeBuf.toWriteBufBase th.bufPool)
    (hidle : ch.Idle) (hshut : ch.isClosing = true → ch.fd = -1) :
  ∃ ch' th', ch.inFlightDec c th = some (ch', th')
  := by
  rw [inFlightDec]
  dsimp only
  split
  · rw [onDrained]
    split
    case isTrue hclosing =>
      obtain ⟨ch', th', hnotify⟩ := notify_total c
        { ch with inFlight := ch.inFlight - 1 } hsound hidle
      have hfd : ch'.fd = -1 := (notify_prepares hnotify).2.trans (hshut hclosing)
      rw [hnotify]
      change ∃ _ _, Option.bind (th'.channelPool.release c ch') _ = _
      rw [TcpChannelPool.release, if_pos hfd]
      exact ⟨_, _, rfl⟩
    case isFalse => exact ⟨_, _, rfl⟩
  · exact ⟨_, _, rfl⟩

theorem afterOnClose_total (hsound : WriteBufBase.Sound ch.writeBuf.toWriteBufBase th.bufPool)
    (hidle : ch.Idle) (hread : ch.readBuf.Sound th.bufRing) :
  ∃ ch' th', ch.afterOnClose c th = some (ch', th')
  := by
  obtain ⟨ch₁, th₁, hclose⟩ := closeOnce_total (c := c) hsound hidle
  obtain ⟨hrests, -⟩ := closeOnce_rests hclose
  have hbuf : ch₁.readBuf = ch.readBuf := hrests.buf
  have hring : th₁.bufRing = th.bufRing := hrests.ring
  rw [← hbuf, ← hring] at hread
  obtain ⟨readBuf, bufRing, hreset, -⟩ := ReadBufStream.reset_spec hread
  rw [afterOnClose, hclose]
  change ∃ _ _, Option.bind (ch₁.readBuf.reset th₁.bufRing) _ = _
  rw [hreset]
  exact ⟨_, _, rfl⟩

theorem resumeRead_total (hsound : WriteBufBase.Sound ch.writeBuf.toWriteBufBase th.bufPool)
    (hidle : ch.Idle) (hshut : ch.isClosing = true → ch.fd = -1) (res : Int) (more : Bool)
    (idx : ℕ) :
  ∃ r, ch.resumeRead c th res more idx = some r
  := by
  obtain ⟨ch₁, th₁, hdec⟩ := inFlightDec_total c { ch with readCo := .running }
    hsound hidle hshut
  rw [resumeRead, hdec]
  by_cases hres : res ≤ 0
  · exact ⟨_, if_pos hres⟩
  · cases more with
    | true => exact ⟨_, if_neg hres⟩
    | false =>
        cases hprep : th₁.ioRing.prep ⟨.multishotRecv ch₁.fd, .read c⟩ with
        | none => simp [hres, hprep]
        | some ioRing => simp [hres, hprep]

theorem resumeWrite_total (hsound : ch.writeBuf.Sound th.bufPool)
    (hhandle : ch.notifyToken.handle = false) (hshut : ch.isClosing = true → ch.fd = -1)
    {submittedBytes : ℕ} {res : Int} (hle : res ≤ submittedBytes)
    (hunsent : res ≤ (ch.writeBuf.unsent th.bufPool).length) :
  ∃ r, ch.resumeWrite c th submittedBytes res = some r
  := by
  have hidle : ch.Idle := by
    intro htrue
    rw [hhandle] at htrue
    cases htrue
  obtain ⟨ch₁, th₁, hdec⟩ := inFlightDec_total c { ch with writeCo := .running }
    hsound.toSound hidle hshut
  obtain ⟨hhandle₁, hbuf, hpool⟩ := inFlightDec_eq hdec hhandle
  change ch₁.writeBuf = ch.writeBuf at hbuf
  rw [← hbuf, ← hpool] at hsound hunsent
  rw [resumeWrite, hdec]
  by_cases hres : res ≤ 0
  · have hidle₁ : ch₁.Idle := by
      intro htrue
      rw [hhandle₁] at htrue
      cases htrue
    obtain ⟨ch₂, th₂, hclose⟩ := closeOnce_total (c := c) hsound.toSound hidle₁
    obtain ⟨closing, failed, heq⟩ := (closeOnce_stirs hclose).1.eq_of_handle hhandle₁
    have hbuf₂ : ch₂.writeBuf = ch₁.writeBuf := congrArg WriteSide.buf heq
    have hpool₂ : th₂.bufPool = th₁.bufPool := congrArg WriteSide.pool heq
    rw [← hbuf₂, ← hpool₂] at hsound
    obtain ⟨ch₃, th₃, hfinish⟩ := finishWrite_total hsound.toSound
    simp [hres, hclose, hfinish]
  · have hassert : ¬ submittedBytes < res.toNat := by omega
    obtain ⟨writeBuf, bufPool, R, hconsume, -⟩ := WriteBufStream.consumeWritten_spec hsound
      (show res.toNat ≤ _ by omega)
    simp [hres, hassert, hconsume]

end TcpChannel

end Proactor
