import UringProactor.Core.Descriptors
import UringProactor.Core.Idle
import UringProactor.Core.Simulation
import UringProactor.Net.Progress

/-!
# Events that prepare nothing

A channel prepares SQEs when a connection starts on it, when its `recv` has ended with data, and
when its write coroutine has data to send.  All other events, among them all that close a
channel, leave the submission queue as it is.
-/

namespace Proactor

namespace TcpChannel

variable {c : ℕ} {ch ch' : TcpChannel} {th th' : TcpThread} {op : AppOp}

/-- Only `submit` prepares something while nothing waits to be sent. -/
theorem call_ring {ok : Bool} (h : ch.call c th op = some (ok, ch', th')) (hidle : ch.Idle)
    (hsubmit : op ≠ .submit) :
  th'.ioRing = th.ioRing
  := by
  cases op with
  | append data =>
      obtain ⟨_, -, heq⟩ := Option.map_eq_some_iff.mp h
      cases heq
      rfl
  | prepend data =>
      obtain ⟨_, -, heq⟩ := Option.map_eq_some_iff.mp h
      cases heq
      rfl
  | submit => exact absurd rfl hsubmit
  | peek size =>
      cases h
      rfl
  | consume size =>
      obtain ⟨_, -, heq⟩ := Option.map_eq_some_iff.mp h
      cases heq
      rfl
  | close =>
      obtain ⟨⟨ch₁, th₁⟩, hclose, heq⟩ := Option.map_eq_some_iff.mp h
      cases heq
      exact close_ring hclose hidle

end TcpChannel

namespace Worker

variable {w w' : Worker} {e : Event} {ok : Bool} {c : ℕ}

/-- A completion that prepares nothing: no connection is accepted, and received data leaves the
`recv` armed. -/
def QuietCqe (res : Int) (more : Bool) : UserData → Prop
  | .accept => res < 0
  | .read _ => 0 < res → more = true
  | .wakeup | .write _ => True

/-- The events that prepare nothing. -/
def Quiet (w : Worker) : Event → Prop
  | .complete i res more _ _ => ∀ sqe ∈ w.thread.ioRing.inflight[i]?, QuietCqe res more sqe.data
  | .ret =>
      match w.ctl with
      | .onWrite c => (w.channels c).writeBuf.hasSendData = false
      | _ => True
  | .app _ .submit => False
  | .submit => False
  | _ => True

instance (res : Int) (more : Bool) : ∀ u, Decidable (QuietCqe res more u)
  | .accept => inferInstanceAs (Decidable (_ < _))
  | .read _ => inferInstanceAs (Decidable (_ < _ → _ = _))
  | .wakeup | .write _ => inferInstanceAs (Decidable True)

instance (w : Worker) : ∀ e, Decidable (w.Quiet e)
  | .complete i res more _ _ =>
      inferInstanceAs (Decidable (∀ sqe ∈ w.thread.ioRing.inflight[i]?, QuietCqe res more sqe.data))
  | .ret =>
      match h : w.ctl with
      | .onWrite c =>
          decidable_of_iff ((w.channels c).writeBuf.hasSendData = false) (by rw [Quiet, h])
      | .poll | .batch | .onAccept _ | .onClose _ | .onRead _ _ => isTrue (by rw [Quiet, h]; trivial)
  | .app _ .submit | .submit => inferInstanceAs (Decidable False)
  | .app _ (.append _) | .app _ (.prepend _) | .app _ (.peek _) | .app _ (.consume _)
  | .app _ .close | .batchDone => inferInstanceAs (Decidable True)

/-- A write coroutine that does not wait for a notification is not resumed by one. -/
theorem Idles.channel (h : Idles w) (c : ℕ) :
  (w.channels c).Idle
  := (h.idle c).nothing

theorem Idles.handle_of_onToken (h : Idles w) {submittedBytes : ℕ}
    (hwrite : (w.channels c).writeCo = .onToken submittedBytes) :
  (w.channels c).notifyToken.handle = false
  := by
  apply (h.idle c).handle_eq_false
  intro hco
  cases hwrite.symm.trans hco

theorem kernel_sq {th : TcpThread} {i idx : ℕ} {u : UserData} {res : Int} {more : Bool}
    {data : List UInt8} :
  (kernel th i u res more idx data).ioRing.sq = th.ioRing.sq
  := by
  rw [kernel_ioRing]
  exact IoRing.sq_reap.1

/-- A quiet event leaves the submission queue as it is. -/
theorem Steps.sq_eq (h : Steps w e ok w') (hidles : Idles w) (hquiet : w.Quiet e) :
  w'.thread.ioRing.sq = w.thread.ioRing.sq
  := by
  cases h with
  | submit => cases hquiet
  | ignored _ _ _ => exact kernel_sq
  | refused _ _ _ => exact kernel_sq
  | exhausted _ hsqe hres => exact absurd (hquiet _ hsqe) (Int.not_lt.mpr hres)
  | accepted _ hsqe _ hres => exact absurd (hquiet _ hsqe) (Int.not_lt.mpr hres)
  | @received i idx c res more _ data _ _ th _ hsqe _ hresume =>
      have hring := TcpChannel.resumeRead_ring hresume (hquiet _ hsqe)
      change th.ioRing.sq = _
      rw [hring]
      exact kernel_sq
  | @written i idx c _ _ _ _ _ _ _ th _ _ hwrite hresume =>
      have hring := TcpChannel.resumeWrite_ring hresume (hidles.handle_of_onToken hwrite)
      change th.ioRing.sq = _
      rw [hring]
      exact IoRing.sq_reap.1
  | batchDone => rw [ioRing_serveReads]
  | onAcceptReturns => rfl
  | @onCloseReturns c _ th _ hafter =>
      have hring := TcpChannel.afterOnClose_ring hafter (hidles.channel c)
      exact congrArg IoRing.sq hring
  | onWriteReturns hctl hafter =>
      rw [Quiet, hctl] at hquiet
      have hring := (TcpChannel.writeLoop_outcome hafter).ring_eq
        (TcpChannel.sendList_of_hasSendData hquiet)
      exact congrArg IoRing.sq hring
  | onReadReturns => rw [ioRing_serveReads]
  | @call c op _ _ _ hcall =>
      have hsubmit : op ≠ .submit := by
        rintro rfl
        exact hquiet
      have hring := TcpChannel.call_ring hcall (hidles.channel c) hsubmit
      exact congrArg IoRing.sq hring

end Worker

end Proactor
