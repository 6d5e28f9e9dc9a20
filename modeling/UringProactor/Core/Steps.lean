import UringProactor.Core.TcpThread

/-!
# What a step of the worker does

`Steps w e ok w'` lists, for each event, the function of a channel that runs and the worker
it leaves.  Everything about the steps of a worker is derived from this list.
-/

namespace Proactor

namespace Worker

/-- No coroutine is suspended on the token. -/
def Ignores (w : Worker) : UserData → Prop
  | .wakeup => True
  | .accept => w.accepting = false
  | .read c => (w.channels c).readCo ≠ .awaiting
  | .write c => ∀ submittedBytes, (w.channels c).writeCo ≠ .onToken submittedBytes

/-- The steps of a worker, with the result a call of the application returns. -/
inductive Steps (w : Worker) : Event → Bool → Worker → Prop where
  | submit (hctl : w.ctl = .poll) :
      Steps w .submit true { w with
        thread := { w.thread with ioRing := w.thread.ioRing.submit }
        ctl := .batch }
  | ignored {i idx : ℕ} {res : Int} {more : Bool} {data : List UInt8} {op : SqeOp} {u : UserData}
      (hctl : w.ctl = .batch) (hsqe : w.thread.ioRing.inflight[i]? = some ⟨op, u⟩)
      (hignores : w.Ignores u) :
      Steps w (.complete i res more idx data) true
        { w with thread := kernel w.thread i u res more idx data }
  | refused {i idx : ℕ} {res : Int} {more : Bool} {data : List UInt8} {op : SqeOp}
      (hctl : w.ctl = .batch) (hsqe : w.thread.ioRing.inflight[i]? = some ⟨op, .accept⟩)
      (hres : res < 0) :
      Steps w (.complete i res more idx data) true { w with
        thread := kernel w.thread i .accept res more idx data
        accepting := false }
  | exhausted {i idx : ℕ} {res : Int} {more : Bool} {data : List UInt8} {op : SqeOp}
      {ioRing : IoRing} (hctl : w.ctl = .batch)
      (hsqe : w.thread.ioRing.inflight[i]? = some ⟨op, .accept⟩) (hres : 0 ≤ res)
      (hrearm : rearmAccept (w.thread.ioRing.reap i more) more = some ioRing)
      (hacquire : w.thread.channelPool.acquire = none) :
      Steps w (.complete i res more idx data) true
        { w with thread := { w.thread with ioRing := ioRing } }
  | accepted {i idx c : ℕ} {res : Int} {more : Bool} {data : List UInt8} {op : SqeOp}
      {ioRing : IoRing} {pool : TcpChannelPool} {ch : TcpChannel} {th : TcpThread}
      (hctl : w.ctl = .batch) (hsqe : w.thread.ioRing.inflight[i]? = some ⟨op, .accept⟩)
      (haccepting : w.accepting = true) (hres : 0 ≤ res)
      (hrearm : rearmAccept (w.thread.ioRing.reap i more) more = some ioRing)
      (hacquire : w.thread.channelPool.acquire = some (c, pool))
      (hassign : (w.channels c).assign c
        { w.thread with ioRing := ioRing, channelPool := pool } res = some (ch, th)) :
      Steps w (.complete i res more idx data) true { w.update c ch th with ctl := .onAccept c }
  | received {i idx c : ℕ} {res : Int} {more callback : Bool} {data : List UInt8} {op : SqeOp}
      {ch : TcpChannel} {th : TcpThread} (hctl : w.ctl = .batch)
      (hsqe : w.thread.ioRing.inflight[i]? = some ⟨op, .read c⟩)
      (hread : (w.channels c).readCo = .awaiting)
      (hresume : (w.channels c).resumeRead c (kernel w.thread i (.read c) res more idx data) res
        more idx = some (ch, th, callback)) :
      Steps w (.complete i res more idx data) true
        { w.update c ch th with ctl := if callback then .onClose c else .batch }
  | written {i idx c submittedBytes : ℕ} {res : Int} {more callback : Bool} {data : List UInt8}
      {op : SqeOp} {ch : TcpChannel} {th : TcpThread} (hctl : w.ctl = .batch)
      (hsqe : w.thread.ioRing.inflight[i]? = some ⟨op, .write c⟩)
      (hwrite : (w.channels c).writeCo = .onToken submittedBytes)
      (hresume : (w.channels c).resumeWrite c
        { w.thread with ioRing := w.thread.ioRing.reap i more } submittedBytes res
          = some (ch, th, callback)) :
      Steps w (.complete i res more idx data) true
        { w.update c ch th with ctl := if callback then .onWrite c else .batch }
  | batchDone (hctl : w.ctl = .batch) :
      Steps w .batchDone true (w.serveReads w.thread.pendingReads)
  | onAcceptReturns {c : ℕ} (hctl : w.ctl = .onAccept c) :
      Steps w .ret true { w with ctl := .batch }
  | onCloseReturns {c : ℕ} {ch : TcpChannel} {th : TcpThread} (hctl : w.ctl = .onClose c)
      (hafter : (w.channels c).afterOnClose c w.thread = some (ch, th)) :
      Steps w .ret true { w.update c ch th with ctl := .batch }
  | onWriteReturns {c : ℕ} {ch : TcpChannel} {th : TcpThread} (hctl : w.ctl = .onWrite c)
      (hafter : (w.channels c).writeLoop c w.thread = some (ch, th)) :
      Steps w .ret true { w.update c ch th with ctl := .batch }
  | onReadReturns {c : ℕ} {rest : List ℕ} (hctl : w.ctl = .onRead c rest) :
      Steps w .ret true (w.serveReads rest)
  | call {c : ℕ} {op : AppOp} {ok : Bool} {ch : TcpChannel} {th : TcpThread}
      (hcall : (w.channels c).call c w.thread op = some (ok, ch, th)) :
      Steps w (.app c op) ok (w.update c ch th)

variable {w w' : Worker} {e : Event} {ok : Bool}

/-- The completions, by the token they are for. -/
theorem complete_steps {i idx : ℕ} {res : Int} {more : Bool} {data : List UInt8} {op : SqeOp}
    {u : UserData} (hctl : w.ctl = .batch)
    (hsqe : w.thread.ioRing.inflight[i]? = some ⟨op, u⟩)
    (h : complete { w with thread := kernel w.thread i u res more idx data } u res more idx
      = some w') :
  Steps w (.complete i res more idx data) true w'
  := by
  cases u with
  | wakeup =>
      cases h
      exact .ignored hctl hsqe trivial
  | accept =>
      rw [complete] at h
      split at h
      case isFalse haccepting =>
        cases h
        exact .ignored hctl hsqe (Bool.eq_false_iff.mpr haccepting)
      case isTrue haccepting =>
        rw [resumeAccept] at h
        split at h
        case isTrue hres =>
          cases h
          exact .refused hctl hsqe hres
        case isFalse hres =>
          obtain ⟨ioRing, hrearm, hrest⟩ := Option.bind_eq_some_iff.mp h
          have hres : 0 ≤ res := by omega
          dsimp only at hrest
          split at hrest
          case h_1 hacquire =>
            cases hrest
            exact .exhausted hctl hsqe hres hrearm hacquire
          case h_2 c pool hacquire =>
            obtain ⟨⟨ch, th⟩, hassign, heq⟩ := Option.bind_eq_some_iff.mp hrest
            cases heq
            exact .accepted hctl hsqe haccepting hres hrearm hacquire hassign
  | read c =>
      rw [complete] at h
      split at h
      case isTrue hread =>
        obtain ⟨⟨ch, th, callback⟩, hresume, rfl⟩ := Option.map_eq_some_iff.mp h
        have hstep := Steps.received hctl hsqe hread hresume
        rw [← hctl] at hstep
        exact hstep
      case isFalse hread =>
        cases h
        exact .ignored hctl hsqe hread
  | write c =>
      rw [complete] at h
      split at h
      case h_1 submittedBytes hwrite =>
        obtain ⟨⟨ch, th, callback⟩, hresume, rfl⟩ := Option.map_eq_some_iff.mp h
        have hstep : Steps w (.complete i res more idx data) true _ :=
          .written hctl hsqe hwrite hresume
        rw [← hctl] at hstep
        exact hstep
      case h_2 hwrite =>
        cases h
        exact .ignored hctl hsqe hwrite

/-- Every step is in the list. -/
theorem step_cases (h : w.stepResult e = some (ok, w')) :
  Steps w e ok w'
  := by
  cases e with
  | submit =>
      rw [stepResult] at h
      split at h
      case isTrue hctl =>
        cases h
        exact .submit hctl
      case isFalse => cases h
  | complete i res more idx data =>
      rw [stepResult] at h
      split at h
      case isTrue hctl =>
        obtain ⟨⟨op, u⟩, hsqe, hcomplete⟩ := Option.bind_eq_some_iff.mp h
        obtain ⟨w₁, hcomplete, heq⟩ := Option.map_eq_some_iff.mp hcomplete
        cases heq
        exact complete_steps hctl hsqe hcomplete
      case isFalse => cases h
  | batchDone =>
      rw [stepResult] at h
      split at h
      case isTrue hctl =>
        cases h
        exact .batchDone hctl
      case isFalse => cases h
  | ret =>
      obtain ⟨w₁, hafter, heq⟩ := Option.map_eq_some_iff.mp h
      cases heq
      rw [afterCallback] at hafter
      split at hafter
      case h_1 => cases hafter
      case h_2 => cases hafter
      case h_3 c hctl =>
        cases hafter
        exact .onAcceptReturns hctl
      case h_4 c hctl =>
        obtain ⟨⟨ch, th⟩, hresult, rfl⟩ := Option.map_eq_some_iff.mp hafter
        exact .onCloseReturns hctl hresult
      case h_5 c hctl =>
        obtain ⟨⟨ch, th⟩, hresult, rfl⟩ := Option.map_eq_some_iff.mp hafter
        exact .onWriteReturns hctl hresult
      case h_6 c rest hctl =>
        cases hafter
        exact .onReadReturns hctl
  | app c op =>
      obtain ⟨⟨_, ch, th⟩, hcall, heq⟩ := Option.map_eq_some_iff.mp h
      cases heq
      exact .call hcall

end Worker

end Proactor
