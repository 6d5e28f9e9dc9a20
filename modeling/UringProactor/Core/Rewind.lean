import UringProactor.Core.Simulation

/-!
# What the kernel owns

The functions of a worker look neither at the SQEs in flight, nor at the bytes in the receive
buffers, nor at the buffers in the provided ring, to which they only add behind its end.  So they
are natural in what the kernel owns: a worker for which the kernel has not done its last work yet
takes the same steps as the worker for which it has.
-/

namespace Proactor

/-- What the kernel had before its last work: the SQEs in flight, the bytes in the receive buffers,
and the buffers that it has taken from the provided ring since. -/
structure KernelState where
  inflight : List Sqe
  bufs : ℕ → UInt8
  taken : List ℕ

variable {k : KernelState}

/-! ### The ring of receive buffers -/

/-- The ring before the last work of the kernel. -/
def BufRing.rewind (r : BufRing) (k : KernelState) : BufRing :=
  { r with bufs := k.bufs, ring := k.taken ++ r.ring }

@[simp]
theorem BufRing.dataSize_rewind (r : BufRing) :
  (r.rewind k).dataSize = r.dataSize
  := rfl

@[simp]
theorem BufRing.bufAddr_rewind (r : BufRing) (idx : ℕ) :
  (r.rewind k).bufAddr idx = r.bufAddr idx
  := rfl

theorem BufRing.release_rewind (r : BufRing) (idx : ℕ) :
  (r.rewind k).release idx = (r.release idx).rewind k
  := by
  simp only [release, addBuf, setDataSize, rewind, bufIndex, bufAddr, List.append_assoc]

/-! ### Read buffers -/

namespace ReadBufStream

theorem peekLoop_rewind (s : ReadBufStream) (r : BufRing) (i : BitVec 32) (size : ℕ) :
  s.peekLoop (r.rewind k) i size = s.peekLoop r i size
  := by
  induction i, size using peekLoop.induct s r with
  | case1 i size hif idx offset blockReadable blockReadable' ih =>
      rw [peekLoop, peekLoop, if_pos hif, if_pos hif]
      simp only [BufRing.dataSize_rewind, BufRing.bufAddr_rewind]
      apply congrArg (List.cons _) ih
  | case2 i size hif =>
      rw [peekLoop, peekLoop, if_neg hif, if_neg hif]

theorem peek_rewind (s : ReadBufStream) (r : BufRing) (size : ℕ) :
  s.peek (r.rewind k) size = s.peek r size
  := by
  simp only [peek, peekLoop_rewind]

theorem consumeLoop_rewind (s : ReadBufStream) (r : BufRing) (size : ℕ) :
  s.consumeLoop (r.rewind k) size = (s.consumeLoop r size).map (Prod.map id (·.rewind k))
  := by
  induction s, r, size using consumeLoop.induct with
  | case1 s r =>
      rw [consumeLoop, consumeLoop, if_pos rfl, if_pos rfl]
      rfl
  | case2 s r size hsize hempty =>
      rw [consumeLoop, consumeLoop, if_neg hsize, if_neg hsize, if_pos hempty, if_pos hempty]
      rfl
  | case3 s r size hsize hempty idx avail hlt =>
      rw [consumeLoop, consumeLoop, if_neg hsize, if_neg hsize, if_neg hempty, if_neg hempty]
      have hlt' : size < u32Sub (r.dataSize (s.queue.front s.bits)) s.headOffset := hlt
      simp only [BufRing.dataSize_rewind, hlt', if_true]
      rfl
  | case4 s r size hsize hempty idx avail hlt ih =>
      rw [consumeLoop, consumeLoop, if_neg hsize, if_neg hsize, if_neg hempty, if_neg hempty]
      have hlt' : ¬ size < u32Sub (r.dataSize (s.queue.front s.bits)) s.headOffset := hlt
      simp only [BufRing.dataSize_rewind, hlt', if_false, BufRing.release_rewind]
      apply ih

theorem consume_rewind (s : ReadBufStream) (r : BufRing) (size : ℕ) :
  s.consume (r.rewind k) size
    = (s.consume r size).map (Prod.map id (Prod.map id (·.rewind k)))
  := by
  rw [consume, consume]
  split
  case isTrue => rfl
  case isFalse =>
    rw [consumeLoop_rewind, Option.map_map, Option.map_map]
    rfl

theorem reset_rewind (s : ReadBufStream) (r : BufRing) :
  s.reset (r.rewind k) = (s.reset r).map (Prod.map id (·.rewind k))
  := by
  rw [reset, reset, consume_rewind, Option.map_map, Option.map_map]
  rfl

end ReadBufStream

/-! ### The thread -/

/-- The submission queue before the last work of the kernel. -/
def IoRing.rewind (r : IoRing) (k : KernelState) : IoRing := { r with inflight := k.inflight }

theorem IoRing.prep_rewind (r : IoRing) (sqe : Sqe) :
  (r.rewind k).prep sqe = (r.prep sqe).map (·.rewind k)
  := by
  rw [prep, prep]
  change (if r.sq.length < r.depth then _ else _) = _
  split <;> rfl

/-- The thread before the last work of the kernel. -/
def TcpThread.rewind (th : TcpThread) (k : KernelState) : TcpThread :=
  { th with ioRing := th.ioRing.rewind k, bufRing := th.bufRing.rewind k }

/-! ### Channels -/

namespace TcpChannel

variable (c : ℕ) (ch : TcpChannel) (th : TcpThread)

theorem finishWrite_rewind :
  ch.finishWrite (th.rewind k) = (ch.finishWrite th).map (Prod.map id (·.rewind k))
  := by
  rw [finishWrite, finishWrite, Option.map_map]
  rfl

theorem writePass_rewind :
  ch.writePass c (th.rewind k)
    = (ch.writePass c th).map (Option.map (Prod.map id (·.rewind k)))
  := by
  rw [writePass, writePass]
  split
  case isTrue =>
    rw [finishWrite_rewind, Option.map_map, Option.map_map]
    rfl
  case isFalse =>
    generalize hpeek : ch.writeBuf.peekIovec th.bufPool = result
    obtain ⟨count, submittedBytes, writeBuf⟩ := result
    rw [show ch.writeBuf.peekIovec (th.rewind k).bufPool = _ from hpeek]
    dsimp only
    split
    case isTrue => rfl
    case isFalse =>
      rw [show (th.rewind k).ioRing.prep _ = _ from IoRing.prep_rewind ..]
      cases th.ioRing.prep ⟨.writev ch.fd count, .write c⟩ <;> rfl

theorem writeLoop_rewind :
  ch.writeLoop c (th.rewind k) = (ch.writeLoop c th).map (Prod.map id (·.rewind k))
  := by
  fun_induction writeLoop c ch th with
  | case1 ch hdata =>
      rw [writeLoop, if_pos hdata, writePass_rewind]
      cases ch.writePass c th with
      | none => rfl
      | some r => rfl
  | case2 ch hdata hpending ch₁ hpass =>
      rw [writeLoop, if_neg hdata, if_pos hpending]
      dsimp only
      rw [writePass_rewind, hpass]
      rfl
  | case3 ch hdata hpending ch₁ r hpass =>
      rw [writeLoop, if_neg hdata, if_pos hpending]
      dsimp only
      rw [writePass_rewind, hpass]
      rfl
  | case4 ch hdata hpending ch₁ hpass ih =>
      rw [writeLoop, if_neg hdata, if_pos hpending]
      dsimp only
      rw [writePass_rewind, hpass]
      apply ih
  | case5 ch hdata hpending =>
      rw [writeLoop, if_neg hdata, if_neg hpending]
      rfl

theorem resumeNotified_rewind :
  ch.resumeNotified c (th.rewind k) = (ch.resumeNotified c th).map (Prod.map id (·.rewind k))
  := by
  rw [resumeNotified, resumeNotified, writePass_rewind, writeLoop_rewind]
  cases ch.writePass c th with
  | none => rfl
  | some r =>
      cases r with
      | none => rfl
      | some r => rfl

theorem notify_rewind :
  ch.notify c (th.rewind k) = (ch.notify c th).map (Prod.map id (·.rewind k))
  := by
  rw [notify, notify]
  split
  case isTrue => apply resumeNotified_rewind
  case isFalse => rfl

theorem notifyClose_rewind :
  ch.notifyClose c (th.rewind k) = (ch.notifyClose c th).map (Prod.map id (·.rewind k))
  := notify_rewind ..

theorem onDrained_rewind :
  ch.onDrained c (th.rewind k) = (ch.onDrained c th).map (Prod.map id (·.rewind k))
  := by
  rw [onDrained, onDrained]
  split
  case isTrue =>
    rw [notify_rewind]
    cases ch.notify c th with
    | none => rfl
    | some r =>
        obtain ⟨ch, th⟩ := r
        simp only [Option.map_some, Prod.map_apply, id_eq, Option.bind_eq_bind, Option.bind_some]
        change (th.channelPool.release c ch).bind _ = _
        cases th.channelPool.release c ch <;> rfl
  case isFalse => rfl

theorem inFlightDec_rewind :
  ch.inFlightDec c (th.rewind k) = (ch.inFlightDec c th).map (Prod.map id (·.rewind k))
  := by
  rw [inFlightDec, inFlightDec]
  dsimp only
  split
  case isTrue => apply onDrained_rewind
  case isFalse => rfl

theorem close_rewind :
  ch.close c (th.rewind k) = (ch.close c th).map (Prod.map id (·.rewind k))
  := by
  rw [close, close, notifyClose_rewind, Option.map_map, Option.map_map]
  rfl

theorem closeOnce_rewind :
  ch.closeOnce c (th.rewind k) = (ch.closeOnce c th).map (Prod.map id (·.rewind k))
  := by
  rw [closeOnce, closeOnce]
  split
  case isTrue => rfl
  case isFalse => apply close_rewind

/-! ### The coroutines after a completion -/

theorem startRead_rewind :
  ch.startRead c (th.rewind k) = Prod.map id (·.rewind k) (ch.startRead c th)
  := by
  rw [startRead, startRead, show (th.rewind k).ioRing.prep _ = _ from IoRing.prep_rewind ..]
  cases th.ioRing.prep ⟨.multishotRecv ch.fd, .read c⟩ <;> rfl

theorem markPendingRead_rewind :
  ch.markPendingRead c (th.rewind k) = Prod.map id (·.rewind k) (ch.markPendingRead c th)
  := by
  rw [markPendingRead, markPendingRead]
  split <;> rfl

theorem pushReceived_rewind (idx size : ℕ) :
  ch.pushReceived c (th.rewind k) idx size
    = Prod.map id (·.rewind k) (ch.pushReceived c th idx size)
  := by
  rw [pushReceived, pushReceived]
  apply markPendingRead_rewind (k := k) c _ { th with bufRing := th.bufRing.setDataSize idx size }

theorem resumeRead_rewind (res : Int) (more : Bool) (idx : ℕ) :
  ch.resumeRead c (th.rewind k) res more idx
    = (ch.resumeRead c th res more idx).map (Prod.map id (Prod.map (·.rewind k) id))
  := by
  rw [resumeRead, resumeRead, inFlightDec_rewind]
  cases inFlightDec c { ch with readCo := .running } th with
  | none => rfl
  | some r =>
      obtain ⟨ch, th⟩ := r
      simp only [Option.map_some, Prod.map_apply, id_eq, Option.bind_eq_bind, Option.bind_some]
      split
      case isTrue => rfl
      case isFalse =>
        split
        case isTrue =>
          rw [pushReceived_rewind]
          rfl
        case isFalse =>
          rw [show (th.rewind k).ioRing.prep _ = _ from IoRing.prep_rewind ..]
          cases th.ioRing.prep ⟨.multishotRecv ch.fd, .read c⟩ with
          | none => rfl
          | some ioRing =>
              have hpush := pushReceived_rewind (k := k) c { ch with inFlight := ch.inFlight + 1 }
                { th with ioRing := ioRing } idx res.toNat
              simp only [Option.map_some]
              rw [show ({ th.rewind k with ioRing := ioRing.rewind k } : TcpThread)
                = TcpThread.rewind { th with ioRing := ioRing } k from rfl, hpush]
              rfl

theorem afterOnClose_rewind :
  ch.afterOnClose c (th.rewind k) = (ch.afterOnClose c th).map (Prod.map id (·.rewind k))
  := by
  rw [afterOnClose, afterOnClose, closeOnce_rewind]
  cases ch.closeOnce c th with
  | none => rfl
  | some r =>
      obtain ⟨ch, th⟩ := r
      simp only [Option.map_some, Prod.map_apply, id_eq, Option.bind_eq_bind, Option.bind_some]
      rw [show ch.readBuf.reset (th.rewind k).bufRing = _ from ReadBufStream.reset_rewind ..]
      cases ch.readBuf.reset th.bufRing <;> rfl

theorem resumeWrite_rewind (submittedBytes : ℕ) (res : Int) :
  ch.resumeWrite c (th.rewind k) submittedBytes res
    = (ch.resumeWrite c th submittedBytes res).map (Prod.map id (Prod.map (·.rewind k) id))
  := by
  rw [resumeWrite, resumeWrite, inFlightDec_rewind]
  cases inFlightDec c { ch with writeCo := .running } th with
  | none => rfl
  | some r =>
      obtain ⟨ch, th⟩ := r
      simp only [Option.map_some, Prod.map_apply, id_eq, Option.bind_eq_bind, Option.bind_some]
      split
      case isTrue =>
        rw [closeOnce_rewind]
        cases ch.closeOnce c th with
        | none => rfl
        | some r =>
            obtain ⟨ch, th⟩ := r
            simp only [Option.map_some, Prod.map_apply, id_eq, Option.bind_some, finishWrite_rewind]
            cases ch.finishWrite th <;> rfl
      case isFalse =>
        split
        case isTrue => rfl
        case isFalse =>
          change (ch.writeBuf.consumeWritten th.bufPool res.toNat).bind _ = _
          cases ch.writeBuf.consumeWritten th.bufPool res.toNat <;> rfl

theorem assign_rewind (fd : Int) :
  ch.assign c (th.rewind k) fd = (ch.assign c th fd).map (Prod.map id (·.rewind k))
  := by
  rw [assign, assign, startRead_rewind]
  apply writeLoop_rewind

end TcpChannel

/-! ### The worker before the last work of the kernel -/

theorem TcpChannel.call_rewind {k : KernelState} (c : ℕ) (ch : TcpChannel) (th : TcpThread)
    (op : AppOp) :
  ch.call c (th.rewind k) op
    = (ch.call c th op).map (Prod.map id (Prod.map id (·.rewind k)))
  := by
  cases op with
  | append data =>
      rw [call, call, Option.map_map]
      rfl
  | prepend data =>
      rw [call, call, Option.map_map]
      rfl
  | submit =>
      rw [call, call]
      generalize ch.writeBuf.submit = result
      obtain ⟨ok, writeBuf⟩ := result
      dsimp only
      split
      case isTrue =>
        rw [notify_rewind, Option.map_map, Option.map_map]
        rfl
      case isFalse => rfl
  | peek size =>
      rw [call, call, show ch.readBuf.peek (th.rewind k).bufRing size = _ from
        ReadBufStream.peek_rewind ..]
      rfl
  | consume size =>
      rw [call, call, show ch.readBuf.consume (th.rewind k).bufRing size = _ from
        ReadBufStream.consume_rewind .., Option.map_map, Option.map_map]
      rfl
  | close =>
      rw [call, call, close_rewind, Option.map_map, Option.map_map]
      rfl

namespace Worker

variable {k : KernelState} (w : Worker)

/-- The worker before the last work of the kernel. -/
def rewind (k : KernelState) : Worker := { w with thread := w.thread.rewind k }

theorem resumeAccept_rewind (res : Int) (more : Bool) :
  (w.rewind k).resumeAccept res more = (w.resumeAccept res more).map (·.rewind k)
  := by
  rw [resumeAccept, resumeAccept]
  split
  case isTrue => rfl
  case isFalse =>
    have hrearm : rearmAccept (w.rewind k).thread.ioRing more
        = (rearmAccept w.thread.ioRing more).map (·.rewind k) := by
      cases more with
      | true => rfl
      | false => apply IoRing.prep_rewind
    rw [hrearm]
    cases rearmAccept w.thread.ioRing more with
    | none => rfl
    | some ioRing =>
        simp only [Option.map_some, Option.bind_eq_bind, Option.bind_some]
        dsimp only [rewind, TcpThread.rewind]
        cases w.thread.channelPool.acquire with
        | none => rfl
        | some r =>
            obtain ⟨c, pool⟩ := r
            have hassign := TcpChannel.assign_rewind (k := k) c (w.channels c)
              { w.thread with ioRing := ioRing, channelPool := pool } res
            dsimp only [TcpThread.rewind] at hassign ⊢
            rw [hassign]
            generalize (w.channels c).assign c
              { w.thread with ioRing := ioRing, channelPool := pool } res = result
            cases result <;> rfl

theorem complete_rewind (d : UserData) (res : Int) (more : Bool) (idx : ℕ) :
  (w.rewind k).complete d res more idx = (w.complete d res more idx).map (·.rewind k)
  := by
  cases d with
  | wakeup => rfl
  | accept =>
      rw [complete, complete]
      change (if w.accepting then _ else _) = _
      split
      case isTrue => apply resumeAccept_rewind
      case isFalse => rfl
  | read c =>
      rw [complete, complete]
      change (if (w.channels c).readCo = .awaiting then _ else _) = _
      split
      case isTrue =>
        rw [show TcpChannel.resumeRead c ((w.rewind k).channels c) (w.rewind k).thread res more idx
          = _ from TcpChannel.resumeRead_rewind .., Option.map_map, Option.map_map]
        rfl
      case isFalse => rfl
  | write c =>
      rw [complete, complete]
      dsimp only [rewind]
      cases (w.channels c).writeCo with
      | onToken submittedBytes =>
          dsimp only
          rw [TcpChannel.resumeWrite_rewind, Option.map_map, Option.map_map]
          rfl
      | _ => rfl

theorem serveReads_rewind (l : List ℕ) :
  (w.rewind k).serveReads l = (w.serveReads l).rewind k
  := by
  cases l <;> rfl

theorem afterCallback_rewind :
  (w.rewind k).afterCallback = w.afterCallback.map (·.rewind k)
  := by
  rw [afterCallback, afterCallback]
  dsimp only [rewind]
  cases w.ctl with
  | onClose c =>
      dsimp only
      rw [TcpChannel.afterOnClose_rewind, Option.map_map, Option.map_map]
      rfl
  | onWrite c =>
      dsimp only
      rw [TcpChannel.writeLoop_rewind, Option.map_map, Option.map_map]
      rfl
  | onRead c rest => apply congrArg some (serveReads_rewind w rest)
  | _ => rfl

/-- Besides completions and submits, the steps of the worker are natural in what the kernel owns. -/
theorem step_rewind {e : Event} (hsubmit : e ≠ .submit)
    (hcomplete : ∀ i res more idx data, e ≠ .complete i res more idx data) :
  (w.rewind k).step e = (w.step e).map (·.rewind k)
  := by
  cases e with
  | submit => exact absurd rfl hsubmit
  | complete i res more idx data => exact absurd rfl (hcomplete i res more idx data)
  | batchDone =>
      rw [step, step, stepResult, stepResult]
      by_cases hctl : w.ctl = .batch
      · rw [if_pos hctl, if_pos (show (w.rewind k).ctl = .batch from hctl)]
        apply congrArg some (serveReads_rewind w _)
      · rw [if_neg hctl, if_neg (show ¬ (w.rewind k).ctl = .batch from hctl)]
        rfl
  | ret =>
      rw [step, step, stepResult, stepResult, afterCallback_rewind]
      simp only [Option.map_map]
      rfl
  | app c op =>
      rw [step, step, stepResult, stepResult]
      dsimp only [rewind]
      rw [TcpChannel.call_rewind]
      simp only [Option.map_map]
      rfl

theorem rewind_self :
  w.rewind ⟨w.thread.ioRing.inflight, w.thread.bufRing.bufs, []⟩ = w
  := rfl

variable {w} {w₁ : Worker}

/-- What is natural in what the kernel owns leaves it alone. -/
theorem frame_of_natural {f : Worker → Option Worker}
    (hnatural : ∀ k, f (w.rewind k) = (f w).map (·.rewind k)) (hf : f w = some w₁) :
  w₁.thread.ioRing.inflight = w.thread.ioRing.inflight
    ∧ w₁.thread.bufRing.bufs = w.thread.bufRing.bufs
  := by
  have hself := hnatural ⟨w.thread.ioRing.inflight, w.thread.bufRing.bufs, []⟩
  rw [rewind_self, hf] at hself
  have heq := Option.some_injective _ hself
  constructor
  · rw [heq]
    rfl
  · rw [heq]
    rfl

/-- What a channel looks like depends on how many SQEs are outstanding, not on their order. -/
theorem view_rewind {k' : KernelState} (hinflight : k.inflight.Perm k'.inflight) (c : ℕ) :
  (w.rewind k).view c = (w.rewind k').view c
  := by
  have houtstanding : ∀ d, (w.rewind k).thread.ioRing.outstanding d
      = (w.rewind k').thread.ioRing.outstanding d := by
    intro d
    apply List.Perm.count_eq
    apply (hinflight.append_left w.thread.ioRing.sq).map
  simp only [view, TcpChannel.view, houtstanding]
  rfl

end Worker

end Proactor
