import UringProactor.Net.Channel
import UringProactor.Prelude.Run

/-!
# The TCP worker

A `Worker` is a `TcpThread` with the channels of its pool, its accept coroutine and the place
where control is in `run_loop`.  Its events are the steps of the loop, the completions the
kernel delivers, the calls the application makes, and the returns from its callbacks.
-/

namespace Proactor

/-- Where control is in `run_loop`: before the submit, among the completions of a batch, or
in a callback.  In `on_read` the rest of `pending_reads_` is still to be served. -/
inductive Ctl where
  | poll
  | batch
  | onAccept (c : ℕ)
  | onClose (c : ℕ)
  | onWrite (c : ℕ)
  | onRead (c : ℕ) (rest : List ℕ)
deriving DecidableEq

/-- A call of the application on a channel. -/
inductive AppOp where
  | append (data : List UInt8)
  | prepend (data : List UInt8)
  | submit
  | peek (size : ℕ)
  | consume (size : ℕ)
  | close

/-- An event of a worker.  `complete i res more idx data` is a completion of the `i`-th SQE in
flight, with the flag `IORING_CQE_F_MORE` and, for received data, the provided buffer `idx`
and the bytes the kernel put there. -/
inductive Event where
  | submit
  | complete (i : ℕ) (res : Int) (more : Bool) (idx : ℕ) (data : List UInt8)
  | batchDone
  | ret
  | app (c : ℕ) (op : AppOp)

/-- A TCP worker. -/
structure Worker where
  /-- The array `channels_` of `tcp_channel_pool_`. -/
  channels : ℕ → TcpChannel
  thread : TcpThread
  /-- Whether the accept coroutine is suspended on its token. -/
  accepting : Bool
  ctl : Ctl

/-- A call of the application on the channel `c`, with the result it returns. -/
def TcpChannel.call (c : ℕ) (ch : TcpChannel) (th : TcpThread) :
    AppOp → Option (Bool × TcpChannel × TcpThread)
  | .append data =>
      (ch.writeBuf.append th.bufPool data).map (fun (ok, b, p) =>
        (ok, { ch with writeBuf := { ch.writeBuf with toWriteBufBase := b } },
          { th with bufPool := p }))
  | .prepend data =>
      (ch.writeBuf.prepend th.bufPool data).map (fun (ok, b, p) =>
        (ok, { ch with writeBuf := { ch.writeBuf with toWriteBufBase := b } },
          { th with bufPool := p }))
  | .submit =>
      let (ok, writeBuf) := ch.writeBuf.submit
      if ok then
        (notify c { ch with writeBuf := writeBuf } th).map (fun (ch, th) => (true, ch, th))
      else
        some (false, ch, th)
  | .peek size =>
      let (result, readBuf) := ch.readBuf.peek th.bufRing size
      some (result.isSome, { ch with readBuf := readBuf }, th)
  | .consume size =>
      (ch.readBuf.consume th.bufRing size).map (fun (ok, readBuf, bufRing) =>
        (ok, { ch with readBuf := readBuf }, { th with bufRing := bufRing }))
  | .close => (ch.close c th).map (fun (ch, th) => (true, ch, th))

namespace Worker

/-- Replace the channel `c` and the thread. -/
def update (w : Worker) (c : ℕ) (ch : TcpChannel) (th : TcpThread) : Worker :=
  { w with channels := Function.update w.channels c ch, thread := th }

/-- The number of channels. -/
def size (w : Worker) : ℕ := w.thread.channelPool.size

/-- Arm the multishot accept again, unless `IORING_CQE_F_MORE` tells that it still is. -/
def rearmAccept (ioRing : IoRing) (more : Bool) : Option IoRing :=
  if more then some ioRing else ioRing.prep ⟨.multishotAccept, .accept⟩

/-- `accept_loop` after a completion, up to the next `co_await` or up to the callback
`on_accept`; `none` also stands for `std::terminate`. -/
def resumeAccept (w : Worker) (res : Int) (more : Bool) : Option Worker :=
  if res < 0 then
    some { w with accepting := false }
  else do
    let ioRing ← rearmAccept w.thread.ioRing more
    let th := { w.thread with ioRing := ioRing }
    match th.channelPool.acquire with
    | none => some { w with thread := th }
    | some (c, pool) =>
        let (ch, th) ← (w.channels c).assign c { th with channelPool := pool } res
        some { w.update c ch th with ctl := .onAccept c }

/-- `Token::complete` of the token an SQE names.  Nothing happens when no coroutine is
suspended on the token. -/
def complete (w : Worker) (d : UserData) (res : Int) (more : Bool) (idx : ℕ) : Option Worker :=
  match d with
  | .wakeup => some w
  | .accept => if w.accepting then w.resumeAccept res more else some w
  | .read c =>
      if (w.channels c).readCo = .awaiting then
        ((w.channels c).resumeRead c w.thread res more idx).map (fun (ch, th, callback) =>
          { w.update c ch th with ctl := if callback then .onClose c else w.ctl })
      else
        some w
  | .write c =>
      match (w.channels c).writeCo with
      | .onToken submittedBytes =>
          ((w.channels c).resumeWrite c w.thread submittedBytes res).map
            (fun (ch, th, callback) =>
              { w.update c ch th with ctl := if callback then .onWrite c else w.ctl })
      | _ => some w

/-- What the kernel did for a completion of the `i`-th SQE in flight: received data is in its
provided buffer, and without `IORING_CQE_F_MORE` the SQE is finished. -/
def kernel (th : TcpThread) (i : ℕ) (d : UserData) (res : Int) (more : Bool) (idx : ℕ)
    (data : List UInt8) : TcpThread :=
  let th := { th with ioRing := th.ioRing.reap i more }
  match d with
  | .read _ => if 0 < res then { th with bufRing := th.bufRing.fill idx data } else th
  | _ => th

/-- `TcpThread::on_batch_done` from the given rest of `pending_reads_` on. -/
def serveReads (w : Worker) : List ℕ → Worker
  | [] => { w with thread := { w.thread with pendingReads := [] }, ctl := .poll }
  | c :: rest =>
      { w.update c { w.channels c with inPendingReads := false } w.thread with
        ctl := .onRead c rest }

/-- The return from the callback control is in. -/
def afterCallback (w : Worker) : Option Worker :=
  match w.ctl with
  | .poll => none
  | .batch => none
  | .onAccept _ => some { w with ctl := .batch }
  | .onClose c =>
      ((w.channels c).afterOnClose c w.thread).map (fun (ch, th) =>
        { w.update c ch th with ctl := .batch })
  | .onWrite c =>
      ((w.channels c).writeLoop c w.thread).map (fun (ch, th) =>
        { w.update c ch th with ctl := .batch })
  | .onRead _ rest => some (w.serveReads rest)

/-- One event, with the result a call of the application returns; `none` when the event
cannot happen, or ends the program. -/
def stepResult (w : Worker) : Event → Option (Bool × Worker)
  | .submit =>
      if w.ctl = .poll then
        some (true, { w with
          thread := { w.thread with ioRing := w.thread.ioRing.submit }
          ctl := .batch })
      else
        none
  | .complete i res more idx data =>
      if w.ctl = .batch then
        w.thread.ioRing.inflight[i]?.bind (fun sqe =>
          (complete { w with thread := kernel w.thread i sqe.data res more idx data }
            sqe.data res more idx).map (fun w => (true, w)))
      else
        none
  | .batchDone =>
      if w.ctl = .batch then
        some (true, w.serveReads w.thread.pendingReads)
      else
        none
  | .ret => w.afterCallback.map (fun w => (true, w))
  | .app c op =>
      ((w.channels c).call c w.thread op).map (fun (ok, ch, th) => (ok, w.update c ch th))

/-- One event. -/
def step (w : Worker) (e : Event) : Option Worker := (w.stepResult e).map Prod.snd

/-- What the kernel promises of a completion of an SQE: only a multishot SQE completes with
`IORING_CQE_F_MORE`; received data fills a provided buffer in part or whole; a `writev`
writes at most the bytes of its iovecs. -/
def Delivers (w : Worker) (sqe : Sqe) (res : Int) (more : Bool) (idx : ℕ) (data : List UInt8) :
    Prop :=
  match sqe.data with
  | .accept => True
  | .wakeup => more = false
  | .read _ =>
      0 < res → idx ∈ w.thread.bufRing.ring ∧ data.length = res.toNat
        ∧ data.length ≤ w.thread.bufRing.bufSize
  | .write c =>
      more = false
        ∧ res ≤ (((w.channels c).writeBuf.iovec.take sqe.op.nr).map IoVec.len).sum

/-- The events that can happen: completions are as the kernel promises, and the application
calls the channels of the pool. -/
def Admits (w : Worker) : Event → Prop
  | .complete i res more idx data =>
      ∀ sqe ∈ w.thread.ioRing.inflight[i]?, w.Delivers sqe res more idx data
  | .app c _ => c < w.size
  | _ => True

instance (w : Worker) (sqe : Sqe) (res : Int) (more : Bool) (idx : ℕ) (data : List UInt8) :
    Decidable (w.Delivers sqe res more idx data) :=
  match sqe with
  | ⟨_, .accept⟩ => inferInstanceAs (Decidable True)
  | ⟨_, .wakeup⟩ => inferInstanceAs (Decidable (more = false))
  | ⟨_, .read _⟩ => inferInstanceAs (Decidable (0 < res → _ ∧ _ ∧ _))
  | ⟨_, .write _⟩ => inferInstanceAs (Decidable (_ ∧ _ ≤ _))

instance (w : Worker) (e : Event) : Decidable (w.Admits e) :=
  match e with
  | .submit => inferInstanceAs (Decidable True)
  | .complete i res more idx data =>
      inferInstanceAs (Decidable (∀ sqe ∈ w.thread.ioRing.inflight[i]?,
        w.Delivers sqe res more idx data))
  | .batchDone => inferInstanceAs (Decidable True)
  | .ret => inferInstanceAs (Decidable True)
  | .app c _ => inferInstanceAs (Decidable (c < w.size))

/-- `TcpChannel::TcpChannel`, with `channel_capacity` equal to `2 ^ capBits`. -/
def newChannel (bufRing : BufRing) (capBits : Fin 31) : TcpChannel where
  fd := -1
  notifyToken := {}
  readBuf := { toReadBufBase := .new bufRing, headOffset := 0 }
  writeBuf := {
    bits := capBits
    bits_le := Nat.lt_succ_iff.mp capBits.isLt
    pending := ⟨fun _ => 0, 0, 0⟩
    send := ⟨fun _ => 0, 0, 0⟩
    sendHeadOffset := 0
    iovec := [] }
  inFlight := 0
  inPendingReads := false
  readCo := .unstarted
  writeCo := .unstarted

/-- The worker when `run_loop` enters its loop: a pool of `2 ^ poolBits` new channels, all in
the free queue, and the SQEs of the accept coroutine and of the wake-up read prepared. -/
def start (depth : ℕ) (bufRing : BufRing) (bufPool : BufPool) (poolBits capBits : Fin 31) :
    Worker where
  channels _ := newChannel bufRing capBits
  thread := {
    ioRing := ⟨depth, [⟨.multishotAccept, .accept⟩, ⟨.readWakeup, .wakeup⟩], [], false⟩
    bufRing := bufRing
    bufPool := bufPool
    channelPool := {
      bits := poolBits
      bits_le := Nat.lt_succ_iff.mp poolBits.isLt
      freeQueue := (List.range (2 ^ poolBits.val)).foldl (fun q i => q.push poolBits i)
        ⟨fun _ => 0, 0, 0⟩ }
    pendingReads := [] }
  accepting := true
  ctl := .poll

end Worker

end Proactor
