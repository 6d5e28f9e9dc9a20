import UringProactor.Net.UdpChannel
import UringProactor.Prelude.Run

/-!
# The UDP worker

A `UdpWorker` is a `UdpThread` with its channel and the place where control is in `run_loop`.
Its events are those of a TCP worker; it accepts no connections, and its channel is open
throughout.
-/

namespace Proactor

/-- Where control is in `run_loop`: before the submit, among the completions of a batch, or
in a callback. -/
inductive UdpCtl where
  | poll
  | batch
  | onRead
  | onWrite
deriving DecidableEq

/-- A call of the application on the channel.  For `peek` it is given whether
`io_uring_recvmsg_validate` finds a packet in the first queued buffer. -/
inductive UdpOp where
  | append (data : List UInt8)
  | prepend (data : List UInt8)
  | submit (addr : List UInt8)
  | submitIp (addr : List UInt8)
  | peek (valid : Bool)
  | consume

/-- An event of a worker, as for TCP. -/
inductive UdpEvent where
  | submit
  | complete (i : ℕ) (res : Int) (more : Bool) (idx : ℕ) (data : List UInt8)
  | batchDone
  | ret
  | app (op : UdpOp)

/-- A UDP worker. -/
structure UdpWorker where
  /-- `channel_`. -/
  channel : UdpChannel
  thread : UdpThread
  ctl : UdpCtl

/-- A call of the application, with the result it returns. -/
def UdpChannel.call (ch : UdpChannel) (th : UdpThread) :
    UdpOp → Option (Bool × UdpChannel × UdpThread)
  | .append data =>
      (ch.writeBuf.append th.bufPool data).map (fun (ok, b, p) =>
        (ok, { ch with writeBuf := { ch.writeBuf with toWriteBufBase := b } },
          { th with bufPool := p }))
  | .prepend data =>
      (ch.writeBuf.prepend th.bufPool data).map (fun (ok, b, p) =>
        (ok, { ch with writeBuf := { ch.writeBuf with toWriteBufBase := b } },
          { th with bufPool := p }))
  | .submit addr => ch.submit th addr
  | .submitIp addr => ch.submitIp th addr
  | .peek valid =>
      -- The result is whether there is a packet; `DgramMsg` asserts that it is valid.
      if ch.readBuf.queue.head = ch.readBuf.queue.tail then some (false, ch, th)
      else if valid then some (true, ch, th)
      else none
  | .consume =>
      let (ok, readBuf, bufRing) := ch.readBuf.consume th.bufRing
      some (ok, { ch with readBuf := readBuf }, { th with bufRing := bufRing })

namespace UdpWorker

/-- `complete` of the token an SQE names. -/
def complete (w : UdpWorker) (sqe : UdpSqe) (res : Int) (more : Bool) (idx : ℕ) :
    Option UdpWorker :=
  match sqe with
  | .readWakeup => some w
  | .multishotRecvmsg _ =>
      if w.channel.readCo = .awaiting then
        let (ch, th, callback) := w.channel.resumeRead w.thread res more idx
        some ⟨ch, th, if callback then .onRead else w.ctl⟩
      else
        some w
  | .sendmsg _ slot =>
      -- `MsgToken::complete`: the slot is released before `on_write` is called.
      if (w.thread.msghdrPool.slots slot).channel then
        (WriteBufDgram.releaseSlot w.thread.bufPool w.thread.msghdrPool slot).map (fun (p, m) =>
          { w with thread := { w.thread with bufPool := p, msghdrPool := m }, ctl := .onWrite })
      else
        none

/-- What the kernel did for a completion of the `i`-th SQE in flight: a received packet is in
its provided buffer, and without `IORING_CQE_F_MORE` the SQE is finished. -/
def kernel (th : UdpThread) (i : ℕ) (sqe : UdpSqe) (res : Int) (more : Bool) (idx : ℕ)
    (data : List UInt8) : UdpThread :=
  let th := { th with ioRing := th.ioRing.reap i more }
  match sqe with
  | .multishotRecvmsg _ =>
      if 0 ≤ res then { th with bufRing := th.bufRing.fill idx data } else th
  | _ => th

/-- The return from the callback control is in. -/
def afterCallback (w : UdpWorker) : Option UdpWorker :=
  match w.ctl with
  | .poll => none
  | .batch => none
  | .onRead => some { w with channel := { w.channel with readCo := .awaiting }, ctl := .batch }
  | .onWrite => some { w with ctl := .batch }

/-- One event, with the result a call of the application returns; `none` when the event
cannot happen, or ends the program. -/
def stepResult (w : UdpWorker) : UdpEvent → Option (Bool × UdpWorker)
  | .submit =>
      if w.ctl = .poll then
        some (true, { w with
          thread := { w.thread with ioRing := w.thread.ioRing.submit }
          ctl := .batch })
      else
        none
  | .complete i res more idx data =>
      if w.ctl = .batch then
        w.thread.ioRing.inflight[i]?.bind (fun sqe =>
          (complete { w with thread := kernel w.thread i sqe res more idx data }
            sqe res more idx).map (fun w => (true, w)))
      else
        none
  | .batchDone => if w.ctl = .batch then some (true, { w with ctl := .poll }) else none
  | .ret => w.afterCallback.map (fun w => (true, w))
  | .app op =>
      (w.channel.call w.thread op).map (fun (ok, ch, th) =>
        (ok, { w with channel := ch, thread := th }))

/-- One event. -/
def step (w : UdpWorker) (e : UdpEvent) : Option UdpWorker := (w.stepResult e).map Prod.snd

/-- `peek` changes nothing. -/
theorem eq_of_peek {w w' : UdpWorker} {valid ok : Bool}
    (h : w.stepResult (.app (.peek valid)) = some (ok, w')) :
  w' = w
  := by
  obtain ⟨⟨ok', ch, th⟩, hcall, heq⟩ := Option.map_eq_some_iff.mp h
  cases heq
  rw [UdpChannel.call] at hcall
  split at hcall
  case isTrue =>
    cases hcall
    rfl
  case isFalse =>
    obtain ⟨-, hcall⟩ := Option.ite_none_right_eq_some.mp hcall
    cases hcall
    rfl

/-- What the kernel promises of a completion of an SQE: only the multishot SQE completes with
`IORING_CQE_F_MORE`, and a received packet fills a provided buffer in part or whole. -/
def Delivers (w : UdpWorker) (sqe : UdpSqe) (res : Int) (more : Bool) (idx : ℕ)
    (data : List UInt8) : Prop :=
  match sqe with
  | .readWakeup => more = false
  | .multishotRecvmsg _ =>
      0 ≤ res → idx ∈ w.thread.bufRing.ring ∧ data.length = res.toNat
        ∧ data.length ≤ w.thread.bufRing.bufSize
  | .sendmsg _ _ => more = false

/-- The events that can happen: completions are as the kernel promises, and an address fits
in `sockaddr_storage`. -/
def Admits (w : UdpWorker) : UdpEvent → Prop
  | .complete i res more idx data =>
      ∀ sqe ∈ w.thread.ioRing.inflight[i]?, w.Delivers sqe res more idx data
  | .app (.submit addr) => addr.length ≤ sockaddrStorage
  | .app (.submitIp addr) => addr.length ≤ sockaddrStorage
  | _ => True

instance (w : UdpWorker) (sqe : UdpSqe) (res : Int) (more : Bool) (idx : ℕ)
    (data : List UInt8) : Decidable (w.Delivers sqe res more idx data) :=
  match sqe with
  | .readWakeup => inferInstanceAs (Decidable (more = false))
  | .multishotRecvmsg _ => inferInstanceAs (Decidable (0 ≤ res → _ ∧ _ ∧ _))
  | .sendmsg _ _ => inferInstanceAs (Decidable (more = false))

instance (w : UdpWorker) (e : UdpEvent) : Decidable (w.Admits e) :=
  match e with
  | .submit => inferInstanceAs (Decidable True)
  | .complete i res more idx data =>
      inferInstanceAs (Decidable (∀ sqe ∈ w.thread.ioRing.inflight[i]?,
        w.Delivers sqe res more idx data))
  | .batchDone => inferInstanceAs (Decidable True)
  | .ret => inferInstanceAs (Decidable True)
  | .app (.append _) => inferInstanceAs (Decidable True)
  | .app (.prepend _) => inferInstanceAs (Decidable True)
  | .app (.submit addr) => inferInstanceAs (Decidable (addr.length ≤ sockaddrStorage))
  | .app (.submitIp addr) => inferInstanceAs (Decidable (addr.length ≤ sockaddrStorage))
  | .app (.peek _) => inferInstanceAs (Decidable True)
  | .app .consume => inferInstanceAs (Decidable True)

theorem capBits_le (capBits : Fin 31) :
  capBits.val ≤ 30
  := by
  exact Nat.lt_succ_iff.mp capBits.isLt

/-- The worker when `run_loop` enters its loop: the channel is assigned the socket `fd`, its
coroutines are suspended for the first time, and the SQEs of the read coroutine and of the
wake-up read are prepared.  `channel_capacity` is `2 ^ capBits`. -/
def start (depth : ℕ) (fd : Int) (bufRing : BufRing) (bufPool : BufPool)
    (msghdrPool : MsghdrPool) (capBits : Fin 31) : UdpWorker where
  channel := {
    fd := fd
    notifyToken := { handle := true }
    readBuf := { toReadBufBase := .new bufRing }
    writeBuf := {
      bits := capBits
      bits_le := capBits_le capBits
      pending := ⟨fun _ => 0, 0, 0⟩
      send := ⟨fun _ => 0, 0, 0⟩
      slotQueue := ⟨fun _ => 0, 0, 0⟩
      maxIov := msghdrPool.maxIov }
    readCo := .awaiting
    writeCo := .onNotify }
  thread := {
    ioRing := ⟨depth, [.multishotRecvmsg fd, .readWakeup], [], false⟩
    bufRing := bufRing
    bufPool := bufPool
    msghdrPool := msghdrPool }
  ctl := .poll

end UdpWorker

end Proactor
