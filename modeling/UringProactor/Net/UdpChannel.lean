import UringProactor.Buffer.ReadBuf
import UringProactor.Buffer.WriteBufDgram
import UringProactor.Net.Channel

/-!
# UDP channels

The `UdpChannel` of a worker has a read and a write coroutine, `udp_read_loop` and
`udp_write_loop`.  As for TCP, the functions below run the channel from one suspension point
of its coroutines to the next; `none` stands for a failed assertion or a null pointer that is
dereferenced.  A submitted datagram has an SQE of its own, whose `user_data` is the token in
its slot.
-/

namespace Proactor

/-- An SQE of a UDP worker.  Its operation also tells its `user_data`: the token of the read
coroutine, the sentinel of the wake-up read, or the token of the slot. -/
inductive UdpSqe where
  | multishotRecvmsg (fd : Int)
  | readWakeup
  | sendmsg (fd : Int) (slot : ℕ)
deriving DecidableEq

/-- `IoRing` of a UDP worker. -/
structure UdpRing where
  /-- `queue_depth_`. -/
  depth : ℕ
  /-- The SQEs prepared since the last submit. -/
  sq : List UdpSqe
  /-- The submitted SQEs whose last completion has not been handled. -/
  inflight : List UdpSqe
  /-- Whether `io_uring_get_sqe` has returned null. -/
  failed : Bool

/-- The slot of a `sendmsg`. -/
def UdpSqe.slot? : UdpSqe → Option ℕ
  | .multishotRecvmsg _ => none
  | .readWakeup => none
  | .sendmsg _ slot => some slot

namespace UdpRing

/-- `IoRing::get_sqe` followed by the preparation of the entry; `none` stands for the
exception. -/
def prep (r : UdpRing) (sqe : UdpSqe) : Option UdpRing :=
  if r.sq.length < r.depth then
    some { r with sq := r.sq ++ [sqe] }
  else
    none

/-- The ring after `io_uring_get_sqe` returned null. -/
def fail (r : UdpRing) : UdpRing := { r with failed := true }

/-- `IoRing::submit`. -/
def submit (r : UdpRing) : UdpRing := { r with sq := [], inflight := r.inflight ++ r.sq }

/-- The ring after a completion of the `i`-th SQE in flight; `more` is `IORING_CQE_F_MORE`. -/
def reap (r : UdpRing) (i : ℕ) (more : Bool) : UdpRing :=
  if more then r else { r with inflight := r.inflight.eraseIdx i }

/-- The slots of the datagrams in prepared or submitted SQEs. -/
def sends (r : UdpRing) : List ℕ := (r.sq ++ r.inflight).filterMap UdpSqe.slot?

end UdpRing

/-- Where the write coroutine of a UDP channel is: suspended on `notify_token_` or finished.
It is never seen running, since it calls no callback. -/
inductive UdpWriteCo where
  | onNotify
  | finished
deriving DecidableEq

/-- `UdpChannel`. -/
structure UdpChannel where
  /-- `fd_`. -/
  fd : Int
  /-- `notify_token_`. -/
  notifyToken : NotifyToken
  /-- `read_buf_`. -/
  readBuf : ReadBufDgram
  /-- `write_buf_`. -/
  writeBuf : WriteBufDgram
  /-- The coroutine of `read_handle_`. -/
  readCo : ReadCo
  /-- The coroutine of `write_handle_`. -/
  writeCo : UdpWriteCo

/-- `UdpThread`: the resources of the worker. -/
structure UdpThread where
  /-- `io_ring_`. -/
  ioRing : UdpRing
  /-- `buf_ring_`. -/
  bufRing : BufRing
  /-- `buf_pool_`. -/
  bufPool : BufPool
  /-- `msghdr_pool_`. -/
  msghdrPool : MsghdrPool

/-- The thread after `io_uring_get_sqe` returned null. -/
def UdpThread.getSqeFailed (th : UdpThread) : UdpThread := { th with ioRing := th.ioRing.fail }

namespace UdpChannel

/-! ### `udp_write_loop` -/

/-- The pool after `token_.channel_` of a slot was set. -/
def bindToken (m : MsghdrPool) (slot : ℕ) : MsghdrPool :=
  m.set slot { m.slots slot with channel := true }

/-- The loop `for (i = 0; i < count; ++i)` of `udp_write_loop` over the given offsets.  The flag
tells whether it ended without an exception. -/
def sendSlots (fd : Int) (d : WriteBufDgram) : List ℕ → UdpThread → Option (Bool × UdpThread)
  | [], th => some (true, th)
  | i :: offsets, th =>
      (d.peekSlot i).bind (fun slot =>
        let th := { th with msghdrPool := bindToken th.msghdrPool slot }
        match th.ioRing.prep (.sendmsg fd slot) with
        | none => some (false, th.getSqeFailed)
        | some ioRing => sendSlots fd d offsets { th with ioRing := ioRing })

/-- The body of `udp_write_loop` behind the `co_await`.  The flag tells whether the coroutine
is still alive. -/
def writePass (ch : UdpChannel) (th : UdpThread) : Option (Bool × UdpChannel × UdpThread) :=
  let count := ch.writeBuf.slotQueueSize
  (sendSlots ch.fd ch.writeBuf (List.range count.toNat) th).map (fun (ok, th) =>
    if ok then
      (true, { ch with writeBuf := ch.writeBuf.clearSlotQueue }, th)
    else
      (false, { ch with writeCo := .finished }, th))

/-- `udp_write_loop` from the top of its loop. -/
def writeLoop (ch : UdpChannel) (th : UdpThread) : Option (UdpChannel × UdpThread) :=
  if ch.notifyToken.pending then
    match _h : writePass { ch with notifyToken := { ch.notifyToken with pending := false } } th with
    | none => none
    | some (false, ch, th) => some (ch, th)
    | some (true, ch, th) => writeLoop ch th
  else
    some ({ ch with notifyToken := { ch.notifyToken with handle := true }, writeCo := .onNotify }, th)
termination_by ch.notifyToken.pending.toNat
decreasing_by
  obtain ⟨⟨ok, th'⟩, -, hif⟩ := Option.map_eq_some_iff.mp _h
  cases ok with
  | false => cases hif
  | true =>
      cases hif
      simp_all

/-- `NotifyToken::notify` of `notify_token_`. -/
def notify (ch : UdpChannel) (th : UdpThread) : Option (UdpChannel × UdpThread) :=
  if ch.notifyToken.handle then
    (writePass { ch with notifyToken := { ch.notifyToken with handle := false } } th).bind
      (fun (alive, ch, th) => if alive then writeLoop ch th else some (ch, th))
  else
    some ({ ch with notifyToken := { ch.notifyToken with pending := true } }, th)

/-! ### `submit` -/

/-- The failure path of `UdpChannel::submit`: the pending blocks are given back. -/
def discard (ch : UdpChannel) (th : UdpThread) : Option (Bool × UdpChannel × UdpThread) :=
  (ch.writeBuf.discardPending th.bufPool).map (fun (b, p) =>
    (false, { ch with writeBuf := { ch.writeBuf with toWriteBufBase := b } },
      { th with bufPool := p }))

/-- The rest of `UdpChannel::submit` once the slot holds the address. -/
def submitSlot (ch : UdpChannel) (th : UdpThread) (slot : ℕ) :
    Option (Bool × UdpChannel × UdpThread) :=
  match ch.writeBuf.submit th.bufPool th.msghdrPool (some slot) with
  | (false, writeBuf, m) =>
      (WriteBufDgram.releaseSlot th.bufPool m slot).bind (fun (p, m) =>
        discard { ch with writeBuf := writeBuf } { th with bufPool := p, msghdrPool := m })
  | (true, writeBuf, m) =>
      (notify { ch with writeBuf := writeBuf } { th with msghdrPool := m }).map
        (fun (ch, th) => (true, ch, th))

/-- `UdpChannel::submit` with an address given by its bytes. -/
def submit (ch : UdpChannel) (th : UdpThread) (addr : List UInt8) :
    Option (Bool × UdpChannel × UdpThread) :=
  match th.msghdrPool.acquire with
  | none => ch.discard th
  | some (slot, m) =>
      ch.submitSlot { th with msghdrPool := m.set slot ((m.slots slot).setAddr addr) } slot

/-- `UdpChannel::submit` with an `IpAddress`, which notifies once more. -/
def submitIp (ch : UdpChannel) (th : UdpThread) (addr : List UInt8) :
    Option (Bool × UdpChannel × UdpThread) :=
  (ch.submit th addr).bind (fun (ok, ch, th) =>
    if ok then
      (ch.notify th).map (fun (ch, th) => (true, ch, th))
    else
      some (false, ch, th))

/-! ### `udp_read_loop` -/

/-- Arm the multishot `recvmsg` again, unless `IORING_CQE_F_MORE` tells that it still is. -/
def rearmRecvmsg (ioRing : UdpRing) (fd : Int) (more : Bool) : Option UdpRing :=
  if more then some ioRing else ioRing.prep (.multishotRecvmsg fd)

/-- `udp_read_loop` after a completion with result `res`, flag `more` and buffer `idx`, up to
the next `co_await` or up to the callback `on_read`, which the flag tells. -/
def resumeRead (ch : UdpChannel) (th : UdpThread) (res : Int) (more : Bool) (idx : ℕ) :
    UdpChannel × UdpThread × Bool :=
  match rearmRecvmsg th.ioRing ch.fd more with
  | none => ({ ch with readCo := .finished }, th.getSqeFailed, false)
  | some ioRing =>
      if res < 0 then
        (ch, { th with ioRing := ioRing }, false)
      else
        let bufRing := th.bufRing.setDataSize idx res.toNat
        let readBuf := { ch.readBuf with toReadBufBase := (ch.readBuf.pushBuf bufRing idx).2 }
        ({ ch with readBuf := readBuf, readCo := .running },
          { th with ioRing := ioRing, bufRing := bufRing }, true)

end UdpChannel

end Proactor
