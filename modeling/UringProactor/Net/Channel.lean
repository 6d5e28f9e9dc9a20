import UringProactor.Buffer.ReadBuf
import UringProactor.Buffer.WriteBuf
import UringProactor.Core.IoRing

/-!
# TCP channels

A `TcpChannel` has a read and a write coroutine, `tcp_read_loop` and `tcp_write_loop`.  The
functions below run a channel from one suspension point of its coroutines to the next.  They
take the index of the channel, the channel and the thread it belongs to, and return the last
two; `none` stands for a failed assertion.  A callback of the server is a point at which a
function returns, and another function goes on after the callback.

An exception of `get_sqe` is swallowed by `unhandled_exception` and ends the coroutine.
-/

namespace Proactor

/-- `NotifyToken`; `handle` says whether a coroutine is suspended on the token. -/
structure NotifyToken where
  pending : Bool := false
  closed : Bool := false
  handle : Bool := false

/-- Where the read coroutine of a channel is: not started, suspended on its token, running
(possibly in `on_close`), or finished. -/
inductive ReadCo where
  | unstarted
  | awaiting
  | running
  | finished
deriving DecidableEq

/-- Where the write coroutine of a channel is: not started, suspended on `notify_token_`,
suspended on its token with its `submitted_bytes`, running (possibly in `on_write`), or
finished. -/
inductive WriteCo where
  | unstarted
  | onNotify
  | onToken (submittedBytes : ℕ)
  | running
  | finished
deriving DecidableEq

/-- `TcpChannel`. -/
structure TcpChannel where
  /-- `fd_`. -/
  fd : Int
  /-- `notify_token_`. -/
  notifyToken : NotifyToken
  /-- `read_buf_`. -/
  readBuf : ReadBufStream
  /-- `write_buf_`. -/
  writeBuf : WriteBufStream
  /-- `in_flight_`. -/
  inFlight : Int
  /-- `in_pending_reads_`. -/
  inPendingReads : Bool
  /-- The coroutine of `read_handle_`. -/
  readCo : ReadCo
  /-- The coroutine of `write_handle_`. -/
  writeCo : WriteCo

/-- `TcpChannelPool` without the array of channels.  `pool_size_` is `2 ^ bits`. -/
structure TcpChannelPool where
  /-- `pool_size_` is `2 ^ bits`, a positive `int`, and `mask_` is `2 ^ bits - 1`. -/
  bits : ℕ
  bits_le : bits ≤ 30
  /-- `free_queue_` with `head_` and `tail_`. -/
  freeQueue : Circular 32 ℕ

/-- `TcpThread`: the resources the channels of one worker share. -/
structure TcpThread where
  /-- `io_ring_`. -/
  ioRing : IoRing
  /-- `buf_ring_`. -/
  bufRing : BufRing
  /-- `buf_pool_`. -/
  bufPool : BufPool
  /-- `tcp_channel_pool_`. -/
  channelPool : TcpChannelPool
  /-- `pending_reads_`, by the indices of the channels. -/
  pendingReads : List ℕ

namespace TcpChannelPool

/-- `TcpChannelPool::size`. -/
def size (pool : TcpChannelPool) : ℕ := 2 ^ pool.bits

/-- The indices in the free queue, in the order in which they will be acquired. -/
def freeList (pool : TcpChannelPool) : List ℕ := pool.freeQueue.toList pool.bits

/-- The first half of `TcpChannelPool::acquire`, which takes an index; `none` stands for the
null pointer. -/
def acquire (pool : TcpChannelPool) : Option (ℕ × TcpChannelPool) :=
  if pool.freeQueue.head = pool.freeQueue.tail then
    none
  else
    some (pool.freeQueue.front pool.bits, { pool with freeQueue := pool.freeQueue.pop })

/-- `TcpChannelPool::release` of the channel `ch` with index `c`. -/
def release (pool : TcpChannelPool) (c : ℕ) (ch : TcpChannel) : Option TcpChannelPool :=
  if ch.fd = -1 then
    some { pool with freeQueue := pool.freeQueue.push pool.bits c }
  else
    none

end TcpChannelPool

/-- The thread after `io_uring_get_sqe` returned null. -/
def TcpThread.getSqeFailed (th : TcpThread) : TcpThread := { th with ioRing := th.ioRing.fail }

namespace TcpChannel

/-- `TcpChannel::has_in_flight`. -/
def hasInFlight (ch : TcpChannel) : Bool := 0 < ch.inFlight

/-- `TcpChannel::is_closing`. -/
def isClosing (ch : TcpChannel) : Bool := ch.notifyToken.closed

/-! ### `tcp_write_loop` -/

/-- The end of `tcp_write_loop` after a `break`. -/
def finishWrite (ch : TcpChannel) (th : TcpThread) : Option (TcpChannel × TcpThread) :=
  (ch.writeBuf.reset th.bufPool).map (fun (writeBuf, bufPool) =>
    ({ ch with writeBuf := writeBuf, writeCo := .finished }, { th with bufPool := bufPool }))

/-- The body of `tcp_write_loop` from behind the `co_await` of `notify_token_` to the
`co_await` of the token; `some none` stands for `continue`. -/
def writePass (c : ℕ) (ch : TcpChannel) (th : TcpThread) :
    Option (Option (TcpChannel × TcpThread)) :=
  if ch.isClosing && !ch.hasInFlight then
    (ch.finishWrite th).map some
  else
    let (count, submittedBytes, writeBuf) := ch.writeBuf.peekIovec th.bufPool
    if count = 0 then
      some none
    else
      match th.ioRing.prep ⟨.writev ch.fd count, .write c⟩ with
      | none =>
          some (some ({ ch with writeBuf := writeBuf, writeCo := .finished }, th.getSqeFailed))
      | some ioRing =>
          some (some (
            { ch with
              writeBuf := writeBuf
              inFlight := ch.inFlight + 1
              writeCo := .onToken submittedBytes },
            { th with ioRing := ioRing }))

/-- `tcp_write_loop` from the top of its loop.  With data in the send queue a `continue`
would make the loop spin; `none` stands for that. -/
def writeLoop (c : ℕ) (ch : TcpChannel) (th : TcpThread) : Option (TcpChannel × TcpThread) :=
  if ch.writeBuf.hasSendData then
    (ch.writePass c th).join
  else if ch.notifyToken.pending then
    let ch := { ch with notifyToken := { ch.notifyToken with pending := false } }
    match ch.writePass c th with
    | none => none
    | some (some r) => some r
    | some none => writeLoop c ch th
  else
    some ({ ch with
      notifyToken := { ch.notifyToken with handle := true }
      writeCo := .onNotify }, th)
termination_by ch.notifyToken.pending.toNat
decreasing_by
  simp_all

/-- `tcp_write_loop` after the coroutine was resumed from `notify_token_`. -/
def resumeNotified (c : ℕ) (ch : TcpChannel) (th : TcpThread) :
    Option (TcpChannel × TcpThread) :=
  match ch.writePass c th with
  | none => none
  | some (some r) => some r
  | some none => ch.writeLoop c th

/-! ### `NotifyToken` and the count of SQEs in flight -/

/-- `NotifyToken::notify` of `notify_token_`. -/
def notify (c : ℕ) (ch : TcpChannel) (th : TcpThread) : Option (TcpChannel × TcpThread) :=
  if ch.notifyToken.handle then
    resumeNotified c
      { ch with notifyToken := { ch.notifyToken with handle := false }, writeCo := .running } th
  else
    some ({ ch with notifyToken := { ch.notifyToken with pending := true } }, th)

/-- `NotifyToken::notify_close` of `notify_token_`. -/
def notifyClose (c : ℕ) (ch : TcpChannel) (th : TcpThread) : Option (TcpChannel × TcpThread) :=
  notify c { ch with notifyToken := { ch.notifyToken with closed := true } } th

/-- `TcpChannel::on_drained`. -/
def onDrained (c : ℕ) (ch : TcpChannel) (th : TcpThread) : Option (TcpChannel × TcpThread) :=
  if ch.isClosing then do
    let (ch, th) ← ch.notify c th
    let pool ← th.channelPool.release c ch
    return (ch, { th with channelPool := pool })
  else
    some (ch, th)

/-- `TcpChannel::in_flight_dec`. -/
def inFlightDec (c : ℕ) (ch : TcpChannel) (th : TcpThread) : Option (TcpChannel × TcpThread) :=
  let ch := { ch with inFlight := ch.inFlight - 1 }
  if ch.inFlight = 0 then
    ch.onDrained c th
  else
    some (ch, th)

/-- `TcpChannel::close`. -/
def close (c : ℕ) (ch : TcpChannel) (th : TcpThread) : Option (TcpChannel × TcpThread) :=
  (ch.notifyClose c th).map (fun (ch, th) => ({ ch with fd := -1 }, th))

/-- `if (!is_closing()) close()`, at the end of both coroutines. -/
def closeOnce (c : ℕ) (ch : TcpChannel) (th : TcpThread) : Option (TcpChannel × TcpThread) :=
  if ch.isClosing then some (ch, th) else ch.close c th

/-! ### The coroutines after a completion -/

/-- The start of `tcp_read_loop`. -/
def startRead (c : ℕ) (ch : TcpChannel) (th : TcpThread) : TcpChannel × TcpThread :=
  match th.ioRing.prep ⟨.multishotRecv ch.fd, .read c⟩ with
  | none => ({ ch with readCo := .finished }, th.getSqeFailed)
  | some ioRing =>
      ({ ch with inFlight := ch.inFlight + 1, readCo := .awaiting }, { th with ioRing := ioRing })

/-- `TcpThread::mark_pending_read`. -/
def markPendingRead (c : ℕ) (ch : TcpChannel) (th : TcpThread) : TcpChannel × TcpThread :=
  if ch.inPendingReads then
    (ch, th)
  else
    ({ ch with inPendingReads := true }, { th with pendingReads := th.pendingReads ++ [c] })

/-- The end of a pass of `tcp_read_loop`: the size of the received data is recorded, its
buffer is queued, and the coroutine suspends on its token again. -/
def pushReceived (c : ℕ) (ch : TcpChannel) (th : TcpThread) (idx size : ℕ) :
    TcpChannel × TcpThread :=
  let bufRing := th.bufRing.setDataSize idx size
  let readBuf := { ch.readBuf with
    toReadBufBase := (ch.readBuf.pushBuf bufRing idx).2 }
  markPendingRead c { ch with readBuf := readBuf, readCo := .awaiting }
    { th with bufRing := bufRing }

/-- `tcp_read_loop` after a completion with result `res`, flag `more` and buffer `idx`, up to
the next `co_await` or up to the callback `on_close`, which the flag tells. -/
def resumeRead (c : ℕ) (ch : TcpChannel) (th : TcpThread) (res : Int) (more : Bool) (idx : ℕ) :
    Option (TcpChannel × TcpThread × Bool) := do
  let (ch, th) ← inFlightDec c { ch with readCo := .running } th
  if res ≤ 0 then
    return (ch, th, true)
  else if more then
    let (ch, th) := ch.pushReceived c th idx res.toNat
    return (ch, th, false)
  else
    match th.ioRing.prep ⟨.multishotRecv ch.fd, .read c⟩ with
    | none => return ({ ch with readCo := .finished }, th.getSqeFailed, false)
    | some ioRing =>
        let (ch, th) := pushReceived c { ch with inFlight := ch.inFlight + 1 }
          { th with ioRing := ioRing } idx res.toNat
        return (ch, th, false)

/-- `tcp_read_loop` after the callback `on_close` returned. -/
def afterOnClose (c : ℕ) (ch : TcpChannel) (th : TcpThread) :
    Option (TcpChannel × TcpThread) := do
  let (ch, th) ← ch.closeOnce c th
  let (readBuf, bufRing) ← ch.readBuf.reset th.bufRing
  return ({ ch with readBuf := readBuf, readCo := .finished }, { th with bufRing := bufRing })

/-- `tcp_write_loop` after a completion with result `res`, up to its end or up to the
callback `on_write`, which the flag tells. -/
def resumeWrite (c : ℕ) (ch : TcpChannel) (th : TcpThread) (submittedBytes : ℕ) (res : Int) :
    Option (TcpChannel × TcpThread × Bool) := do
  let (ch, th) ← inFlightDec c { ch with writeCo := .running } th
  if res ≤ 0 then
    let (ch, th) ← ch.closeOnce c th
    let (ch, th) ← ch.finishWrite th
    return (ch, th, false)
  else if submittedBytes < res.toNat then
    none
  else
    let (writeBuf, bufPool) ← ch.writeBuf.consumeWritten th.bufPool res.toNat
    return ({ ch with writeBuf := writeBuf }, { th with bufPool := bufPool }, true)

/-- `TcpChannel::assign` up to the callback `on_accept`. -/
def assign (c : ℕ) (ch : TcpChannel) (th : TcpThread) (fd : Int) :
    Option (TcpChannel × TcpThread) :=
  let (ch, th) := startRead c { ch with fd := fd, notifyToken := {} } th
  writeLoop c { ch with writeCo := .running } th

end TcpChannel

end Proactor
