import UringProactor.Core.BufRing
import UringProactor.Prelude.Circular

/-!
# Read buffers

`ReadBufBase` queues the indices of the buffers a connection has received.
`ReadBufStream` reads them as one stream of bytes: `peek` describes the first bytes by
segments, and `consume` drops bytes and releases the buffers they leave.  `ReadBufDgram`
reads them one packet at a time.  The operations take the buffer and the `BufRing` it points
to; `none` stands for a read past the tail of the queue, where the array holds no buffer.
-/

namespace Proactor

/-- One entry of `PeekResult`, with the pointer as an offset from `BufRing::bufs_`. -/
structure Segment where
  data : ℕ
  size : ℕ
deriving DecidableEq

/-- `ReadBufBase` without the pointer to its ring.  `capacity_` is `2 ^ bits`. -/
structure ReadBufBase where
  /-- `capacity_` is `2 ^ bits`, and `mask_` is `2 ^ bits - 1`. -/
  bits : ℕ
  bits_le : bits ≤ 30
  /-- `buf_queue_` with `head_` and `tail_`. -/
  queue : Circular 32 ℕ
  /-- `readable_bytes_`. -/
  readableBytes : ℕ
  /-- `peek_result_`. -/
  peekResult : List Segment

/-- `ReadBufStream`. -/
structure ReadBufStream extends ReadBufBase where
  /-- `head_offset_`. -/
  headOffset : ℕ

/-- `ReadBufDgram`, without the message header it passes to the kernel. -/
structure ReadBufDgram extends ReadBufBase

namespace ReadBufBase

/-- `capacity_`. -/
def capacity (b : ReadBufBase) : ℕ := 2 ^ b.bits

/-- The queued buffer indices, in order. -/
def queueList (b : ReadBufBase) : List ℕ := b.queue.toList b.bits

/-- `ReadBufBase::ReadBufBase`. -/
def new (r : BufRing) : ReadBufBase := ⟨r.bits, r.bits_le, ⟨fun _ => 0, 0, 0⟩, 0, []⟩

/-- `ReadBufBase::push_buf`. -/
def pushBuf (b : ReadBufBase) (r : BufRing) (idx : ℕ) : Bool × ReadBufBase :=
  if b.capacity ≤ b.queue.size then
    (false, b)
  else
    (true, { b with
      queue := b.queue.push b.bits idx
      readableBytes := u32 (b.readableBytes + r.dataSize idx) })

theorem bits_lt (b : ReadBufBase) :
  b.bits < 32
  := by
  have := b.bits_le
  omega

end ReadBufBase

namespace ReadBufStream

/-- The loop `for (i = head_; i < tail_ && size > 0; ++i)` of `peek`. -/
def peekLoop (s : ReadBufStream) (r : BufRing) (i : BitVec 32) (size : ℕ) : List Segment :=
  if i < s.queue.tail ∧ 0 < size then
    let idx := s.queue.get s.bits i
    let offset := if i = s.queue.head then s.headOffset else 0
    let blockReadable := u32Sub (r.dataSize idx) offset
    let blockReadable := if size < blockReadable then size else blockReadable
    ⟨r.bufAddr idx + offset, blockReadable⟩ :: s.peekLoop r (i + 1) (size - blockReadable)
  else
    []
termination_by (s.queue.tail - i).toNat
decreasing_by
  have hlt := ‹i < s.queue.tail ∧ 0 < size›.1
  bv_omega

/-- `ReadBufStream::peek`; `none` stands for the null pointer. -/
def peek (s : ReadBufStream) (r : BufRing) (size : ℕ) : Option (List Segment) × ReadBufStream :=
  if s.readableBytes < size then
    (none, s)
  else
    let segments := s.peekLoop r s.queue.head size
    (some segments, { s with peekResult := segments })

/-- The loop `while (size > 0)` of `consume`. -/
def consumeLoop (s : ReadBufStream) (r : BufRing) (size : ℕ) : Option (ReadBufStream × BufRing) :=
  if size = 0 then
    some (s, r)
  else if s.queue.head = s.queue.tail then
    none
  else
    let idx := s.queue.front s.bits
    let avail := u32Sub (r.dataSize idx) s.headOffset
    if size < avail then
      some ({ s with headOffset := u32 (s.headOffset + size) }, r)
    else
      consumeLoop { s with queue := s.queue.pop, headOffset := 0 } (r.release idx) (size - avail)
termination_by s.queue.size
decreasing_by
  apply Circular.size_pop_lt ‹¬ s.queue.head = s.queue.tail›

/-- `ReadBufStream::consume`. -/
def consume (s : ReadBufStream) (r : BufRing) (size : ℕ) :
    Option (Bool × ReadBufStream × BufRing) :=
  if s.readableBytes < size then
    some (false, s, r)
  else
    (consumeLoop { s with readableBytes := s.readableBytes - size } r size).map (fun (s, r) =>
      (true, s, r))

/-- `ReadBufStream::reset`. -/
def reset (s : ReadBufStream) (r : BufRing) : Option (ReadBufStream × BufRing) :=
  (s.consume r s.readableBytes).map (fun (_, s, r) =>
    ({ s with headOffset := 0, queue := { s.queue with head := 0, tail := 0 } }, r))

end ReadBufStream

namespace ReadBufDgram

/-- `ReadBufDgram::consume`. -/
def consume (s : ReadBufDgram) (r : BufRing) : Bool × ReadBufDgram × BufRing :=
  if s.queue.head = s.queue.tail then
    (false, s, r)
  else
    let idx := s.queue.front s.bits
    (true,
      { s with
        queue := s.queue.pop
        readableBytes := u32Sub s.readableBytes (r.dataSize idx) },
      r.release idx)

end ReadBufDgram

end Proactor
