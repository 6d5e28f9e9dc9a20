import UringProactor.Buffer.BufPool

/-!
# Write buffers

`WriteBufBase` holds two circular queues of block indices: the pending window, which
`append` extends behind and `prepend` in front, and the send queue, to which
`WriteBufStream::submit` moves the pending window.  `WriteBufStream` adds the offset of the
first unacknowledged byte in the head block of the send queue and the array of iovecs.  The
operations take the buffer and the `BufPool` it points to and return both; `none` stands
for a failed assertion.
-/

namespace Proactor

/-- `WriteBufBase` without the pointer to its pool.  `capacity_` is `2 ^ bits`. -/
structure WriteBufBase where
  /-- `capacity_` is `2 ^ bits`, a positive `int`, and `mask_` is `2 ^ bits - 1`. -/
  bits : ℕ
  bits_le : bits ≤ 30
  /-- `pending_bufs_` with `pending_head_` and `pending_tail_`. -/
  pending : Circular 64 ℕ
  /-- `send_queue_` with `send_head_` and `send_tail_`. -/
  send : Circular 64 ℕ

/-- `iovec`, with `iov_base` as an offset from `BufPool::bufs_`. -/
structure IoVec where
  base : ℕ
  len : ℕ
deriving DecidableEq

/-- `WriteBufStream`. -/
structure WriteBufStream extends WriteBufBase where
  /-- `send_head_offset_`. -/
  sendHeadOffset : ℕ
  /-- The array `iovec_`. -/
  iovec : List IoVec

namespace WriteBufBase

/-- `capacity_`. -/
def capacity (b : WriteBufBase) : ℕ := 2 ^ b.bits

/-- The pending block indices, in order. -/
def pendingList (b : WriteBufBase) : List ℕ := b.pending.toList b.bits

/-- The block indices of the send queue, in order. -/
def sendList (b : WriteBufBase) : List ℕ := b.send.toList b.bits

/-- The loop `while (head != tail) release(queue[head++ & mask_])` over a queue. -/
def releaseFront (k : ℕ) (q : Circular 64 ℕ) (p : BufPool) :
    Option (Circular 64 ℕ × BufPool) :=
  if q.head = q.tail then
    some (q, p)
  else
    (p.release (q.front k)).bind (fun p => releaseFront k q.pop p)
termination_by q.size
decreasing_by
  apply Circular.size_pop_lt ‹_›

/-- `WriteBufBase::discard_pending`. -/
def discardPending (b : WriteBufBase) (p : BufPool) : Option (WriteBufBase × BufPool) := do
  let (q, p) ← releaseFront b.bits b.pending p
  return ({ b with pending := { q with head := 0, tail := 0 } }, p)

/-! ### `append` -/

/-- The undo loop of `append`:
`while (pending_tail_ != original_tail) release(pending_bufs_[--pending_tail_ & mask_])`. -/
def releaseBack (k : ℕ) (originalTail : BitVec 64) (q : Circular 64 ℕ) (p : BufPool) :
    Option (Circular 64 ℕ × BufPool) :=
  if q.tail = originalTail then
    some (q, p)
  else
    (p.release (q.back k)).bind (fun p => releaseBack k originalTail q.popBack p)
termination_by (q.tail - originalTail).toNat
decreasing_by
  change (q.tail - 1 - originalTail).toNat < _
  bv_omega

/-- The failure path of `append`: give the last block its old size back, unless `append`
started from an empty window, and release the blocks taken. -/
def undoAppend (b : WriteBufBase) (originalTail : BitVec 64) (wasEmpty : Bool)
    (originalTailSize : ℕ) (p : BufPool) : Option (Bool × WriteBufBase × BufPool) := do
  let p :=
    if wasEmpty then p
    else p.setDataSize (b.pending.get b.bits (originalTail - 1)) originalTailSize
  let (q, p) ← releaseBack b.bits originalTail b.pending p
  return (false, { b with pending := q }, p)

/-- One pass of the copy in the loop of `append`: the bytes that fit in the last pending
block are copied behind its data. -/
def fillTail (b : WriteBufBase) (p : BufPool) (data : List UInt8) : ℕ × BufPool :=
  let idx := b.pending.back b.bits
  let currentSize := p.dataSize idx
  let writable := u32Sub p.bufSize currentSize
  let toCopy := min writable data.length
  if 0 < toCopy then
    (toCopy, (p.copy (p.bufAddr idx + currentSize) (data.take toCopy)).setDataSize idx
      (currentSize + toCopy))
  else
    (toCopy, p)

theorem bits_lt (b : WriteBufBase) :
  b.bits < 64
  := by
  have := b.bits_le
  omega

/-- Pushing a block leaves less room. -/
theorem room_push (b : WriteBufBase) {idx : ℕ} (h : ¬ b.capacity ≤ b.pending.size) :
  b.capacity - (b.pending.push b.bits idx).size < b.capacity - b.pending.size
  := by
  have hsize : b.pending.size < b.capacity := by omega
  rw [Circular.size_push b.bits_lt hsize]
  omega

/-- The loop `while (size > 0)` of `append`. -/
def appendLoop (originalTail : BitVec 64) (wasEmpty : Bool) (originalTailSize : ℕ)
    (b : WriteBufBase) (p : BufPool) (data : List UInt8) :
    Option (Bool × WriteBufBase × BufPool) :=
  if data = [] then
    some (true, b, p)
  else
    let (toCopy, p) := b.fillTail p data
    let rest := data.drop toCopy
    if rest = [] then
      some (true, b, p)
    else if b.capacity ≤ b.pending.size then
      b.undoAppend originalTail wasEmpty originalTailSize p
    else
      match p.acquire with
      | none => b.undoAppend originalTail wasEmpty originalTailSize p
      | some (idx, p) =>
          appendLoop originalTail wasEmpty originalTailSize
            { b with pending := b.pending.push b.bits idx } p rest
termination_by b.capacity - b.pending.size
decreasing_by
  apply b.room_push ‹¬ b.capacity ≤ b.pending.size›

/-- `WriteBufBase::append`. -/
def append (b : WriteBufBase) (p : BufPool) (data : List UInt8) :
    Option (Bool × WriteBufBase × BufPool) :=
  if b.pending.head = b.pending.tail then
    match p.acquire with
    | none => some (false, b, p)
    | some (idx, p) =>
        appendLoop b.pending.tail true 0 { b with pending := b.pending.push b.bits idx } p data
  else
    appendLoop b.pending.tail false (p.dataSize (b.pending.back b.bits)) b p data

/-! ### `prepend` -/

/-- The undo loop of `prepend`: `for (j = new_head; j != i; ++j) release(pending_bufs_[j & mask_])`. -/
def releaseRange (k : ℕ) (q : Circular 64 ℕ) (j i : BitVec 64) (p : BufPool) : Option BufPool :=
  if j = i then
    some p
  else
    (p.release (q.get k j)).bind (fun p => releaseRange k q (j + 1) i p)
termination_by (i - j).toNat
decreasing_by
  bv_omega

/-- The loop `for (i = new_head; i != pending_head_; ++i)` of `prepend`. -/
def prependLoop (newHead : BitVec 64) (b : WriteBufBase) (i : BitVec 64) (p : BufPool)
    (data : List UInt8) : Option (Bool × WriteBufBase × BufPool) :=
  if i = b.pending.head then
    some (true, { b with pending := { b.pending with head := newHead } }, p)
  else
    match p.acquire with
    | none => (releaseRange b.bits b.pending newHead i p).map (fun p => (false, b, p))
    | some (idx, p) =>
        let toCopy := min data.length p.bufSize
        let p := (p.copy (p.bufAddr idx) (data.take toCopy)).setDataSize idx toCopy
        prependLoop newHead { b with pending := b.pending.set b.bits i idx } (i + 1) p
          (data.drop toCopy)
termination_by (b.pending.head - i).toNat
decreasing_by
  change (b.pending.head - (i + 1)).toNat < _
  bv_omega

/-- `WriteBufBase::prepend`; the number of blocks is computed in unsigned arithmetic. -/
def prepend (b : WriteBufBase) (p : BufPool) (data : List UInt8) :
    Option (Bool × WriteBufBase × BufPool) :=
  let blockToWrite := u32 (data.length + p.bufSize - 1) / p.bufSize
  let pendingCount := b.pending.size
  if b.capacity - pendingCount < blockToWrite then
    some (false, b, p)
  else
    let newHead := b.pending.head - BitVec.ofNat 64 blockToWrite
    prependLoop newHead b newHead p data

/-! ### The send queue -/

/-- The failure path of `append` is about the pending window. -/
theorem sendList_undoAppend {b b' : WriteBufBase} {originalTail : BitVec 64} {wasEmpty ok : Bool}
    {originalTailSize : ℕ} {p p' : BufPool}
    (h : b.undoAppend originalTail wasEmpty originalTailSize p = some (ok, b', p')) :
  b'.sendList = b.sendList
  := by
  obtain ⟨⟨q, p₁⟩, -, heq⟩ := Option.bind_eq_some_iff.mp h
  cases heq
  rfl

theorem sendList_appendLoop {b b' : WriteBufBase} {originalTail : BitVec 64} {wasEmpty ok : Bool}
    {originalTailSize : ℕ} {p p' : BufPool} {data : List UInt8}
    (h : appendLoop originalTail wasEmpty originalTailSize b p data = some (ok, b', p')) :
  b'.sendList = b.sendList
  := by
  fun_induction appendLoop originalTail wasEmpty originalTailSize b p data with
  | case1 =>
      cases h
      rfl
  | case2 =>
      cases h
      rfl
  | case3 => exact sendList_undoAppend h
  | case4 => exact sendList_undoAppend h
  | case5 =>
      rename_i ih
      exact ih h

/-- `append` leaves the send queue as it is. -/
theorem sendList_append {b b' : WriteBufBase} {p p' : BufPool} {data : List UInt8} {ok : Bool}
    (h : b.append p data = some (ok, b', p')) :
  b'.sendList = b.sendList
  := by
  rw [append] at h
  split at h
  case isTrue =>
    split at h
    case h_1 =>
      cases h
      rfl
    case h_2 =>
      have hloop := sendList_appendLoop h
      exact hloop
  case isFalse => exact sendList_appendLoop h

theorem sendList_prependLoop {b b' : WriteBufBase} {newHead i : BitVec 64} {p p' : BufPool}
    {data : List UInt8} {ok : Bool} (h : prependLoop newHead b i p data = some (ok, b', p')) :
  b'.sendList = b.sendList
  := by
  fun_induction prependLoop newHead b i p data with
  | case1 =>
      cases h
      rfl
  | case2 =>
      obtain ⟨_, -, heq⟩ := Option.map_eq_some_iff.mp h
      cases heq
      rfl
  | case3 =>
      rename_i ih
      exact ih h

/-- `prepend` leaves the send queue as it is. -/
theorem sendList_prepend {b b' : WriteBufBase} {p p' : BufPool} {data : List UInt8} {ok : Bool}
    (h : b.prepend p data = some (ok, b', p')) :
  b'.sendList = b.sendList
  := by
  rw [prepend] at h
  dsimp only at h
  split at h
  case isTrue =>
    cases h
    rfl
  case isFalse => exact sendList_prependLoop h

end WriteBufBase

namespace WriteBufStream

/-- The loop of `submit`:
`while (pending_head_ != pending_tail_) send_queue_[send_tail_++ & mask_] = pending_bufs_[pending_head_++ & mask_]`. -/
def moveToSend (k : ℕ) (pending send : Circular 64 ℕ) : Circular 64 ℕ × Circular 64 ℕ :=
  if pending.head = pending.tail then
    (pending, send)
  else
    moveToSend k pending.pop (send.push k (pending.front k))
termination_by pending.size
decreasing_by
  apply Circular.size_pop_lt ‹_›

/-- `WriteBufStream::submit`. -/
def submit (s : WriteBufStream) : Bool × WriteBufStream :=
  if s.pending.size = 0 then
    (false, s)
  else if s.capacity - s.send.size < s.pending.size then
    (false, s)
  else
    let (pending, send) := moveToSend s.bits s.pending s.send
    (true, { s with pending := pending, send := send })

/-- `WriteBufStream::has_send_data`. -/
def hasSendData (s : WriteBufStream) : Bool := s.send.head ≠ s.send.tail

/-- The iovecs of the first blocks of a list, the first of them from the given offset. -/
def iovecs (p : BufPool) : ℕ → List ℕ → List IoVec
  | _, [] => []
  | offset, idx :: idxs =>
      ⟨p.bufAddr idx + offset, u32Sub (p.dataSize idx) offset⟩ :: iovecs p 0 idxs

/-- `WriteBufStream::peek_iovec`: the number of iovecs, their total length, and the buffer
with the array `iovec_` filled in. -/
def peekIovec (s : WriteBufStream) (p : BufPool) : ℕ × ℕ × WriteBufStream :=
  let count := (BitVec.ofNat 32 s.send.size).toInt
  if count ≤ 0 then
    (0, 0, s)
  else
    let vecs := iovecs p s.sendHeadOffset (s.send.window s.bits s.send.head count.toNat)
    let bytes := vecs.foldl (fun bytes v => u32 (bytes + v.len)) 0
    (count.toNat, bytes, { s with iovec := vecs ++ s.iovec.drop count.toNat })

/-- `WriteBufStream::consume_written`. -/
def consumeWritten (s : WriteBufStream) (p : BufPool) (bytes : ℕ) :
    Option (WriteBufStream × BufPool) :=
  if bytes = 0 then
    some (s, p)
  else if s.send.head = s.send.tail then
    none
  else
    let idx := s.send.front s.bits
    let remaining := u32Sub (p.dataSize idx) s.sendHeadOffset
    if bytes < remaining then
      some ({ s with sendHeadOffset := u32 (s.sendHeadOffset + bytes) }, p)
    else
      (p.release idx).bind (fun p =>
        consumeWritten { s with send := s.send.pop, sendHeadOffset := 0 } p (bytes - remaining))
termination_by s.send.size
decreasing_by
  have hne : s.send.size ≠ 0 := mt s.send.size_eq_zero_iff.mp ‹_›
  change s.send.pop.size < _
  rw [Circular.size_pop (n := s.send.size - 1) (by omega)]
  omega

/-- `WriteBufStream::reset`. -/
def reset (s : WriteBufStream) (p : BufPool) : Option (WriteBufStream × BufPool) := do
  let (send, p) ← WriteBufBase.releaseFront s.bits s.send p
  let (pending, p) ← WriteBufBase.releaseFront s.bits s.pending p
  return ({ s with
    pending := { pending with head := 0, tail := 0 }
    send := { send with head := 0, tail := 0 }
    sendHeadOffset := 0 }, p)

end WriteBufStream

end Proactor
