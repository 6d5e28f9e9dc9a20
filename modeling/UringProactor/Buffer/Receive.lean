import UringProactor.Buffer.ReadBuf

/-!
# What the read buffers do

`unread s r` are the bytes a stream has received and not consumed.  Receiving a buffer puts
its bytes behind them, and `consume` drops bytes from their front and releases the buffers
they leave.  Every operation is an exchange of buffers with the ring, which leaves the
buffers of other connections as they are.
-/

namespace Proactor

/-- The ring `r'` and the queue `q'` hold together the buffers that `r` and `q` held, and a
buffer that is in neither ring keeps its size and its bytes. -/
structure RingExchange (r : BufRing) (q : List ℕ) (r' : BufRing) (q' : List ℕ) : Prop where
  bits : r'.bits = r.bits
  bufSize : r'.bufSize = r.bufSize
  perm : (r'.ring ++ q').Perm (r.ring ++ q)
  size_le : ∀ i, r'.dataSize i ≤ r.bufSize
  frame_size : ∀ i, i ∉ r.ring → i ∉ r'.ring → r'.dataSize i = r.dataSize i
  frame_block : ∀ i < r.bufNum, i ∉ r.ring → i ∉ r'.ring → r'.block i = r.block i

/-- Releasing buffers of the queue is an exchange. -/
theorem RingExchange.of_released {r r' : BufRing} {q q' R : List ℕ} (h : r.Released r' R)
    (hq : (R ++ q').Perm q) (hsize : ∀ i, r.dataSize i ≤ r.bufSize) :
  RingExchange r q r' q'
  := by
  have hnot : ∀ i, i ∉ r'.ring → i ∉ R := by
    intro i hi hR
    apply hi
    rw [h.ring]
    apply List.mem_append_right _ hR
  constructor
  · apply h.bits
  · apply h.bufSize
  · rw [h.ring, List.append_assoc]
    apply hq.append_left
  · intro i
    rw [h.dataSize]
    split
    · apply Nat.zero_le
    · apply hsize
  · intro i _ hi
    rw [h.dataSize, if_neg (hnot i hi)]
  · intro i _ _ hi
    apply h.block_eq (hnot i hi)

namespace ReadBufBase

/-- The ring and the queue hold different buffers of the ring, and no buffer is overfull. -/
structure Sound (b : ReadBufBase) (r : BufRing) : Prop where
  bits : b.bits = r.bits
  nodup : (r.ring ++ b.queueList).Nodup
  lt : ∀ i ∈ r.ring ++ b.queueList, i < r.bufNum
  size_le : ∀ i, r.dataSize i ≤ r.bufSize

variable {b b' : ReadBufBase} {r r' : BufRing}

theorem length_queueList (b : ReadBufBase) :
  b.queueList.length = b.queue.size
  := Circular.length_toList _

/-- A queued buffer is a buffer of the ring that the kernel has taken. -/
theorem Sound.of_mem (h : Sound b r) {i : ℕ} (hi : i ∈ b.queueList) :
  i < r.bufNum ∧ i ∉ r.ring
  := by
  constructor
  · apply h.lt i (List.mem_append_right _ hi)
  · intro hring
    apply List.disjoint_of_nodup_append h.nodup hring hi

/-- An exchange with the ring keeps the buffer sound. -/
theorem Sound.exchange (h : Sound b r) (hbits : b'.bits = b.bits)
    (he : RingExchange r b.queueList r' b'.queueList) :
  Sound b' r'
  := by
  constructor
  · rw [hbits, h.bits, he.bits]
  · apply he.perm.nodup_iff.mpr h.nodup
  · intro i hi
    rw [BufRing.bufNum, he.bits]
    apply h.lt i (he.perm.mem_iff.mp hi)
  · intro i
    rw [he.bufSize]
    apply he.size_le

/-- As long as the ring has a buffer, the queue has room. -/
theorem Sound.size_lt (h : Sound b r) {i : ℕ} (hi : i ∈ r.ring) :
  b.queue.size < b.capacity
  := by
  have hlen : (i :: b.queueList).length ≤ r.bufNum := by
    apply Ownership.length_le_of_nodup
    · apply List.nodup_cons.mpr
      constructor
      · apply List.disjoint_of_nodup_append h.nodup hi
      · apply List.Nodup.of_append_right h.nodup
    · intro j hj
      apply h.lt
      rcases List.mem_cons.mp hj with rfl | hj
      · apply List.mem_append_left _ hi
      · apply List.mem_append_right _ hj
  rw [List.length_cons, length_queueList, BufRing.bufNum, ← h.bits] at hlen
  exact hlen

/-- Filling a buffer of the ring and queueing it is an exchange. -/
theorem Sound.fill_exchange (h : Sound b r) {idx : ℕ} {data : List UInt8} (hidx : idx ∈ r.ring)
    (hfit : data.length ≤ r.bufSize) :
  RingExchange r b.queueList ((r.fill idx data).setDataSize idx data.length)
    (b.queueList ++ [idx])
  := by
  have hne : ∀ i, i ∉ r.ring → i ≠ idx := by
    rintro i hi rfl
    apply hi hidx
  constructor
  · rfl
  · rfl
  · change (r.ring.erase idx ++ (b.queueList ++ [idx])).Perm _
    apply List.Perm.trans _ ((List.perm_cons_erase hidx).symm.append_right _)
    rw [← List.append_assoc]
    apply List.perm_append_singleton
  · intro i
    change Function.update r.dataSize idx _ i ≤ _
    rw [Function.update_apply]
    split
    · apply hfit
    · apply h.size_le
  · intro i hi _
    change Function.update r.dataSize idx _ i = _
    rw [Function.update_of_ne (hne i hi)]
  · intro i hlt hi _
    apply BufRing.block_fill_of_ne _ hlt (hne i hi) hfit (h.size_le i)
    apply h.lt idx (List.mem_append_left _ hidx)

/-- As long as the ring has a buffer, `push_buf` queues it. -/
theorem Sound.pushBuf_eq (h : Sound b r) {idx : ℕ} (hidx : idx ∈ r.ring) (r' : BufRing) :
  ∃ b', b.pushBuf r' idx = (true, b') ∧ b'.bits = b.bits
    ∧ b'.queue.head = b.queue.head ∧ b'.queue.tail = b.queue.tail + 1
    ∧ b'.queueList = b.queueList ++ [idx]
    ∧ b'.readableBytes = u32 (b.readableBytes + r'.dataSize idx)
  := by
  have hlt := h.size_lt hidx
  refine ⟨_, if_neg (Nat.not_le_of_lt hlt), rfl, rfl, rfl, ?_, rfl⟩
  apply Circular.toList_push b.bits_lt idx hlt

end ReadBufBase

namespace ReadBufStream

/-- The bytes the stream has received and not consumed. -/
def unread (s : ReadBufStream) (r : BufRing) : List UInt8 :=
  (r.content s.queueList).drop s.headOffset

/-- The buffer is sound with the ring, queued buffers are not empty, and the offset lies in
the first of them. -/
structure Reads (s : ReadBufStream) (r : BufRing) : Prop
    extends ReadBufBase.Sound s.toReadBufBase r where
  size_pos : ∀ i ∈ s.queueList, 0 < r.dataSize i
  offset_lt : s.headOffset < (s.queueList.head?.map r.dataSize).getD 1

/-- Besides, `readable_bytes_` is the number of unread bytes. -/
structure Sound (s : ReadBufStream) (r : BufRing) : Prop extends Reads s r where
  readable : s.readableBytes = (s.unread r).length

variable {s s' : ReadBufStream} {r r' : BufRing}

/-- The queued buffers hold fewer than `2 ^ 31` bytes. -/
theorem Reads.length_content_lt (h : Reads s r) :
  (r.content s.queueList).length < 2 ^ 31
  := by
  have hnum : s.queueList.length ≤ r.bufNum := by
    apply Ownership.length_le_of_nodup (List.Nodup.of_append_right h.nodup)
    intro i hi
    apply (h.of_mem hi).1
  calc (r.content s.queueList).length
      _ ≤ s.queueList.length * r.bufSize := by
        apply Ownership.length_flatMap_le
        intro i _
        rw [BufRing.length_block]
        apply h.size_le
      _ ≤ r.bufNum * r.bufSize := Nat.mul_le_mul_right _ hnum
      _ < 2 ^ 31 := r.alloc_lt

/-- There are fewer than `2 ^ 31` unread bytes. -/
theorem Reads.length_unread_lt (h : Reads s r) :
  (s.unread r).length < 2 ^ 31
  := by
  rw [unread, List.length_drop]
  apply Nat.lt_of_le_of_lt (Nat.sub_le _ _) h.length_content_lt

/-- The unread bytes start in the first queued buffer. -/
theorem unread_of_cons {i : ℕ} {l : List ℕ} (hl : s.queueList = i :: l)
    (hle : s.headOffset ≤ r.dataSize i) :
  s.unread r = (r.block i).drop s.headOffset ++ r.content l
  := by
  rw [unread, hl, BufRing.content_cons, List.drop_append_of_le_length]
  rwa [BufRing.length_block]

/-- In a stream with queued buffers the offset lies in the first of them. -/
theorem Reads.offset_lt_of_cons (h : Reads s r) {i : ℕ} {l : List ℕ} (hl : s.queueList = i :: l) :
  s.headOffset < r.dataSize i
  := by
  have := h.offset_lt
  rwa [hl] at this

/-! ### Receiving -/

/-- The offset is at most the length of the queued bytes. -/
theorem Reads.offset_le_length (h : Reads s r) :
  s.headOffset ≤ (r.content s.queueList).length
  := by
  have hlt := h.offset_lt
  cases hl : s.queueList with
  | nil =>
      rw [hl] at hlt
      apply Nat.le_of_lt_succ hlt
  | cons i l =>
      rw [hl] at hlt
      rw [BufRing.content_cons, List.length_append, BufRing.length_block]
      apply (Nat.le_of_lt hlt).trans (Nat.le_add_right _ _)

/-- An exchange that queues one more buffer, which is not empty, keeps the stream readable
and puts the buffer's bytes behind the unread bytes. -/
theorem Reads.push (h : Reads s r) {b' : ReadBufBase} {idx : ℕ} (hbits : b'.bits = s.bits)
    (hqueue : b'.queueList = s.queueList ++ [idx])
    (he : RingExchange r s.queueList r' b'.queueList) (hpos : 0 < r'.dataSize idx) :
  Reads { s with toReadBufBase := b' } r'
    ∧ ({ s with toReadBufBase := b' } : ReadBufStream).unread r' = s.unread r ++ r'.block idx
  := by
  have hs' : b'.Sound r' := h.toSound.exchange hbits he
  have hframe : ∀ i ∈ s.queueList, i < r.bufNum ∧ i ∉ r.ring ∧ i ∉ r'.ring := by
    intro i hi
    obtain ⟨hlt, hring⟩ := h.of_mem hi
    use hlt, hring
    apply (hs'.of_mem _).2
    rw [hqueue]
    apply List.mem_append_left _ hi
  have hsize : ∀ i ∈ s.queueList, r'.dataSize i = r.dataSize i := by
    intro i hi
    obtain ⟨_, hring, hring'⟩ := hframe i hi
    apply he.frame_size i hring hring'
  have hcontent : r'.content s.queueList = r.content s.queueList := by
    apply List.flatMap_congr
    intro i hi
    obtain ⟨hlt, hring, hring'⟩ := hframe i hi
    apply he.frame_block i hlt hring hring'
  constructor
  · refine ⟨hs', ?_, ?_⟩
    · intro i hi
      change i ∈ b'.queueList at hi
      rw [hqueue] at hi
      rcases List.mem_append.mp hi with hi | hi
      · rw [hsize i hi]
        apply h.size_pos i hi
      · rw [List.mem_singleton.mp hi]
        apply hpos
    · change s.headOffset < (b'.queueList.head?.map r'.dataSize).getD 1
      have hlt := h.offset_lt
      rw [hqueue]
      cases hl : s.queueList with
      | nil =>
          rw [hl] at hlt
          apply Nat.lt_of_lt_of_le hlt hpos
      | cons i l =>
          rw [hl] at hlt
          apply Nat.lt_of_lt_of_eq hlt
          apply (hsize i (by rw [hl]; apply List.mem_cons_self)).symm
  · change (r'.content b'.queueList).drop s.headOffset = _
    rw [hqueue, BufRing.content_append, hcontent,
      List.drop_append_of_le_length h.offset_le_length, BufRing.content_cons]
    simp [BufRing.content, unread]

/-- Receiving a buffer puts its bytes behind the unread bytes. -/
theorem Sound.receive (h : Sound s r) {idx : ℕ} {data : List UInt8} (hidx : idx ∈ r.ring)
    (hpos : 0 < data.length) (hfit : data.length ≤ r.bufSize) :
  ∃ b', s.pushBuf ((r.fill idx data).setDataSize idx data.length) idx = (true, b')
    ∧ b'.bits = s.bits ∧ b'.queue.head = s.queue.head ∧ b'.queue.tail = s.queue.tail + 1
    ∧ RingExchange r s.queueList ((r.fill idx data).setDataSize idx data.length) b'.queueList
    ∧ Sound { s with toReadBufBase := b' } ((r.fill idx data).setDataSize idx data.length)
    ∧ ({ s with toReadBufBase := b' } : ReadBufStream).unread
        ((r.fill idx data).setDataSize idx data.length) = s.unread r ++ data
  := by
  have hsize : ((r.fill idx data).setDataSize idx data.length).dataSize idx = data.length :=
    Function.update_self ..
  obtain ⟨b', hpush, hbits, hhead, htail, hqueue, hreadable⟩ := h.toReads.toSound.pushBuf_eq hidx
    ((r.fill idx data).setDataSize idx data.length)
  have he := h.toReads.toSound.fill_exchange hidx hfit
  rw [← hqueue] at he
  obtain ⟨hreads, hunread⟩ := h.toReads.push hbits hqueue he (by rwa [hsize])
  rw [BufRing.block_fill_self] at hunread
  refine ⟨b', hpush, hbits, hhead, htail, he, ⟨hreads, ?_⟩, hunread⟩
  have hlt := hreads.length_unread_lt
  change b'.readableBytes = _
  rw [hunread, List.length_append] at hlt
  rw [hreadable, hsize, hunread, List.length_append, h.readable]
  apply u32_of_lt
  omega

/-! ### Consuming -/

/-- `Consumed s r R s' r'`: the buffers `R` at the head of the queue were released. -/
structure Consumed (s : ReadBufStream) (r : BufRing) (R : List ℕ) (s' : ReadBufStream)
    (r' : BufRing) : Prop where
  bits : s'.bits = s.bits
  readableBytes : s'.readableBytes = s.readableBytes
  peekResult : s'.peekResult = s.peekResult
  tail : s'.queue.tail = s.queue.tail
  queue : s.queueList = R ++ s'.queueList
  released : r.Released r' R

theorem Consumed.trans {s'' : ReadBufStream} {r'' : BufRing} {R R' : List ℕ}
    (hc : Consumed s r R s' r') (hc' : Consumed s' r' R' s'' r'') :
  Consumed s r (R ++ R') s'' r''
  := by
  constructor
  · rw [hc'.bits, hc.bits]
  · rw [hc'.readableBytes, hc.readableBytes]
  · rw [hc'.peekResult, hc.peekResult]
  · rw [hc'.tail, hc.tail]
  · rw [hc.queue, hc'.queue, List.append_assoc]
  · apply hc.released.trans hc'.released

theorem Consumed.exchange {R : List ℕ} (hc : Consumed s r R s' r') (h : Reads s r) :
  RingExchange r s.queueList r' s'.queueList
  := by
  apply RingExchange.of_released hc.released
  · rw [hc.queue]
  · apply h.size_le

/-- Releasing the first queued buffer. -/
theorem Reads.release_head (h : Reads s r) {i : ℕ} {l : List ℕ} (hl : s.queueList = i :: l) :
  Consumed s r [i] { s with queue := s.queue.pop, headOffset := 0 } (r.release i)
    ∧ Reads { s with queue := s.queue.pop, headOffset := 0 } (r.release i)
    ∧ ({ s with queue := s.queue.pop, headOffset := 0 } : ReadBufStream).unread (r.release i)
        = r.content l
  := by
  have hne : s.queue.head ≠ s.queue.tail := by
    intro heq
    rw [ReadBufBase.queueList, (Circular.toList_eq_nil_iff _).mpr heq] at hl
    cases hl
  obtain ⟨-, hpop⟩ : _ ∧ s.queue.pop.toList s.bits = l := by
    rw [ReadBufBase.queueList, Circular.toList_of_ne hne] at hl
    exact List.cons.inj hl
  have hi : i < r.bufNum := by
    apply (h.of_mem _).1
    rw [hl]
    apply List.mem_cons_self
  have hil : ∀ j ∈ l, j ∉ [i] := by
    intro j hj hji
    have hnd := List.Nodup.of_append_right h.nodup
    rw [hl] at hnd
    apply (List.nodup_cons.mp hnd).1
    rwa [← List.mem_singleton.mp hji]
  have hr := BufRing.released hi
  have hsize : ∀ j ∈ l, (r.release i).dataSize j = r.dataSize j := by
    intro j hj
    rw [hr.dataSize, if_neg (hil j hj)]
  have hpos : ∀ j ∈ l, 0 < r.dataSize j := by
    intro j hj
    apply h.size_pos
    rw [hl]
    apply List.mem_cons_of_mem _ hj
  have hc : Consumed s r [i] { s with queue := s.queue.pop, headOffset := 0 } (r.release i) := by
    constructor
    · rfl
    · rfl
    · rfl
    · rfl
    · change _ = [i] ++ s.queue.pop.toList s.bits
      rw [hl, hpop]
      rfl
    · apply hr
  refine ⟨hc, ⟨h.toSound.exchange rfl (hc.exchange h), ?_, ?_⟩, ?_⟩
  · intro j hj
    change j ∈ s.queue.pop.toList s.bits at hj
    rw [hpop] at hj
    rw [hsize j hj]
    apply hpos j hj
  · change 0 < ((s.queue.pop.toList s.bits).head?.map (r.release i).dataSize).getD 1
    rw [hpop]
    cases l with
    | nil => apply Nat.one_pos
    | cons j l =>
        change 0 < (r.release i).dataSize j
        rw [hsize j List.mem_cons_self]
        apply hpos j List.mem_cons_self
  · change (r.release i).content (s.queue.pop.toList s.bits) = _
    rw [hpop]
    apply List.flatMap_congr
    intro j hj
    apply hr.block_eq (hil j hj)

/-- The loop of `consume` drops bytes from the front of the unread bytes and releases the
buffers they leave, without reading past the tail. -/
theorem consumeLoop_spec (h : Reads s r) {size : ℕ} (hle : size ≤ (s.unread r).length) :
  ∃ s' r' R, s.consumeLoop r size = some (s', r') ∧ Consumed s r R s' r' ∧ Reads s' r'
    ∧ s'.unread r' = (s.unread r).drop size
  := by
  fun_induction consumeLoop s r size with
  | case1 s r => exact ⟨s, r, [], rfl, ⟨rfl, rfl, rfl, rfl, rfl, .refl r⟩, h, rfl⟩
  | case2 s r size hpos hnil =>
      have hlist : s.queueList = [] := (Circular.toList_eq_nil_iff _).mpr hnil
      simp [unread, hlist, BufRing.content] at hle
      exact absurd hle hpos
  | case3 s r size hpos hne idx avail hlt =>
      have hl : s.queueList = idx :: s.queue.pop.toList s.bits := Circular.toList_of_ne hne
      have hoff := h.offset_lt_of_cons hl
      have havail : avail = r.dataSize idx - s.headOffset := u32Sub_of_le hoff.le
      have hsize := h.size_le idx
      have halloc := r.alloc_lt
      have hbuf : r.bufSize ≤ 2 ^ r.bits * r.bufSize :=
        Nat.le_mul_of_pos_left _ (Nat.two_pow_pos _)
      have hsum : u32 (s.headOffset + size) = s.headOffset + size := by
        apply u32_of_lt
        omega
      rw [hsum]
      refine ⟨_, r, [], rfl, ⟨rfl, rfl, rfl, rfl, rfl, .refl r⟩, ⟨h.toSound, h.size_pos, ?_⟩, ?_⟩
      · change s.headOffset + size < (s.queueList.head?.map r.dataSize).getD 1
        rw [hl]
        change s.headOffset + size < r.dataSize idx
        omega
      · apply List.drop_drop.symm
  | case4 s r size hpos hne idx avail hge =>
      rename_i ih
      have hl : s.queueList = idx :: s.queue.pop.toList s.bits := Circular.toList_of_ne hne
      obtain ⟨hc, hs₁, hrest⟩ := h.release_head hl
      have hoff := h.offset_lt_of_cons hl
      have havail : avail = r.dataSize idx - s.headOffset := u32Sub_of_le hoff.le
      have hunread := unread_of_cons hl hoff.le
      have hlen : ((r.block idx).drop s.headOffset).length = avail := by
        rw [List.length_drop, BufRing.length_block, havail]
      rw [hunread, List.length_append, hlen] at hle
      obtain ⟨s', r', R, hrun, hc', hs', hdrop⟩ := ih hs₁ (by
        rw [hrest]
        omega)
      refine ⟨s', r', idx :: R, hrun, hc.trans hc', hs', ?_⟩
      have hall : ((r.block idx).drop s.headOffset).drop size = [] := by
        apply List.drop_of_length_le
        rw [hlen]
        apply Nat.le_of_not_lt hge
      rw [hdrop, hrest, hunread, List.drop_append, hlen, hall, List.nil_append]

/-- `consume` of more than there is does nothing. -/
theorem consume_of_gt {size : ℕ} (hgt : s.readableBytes < size) :
  s.consume r size = some (false, s, r)
  := if_pos hgt

/-- `consume` of at most what there is drops it from the front of the unread bytes and
releases the buffers it leaves. -/
theorem consume_of_le (h : Sound s r) {size : ℕ} (hle : size ≤ s.readableBytes) :
  ∃ s' r' R, s.consume r size = some (true, s', r') ∧ s'.bits = s.bits
    ∧ s'.queue.tail = s.queue.tail ∧ s.queueList = R ++ s'.queueList ∧ r.Released r' R ∧ Sound s' r'
    ∧ s'.unread r' = (s.unread r).drop size
  := by
  have hreads : Reads { s with readableBytes := s.readableBytes - size } r :=
    ⟨h.toReads.toSound.exchange rfl (.of_released (.refl r) (.refl _) h.size_le), h.size_pos,
      h.offset_lt⟩
  have hle' : size ≤ (s.unread r).length := by
    rwa [h.readable] at hle
  obtain ⟨s', r', R, hrun, hc, hs', hdrop⟩ := consumeLoop_spec hreads hle'
  refine ⟨s', r', R, ?_, hc.bits, hc.tail, hc.queue, hc.released, ⟨hs', ?_⟩, hdrop⟩
  · rw [consume, if_neg (Nat.not_lt_of_le hle), hrun]
    rfl
  · rw [hc.readableBytes, hdrop, List.length_drop]
    change s.readableBytes - size = _
    rw [h.readable]
    rfl

/-- A stream with no unread bytes has no queued buffers. -/
theorem Reads.queueList_eq_nil (h : Reads s r) (hunread : s.unread r = []) :
  s.queueList = []
  := by
  cases hl : s.queueList with
  | nil => rfl
  | cons i l =>
      have hoff := h.offset_lt_of_cons hl
      rw [unread_of_cons hl hoff.le] at hunread
      have hlen := congrArg List.length (List.append_eq_nil_iff.mp hunread).1
      rw [List.length_drop, BufRing.length_block, List.length_nil] at hlen
      omega

/-- `reset` releases all queued buffers. -/
theorem reset_spec (h : Sound s r) :
  ∃ s' r', s.reset r = some (s', r') ∧ s'.bits = s.bits ∧ s'.queueList = []
    ∧ r.Released r' s.queueList ∧ Sound s' r'
  := by
  obtain ⟨s', r', R, hrun, hbits, -, hqueue, hr, hs', hdrop⟩ := consume_of_le h le_rfl
  have hnil : s'.unread r' = [] := by
    rw [hdrop, h.readable]
    apply List.drop_length
  have hempty := hs'.toReads.queueList_eq_nil hnil
  rw [hempty, List.append_nil] at hqueue
  let s'' : ReadBufStream :=
    { s' with headOffset := 0, queue := { s'.queue with head := 0, tail := 0 } }
  have hempty' : s''.queueList = [] := (Circular.toList_eq_nil_iff _).mpr rfl
  refine ⟨s'', r', ?_, hbits, hempty', hqueue ▸ hr, ?_⟩
  · rw [reset, hrun]
    rfl
  · have hsound : s''.toReadBufBase.Sound r' := by
      constructor
      · apply hs'.bits
      · rw [hempty', ← hempty]
        apply hs'.nodup
      · rw [hempty', ← hempty]
        apply hs'.lt
      · apply hs'.size_le
    refine ⟨⟨hsound, ?_, ?_⟩, ?_⟩
    · intro i hi
      rw [hempty'] at hi
      cases hi
    · rw [hempty']
      apply Nat.one_pos
    · change s'.readableBytes = _
      rw [hs'.readable, hnil, unread, hempty']
      rfl

end ReadBufStream

namespace ReadBufDgram

/-- `consume` releases the first queued packet. -/
theorem consume_exchange {s : ReadBufDgram} {r : BufRing}
    (h : ReadBufBase.Sound s.toReadBufBase r) :
  (s.consume r).2.1.bits = s.bits
    ∧ RingExchange r s.queueList (s.consume r).2.2 (s.consume r).2.1.queueList
  := by
  rw [consume]
  split
  case isTrue => exact ⟨rfl, .of_released (.refl r) (.refl _) h.size_le⟩
  case isFalse hne =>
    have hl : s.queueList = s.queue.front s.bits :: s.queue.pop.toList s.bits :=
      Circular.toList_of_ne hne
    have hi : s.queue.front s.bits < r.bufNum := by
      apply (h.of_mem _).1
      rw [hl]
      apply List.mem_cons_self
    use rfl
    apply RingExchange.of_released (BufRing.released hi) _ h.size_le
    rw [hl]
    apply List.Perm.refl

end ReadBufDgram

end Proactor
