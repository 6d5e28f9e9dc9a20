import UringProactor.Buffer.MsghdrPool
import UringProactor.Buffer.Stream

/-!
# Datagram write buffers

`WriteBufDgram` queues datagrams.  `submit` turns the pending window into one datagram: it
describes the pending blocks in the iovecs of a slot and queues the slot.  The blocks of a
datagram are not queued anywhere else; `release_slot` recovers them from the addresses in the
iovecs when the datagram is done.
-/

namespace Proactor

/-- `WriteBufDgram` without the pointers to its pools. -/
structure WriteBufDgram extends WriteBufBase where
  /-- `slot_queue_` with `msghdr_head_` and `msghdr_tail_`. -/
  slotQueue : Circular 64 ℕ
  /-- `max_iov_`. -/
  maxIov : ℕ

namespace WriteBufDgram

/-- The slots in `slot_queue_`, in order. -/
def slotList (d : WriteBufDgram) : List ℕ := d.slotQueue.toList d.bits

/-- `WriteBufDgram::slot_queue_size`. -/
def slotQueueSize (d : WriteBufDgram) : Int := (BitVec.ofNat 32 d.slotQueue.size).toInt

/-- The loop `while (pending_head_ != pending_tail_)` of `submit`: the pending window it
leaves and the iovecs it fills in. -/
def takeIov (k : ℕ) (pending : Circular 64 ℕ) (p : BufPool) : Circular 64 ℕ × List IoVec :=
  if pending.head = pending.tail then
    (pending, [])
  else
    let idx := pending.front k
    let (rest, vecs) := takeIov k pending.pop p
    (rest, ⟨p.bufAddr idx, p.dataSize idx⟩ :: vecs)
termination_by pending.size
decreasing_by
  have hne : pending.size ≠ 0 := mt pending.size_eq_zero_iff.mp ‹_›
  rw [Circular.size_pop (n := pending.size - 1) (by omega)]
  omega

/-- `WriteBufDgram::submit`. -/
def submit (d : WriteBufDgram) (p : BufPool) (m : MsghdrPool) (slot : Option ℕ) :
    Bool × WriteBufDgram × MsghdrPool :=
  if d.pending.size = 0 then
    (false, d, m)
  else if d.capacity ≤ d.slotQueue.size then
    (false, d, m)
  else
    match slot with
    | none => (false, d, m)
    | some i =>
        if d.maxIov < d.pending.size then
          (false, d, m)
        else
          let (pending, vecs) := takeIov d.bits d.pending p
          let iov := vecs ++ (m.slots i).iov.drop vecs.length
          (true, { d with pending := pending, slotQueue := d.slotQueue.push d.bits i },
            m.set i { m.slots i with iov := iov, iovlen := vecs.length })

/-- `WriteBufDgram::peek_slot`; `none` stands for the null pointer. -/
def peekSlot (d : WriteBufDgram) (offset : ℕ) : Option ℕ :=
  if d.slotQueue.size ≤ offset then
    none
  else
    some (d.slotQueue.get d.bits (d.slotQueue.head + BitVec.ofNat 64 offset))

/-- `WriteBufDgram::clear_slot_queue`. -/
def clearSlotQueue (d : WriteBufDgram) : WriteBufDgram :=
  { d with slotQueue := { d.slotQueue with head := d.slotQueue.tail } }

/-- The blocks the iovecs of a slot point to. -/
def slotBlocks (p : BufPool) (slot : MsghdrSlot) : List ℕ :=
  slot.msgIov.map (fun v => p.bufIndex v.base)

/-- `WriteBufDgram::release_slot`. -/
def releaseSlot (p : BufPool) (m : MsghdrPool) (i : ℕ) : Option (BufPool × MsghdrPool) := do
  let p ← (slotBlocks p (m.slots i)).foldlM BufPool.release p
  let m ← m.release i
  return (p, m)

/-! ### What `submit` does -/

variable {d : WriteBufDgram} {p p' : BufPool} {m m' : MsghdrPool}

/-- The loop of `submit` empties the pending window and describes its blocks. -/
theorem takeIov_eq (k : ℕ) (pending : Circular 64 ℕ) (p : BufPool) :
  takeIov k pending p
    = ({ pending with head := pending.tail }, WriteBufStream.iovecs p 0 (pending.toList k))
  := by
  fun_induction takeIov k pending p with
  | case1 pending h =>
      rw [(Circular.toList_eq_nil_iff pending).mpr h]
      obtain ⟨slots, head, tail⟩ := pending
      obtain rfl : head = tail := h
      rfl
  | case2 pending h idx rest vecs hrest ih =>
      rw [hrest] at ih
      obtain ⟨rfl, rfl⟩ := Prod.mk.inj ih
      rw [Circular.toList_of_ne h]
      rfl

/-- The header that `submit` makes of the pending window. -/
def describe (d : WriteBufDgram) (p : BufPool) (slot : MsghdrSlot) : MsghdrSlot :=
  let vecs := WriteBufStream.iovecs p 0 d.pendingList
  { slot with iov := vecs ++ slot.iov.drop vecs.length, iovlen := vecs.length }

/-- The buffer after `submit` has queued the slot `i`. -/
def enqueued (d : WriteBufDgram) (i : ℕ) : WriteBufDgram :=
  { d with
    pending := { d.pending with head := d.pending.tail }
    slotQueue := d.slotQueue.push d.bits i }

/-- `submit` with a slot either fails and does nothing, or the pending window becomes the
datagram of the slot. -/
theorem submit_cases (d : WriteBufDgram) (p : BufPool) (m : MsghdrPool) (i : ℕ) :
  ((d.pendingList = [] ∨ d.capacity ≤ d.slotList.length ∨ d.maxIov < d.pendingList.length)
      ∧ d.submit p m (some i) = (false, d, m))
    ∨ (d.pendingList ≠ [] ∧ d.slotList.length < d.capacity ∧ d.pendingList.length ≤ d.maxIov
      ∧ d.submit p m (some i) = (true, d.enqueued i, m.set i (d.describe p (m.slots i))))
  := by
  have hpending : d.pendingList.length = d.pending.size := Circular.length_toList _
  have hslots : d.slotList.length = d.slotQueue.size := Circular.length_toList _
  have hnil : d.pendingList = [] ↔ d.pending.size = 0 := by
    rw [← hpending, List.length_eq_zero_iff]
  rw [hnil, hpending, hslots, submit, takeIov_eq]
  split
  case isTrue h => simp [h]
  split
  case isTrue h h' => simp [h']
  dsimp only
  split
  case isTrue h h' h'' => simp [h'']
  case isFalse h h' h'' =>
    right
    exact ⟨mt hnil.mp h, Nat.lt_of_not_le h', Nat.le_of_not_lt h'', rfl⟩

theorem pendingList_enqueued (d : WriteBufDgram) (i : ℕ) :
  (d.enqueued i).pendingList = []
  := (Circular.toList_eq_nil_iff _).mpr rfl

theorem slotList_enqueued (i : ℕ) (h : d.slotQueue.size < d.capacity) :
  (d.enqueued i).slotList = d.slotList ++ [i]
  := Circular.toList_push d.bits_lt i h

theorem slotList_clearSlotQueue (d : WriteBufDgram) :
  d.clearSlotQueue.slotList = []
  := (Circular.toList_eq_nil_iff _).mpr rfl

theorem clearSlotQueue_of_nil (h : d.slotList = []) :
  d.clearSlotQueue = d
  := by
  rw [clearSlotQueue, ← (Circular.toList_eq_nil_iff _).mp h]

/-- The iovecs of whole blocks lead back to the blocks. -/
theorem map_bufIndex_iovecs (ha : p.Addressable) {l : List ℕ} (hl : ∀ i ∈ l, i < p.bufNum) :
  (WriteBufStream.iovecs p 0 l).map (fun v => p.bufIndex v.base) = l
  := by
  induction l with
  | nil => rfl
  | cons i l ih =>
      rw [WriteBufStream.iovecs, List.map_cons, Nat.add_zero,
        BufPool.bufIndex_bufAddr ha (hl i List.mem_cons_self),
        ih (fun j hj => hl j (List.mem_cons_of_mem _ hj))]

@[simp]
theorem length_iovecs (p : BufPool) (offset : ℕ) (l : List ℕ) :
  (WriteBufStream.iovecs p offset l).length = l.length
  := by
  induction l generalizing offset with
  | nil => rfl
  | cons i l ih => rw [WriteBufStream.iovecs, List.length_cons, ih, List.length_cons]

@[simp]
theorem msgIov_describe (d : WriteBufDgram) (p : BufPool) (slot : MsghdrSlot) :
  (d.describe p slot).msgIov = WriteBufStream.iovecs p 0 d.pendingList
  := List.take_left ..

/-- The blocks of a slot depend only on the size of the blocks and on the iovecs. -/
theorem slotBlocks_congr {slot slot' : MsghdrSlot} (hsize : p'.bufSize = p.bufSize)
    (hiov : slot'.msgIov = slot.msgIov) :
  slotBlocks p' slot' = slotBlocks p slot
  := by
  simp only [slotBlocks, BufPool.bufIndex, hsize, hiov]

/-- A wiped slot names no block. -/
theorem slotBlocks_of_wiped (p : BufPool) {slot : MsghdrSlot} (h : slot.iovlen = 0) :
  slotBlocks p slot = []
  := by
  rw [slotBlocks, MsghdrSlot.msgIov, h]
  rfl

/-- `release_slot` of a wiped slot releases no block. -/
theorem releaseSlot_of_wiped {i : ℕ} (p p' : BufPool) (m m' : MsghdrPool)
    (h : (m.slots i).iovlen = 0) (hrelease : releaseSlot p m i = some (p', m')) :
  p' = p
  := by
  rw [releaseSlot, slotBlocks_of_wiped p h] at hrelease
  obtain ⟨p'', hp, hbind⟩ := Option.bind_eq_some_iff.mp hrelease
  cases hp
  obtain ⟨m'', -, heq⟩ := Option.bind_eq_some_iff.mp hbind
  cases heq
  rfl

/-! ### Blocks and slots -/

/-- The buffer and its pools are consistent, where the slots `flight` belong to prepared or
submitted SQEs: every slot is free, queued or in flight, every block is free, pending or in
the datagram of a queued slot or of a slot in flight, and free slots are wiped. -/
structure Sound (d : WriteBufDgram) (p : BufPool) (m : MsghdrPool) (flight : List ℕ) : Prop where
  addressable : p.Addressable
  send : d.sendList = []
  maxIov : d.maxIov = m.maxIov
  pending_le : d.pending.size ≤ d.capacity
  queue_le : d.slotQueue.size ≤ d.capacity
  slots : (m.freeList ++ (d.slotList ++ flight)).Perm (List.range m.capacity)
  blocks : (p.freeList ++ (d.pendingList
    ++ (d.slotList ++ flight).flatMap (fun i => slotBlocks p (m.slots i)))).Perm
      (List.range p.bufNum)
  free_zero : ∀ i ∈ p.freeList, p.dataSize i = 0
  size_le : ∀ i, p.dataSize i ≤ p.bufSize
  wiped : ∀ i ∈ m.freeList, (m.slots i).iovlen = 0
  shaped : ∀ i, (m.slots i).Shaped m.maxIov

namespace Sound

variable {flight flight' : List ℕ} {i : ℕ}

/-- A slot is in one place only. -/
theorem nodup_slots (h : Sound d p m flight) :
  (m.freeList ++ (d.slotList ++ flight)).Nodup
  := h.slots.nodup_iff.mpr List.nodup_range

/-- An empty buffer with full pools is sound. -/
theorem of_empty (ha : p.Addressable) (hpending : d.pendingList = []) (hsend : d.sendList = [])
    (hqueue : d.slotList = []) (hmax : d.maxIov = m.maxIov)
    (hfree : p.freeList = List.range p.bufNum) (hzero : ∀ i, p.dataSize i = 0)
    (hslots : m.freeList = List.range m.capacity) (hwiped : ∀ i, (m.slots i).iovlen = 0)
    (hshaped : ∀ i, (m.slots i).Shaped m.maxIov) :
  Sound d p m []
  := by
  constructor
  · exact ha
  · exact hsend
  · exact hmax
  · rw [← WriteBufBase.length_pendingList, hpending]
    apply Nat.zero_le
  · rw [← Circular.length_toList (k := d.bits)]
    exact (congrArg List.length hqueue).trans_le (Nat.zero_le _)
  · rw [hslots, hqueue]
    simp
  · rw [hfree, hpending, hqueue]
    simp
  · exact fun i _ => hzero i
  · intro i
    rw [hzero]
    apply Nat.zero_le
  · exact fun i _ => hwiped i
  · exact hshaped

/-- The buffer is sound as a `WriteBufBase`. -/
theorem base (h : Sound d p m flight) :
  WriteBufBase.Sound d.toWriteBufBase p
  := by
  have hperm := h.blocks
  rw [← List.append_assoc] at hperm
  constructor
  · rw [h.send, List.append_nil]
    exact (hperm.nodup_iff.mpr List.nodup_range).of_append_left
  · rw [h.send, List.append_nil]
    intro i hi
    exact List.mem_range.mp (hperm.mem_iff.mp (List.mem_append_left _ hi))
  · exact h.free_zero
  · exact h.size_le
  · exact h.pending_le
  · rw [← WriteBufBase.length_sendList, h.send]
    apply Nat.zero_le

/-- Only the slots that are queued or in flight matter, not which of the two they are. -/
theorem of_perm (h : Sound d p m flight) {q : Circular 64 ℕ} (hq : q.size ≤ d.capacity)
    (hperm : (q.toList d.bits ++ flight').Perm (d.slotList ++ flight)) :
  Sound { d with slotQueue := q } p m flight'
  := by
  refine { h with queue_le := hq, slots := ?_, blocks := ?_ }
  · exact (hperm.append_left _).trans h.slots
  · exact (((hperm.flatMap_right _).append_left _).append_left _).trans h.blocks

/-- The order of the slots in flight does not matter. -/
theorem perm_flight (h : Sound d p m flight) (hperm : flight'.Perm flight) :
  Sound d p m flight'
  := h.of_perm h.queue_le (hperm.append_left _)

/-- The slot queue depends only on the capacity of the rest of the buffer. -/
theorem slotList_exchange {b' : WriteBufBase}
    (he : WriteBufBase.Exchange d.toWriteBufBase p b' p') :
  ({ d with toWriteBufBase := b' } : WriteBufDgram).slotList = d.slotList
  := by
  change d.slotQueue.toList b'.bits = _
  rw [he.bits]
  rfl

/-- `append`, `prepend` and `discard_pending` exchange blocks between the pending window and
the free queue only. -/
theorem exchange (h : Sound d p m flight) {b' : WriteBufBase}
    (he : WriteBufBase.Exchange d.toWriteBufBase p b' p') (hsend : b'.send = d.send) :
  Sound { d with toWriteBufBase := b' } p' m flight
  := by
  have hslots := slotList_exchange he
  have hnil : b'.sendList = [] := by
    rw [WriteBufBase.sendList, hsend, he.bits]
    exact h.send
  have hblocks : ∀ i, slotBlocks p' (m.slots i) = slotBlocks p (m.slots i) :=
    fun i => slotBlocks_congr he.bufSize rfl
  refine { h with
    addressable := he.addressable h.addressable
    send := hnil
    pending_le := he.pending_le
    queue_le := h.queue_le.trans_eq he.capacity_eq.symm
    slots := ?_
    blocks := ?_
    free_zero := he.free_zero
    size_le := he.bufSize ▸ he.size_le }
  · rw [hslots]
    exact h.slots
  · have hperm := he.perm
    rw [hnil, h.send, List.append_nil, List.append_nil] at hperm
    simp only [hslots, hblocks, he.bufNum_eq]
    refine List.Perm.trans ?_ h.blocks
    rw [← List.append_assoc, ← List.append_assoc]
    exact hperm.append_right _

/-- Changing what a slot holds besides its iovecs. -/
theorem set (h : Sound d p m flight) {slot : MsghdrSlot} (hiov : slot.iov = (m.slots i).iov)
    (hlen : slot.iovlen = (m.slots i).iovlen) (hshaped : slot.Shaped m.maxIov) :
  Sound d p (m.set i slot) flight
  := by
  have hkeep : ∀ j, ((m.set i slot).slots j).iov = (m.slots j).iov
      ∧ ((m.set i slot).slots j).iovlen = (m.slots j).iovlen := by
    intro j
    by_cases hj : j = i
    · rw [hj, MsghdrPool.set_slots_self]
      exact ⟨hiov, hlen⟩
    · rw [MsghdrPool.set_slots_of_ne m slot hj]
      exact ⟨rfl, rfl⟩
  have hblocks : ∀ j, slotBlocks p ((m.set i slot).slots j) = slotBlocks p (m.slots j) := by
    intro j
    apply slotBlocks_congr rfl
    rw [MsghdrSlot.msgIov, (hkeep j).1, (hkeep j).2]
    rfl
  refine { h with blocks := ?_, wiped := ?_, shaped := ?_ }
  · simp only [hblocks]
    exact h.blocks
  · intro j hj
    rw [(hkeep j).2]
    exact h.wiped j hj
  · exact MsghdrPool.forall_set i h.shaped hshaped

/-- The slots that are queued or in flight besides `i` keep their blocks when `i` is
replaced. -/
theorem flatMap_set {l : List ℕ} (hi : i ∉ l) (slot : MsghdrSlot) :
  l.flatMap (fun j => slotBlocks p ((m.set i slot).slots j))
    = l.flatMap (fun j => slotBlocks p (m.slots j))
  := by
  apply List.flatMap_congr
  intro j hj
  rw [MsghdrPool.set_slots_of_ne]
  exact ne_of_mem_of_not_mem hj hi

/-- The header of a datagram that fits keeps the shape of the slot. -/
theorem shaped_describe (h : Sound d p m flight) (hle : d.pendingList.length ≤ d.maxIov)
    (i : ℕ) :
  (d.describe p (m.slots i)).Shaped m.maxIov
  := by
  refine ⟨?_, (h.shaped i).addr⟩
  rw [h.maxIov] at hle
  simp only [describe, List.length_append, List.length_drop, length_iovecs, (h.shaped i).iov]
  omega

/-- The datagram that `submit` makes consists of the pending blocks. -/
theorem slotBlocks_describe (h : Sound d p m flight) (slot : MsghdrSlot) :
  slotBlocks p (d.describe p slot) = d.pendingList
  := by
  rw [slotBlocks, msgIov_describe]
  apply map_bufIndex_iovecs h.addressable
  intro i hi
  exact (h.base.of_mem_pending hi).1

/-- An acquired slot names no block. -/
theorem acquire (h : Sound d p m flight) {l : List ℕ} (hfree : m.freeList = i :: l)
    (hrest : ({ m with pool := m.pool.pop } : MsghdrPool).freeList = l) :
  Sound d p { m with pool := m.pool.pop } (i :: flight) ∧ (m.slots i).iovlen = 0
  := by
  have hwiped := h.wiped i (by simp [hfree])
  refine ⟨{ h with slots := ?_, blocks := ?_, wiped := ?_ }, hwiped⟩
  · refine List.Perm.trans ?_ h.slots
    rw [hrest, hfree, List.cons_append]
    exact (List.perm_middle.append_left _).trans List.perm_middle
  · have hnil := slotBlocks_of_wiped p hwiped
    have hperm : (d.slotList ++ i :: flight).Perm (i :: (d.slotList ++ flight)) :=
      List.perm_middle
    refine List.Perm.trans ?_ h.blocks
    refine (((hperm.flatMap_right _).append_left _).append_left _).trans ?_
    rw [List.flatMap_cons, hnil, List.nil_append]
  · intro j hj
    rw [hrest] at hj
    exact h.wiped j (by simp [hfree, hj])

/-- The pending blocks become the datagram of an acquired slot, which is queued. -/
theorem submit (h : Sound d p m (i :: flight)) (hwiped : (m.slots i).iovlen = 0)
    (hqueue : d.slotQueue.size < d.capacity) (hle : d.pendingList.length ≤ d.maxIov) :
  Sound (d.enqueued i) p (m.set i (d.describe p (m.slots i))) flight
  := by
  have hnil := d.pendingList_enqueued i
  have hpush := slotList_enqueued i hqueue
  have hdisjoint := List.disjoint_of_nodup_append h.nodup_slots
  obtain ⟨hqueued, hflight⟩ := not_or.mp (mt List.mem_append.mpr
    (List.nodup_middle.mp h.nodup_slots.of_append_right).notMem)
  refine { h with
    pending_le := ?_, queue_le := ?_, slots := ?_, blocks := ?_, wiped := ?_, shaped := ?_ }
  · rw [← WriteBufBase.length_pendingList, hnil]
    apply Nat.zero_le
  · exact (Circular.size_push d.bits_lt hqueue).trans_le hqueue
  · rw [hpush, List.append_assoc]
    exact h.slots
  · refine List.Perm.trans ?_ h.blocks
    apply List.Perm.append_left
    rw [hnil, hpush, List.nil_append]
    simp only [List.flatMap_append, List.flatMap_cons, List.flatMap_nil, List.append_nil]
    rw [flatMap_set hqueued, flatMap_set hflight, MsghdrPool.set_slots_self,
      slotBlocks_of_wiped p hwiped, h.slotBlocks_describe, List.append_assoc, List.nil_append]
    apply List.perm_append_comm_assoc
  · intro j hj
    have hne : j ≠ i := by
      rintro rfl
      exact hdisjoint hj (by simp)
    rw [MsghdrPool.set_slots_of_ne m _ hne]
    exact h.wiped j hj
  · exact MsghdrPool.forall_set i h.shaped (h.shaped_describe hle i)

/-- `release_slot` returns the slot and the blocks of its datagram. -/
theorem releaseSlot (h : Sound d p m flight) (hflight : flight.Perm (i :: flight')) :
  ∃ p' m', WriteBufDgram.releaseSlot p m i = some (p', m')
    ∧ p.Returned p' (slotBlocks p (m.slots i)) ∧ m'.bits = m.bits
    ∧ m'.freeList = m.freeList ++ [i] ∧ (∀ j, j ≠ i → m'.slots j = m.slots j) ∧ Sound d p' m' flight'
  := by
  have hheld : (d.slotList ++ flight).Perm (i :: (d.slotList ++ flight')) :=
    (hflight.append_left _).trans List.perm_middle
  have hslots : (m.freeList ++ [i] ++ (d.slotList ++ flight')).Perm (List.range m.capacity) := by
    rw [List.append_assoc, List.singleton_append]
    exact (hheld.append_left _).symm.trans h.slots
  have hblocks : (p.freeList ++ slotBlocks p (m.slots i) ++ (d.pendingList
      ++ (d.slotList ++ flight').flatMap (fun i => slotBlocks p (m.slots i)))).Perm
        (List.range p.bufNum) := by
    have hmap := hheld.flatMap_right (fun i => slotBlocks p (m.slots i))
    rw [List.flatMap_cons] at hmap
    rw [List.append_assoc]
    refine ((List.perm_append_comm_assoc ..).append_left _).trans ?_
    exact ((hmap.append_left _).append_left _).symm.trans h.blocks
  have hroom : p.freeList.length + (slotBlocks p (m.slots i)).length ≤ p.bufNum := by
    have hlen := hblocks.length_eq
    simp only [List.length_append, List.length_range] at hlen
    omega
  have hfree : m.freeList.length < m.capacity := by
    have hlen := hslots.length_eq
    simp only [List.length_append, List.length_range, List.length_singleton] at hlen
    omega
  obtain ⟨p', hp', hr⟩ := BufPool.release_all _ hroom
  obtain ⟨m', hm', hbits, hmax, hset, hlist⟩ := MsghdrPool.release_of_lt i hfree
  refine ⟨p', m', ?_, hr, hbits, hlist, ?_, ?_⟩
  · rw [WriteBufDgram.releaseSlot, hp']
    change (m.release i).bind _ = _
    rw [hm']
    rfl
  · intro j hj
    rw [hset, MsghdrPool.set_slots_of_ne m _ hj]
  have hnodup := hslots.nodup_iff.mpr List.nodup_range
  have hi : i ∉ d.slotList ++ flight' :=
    fun hmem => List.disjoint_of_nodup_append hnodup (by simp) hmem
  have hblocks' : ∀ j, slotBlocks p' (m'.slots j)
      = slotBlocks p ((m.set i ((m.slots i).wipe m.maxIov)).slots j) := by
    intro j
    rw [hset]
    apply slotBlocks_congr hr.bufSize rfl
  constructor
  · rw [BufPool.Addressable, BufPool.bufNum, hr.bits, hr.bufSize]
    exact h.addressable
  · exact h.send
  · rw [hmax]
    exact h.maxIov
  · exact h.pending_le
  · exact h.queue_le
  · rw [hlist, MsghdrPool.capacity, hbits]
    exact hslots
  · simp only [hblocks']
    rw [flatMap_set hi, hr.freeList, BufPool.bufNum, hr.bits]
    exact hblocks
  · intro j hj
    rw [hr.dataSize]
    split
    case isTrue => rfl
    case isFalse hown =>
      rw [hr.freeList, List.mem_append] at hj
      exact h.free_zero j (hj.resolve_right hown)
  · intro j
    rw [hr.dataSize, hr.bufSize]
    split
    · apply Nat.zero_le
    · apply h.size_le
  · intro j hj
    rw [hset]
    by_cases hji : j = i
    · rw [hji, MsghdrPool.set_slots_self]
      rfl
    · rw [MsghdrPool.set_slots_of_ne m _ hji]
      rw [hlist, List.mem_append, List.mem_singleton] at hj
      exact h.wiped j (hj.resolve_right hji)
  · rw [hset, hmax]
    exact MsghdrPool.forall_set i h.shaped (MsghdrSlot.shaped_wipe _ _)

end Sound

end WriteBufDgram

end Proactor
