import UringProactor.Buffer.Prepend

/-!
# Exchanges between a write buffer and its pool

Every operation of a write buffer is an exchange: the blocks of the free queue, the pending
window and the send queue are permuted among these three, free blocks are empty, and a block
that was neither free nor pending, and is not free afterwards, keeps its size and its bytes.
The blocks of other buffers, and those of the send queue, are among these.
-/

namespace Proactor

namespace WriteBufBase

/-- `Exchange b p b' p'`: the buffer `b'` and the pool `p'` hold together the blocks that
`b` and `p` held, and the blocks that were neither free nor pending are untouched unless
they were freed. -/
structure Exchange (b : WriteBufBase) (p : BufPool) (b' : WriteBufBase) (p' : BufPool) :
    Prop where
  bits : b'.bits = b.bits
  poolBits : p'.bits = p.bits
  bufSize : p'.bufSize = p.bufSize
  perm : (p'.freeList ++ (b'.pendingList ++ b'.sendList)).Perm
    (p.freeList ++ (b.pendingList ++ b.sendList))
  free_zero : ∀ i ∈ p'.freeList, p'.dataSize i = 0
  size_le : ∀ i, p'.dataSize i ≤ p.bufSize
  pending_le : b'.pending.size ≤ b'.capacity
  send_le : b'.send.size ≤ b'.capacity
  frame_size : ∀ i, i ∉ p.freeList → i ∉ b.pendingList → i ∉ p'.freeList →
    p'.dataSize i = p.dataSize i
  frame_block : p.Addressable → ∀ i < p.bufNum, i ∉ p.freeList → i ∉ b.pendingList →
    i ∉ p'.freeList → p'.block i = p.block i

section

variable {b b' : WriteBufBase} {p p' : BufPool} {F : List ℕ} {done : List UInt8}

/-- A pending block is a block of the pool that is not free. -/
theorem Sound.of_mem_pending (h : Sound b p) {i : ℕ} (hi : i ∈ b.pendingList) :
  i < p.bufNum ∧ i ∉ p.freeList
  := by
  constructor
  · apply h.lt
    apply List.mem_append_right _ (List.mem_append_left _ hi)
  · intro hfree
    apply List.disjoint_of_nodup_append h.nodup hfree (List.mem_append_left _ hi)

/-- A block of the send queue is a block of the pool that is neither free nor pending. -/
theorem Sound.of_mem_send (h : Sound b p) {i : ℕ} (hi : i ∈ b.sendList) :
  i < p.bufNum ∧ i ∉ p.freeList ∧ i ∉ b.pendingList
  := by
  constructor
  · apply h.lt
    apply List.mem_append_right _ (List.mem_append_right _ hi)
  · constructor
    · intro hfree
      apply List.disjoint_of_nodup_append h.nodup hfree (List.mem_append_right _ hi)
    · intro hpending
      apply List.disjoint_of_nodup_append (List.Nodup.of_append_right h.nodup) hpending hi

theorem Exchange.bufNum_eq (he : Exchange b p b' p') :
  p'.bufNum = p.bufNum
  := by
  rw [BufPool.bufNum, he.poolBits]
  rfl

theorem Exchange.capacity_eq (he : Exchange b p b' p') :
  b'.capacity = b.capacity
  := by
  rw [capacity, he.bits]
  rfl

theorem Exchange.addressable (he : Exchange b p b' p') (ha : p.Addressable) :
  p'.Addressable
  := by
  rw [BufPool.Addressable, he.bufNum_eq, he.bufSize]
  apply ha

/-- An exchange keeps a buffer sound with its pool. -/
theorem Exchange.sound (he : Exchange b p b' p') (h : Sound b p) :
  Sound b' p'
  := by
  constructor
  · apply he.perm.nodup_iff.mpr h.nodup
  · intro i hi
    rw [he.bufNum_eq]
    apply h.lt i (he.perm.mem_iff.mp hi)
  · apply he.free_zero
  · intro i
    rw [he.bufSize]
    apply he.size_le
  · apply he.pending_le
  · apply he.send_le

/-- The pool has room for blocks that a buffer holds. -/
theorem Sound.room (h : Sound b p) (R rest : List ℕ)
    (hperm : (R ++ rest).Perm (b.pendingList ++ b.sendList)) :
  p.freeList.length + R.length ≤ p.bufNum
  := by
  have hall := hperm.append_left p.freeList
  rw [← List.append_assoc] at hall
  rw [← List.length_append]
  apply Ownership.length_le_of_nodup
  · apply List.Nodup.of_append_left (hall.nodup_iff.mpr h.nodup)
  · intro i hi
    apply h.lt i (hall.mem_iff.mp (List.mem_append_left _ hi))

/-- Permuting the blocks of a buffer among its windows and returning some of them to the
pool is an exchange. -/
theorem Exchange.of_returned (h : Sound b p) {R : List ℕ} (hr : p.Returned p' R)
    (hbits : b'.bits = b.bits)
    (hperm : (R ++ (b'.pendingList ++ b'.sendList)).Perm (b.pendingList ++ b.sendList))
    (hpending : b'.pending.size ≤ b'.capacity) (hsend : b'.send.size ≤ b'.capacity) :
  Exchange b p b' p'
  := by
  have hsize : ∀ i, i ∉ p'.freeList → p'.dataSize i = p.dataSize i := by
    intro i hi
    rw [hr.freeList, List.mem_append, not_or] at hi
    rw [hr.dataSize, if_neg hi.2]
  constructor
  · apply hbits
  · apply hr.bits
  · apply hr.bufSize
  · rw [hr.freeList, List.append_assoc]
    apply hperm.append_left
  · intro i hi
    rw [hr.dataSize]
    split
    case isTrue => rfl
    case isFalse hR =>
      rw [hr.freeList, List.mem_append] at hi
      apply h.free_zero i (hi.resolve_right hR)
  · intro i
    rw [hr.dataSize]
    split
    · apply Nat.zero_le
    · apply h.size_le
  · apply hpending
  · apply hsend
  · intro i _ _ hi
    apply hsize i hi
  · intro _ i _ _ _ hi
    rw [BufPool.block, BufPool.bufAddr, hsize i hi, hr.bufs, hr.bufSize]
    rfl

/-- An exchange after one among the windows of the buffer, which made no block pending. -/
theorem Exchange.trans_of_subset {b'' : WriteBufBase} {p'' : BufPool} (he : Exchange b p b' p)
    (hsub : b'.pendingList ⊆ b.pendingList) (he' : Exchange b' p b'' p'') :
  Exchange b p b'' p''
  := by
  constructor
  · rw [he'.bits, he.bits]
  · apply he'.poolBits
  · apply he'.bufSize
  · apply he'.perm.trans he.perm
  · apply he'.free_zero
  · apply he'.size_le
  · apply he'.pending_le
  · apply he'.send_le
  · intro i hfree hpending hfree'
    apply he'.frame_size i hfree (fun hi => hpending (hsub hi)) hfree'
  · intro ha i hi hfree hpending hfree'
    apply he'.frame_block ha i hi hfree (fun hi => hpending (hsub hi)) hfree'

/-- Nothing was exchanged. -/
theorem Exchange.refl (h : Sound b p) :
  Exchange b p b p
  := .of_returned h (.refl p) rfl (.refl _) h.pending_le h.send_le

/-- A successful `append` is an exchange. -/
theorem Grown.exchange (hg : Grown b p F done b' p') (h : Sound b p) :
  Exchange b p b' p'
  := by
  have hsend : b'.sendList = b.sendList := by
    rw [sendList, hg.send, hg.bits]
    rfl
  have hF : ∀ i, i ∉ p.freeList → i ∉ F := by
    intro i hi hiF
    apply hi
    rw [hg.free]
    apply List.mem_append_left _ hiF
  constructor
  · apply hg.bits
  · apply hg.poolBits
  · apply hg.bufSize
  · rw [hg.pending, hsend, hg.free]
    apply List.perm_iff_count.mpr
    intro a
    simp only [List.count_append]
    omega
  · intro i hi
    apply hg.free_zero h hi
  · apply hg.size_le
  · apply hg.pending_le
  · rw [hg.send, capacity, hg.bits]
    apply h.send_le
  · intro i hfree hpending _
    apply hg.size_other i (hF i hfree)
    intro hl
    apply hpending (List.mem_of_getLast? hl)
  · intro ha i hi hfree hpending _
    apply hg.block_other ha i hi (hF i hfree)
    intro hl
    apply hpending (List.mem_of_getLast? hl)

/-- An operation that was undone is an exchange. -/
theorem Undone.exchange (hu : Undone b p b' p') (h : Sound b p) :
  Exchange b p b' p'
  := by
  have hsend : b'.sendList = b.sendList := by
    rw [sendList, hu.send, hu.bits]
    rfl
  constructor
  · apply hu.bits
  · apply hu.poolBits
  · apply hu.bufSize
  · rw [hu.pending, hsend]
    apply hu.free.append_right
  · intro i hi
    rw [hu.dataSize]
    apply h.free_zero i (hu.free.mem_iff.mp hi)
  · intro i
    rw [hu.dataSize]
    apply h.size_le
  · rw [← length_pendingList, hu.pending, length_pendingList, capacity, hu.bits]
    apply h.pending_le
  · rw [hu.send, capacity, hu.bits]
    apply h.send_le
  · intro i _ _ _
    apply hu.dataSize
  · intro ha i hi hfree _ _
    apply hu.block ha i hi hfree

/-- A successful `prepend` is an exchange. -/
theorem Fronted.exchange (hf : Fronted b p F done b' p') (h : Sound b p) :
  Exchange b p b' p'
  := by
  have hsend : b'.sendList = b.sendList := by
    rw [sendList, hf.send, hf.bits]
    rfl
  have hF : ∀ i, i ∉ p.freeList → i ∉ F := by
    intro i hi hiF
    apply hi
    rw [hf.free]
    apply List.mem_append_left _ hiF
  constructor
  · apply hf.bits
  · apply hf.poolBits
  · apply hf.bufSize
  · rw [hf.pending, hsend, hf.free]
    apply List.perm_iff_count.mpr
    intro a
    simp only [List.count_append]
    omega
  · intro i hi
    have hnd := h.nodup
    rw [hf.free, List.append_assoc] at hnd
    rw [hf.size_other i]
    · apply h.free_zero
      rw [hf.free]
      apply List.mem_append_right _ hi
    · intro hiF
      apply List.disjoint_of_nodup_append hnd hiF (List.mem_append_left _ hi)
  · apply hf.size_le
  · rw [← length_pendingList, hf.pending, List.length_append, length_pendingList, capacity,
      hf.bits]
    apply hf.room
  · rw [hf.send, capacity, hf.bits]
    apply h.send_le
  · intro i hfree _ _
    apply hf.size_other i (hF i hfree)
  · intro ha i hi hfree _ _
    apply hf.block_other ha i hi (hF i hfree)

/-- The content of a list of blocks that an exchange does not touch. -/
theorem Exchange.content_eq (he : Exchange b p b' p') (ha : p.Addressable) {l : List ℕ}
    (hl : ∀ i ∈ l, i < p.bufNum ∧ i ∉ p.freeList ∧ i ∉ b.pendingList ∧ i ∉ p'.freeList) :
  p'.content l = p.content l
  := by
  apply List.flatMap_congr
  intro i hi
  obtain ⟨hlt, hfree, hpending, hfree'⟩ := hl i hi
  apply he.frame_block ha i hlt hfree hpending hfree'

/-- What was undone leaves the pending content as it was. -/
theorem Undone.content_pending (hu : Undone b p b' p') (h : Sound b p) (ha : p.Addressable) :
  p'.content b'.pendingList = p.content b.pendingList
  := by
  rw [hu.pending]
  apply List.flatMap_congr
  intro i hi
  obtain ⟨hlt, hfree⟩ := h.of_mem_pending hi
  apply hu.block ha i hlt hfree

/-- What is put in front of the pending window comes before its content. -/
theorem Fronted.content_pending (hf : Fronted b p F done b' p') (h : Sound b p)
    (ha : p.Addressable) :
  p'.content b'.pendingList = done ++ p.content b.pendingList
  := by
  rw [hf.pending, BufPool.content, List.flatMap_append]
  congr 1
  · apply hf.content ha
  · apply List.flatMap_congr
    intro i hi
    obtain ⟨hlt, hfree⟩ := h.of_mem_pending hi
    apply hf.block_other ha i hlt
    intro hiF
    apply hfree
    rw [hf.free]
    apply List.mem_append_left _ hiF

/-- The outcome of `append` is an exchange that leaves the send queue as it is; on `true`
the data is behind the pending content, on `false` the pending content is as before. -/
theorem append_exchange (h : Sound b p) {data : List UInt8} {ok : Bool}
    (happ : b.append p data = some (ok, b', p')) :
  Exchange b p b' p' ∧ b'.send = b.send ∧ (p.Addressable →
    p'.content b'.pendingList
      = if ok then p.content b.pendingList ++ data else p.content b.pendingList)
  := by
  obtain ⟨_, _, _, hspec, happended⟩ := append_spec h data
  rw [happ] at hspec
  cases hspec
  cases ok with
  | true =>
      obtain ⟨-, F, hg⟩ := happended
      exact ⟨hg.exchange h, hg.send, hg.content⟩
  | false => exact ⟨happended.exchange h, happended.send, happended.content_pending h⟩

/-- The outcome of `prepend` is an exchange that leaves the send queue as it is; on `true`
what it takes of the data is in front of the pending content, on `false` the pending content
is as before. -/
theorem prepend_exchange (h : Sound b p) {data : List UInt8} {ok : Bool}
    (hpre : b.prepend p data = some (ok, b', p')) :
  Exchange b p b' p' ∧ b'.send = b.send ∧ (p.Addressable →
    p'.content b'.pendingList
      = if ok then taken p data ++ p.content b.pendingList else p.content b.pendingList)
  := by
  obtain ⟨_, _, _, hspec, hprepended⟩ := prepend_spec h data
  rw [hpre] at hspec
  cases hspec
  cases ok with
  | true =>
      obtain ⟨F, -, hf⟩ := hprepended
      exact ⟨hf.exchange h, hf.send, hf.content_pending h⟩
  | false => exact ⟨hprepended.exchange h, hprepended.send, hprepended.content_pending h⟩

/-- `discard_pending` returns the pending blocks to the pool. -/
theorem discardPending_spec (h : Sound b p) :
  ∃ b' p', b.discardPending p = some (b', p') ∧ Exchange b p b' p' ∧ b'.send = b.send
    ∧ b'.pendingList = []
  := by
  obtain ⟨p', hp', hr⟩ := BufPool.release_all b.pendingList (h.room _ _ (.refl _))
  have hnil : ({ b with pending := ⟨b.pending.slots, 0, 0⟩ } : WriteBufBase).pendingList = [] :=
    (Circular.toList_eq_nil_iff _).mpr rfl
  refine ⟨{ b with pending := ⟨b.pending.slots, 0, 0⟩ }, p', ?_, ?_, rfl, hnil⟩
  · rw [discardPending, releaseFront_eq]
    change Option.bind (Option.map _ (b.pendingList.foldlM BufPool.release p)) _ = _
    rw [hp']
    rfl
  · apply Exchange.of_returned h hr
    · rfl
    · rw [hnil]
      apply List.Perm.refl
    · rw [← length_pendingList, hnil]
      apply Nat.zero_le
    · apply h.send_le

end

end WriteBufBase

end Proactor
