import UringProactor.Buffer.Conservation
import UringProactor.Buffer.Room
import UringProactor.Core.UdpSteps

/-!
# `append` and `prepend` are exact and atomic

A write buffer is that of a stream, one of many over a pool, or that of a UDP channel.  In every
state it is in during a run, `append` and `prepend` succeed exactly when there is room for the
blocks they need.  On success the pending content has grown by the data, and on failure nothing
has changed.  For `prepend` this takes that the rounding to blocks does not wrap.
-/

namespace Proactor

namespace WriteBufBase

/-- The states of a write buffer and its pool in a run.  The allocation of the pool has an `int`
number of bytes. -/
inductive Reachable : WriteBufBase → BufPool → Prop where
  | stream {num bits bufSize : ℕ} {hbits : bits ≤ 30} {hpos : 0 < bufSize}
      {hlt : bufSize < 2 ^ 31} {pool : BufPool} {caps : ℕ → Fin 31} {σ : WriteSystem} {c : ℕ}
      (hpool : BufPool.new bits bufSize hbits hpos hlt = some pool)
      (halloc : 2 ^ bits * bufSize < 2 ^ 31)
      (h : Reaches WriteSystem.step WriteSystem.Admits (.new num pool caps) σ) (hc : c < σ.num) :
      Reachable (σ.bufs c).toWriteBufBase σ.pool
  | dgram {depth bits bufSize slotBits maxIov : ℕ} {fd : Int} {bufRing : BufRing}
      {hbits : bits ≤ 30} {hpos : 0 < bufSize} {hlt : bufSize < 2 ^ 31} {pool : BufPool}
      {hslot : slotBits ≤ 30} {hmax : 0 < maxIov} {capBits : Fin 31} {w : UdpWorker}
      (hpool : BufPool.new bits bufSize hbits hpos hlt = some pool)
      (halloc : 2 ^ bits * bufSize < 2 ^ 31)
      (h : Reaches UdpWorker.step UdpWorker.Admits
        (.start depth fd bufRing pool (.new slotBits maxIov hslot hmax) capBits) w) :
      Reachable w.channel.writeBuf.toWriteBufBase w.thread.bufPool

variable {b b' : WriteBufBase} {p p' : BufPool}

theorem Reachable.sound (h : Reachable b p) :
  Sound b p ∧ p.Addressable
  := by
  cases h with
  | @stream num bits bufSize hbits hpos hlt pool caps σ c hpool halloc h hc =>
      obtain ⟨hinv, ha⟩ := WriteSystem.reaches_addressable h (WriteSystem.new_inv num hpool caps)
        (BufPool.addressable_of_new hpool halloc)
      exact ⟨(hinv.sound hc).toSound, ha⟩
  | @dgram depth _ _ slotBits maxIov fd bufRing _ _ _ _ hslot hmax capBits w hpool halloc h =>
      have hinv : w.Inv := by
        apply h.invariant
          (UdpWorker.inv_start depth fd bufRing hpool halloc slotBits maxIov hslot hmax capBits)
        intro w w' e hinv hadmits hstep
        obtain ⟨⟨ok, _⟩, hresult, rfl⟩ := Option.map_eq_some_iff.mp hstep
        apply hinv.steps (hinv.step_cases hadmits hresult)
      exact ⟨hinv.sound.base, hinv.sound.addressable⟩

/-- The pending window, the indices, sizes and bytes of the pending blocks, the send queue and
the set of free blocks are as before. -/
structure Untouched (b : WriteBufBase) (p : BufPool) (b' : WriteBufBase) (p' : BufPool) :
    Prop where
  head : b'.pending.head = b.pending.head
  tail : b'.pending.tail = b.pending.tail
  pending : b'.pendingList = b.pendingList
  dataSize : ∀ i ∈ b.pendingList, p'.dataSize i = p.dataSize i
  block : ∀ i ∈ b.pendingList, p'.block i = p.block i
  send : b'.send = b.send
  free : p'.freeList.Perm p.freeList

theorem Undone.untouched (hu : Undone b p b' p') (h : Sound b p) (ha : p.Addressable) :
  Untouched b p b' p'
  := by
  constructor
  · apply hu.head
  · apply hu.tail
  · apply hu.pending
  · intro i _
    apply hu.dataSize
  · intro i hi
    obtain ⟨hlt, hfree⟩ := h.of_mem_pending hi
    apply hu.block ha i hlt hfree
  · apply hu.send
  · apply hu.free

/-- `append` is exact and atomic. -/
theorem append_exact (h : Reachable b p) (data : List UInt8) :
  ∃ ok b' p', b.append p data = some (ok, b', p')
    ∧ (ok = true ↔ b.blocksNeeded p data ≤ b.capacity - b.pendingList.length
      ∧ b.blocksNeeded p data ≤ p.freeList.length)
    ∧ (ok = true → p'.content b'.pendingList = p.content b.pendingList ++ data
      ∧ (∀ i, p'.dataSize i ≤ p.bufSize)
      ∧ ∃ F, F.length = b.blocksNeeded p data ∧ p.freeList = F ++ p'.freeList
        ∧ b'.pendingList = b.pendingList ++ F)
    ∧ (ok = false → Untouched b p b' p')
  := by
  obtain ⟨hsound, ha⟩ := h.sound
  obtain ⟨ok, b', p', happend, hspec⟩ := append_spec hsound data
  refine ⟨ok, b', p', happend, ?_, ?_, ?_⟩
  · have hle : b.pendingList.length ≤ b.capacity := by
      rw [length_pendingList]
      apply hsound.pending_le
    rw [append_true_iff hsound happend, HasRoom]
    omega
  · rintro rfl
    obtain ⟨-, F, hg⟩ := hspec
    have hlen := length_of_append hsound happend
    rw [hg.pending, List.length_append, Nat.add_left_cancel_iff] at hlen
    exact ⟨hg.content ha, hg.size_le, F, hlen, hg.free, hg.pending⟩
  · rintro rfl
    apply Undone.untouched hspec hsound ha

/-- A pool of two blocks of two bytes, of which the first byte of one is pending: two bytes fill
it and take the other. -/
theorem append_exact_two_bytes :
  ∃ b p b' p', Reachable b p ∧ p.content b.pendingList = [1]
    ∧ b.append p [2, 3] = some (true, b', p') ∧ p'.content b'.pendingList = [1, 2, 3]
  := by
  have hrun : (BufPool.new 1 2 (by decide) (by decide) (by decide)).bind (fun pool =>
      (Reaches.follow WriteSystem.step WriteSystem.Admits [(0, .append [1])]
        (.new 1 pool (fun _ => 1))).map (fun σ => (σ.num, σ.pool.content (σ.bufs 0).pendingList,
          ((σ.bufs 0).append σ.pool [2, 3]).map Prod.fst)))
      = some (1, [1], some true) := by
    decide +kernel
  obtain ⟨pool, hpool, hfollow⟩ := Option.bind_eq_some_iff.mp hrun
  obtain ⟨σ, hreach, hfinal⟩ := Reaches.of_follow _ hfollow
  obtain ⟨hnum, hcontent, hok⟩ := by
    simpa only [Prod.mk.injEq] using hfinal
  have hreachable : Reachable (σ.bufs 0).toWriteBufBase σ.pool :=
    .stream hpool (by decide) hreach (by omega)
  obtain ⟨ok, b', p', happend, -, htrue, -⟩ := append_exact hreachable [2, 3]
  rw [happend] at hok
  cases hok
  refine ⟨_, _, b', p', hreachable, hcontent, happend, ?_⟩
  rw [(htrue rfl).1, hcontent]
  rfl

/-! ### `prepend` -/

/-- `prepend` is exact and atomic for the data: it returns `true` exactly when the blocks that hold
the data fit in the remaining capacity and in the pool, and has then put the data in front of the
pending content; otherwise it has changed nothing. -/
structure PrependExact (b : WriteBufBase) (p : BufPool) (data : List UInt8) (ok : Bool)
    (b' : WriteBufBase) (p' : BufPool) : Prop where
  success : ok = true ↔
    (data.length + p.bufSize - 1) / p.bufSize ≤ b.capacity - b.pendingList.length
      ∧ (data.length + p.bufSize - 1) / p.bufSize ≤ p.freeList.length
  content : ok = true → p'.content b'.pendingList = data ++ p.content b.pendingList
  failure : ok = false → Untouched b p b' p'

/-- `prepend` is exact as long as the rounding of the size to blocks does not wrap. -/
theorem Reachable.prepend_of_lt (h : Reachable b p) {data : List UInt8} {ok : Bool}
    {b' : WriteBufBase} {p' : BufPool} (hprepend : b.prepend p data = some (ok, b', p'))
    (hsize : data.length + p.bufSize - 1 < 2 ^ 32) :
  PrependExact b p data ok b' p'
  := by
  obtain ⟨hsound, ha⟩ := h.sound
  have hblocks : blockToWrite p data = (data.length + p.bufSize - 1) / p.bufSize := by
    rw [blockToWrite, u32_of_lt hsize]
  constructor
  · have hle : b.pendingList.length ≤ b.capacity := by
      rw [length_pendingList]
      apply hsound.pending_le
    rw [prepend_true_iff hsound hprepend, HasRoom, hblocks]
    omega
  · rintro rfl
    obtain ⟨-, -, hcontent⟩ := prepend_exchange hsound hprepend
    rw [hcontent ha, if_pos rfl, taken_eq_self hsize]
  · rintro rfl
    obtain ⟨_, _, _, hspec, hundone⟩ := prepend_spec hsound data
    rw [hprepend] at hspec
    cases hspec
    apply Undone.untouched hundone hsound ha

/-- If the rounding wraps, `prepend` takes no block, and has no reason to fail. -/
theorem Reachable.prepend_of_wrap (h : Reachable b p) {data : List UInt8}
    (hdata : data.length < 2 ^ 32) (hwrap : 2 ^ 32 ≤ data.length + p.bufSize - 1) :
  ∃ b' p', b.prepend p data = some (true, b', p')
    ∧ p'.content b'.pendingList = p.content b.pendingList
  := by
  obtain ⟨hsound, ha⟩ := h.sound
  have hblocks : blockToWrite p data = 0 := by
    have hlt := p.bufSize_lt
    rw [blockToWrite, u32]
    apply Nat.div_eq_of_lt
    omega
  have hroom : HasRoom b p (blockToWrite p data) := by
    rw [hblocks]
    constructor
    · rw [Nat.add_zero, length_pendingList]
      apply hsound.pending_le
    · apply Nat.zero_le
  obtain ⟨b', p', hprepend⟩ := prepend_true hsound hroom
  obtain ⟨-, -, hcontent⟩ := prepend_exchange hsound hprepend
  use b', p', hprepend
  rw [hcontent ha, if_pos rfl, taken, hblocks, Nat.zero_mul, List.take_zero, List.nil_append]

/-- In every state reached, for every size that an `unsigned int` can have: `prepend` returns, and
it is exact if and only if the rounding of the size to blocks does not wrap. -/
theorem prepend_exact_iff (h : Reachable b p) {data : List UInt8} (hdata : data.length < 2 ^ 32) :
  ∃ ok b' p', b.prepend p data = some (ok, b', p')
    ∧ (PrependExact b p data ok b' p' ↔ data.length + p.bufSize - 1 < 2 ^ 32)
  := by
  obtain ⟨ok, b', p', hprepend, -⟩ := prepend_spec h.sound.1 data
  use ok, b', p', hprepend
  constructor
  · intro hexact
    by_contra hwrap
    rw [not_lt] at hwrap
    obtain ⟨b₁, p₁, hprepend₁, hsame⟩ := h.prepend_of_wrap hdata hwrap
    rw [hprepend] at hprepend₁
    cases hprepend₁
    have hlength := congrArg List.length ((hexact.content rfl).symm.trans hsame)
    rw [List.length_append] at hlength
    have hlt := p.bufSize_lt
    omega
  · intro hsize
    apply h.prepend_of_lt hprepend hsize

/-- A pool of two blocks of two bytes, of which one is pending: a byte is put in front, in the
other block. -/
theorem prepend_exact_iff_one_byte :
  ∃ b p b' p', Reachable b p ∧ p.content b.pendingList = [1]
    ∧ b.prepend p [7] = some (true, b', p') ∧ PrependExact b p [7] true b' p'
    ∧ p'.content b'.pendingList = [7, 1]
  := by
  have hrun : (BufPool.new 1 2 (by decide) (by decide) (by decide)).bind (fun pool =>
      (Reaches.follow WriteSystem.step WriteSystem.Admits [(0, .append [1])]
        (.new 1 pool (fun _ => 1))).map (fun σ => (σ.num, σ.pool.bufSize,
          σ.pool.content (σ.bufs 0).pendingList, ((σ.bufs 0).prepend σ.pool [7]).map Prod.fst)))
      = some (1, 2, [1], some true) := by
    decide +kernel
  obtain ⟨pool, hpool, hfollow⟩ := Option.bind_eq_some_iff.mp hrun
  obtain ⟨σ, hreach, hfinal⟩ := Reaches.of_follow _ hfollow
  obtain ⟨hnum, hbufSize, hcontent, hok⟩ := by
    simpa only [Prod.mk.injEq] using hfinal
  have hreachable : Reachable (σ.bufs 0).toWriteBufBase σ.pool :=
    .stream hpool (by decide) hreach (by omega)
  have hdata : [(7 : UInt8)].length < 2 ^ 32 := by decide
  obtain ⟨ok, b', p', hprepend, hiff⟩ := prepend_exact_iff hreachable hdata
  rw [hprepend] at hok
  cases hok
  have hexact : PrependExact (σ.bufs 0).toWriteBufBase σ.pool [7] true b' p' := by
    apply hiff.mpr
    rw [hbufSize]
    decide
  refine ⟨_, _, b', p', hreachable, hcontent, hprepend, hexact, ?_⟩
  rw [hexact.content rfl, hcontent]
  rfl

/-- A size of `2 ^ 32 - 1` bytes wraps to no block of two bytes: `prepend` returns `true`, and the
pending content is what it was, although neither the buffer nor the pool has room. -/
theorem prepend_loses_data :
  ∃ b p b' p', Reachable b p
    ∧ b.prepend p (List.replicate (2 ^ 32 - 1) 7) = some (true, b', p')
    ∧ p'.content b'.pendingList = p.content b.pendingList
    ∧ p'.content b'.pendingList ≠ List.replicate (2 ^ 32 - 1) 7 ++ p.content b.pendingList
    ∧ b.capacity - b.pendingList.length < (2 ^ 32 - 1 + p.bufSize - 1) / p.bufSize
    ∧ p.freeList.length < (2 ^ 32 - 1 + p.bufSize - 1) / p.bufSize
  := by
  obtain ⟨pool, hpool, -, hbufSize, hfree, -⟩ :=
    BufPool.new_spec 0 2 (by decide) (by decide) (by decide)
  have hreachable : Reachable ((WriteSystem.new 1 pool (fun _ => 0)).bufs 0).toWriteBufBase pool :=
    .stream hpool (by decide) .start Nat.one_pos
  have hlength : (List.replicate (2 ^ 32 - 1) (7 : UInt8)).length = 2 ^ 32 - 1 :=
    List.length_replicate
  obtain ⟨b', p', hprepend, hsame⟩ := hreachable.prepend_of_wrap (by omega)
    (show 2 ^ 32 ≤ (List.replicate (2 ^ 32 - 1) (7 : UInt8)).length + pool.bufSize - 1 by omega)
  refine ⟨_, pool, b', p', hreachable, hprepend, hsame, ?_, ?_, ?_⟩
  · rw [hsame]
    intro heq
    have hlen := congrArg List.length heq
    rw [List.length_append, List.length_replicate] at hlen
    omega
  · rw [hbufSize]
    apply Nat.lt_of_le_of_lt (Nat.sub_le _ _)
    change 2 ^ 0 < _
    decide
  · rw [hbufSize, hfree]
    decide

end WriteBufBase

end Proactor
