import UringProactor.Buffer.Append

/-!
# What `prepend` does

`prepend` writes the blocks it takes below the head of the pending window, at counters that
may lie below zero modulo `2 ^ 64`, and moves the head at the very end.  Until then the
pending window is as before, and the failure path gives back what was taken.
-/

namespace Proactor

namespace WriteBufBase

/-- `Staged b p n F done b' p'`: of the `n` counters below the head of the pending window of
`b`, the first hold the blocks `F` taken from the pool, with the bytes `done`; the pending
window is that of `b`. -/
structure Staged (b : WriteBufBase) (p : BufPool) (n : ℕ) (F : List ℕ) (done : List UInt8)
    (b' : WriteBufBase) (p' : BufPool) : Prop where
  bits : b'.bits = b.bits
  send : b'.send = b.send
  head : b'.pending.head = b.pending.head
  tail : b'.pending.tail = b.pending.tail
  pending : b'.pendingList = b.pendingList
  staged : b'.pending.window b'.bits (b.pending.head - BitVec.ofNat 64 n) F.length = F
  poolBits : p'.bits = p.bits
  bufSize : p'.bufSize = p.bufSize
  free : p.freeList = F ++ p'.freeList
  size_le : ∀ i, p'.dataSize i ≤ p.bufSize
  size_other : ∀ i, i ∉ F → p'.dataSize i = p.dataSize i
  content : p.Addressable → p'.content F = done
  block_other : p.Addressable → ∀ i < p.bufNum, i ∉ F → p'.block i = p.block i

theorem Staged.refl {b : WriteBufBase} {p : BufPool} (h : Sound b p) (n : ℕ) :
  Staged b p n [] [] b p
  where
  bits := rfl
  send := rfl
  head := rfl
  tail := rfl
  pending := rfl
  staged := rfl
  poolBits := rfl
  bufSize := rfl
  free := rfl
  size_le := h.size_le
  size_other _ _ := rfl
  content _ := rfl
  block_other _ _ _ _ := rfl

section

variable {b b' : WriteBufBase} {p p' : BufPool} {n : ℕ} {F : List ℕ} {done : List UInt8}

theorem Staged.addressable (hs : Staged b p n F done b' p') (ha : p.Addressable) :
  p'.Addressable
  := by
  unfold BufPool.Addressable BufPool.bufNum at *
  rw [hs.poolBits, hs.bufSize]
  apply ha

theorem Staged.bufNum_eq (hs : Staged b p n F done b' p') :
  p'.bufNum = p.bufNum
  := by
  rw [BufPool.bufNum, hs.poolBits]
  rfl

/-- The counters below the head do not share slots with the pending window or with each
other. -/
theorem Staged.slot_ne (hs : Staged b p n F done b' p') (hF : F.length < n)
    (hroom : n + b.pending.size ≤ b.capacity) {j : ℕ} (hj : j < n + b.pending.size)
    (hne : j ≠ F.length) :
  Circular.slot b'.bits (b.pending.head - BitVec.ofNat 64 n + BitVec.ofNat 64 j)
    ≠ Circular.slot b'.bits (b.pending.head - BitVec.ofNat 64 n + BitVec.ofNat 64 F.length)
  := by
  have hk := b'.bits_lt
  unfold capacity at hroom
  rw [← hs.bits] at hroom
  rcases Nat.lt_or_gt_of_ne hne with hlt | hgt
  · apply Circular.slot_add_ne hk _ hlt
    omega
  · apply (Circular.slot_add_ne hk _ hgt _).symm
    omega

/-- Storing at the next counter below the head changes neither the pending window nor what
is staged. -/
theorem Staged.set (hs : Staged b p n F done b' p') (hF : F.length < n)
    (hroom : n + b.pending.size ≤ b.capacity) (i : ℕ) :
  ({ b' with
      pending := b'.pending.set b'.bits
        (b.pending.head - BitVec.ofNat 64 n + BitVec.ofNat 64 F.length) i } :
      WriteBufBase).pendingList = b'.pendingList
    ∧ (b'.pending.set b'.bits
        (b.pending.head - BitVec.ofNat 64 n + BitVec.ofNat 64 F.length) i).window b'.bits
        (b.pending.head - BitVec.ofNat 64 n) (F.length + 1) = F ++ [i]
  := by
  have hsize : b'.pending.size = b.pending.size := by
    rw [Circular.size, hs.head, hs.tail]
    rfl
  constructor
  · change (b'.pending.set b'.bits _ i).window b'.bits b'.pending.head b'.pending.size = _
    apply Circular.window_set_of_ne
    intro j hj
    have hhead : b'.pending.head + BitVec.ofNat 64 j
        = b.pending.head - BitVec.ofNat 64 n + BitVec.ofNat 64 (n + j) := by
      rw [hs.head, BitVec.ofNat_add, ← BitVec.add_assoc, BitVec.sub_add_cancel]
    rw [hhead]
    apply hs.slot_ne hF hroom <;> omega
  · rw [Circular.window_succ_last, Circular.get_set_self, Circular.window_set_of_ne, hs.staged]
    intro j hj
    apply hs.slot_ne hF hroom <;> omega

/-- Taking a free block, storing it at the next counter and filling it. -/
theorem Staged.push (hs : Staged b p n F done b' p') (h : Sound b p) (hF : F.length < n)
    (hroom : n + b.pending.size ≤ b.capacity) {i : ℕ} {l : List ℕ}
    (hfree : p'.freeList = i :: l) (data : List UInt8) :
  Staged b p n (F ++ [i]) (done ++ data.take (min data.length p'.bufSize))
    { b' with
      pending := b'.pending.set b'.bits
        (b.pending.head - BitVec.ofNat 64 n + BitVec.ofNat 64 F.length) i }
    ((({ p' with free := p'.free.pop } : BufPool).copy (p'.bufAddr i)
        (data.take (min data.length p'.bufSize))).setDataSize i (min data.length p'.bufSize))
  := by
  have hnd := h.nodup
  have hlt := h.lt
  rw [hs.free, hfree, List.append_assoc, List.cons_append] at hnd hlt
  have hiF : i ∉ F := by
    intro hiF
    apply List.disjoint_of_nodup_append hnd hiF List.mem_cons_self
  have hi : i < p'.bufNum := by
    rw [hs.bufNum_eq]
    apply hlt
    apply List.mem_append_right _ List.mem_cons_self
  obtain ⟨hpending, hstaged⟩ := hs.set hF hroom i
  generalize hm : min data.length p'.bufSize = m
  have hlen : (data.take m).length = m := by
    rw [List.length_take]
    omega
  have hself : ((({ p' with free := p'.free.pop } : BufPool).copy (p'.bufAddr i)
      (data.take m)).setDataSize i m).block i = data.take m := by
    have := BufPool.block_copy_start (p := { p' with free := p'.free.pop }) i (data.take m)
    rwa [hlen] at this
  have hother : p.Addressable → ∀ j < p.bufNum, j ≠ i →
      ((({ p' with free := p'.free.pop } : BufPool).copy (p'.bufAddr i)
        (data.take m)).setDataSize i m).block j = p'.block j := by
    intro ha j hj hji
    apply BufPool.block_copy_start_of_ne (p := { p' with free := p'.free.pop })
      (hs.addressable ha) hi (by rwa [← hs.bufNum_eq] at hj) hji
    · change (data.take m).length ≤ p'.bufSize
      omega
    · change p'.dataSize j ≤ p'.bufSize
      rw [hs.bufSize]
      apply hs.size_le
  constructor
  · apply hs.bits
  · apply hs.send
  · apply hs.head
  · apply hs.tail
  · rw [hpending, hs.pending]
  · rw [List.length_append, List.length_singleton]
    apply hstaged
  · apply hs.poolBits
  · apply hs.bufSize
  · change _ = _ ++ ({ p' with free := p'.free.pop } : BufPool).freeList
    rw [hs.free, hfree, (BufPool.acquire_of_cons hfree).2, List.append_assoc,
      List.singleton_append]
  · intro j
    change Function.update p'.dataSize i m j ≤ _
    rw [Function.update_apply]
    split
    · rw [← hs.bufSize]
      omega
    · apply hs.size_le
  · intro j hj
    rw [List.mem_append, List.mem_singleton, not_or] at hj
    change Function.update p'.dataSize i m j = _
    rw [Function.update_of_ne hj.2]
    apply hs.size_other j hj.1
  · intro ha
    rw [BufPool.content, List.flatMap_append, List.flatMap_singleton, hself, ← hs.content ha]
    congr 1
    apply List.flatMap_congr
    intro j hj
    apply hother ha j (hlt j (List.mem_append_left _ hj))
    rintro rfl
    apply hiF hj
  · intro ha j hj hjF
    rw [List.mem_append, List.mem_singleton, not_or] at hjF
    rw [hother ha j hj hjF.2]
    apply hs.block_other ha j hj hjF.1

/-- The failure path of `prepend` gives back what was staged. -/
theorem Staged.undo (hs : Staged b p n F done b' p') (h : Sound b p) (hF : F.length ≤ n)
    (hroom : n + b.pending.size ≤ b.capacity) :
  ∃ p'', releaseRange b'.bits b'.pending (b.pending.head - BitVec.ofNat 64 n)
      (b.pending.head - BitVec.ofNat 64 n + BitVec.ofNat 64 F.length) p' = some p''
    ∧ Undone b p b' p''
  := by
  have hcap : b.capacity < 2 ^ 64 := Nat.pow_lt_pow_right (by omega) b.bits_lt
  have hdist : (b.pending.head - BitVec.ofNat 64 n + BitVec.ofNat 64 F.length
      - (b.pending.head - BitVec.ofNat 64 n)).toNat = F.length := by
    rw [BitVec.add_comm, BitVec.add_sub_cancel, BitVec.toNat_ofNat]
    apply Nat.mod_eq_of_lt
    omega
  have hlen := h.length_freeList_le
  obtain ⟨p₂, hp₂, hr⟩ := BufPool.release_all F (p := p') (by
    rw [hs.free, List.length_append, ← hs.bufNum_eq] at hlen
    omega)
  use p₂
  constructor
  · rw [releaseRange_eq, hdist, hs.staged, hp₂]
  · have hnew : ∀ i ∈ F, i ∈ p.freeList := by
      intro i hi
      rw [hs.free]
      exact List.mem_append_left _ hi
    have hdata : ∀ i, p₂.dataSize i = p.dataSize i := by
      apply hr.dataSize_eq
      · intro i hi
        exact h.free_zero i (hnew i hi)
      · exact hs.size_other
    constructor
    · apply hs.bits
    · apply hs.send
    · apply hs.head
    · apply hs.tail
    · apply hs.pending
    · rw [hr.bits, hs.poolBits]
    · rw [hr.bufSize, hs.bufSize]
    · rw [hr.freeList, hs.free]
      apply List.perm_append_comm
    · apply hdata
    · intro ha i hi hnot
      have hiF : i ∉ F := mt (hnew i) hnot
      rw [← hs.block_other ha i hi hiF, BufPool.block, BufPool.block, BufPool.bufAddr,
        BufPool.bufAddr, hr.bufs, hr.bufSize, hdata, hs.size_other i hiF]

/-- `Fronted b p F done b' p'`: the buffer `b'` and the pool `p'` are `b` and `p` after the
blocks `F` were taken and put in front of the pending window, with the bytes `done`. -/
structure Fronted (b : WriteBufBase) (p : BufPool) (F : List ℕ) (done : List UInt8)
    (b' : WriteBufBase) (p' : BufPool) : Prop where
  bits : b'.bits = b.bits
  send : b'.send = b.send
  pending : b'.pendingList = F ++ b.pendingList
  room : F.length + b.pending.size ≤ b.capacity
  poolBits : p'.bits = p.bits
  bufSize : p'.bufSize = p.bufSize
  free : p.freeList = F ++ p'.freeList
  size_le : ∀ i, p'.dataSize i ≤ p.bufSize
  size_other : ∀ i, i ∉ F → p'.dataSize i = p.dataSize i
  content : p.Addressable → p'.content F = done
  block_other : p.Addressable → ∀ i < p.bufNum, i ∉ F → p'.block i = p.block i

/-- Moving the head down to the first staged block. -/
theorem Staged.publish (hs : Staged b p n F done b' p') (hF : F.length = n)
    (hroom : n + b.pending.size ≤ b.capacity) :
  Fronted b p F done
    { b' with pending := { b'.pending with head := b.pending.head - BitVec.ofNat 64 n } } p'
  := by
  have hcap : b.capacity < 2 ^ 64 := Nat.pow_lt_pow_right (by omega) b.bits_lt
  have hsize : b'.pending.size = b.pending.size := by
    rw [Circular.size, hs.head, hs.tail]
    rfl
  constructor
  · apply hs.bits
  · apply hs.send
  · change ({ b'.pending with head := b.pending.head - BitVec.ofNat 64 n } :
      Circular 64 ℕ).toList b'.bits = _
    have hstaged := hs.staged
    rw [hF] at hstaged
    rw [Circular.toList_of_head_eq (q := b'.pending) (n := n) (by omega), hstaged, ← hs.pending]
    · rfl
    · rw [hs.head, BitVec.sub_add_cancel]
  · rw [hF]
    apply hroom
  · apply hs.poolBits
  · apply hs.bufSize
  · apply hs.free
  · apply hs.size_le
  · apply hs.size_other
  · apply hs.content
  · apply hs.block_other

/-- What `prepend` promises when it computes the number `n` of blocks: on `true` the data,
cut to the size of `n` blocks, is in front of the pending content, and on `false` nothing
has happened. -/
def Prepended (b : WriteBufBase) (p : BufPool) (n : ℕ) (data : List UInt8) :
    Bool → WriteBufBase → BufPool → Prop
  | true, b', p' => ∃ F, F.length = n ∧ Fronted b p F (data.take (n * p.bufSize)) b' p'
  | false, b', p' => Undone b p b' p'

/-- As long as the loop runs, blocks are missing. -/
theorem Staged.length_lt (hs : Staged b p n F done b' p') (hF : F.length ≤ n)
    {i : BitVec 64} (hi : i = b.pending.head - BitVec.ofNat 64 n + BitVec.ofNat 64 F.length)
    (hne : i ≠ b'.pending.head) :
  F.length < n
  := by
  apply Nat.lt_of_le_of_ne hF
  intro hFn
  apply hne
  rw [hi, hFn, BitVec.sub_add_cancel, hs.head]

/-- The loop of `prepend`, started after some blocks have been staged. -/
theorem prependLoop_spec (h : Sound b p) (hroom : n + b.pending.size ≤ b.capacity)
    {data rest : List UInt8} {i : BitVec 64}
    (hs : Staged b p n F (data.take (F.length * p.bufSize)) b' p') (hF : F.length ≤ n)
    (hi : i = b.pending.head - BitVec.ofNat 64 n + BitVec.ofNat 64 F.length)
    (hrest : rest = data.drop (F.length * p.bufSize)) :
  ∃ ok b'' p'', prependLoop (b.pending.head - BitVec.ofNat 64 n) b' i p' rest
      = some (ok, b'', p'') ∧ Prepended b p n data ok b'' p''
  := by
  have hcap : b.capacity < 2 ^ 64 := Nat.pow_lt_pow_right (by omega) b.bits_lt
  have hend : ∀ F : List ℕ, F.length ≤ n →
      b.pending.head - BitVec.ofNat 64 n + BitVec.ofNat 64 F.length = b.pending.head →
      F.length = n := by
    intro F hF heq
    bv_omega
  fun_induction prependLoop (b.pending.head - BitVec.ofNat 64 n) b' i p' rest
    generalizing F with
  | case1 b' p' rest =>
      have hFn := hend F hF (by rw [← hi, hs.head])
      refine ⟨true, _, p', rfl, F, hFn, ?_⟩
      rw [← hFn]
      rw [← hFn] at hs hroom
      apply hs.publish rfl hroom
  | case2 b' i p' rest _ hacq =>
      obtain ⟨p'', hrel, hundone⟩ := hs.undo h hF hroom
      refine ⟨false, b', p'', ?_, hundone⟩
      rw [hi, hrel]
      rfl
  | case3 b' i p' rest hne idx p₁ hacq toCopy p₂ =>
      rename_i ih
      obtain ⟨l, hfree, rfl⟩ := BufPool.acquire_eq_some hacq
      have hlt := hs.length_lt hF hi hne
      have hpush := hs.push h hlt hroom hfree rest
      have htake : rest.take (min rest.length p'.bufSize) = rest.take p.bufSize := by
        rw [hs.bufSize, Nat.min_comm]
        exact List.take_eq_take_min.symm
      have hdrop : rest.drop (min rest.length p'.bufSize) = rest.drop p.bufSize := by
        rw [hs.bufSize]
        rcases Nat.le_total p.bufSize rest.length with hle | hle
        · rw [Nat.min_eq_right hle]
        · rw [Nat.min_eq_left hle, List.drop_length, List.drop_of_length_le hle]
      have hlen : (F ++ [idx]).length * p.bufSize = F.length * p.bufSize + p.bufSize := by
        rw [List.length_append, List.length_singleton, Nat.succ_mul]
      apply ih (F := F ++ [idx])
      · rw [hlen, List.take_add, ← hrest, ← htake, hi]
        apply hpush
      · rw [List.length_append, List.length_singleton]
        apply hlt
      · rw [hi, List.length_append, List.length_singleton, BitVec.ofNat_add, BitVec.add_assoc]
        rfl
      · rw [hlen, ← List.drop_drop, ← hrest, ← hdrop]

/-- The number of blocks `prepend` computes, `block_to_write`. -/
def blockToWrite (p : BufPool) (data : List UInt8) : ℕ :=
  u32 (data.length + p.bufSize - 1) / p.bufSize

/-- What `prepend` takes of its data: as much as the blocks hold that it computes. -/
def taken (p : BufPool) (data : List UInt8) : List UInt8 :=
  data.take (blockToWrite p data * p.bufSize)

/-- Unless the rounding wraps, the blocks hold the data. -/
theorem length_le_blockToWrite {data : List UInt8} (h : data.length + p.bufSize - 1 < 2 ^ 32) :
  data.length ≤ blockToWrite p data * p.bufSize
  := by
  have hpos := p.bufSize_pos
  rw [blockToWrite, u32_of_lt h]
  have hdiv := Nat.div_add_mod (data.length + p.bufSize - 1) p.bufSize
  have hmod := Nat.mod_lt (data.length + p.bufSize - 1) hpos
  rw [Nat.mul_comm] at hdiv
  omega

/-- Unless the rounding wraps, all data is taken. -/
theorem taken_eq_self {data : List UInt8} (h : data.length + p.bufSize - 1 < 2 ^ 32) :
  taken p data = data
  := List.take_of_length_le (length_le_blockToWrite h)

/-- `prepend` returns, and keeps its promise. -/
theorem prepend_spec (h : Sound b p) (data : List UInt8) :
  ∃ ok b' p', b.prepend p data = some (ok, b', p')
    ∧ Prepended b p (blockToWrite p data) data ok b' p'
  := by
  fun_cases prepend b p data with
  | case1 => exact ⟨false, b, p, rfl, Undone.refl b p⟩
  | case2 n _ hle =>
      have hroom : n + b.pending.size ≤ b.capacity := by
        have := h.pending_le
        omega
      apply prependLoop_spec (n := n) (F := []) h hroom
      · rw [List.length_nil, Nat.zero_mul, List.take_zero]
        apply Staged.refl h
      · apply Nat.zero_le
      · exact (BitVec.add_zero _).symm
      · simp

end

end WriteBufBase

end Proactor
