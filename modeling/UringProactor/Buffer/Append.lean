import UringProactor.Buffer.WriteBuf

/-!
# What `append` and `prepend` do

A write buffer is sound with its pool when the free queue, the pending window and the send
queue hold different blocks of the pool, free blocks are empty and no block is
overfull.  From a sound state, `append` and `prepend` return: either they take blocks from
the front of the free queue and the pending content grows by the data, or they return
`false`, and the pending window, all sizes and the content of every block that was not
free are as before.
-/

namespace Proactor

namespace WriteBufBase

/-! ### The release loops -/

/-- The loop over a queue releases its blocks in order. -/
theorem releaseFront_eq (k : ℕ) (q : Circular 64 ℕ) (p : BufPool) :
  releaseFront k q p
    = ((q.toList k).foldlM BufPool.release p).map (fun p => ({ q with head := q.tail }, p))
  := by
  fun_induction releaseFront k q p with
  | case1 q p h =>
      rw [(Circular.toList_eq_nil_iff q).mpr h]
      obtain ⟨slots, head, tail⟩ := q
      obtain rfl : head = tail := h
      rfl
  | case2 q p h ih =>
      rw [Circular.toList_of_ne h, List.foldlM_cons]
      simp only [ih]
      change Option.bind _ _ = Option.map _ (Option.bind _ _)
      rw [Option.map_bind]
      rfl

/-- The undo loop of `append` releases the blocks behind the original tail, the last of
them first. -/
theorem releaseBack_eq {k : ℕ} {originalTail : BitVec 64} {q : Circular 64 ℕ} {L F : List ℕ}
    (p : BufPool) (hlist : q.toList k = L ++ F)
    (htail : q.tail = originalTail + BitVec.ofNat 64 F.length) :
  releaseBack k originalTail q p
    = (F.reverse.foldlM BufPool.release p).map (fun p => ({ q with tail := originalTail }, p))
  := by
  induction F using List.reverseRecOn generalizing q p with
  | nil =>
      obtain ⟨slots, head, tail⟩ := q
      obtain rfl : tail = originalTail := by simpa using htail
      rw [releaseBack, if_pos rfl]
      rfl
  | append_singleton F x ih =>
      have hlen : q.size = L.length + F.length + 1 := by
        rw [← Circular.length_toList (k := k), hlist]
        simp [Nat.add_assoc]
      have hlt : q.size < 2 ^ 64 := BitVec.isLt _
      have hne : q.tail ≠ originalTail := by
        rw [htail, List.length_append, List.length_singleton]
        intro h
        have h' := congrArg BitVec.toNat h
        simp only [BitVec.toNat_add, BitVec.toNat_ofNat] at h'
        have := originalTail.isLt
        omega
      have hcat := Circular.toList_eq_concat (k := k) hlen
      rw [hlist, ← List.append_assoc] at hcat
      obtain ⟨hpop, hback⟩ := List.append_inj' hcat rfl
      obtain rfl := List.singleton_inj.mp hback
      have htail' : q.popBack.tail = originalTail + BitVec.ofNat 64 F.length := by
        change q.tail - 1 = _
        rw [htail, List.length_append, List.length_singleton, BitVec.ofNat_add,
          ← BitVec.add_assoc]
        exact BitVec.add_sub_cancel ..
      rw [releaseBack, if_neg hne, List.reverse_append, List.reverse_singleton,
        List.singleton_append, List.foldlM_cons]
      simp only [fun p => ih p hpop.symm htail']
      change Option.bind _ _ = Option.map _ (Option.bind _ _)
      rw [Option.map_bind]
      rfl

/-- The undo loop of `prepend` releases the blocks of a window in order. -/
theorem releaseRange_eq (k : ℕ) (q : Circular 64 ℕ) (j i : BitVec 64) (p : BufPool) :
  releaseRange k q j i p = (q.window k j (i - j).toNat).foldlM BufPool.release p
  := by
  fun_induction releaseRange k q j i p with
  | case1 p => simp
  | case2 j p h ih =>
      have hlen : (i - j).toNat = (i - (j + 1)).toNat + 1 := by bv_omega
      rw [hlen, Circular.window_succ, List.foldlM_cons]
      simp only [ih]
      rfl

/-! ### Sound states -/

/-- The free queue, the pending window and the send queue hold different blocks of the
pool, free blocks are empty, no block is overfull, and the windows fit their arrays. -/
structure Sound (b : WriteBufBase) (p : BufPool) : Prop where
  nodup : (p.freeList ++ (b.pendingList ++ b.sendList)).Nodup
  lt : ∀ i ∈ p.freeList ++ (b.pendingList ++ b.sendList), i < p.bufNum
  free_zero : ∀ i ∈ p.freeList, p.dataSize i = 0
  size_le : ∀ i, p.dataSize i ≤ p.bufSize
  pending_le : b.pending.size ≤ b.capacity
  send_le : b.send.size ≤ b.capacity

theorem length_pendingList (b : WriteBufBase) :
  b.pendingList.length = b.pending.size
  := Circular.length_toList _

theorem length_sendList (b : WriteBufBase) :
  b.sendList.length = b.send.size
  := Circular.length_toList _

/-- A pool has no more free blocks than blocks. -/
theorem Sound.length_freeList_le {b : WriteBufBase} {p : BufPool} (h : Sound b p) :
  p.freeList.length ≤ p.bufNum
  := by
  apply Ownership.length_le_of_nodup (List.Nodup.of_append_left h.nodup)
  exact fun i hi => h.lt i (List.mem_append_left _ hi)

/-- The block before the tail is the last pending block. -/
theorem back_eq {b : WriteBufBase} {L : List ℕ} {t : ℕ} (h : b.pendingList = L ++ [t]) :
  b.pending.back b.bits = t
  := by
  have hlen : b.pending.size = L.length + 1 := by
    rw [← length_pendingList, h, List.length_append, List.length_singleton]
  have hcat := Circular.toList_eq_concat (k := b.bits) hlen
  rw [show b.pending.toList b.bits = _ from h] at hcat
  obtain ⟨-, hback⟩ := List.append_inj' hcat rfl
  apply (List.singleton_inj.mp hback).symm

/-! ### `append` -/

/-- `Grown b p F done b' p'`: the buffer `b'` and the pool `p'` are `b` and `p` after the
blocks `F` were taken and pushed behind the pending window, and the bytes `done` were
written behind its content. -/
structure Grown (b : WriteBufBase) (p : BufPool) (F : List ℕ) (done : List UInt8)
    (b' : WriteBufBase) (p' : BufPool) : Prop where
  bits : b'.bits = b.bits
  send : b'.send = b.send
  head : b'.pending.head = b.pending.head
  tail : b'.pending.tail = b.pending.tail + BitVec.ofNat 64 F.length
  pending : b'.pendingList = b.pendingList ++ F
  pending_le : b'.pending.size ≤ b'.capacity
  poolBits : p'.bits = p.bits
  bufSize : p'.bufSize = p.bufSize
  free : p.freeList = F ++ p'.freeList
  size_le : ∀ i, p'.dataSize i ≤ p.bufSize
  size_other : ∀ i, i ∉ F → b.pendingList.getLast? ≠ some i → p'.dataSize i = p.dataSize i
  content : p.Addressable → p'.content b'.pendingList = p.content b.pendingList ++ done
  block_other : p.Addressable → ∀ i < p.bufNum, i ∉ F → b.pendingList.getLast? ≠ some i →
    p'.block i = p.block i
  block_last : p.Addressable → ∀ t, b.pendingList.getLast? = some t → p.block t <+: p'.block t

theorem Grown.refl {b : WriteBufBase} {p : BufPool} (h : Sound b p) :
  Grown b p [] [] b p
  where
  bits := rfl
  send := rfl
  head := rfl
  tail := by simp
  pending := by simp
  pending_le := h.pending_le
  poolBits := rfl
  bufSize := rfl
  free := rfl
  size_le := h.size_le
  size_other _ _ _ := rfl
  content _ := by simp
  block_other _ _ _ _ _ := rfl
  block_last _ _ _ := List.prefix_rfl

section

variable {b b' : WriteBufBase} {p p' : BufPool} {F : List ℕ} {done : List UInt8}

/-- A block that is still free was neither taken nor pending. -/
theorem Grown.free_not_mem (hg : Grown b p F done b' p') (h : Sound b p) {i : ℕ}
    (hi : i ∈ p'.freeList) :
  i ∉ F ∧ i ∉ b.pendingList
  := by
  have hnd := h.nodup
  rw [hg.free, List.append_assoc] at hnd
  constructor
  · intro hF
    apply List.disjoint_of_nodup_append hnd hF
    apply List.mem_append_left _ hi
  · intro hb
    apply List.disjoint_of_nodup_append (List.Nodup.of_append_right hnd) hi
    apply List.mem_append_left _ hb

theorem Grown.free_zero (hg : Grown b p F done b' p') (h : Sound b p) {i : ℕ}
    (hi : i ∈ p'.freeList) :
  p'.dataSize i = 0
  := by
  obtain ⟨hF, hb⟩ := hg.free_not_mem h hi
  rw [hg.size_other i hF (fun hl => hb (List.mem_of_getLast? hl))]
  apply h.free_zero
  rw [hg.free]
  apply List.mem_append_right _ hi

/-- Taking a free block and pushing it behind the pending window. -/
theorem Grown.push (hg : Grown b p F done b' p') (h : Sound b p) {i : ℕ} {l : List ℕ}
    (hfree : p'.freeList = i :: l) (hroom : b'.pending.size < b'.capacity) :
  Grown b p (F ++ [i]) done { b' with pending := b'.pending.push b'.bits i }
    { p' with free := p'.free.pop }
  := by
  have hi : i ∈ p'.freeList := by
    rw [hfree]
    apply List.mem_cons_self
  obtain ⟨hF, hb⟩ := hg.free_not_mem h hi
  have hlist : ({ b' with pending := b'.pending.push b'.bits i } : WriteBufBase).pendingList
      = b'.pendingList ++ [i] := Circular.toList_push b'.bits_lt i hroom
  constructor
  · apply hg.bits
  · apply hg.send
  · apply hg.head
  · change b'.pending.tail + 1 = _
    rw [hg.tail, List.length_append, List.length_singleton, BitVec.ofNat_add,
      ← BitVec.add_assoc]
    rfl
  · rw [hlist, hg.pending, List.append_assoc]
  · change (b'.pending.push b'.bits i).size ≤ _
    rw [Circular.size_push b'.bits_lt hroom]
    exact hroom
  · apply hg.poolBits
  · apply hg.bufSize
  · rw [hg.free, hfree, (BufPool.acquire_of_cons hfree).2, List.append_assoc,
      List.singleton_append]
  · apply hg.size_le
  · intro j hj hl
    apply hg.size_other j (fun hj' => hj (List.mem_append_left _ hj')) hl
  · intro ha
    have hempty : p'.block i = [] := by
      apply List.eq_nil_of_length_eq_zero
      rw [BufPool.length_block, hg.free_zero h hi]
    rw [hlist]
    change (b'.pendingList ++ [i]).flatMap p'.block = _
    rw [List.flatMap_append, List.flatMap_singleton, hempty, List.append_nil]
    apply hg.content ha
  · intro ha j hj hjF hl
    apply hg.block_other ha j hj (fun hj' => hjF (List.mem_append_left _ hj')) hl
  · intro ha t ht
    apply hg.block_last ha t ht

/-- The blocks of the pending window are different blocks of the pool. -/
theorem Grown.pending_nodup (hg : Grown b p F done b' p') (h : Sound b p) :
  b'.pendingList.Nodup ∧ ∀ i ∈ b'.pendingList, i < p.bufNum
  := by
  have hnd := h.nodup
  have hlt := h.lt
  rw [hg.free, List.append_assoc] at hnd hlt
  rw [hg.pending]
  constructor
  · apply List.Nodup.append (List.Nodup.of_append_left (List.Nodup.of_append_right
      (List.Nodup.of_append_right hnd))) (List.Nodup.of_append_left hnd)
    intro i hb hF
    apply List.disjoint_of_nodup_append hnd hF
    apply List.mem_append_right _ (List.mem_append_left _ hb)
  · intro i hi
    apply hlt
    rcases List.mem_append.mp hi with hb | hF
    · apply List.mem_append_right _ (List.mem_append_right _ (List.mem_append_left _ hb))
    · apply List.mem_append_left _ hF

/-- The pool stays addressable. -/
theorem Grown.addressable (hg : Grown b p F done b' p') (ha : p.Addressable) :
  p'.Addressable
  := by
  unfold BufPool.Addressable BufPool.bufNum at *
  rw [hg.poolBits, hg.bufSize]
  apply ha

theorem Grown.bufNum_eq (hg : Grown b p F done b' p') :
  p'.bufNum = p.bufNum
  := by
  rw [BufPool.bufNum, hg.poolBits]
  rfl

/-- A block that was neither taken nor last pending is not last pending now. -/
theorem Grown.ne_last (hg : Grown b p F done b' p') {L : List ℕ} {t : ℕ}
    (hlast : b'.pendingList = L ++ [t]) {i : ℕ} (hF : i ∉ F)
    (hl : b.pendingList.getLast? ≠ some i) :
  i ≠ t
  := by
  rintro rfl
  rw [hg.pending] at hlast
  rcases List.eq_nil_or_concat F with rfl | ⟨F', x, rfl⟩
  · apply hl
    rw [List.append_nil] at hlast
    rw [hlast, List.getLast?_concat]
  · rw [List.concat_eq_append, ← List.append_assoc] at hlast
    obtain ⟨-, hx⟩ := List.append_inj' hlast rfl
    apply hF
    rw [List.concat_eq_append, List.singleton_inj.mp hx]
    apply List.mem_append_right _ (List.mem_singleton_self i)

/-- `fillTail` in terms of the last pending block. -/
theorem fillTail_eq {p : BufPool} {L : List ℕ} {t : ℕ} (hlast : b.pendingList = L ++ [t])
    (hle : p.dataSize t ≤ p.bufSize) (data : List UInt8) :
  b.fillTail p data =
    if 0 < min (p.bufSize - p.dataSize t) data.length then
      (min (p.bufSize - p.dataSize t) data.length,
        (p.copy (p.bufAddr t + p.dataSize t)
          (data.take (min (p.bufSize - p.dataSize t) data.length))).setDataSize t
          (p.dataSize t + min (p.bufSize - p.dataSize t) data.length))
    else
      (min (p.bufSize - p.dataSize t) data.length, p)
  := by
  rw [fillTail, back_eq hlast, u32Sub_of_le hle]

/-- `Extended p t extra p'`: the bytes `extra` were written behind those of the block `t`, and the
rest of the pool is as it was. -/
structure Extended (p : BufPool) (t : ℕ) (extra : List UInt8) (p' : BufPool) : Prop where
  bits : p'.bits = p.bits
  bufSize : p'.bufSize = p.bufSize
  free : p'.freeList = p.freeList
  size_self : p'.dataSize t ≤ p.bufSize
  size_other : ∀ i, i ≠ t → p'.dataSize i = p.dataSize i
  self : p'.block t = p.block t ++ extra
  other : p.Addressable → t < p.bufNum → ∀ i < p.bufNum, i ≠ t → p'.block i = p.block i

/-- `fillTail` writes a prefix of the data behind the last pending block. -/
theorem fillTail_extended {p p₁ : BufPool} {L : List ℕ} {t : ℕ} (hlast : b.pendingList = L ++ [t])
    (hle : ∀ i, p.dataSize i ≤ p.bufSize) {data : List UInt8} {toCopy : ℕ}
    (hfill : b.fillTail p data = (toCopy, p₁)) :
  Extended p t (data.take toCopy) p₁
  := by
  have ht := hle t
  rw [fillTail_eq hlast ht] at hfill
  split at hfill
  case isFalse hzero =>
    obtain ⟨rfl, rfl⟩ := Prod.mk.inj hfill
    rw [show min (p.bufSize - p.dataSize t) data.length = 0 by omega, List.take_zero]
    exact ⟨rfl, rfl, rfl, ht, fun _ _ => rfl, (List.append_nil _).symm, fun _ _ _ _ _ => rfl⟩
  case isTrue hpos =>
    obtain ⟨rfl, rfl⟩ := Prod.mk.inj hfill
    generalize hn : min (p.bufSize - p.dataSize t) data.length = n at hpos
    have hlen : (data.take n).length = n := by
      rw [List.length_take]
      omega
    constructor
    · rfl
    · rfl
    · rfl
    · change Function.update p.dataSize t _ t ≤ _
      rw [Function.update_self]
      omega
    · intro i hi
      exact Function.update_of_ne hi ..
    · have hself := BufPool.block_copy_self (p := p) t (data.take n)
      rwa [hlen] at hself
    · intro ha ht i hi hne
      apply BufPool.block_copy_of_ne ha ht hi hne _ (hle i)
      omega

/-- Writing behind the last pending block writes behind the content. -/
theorem Grown.extended (hg : Grown b p F done b' p') (h : Sound b p) {L : List ℕ} {t : ℕ}
    (hlast : b'.pendingList = L ++ [t]) {extra : List UInt8} {p₁ : BufPool}
    (he : Extended p' t extra p₁) :
  Grown b p F (done ++ extra) b' p₁
  := by
  obtain ⟨hnd, hlt⟩ := hg.pending_nodup h
  have htlt : t < p'.bufNum := by
    rw [hg.bufNum_eq]
    apply hlt
    rw [hlast]
    simp
  have htL : t ∉ L := by
    rw [hlast] at hnd
    intro htL
    apply List.disjoint_of_nodup_append hnd htL (List.mem_singleton_self t)
  have hother : p.Addressable → ∀ j < p.bufNum, j ≠ t → p₁.block j = p'.block j := by
    intro ha j hj
    apply he.other (hg.addressable ha) htlt
    rwa [hg.bufNum_eq]
  refine { hg with
    poolBits := he.bits.trans hg.poolBits
    bufSize := he.bufSize.trans hg.bufSize
    free := he.free ▸ hg.free
    size_le := ?_
    size_other := ?_
    content := ?_
    block_other := ?_
    block_last := ?_ }
  · intro i
    rcases eq_or_ne i t with rfl | hne
    · rw [← hg.bufSize]
      apply he.size_self
    · rw [he.size_other i hne]
      apply hg.size_le
  · intro i hF hl
    rw [he.size_other i (hg.ne_last hlast hF hl)]
    apply hg.size_other i hF hl
  · intro ha
    have hc := hg.content ha
    rw [hlast] at hc ⊢
    unfold BufPool.content at *
    rw [List.flatMap_append, List.flatMap_singleton] at hc ⊢
    rw [he.self, ← List.append_assoc, ← List.append_assoc, ← hc]
    congr 2
    apply List.flatMap_congr
    intro j hj
    apply hother ha j
    · apply hlt
      rw [hlast]
      apply List.mem_append_left _ hj
    · rintro rfl
      apply htL hj
  · intro ha i hi hF hl
    rw [hother ha i hi (hg.ne_last hlast hF hl)]
    apply hg.block_other ha i hi hF hl
  · intro ha u hu
    apply (hg.block_last ha u hu).trans
    rcases eq_or_ne u t with rfl | hut
    · rw [he.self]
      apply List.prefix_append
    · rw [hother ha u _ hut]
      apply hlt
      rw [hg.pending]
      apply List.mem_append_left _ (List.mem_of_getLast? hu)

/-- Filling the last pending block writes a prefix of the data behind the content. -/
theorem Grown.fill (hg : Grown b p F done b' p') (h : Sound b p) (hne : b'.pendingList ≠ [])
    {data : List UInt8} {toCopy : ℕ} {p₁ : BufPool} (hfill : b'.fillTail p' data = (toCopy, p₁)) :
  Grown b p F (done ++ data.take toCopy) b' p₁
  := by
  obtain ⟨L, t, hlast⟩ := (List.eq_nil_or_concat' b'.pendingList).resolve_left hne
  apply hg.extended h hlast (fillTail_extended hlast _ hfill)
  intro i
  rw [hg.bufSize]
  apply hg.size_le

/-- `Undone b p b' p'`: the buffer `b'` and the pool `p'` hold what `b` and `p` held: the
windows, all sizes, the content of every block that was not free, and, in some order, the
free blocks. -/
structure Undone (b : WriteBufBase) (p : BufPool) (b' : WriteBufBase) (p' : BufPool) :
    Prop where
  bits : b'.bits = b.bits
  send : b'.send = b.send
  head : b'.pending.head = b.pending.head
  tail : b'.pending.tail = b.pending.tail
  pending : b'.pendingList = b.pendingList
  poolBits : p'.bits = p.bits
  bufSize : p'.bufSize = p.bufSize
  free : p'.freeList.Perm p.freeList
  dataSize : ∀ i, p'.dataSize i = p.dataSize i
  block : p.Addressable → ∀ i < p.bufNum, i ∉ p.freeList → p'.block i = p.block i

theorem Undone.refl (b : WriteBufBase) (p : BufPool) :
  Undone b p b p
  := ⟨rfl, rfl, rfl, rfl, rfl, rfl, rfl, .refl _, fun _ => rfl, fun _ _ _ _ => rfl⟩

/-- The block before the original tail is the block that was last pending. -/
theorem Grown.get_original (hg : Grown b p F done b' p') {L : List ℕ} {t : ℕ}
    (hlast : b.pendingList = L ++ [t]) :
  b'.pending.get b'.bits (b.pending.tail - 1) = t
  := by
  have hsize : b.pending.size = L.length + 1 := by
    rw [← length_pendingList, hlast, List.length_append, List.length_singleton]
  have htail : b.pending.tail - 1 = b'.pending.head + BitVec.ofNat 64 L.length := by
    rw [hg.head, ← b.pending.head_add_size, hsize, BitVec.ofNat_add, ← BitVec.add_assoc]
    exact BitVec.add_sub_cancel ..
  have hget := Circular.getElem?_toList (q := b'.pending) (k := b'.bits) (j := L.length)
  rw [show b'.pending.toList b'.bits = _ from hg.pending, hlast, List.append_assoc,
    List.getElem?_append_right le_rfl, Nat.sub_self] at hget
  rw [htail]
  have hlt : L.length < b'.pending.size := by
    rw [← length_pendingList, hg.pending, hlast]
    simp
  rw [if_pos hlt] at hget
  symm
  simpa using hget

/-- Before the new blocks are released, `undo_append` puts back the size of the last block. -/
theorem Grown.resized (hg : Grown b p F done b' p') {wasEmpty : Bool} {originalTailSize : ℕ}
    (hempty : wasEmpty = true ↔ b.pendingList = [])
    (hsize : ∀ t, b.pendingList.getLast? = some t → originalTailSize = p.dataSize t)
    {p₁ : BufPool} (hp₁ : p₁ = if wasEmpty then p'
      else p'.setDataSize (b'.pending.get b'.bits (b.pending.tail - 1)) originalTailSize) :
  p₁.bits = p.bits ∧ p₁.bufSize = p.bufSize ∧ p₁.bufs = p'.bufs ∧ p₁.freeList = p'.freeList
    ∧ ∀ i, i ∉ F → p₁.dataSize i = p.dataSize i
  := by
  subst hp₁
  cases wasEmpty with
  | true =>
      use hg.poolBits, hg.bufSize, rfl, rfl
      intro i hi
      apply hg.size_other i hi
      rw [hempty.mp rfl]
      simp
  | false =>
      have hne : b.pendingList ≠ [] := by
        intro hnil
        simpa using hempty.mpr hnil
      rcases List.eq_nil_or_concat b.pendingList with hnil | ⟨L, t, hlast⟩
      · exact absurd hnil hne
      · rw [List.concat_eq_append] at hlast
        use hg.poolBits, hg.bufSize, rfl, rfl
        intro i hi
        rw [hg.get_original hlast]
        change Function.update p'.dataSize t originalTailSize i = _
        rw [Function.update_apply]
        split
        case isTrue hit =>
          rw [hit]
          apply hsize
          rw [hlast, List.getLast?_concat]
        case isFalse hit =>
          apply hg.size_other i hi
          rw [hlast, List.getLast?_concat]
          simpa [eq_comm] using hit

/-- With its old size, a block that is not new has its old content. -/
theorem Grown.read_eq (hg : Grown b p F done b' p') (ha : p.Addressable) {i : ℕ}
    (hi : i < p.bufNum) (hF : i ∉ F) :
  Store.read p'.bufs (p'.bufAddr i) (p.dataSize i) = p.block i
  := by
  by_cases hl : b.pendingList.getLast? = some i
  · obtain ⟨rest, hrest⟩ := hg.block_last ha i hl
    have hle : p.dataSize i ≤ p'.dataSize i := by
      rw [← BufPool.length_block p i, ← BufPool.length_block p' i, ← hrest]
      simp
    rw [← Store.take_read _ hle]
    change (p'.block i).take _ = _
    rw [← hrest, ← BufPool.length_block p i, List.take_left]
  · rw [← hg.size_other i hF hl]
    apply hg.block_other ha i hi hF hl

/-- The failure path of `append` undoes what was done. -/
theorem Grown.undo (hg : Grown b p F done b' p') (h : Sound b p) {wasEmpty : Bool}
    {originalTailSize : ℕ} (hempty : wasEmpty = true ↔ b.pendingList = [])
    (hsize : ∀ t, b.pendingList.getLast? = some t → originalTailSize = p.dataSize t) :
  ∃ b'' p'', b'.undoAppend b.pending.tail wasEmpty originalTailSize p' = some (false, b'', p'')
    ∧ Undone b p b'' p''
  := by
  obtain ⟨p₁, hp₁⟩ : ∃ p₁, p₁ = (if wasEmpty then p'
      else p'.setDataSize (b'.pending.get b'.bits (b.pending.tail - 1)) originalTailSize) :=
    ⟨_, rfl⟩
  obtain ⟨hbits, hbufSize, hbufs, hfree, hdata⟩ := hg.resized hempty hsize hp₁
  have hlen := h.length_freeList_le
  obtain ⟨p₂, hp₂, hr⟩ := BufPool.release_all F.reverse (p := p₁) (by
    rw [hg.free] at hlen
    rw [hfree, List.length_reverse, BufPool.bufNum, hbits]
    simp only [List.length_append] at hlen
    unfold BufPool.bufNum at hlen
    omega)
  use { b' with pending := { b'.pending with tail := b.pending.tail } }, p₂
  constructor
  · rw [undoAppend, ← hp₁, releaseBack_eq p₁ hg.pending hg.tail, hp₂]
    rfl
  · have hnew : ∀ i ∈ F, i ∈ p.freeList := by
      intro i hi
      rw [hg.free]
      exact List.mem_append_left _ hi
    have hdata₂ : ∀ i, p₂.dataSize i = p.dataSize i := by
      apply hr.dataSize_eq
      · intro i hi
        exact h.free_zero i (hnew i (List.mem_reverse.mp hi))
      · intro i hi
        apply hdata i
        simpa using hi
    constructor
    · apply hg.bits
    · apply hg.send
    · apply hg.head
    · rfl
    · apply Circular.toList_of_tail_eq hg.pending
      rw [hg.head, length_pendingList, Circular.head_add_size]
    · rw [hr.bits, hbits]
    · rw [hr.bufSize, hbufSize]
    · rw [hr.freeList, hfree, hg.free]
      apply List.perm_append_comm.trans
      apply (List.reverse_perm F).append_right
    · apply hdata₂
    · intro ha i hi hnot
      have haddr : p₂.bufAddr i = p'.bufAddr i := by
        rw [BufPool.bufAddr, BufPool.bufAddr, hr.bufSize, hbufSize, hg.bufSize]
      rw [BufPool.block, hdata₂, haddr, hr.bufs, hbufs]
      apply hg.read_eq ha hi (mt (hnew i) hnot)

/-- What `append` promises: on `true` the data is behind the pending content, and on
`false` nothing has happened. -/
def Appended (b : WriteBufBase) (p : BufPool) (data : List UInt8) :
    Bool → WriteBufBase → BufPool → Prop
  | true, b', p' => b'.pendingList ≠ [] ∧ ∃ F, Grown b p F data b' p'
  | false, b', p' => Undone b p b' p'

/-- The loop of `append`, started after `done` has been appended. -/
theorem appendLoop_spec (h : Sound b p) {wasEmpty : Bool} {originalTailSize : ℕ}
    (hempty : wasEmpty = true ↔ b.pendingList = [])
    (hsize : ∀ t, b.pendingList.getLast? = some t → originalTailSize = p.dataSize t)
    (hg : Grown b p F done b' p') (hne : b'.pendingList ≠ []) (data : List UInt8) :
  ∃ ok b'' p'', appendLoop b.pending.tail wasEmpty originalTailSize b' p' data
      = some (ok, b'', p'') ∧ Appended b p (done ++ data) ok b'' p''
  := by
  fun_induction appendLoop b.pending.tail wasEmpty originalTailSize b' p' data
    generalizing F done with
  | case1 b' p' =>
      use true, b', p', rfl, hne, F
      rwa [List.append_nil]
  | case2 b' p' data _ toCopy p₁ hfill rest =>
      rename_i hrest
      use true, b', p₁, rfl, hne, F
      have hg₁ := hg.fill h hne hfill
      rwa [List.take_of_length_le (List.drop_eq_nil_iff.mp hrest)] at hg₁
  | case3 b' p' data _ toCopy p₁ hfill =>
      obtain ⟨b'', p'', hundo, hundone⟩ := (hg.fill h hne hfill).undo h hempty hsize
      exact ⟨false, b'', p'', hundo, hundone⟩
  | case4 b' p' data _ toCopy p₁ hfill =>
      obtain ⟨b'', p'', hundo, hundone⟩ := (hg.fill h hne hfill).undo h hempty hsize
      exact ⟨false, b'', p'', hundo, hundone⟩
  | case5 b' p' data _ toCopy p₁ hfill rest _ hroom idx p₂ hacq =>
      rename_i ih
      obtain ⟨l, hfree, rfl⟩ := BufPool.acquire_eq_some hacq
      have hg₂ := (hg.fill h hne hfill).push h hfree (Nat.lt_of_not_le hroom)
      have hne₂ : ({ b' with pending := b'.pending.push b'.bits idx } : WriteBufBase).pendingList
          ≠ [] := by
        rw [hg₂.pending]
        simp
      have hih := ih hg₂ hne₂
      rwa [List.append_assoc, List.take_append_drop] at hih

/-- `append` returns, and keeps its promise. -/
theorem append_spec (h : Sound b p) (data : List UInt8) :
  ∃ ok b' p', b.append p data = some (ok, b', p') ∧ Appended b p data ok b' p'
  := by
  have hnil : b.pendingList = [] ↔ b.pending.head = b.pending.tail :=
    Circular.toList_eq_nil_iff _
  fun_cases append b p data with
  | case1 hempty hacq => exact ⟨false, b, p, rfl, Undone.refl b p⟩
  | case2 hempty idx p₁ hacq =>
      obtain ⟨l, hfree, rfl⟩ := BufPool.acquire_eq_some hacq
      have hroom : b.pending.size < b.capacity := by
        rw [(Circular.size_eq_zero_iff _).mpr hempty]
        apply Nat.two_pow_pos
      have hg := (Grown.refl h).push h hfree hroom
      apply appendLoop_spec h (by simp [hnil, hempty]) _ hg
      · rw [hg.pending]
        simp
      · simp [hnil.mpr hempty]
  | case3 hne =>
      apply appendLoop_spec h (by simp [hnil, hne]) _ (Grown.refl h) (mt hnil.mp hne)
      intro t ht
      obtain ⟨L, hlast⟩ := List.getLast?_eq_some_iff.mp ht
      rw [back_eq hlast]

end

end WriteBufBase

end Proactor
