import UringProactor.Buffer.Exchange

/-!
# The operations of a stream's write buffer

`unsent s p` are the bytes in the send queue that have not been acknowledged, from
`send_head_offset_` in the head block on.  `submit` moves the pending content behind them,
`consume_written` drops bytes from their front, and `peek_iovec` describes them by iovecs.
Each operation is an exchange with the pool and keeps the buffer sound; from a sound state
no assertion fails.
-/

namespace Proactor

namespace WriteBufStream

/-- The bytes in the send queue that have not been acknowledged. -/
def unsent (s : WriteBufStream) (p : BufPool) : List UInt8 :=
  (p.content s.sendList).drop s.sendHeadOffset

/-- The buffer is sound with its pool, and the offset lies in the head block of the send
queue. -/
structure Sound (s : WriteBufStream) (p : BufPool) : Prop
    extends WriteBufBase.Sound s.toWriteBufBase p where
  offset_le : s.sendHeadOffset ≤ (s.sendList.head?.map p.dataSize).getD 0

variable {s s' : WriteBufStream} {p p' : BufPool}

/-- An offset in the first of some blocks is an offset in their content. -/
theorem offset_le_length {offset : ℕ} {l : List ℕ}
    (hle : offset ≤ (l.head?.map p.dataSize).getD 0) :
  offset ≤ (p.content l).length
  := by
  apply hle.trans
  cases l with
  | nil => apply Nat.zero_le
  | cons i l =>
      rw [BufPool.content_cons, List.length_append, BufPool.length_block]
      apply Nat.le_add_right

/-! ### Operations on the pending window -/

/-- An exchange that leaves the send queue as it is keeps the buffer sound and the unsent
bytes. -/
theorem Sound.exchange_pending (h : Sound s p) {b' : WriteBufBase}
    (he : WriteBufBase.Exchange s.toWriteBufBase p b' p') (hsend : b'.send = s.send) :
  Sound { s with toWriteBufBase := b' } p'
    ∧ (p.Addressable → ({ s with toWriteBufBase := b' } : WriteBufStream).unsent p' = s.unsent p)
  := by
  have hlist : b'.sendList = s.sendList := by
    rw [WriteBufBase.sendList, hsend, he.bits]
    rfl
  have hs' := he.sound h.toSound
  have hframe : ∀ i ∈ s.sendList,
      i < p.bufNum ∧ i ∉ p.freeList ∧ i ∉ s.pendingList ∧ i ∉ p'.freeList := by
    intro i hi
    obtain ⟨hlt, hfree, hpending⟩ := h.of_mem_send hi
    use hlt, hfree, hpending
    rw [← hlist] at hi
    apply (hs'.of_mem_send hi).2.1
  constructor
  · use hs'
    change s.sendHeadOffset ≤ (b'.sendList.head?.map p'.dataSize).getD 0
    rw [hlist]
    apply h.offset_le.trans_eq
    cases hl : s.sendList with
    | nil => rfl
    | cons i l =>
        obtain ⟨_, hfree, hpending, hfree'⟩ := hframe i (by rw [hl]; apply List.mem_cons_self)
        apply (he.frame_size i hfree hpending hfree').symm
  · intro ha
    change (p'.content b'.sendList).drop s.sendHeadOffset = _
    rw [hlist, he.content_eq ha hframe]
    rfl

/-! ### `submit` -/

/-- The loop of `submit` moves the pending window behind the send queue. -/
theorem moveToSend_spec {k : ℕ} (hk : k < 64) (pending send : Circular 64 ℕ)
    (h : send.size + pending.size ≤ 2 ^ k) :
  (moveToSend k pending send).1 = { pending with head := pending.tail }
    ∧ (moveToSend k pending send).2.toList k = send.toList k ++ pending.toList k
  := by
  fun_induction moveToSend k pending send with
  | case1 pending send heq =>
      obtain ⟨slots, head, tail⟩ := pending
      obtain rfl : head = tail := heq
      constructor
      · rfl
      · rw [(Circular.toList_eq_nil_iff ⟨slots, head, head⟩).mpr rfl, List.append_nil]
  | case2 pending send hne ih =>
      have hsize : pending.size ≠ 0 := mt pending.size_eq_zero_iff.mp hne
      have hpop := Circular.size_pop (q := pending) (n := pending.size - 1) (by omega)
      have hroom : send.size < 2 ^ k := by omega
      have hpush := Circular.size_push hk (a := pending.front k) hroom
      obtain ⟨hfst, hsnd⟩ := ih (by omega)
      constructor
      · apply hfst
      · rw [hsnd, Circular.toList_push hk _ hroom, Circular.toList_of_ne hne, List.append_assoc]
        rfl

/-- A successful `submit` moves the pending window behind the send queue; one that fails
does nothing. -/
theorem submit_cases {ok : Bool} (hsubmit : s.submit = (ok, s'))
    (hle : s.send.size ≤ s.capacity) :
  (ok = false ∧ s' = s) ∨ (ok = true ∧ s.send.size + s.pending.size ≤ s.capacity
    ∧ ∃ send, send.toList s.bits = s.sendList ++ s.pendingList
      ∧ s' = { s with pending := { s.pending with head := s.pending.tail }, send := send })
  := by
  rw [submit] at hsubmit
  split at hsubmit
  case isTrue =>
    left
    cases hsubmit
    simp
  case isFalse =>
    split at hsubmit
    case isTrue =>
      left
      cases hsubmit
      simp
    case isFalse _ hroom =>
      right
      have hsum : s.send.size + s.pending.size ≤ s.capacity := by omega
      obtain ⟨hpending, hlist⟩ := moveToSend_spec s.bits_lt s.pending s.send hsum
      obtain ⟨rfl, rfl⟩ := Prod.mk.inj hsubmit
      refine ⟨rfl, hsum, _, hlist, ?_⟩
      rw [hpending]

/-- A successful `submit` moves blocks behind the send queue. -/
theorem sendList_submit (h : s.submit = (true, s')) :
  s'.sendList = s.sendList ++ s.pendingList ∧ s.pendingList ≠ []
  := by
  rw [submit] at h
  split at h
  case isTrue => cases h
  case isFalse hpending =>
    split at h
    case isTrue => cases h
    case isFalse hroom =>
      have hsum : s.send.size + s.pending.size ≤ s.capacity := by omega
      obtain ⟨-, hlist⟩ := moveToSend_spec s.bits_lt s.pending s.send hsum
      cases h
      refine ⟨hlist, ?_⟩
      intro hnil
      apply hpending
      rw [← WriteBufBase.length_pendingList, hnil]
      rfl

/-- `submit` is an exchange; on `true` the pending window is empty and its blocks are
behind the send queue. -/
theorem submit_spec (h : Sound s p) {ok : Bool} (hsubmit : s.submit = (ok, s')) :
  Sound s' p ∧ WriteBufBase.Exchange s.toWriteBufBase p s'.toWriteBufBase p
    ∧ s'.iovec = s.iovec ∧ s'.sendHeadOffset = s.sendHeadOffset
    ∧ s'.sendList = s.sendList ++ (if ok then s.pendingList else [])
    ∧ s'.pendingList = if ok then [] else s.pendingList
  := by
  obtain ⟨rfl, rfl⟩ | ⟨rfl, hsum, send, hlist, rfl⟩ := submit_cases hsubmit h.send_le
  · have he := WriteBufBase.Exchange.refl h.toSound
    simp [h, he]
  · have hnil : ({ s.pending with head := s.pending.tail } : Circular 64 ℕ).toList s.bits = [] :=
      (Circular.toList_eq_nil_iff _).mpr rfl
    have hsize : send.size = s.send.size + s.pending.size := by
      rw [← Circular.length_toList (k := s.bits), hlist, List.length_append,
        WriteBufBase.length_sendList, WriteBufBase.length_pendingList]
    have he : WriteBufBase.Exchange s.toWriteBufBase p
        ⟨s.bits, s.bits_le, { s.pending with head := s.pending.tail }, send⟩ p := by
      apply WriteBufBase.Exchange.of_returned h.toSound (.refl p)
      · rfl
      · change (({ s.pending with head := s.pending.tail } : Circular 64 ℕ).toList s.bits
          ++ send.toList s.bits).Perm _
        rw [hnil, hlist, List.nil_append]
        apply List.perm_append_comm
      · rw [← WriteBufBase.length_pendingList]
        change (Circular.toList _ s.bits).length ≤ _
        rw [hnil]
        apply Nat.zero_le
      · rw [hsize]
        apply hsum
    refine ⟨⟨he.sound h.toSound, ?_⟩, he, rfl, rfl, hlist, hnil⟩
    change s.sendHeadOffset ≤ ((send.toList s.bits).head?.map p.dataSize).getD 0
    rw [hlist]
    apply h.offset_le.trans
    cases s.sendList with
    | nil => apply Nat.zero_le
    | cons i l => apply le_rfl

/-- A successful `submit` puts the pending content behind the unsent bytes. -/
theorem unsent_submit (h : Sound s p) (hsubmit : s.submit = (true, s')) :
  s'.unsent p = s.unsent p ++ p.content s.pendingList
  := by
  obtain ⟨-, -, -, hoffset, hlist, -⟩ := submit_spec h hsubmit
  rw [unsent, hlist, if_pos rfl, hoffset, BufPool.content_append,
    List.drop_append_of_le_length (offset_le_length h.offset_le)]
  rfl

/-! ### `consume_written` -/

/-- `Consumed s p R s' p'`: the blocks `R` at the head of the send queue were returned to
the pool. -/
structure Consumed (s : WriteBufStream) (p : BufPool) (R : List ℕ) (s' : WriteBufStream)
    (p' : BufPool) : Prop where
  bits : s'.bits = s.bits
  pending : s'.pending = s.pending
  iovec : s'.iovec = s.iovec
  send : s.sendList = R ++ s'.sendList
  returned : p.Returned p' R

theorem Consumed.exchange {R : List ℕ} (hc : Consumed s p R s' p')
    (h : WriteBufBase.Sound s.toWriteBufBase p) :
  WriteBufBase.Exchange s.toWriteBufBase p s'.toWriteBufBase p'
  := by
  have hpending : s'.pendingList = s.pendingList := by
    rw [WriteBufBase.pendingList, hc.pending, hc.bits]
    rfl
  apply WriteBufBase.Exchange.of_returned h hc.returned
  · apply hc.bits
  · rw [hpending, hc.send]
    apply List.perm_append_comm_assoc
  · rw [hc.pending, WriteBufBase.capacity, hc.bits]
    apply h.pending_le
  · have hle := h.send_le
    rw [← WriteBufBase.length_sendList, hc.send, List.length_append] at hle
    rw [← WriteBufBase.length_sendList, WriteBufBase.capacity, hc.bits]
    apply (Nat.le_add_left _ _).trans hle

theorem Consumed.trans {s'' : WriteBufStream} {p'' : BufPool} {R R' : List ℕ}
    (hc : Consumed s p R s' p') (hc' : Consumed s' p' R' s'' p'') :
  Consumed s p (R ++ R') s'' p''
  := by
  constructor
  · rw [hc'.bits, hc.bits]
  · rw [hc'.pending, hc.pending]
  · rw [hc'.iovec, hc.iovec]
  · rw [hc.send, hc'.send, List.append_assoc]
  · apply hc.returned.trans hc'.returned

/-- The pending content stays. -/
theorem Consumed.content_pending {R : List ℕ} (hc : Consumed s p R s' p')
    (h : WriteBufBase.Sound s.toWriteBufBase p) :
  p'.content s'.pendingList = p.content s.pendingList
  := by
  have hpending : s'.pendingList = s.pendingList := by
    rw [WriteBufBase.pendingList, hc.pending, hc.bits]
    rfl
  rw [hpending]
  apply List.flatMap_congr
  intro i hi
  have hiR : i ∉ R := by
    intro hmem
    have hsend : i ∈ s.sendList := by
      rw [hc.send]
      apply List.mem_append_left _ hmem
    apply (h.of_mem_send hsend).2.2 hi
  rw [BufPool.block, BufPool.bufAddr, hc.returned.dataSize, if_neg hiR, hc.returned.bufs,
    hc.returned.bufSize]
  rfl

/-- The unsent bytes start in the head block of the send queue. -/
theorem unsent_of_cons {i : ℕ} {l : List ℕ} (hl : s.sendList = i :: l)
    (hle : s.sendHeadOffset ≤ p.dataSize i) :
  s.unsent p = (p.block i).drop s.sendHeadOffset ++ p.content l
  := by
  rw [unsent, hl, BufPool.content, List.flatMap_cons, List.drop_append_of_le_length]
  · rfl
  · rwa [BufPool.length_block]

/-- Releasing the head block of the send queue. -/
theorem Sound.release_head (h : Sound s p) {i : ℕ} {l : List ℕ} (hl : s.sendList = i :: l) :
  ∃ p', p.release i = some p'
    ∧ Consumed s p [i] { s with send := s.send.pop, sendHeadOffset := 0 } p'
    ∧ Sound { s with send := s.send.pop, sendHeadOffset := 0 } p'
    ∧ p'.content l = p.content l
  := by
  have hne : s.send.head ≠ s.send.tail := by
    intro heq
    rw [WriteBufBase.sendList, (Circular.toList_eq_nil_iff _).mpr heq] at hl
    cases hl
  obtain ⟨-, hpop⟩ : _ ∧ s.send.pop.toList s.bits = l := by
    rw [WriteBufBase.sendList, Circular.toList_of_ne hne] at hl
    exact List.cons.inj hl
  have hroom := h.room [i] (l ++ s.pendingList) (by
    rw [hl, ← List.append_assoc]
    apply List.perm_append_comm)
  obtain ⟨p', hrel, hr⟩ := BufPool.release_of_lt (p := p) i hroom
  have hc : Consumed s p [i] { s with send := s.send.pop, sendHeadOffset := 0 } p' := by
    constructor
    · rfl
    · rfl
    · rfl
    · change _ = [i] ++ s.send.pop.toList s.bits
      rw [hl, hpop]
      rfl
    · apply hr
  have hil : i ∉ l := by
    have hnd := List.Nodup.of_append_right (List.Nodup.of_append_right h.nodup)
    rw [hl] at hnd
    apply (List.nodup_cons.mp hnd).1
  refine ⟨p', hrel, hc, ⟨(hc.exchange h.toSound).sound h.toSound, Nat.zero_le _⟩, ?_⟩
  apply List.flatMap_congr
  intro j hj
  have hji : j ∉ [i] := by
    rw [List.mem_singleton]
    rintro rfl
    apply hil hj
  rw [BufPool.block, BufPool.bufAddr, hr.dataSize, if_neg hji, hr.bufs, hr.bufSize]
  rfl

/-- `consume_written` drops the bytes from the front of the unsent bytes and returns the
blocks that are fully written. -/
theorem consumeWritten_spec (h : Sound s p) {bytes : ℕ} (hle : bytes ≤ (s.unsent p).length) :
  ∃ s' p' R, s.consumeWritten p bytes = some (s', p') ∧ Consumed s p R s' p' ∧ Sound s' p'
    ∧ s'.unsent p' = (s.unsent p).drop bytes
  := by
  fun_induction consumeWritten s p bytes with
  | case1 s p =>
      refine ⟨s, p, [], rfl, ⟨rfl, rfl, rfl, rfl, .refl p⟩, h, ?_⟩
      rfl
  | case2 s p bytes hpos hnil =>
      have hlist : s.sendList = [] := (Circular.toList_eq_nil_iff _).mpr hnil
      simp [unsent, hlist, BufPool.content] at hle
      exact absurd hle hpos
  | case3 s p bytes hpos hne idx remaining hlt =>
      have hl : s.sendList = idx :: s.send.pop.toList s.bits := Circular.toList_of_ne hne
      have hoff : s.sendHeadOffset ≤ p.dataSize idx := by
        have := h.offset_le
        rwa [hl] at this
      have hrem : remaining = p.dataSize idx - s.sendHeadOffset := u32Sub_of_le hoff
      have hsize := h.size_le idx
      have hbuf := p.bufSize_lt
      have hsum : u32 (s.sendHeadOffset + bytes) = s.sendHeadOffset + bytes := by
        apply u32_of_lt
        omega
      rw [hsum]
      refine ⟨_, p, [], rfl, ⟨rfl, rfl, rfl, rfl, .refl p⟩, ⟨h.toSound, ?_⟩, ?_⟩
      · change s.sendHeadOffset + bytes ≤ (s.sendList.head?.map p.dataSize).getD 0
        rw [hl]
        change s.sendHeadOffset + bytes ≤ p.dataSize idx
        omega
      · apply List.drop_drop.symm
  | case4 s p bytes hpos hne idx remaining hge =>
      rename_i ih
      have hl : s.sendList = idx :: s.send.pop.toList s.bits := Circular.toList_of_ne hne
      obtain ⟨p₁, hrel, hc, hs₁, hcontent⟩ := h.release_head hl
      have hoff : s.sendHeadOffset ≤ p.dataSize idx := by
        have := h.offset_le
        rwa [hl] at this
      have hrem : remaining = p.dataSize idx - s.sendHeadOffset := u32Sub_of_le hoff
      have hunsent := unsent_of_cons hl hoff
      have hlen : ((p.block idx).drop s.sendHeadOffset).length = remaining := by
        rw [List.length_drop, BufPool.length_block, hrem]
      have hrest : ({ s with send := s.send.pop, sendHeadOffset := 0 } : WriteBufStream).unsent p₁
          = p.content (s.send.pop.toList s.bits) := hcontent
      rw [hunsent, List.length_append, hlen] at hle
      obtain ⟨s', p', R, hrun, hc', hs', hdrop⟩ := ih p₁ hs₁ (by
        rw [hrest]
        omega)
      refine ⟨s', p', idx :: R, ?_, hc.trans hc', hs', ?_⟩
      · rw [hrel]
        apply hrun
      · have hall : ((p.block idx).drop s.sendHeadOffset).drop bytes = [] := by
          apply List.drop_of_length_le
          rw [hlen]
          apply Nat.le_of_not_lt hge
        rw [hdrop, hrest, hunsent, List.drop_append, hlen, hall, List.nil_append]

/-! ### `reset` -/

/-- `reset` returns all blocks of the buffer to the pool. -/
theorem reset_spec (h : WriteBufBase.Sound s.toWriteBufBase p) :
  ∃ s' p', s.reset p = some (s', p')
    ∧ WriteBufBase.Exchange s.toWriteBufBase p s'.toWriteBufBase p' ∧ Sound s' p'
    ∧ s'.pendingList = [] ∧ s'.sendList = []
  := by
  have hcomm : ((s.sendList ++ s.pendingList) ++ []).Perm (s.pendingList ++ s.sendList) := by
    rw [List.append_nil]
    apply List.perm_append_comm
  obtain ⟨p', hp', hr⟩ := BufPool.release_all (s.sendList ++ s.pendingList) (h.room _ _ hcomm)
  let s' : WriteBufStream := { s with
    pending := ⟨s.pending.slots, 0, 0⟩
    send := ⟨s.send.slots, 0, 0⟩
    sendHeadOffset := 0 }
  have hpending : s'.pendingList = [] := (Circular.toList_eq_nil_iff _).mpr rfl
  have hsend : s'.sendList = [] := (Circular.toList_eq_nil_iff _).mpr rfl
  have he : WriteBufBase.Exchange s.toWriteBufBase p s'.toWriteBufBase p' := by
    apply WriteBufBase.Exchange.of_returned h hr
    · rfl
    · rw [hpending, hsend]
      apply hcomm
    · rw [← WriteBufBase.length_pendingList, hpending]
      apply Nat.zero_le
    · rw [← WriteBufBase.length_sendList, hsend]
      apply Nat.zero_le
  refine ⟨s', p', ?_, he, ⟨he.sound h, Nat.zero_le _⟩, hpending, hsend⟩
  rw [List.foldlM_append] at hp'
  obtain ⟨p₁, hp₁, hp₂⟩ := Option.bind_eq_some_iff.mp hp'
  rw [reset, WriteBufBase.releaseFront_eq]
  change Option.bind (Option.map _ (s.sendList.foldlM BufPool.release p)) _ = _
  rw [hp₁]
  change Option.bind (WriteBufBase.releaseFront s.bits s.pending p₁) _ = _
  rw [WriteBufBase.releaseFront_eq]
  change Option.bind (Option.map _ (s.pendingList.foldlM BufPool.release p₁)) _ = _
  rw [hp₂]
  rfl

/-! ### `peek_iovec` -/

/-- The bytes a list of iovecs describes. -/
def gather (p : BufPool) (vecs : List IoVec) : List UInt8 :=
  vecs.flatMap (fun v => Store.read p.bufs v.base v.len)

@[simp]
theorem gather_cons (p : BufPool) (v : IoVec) (vecs : List IoVec) :
  gather p (v :: vecs) = Store.read p.bufs v.base v.len ++ gather p vecs
  := List.flatMap_cons ..

/-- The iovecs of whole blocks describe their content. -/
theorem gather_iovecs_zero (p : BufPool) (l : List ℕ) :
  gather p (iovecs p 0 l) = p.content l
  := by
  induction l with
  | nil => rfl
  | cons i l ih =>
      rw [iovecs, gather_cons, ih, u32Sub_of_le (Nat.zero_le _), BufPool.content_cons]
      rfl

/-- The iovecs of blocks, the first of them from an offset in it, describe their content
from the offset on. -/
theorem gather_iovecs {offset : ℕ} {l : List ℕ}
    (hle : offset ≤ (l.head?.map p.dataSize).getD 0) :
  gather p (iovecs p offset l) = (p.content l).drop offset
  := by
  cases l with
  | nil => simp [iovecs, gather, BufPool.content]
  | cons i l =>
      have hle' : offset ≤ p.dataSize i := hle
      rw [iovecs, gather_cons, u32Sub_of_le hle', ← Store.drop_read, gather_iovecs_zero,
        BufPool.content_cons, List.drop_append_of_le_length]
      · rfl
      · rwa [BufPool.length_block]

/-- The total length of iovecs, summed in 32-bit arithmetic. -/
theorem foldl_len (p : BufPool) (vecs : List IoVec) (n : ℕ) :
  vecs.foldl (fun bytes v => u32 (bytes + v.len)) (u32 n) = u32 (n + (gather p vecs).length)
  := by
  induction vecs generalizing n with
  | nil => rfl
  | cons v vecs ih =>
      have hmod : u32 (u32 n + v.len) = u32 (n + v.len) := Nat.mod_add_mod ..
      rw [List.foldl_cons, hmod, ih, gather_cons, List.length_append, Store.length_read,
        Nat.add_assoc]

/-- On an empty send queue, `peek_iovec` reports nothing. -/
theorem peekIovec_of_nil (hnil : s.sendList = []) :
  s.peekIovec p = (0, 0, s)
  := by
  have hsize : s.send.size = 0 := by
    rw [← WriteBufBase.length_sendList, hnil]
    rfl
  rw [peekIovec, hsize]
  rfl

/-- On a send queue that is not empty, `peek_iovec` fills in one iovec for each block;
together they describe the unsent bytes, whose number is reported as a 32-bit integer. -/
theorem peekIovec_of_ne (h : Sound s p) (hne : s.sendList ≠ []) :
  s.peekIovec p = (s.sendList.length, u32 (s.unsent p).length, { s with
    iovec := iovecs p s.sendHeadOffset s.sendList ++ s.iovec.drop s.sendList.length })
  := by
  have hsize := WriteBufBase.length_sendList s.toWriteBufBase
  have hpos : 0 < s.send.size := by
    rw [← hsize]
    apply List.length_pos_of_ne_nil hne
  have hcap : s.capacity ≤ 2 ^ 30 := Nat.pow_le_pow_right (by omega) s.bits_le
  have hle := h.send_le
  have hint : (BitVec.ofNat 32 s.send.size).toInt = s.send.size := by
    rw [BitVec.toInt_eq_toNat_of_lt]
    · rw [BitVec.toNat_ofNat, Nat.mod_eq_of_lt (by omega)]
    · rw [BitVec.toNat_ofNat, Nat.mod_eq_of_lt (by omega)]
      omega
  have hwindow : s.send.window s.bits s.send.head s.send.size = s.sendList := rfl
  have hsum := foldl_len p (iovecs p s.sendHeadOffset s.sendList) 0
  rw [gather_iovecs h.offset_le, Nat.zero_add] at hsum
  rw [peekIovec, hint, if_neg (by omega)]
  simp only [Int.toNat_natCast, hwindow]
  change (_, List.foldl _ (u32 0) _, _) = _
  rw [hsum, hsize]
  rfl

/-! ### What a `writev` covers -/

/-- The first `nr` iovecs are those of the first blocks of the send queue, and a `writev` of
them may be acknowledged up to `bytes` bytes. -/
structure Covers (s : WriteBufStream) (p : BufPool) (nr bytes : ℕ) : Prop where
  pos : 0 < nr
  le : nr ≤ s.sendList.length
  iovec : s.iovec.take nr = iovecs p s.sendHeadOffset (s.sendList.take nr)
  bytes_le : bytes ≤ ((s.iovec.take nr).map IoVec.len).sum

theorem length_gather (p : BufPool) (vecs : List IoVec) :
  (gather p vecs).length = (vecs.map IoVec.len).sum
  := by
  simp [gather, List.length_flatMap]

theorem length_iovecs (p : BufPool) (offset : ℕ) (l : List ℕ) :
  (iovecs p offset l).length = l.length
  := by
  induction l generalizing offset with
  | nil => rfl
  | cons i l ih => rw [iovecs, List.length_cons, ih, List.length_cons]

/-- The iovecs of blocks depend on their sizes only. -/
theorem iovecs_congr {offset : ℕ} {l : List ℕ} (hsize : p'.bufSize = p.bufSize)
    (hdata : ∀ i ∈ l, p'.dataSize i = p.dataSize i) :
  iovecs p' offset l = iovecs p offset l
  := by
  induction l generalizing offset with
  | nil => rfl
  | cons i l ih =>
      rw [iovecs, iovecs, hdata i List.mem_cons_self, BufPool.bufAddr, hsize,
        ih (fun j hj => hdata j (List.mem_cons_of_mem i hj))]
      rfl

/-- `peek_iovec` prepares for a `writev` of the whole send queue. -/
theorem peekIovec_covers (h : Sound s p) {count bytes : ℕ} (hcount : count ≠ 0)
    (hpeek : s.peekIovec p = (count, bytes, s')) :
  Covers s' p count bytes
  := by
  have hne : s.sendList ≠ [] := by
    intro hnil
    rw [peekIovec_of_nil hnil] at hpeek
    cases hpeek
    exact hcount rfl
  rw [peekIovec_of_ne h hne] at hpeek
  cases hpeek
  have htake : (iovecs p s.sendHeadOffset s.sendList ++ s.iovec.drop s.sendList.length).take
      s.sendList.length = iovecs p s.sendHeadOffset s.sendList :=
    List.take_left' (length_iovecs ..)
  constructor
  · exact List.length_pos_of_ne_nil hne
  · exact le_rfl
  · change List.take _ (_ ++ _) = iovecs p s.sendHeadOffset (s.sendList.take s.sendList.length)
    rw [htake, List.take_length]
  · rw [htake, ← length_gather p, gather_iovecs h.offset_le]
    exact Nat.mod_le _ _

/-- What a `writev` covers stays, when blocks are put behind the send queue. -/
theorem Covers.congr {nr bytes : ℕ} (hc : Covers s p nr bytes) {l : List ℕ}
    (hiovec : s'.iovec = s.iovec) (hoffset : s'.sendHeadOffset = s.sendHeadOffset)
    (hsend : s'.sendList = s.sendList ++ l) :
  Covers s' p nr bytes
  := by
  constructor
  · exact hc.pos
  · rw [hsend, List.length_append]
    exact Nat.le_add_right_of_le hc.le
  · rw [hiovec, hoffset, hsend, List.take_append_of_le_length hc.le]
    exact hc.iovec
  · rw [hiovec]
    exact hc.bytes_le

/-- What a `writev` covers stays, when the pool changes in other blocks. -/
theorem Covers.frame {nr bytes : ℕ} (hc : Covers s p nr bytes) (hsize : p'.bufSize = p.bufSize)
    (hdata : ∀ i ∈ s.sendList, p'.dataSize i = p.dataSize i) :
  Covers s p' nr bytes
  := by
  refine { hc with iovec := ?_ }
  rw [hc.iovec, iovecs_congr hsize]
  intro i hi
  exact hdata i (List.mem_of_mem_take hi)

/-- The covered bytes are the first of the unsent ones. -/
theorem Covers.unsent_eq {nr bytes : ℕ} (hc : Covers s p nr bytes) (h : Sound s p) :
  s.unsent p = gather p (s.iovec.take nr) ++ p.content (s.sendList.drop nr)
  := by
  have hhead : (s.sendList.take nr).head? = s.sendList.head? := by
    rw [List.head?_take, if_neg (Nat.pos_iff_ne_zero.mp hc.pos)]
  have hle : s.sendHeadOffset ≤ ((s.sendList.take nr).head?.map p.dataSize).getD 0 := by
    rw [hhead]
    exact h.offset_le
  rw [hc.iovec, gather_iovecs hle, ← List.drop_append_of_le_length (offset_le_length hle),
    ← BufPool.content_append, List.take_append_drop]
  rfl

/-- The covered bytes, by the number of bytes of the iovecs. -/
theorem Covers.gather_eq {nr bytes : ℕ} (hc : Covers s p nr bytes) (h : Sound s p) :
  gather p (s.iovec.take nr) = (s.unsent p).take ((s.iovec.take nr).map IoVec.len).sum
  := by
  rw [hc.unsent_eq h, ← length_gather p, List.take_left]

theorem Covers.sum_le_unsent {nr bytes : ℕ} (hc : Covers s p nr bytes) (h : Sound s p) :
  ((s.iovec.take nr).map IoVec.len).sum ≤ (s.unsent p).length
  := by
  rw [hc.unsent_eq h, List.length_append, ← length_gather p]
  apply Nat.le_add_right

end WriteBufStream

end Proactor
