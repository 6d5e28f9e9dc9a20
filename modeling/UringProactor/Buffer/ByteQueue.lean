import UringProactor.Buffer.Peek

/-!
# `push_buf` and `consume` of a stream implement a queue of bytes

A stream has the bytes that were received and not consumed.  `readable_bytes_` counts them, and
`consume` drops bytes from their front.  It releases the buffers whose last byte it drops, in the
order in which they have arrived.
-/

namespace Proactor

namespace ReadBufStream

variable {s s' : ReadBufStream} {r r' : BufRing} {n : ℕ} {R : List ℕ}

/-- `Dequeues s r n R s' r'`: the first `n` unread bytes were dropped, and the buffers `R` were
released, which are those at the head of the queue whose last byte was dropped. -/
structure Dequeues (s : ReadBufStream) (r : BufRing) (n : ℕ) (R : List ℕ) (s' : ReadBufStream)
    (r' : BufRing) : Prop where
  unread : s'.unread r' = (s.unread r).drop n
  queue : s.queueList = R ++ s'.queueList
  released : r'.ring = r.ring ++ R
  nodup : R.Nodup
  /-- The first `k` buffers are released if and only if their bytes are read. -/
  last : ∀ k ≤ s.queueList.length,
    k ≤ R.length ↔ (r.content (s.queueList.take k)).length ≤ s.headOffset + n

/-- The bytes of the released buffers, and how far the next one is read. -/
theorem Reads.length_released (h : Reads s r) (h' : Reads s' r') (hle : n ≤ (s.unread r).length)
    (hqueue : s.queueList = R ++ s'.queueList)
    (hcontent : r'.content s'.queueList = r.content s'.queueList)
    (hunread : s'.unread r' = (s.unread r).drop n) :
  (r.content R).length + s'.headOffset = s.headOffset + n
  := by
  have hoffset := h.offset_le_length
  have hoffset' := h'.offset_le_length
  have hlen := congrArg List.length hunread
  rw [unread, unread, List.length_drop, List.length_drop, List.length_drop, hcontent] at hlen
  rw [unread, List.length_drop] at hle
  rw [hcontent] at hoffset'
  rw [hqueue, BufRing.content_append, List.length_append] at hoffset hlen hle
  omega

/-- `consume` of at most what there is drops it. -/
theorem Sound.consume_dequeues (h : Sound s r) (hle : n ≤ s.readableBytes) :
  ∃ s' r' R, s.consume r n = some (true, s', r') ∧ Dequeues s r n R s' r'
  := by
  obtain ⟨s', r', R, hconsume, -, -, hqueue, hreleased, hs', hunread⟩ := consume_of_le h hle
  have hnodup := List.Nodup.of_append_right h.nodup
  rw [hqueue] at hnodup
  have hblock : ∀ i ∈ s'.queueList, r'.block i = r.block i := by
    intro i hi
    apply hreleased.block_eq
    intro hR
    apply List.disjoint_of_nodup_append hnodup hR hi
  have hbytes := h.toReads.length_released hs'.toReads (h.readable ▸ hle) hqueue
    (List.flatMap_congr hblock) hunread
  refine ⟨s', r', R, hconsume, hunread, hqueue, hreleased.ring, hnodup.of_append_left, ?_⟩
  intro k hk
  rw [hqueue]
  constructor
  · intro hkR
    have hsplit := congrArg (fun l => (r.content l).length) (List.take_append_drop k R)
    simp only [BufRing.content_append, List.length_append] at hsplit
    rw [List.take_append_of_le_length hkR]
    omega
  · intro hlen
    by_contra hlt
    rw [hqueue, List.length_append] at hk
    obtain ⟨m, rfl⟩ : ∃ m, k = R.length + (m + 1) := ⟨k - R.length - 1, by omega⟩
    cases hq : s'.queueList with
    | nil =>
        rw [hq, List.length_nil] at hk
        omega
    | cons i l =>
        have hoffset := hs'.toReads.offset_lt_of_cons hq
        rw [← BufRing.length_block, hblock i (by simp [hq])] at hoffset
        rw [hq, List.take_length_add_append, List.take_succ_cons, BufRing.content_append,
          BufRing.content_cons, List.length_append, List.length_append] at hlen
        omega

end ReadBufStream

namespace ReadSystem

/-- `push_buf` and `consume` implement a queue of bytes.  In every state reached, for every stream
with the bytes `σ.2 c` that were received and not consumed: `readable_bytes_` is their number,
the offset lies in the first queued buffer, a buffer is pushed with its bytes behind them,
`consume n` returns `false` without a change if and only if `n` exceeds their number, and
otherwise drops `n` of them and releases the buffers it has read to the end. -/
theorem push_consume_queue {num bits bufSize : ℕ} {hpos : 0 < bufSize}
    {halloc : 2 ^ bits * bufSize < 2 ^ 31} {isStream : ℕ → Bool}
    {σ : ReadSystem × (ℕ → List UInt8)}
    (h : Reaches stepBytes AdmitsBytes
      (new num (.new bits bufSize hpos halloc) isStream, fun _ => []) σ)
    {c : ℕ} (hc : c < num) {s : ReadBufStream} (hs : σ.1.bufs c = .stream s) :
  s.unread σ.1.ring = σ.2 c ∧ s.readableBytes = (σ.2 c).length
    ∧ (∀ i l, s.queueList = i :: l → s.headOffset < σ.1.ring.dataSize i)
    ∧ (∀ idx data, AdmitsBytes σ (c, .receive idx data) →
      ∃ b', s.pushBuf (ReadBuf.received σ.1.ring idx data) idx = (true, b')
        ∧ ({ s with toReadBufBase := b' } : ReadBufStream).unread
          (ReadBuf.received σ.1.ring idx data) = σ.2 c ++ data)
    ∧ (∀ n, s.consume σ.1.ring n = some (false, s, σ.1.ring) ↔ s.readableBytes < n)
    ∧ ∀ n ≤ s.readableBytes, ∃ s' r' R, s.consume σ.1.ring n = some (true, s', r')
      ∧ s.Dequeues σ.1.ring n R s' r'
  := by
  obtain ⟨⟨hinv, hbytes⟩, hnum⟩ := reaches_refines h
  rw [← hnum] at hc
  have hsound := hinv.sound hc
  rw [hs] at hsound
  have hsound : s.Sound σ.1.ring := hsound
  have hunread := hbytes c hc s hs
  refine ⟨hunread, ?_, ?_, ?_, ?_, ?_⟩
  · rw [hsound.readable, hunread]
  · intro i l hl
    apply hsound.toReads.offset_lt_of_cons hl
  · rintro idx data ⟨-, hadmits⟩
    rw [hs] at hadmits
    obtain ⟨hidx, hlen, hfit⟩ := hadmits
    obtain ⟨b', hpush, -, -, -, -, -, hunread'⟩ := hsound.receive hidx hlen hfit
    use b', hpush
    rw [← hunread]
    apply hunread'
  · intro n
    constructor
    · intro hfalse
      by_contra hle
      obtain ⟨_, _, _, htrue, -⟩ := hsound.consume_dequeues (Nat.le_of_not_lt hle)
      rw [hfalse] at htrue
      cases htrue
    · apply ReadBufStream.consume_of_gt
  · intro n hle
    apply hsound.consume_dequeues hle

/-- Two buffers of two bytes were received, and the first byte consumed.  Consuming two more
releases the first buffer and leaves the second half read. -/
theorem push_consume_queue_two_buffers :
  ∃ σ s s' r' R, Reaches stepBytes AdmitsBytes
      (new 1 (.new 2 2 (by decide) (by decide)) (fun _ => true), fun _ => []) σ
    ∧ σ.1.bufs 0 = .stream s ∧ σ.2 0 = [6, 7, 8]
    ∧ s.consume σ.1.ring 2 = some (true, s', r') ∧ s.Dequeues σ.1.ring 2 R s' r'
    ∧ s'.unread r' = [8]
  := by
  have hrun : (Reaches.follow stepBytes AdmitsBytes
      [(0, .receive 1 [5, 6]), (0, .receive 3 [7, 8]), (0, .consume 1)]
      (new 1 (.new 2 2 (by decide) (by decide)) (fun _ => true), fun _ => [])).map
        (fun σ => (σ.2 0, (σ.1.bufs 0).stream?.isSome)) = some ([6, 7, 8], true) := by
    decide +kernel
  obtain ⟨σ, hreach, hfinal⟩ := Reaches.of_follow _ hrun
  obtain ⟨hbytes, hstream⟩ := Prod.mk.inj hfinal
  cases hs : σ.1.bufs 0 with
  | dgram s =>
      rw [hs] at hstream
      cases hstream
  | stream s =>
      obtain ⟨hunread, hreadable, -, -, -, hconsume⟩ := push_consume_queue hreach Nat.one_pos hs
      rw [hbytes] at hunread hreadable
      obtain ⟨s', r', R, heq, hd⟩ := hconsume 2 (by rw [hreadable]; decide)
      refine ⟨σ, s, s', r', R, hreach, hs, hbytes, heq, hd, ?_⟩
      rw [hd.unread, hunread]
      rfl

end ReadSystem

end Proactor
