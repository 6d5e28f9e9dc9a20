import UringProactor.Buffer.ReadSystem

/-!
# When `peek` is exact

A stream is a queue of bytes: what is received goes to its end, and `consume` takes bytes
from its front.  `peek n` should describe the first `n` bytes of this queue.  Its loop
compares the counters `i < tail_`, and so it does exactly when the tail has not wrapped below
the head: with `head_ = 2 ^ 32 - 1` and `tail_ = 0`, a state that a connection reaches after
`2 ^ 32` received buffers, `peek` describes nothing.
-/

namespace Proactor

/-- What an operation does to the queue of bytes a stream stands for. -/
def ReadOp.onBytes (q : List UInt8) : ReadOp → List UInt8
  | .receive _ data => q ++ data
  | .peek _ => q
  | .consume size => if size ≤ q.length then q.drop size else q
  | .reset => []
  | .consumePacket => q

namespace ReadBufStream

/-- The bytes a list of segments describes. -/
def gather (r : BufRing) (segments : List Segment) : List UInt8 :=
  segments.flatMap (fun g => Store.read r.bufs g.data g.size)

@[simp]
theorem gather_cons (r : BufRing) (g : Segment) (segments : List Segment) :
  gather r (g :: segments) = Store.read r.bufs g.data g.size ++ gather r segments
  := List.flatMap_cons ..

/-- `peek n` is exact for the queue of bytes `q`: it returns null exactly when there are
fewer than `n` bytes; otherwise its segments describe the first `n` bytes, none of them is
empty and they fit the arrays; the stream is as before, and `consume n` then takes these
bytes. -/
structure PeekExact (s : ReadBufStream) (r : BufRing) (q : List UInt8) (n : ℕ) : Prop where
  null : (s.peek r n).1 = none ↔ s.readableBytes < n
  segments : ∀ segments, (s.peek r n).1 = some segments →
    gather r segments = q.take n ∧ (∀ g ∈ segments, 0 < g.size) ∧ segments.length ≤ s.capacity
  unchanged : (s.peek r n).2 = { s with peekResult := (s.peek r n).2.peekResult }
  consumed : n ≤ s.readableBytes → ∃ s' r', (s.peek r n).2.consume r n = some (true, s', r')
    ∧ s'.unread r' = q.drop n

variable {s : ReadBufStream} {r : BufRing}

/-- One pass of the loop of `peek`. -/
theorem peekLoop_of_lt {i : BitVec 32} {size idx offset : ℕ} (hi : i < s.queue.tail)
    (hsize : 0 < size) (hget : s.queue.get s.bits i = idx)
    (hoffset : offset = if i = s.queue.head then s.headOffset else 0)
    (hle : offset ≤ r.dataSize idx) :
  s.peekLoop r i size
    = ⟨r.bufAddr idx + offset, min size (r.dataSize idx - offset)⟩
      :: s.peekLoop r (i + 1) (size - min size (r.dataSize idx - offset))
  := by
  have hmin : (if size < r.dataSize idx - offset then size else r.dataSize idx - offset)
      = min size (r.dataSize idx - offset) := by
    split <;> omega
  rw [peekLoop, if_pos ⟨hi, hsize⟩]
  simp only [hget, ← hoffset, u32Sub_of_le hle, hmin]

/-- The bytes of a segment of a buffer. -/
theorem read_segment (r : BufRing) (idx size offset : ℕ) :
  Store.read r.bufs (r.bufAddr idx + offset) (min size (r.dataSize idx - offset))
    = ((r.block idx).drop offset).take size
  := by
  rw [BufRing.block, Store.drop_read, ← Store.take_read r.bufs (Nat.min_le_right _ _)]
  simp

/-- The loop of `peek` from the counter `i` on, from which the buffers `l` are queued up to
the tail, no counter wrapping: its segments describe the first bytes of `l`, from the offset
in the first buffer on. -/
theorem peekLoop_spec {l : List ℕ} {i : BitVec 32} {size offset : ℕ}
    (hwindow : s.queue.window s.bits i l.length = l)
    (hend : i.toNat + l.length = s.queue.tail.toNat) (hhead : s.queue.head.toNat ≤ i.toNat)
    (hoffset : offset = if i = s.queue.head then s.headOffset else 0)
    (hlt : offset < (l.head?.map r.dataSize).getD 1) (hpos : ∀ j ∈ l, 0 < r.dataSize j)
    (hsize : size ≤ ((r.content l).drop offset).length) :
  gather r (s.peekLoop r i size) = ((r.content l).drop offset).take size
    ∧ (∀ g ∈ s.peekLoop r i size, 0 < g.size) ∧ (s.peekLoop r i size).length ≤ l.length
  := by
  induction l generalizing i size offset with
  | nil =>
      obtain rfl : size = 0 := by simpa [BufRing.content] using hsize
      rw [peekLoop, if_neg (by simp)]
      simp [gather]
  | cons idx l ih =>
      rcases Nat.eq_zero_or_pos size with rfl | hgo
      · rw [peekLoop, if_neg (by simp)]
        simp [gather]
      · have hlt' : offset < r.dataSize idx := hlt
        rw [List.length_cons] at hwindow hend
        rw [Circular.window_succ] at hwindow
        obtain ⟨hget, hrest⟩ := List.cons.inj hwindow
        have hi : i < s.queue.tail := by
          rw [BitVec.lt_def]
          omega
        have hnext : (i + 1).toNat = i.toNat + 1 := by
          have := s.queue.tail.isLt
          bv_omega
        have hcut : (r.content (idx :: l)).drop offset
            = (r.block idx).drop offset ++ r.content l := by
          rw [BufRing.content_cons, List.drop_append_of_le_length]
          rw [BufRing.length_block]
          apply hlt'.le
        have hfirst : ((r.block idx).drop offset).length = r.dataSize idx - offset := by
          rw [List.length_drop, BufRing.length_block]
        rw [hcut, List.length_append, hfirst] at hsize
        rw [peekLoop_of_lt hi hgo hget hoffset hlt'.le, hcut]
        generalize hblk : min size (r.dataSize idx - offset) = blk
        have hoffset' : 0 = if i + 1 = s.queue.head then s.headOffset else 0 := by
          rw [if_neg]
          intro heq
          rw [← heq, hnext] at hhead
          omega
        have hlt'' : 0 < (l.head?.map r.dataSize).getD 1 := by
          cases l with
          | nil => apply Nat.one_pos
          | cons j l => apply hpos j (List.mem_cons_of_mem _ List.mem_cons_self)
        have hsize' : size - blk ≤ ((r.content l).drop 0).length := by
          rw [List.drop_zero]
          omega
        obtain ⟨hgather, hsizes, hlen⟩ := ih hrest (by omega) (by omega) hoffset' hlt''
          (fun j hj => hpos j (List.mem_cons_of_mem _ hj)) hsize'
        refine ⟨?_, ?_, ?_⟩
        · rw [gather_cons, hgather, List.drop_zero, List.take_append, hfirst, ← hblk, read_segment]
          congr 2
          omega
        · intro g hg
          rcases List.mem_cons.mp hg with rfl | hg
          · change 0 < blk
            omega
          · apply hsizes g hg
        · rw [List.length_cons, List.length_cons]
          omega

theorem peek_of_le {n : ℕ} (hle : n ≤ s.readableBytes) :
  s.peek r n = (some (s.peekLoop r s.queue.head n),
    { s with peekResult := s.peekLoop r s.queue.head n })
  := if_neg (Nat.not_lt_of_le hle)

theorem peek_of_gt {n : ℕ} (hgt : s.readableBytes < n) :
  s.peek r n = (none, s)
  := if_pos hgt

/-- The queue of a sound stream holds at most `capacity_` buffers. -/
theorem Sound.length_queueList_le (h : Sound s r) :
  s.queueList.length ≤ s.capacity
  := by
  have hle : s.queueList.length ≤ r.bufNum := by
    apply Ownership.length_le_of_nodup (List.Nodup.of_append_right h.nodup)
    intro i hi
    apply (h.toReads.toSound.of_mem hi).1
  rwa [BufRing.bufNum, ← h.bits] at hle

/-- After `peek`, `consume` takes the bytes that `peek` described. -/
theorem Sound.consume_peek (h : Sound s r) {n : ℕ} (hle : n ≤ s.readableBytes) :
  ∃ s' r', (s.peek r n).2.consume r n = some (true, s', r')
    ∧ s'.unread r' = (s.unread r).drop n
  := by
  have hpeek := (ReadBuf.peek_sound h n).1
  rw [peek_of_le hle] at hpeek ⊢
  obtain ⟨s', r', R, hrun, -, -, -, -, -, hdrop⟩ := consume_of_le hpeek (show n ≤ _ from hle)
  exact ⟨s', r', hrun, hdrop⟩

/-- The segments of `peek n`, when the tail has not wrapped below the head. -/
theorem Sound.segments_of_head_le (h : Sound s r) {n : ℕ} (hle : n ≤ s.readableBytes)
    (hwrap : s.queue.head ≤ s.queue.tail) :
  gather r (s.peekLoop r s.queue.head n) = (s.unread r).take n
    ∧ (∀ g ∈ s.peekLoop r s.queue.head n, 0 < g.size)
    ∧ (s.peekLoop r s.queue.head n).length ≤ s.queueList.length
  := by
  have hlen := ReadBufBase.length_queueList s.toReadBufBase
  apply peekLoop_spec
  · rw [hlen]
    rfl
  · have hsize : s.queue.size = (s.queue.tail - s.queue.head).toNat := rfl
    rw [hlen, hsize]
    bv_omega
  · apply Nat.le_refl
  · rw [if_pos rfl]
  · apply h.offset_lt
  · apply h.size_pos
  · rwa [h.readable] at hle

/-- `peek n` is exact if and only if there is nothing to describe, or the tail has not
wrapped below the head. -/
theorem Sound.peekExact_iff (h : Sound s r) (n : ℕ) :
  PeekExact s r (s.unread r) n
    ↔ n = 0 ∨ s.readableBytes < n ∨ s.queue.head ≤ s.queue.tail
  := by
  constructor
  · intro hexact
    by_contra hnot
    rw [not_or, not_or] at hnot
    obtain ⟨hpos, hle, hwrap⟩ := hnot
    have hle' : n ≤ s.readableBytes := Nat.le_of_not_lt hle
    have hstop : s.peekLoop r s.queue.head n = [] := by
      rw [peekLoop, if_neg]
      rintro ⟨hlt, -⟩
      apply hwrap (BitVec.le_of_lt hlt)
    obtain ⟨hgather, -⟩ := hexact.segments [] (by rw [peek_of_le hle', hstop])
    have hlen := congrArg List.length hgather
    rw [List.length_take, ← h.readable, Nat.min_eq_left hle'] at hlen
    exact hpos hlen.symm
  · intro hcond
    have hsegments : n ≤ s.readableBytes →
        gather r (s.peekLoop r s.queue.head n) = (s.unread r).take n
        ∧ (∀ g ∈ s.peekLoop r s.queue.head n, 0 < g.size)
        ∧ (s.peekLoop r s.queue.head n).length ≤ s.capacity := by
      intro hle
      rcases hcond with rfl | hgt | hwrap
      · rw [peekLoop, if_neg (by simp)]
        simp [gather]
      · omega
      · obtain ⟨hgather, hsizes, hlen⟩ := h.segments_of_head_le hle hwrap
        exact ⟨hgather, hsizes, hlen.trans h.length_queueList_le⟩
    rcases Nat.lt_or_ge s.readableBytes n with hgt | hle
    · constructor
      · simp [peek_of_gt hgt, hgt]
      · simp [peek_of_gt hgt]
      · rw [peek_of_gt hgt]
      · omega
    · constructor
      · simp [peek_of_le hle, hle]
      · intro segments heq
        rw [peek_of_le hle] at heq
        cases heq
        apply hsegments hle
      · rw [peek_of_le hle]
      · intro _
        apply h.consume_peek hle

/-- Every operation does to the unread bytes of a stream what it does to the queue of
bytes. -/
theorem Sound.run_unread (h : Sound s r) {op : ReadOp} (hop : (ReadBuf.stream s).Admits r op)
    {b' : ReadBuf} {r' : BufRing} (hrun : (ReadBuf.stream s).run r op = some (b', r')) :
  ∃ s', b' = .stream s' ∧ s'.unread r' = op.onBytes (s.unread r)
  := by
  cases op with
  | receive idx data =>
      obtain ⟨hidx, hpos, hfit⟩ := hop
      obtain ⟨b, hpush, -, -, -, -, -, hunread⟩ := h.receive hidx hpos hfit
      rw [ReadBuf.run, ReadBuf.received, hpush] at hrun
      cases hrun
      exact ⟨_, rfl, hunread⟩
  | peek size =>
      cases hrun
      refine ⟨_, rfl, ?_⟩
      rw [peek]
      split <;> rfl
  | consume size =>
      rcases Nat.lt_or_ge s.readableBytes size with hgt | hle
      · rw [ReadBuf.run, consume_of_gt hgt] at hrun
        cases hrun
        refine ⟨s, rfl, ?_⟩
        rw [ReadOp.onBytes, if_neg]
        rw [← h.readable]
        apply Nat.not_le_of_lt hgt
      · obtain ⟨s', r'', R, hconsume, -, -, -, -, -, hdrop⟩ := consume_of_le h hle
        rw [ReadBuf.run, hconsume] at hrun
        cases hrun
        refine ⟨s', rfl, ?_⟩
        rw [ReadOp.onBytes, if_pos]
        · apply hdrop
        · rwa [← h.readable]
  | reset =>
      obtain ⟨s', r'', hreset, -, hqueue, -⟩ := reset_spec h
      rw [ReadBuf.run, hreset] at hrun
      cases hrun
      refine ⟨s', rfl, ?_⟩
      rw [unread, hqueue]
      exact List.drop_nil
  | consumePacket => exact hop.elim

end ReadBufStream

/-! ### Runs -/

namespace ReadSystem

/-- A step of the read buffers together with the queues of bytes they stand for. -/
def stepBytes (σ : ReadSystem × (ℕ → List UInt8)) (e : ℕ × ReadOp) :
    Option (ReadSystem × (ℕ → List UInt8)) :=
  (σ.1.step e).map (fun τ => (τ, Function.update σ.2 e.1 (e.2.onBytes (σ.2 e.1))))

/-- The operation is admitted by the read buffers. -/
def AdmitsBytes (σ : ReadSystem × (ℕ → List UInt8)) (e : ℕ × ReadOp) : Prop :=
  σ.1.Admits e

instance (σ : ReadSystem × (ℕ → List UInt8)) (e : ℕ × ReadOp) : Decidable (AdmitsBytes σ e) :=
  inferInstanceAs (Decidable (σ.1.Admits e))

/-- The buffers are conserved, and the unread bytes of every stream are its queue of
bytes. -/
def Refines (σ : ReadSystem × (ℕ → List UInt8)) : Prop :=
  σ.1.Inv ∧ ∀ c < σ.1.num, ∀ s, σ.1.bufs c = .stream s → s.unread σ.1.ring = σ.2 c

/-- A datagram socket does not turn into a stream. -/
theorem dgram_run_ne (s : ReadBufDgram) (r : BufRing) (op : ReadOp) (s' : ReadBufStream)
    (r' : BufRing) :
  (ReadBuf.dgram s).run r op ≠ some (.stream s', r')
  := by
  cases op <;> simp [ReadBuf.run]

/-- A step keeps the refinement. -/
theorem Refines.step {σ τ : ReadSystem × (ℕ → List UInt8)} {e : ℕ × ReadOp} (h : Refines σ)
    (he : AdmitsBytes σ e) (hstep : stepBytes σ e = some τ) :
  Refines τ ∧ τ.1.num = σ.1.num
  := by
  obtain ⟨hinv, hbytes⟩ := h
  obtain ⟨hc, hop⟩ := he
  obtain ⟨b', r', hrun, -, hex, hs⟩ := ReadBuf.run_spec (hinv.sound hc) hop
  rw [stepBytes, ReadSystem.step, hrun] at hstep
  cases hstep
  refine ⟨⟨hinv.update hc hex hs, ?_⟩, rfl⟩
  intro d hd s hsd
  change Function.update σ.1.bufs e.1 b' d = .stream s at hsd
  change s.unread r' = Function.update σ.2 e.1 (e.2.onBytes (σ.2 e.1)) d
  by_cases hdc : d = e.1
  · subst hdc
    rw [Function.update_self] at hsd ⊢
    subst hsd
    cases hb : σ.1.bufs e.1 with
    | stream s₀ =>
        have hsound := hinv.sound hc
        rw [hb] at hsound hop hrun
        obtain ⟨s', hs', hunread⟩ := ReadBufStream.Sound.run_unread hsound hop hrun
        cases hs'
        rw [hunread, hbytes e.1 hc s₀ hb]
    | dgram s₀ =>
        rw [hb] at hrun
        exact absurd hrun (dgram_run_ne s₀ _ _ _ _)
  · rw [Function.update_of_ne hdc] at hsd ⊢
    have hcontent := hinv.content_frame hc hd hdc hex
    rw [hsd] at hcontent
    rw [← hbytes d hd s hsd, ReadBufStream.unread]
    change (r'.content (ReadBuf.stream s).queueList).drop _ = _
    rw [hcontent]
    rfl

/-- In every state reached from new read buffers over a new ring, the unread bytes of every
stream are its queue of bytes. -/
theorem reaches_refines {num bits bufSize : ℕ} {hpos : 0 < bufSize}
    {halloc : 2 ^ bits * bufSize < 2 ^ 31} {isStream : ℕ → Bool}
    {σ : ReadSystem × (ℕ → List UInt8)}
    (h : Reaches stepBytes AdmitsBytes
      (new num (.new bits bufSize hpos halloc) isStream, fun _ => []) σ) :
  Refines σ ∧ σ.1.num = num
  := by
  apply h.invariant
  · refine ⟨⟨new_inv num bits bufSize hpos halloc isStream, ?_⟩, rfl⟩
    intro c _ s hs
    change (if isStream c then ReadBuf.stream ⟨.new _, 0⟩ else .dgram ⟨.new _⟩) = _ at hs
    split at hs
    · cases hs
      have hnil : ∀ r : BufRing, (ReadBufBase.new r).queueList = [] :=
        fun _ => (Circular.toList_eq_nil_iff _).mpr rfl
      rw [ReadBufStream.unread, hnil]
      rfl
    · cases hs
  · rintro σ τ e ⟨href, hnum⟩ he hstep
    obtain ⟨href', hnum'⟩ := href.step he hstep
    exact ⟨href', hnum'.trans hnum⟩

/-- In every state reached, for every stream and every `n`: `peek n` is exact for the bytes
received and not consumed, if and only if `n` is zero, or there are fewer than `n` bytes, or
the tail has not wrapped below the head. -/
theorem peek_exact_iff {num bits bufSize : ℕ} {hpos : 0 < bufSize}
    {halloc : 2 ^ bits * bufSize < 2 ^ 31} {isStream : ℕ → Bool}
    {σ : ReadSystem × (ℕ → List UInt8)}
    (h : Reaches stepBytes AdmitsBytes
      (new num (.new bits bufSize hpos halloc) isStream, fun _ => []) σ)
    {c : ℕ} (hc : c < num) {s : ReadBufStream} (hs : σ.1.bufs c = .stream s) (n : ℕ) :
  s.PeekExact σ.1.ring (σ.2 c) n
    ↔ n = 0 ∨ s.readableBytes < n ∨ s.queue.head ≤ s.queue.tail
  := by
  obtain ⟨⟨hinv, hbytes⟩, hnum⟩ := reaches_refines h
  rw [← hnum] at hc
  have hsound := hinv.sound hc
  rw [hs] at hsound
  rw [← hbytes c hc s hs]
  apply ReadBufStream.Sound.peekExact_iff hsound

/-- A run after which the first of two buffers of a stream is half read; `peek` of the three
unread bytes is exact. -/
theorem peek_exact_iff_two_buffers :
  ∃ σ s, Reaches stepBytes AdmitsBytes (new 1 (.new 2 2 (by decide) (by decide)) (fun _ => true),
      fun _ => []) σ
    ∧ σ.1.bufs 0 = .stream s ∧ σ.2 0 = [6, 7, 8] ∧ s.PeekExact σ.1.ring [6, 7, 8] 3
  := by
  have hrun : (Reaches.follow stepBytes AdmitsBytes
      [(0, .receive 1 [5, 6]), (0, .receive 3 [7, 8]), (0, .consume 1)]
      (new 1 (.new 2 2 (by decide) (by decide)) (fun _ => true), fun _ => [])).map
        (fun σ => (σ.2 0, (σ.1.bufs 0).stream?.map (fun s => (s.queue.head, s.queue.tail))))
          = some ([6, 7, 8], some (0, 2)) := by
    decide +kernel
  obtain ⟨σ, hreach, hfinal⟩ := Reaches.of_follow _ hrun
  obtain ⟨hbytes, hqueue⟩ := Prod.mk.inj hfinal
  cases hs : σ.1.bufs 0 with
  | dgram s =>
      rw [hs] at hqueue
      cases hqueue
  | stream s =>
      rw [hs] at hqueue
      obtain ⟨hhead, htail⟩ := Prod.mk.inj (Option.some.inj hqueue)
      refine ⟨σ, s, hreach, hs, hbytes, ?_⟩
      rw [← hbytes]
      apply (peek_exact_iff hreach Nat.one_pos hs 3).mpr
      right
      right
      rw [hhead, htail]
      decide

/-- One stream over a ring of one buffer of one byte. -/
def oneStream : ReadSystem × (ℕ → List UInt8) :=
  (new 1 (.new 0 1 (by decide) (by decide)) (fun _ => true), fun _ => [])

theorem oneStream_sound {σ : ReadSystem × (ℕ → List UInt8)}
    (h : Reaches stepBytes AdmitsBytes oneStream σ) {s : ReadBufStream}
    (hs : σ.1.bufs 0 = .stream s) :
  0 < σ.1.num ∧ (ReadBuf.stream s).Sound σ.1.ring
  := by
  obtain ⟨⟨hinv, -⟩, hnum⟩ := reaches_refines h
  have hc : 0 < σ.1.num := by
    rw [hnum]
    apply Nat.one_pos
  rw [← hs]
  exact ⟨hc, hinv.sound hc⟩

/-- A byte is received by the stream, whose queue was empty. -/
theorem receive_byte {σ : ReadSystem × (ℕ → List UInt8)}
    (h : Reaches stepBytes AdmitsBytes oneStream σ) {s : ReadBufStream}
    (hs : σ.1.bufs 0 = .stream s) (hempty : s.queueList = []) :
  ∃ τ t, Reaches stepBytes AdmitsBytes oneStream τ ∧ τ.1.bufs 0 = .stream t
    ∧ t.queue.head = s.queue.tail ∧ t.queue.tail = s.queue.tail + 1 ∧ t.readableBytes = 1
  := by
  obtain ⟨hc, hsound⟩ := oneStream_sound h hs
  obtain ⟨⟨hinv, -⟩, hnum⟩ := reaches_refines h
  have hidx : 0 ∈ σ.1.ring.ring := by
    have hmem := (hinv.perm.mem_iff (a := 0)).mpr (List.mem_range.mpr (Nat.two_pow_pos _))
    rw [hnum, Ownership.holdings, List.range_one, List.flatMap_singleton, hs] at hmem
    change 0 ∈ _ ++ s.queueList at hmem
    rwa [hempty, List.append_nil] at hmem
  have hpos : 0 < [(7 : UInt8)].length := Nat.one_pos
  have hfit : [(7 : UInt8)].length ≤ σ.1.ring.bufSize := σ.1.ring.bufSize_pos
  obtain ⟨b', hpush, -, hhead, htail, -, hs', hunread⟩ :=
    ReadBufStream.Sound.receive hsound hidx hpos hfit
  have hhead' : s.queue.head = s.queue.tail := (Circular.toList_eq_nil_iff _).mp hempty
  have hnil : s.unread σ.1.ring = [] := by
    rw [ReadBufStream.unread, hempty]
    exact List.drop_nil
  have hadmits : AdmitsBytes σ (0, .receive 0 [7]) := by
    use hc
    rw [hs]
    exact ⟨hidx, hpos, hfit⟩
  have hstep : stepBytes σ (0, .receive 0 [7])
      = some (⟨σ.1.num, (σ.1.ring.fill 0 [7]).setDataSize 0 1,
          Function.update σ.1.bufs 0 (.stream { s with toReadBufBase := b' })⟩,
        Function.update σ.2 0 (σ.2 0 ++ [7])) := by
    rw [stepBytes, ReadSystem.step, hs, ReadBuf.run, ReadBuf.received, hpush]
    rfl
  refine ⟨_, { s with toReadBufBase := b' }, h.next hadmits hstep, rfl, hhead.trans hhead',
    htail, ?_⟩
  rw [hs'.readable, hunread, hnil]
  rfl

/-- The byte is consumed, and the queue is empty again. -/
theorem consume_byte {σ : ReadSystem × (ℕ → List UInt8)}
    (h : Reaches stepBytes AdmitsBytes oneStream σ) {s : ReadBufStream}
    (hs : σ.1.bufs 0 = .stream s) (hreadable : s.readableBytes = 1) :
  ∃ τ t, Reaches stepBytes AdmitsBytes oneStream τ ∧ τ.1.bufs 0 = .stream t
    ∧ t.queueList = [] ∧ t.queue.tail = s.queue.tail
  := by
  obtain ⟨hc, hsound⟩ := oneStream_sound h hs
  obtain ⟨t, r', R, hconsume, -, htail, -, -, ht, hdrop⟩ :=
    ReadBufStream.consume_of_le hsound hreadable.symm.le
  have hadmits : AdmitsBytes σ (0, .consume 1) := by
    use hc
    rw [hs]
    trivial
  have hstep : stepBytes σ (0, .consume 1)
      = some (⟨σ.1.num, r', Function.update σ.1.bufs 0 (.stream t)⟩,
        Function.update σ.2 0 ((ReadOp.consume 1).onBytes (σ.2 0))) := by
    rw [stepBytes, ReadSystem.step, hs, ReadBuf.run, hconsume]
    rfl
  refine ⟨_, t, h.next hadmits hstep, rfl, ?_, htail⟩
  apply ht.toReads.queueList_eq_nil
  rw [hdrop]
  apply List.drop_of_length_le
  rw [← hsound.readable]
  apply hreadable.le

/-- Receiving and consuming bytes one by one, the counters take every value. -/
theorem reaches_tail (k : ℕ) :
  ∃ σ s, Reaches stepBytes AdmitsBytes oneStream σ ∧ σ.1.bufs 0 = .stream s
    ∧ s.queueList = [] ∧ s.queue.tail = BitVec.ofNat 32 k
  := by
  induction k with
  | zero =>
      refine ⟨oneStream, ⟨.new _, 0⟩, .start, rfl, ?_, rfl⟩
      exact (Circular.toList_eq_nil_iff _).mpr rfl
  | succ k ih =>
      obtain ⟨σ, s, hreach, hs, hempty, htail⟩ := ih
      obtain ⟨τ, t, hreach', ht, -, htail', hreadable⟩ := receive_byte hreach hs hempty
      obtain ⟨υ, u, hreach'', hu, hempty'', htail''⟩ := consume_byte hreach' ht hreadable
      refine ⟨υ, u, hreach'', hu, hempty'', ?_⟩
      rw [htail'', htail', htail, BitVec.ofNat_add]
      rfl

/-- A state that is reached in which the tail has wrapped below the head: one byte is there
to be read, and `peek` does not describe it. -/
theorem peek_not_exact_after_wrap :
  ∃ σ s, Reaches stepBytes AdmitsBytes oneStream σ ∧ σ.1.bufs 0 = .stream s
    ∧ s.readableBytes = 1 ∧ (s.peek σ.1.ring 1).1 = some []
    ∧ ¬ s.PeekExact σ.1.ring (σ.2 0) 1
  := by
  obtain ⟨σ, s, hreach, hs, hempty, htail⟩ := reaches_tail (2 ^ 32 - 1)
  obtain ⟨τ, t, hreach', ht, hhead', htail', hreadable⟩ := receive_byte hreach hs hempty
  rw [htail] at hhead' htail'
  obtain ⟨⟨hinv, hbytes⟩, hnum⟩ := reaches_refines hreach'
  have hc : 0 < τ.1.num := by
    rw [hnum]
    apply Nat.one_pos
  have hsound := hinv.sound hc
  rw [ht] at hsound
  refine ⟨τ, t, hreach', ht, hreadable, ?_, ?_⟩
  · rw [ReadBufStream.peek_of_le hreadable.symm.le, ReadBufStream.peekLoop, if_neg]
    rw [hhead', htail']
    decide
  · rw [← hbytes 0 hc t ht, ReadBufStream.Sound.peekExact_iff hsound, hhead', htail', hreadable]
    decide

end ReadSystem

end Proactor
