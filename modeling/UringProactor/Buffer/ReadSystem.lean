import UringProactor.Buffer.Receive
import UringProactor.Prelude.Run

/-!
# Conservation of receive buffers

Any number of read buffers, of streams and of datagram sockets, share one `BufRing`.  In
every state reached from new read buffers over a new ring, every buffer is either provided
to the kernel or in one queue, at one position.  So `push_buf` never fails, and `reset`
provides all queued buffers again.
-/

open scoped List

namespace Proactor

/-- A read buffer of a stream or of a datagram socket. -/
inductive ReadBuf where
  | stream (s : ReadBufStream)
  | dgram (s : ReadBufDgram)

/-- The operations of read buffers: the kernel takes the buffer `idx` from the ring, fills it
with `data` and completes, and the completion is pushed; `peek`, `consume` and `reset` of a
stream; `consume` of a datagram socket. -/
inductive ReadOp where
  | receive (idx : ℕ) (data : List UInt8)
  | peek (size : ℕ)
  | consume (size : ℕ)
  | reset
  | consumePacket

namespace ReadBuf

/-- The part that streams and datagram sockets have in common. -/
def base : ReadBuf → ReadBufBase
  | stream s => s.toReadBufBase
  | dgram s => s.toReadBufBase

/-- The buffer of a stream, if it is one. -/
def stream? : ReadBuf → Option ReadBufStream
  | stream s => some s
  | dgram _ => none

/-- The queued buffers. -/
def queueList (b : ReadBuf) : List ℕ := b.base.queueList

/-- The ring after the kernel has filled the buffer `idx` and the completion has set its
size. -/
def received (r : BufRing) (idx : ℕ) (data : List UInt8) : BufRing :=
  (r.fill idx data).setDataSize idx data.length

/-- Run an operation, forgetting what it returns. -/
def run : ReadBuf → BufRing → ReadOp → Option (ReadBuf × BufRing)
  | stream s, r, .receive idx data =>
      some (stream { s with toReadBufBase := (s.pushBuf (received r idx data) idx).2 },
        received r idx data)
  | stream s, r, .peek size => some (stream (s.peek r size).2, r)
  | stream s, r, .consume size => (s.consume r size).map (fun (_, s, r) => (stream s, r))
  | stream s, r, .reset => (s.reset r).map (fun (s, r) => (stream s, r))
  | dgram s, r, .receive idx data =>
      some (dgram { s with toReadBufBase := (s.pushBuf (received r idx data) idx).2 },
        received r idx data)
  | dgram s, r, .consumePacket => some (dgram (s.consume r).2.1, (s.consume r).2.2)
  | _, _, _ => none

/-- What the kernel promises of a completion: it names a buffer in the ring, and what it
received fits; a stream completion with data has at least one byte.  The other operations
are those of the kind of buffer. -/
def Admits : ReadBuf → BufRing → ReadOp → Prop
  | stream _, r, .receive idx data =>
      idx ∈ r.ring ∧ 0 < data.length ∧ data.length ≤ r.bufSize
  | dgram _, r, .receive idx data => idx ∈ r.ring ∧ data.length ≤ r.bufSize
  | stream _, _, .consumePacket => False
  | stream _, _, _ => True
  | dgram _, _, .consumePacket => True
  | dgram _, _, _ => False

instance (b : ReadBuf) (r : BufRing) (op : ReadOp) : Decidable (b.Admits r op) :=
  match b, op with
  | stream _, .receive idx data =>
      inferInstanceAs (Decidable (idx ∈ r.ring ∧ 0 < data.length ∧ data.length ≤ r.bufSize))
  | dgram _, .receive idx data =>
      inferInstanceAs (Decidable (idx ∈ r.ring ∧ data.length ≤ r.bufSize))
  | stream _, .peek _ | stream _, .consume _ | stream _, .reset => .isTrue trivial
  | dgram _, .consumePacket => .isTrue trivial
  | stream _, .consumePacket => .isFalse id
  | dgram _, .peek _ | dgram _, .consume _ | dgram _, .reset => .isFalse id

/-- The buffer is sound with the ring. -/
def Sound : ReadBuf → BufRing → Prop
  | stream s, r => s.Sound r
  | dgram s, r => s.toReadBufBase.Sound r

theorem Sound.base {b : ReadBuf} {r : BufRing} (h : b.Sound r) :
  b.base.Sound r
  := by
  cases b with
  | stream s => exact h.toReads.toSound
  | dgram s => exact h

/-- `peek` changes nothing but `peek_result_`. -/
theorem peek_sound {s : ReadBufStream} {r : BufRing} (h : s.Sound r) (size : ℕ) :
  (s.peek r size).2.Sound r ∧ (s.peek r size).2.bits = s.bits
    ∧ (s.peek r size).2.queueList = s.queueList
  := by
  rw [ReadBufStream.peek]
  split
  case isTrue => exact ⟨h, rfl, rfl⟩
  case isFalse =>
    have hbase := h.toReads.toSound
    exact ⟨⟨⟨⟨hbase.bits, hbase.nodup, hbase.lt, hbase.size_le⟩, h.size_pos, h.offset_lt⟩,
      h.readable⟩, rfl, rfl⟩

/-- Every operation returns, is an exchange with the ring and keeps the buffer sound. -/
theorem run_spec {b : ReadBuf} {r : BufRing} (h : b.Sound r) {op : ReadOp}
    (hop : b.Admits r op) :
  ∃ b' r', b.run r op = some (b', r') ∧ b'.base.bits = b.base.bits
    ∧ RingExchange r b.queueList r' b'.queueList ∧ b'.Sound r'
  := by
  cases b with
  | stream s =>
      cases op with
      | receive idx data =>
          obtain ⟨hidx, hpos, hfit⟩ := hop
          obtain ⟨b', hpush, hbits, -, -, he, hs, -⟩ := h.receive hidx hpos hfit
          refine ⟨_, _, rfl, ?_, ?_, ?_⟩
          · change (s.pushBuf (received r idx data) idx).2.bits = _
            rw [received, hpush]
            apply hbits
          · change RingExchange r s.queueList _ (s.pushBuf (received r idx data) idx).2.queueList
            rw [received, hpush]
            apply he
          · change ReadBufStream.Sound
              { s with toReadBufBase := (s.pushBuf (received r idx data) idx).2 } _
            rw [received, hpush]
            apply hs
      | peek size =>
          obtain ⟨hs, hbits, hqueue⟩ := peek_sound h size
          refine ⟨_, r, rfl, hbits, ?_, hs⟩
          apply RingExchange.of_released (.refl r) _ h.size_le
          change (s.peek r size).2.queueList ~ _
          rw [hqueue]
          apply List.Perm.refl
      | consume size =>
          rcases Nat.lt_or_ge s.readableBytes size with hgt | hle
          · refine ⟨stream s, r, ?_, rfl, ?_, h⟩
            · rw [run, ReadBufStream.consume_of_gt hgt]
              rfl
            · apply RingExchange.of_released (.refl r) (.refl _) h.size_le
          · obtain ⟨s', r', R, hrun, hbits, -, hqueue, hr, hs', -⟩ :=
              ReadBufStream.consume_of_le h hle
            refine ⟨stream s', r', ?_, hbits, ?_, hs'⟩
            · rw [run, hrun]
              rfl
            · apply RingExchange.of_released hr _ h.size_le
              change R ++ s'.queueList ~ s.queueList
              rw [hqueue]
      | reset =>
          obtain ⟨s', r', hrun, hbits, hqueue, hr, hs'⟩ := ReadBufStream.reset_spec h
          refine ⟨stream s', r', ?_, hbits, ?_, hs'⟩
          · rw [run, hrun]
            rfl
          · apply RingExchange.of_released hr _ h.size_le
            change s.queueList ++ s'.queueList ~ s.queueList
            rw [hqueue, List.append_nil]
      | consumePacket => exact hop.elim
  | dgram s =>
      have hbase : s.toReadBufBase.Sound r := h
      cases op with
      | receive idx data =>
          obtain ⟨hidx, hfit⟩ := hop
          obtain ⟨b', hpush, hbits, -, -, hqueue, -⟩ :=
            hbase.pushBuf_eq hidx (received r idx data)
          have he := hbase.fill_exchange hidx hfit
          rw [← hqueue] at he
          refine ⟨_, _, rfl, ?_, ?_, ?_⟩
          · change (s.pushBuf (received r idx data) idx).2.bits = _
            rw [hpush]
            apply hbits
          · change RingExchange r s.queueList _ (s.pushBuf (received r idx data) idx).2.queueList
            rw [hpush]
            apply he
          · change (s.pushBuf (received r idx data) idx).2.Sound _
            rw [hpush]
            apply hbase.exchange hbits he
      | consumePacket =>
          obtain ⟨hbits, he⟩ := ReadBufDgram.consume_exchange hbase
          exact ⟨_, _, rfl, hbits, he, hbase.exchange hbits he⟩
      | peek size => exact hop.elim
      | consume size => exact hop.elim
      | reset => exact hop.elim

/-- The part of soundness that depends on the ring only through its size and the sizes of
the queued buffers. -/
def Local : ReadBuf → BufRing → Prop
  | stream s, r => s.bits = r.bits ∧ (∀ i ∈ s.queueList, 0 < r.dataSize i)
      ∧ s.headOffset < (s.queueList.head?.map r.dataSize).getD 1
      ∧ s.readableBytes = (s.unread r).length
  | dgram s, r => s.bits = r.bits

theorem Sound.toLocal {b : ReadBuf} {r : BufRing} (h : b.Sound r) :
  b.Local r
  := by
  cases b with
  | stream s => exact ⟨h.bits, h.size_pos, h.offset_lt, h.readable⟩
  | dgram s => exact h.bits

theorem Local.toSound {b : ReadBuf} {r : BufRing} (h : b.Local r)
    (hnodup : (r.ring ++ b.queueList).Nodup) (hlt : ∀ i ∈ r.ring ++ b.queueList, i < r.bufNum)
    (hsize : ∀ i, r.dataSize i ≤ r.bufSize) :
  b.Sound r
  := by
  cases b with
  | stream s =>
      obtain ⟨hbits, hpos, hoffset, hreadable⟩ := h
      exact ⟨⟨⟨hbits, hnodup, hlt, hsize⟩, hpos, hoffset⟩, hreadable⟩
  | dgram s => exact ⟨h, hnodup, hlt, hsize⟩

/-- A ring of the same size in which the queued buffers have the same sizes. -/
theorem Local.congr {b : ReadBuf} {r r' : BufRing} (h : b.Local r) (hbits : r'.bits = r.bits)
    (hsize : ∀ i ∈ b.queueList, r'.dataSize i = r.dataSize i) :
  b.Local r'
  := by
  cases b with
  | stream s =>
      obtain ⟨hb, hpos, hoffset, hreadable⟩ := h
      have hlen : ∀ l : List ℕ, (∀ i ∈ l, r'.dataSize i = r.dataSize i) →
          (r'.content l).length = (r.content l).length := by
        intro l hl
        induction l with
        | nil => rfl
        | cons i l ih =>
            rw [BufRing.content_cons, BufRing.content_cons, List.length_append,
              List.length_append, BufRing.length_block, BufRing.length_block,
              hl i List.mem_cons_self, ih (fun j hj => hl j (List.mem_cons_of_mem _ hj))]
      refine ⟨hb.trans hbits.symm, ?_, ?_, ?_⟩
      · intro i hi
        rw [hsize i hi]
        apply hpos i hi
      · apply Nat.lt_of_lt_of_eq hoffset
        cases hl : s.queueList with
        | nil => rfl
        | cons i l =>
            apply (hsize i _).symm
            change i ∈ s.queueList
            rw [hl]
            apply List.mem_cons_self
      · rw [hreadable, ReadBufStream.unread, ReadBufStream.unread, List.length_drop,
          List.length_drop, hlen s.queueList hsize]
  | dgram s => exact h.trans hbits.symm

end ReadBuf

/-! ### Many read buffers over one ring -/

/-- The ring `r` and the read buffers `w 0`, ..., `w (n - 1)` hold every buffer exactly once,
and the read buffers are in order. -/
structure ReadConserved (r : BufRing) (n : ℕ) (w : ℕ → ReadBuf) : Prop where
  perm : Ownership.holdings r.ring n (fun c => (w c).queueList) ~ List.range r.bufNum
  size_le : ∀ i, r.dataSize i ≤ r.bufSize
  owner : ∀ c < n, (w c).Local r

namespace ReadConserved

variable {r r' : BufRing} {n c : ℕ} {w : ℕ → ReadBuf} {b' : ReadBuf}

/-- Each read buffer is sound with the ring. -/
theorem sound (h : ReadConserved r n w) (hc : c < n) :
  (w c).Sound r
  := by
  obtain ⟨hnodup, hlt⟩ := Ownership.nodup_of_perm h.perm hc
  apply (h.owner c hc).toSound hnodup hlt h.size_le

/-- An exchange of the read buffer `c` with the ring does not touch the buffers of
another. -/
theorem frame (h : ReadConserved r n w) (hc : c < n) {d : ℕ} (hd : d < n) (hdc : d ≠ c)
    (he : RingExchange r (w c).queueList r' b'.queueList) {i : ℕ} (hi : i ∈ (w d).queueList) :
  i < r.bufNum ∧ i ∉ r.ring ∧ i ∉ r'.ring
  := by
  obtain ⟨hlt, hmem⟩ := Ownership.not_mem_of_mem h.perm hc hd hdc hi
  refine ⟨hlt, ?_, ?_⟩
  · intro hring
    apply hmem (List.mem_append_left _ hring)
  · intro hring
    apply hmem (he.perm.mem_iff.mp (List.mem_append_left _ hring))

/-- An exchange of one read buffer with the ring keeps all buffers conserved. -/
theorem update (h : ReadConserved r n w) (hc : c < n)
    (he : RingExchange r (w c).queueList r' b'.queueList) (hs : b'.Sound r') :
  ReadConserved r' n (Function.update w c b')
  := by
  constructor
  · rw [BufRing.bufNum, he.bits]
    apply List.Perm.trans _ h.perm
    apply Ownership.holdings_exchange hc
    · intro d hd
      simp only [Function.update_of_ne hd]
    · simp only [Function.update_self]
      apply he.perm
  · intro i
    rw [he.bufSize]
    apply he.size_le
  · intro d hd
    by_cases hdc : d = c
    · subst hdc
      rw [Function.update_self]
      apply hs.toLocal
    · rw [Function.update_of_ne hdc]
      apply (h.owner d hd).congr he.bits
      intro i hi
      obtain ⟨-, hring, hring'⟩ := h.frame hc hd hdc he hi
      apply he.frame_size i hring hring'

/-- An exchange of one read buffer with the ring leaves the bytes of the others as they
are. -/
theorem content_frame (h : ReadConserved r n w) (hc : c < n) {d : ℕ} (hd : d < n) (hdc : d ≠ c)
    (he : RingExchange r (w c).queueList r' b'.queueList) :
  r'.content (w d).queueList = r.content (w d).queueList
  := by
  apply List.flatMap_congr
  intro i hi
  obtain ⟨hlt, hring, hring'⟩ := h.frame hc hd hdc he hi
  apply he.frame_block i hlt hring hring'

end ReadConserved

/-- Read buffers over one ring that hold different buffers.  A buffer may be in none of them, as
when a completion that nobody waits for has taken it from the ring. -/
structure ReadsApart (r : BufRing) (q : ℕ → ReadBufStream) : Prop where
  sound : ∀ c, (q c).Sound r
  disjoint : ∀ c d, c ≠ d → (q c).queueList.Disjoint (q d).queueList

namespace ReadsApart

variable {r r' : BufRing} {c : ℕ} {q : ℕ → ReadBufStream} {s' : ReadBufStream}

/-- A stream stays sound with a ring in which its buffers have the same sizes. -/
theorem sound_of_frame {s : ReadBufStream} (h : s.Sound r) (hbits : r'.bits = r.bits)
    (hnodup : r'.ring.Nodup) (hring : ∀ i ∈ r'.ring, i < r'.bufNum ∧ i ∉ s.queueList)
    (hsize : ∀ i, r'.dataSize i ≤ r'.bufSize)
    (hframe : ∀ i ∈ s.queueList, r'.dataSize i = r.dataSize i) :
  s.Sound r'
  := by
  have hsound : (ReadBuf.stream s).Sound r := h
  apply (hsound.toLocal.congr hbits hframe).toSound _ _ hsize
  · apply hnodup.append (List.Nodup.of_append_right h.nodup)
    intro i hi hqueue
    exact (hring i hi).2 hqueue
  · intro i hi
    rcases List.mem_append.mp hi with hi | hi
    · exact (hring i hi).1
    · rw [BufRing.bufNum, hbits]
      exact h.lt i (List.mem_append_right _ hi)

/-- An exchange of one stream with the ring keeps the streams apart. -/
theorem update (h : ReadsApart r q) (he : RingExchange r (q c).queueList r' s'.queueList)
    (hs : s'.Sound r') :
  ReadsApart r' (Function.update q c s')
  := by
  have hmem : ∀ d, d ≠ c → ∀ i ∈ (q d).queueList, i ∉ r.ring ∧ i ∉ r'.ring ++ s'.queueList := by
    intro d hd i hi
    have hnot := ((h.sound d).toReads.toSound.of_mem hi).2
    use hnot
    rw [he.perm.mem_iff, List.mem_append]
    rintro (hring | hqueue)
    · exact hnot hring
    · exact h.disjoint d c hd hi hqueue
  constructor
  · intro d
    by_cases hd : d = c
    · rw [hd, Function.update_self]
      exact hs
    · rw [Function.update_of_ne hd]
      apply sound_of_frame (h.sound d) he.bits (List.Nodup.of_append_left hs.nodup)
      · intro i hi
        use hs.lt i (List.mem_append_left _ hi)
        intro hqueue
        exact (hmem d hd i hqueue).2 (List.mem_append_left _ hi)
      · exact hs.size_le
      · intro i hi
        obtain ⟨hring, hnot⟩ := hmem d hd i hi
        exact he.frame_size i hring (fun hi => hnot (List.mem_append_left _ hi))
  · intro d d' hne i hi hi'
    by_cases hd : d = c
    · rw [hd, Function.update_self] at hi
      rw [Function.update_of_ne (fun h => hne (hd.trans h.symm))] at hi'
      exact (hmem d' (fun h => hne (hd.trans h.symm)) i hi').2 (List.mem_append_right _ hi)
    · rw [Function.update_of_ne hd] at hi
      by_cases hd' : d' = c
      · rw [hd', Function.update_self] at hi'
        exact (hmem d hd i hi).2 (List.mem_append_right _ hi')
      · rw [Function.update_of_ne hd'] at hi'
        exact h.disjoint d d' hne hi hi'

/-- The kernel takes a buffer from the ring. -/
theorem fill (h : ReadsApart r q) (idx : ℕ) (data : List UInt8) :
  ReadsApart (r.fill idx data) q
  := by
  constructor
  · intro c
    have hs := h.sound c
    apply sound_of_frame hs
    · rfl
    · exact (List.Nodup.of_append_left hs.nodup).erase idx
    · intro i hi
      have hring := List.mem_of_mem_erase hi
      use hs.lt i (List.mem_append_left _ hring)
      intro hqueue
      exact (hs.toReads.toSound.of_mem hqueue).2 hring
    · exact hs.size_le
    · intro i _
      rfl
  · exact h.disjoint

end ReadsApart

/-- Read buffers over one ring. -/
structure ReadSystem where
  /-- The number of read buffers. -/
  num : ℕ
  ring : BufRing
  bufs : ℕ → ReadBuf

namespace ReadSystem

/-- New read buffers over the ring: streams where `isStream` says so, and datagram sockets
elsewhere. -/
def new (num : ℕ) (ring : BufRing) (isStream : ℕ → Bool) : ReadSystem where
  num := num
  ring := ring
  bufs c := if isStream c then .stream ⟨.new ring, 0⟩ else .dgram ⟨.new ring⟩

/-- One operation on one read buffer; `none` stands for a read past the tail of a queue. -/
def step (σ : ReadSystem) (e : ℕ × ReadOp) : Option ReadSystem :=
  ((σ.bufs e.1).run σ.ring e.2).map (fun (b, r) =>
    { σ with ring := r, bufs := Function.update σ.bufs e.1 b })

/-- The operation is on one of the read buffers, and within what the kernel promises. -/
def Admits (σ : ReadSystem) (e : ℕ × ReadOp) : Prop :=
  e.1 < σ.num ∧ (σ.bufs e.1).Admits σ.ring e.2

instance (σ : ReadSystem) (e : ℕ × ReadOp) : Decidable (σ.Admits e) :=
  inferInstanceAs (Decidable (_ ∧ _))

/-- The buffers are conserved. -/
def Inv (σ : ReadSystem) : Prop :=
  ReadConserved σ.ring σ.num σ.bufs

variable {σ σ' : ReadSystem}

/-- A step returns and conserves the buffers. -/
theorem step_spec (h : σ.Inv) {e : ℕ × ReadOp} (he : σ.Admits e) :
  ∃ b' r', σ.step e = some { σ with ring := r', bufs := Function.update σ.bufs e.1 b' }
    ∧ ReadConserved r' σ.num (Function.update σ.bufs e.1 b') ∧ r'.bits = σ.ring.bits
  := by
  obtain ⟨hc, hop⟩ := he
  obtain ⟨b', r', hrun, -, hex, hs⟩ := ReadBuf.run_spec (h.sound hc) hop
  refine ⟨b', r', ?_, h.update hc hex hs, hex.bits⟩
  rw [step, hrun]
  rfl

/-- New read buffers over a new ring conserve the buffers. -/
theorem new_inv (num bits bufSize : ℕ) (hpos : 0 < bufSize)
    (halloc : 2 ^ bits * bufSize < 2 ^ 31) (isStream : ℕ → Bool) :
  (new num (.new bits bufSize hpos halloc) isStream).Inv
  := by
  rw [BufRing.new_eq]
  have hnil : ∀ r : BufRing, (ReadBufBase.new r).queueList = [] :=
    fun _ => (Circular.toList_eq_nil_iff _).mpr rfl
  have hqueue : ∀ r c, ((new num r isStream).bufs c).queueList = [] := by
    intro r c
    change ReadBuf.queueList (if isStream c then _ else _) = []
    split <;> apply hnil
  constructor
  · rw [Ownership.holdings, List.flatMap_eq_nil_iff.mpr (fun c _ => hqueue _ c), List.append_nil]
    rfl
  · intro i
    apply Nat.zero_le
  · intro c _
    change ReadBuf.Local (if isStream c then _ else _) _
    split
    · refine ⟨rfl, ?_, ?_, ?_⟩
      · intro i hi
        rw [hnil] at hi
        cases hi
      · rw [hnil]
        apply Nat.one_pos
      · rw [ReadBufStream.unread, hnil]
        rfl
    · rfl

/-- In every state reached, the buffers are conserved. -/
theorem reaches_inv (h : Reaches step Admits σ σ') (hinv : σ.Inv) :
  σ'.Inv ∧ σ'.num = σ.num ∧ σ'.ring.bits = σ.ring.bits
  := by
  apply h.invariant ⟨hinv, rfl, rfl⟩
  rintro t u e ⟨hinv, hnum, hring⟩ he hstep
  obtain ⟨b', r', hspec, hcons, hbits⟩ := step_spec hinv he
  rw [hspec] at hstep
  cases hstep
  exact ⟨hcons, hnum, hbits.trans hring⟩

/-- Receive-buffer conservation: in every state reached from new read buffers over a new
ring, every buffer is in the ring or in one queue, at one position; every further operation
returns; a completion is always pushed; and `reset` of a stream returns its queued buffers to
the ring and leaves its queue empty. -/
theorem receive_buffers_conserved (num bits bufSize : ℕ) (hpos : 0 < bufSize)
    (halloc : 2 ^ bits * bufSize < 2 ^ 31) (isStream : ℕ → Bool)
    (h : Reaches step Admits (new num (.new bits bufSize hpos halloc) isStream) σ) :
  Ownership.holdings σ.ring.ring σ.num (fun c => (σ.bufs c).queueList) ~ List.range (2 ^ bits)
    ∧ (∀ e, σ.Admits e → ∃ σ', σ.step e = some σ')
    ∧ (∀ c idx data, σ.Admits (c, .receive idx data) →
        ((σ.bufs c).base.pushBuf (ReadBuf.received σ.ring idx data) idx).1 = true)
    ∧ ∀ c s, c < num → σ.bufs c = .stream s → ∃ s' r', s.reset σ.ring = some (s', r')
        ∧ s'.queueList = [] ∧ r'.ring = σ.ring.ring ++ s.queueList
  := by
  obtain ⟨hinv, hnum, hbits⟩ := reaches_inv h (new_inv num bits bufSize hpos halloc isStream)
  have hbufNum : σ.ring.bufNum = 2 ^ bits := by
    rw [BufRing.bufNum, hbits, BufRing.new_eq]
    rfl
  refine ⟨?_, ?_, ?_, ?_⟩
  · rw [← hbufNum]
    apply hinv.perm
  · intro e he
    obtain ⟨b', r', hstep, -⟩ := step_spec hinv he
    exact ⟨_, hstep⟩
  · rintro c idx data ⟨hc, hop⟩
    have hidx : idx ∈ σ.ring.ring := by
      revert hop
      cases σ.bufs c with
      | stream s => exact And.left
      | dgram s => exact And.left
    obtain ⟨b', hpush, -⟩ := (hinv.sound hc).base.pushBuf_eq hidx (ReadBuf.received σ.ring idx data)
    rw [hpush]
  · intro c s hc hs
    have hsound := hinv.sound (c := c) (by rwa [hnum])
    rw [hs] at hsound
    obtain ⟨s', r', hrun, -, hqueue, hr, -⟩ := ReadBufStream.reset_spec hsound
    exact ⟨s', r', hrun, hqueue, hr.ring⟩

/-- A run of a stream and a datagram socket over a ring of four buffers of two bytes, at
whose end two buffers are queued. -/
theorem receive_buffers_conserved_two_bufs :
  ∃ σ, Reaches step Admits (new 2 (.new 2 2 (by decide) (by decide)) (fun c => c == 0)) σ
    ∧ Ownership.holdings σ.ring.ring σ.num (fun c => (σ.bufs c).queueList) ~ List.range (2 ^ 2)
    ∧ (σ.ring.ring, (σ.bufs 0).queueList, (σ.bufs 1).queueList) = ([2, 1], [3], [0])
  := by
  have hrun : (Reaches.follow step Admits
      [(0, .receive 1 [5, 6]), (1, .receive 0 [9]), (0, .receive 3 [7]), (0, .peek 3),
        (0, .consume 2)]
      (new 2 (.new 2 2 (by decide) (by decide)) (fun c => c == 0))).map
        (fun σ => (σ.ring.ring, (σ.bufs 0).queueList, (σ.bufs 1).queueList))
      = some ([2, 1], [3], [0]) := by
    decide +kernel
  obtain ⟨σ, hreach, hfinal⟩ := Reaches.of_follow _ hrun
  use σ, hreach, (receive_buffers_conserved 2 2 2 (by decide) (by decide) _ hreach).1

end ReadSystem

end Proactor
