import UringProactor.Buffer.Peek
import UringProactor.Core.Armed

/-!
# How long the result of `peek` may be used

`peek` does not copy: its segments point into the provided buffers, and the application reads them
while the kernel goes on to receive into the same allocation, for this channel and for the others.
A monitor records the segments that `peek` has returned as loans: the bytes they described, and how
many bytes `consume` has yet to remove from the channel until the last of them is gone.  In every
run the bytes of a loan stay as they were, and the kernel has no provided buffer that meets them.
-/

namespace Proactor

/-- A segment that `peek` returned. -/
structure Loan where
  segment : Segment
  /-- What the segment described. -/
  bytes : List UInt8
  /-- How many bytes `consume` removes until the last byte of the segment is gone. -/
  left : ℕ
deriving DecidableEq

namespace Loan

/-- The loans of the segments of a `peek`, the first of which starts behind `n` unread bytes. -/
def ofSegments (bufs : ℕ → UInt8) (n : ℕ) : List Segment → List Loan
  | [] => []
  | g :: segments =>
      ⟨g, Store.read bufs g.data g.size, n + g.size⟩ :: ofSegments bufs (n + g.size) segments

/-- The loans that are left when `n` bytes have been removed. -/
def remaining (n : ℕ) (loans : List Loan) : List Loan :=
  (loans.filter (fun x => n < x.left)).map (fun x => { x with left := x.left - n })

theorem mem_remaining {n : ℕ} {loans : List Loan} {x : Loan} (h : x ∈ remaining n loans) :
  ∃ y ∈ loans, n < y.left ∧ x = { y with left := y.left - n }
  := by
  obtain ⟨y, hy, rfl⟩ := List.mem_map.mp h
  obtain ⟨hmem, hlt⟩ := List.mem_filter.mp hy
  use y, hmem, of_decide_eq_true hlt

/-- The segment lies in a buffer that the read buffer `s` has queued, still holds the bytes that it
described, and `consume` does not release the buffer before it has removed `left` bytes. -/
structure Backed (x : Loan) (s : ReadBufStream) (r : BufRing) : Prop where
  pos : 0 < x.left
  bytes : Store.read r.bufs x.segment.data x.segment.size = x.bytes
  queued : ∃ pre idx post offset, s.queueList = pre ++ idx :: post
    ∧ x.segment.data = r.bufAddr idx + offset ∧ offset + x.segment.size ≤ r.dataSize idx
    ∧ s.headOffset + x.left ≤ (r.content pre).length + r.dataSize idx

end Loan

namespace ReadBufStream

variable {s s' : ReadBufStream} {r r' : BufRing} {n : ℕ} {x : Loan}

/-- `n` bytes are removed from the front of the stream, with the buffers `gone`; the buffers `kept`
stay queued and keep their bytes, and `more` are queued behind them. -/
inductive Advances (s : ReadBufStream) (r : BufRing) (s' : ReadBufStream) (r' : BufRing) (n : ℕ) :
    Prop where
  | intro (gone kept more : List ℕ) (before : s.queueList = gone ++ kept)
      (after : s'.queueList = kept ++ more)
      (offset : (r.content gone).length + s'.headOffset = s.headOffset + n)
      (bufSize : r'.bufSize = r.bufSize) (block : ∀ i ∈ kept, r'.block i = r.block i)

/-- Nothing is removed, and the ring keeps the buffers that are in no ring. -/
theorem Advances.of_frames (h : s.Sound r) (h' : s'.Sound r') (hframes : r.Frames r')
    (hsize : r'.bufSize = r.bufSize) (hqueue : s.queueList <+: s'.queueList)
    (hoffset : s'.headOffset = s.headOffset) :
  Advances s r s' r' 0
  := by
  obtain ⟨more, hmore⟩ := hqueue
  apply Advances.intro [] s.queueList more rfl hmore.symm _ hsize
  · intro i hi
    obtain ⟨hlt, hring⟩ := h.toReads.toSound.of_mem hi
    have hi' : i ∈ s'.queueList := hmore ▸ List.mem_append_left _ hi
    exact hframes i hlt hring (h'.toReads.toSound.of_mem hi').2
  · rw [hoffset]
    exact Nat.zero_add _

/-- `consume` releases the buffers all of whose bytes it removes. -/
theorem Sound.advances_consume (h : s.Sound r) {size : ℕ} (hle : size ≤ s.readableBytes) :
  ∃ s' r', s.consume r size = some (true, s', r') ∧ s.Advances r s' r' size
  := by
  obtain ⟨s', r', gone, hrun, -, -, hqueue, hreleased, h', hdrop⟩ := consume_of_le h hle
  use s', r', hrun
  have hnodup : (gone ++ s'.queueList).Nodup := hqueue ▸ List.Nodup.of_append_right h.nodup
  have hblock : ∀ i ∈ s'.queueList, r'.block i = r.block i := by
    intro i hi
    apply hreleased.block_eq
    intro hgone
    exact List.disjoint_of_nodup_append hnodup hgone hi
  have hkept : r'.content s'.queueList = r.content s'.queueList := List.flatMap_congr hblock
  have hlength := congrArg List.length hdrop
  have hoffset := h.toReads.offset_le_length
  have hoffset' := h'.toReads.offset_le_length
  rw [h.readable] at hle
  simp only [unread, List.length_drop] at hle hlength
  rw [hkept] at hlength hoffset'
  rw [hqueue, BufRing.content_append, List.length_append] at hle hlength hoffset
  apply Advances.intro gone s'.queueList [] hqueue (List.append_nil _).symm _ hreleased.bufSize
    hblock
  omega

/-- A part of a buffer that keeps its bytes keeps its bytes. -/
theorem read_of_block_eq {idx offset size : ℕ} (hblock : r'.block idx = r.block idx)
    (haddr : r'.bufAddr idx = r.bufAddr idx) (hfit : offset + size ≤ r.dataSize idx) :
  Store.read r'.bufs (r.bufAddr idx + offset) size = Store.read r.bufs (r.bufAddr idx + offset) size
  := by
  have hsize : r'.dataSize idx = r.dataSize idx := by
    rw [← BufRing.length_block, hblock, BufRing.length_block]
  have hpart := read_segment r idx size offset
  have hpart' := read_segment r' idx size offset
  rw [hsize, haddr, hblock] at hpart'
  rw [Nat.min_eq_left (by omega)] at hpart hpart'
  rw [hpart, hpart']

/-- The segments of a pass of the loop of `peek` from the counter `i` on, from which the buffers `l`
are queued up to the tail, no counter wrapping. -/
theorem backed_of_peekLoop (h : s.Sound r) {pre l : List ℕ} {i : BitVec 32} {size offset : ℕ}
    (hqueue : s.queueList = pre ++ l) (hwindow : s.queue.window s.bits i l.length = l)
    (hend : i.toNat + l.length = s.queue.tail.toNat) (hhead : s.queue.head.toNat ≤ i.toNat)
    (hoffset : offset = if i = s.queue.head then s.headOffset else 0)
    (hlt : offset < (l.head?.map r.dataSize).getD 1)
    (hn : s.headOffset + n ≤ (r.content pre).length + offset) :
  ∀ x ∈ Loan.ofSegments r.bufs n (s.peekLoop r i size), x.Backed s r
  := by
  induction l generalizing pre i size offset n with
  | nil =>
      have hstop : ¬ (i < s.queue.tail ∧ 0 < size) := by
        rw [BitVec.lt_def, ← hend]
        simp
      rw [peekLoop, if_neg hstop]
      exact List.forall_mem_nil _
  | cons idx l ih =>
      rcases Nat.eq_zero_or_pos size with rfl | hgo
      · rw [peekLoop, if_neg (by simp)]
        exact List.forall_mem_nil _
      · have hlt' : offset < r.dataSize idx := hlt
        have hpos : ∀ j ∈ idx :: l, 0 < r.dataSize j := by
          intro j hj
          apply h.size_pos j
          rw [hqueue]
          exact List.mem_append_right _ hj
        rw [List.length_cons] at hwindow hend
        rw [Circular.window_succ] at hwindow
        obtain ⟨hget, hrest⟩ := List.cons.inj hwindow
        have hi : i < s.queue.tail := by
          rw [BitVec.lt_def]
          omega
        have hnext : (i + 1).toNat = i.toNat + 1 := by
          have := s.queue.tail.isLt
          bv_omega
        have hoffset' : 0 = if i + 1 = s.queue.head then s.headOffset else 0 := by
          rw [if_neg]
          intro heq
          rw [← heq, hnext] at hhead
          omega
        have hlt'' : 0 < (l.head?.map r.dataSize).getD 1 := by
          cases l with
          | nil => apply Nat.one_pos
          | cons j l => apply hpos j (List.mem_cons_of_mem _ List.mem_cons_self)
        rw [peekLoop_of_lt hi hgo hget hoffset hlt'.le]
        generalize hblk : min size (r.dataSize idx - offset) = blk
        intro x hx
        rcases List.mem_cons.mp hx with rfl | hx
        · refine ⟨?_, rfl, pre, idx, l, offset, hqueue, rfl, ?_, ?_⟩
          · change 0 < n + blk
            omega
          · change offset + blk ≤ r.dataSize idx
            omega
          · change s.headOffset + (n + blk) ≤ _
            omega
        · have hqueue' : s.queueList = (pre ++ [idx]) ++ l := by
            rw [hqueue, List.append_assoc]
            rfl
          have hn' : s.headOffset + (n + blk) ≤ (r.content (pre ++ [idx])).length + 0 := by
            rw [BufRing.content_append, List.length_append, BufRing.content_cons,
              List.length_append, BufRing.length_block]
            omega
          exact ih hqueue' hrest (by omega) (by omega) hoffset' hlt'' hn' x hx

/-- What `peek` returns is backed. -/
theorem Sound.backed_of_peek (h : s.Sound r) (size : ℕ) :
  ∀ x ∈ Loan.ofSegments r.bufs 0 (s.peekLoop r s.queue.head size), x.Backed s r
  := by
  have hlen := ReadBufBase.length_queueList s.toReadBufBase
  by_cases hwrap : s.queue.head ≤ s.queue.tail
  · apply backed_of_peekLoop h (List.nil_append _).symm
    · rw [hlen]
      rfl
    · have hsize : s.queue.size = (s.queue.tail - s.queue.head).toNat := rfl
      rw [hlen, hsize]
      bv_omega
    · apply Nat.le_refl
    · rw [if_pos rfl]
    · apply h.offset_lt
    · rw [Nat.add_zero, Nat.add_comm]
      apply Nat.le_add_right
  · -- the tail has wrapped below the head, and the loop stops at once
    rw [peekLoop, if_neg]
    · exact List.forall_mem_nil _
    · rintro ⟨hlt, -⟩
      exact hwrap (BitVec.le_of_lt hlt)

end ReadBufStream

namespace Loan

variable {x : Loan} {s s' : ReadBufStream} {r r' : BufRing} {n : ℕ}

/-- A loan stays backed until its last byte is removed: a buffer is released only when all of its
bytes are removed, those of the loan among them. -/
theorem Backed.next (hx : x.Backed s r) (h : s.Advances r s' r' n) (hn : n < x.left) :
  Backed { x with left := x.left - n } s' r'
  := by
  obtain ⟨pre, idx, post, offset, hqueue, hdata, hfit, hleft⟩ := hx.queued
  obtain ⟨gone, kept, more, hbefore, hafter, hoffset, hsize, hblock⟩ := h
  obtain ⟨between, rfl, rfl⟩ :
      ∃ between, pre = gone ++ between ∧ kept = between ++ idx :: post := by
    rcases List.append_eq_append_iff.mp (hqueue.symm.trans hbefore) with
      ⟨l, hgone, hkept⟩ | ⟨l, hpre, hkept⟩
    · cases l with
      | nil => exact ⟨[], by simpa using hgone.symm, by simpa using hkept.symm⟩
      | cons j l =>
          exfalso
          obtain ⟨rfl, -⟩ := List.cons.inj hkept
          rw [hgone, BufRing.content_append, BufRing.content_cons] at hoffset
          simp only [List.length_append, BufRing.length_block] at hoffset
          omega
    · exact ⟨l, hpre, hkept⟩
  have hidx : r'.block idx = r.block idx :=
    hblock idx (List.mem_append_right _ List.mem_cons_self)
  have haddr : r'.bufAddr idx = r.bufAddr idx := by
    rw [BufRing.bufAddr, hsize]
    rfl
  have hdataSize : r'.dataSize idx = r.dataSize idx := by
    rw [← BufRing.length_block, hidx, BufRing.length_block]
  have hcontent : r'.content between = r.content between := by
    apply List.flatMap_congr
    intro i hi
    exact hblock i (List.mem_append_left _ hi)
  constructor
  · exact Nat.sub_pos_of_lt hn
  · rw [← hx.bytes, hdata]
    exact ReadBufStream.read_of_block_eq hidx haddr hfit
  · refine ⟨between, idx, post ++ more, offset, ?_, ?_, ?_, ?_⟩
    · rw [hafter, List.append_assoc, List.cons_append]
    · rw [haddr, hdata]
    · rw [hdataSize]
      exact hfit
    · rw [BufRing.content_append, List.length_append] at hleft
      rw [hcontent, hdataSize]
      change s'.headOffset + (x.left - n) ≤ _
      omega

theorem Backed.keep (hx : x.Backed s r) (h : s.Advances r s' r' 0) :
  x.Backed s' r'
  := hx.next h hx.pos

/-- The segment of a loan lies in the allocation, and meets no buffer of the ring. -/
theorem Backed.apart (hx : x.Backed s r) (h : s.Sound r) :
  x.segment.data + x.segment.size ≤ r.bufNum * r.bufSize
    ∧ ∀ i ∈ r.ring, x.segment.data + x.segment.size ≤ r.bufAddr i
      ∨ r.bufAddr i + r.bufSize ≤ x.segment.data
  := by
  obtain ⟨pre, idx, post, offset, hqueue, hdata, hfit, -⟩ := hx.queued
  have hmem : idx ∈ s.queueList := by
    rw [hqueue]
    exact List.mem_append_right _ List.mem_cons_self
  obtain ⟨hlt, hring⟩ := h.toReads.toSound.of_mem hmem
  have hsize := h.size_le idx
  rw [BufRing.bufAddr_eq hlt] at hdata
  constructor
  · have hmul : (idx + 1) * r.bufSize ≤ r.bufNum * r.bufSize := Nat.mul_le_mul_right _ hlt
    rw [Nat.succ_mul] at hmul
    omega
  · intro i hi
    have hne : i ≠ idx := by
      rintro rfl
      exact hring hi
    rw [BufRing.bufAddr_eq (h.lt i (List.mem_append_left _ hi))]
    have hdisjoint := Store.block_disjoint r.bufSize hne
    omega

/-- The bytes up to the end of a loan are unread. -/
theorem Backed.left_le (hx : x.Backed s r) (h : s.Sound r) :
  x.left ≤ s.readableBytes
  := by
  obtain ⟨pre, idx, post, -, hqueue, -, -, hleft⟩ := hx.queued
  rw [h.readable, ReadBufStream.unread, List.length_drop, hqueue, BufRing.content_append,
    BufRing.content_cons, List.length_append, List.length_append, BufRing.length_block]
  omega

end Loan

namespace ReadSide

variable {c : ℕ} {s s' : ReadSide} {l : ReadLabel}

/-- But for `consume` and the end of the stream, a step leaves the queued buffers where they are. -/
theorem Step.queue_grows (hsound : s.buf.Sound s.ring) (hpromised : Promised s l)
    (hstep : Step c s l s') (hclosed : l ≠ .closed) (hconsume : l ≠ .consume) :
  s.buf.queueList <+: s'.buf.queueList ∧ s'.buf.headOffset = s.buf.headOffset
  := by
  have hsame : s'.buf = s.buf →
      s.buf.queueList <+: s'.buf.queueList ∧ s'.buf.headOffset = s.buf.headOffset := by
    intro hbuf
    rw [hbuf]
    exact ⟨List.prefix_rfl, rfl⟩
  cases hstep with
  | quiet hrests => exact hsame hrests.buf
  | assign _ _ _ _ hrests => exact hsame hrests.buf
  | stale =>
      apply hsame
      rw [filled_eq_with]
  | @recv _ res idx data _ hreceives =>
      have hfilled : (s.filled res idx data).buf = s.buf := by
        rw [filled_eq_with]
      cases hreceives with
      | @received s₁ hres hrests =>
          obtain ⟨hidx, -, -⟩ := hpromised res idx data rfl hres
          have hbuf : s₁.buf = s.buf := hrests.buf.trans hfilled
          obtain ⟨b, hpush, -, -, -, hqueue, -⟩ := hsound.toReads.toSound.pushBuf_eq hidx
            (s₁.ring.setDataSize idx res.toNat)
          rw [queued, hbuf, hpush]
          exact ⟨⟨[idx], hqueue.symm⟩, rfl⟩
      | ended _ hrests => exact hsame (hrests.buf.trans hfilled)
      | threw _ hrests => exact hsame (hrests.buf.trans hfilled)
  | closed => exact absurd rfl hclosed
  | peek size =>
      rw [(ReadBuf.peek_sound hsound size).2.2]
      use List.prefix_rfl
      rw [ReadBufStream.peek]
      split <;> rfl
  | consume => exact absurd rfl hconsume
  | serve => exact hsame rfl

end ReadSide

namespace Worker

open ReadSide

variable {w w' : Worker} {e : Event} {ok : Bool} {c : ℕ}

/-- A step keeps the bytes of the buffers that are in no ring. -/
theorem Reads.frames {x : Option (ℕ × ReadLabel)} (hreads : Reads w w' x) (hapart : w.Apart)
    (hpromised : ∀ c l, x = some (c, l) → Promised (w.readSide c) l) :
  w.thread.bufRing.Frames w'.thread.bufRing
  := by
  cases hreads with
  | none hside =>
      have hring : w'.thread.bufRing = w.thread.bufRing := congrArg ReadSide.ring (hside 0)
      rw [hring]
      intro i _ _ _
      rfl
  | @acts c l hstep _ => exact hstep.frames (hapart.sound c) (hpromised c l rfl)

/-- What a step does with the queued buffers of a channel, but for `consume` and the end of the
stream. -/
theorem Reads.advances {x : Option (ℕ × ReadLabel)} (hreads : Reads w w' x) (hapart : w.Apart)
    (hapart' : w'.Apart) (hpromised : ∀ c l, x = some (c, l) → Promised (w.readSide c) l)
    (hclosed : readLabelAt x c ≠ .closed) (hconsume : readLabelAt x c ≠ .consume) :
  (w.channels c).readBuf.Advances w.thread.bufRing (w'.channels c).readBuf w'.thread.bufRing 0
  := by
  have hframes := hreads.frames hapart hpromised
  have hsize := (hreads.geometry_eq hapart hpromised).2
  suffices hgrows : (w.channels c).readBuf.queueList <+: (w'.channels c).readBuf.queueList
      ∧ (w'.channels c).readBuf.headOffset = (w.channels c).readBuf.headOffset from
    .of_frames (hapart.sound c) (hapart'.sound c) hframes hsize hgrows.1 hgrows.2
  have hsame : (w'.channels c).readBuf = (w.channels c).readBuf →
      (w.channels c).readBuf.queueList <+: (w'.channels c).readBuf.queueList
        ∧ (w'.channels c).readBuf.headOffset = (w.channels c).readBuf.headOffset := by
    intro hbuf
    rw [hbuf]
    exact ⟨List.prefix_rfl, rfl⟩
  cases hreads with
  | none hside => exact hsame (congrArg ReadSide.buf (hside c))
  | @acts d l hstep hother =>
      rw [readLabelAt] at hclosed hconsume
      by_cases hc : c = d
      · subst hc
        rw [if_pos rfl] at hclosed hconsume
        exact hstep.queue_grows (hapart.sound c) (hpromised c l rfl) hclosed hconsume
      · exact hsame (congrArg ReadSide.buf (hother c hc))

/-- `consume` removes bytes, and the buffers that they leave. -/
theorem Apart.advances_consume (h : w.Apart) {size : ℕ}
    (hresult : w.stepResult (.app c (.consume size)) = some (ok, w')) :
  (w.channels c).readBuf.Advances w.thread.bufRing (w'.channels c).readBuf w'.thread.bufRing
    (w.removes ok (.app c (.consume size))).length
  := by
  obtain ⟨⟨ok', ch, th⟩, hcall, heq⟩ := Option.map_eq_some_iff.mp hresult
  cases heq
  obtain ⟨⟨ok', readBuf, bufRing⟩, hconsume, heq⟩ := Option.map_eq_some_iff.mp hcall
  cases heq
  change ReadBufStream.Advances _ _ (Function.update w.channels c _ c).readBuf bufRing _
  rw [Function.update_self]
  change ReadBufStream.Advances _ _ readBuf bufRing _
  rcases Nat.lt_or_ge (w.channels c).readBuf.readableBytes size with hgt | hle
  · rw [ReadBufStream.consume_of_gt hgt] at hconsume
    cases hconsume
    apply ReadBufStream.Advances.intro [] (w.channels c).readBuf.queueList [] rfl
      (List.append_nil _).symm _ rfl (fun _ _ => rfl)
    exact Nat.zero_add _
  · obtain ⟨_, _, hrun, hadvances⟩ := (h.sound c).advances_consume hle
    rw [hrun] at hconsume
    cases hconsume
    have hlength : ((w.readSide c).unread.take size).length = size := by
      rw [List.length_take]
      exact Nat.min_eq_left (hle.trans (h.sound c).readable.le)
    rw [removes, if_pos rfl, hlength]
    exact hadvances

/-- What a `peek` that succeeds returns is backed. -/
theorem Apart.backed_of_peek (h : w.Apart) {size : ℕ}
    (hresult : w.stepResult (.app c (.peek size)) = some (ok, w')) (hok : ok = true) :
  ∀ x ∈ Loan.ofSegments w'.thread.bufRing.bufs 0 (w'.channels c).readBuf.peekResult,
    x.Backed (w.channels c).readBuf w.thread.bufRing
  := by
  have hpeek : w.stepResult (.app c (.peek size))
      = some (((w.channels c).readBuf.peek w.thread.bufRing size).1.isSome,
        w.update c { w.channels c with
          readBuf := ((w.channels c).readBuf.peek w.thread.bufRing size).2 } w.thread) := rfl
  obtain ⟨hsome, rfl⟩ := Prod.mk.inj (Option.some.inj (hpeek.symm.trans hresult))
  have hle : size ≤ (w.channels c).readBuf.readableBytes := by
    by_contra hgt
    rw [ReadBufStream.peek_of_gt (Nat.lt_of_not_le hgt), hok] at hsome
    cases hsome
  change ∀ x ∈ Loan.ofSegments w.thread.bufRing.bufs 0
    (Function.update w.channels c _ c).readBuf.peekResult, _
  rw [Function.update_self, ReadBufStream.peek_of_le hle]
  exact (h.sound c).backed_of_peek size

/-! ### The monitor -/

/-- A worker with the segments that its channels have lent to the application. -/
abbrev Lending := Monitored Worker (ℕ → List Loan)

namespace Lending

/-- The loans of a channel after an event with the given result. -/
def observe (w : Worker) (g : ℕ → List Loan) (e : Event) (ok : Bool) (w' : Worker) :
    ℕ → List Loan :=
  fun d => match readLabelAt (w.readLabel e) d with
    | .peek =>
        if ok then
          g d ++ Loan.ofSegments w'.thread.bufRing.bufs 0 (w'.channels d).readBuf.peekResult
        else
          g d
    | .consume => Loan.remaining (w.removes ok e).length (g d)
    | .closed => []
    | _ => g d

/-- A step of the worker and its monitor. -/
def step (m : Lending) (e : Event) : Option Lending := Monitored.step stepResult observe m e

/-- Nothing has been lent. -/
def start (w : Worker) : Lending := ⟨w, fun _ => []⟩

/-- The read buffers hold different buffers, and the loans of every channel are backed. -/
structure Inv (m : Lending) : Prop where
  apart : m.state.Apart
  backed : ∀ c, ∀ x ∈ m.record c, x.Backed (m.state.channels c).readBuf m.state.thread.bufRing

variable {m m' : Lending}

/-- Every step keeps the invariant. -/
theorem Inv.step (h : m.Inv) (hadmits : m.state.Admits e) (hstep : m.step e = some m') :
  m'.Inv
  := by
  obtain ⟨ok, hresult, hrecord⟩ := Monitored.step_eq_some hstep
  have hapart := h.apart.step hadmits hresult
  refine ⟨hapart, ?_⟩
  intro c x hx
  have hkeep (hclosed : readLabelAt (m.state.readLabel e) c ≠ .closed)
      (hconsume : readLabelAt (m.state.readLabel e) c ≠ .consume) (hx : x.Backed _ _) :
      x.Backed (m'.state.channels c).readBuf m'.state.thread.bufRing :=
    hx.keep ((step_cases hresult).reads.advances h.apart hapart
      (fun _ _ => promised_of_admits hadmits) hclosed hconsume)
  rw [hrecord, observe] at hx
  split at hx
  case h_1 hlabel =>
    have hsame : x.Backed _ _ → _ := hkeep (by rw [hlabel]; simp) (by rw [hlabel]; simp)
    have hevent := labels_of_readLabel (eq_some_of_readLabelAt hlabel (by simp))
    cases hevent with
    | peek =>
        split at hx
        case isTrue hok =>
          rcases List.mem_append.mp hx with hx | hx
          · exact hsame (h.backed c x hx)
          · exact hsame (h.apart.backed_of_peek hresult hok x hx)
        case isFalse => exact hsame (h.backed c x hx)
  case h_2 hlabel =>
    have hevent := labels_of_readLabel (eq_some_of_readLabelAt hlabel (by simp))
    cases hevent with
    | consume =>
        obtain ⟨y, hy, hlt, rfl⟩ := Loan.mem_remaining hx
        exact (h.backed c y hy).next (h.apart.advances_consume hresult) hlt
  case h_3 => cases hx
  case h_4 hpeek hconsume hclosed => exact hkeep hclosed hconsume (h.backed c x hx)

/-- At the start nothing has been lent. -/
theorem inv_start (depth : ℕ) {ringBits ringBufSize : ℕ} {hpos : 0 < ringBufSize}
    {halloc : 2 ^ ringBits * ringBufSize < 2 ^ 31} (bufPool : BufPool) (poolBits capBits : Fin 31) :
  (start (Worker.start depth (BufRing.new ringBits ringBufSize hpos halloc) bufPool poolBits
    capBits)).Inv
  := by
  refine ⟨(Offering.inv_start depth bufPool poolBits capBits).apart, ?_⟩
  intro c
  exact List.forall_mem_nil _

end Lending

section

variable (depth : ℕ) {ringBits ringBufSize : ℕ} {hpos : 0 < ringBufSize}
  {halloc : 2 ^ ringBits * ringBufSize < 2 ^ 31} (bufPool : BufPool) (poolBits capBits : Fin 31)

/-- In every run, whatever the kernel receives and the other channels release in the meantime: a
segment that `peek` returned describes the same bytes until `consume` has removed the last of them
or the stream has ended.  It lies in the allocation of the ring, the kernel has no provided buffer
that meets it, and its last byte is one of the unread bytes. -/
theorem peeked_segments_stay {m : Lending}
    (h : Reaches Lending.step (fun m e => m.state.Admits e)
      (Lending.start (start depth (BufRing.new ringBits ringBufSize hpos halloc) bufPool poolBits
        capBits)) m) (c : ℕ) (x : Loan) (hx : x ∈ m.record c) :
  let r := m.state.thread.bufRing
  Store.read r.bufs x.segment.data x.segment.size = x.bytes
    ∧ x.segment.data + x.segment.size ≤ r.bufNum * r.bufSize
    ∧ (∀ i ∈ r.ring, x.segment.data + x.segment.size ≤ r.bufAddr i
      ∨ r.bufAddr i + r.bufSize ≤ x.segment.data)
    ∧ 0 < x.left ∧ x.left ≤ (m.state.channels c).readBuf.readableBytes
  := by
  have hinv : m.Inv := by
    apply h.invariant (Lending.inv_start depth bufPool poolBits capBits)
    intro m m' e hinv hadmits hstep
    exact hinv.step hadmits hstep
  have hbacked := hinv.backed c x hx
  obtain ⟨hinside, hring⟩ := hbacked.apart (hinv.apart.sound c)
  exact ⟨hbacked.bytes, hinside, hring, hbacked.pos, hbacked.left_le (hinv.apart.sound c)⟩

end

/-- The first of two bytes that `peek` returned is consumed, and a third one is received. -/
theorem peeked_segments_stay_half_consumed :
  ∃ pool m x, BufPool.new 0 1 (by decide) (by decide) (by decide) = some pool
    ∧ Reaches Lending.step (fun m e => m.state.Admits e)
      (Lending.start (start 8 (BufRing.new 1 2 (by decide) (by decide)) pool 0 0)) m
    ∧ x ∈ m.record 0 ∧ x.bytes = [7, 8] ∧ x.left = 1
    ∧ Store.read m.state.thread.bufRing.bufs x.segment.data x.segment.size = x.bytes
  := by
  have hrun : (BufPool.new 0 1 (by decide) (by decide) (by decide)).bind (fun pool =>
      (Reaches.follow Lending.step (fun m e => m.state.Admits e)
        [.submit, .complete 0 5 true 0 [], .ret, .batchDone, .submit, .complete 2 2 true 0 [7, 8],
          .batchDone, .app 0 (.peek 2), .app 0 (.consume 1), .ret, .submit,
          .complete 2 1 true 1 [9]]
        (Lending.start (start 8 (BufRing.new 1 2 (by decide) (by decide)) pool 0 0))).map
          (fun m => m.record 0))
      = some [⟨⟨0, 2⟩, [7, 8], 1⟩] := by
    decide +kernel
  obtain ⟨pool, hpool, hfollow⟩ := Option.bind_eq_some_iff.mp hrun
  obtain ⟨m, hreach, hloans⟩ := Reaches.of_follow _ hfollow
  have hx : ⟨⟨0, 2⟩, [7, 8], 1⟩ ∈ m.record 0 := by
    rw [hloans]
    exact List.mem_singleton_self _
  exact ⟨pool, m, _, hpool, hreach, hx, rfl, rfl,
    (peeked_segments_stay 8 pool 0 0 hreach 0 _ hx).1⟩

end Worker

end Proactor
