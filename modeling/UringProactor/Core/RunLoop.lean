import UringProactor.Core.Rewind
import UringProactor.Core.Release

/-!
# The event loop and the completion queue

`run_loop` takes the completions from a queue that the kernel fills while the loop runs.  The kernel
takes a buffer from the head of the provided ring, fills it, and posts a CQE.  `peek_batch_cqe`
fixes the length of a batch, the CQEs of the batch are handled one by one, and only then the queue
is advanced.  Between the posting and the handling of a CQE the loop may handle other CQEs, release
buffers, prepare SQEs and submit them.
-/

namespace Proactor

/-! ### Completion queue entries -/

namespace CqeFlags

/-- The flags of a CQE: the buffer in the upper half, `IORING_CQE_F_MORE` and
`IORING_CQE_F_BUFFER`. -/
def encode (idx : ℕ) (buffer more : Bool) : BitVec 32 :=
  BitVec.ofNat 32 (idx * 2 ^ 16 + more.toNat * 2 + buffer.toNat)

/-- `flag() & IORING_CQE_F_MORE`. -/
def more (flags : BitVec 32) : Bool := flags &&& 2#32 ≠ 0#32

/-- `(unsigned)(flag() >> IORING_CQE_BUFFER_SHIFT)`, where `flag()` is an `int`. -/
def bufferIdx (flags : BitVec 32) : ℕ := (flags.sshiftRight 16).toNat

theorem toNat_encode {idx : ℕ} (hidx : idx < 2 ^ 16) (buffer more : Bool) :
  (encode idx buffer more).toNat = idx * 2 ^ 16 + more.toNat * 2 + buffer.toNat
  := by
  have hmore := Bool.toNat_le more
  have hbuffer := Bool.toNat_le buffer
  rw [encode, BitVec.toNat_ofNat, Nat.mod_eq_of_lt (by omega)]

/-- The flag is recovered. -/
theorem more_encode {idx : ℕ} (hidx : idx < 2 ^ 16) (buffer m : Bool) :
  more (encode idx buffer m) = m
  := by
  have htest : (idx * 2 ^ 16 + m.toNat * 2 + buffer.toNat).testBit 1 = m := by
    rw [Nat.testBit_eq_decide_div_mod_eq]
    cases m <;> cases buffer <;> simp <;> omega
  have hand : (encode idx buffer m &&& 2#32) = if m then 2#32 else 0#32 := by
    apply BitVec.eq_of_toNat_eq
    rw [BitVec.toNat_and, toNat_encode hidx, show (2#32).toNat = 2 ^ 1 from rfl, Nat.and_two_pow,
      htest]
    cases m <;> rfl
  rw [more, hand]
  cases m <;> rfl

/-- The buffer is recovered if there are at most `2 ^ 15` of them: the shift is arithmetic. -/
theorem bufferIdx_encode {idx : ℕ} (hidx : idx < 2 ^ 15) (buffer m : Bool) :
  bufferIdx (encode idx buffer m) = idx
  := by
  have hmore := Bool.toNat_le m
  have hbuffer := Bool.toNat_le buffer
  have hnat := toNat_encode (show idx < 2 ^ 16 by omega) buffer m
  have hmsb : (encode idx buffer m).msb = false := by
    rw [BitVec.msb_eq_false_iff_two_mul_lt, hnat]
    omega
  rw [bufferIdx, BitVec.sshiftRight_eq_of_msb_false hmsb, BitVec.toNat_ushiftRight, hnat,
    Nat.shiftRight_eq_div_pow]
  omega

end CqeFlags

/-- A CQE, with the SQE that it completes and the bytes that the kernel has put in the buffer. -/
structure Cqe where
  sqe : Sqe
  res : Int
  flags : BitVec 32
  data : List UInt8

namespace Cqe

/-- The CQE carries data. -/
def received (sqe : Sqe) (res : Int) : Bool :=
  match sqe.data with
  | .read _ => 0 < res
  | _ => false

/-- The buffer that the kernel took for the CQE. -/
def buffer (q : Cqe) : Option ℕ :=
  if received q.sqe q.res then some (CqeFlags.bufferIdx q.flags) else none

/-- The SQEs that a list of CQEs finishes. -/
def finals (l : List Cqe) : List Sqe :=
  (l.filter (fun q => !CqeFlags.more q.flags)).map Cqe.sqe

/-- The buffers that the kernel took for a list of CQEs. -/
def taken (l : List Cqe) : List ℕ := l.filterMap buffer

/-- The bytes in the receive buffers of `size` bytes after the kernel has filled one for a CQE. -/
def write (size : ℕ) (bufs : ℕ → UInt8) (q : Cqe) : ℕ → UInt8 :=
  match q.buffer with
  | some idx => Store.write bufs (u32 (idx * size)) q.data
  | none => bufs

/-- Each CQE of the list belongs to an SQE in flight, or to one that it or a later CQE finishes. -/
def Held (inflight : List Sqe) : List Cqe → Prop
  | [] => True
  | q :: l => q.sqe ∈ inflight ++ finals (q :: l) ∧ Held inflight l

variable {q : Cqe} {l : List Cqe} {inflight inflight' : List Sqe}

theorem finals_append (l l' : List Cqe) :
  finals (l ++ l') = finals l ++ finals l'
  := by
  simp [finals]

theorem taken_append (l : List Cqe) (q : Cqe) :
  taken (l ++ [q]) = taken l ++ q.buffer.toList
  := by
  rw [taken, taken, List.filterMap_append]
  cases hbuffer : q.buffer <;> simp [hbuffer]

/-- The kernel posts a CQE of an SQE in flight, which it may finish. -/
theorem Held.post (h : Held inflight l) (hmem : q.sqe ∈ inflight)
    (hkeeps : ∀ sqe ∈ inflight, sqe ∈ inflight' ++ finals [q]) :
  Held inflight' (l ++ [q])
  := by
  induction l with
  | nil => exact ⟨hkeeps _ hmem, trivial⟩
  | cons q' l ih =>
      obtain ⟨hsqe, hheld⟩ := h
      refine ⟨?_, ih hheld⟩
      change q'.sqe ∈ inflight' ++ finals ((q' :: l) ++ [q])
      rw [finals_append]
      rcases List.mem_append.mp hsqe with hsqe | hsqe
      · have := hkeeps _ hsqe
        simp only [List.mem_append] at this ⊢
        tauto
      · simp [hsqe]

/-- More SQEs are in flight. -/
theorem Held.mono (h : Held inflight l) (hsub : ∀ sqe ∈ inflight, sqe ∈ inflight') :
  Held inflight' l
  := by
  induction l with
  | nil => trivial
  | cons q' l ih =>
      obtain ⟨hsqe, hheld⟩ := h
      refine ⟨?_, ih hheld⟩
      simp only [List.mem_append] at hsqe ⊢
      tauto

/-- The SQEs of CQEs that are held are in flight or finished by one of the CQEs. -/
theorem Held.mem (h : Held inflight l) (hq : q ∈ l) :
  q.sqe ∈ inflight ++ finals l
  := by
  induction l with
  | nil => cases hq
  | cons q' l ih =>
      obtain ⟨hsqe, hheld⟩ := h
      cases hq with
      | head => apply hsqe
      | tail _ hq =>
          have hmem := ih hheld hq
          rw [← List.singleton_append, finals_append]
          simp only [List.mem_append] at hmem ⊢
          tauto

end Cqe

/-! ### The loop -/

/-- A TCP worker with its completion queue.  Of its `inflight` SQEs and its provided ring the worker
has what the kernel has not finished and not taken. -/
structure RunLoop where
  worker : Worker
  /-- The CQEs that were posted and not yet passed by `cqe_advance`. -/
  cq : List Cqe
  /-- `n` and `i` of the loop over a batch, from `peek_batch_cqe` to `cqe_advance`. -/
  batch : Option (ℕ × ℕ)

/-- A step of the loop, a step of the kernel, the return from a callback, or a call of the
application. -/
inductive LoopEvent where
  | submit
  | post (i : ℕ) (res : Int) (more : Bool) (data : List UInt8)
  | peek
  | handle
  | batchDone
  | ret
  | app (c : ℕ) (op : AppOp)

namespace RunLoop

/-- The number of CQEs in the queue that were handled. -/
def handled (s : RunLoop) : ℕ := (s.batch.map Prod.snd).getD 0

/-- The CQEs that were posted and not handled. -/
def unhandled (s : RunLoop) : List Cqe := s.cq.drop s.handled

/-- The buffer that the kernel takes next. -/
def nextBuffer (s : RunLoop) : ℕ := s.worker.thread.bufRing.ring.headD 0

/-- The CQE that the kernel posts. -/
def posted (s : RunLoop) (res : Int) (more : Bool) (data : List UInt8) (sqe : Sqe) : Cqe :=
  let buffer := Cqe.received sqe res
  ⟨sqe, res, CqeFlags.encode (if buffer then s.nextBuffer else 0) buffer more, data⟩

/-- The kernel posts a CQE of the `i`-th SQE in flight. -/
def post (s : RunLoop) (i : ℕ) (res : Int) (more : Bool) (data : List UInt8) (sqe : Sqe) :
    RunLoop :=
  { s with
    worker := { s.worker with
      thread := Worker.kernel s.worker.thread i sqe.data res more s.nextBuffer data }
    cq := s.cq ++ [s.posted res more data sqe] }

/-- `token->complete(cqes[i]->res, cqes[i]->flags)` in a batch of `n` CQEs. -/
def handleCqe (s : RunLoop) (n i : ℕ) (q : Cqe) : Option RunLoop :=
  (s.worker.complete q.sqe.data q.res (CqeFlags.more q.flags) (CqeFlags.bufferIdx q.flags)).map
    (fun w => { s with worker := w, batch := some (n, i + 1) })

/-- One event; `none` when the event cannot happen, or ends the program. -/
def step (s : RunLoop) : LoopEvent → Option RunLoop
  | .submit => (s.worker.step .submit).map (fun w => { s with worker := w })
  | .post i res more data =>
      s.worker.thread.ioRing.inflight[i]?.map (s.post i res more data)
  | .peek =>
      if s.worker.ctl = .batch ∧ s.batch = none then
        some { s with batch := some (min s.cq.length s.worker.thread.ioRing.depth, 0) }
      else
        none
  | .handle =>
      s.batch.bind (fun (n, i) =>
        if s.worker.ctl = .batch ∧ i < n then s.cq[i]?.bind (s.handleCqe n i) else none)
  | .batchDone =>
      s.batch.bind (fun (n, i) =>
        if s.worker.ctl = .batch ∧ i = n then
          some ⟨s.worker.serveReads s.worker.thread.pendingReads, s.cq.drop n, none⟩
        else
          none)
  | .ret => (s.worker.step .ret).map (fun w => { s with worker := w })
  | .app c op => (s.worker.step (.app c op)).map (fun w => { s with worker := w })

/-- The loop when `run_loop` enters it. -/
def start (w : Worker) : RunLoop := ⟨w, [], none⟩

/-- The completions are as the kernel promises when they are posted, and the application calls the
channels of the pool. -/
def Admits (s : RunLoop) : LoopEvent → Prop
  | .post i res more data =>
      ∀ sqe ∈ s.worker.thread.ioRing.inflight[i]?,
        s.worker.Delivers sqe res more s.nextBuffer data
  | .app c _ => c < s.worker.size
  | _ => True

/-! ### Settled runs -/

/-- The worker in which the unhandled CQEs have not been posted, with the bytes in the receive
buffers as they are now. -/
def pending (s : RunLoop) : Worker :=
  s.worker.rewind
    ⟨s.worker.thread.ioRing.inflight ++ Cqe.finals s.unhandled, s.worker.thread.bufRing.bufs,
      Cqe.taken s.unhandled⟩

/-- The event of the worker that is the handling of a CQE. -/
def completion (w : Worker) (q : Cqe) : Event :=
  .complete (w.thread.ioRing.inflight.idxOf q.sqe) q.res (CqeFlags.more q.flags)
    (CqeFlags.bufferIdx q.flags) q.data

/-- The CQE that is handled next meets the condition of a settled run, counting the SQEs whose last
completion was not handled. -/
def Settles (s : RunLoop) : LoopEvent → Prop
  | .handle => ∀ q ∈ s.unhandled.head?, s.pending.Meets Conn.Settled (completion s.pending q)
  | _ => True

/-- The events of a run. -/
def Runs (s : RunLoop) (e : LoopEvent) : Prop := s.Admits e ∧ s.Settles e

instance (s : RunLoop) : ∀ e, Decidable (s.Admits e)
  | .post i res more data =>
      inferInstanceAs (Decidable (∀ sqe ∈ s.worker.thread.ioRing.inflight[i]?,
        s.worker.Delivers sqe res more s.nextBuffer data))
  | .app c _ => inferInstanceAs (Decidable (c < s.worker.size))
  | .submit | .peek | .handle | .batchDone | .ret => inferInstanceAs (Decidable True)

instance (s : RunLoop) : ∀ e, Decidable (s.Settles e)
  | .handle =>
      inferInstanceAs (Decidable (∀ q ∈ s.unhandled.head?,
        s.pending.Meets Conn.Settled (completion s.pending q)))
  | .submit | .post .. | .peek | .batchDone | .ret | .app .. => inferInstanceAs (Decidable True)

instance (s : RunLoop) (e : LoopEvent) : Decidable (s.Runs e) := inferInstanceAs (Decidable (_ ∧ _))

/-! ### What a step of the loop does -/

/-- The steps of the loop. -/
inductive Steps (s : RunLoop) : LoopEvent → RunLoop → Prop where
  | submit {w : Worker} (hworker : s.worker.step .submit = some w) :
      Steps s .submit { s with worker := w }
  | post {i : ℕ} {res : Int} {more : Bool} {data : List UInt8} {sqe : Sqe}
      (hsqe : s.worker.thread.ioRing.inflight[i]? = some sqe) :
      Steps s (.post i res more data) (s.post i res more data sqe)
  | peek (hctl : s.worker.ctl = .batch) (hbatch : s.batch = none) :
      Steps s .peek { s with batch := some (min s.cq.length s.worker.thread.ioRing.depth, 0) }
  | handle {n i : ℕ} {q : Cqe} {w : Worker} (hbatch : s.batch = some (n, i))
      (hctl : s.worker.ctl = .batch) (hi : i < n) (hq : s.cq[i]? = some q)
      (hcomplete : s.worker.complete q.sqe.data q.res (CqeFlags.more q.flags)
        (CqeFlags.bufferIdx q.flags) = some w) :
      Steps s .handle { s with worker := w, batch := some (n, i + 1) }
  | batchDone {n : ℕ} (hbatch : s.batch = some (n, n)) (hctl : s.worker.ctl = .batch) :
      Steps s .batchDone ⟨s.worker.serveReads s.worker.thread.pendingReads, s.cq.drop n, none⟩
  | ret {w : Worker} (hworker : s.worker.step .ret = some w) : Steps s .ret { s with worker := w }
  | app {c : ℕ} {op : AppOp} {w : Worker} (hworker : s.worker.step (.app c op) = some w) :
      Steps s (.app c op) { s with worker := w }

/-- Every step is in the list. -/
theorem step_cases {s s' : RunLoop} {e : LoopEvent} (h : s.step e = some s') :
  Steps s e s'
  := by
  cases e with
  | submit =>
      obtain ⟨w, hworker, rfl⟩ := Option.map_eq_some_iff.mp h
      apply Steps.submit hworker
  | post i res more data =>
      obtain ⟨sqe, hsqe, rfl⟩ := Option.map_eq_some_iff.mp h
      apply Steps.post hsqe
  | peek =>
      obtain ⟨⟨hctl, hbatch⟩, heq⟩ := Option.ite_none_right_eq_some.mp h
      cases heq
      apply Steps.peek hctl hbatch
  | handle =>
      obtain ⟨⟨n, i⟩, hbatch, hbody⟩ := Option.bind_eq_some_iff.mp h
      obtain ⟨⟨hctl, hi⟩, hbody⟩ := Option.ite_none_right_eq_some.mp hbody
      obtain ⟨q, hq, hhandle⟩ := Option.bind_eq_some_iff.mp hbody
      obtain ⟨w, hcomplete, rfl⟩ := Option.map_eq_some_iff.mp hhandle
      apply Steps.handle hbatch hctl hi hq hcomplete
  | batchDone =>
      obtain ⟨⟨n, i⟩, hbatch, hbody⟩ := Option.bind_eq_some_iff.mp h
      obtain ⟨⟨hctl, rfl⟩, heq⟩ := Option.ite_none_right_eq_some.mp hbody
      cases heq
      apply Steps.batchDone hbatch hctl
  | ret =>
      obtain ⟨w, hworker, rfl⟩ := Option.map_eq_some_iff.mp h
      apply Steps.ret hworker
  | app c op =>
      obtain ⟨w, hworker, rfl⟩ := Option.map_eq_some_iff.mp h
      apply Steps.app hworker

end RunLoop

end Proactor
