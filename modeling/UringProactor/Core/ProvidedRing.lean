import UringProactor.Core.LoopRefinement
import UringProactor.Core.UringRing

/-!
# The provided ring in memory

A `SharedLoop` is the event loop together with the memory of `uring_ring_`.  The kernel takes the
buffers that it fills from this memory, and each call of `BufRing::release` goes to this memory.
The loop with the memory refines the event loop whose provided ring is a list: the memory provides
the entries of the buffers in the list.

The list is kept in the state, where no function of the worker reads it.
-/

namespace Proactor

/-! ### The calls of `release` -/

namespace ReadBufStream

/-- The buffers that the loop `while (size > 0)` of `consume` releases, in order. -/
def releaseLoop (s : ReadBufStream) (r : BufRing) (size : ℕ) : List ℕ :=
  if size = 0 then
    []
  else if s.queue.head = s.queue.tail then
    []
  else
    let idx := s.queue.front s.bits
    let avail := u32Sub (r.dataSize idx) s.headOffset
    if size < avail then
      []
    else
      idx :: releaseLoop { s with queue := s.queue.pop, headOffset := 0 } (r.release idx)
        (size - avail)
termination_by s.queue.size
decreasing_by
  apply Circular.size_pop_lt ‹¬ s.queue.head = s.queue.tail›

/-- The buffers that `consume` releases, in order. -/
def releases (s : ReadBufStream) (r : BufRing) (size : ℕ) : List ℕ :=
  if s.readableBytes < size then
    []
  else
    releaseLoop { s with readableBytes := s.readableBytes - size } r size

variable {s s' : ReadBufStream} {r r' : BufRing} {size : ℕ}

theorem released_consumeLoop (hlt : ∀ i ∈ s.queueList, i < r.bufNum)
    (h : s.consumeLoop r size = some (s', r')) :
  r.Released r' (s.releaseLoop r size)
  := by
  fun_induction releaseLoop s r size with
  | case1 s r =>
      rw [consumeLoop, if_pos rfl] at h
      cases h
      apply BufRing.Released.refl
  | case2 s r size hpos hnil =>
      rw [consumeLoop, if_neg hpos, if_pos hnil] at h
      cases h
  | case3 s r size hpos hne idx avail hfits =>
      rw [consumeLoop, if_neg hpos, if_neg hne] at h
      obtain ⟨-, rfl⟩ := Prod.mk.inj (Option.some_injective _ ((if_pos hfits).symm.trans h))
      apply BufRing.Released.refl
  | case4 s r size hpos hne idx avail hexceeds ih =>
      rw [consumeLoop, if_neg hpos, if_neg hne] at h
      have hrest := (if_neg hexceeds).symm.trans h
      have hqueue : s.queueList = idx :: s.queue.pop.toList s.bits := Circular.toList_of_ne hne
      rw [hqueue] at hlt
      have hfirst := BufRing.released (hlt idx List.mem_cons_self)
      apply hfirst.trans (ih _ hrest)
      intro i hi
      apply hlt i (List.mem_cons_of_mem _ hi)

/-- `consume` releases these buffers. -/
theorem released_consume {ok : Bool} (hlt : ∀ i ∈ s.queueList, i < r.bufNum)
    (h : s.consume r size = some (ok, s', r')) :
  r.Released r' (s.releases r size)
  := by
  rw [consume] at h
  rw [releases]
  split at h
  case isTrue hgt =>
    cases h
    rw [if_pos hgt]
    apply BufRing.Released.refl
  case isFalse hle =>
    obtain ⟨⟨s₁, r₁⟩, hloop, heq⟩ := Option.map_eq_some_iff.mp h
    cases heq
    rw [if_neg hle]
    apply released_consumeLoop _ hloop
    apply hlt

/-- `reset` releases the buffers that `consume` of all bytes does. -/
theorem released_reset (hlt : ∀ i ∈ s.queueList, i < r.bufNum)
    (h : s.reset r = some (s', r')) :
  r.Released r' (s.releases r s.readableBytes)
  := by
  obtain ⟨⟨ok, s₁, r₁⟩, hconsume, heq⟩ := Option.map_eq_some_iff.mp h
  cases heq
  apply released_consume hlt hconsume

end ReadBufStream

/-- The buffers that a call of the application releases, in order. -/
def TcpChannel.releases (ch : TcpChannel) (th : TcpThread) : AppOp → List ℕ
  | .consume size => ch.readBuf.releases th.bufRing size
  | _ => []

/-- Of the calls of the application, only `consume` releases buffers. -/
theorem TcpChannel.ring_call {c : ℕ} {ch ch' : TcpChannel} {th th' : TcpThread} {op : AppOp}
    {ok : Bool} (hlt : ∀ i ∈ ch.readBuf.queueList, i < th.bufRing.bufNum)
    (h : ch.call c th op = some (ok, ch', th')) :
  th'.bufRing.ring = th.bufRing.ring ++ ch.releases th op
  := by
  cases op with
  | consume size =>
      obtain ⟨⟨ok', readBuf, bufRing⟩, hconsume, heq⟩ := Option.map_eq_some_iff.mp h
      cases heq
      apply (ReadBufStream.released_consume hlt hconsume).ring
  | append data =>
      obtain ⟨⟨ok', b, p⟩, -, heq⟩ := Option.map_eq_some_iff.mp h
      cases heq
      apply (List.append_nil _).symm
  | prepend data =>
      obtain ⟨⟨ok', b, p⟩, -, heq⟩ := Option.map_eq_some_iff.mp h
      cases heq
      apply (List.append_nil _).symm
  | submit =>
      rw [call] at h
      dsimp only at h
      split at h
      case isTrue =>
        obtain ⟨⟨ch₁, th₁⟩, hnotify, heq⟩ := Option.map_eq_some_iff.mp h
        cases heq
        apply (congrArg BufRing.ring (notify_rests hnotify).ring).trans (List.append_nil _).symm
      case isFalse =>
        cases h
        apply (List.append_nil _).symm
  | peek size =>
      cases h
      apply (List.append_nil _).symm
  | close =>
      obtain ⟨⟨ch₁, th₁⟩, hclose, heq⟩ := Option.map_eq_some_iff.mp h
      cases heq
      apply (congrArg BufRing.ring (close_rests hclose).1.ring).trans (List.append_nil _).symm

/-- A pass of `tcp_read_loop` releases nothing. -/
theorem ReadSide.Receives.ring_eq {c idx : ℕ} {s s' : ReadSide} {res : Int}
    (h : Receives c s res idx s') :
  s'.ring.ring = s.ring.ring
  := by
  cases h with
  | received _ h => apply congrArg BufRing.ring h.ring
  | ended _ h => apply congrArg BufRing.ring h.ring
  | threw _ h => apply congrArg BufRing.ring h.ring

namespace Worker

/-- The buffers that are released after a callback returned, in order: `tcp_read_loop` resets its
buffer after `on_close`. -/
def releasesAfter (w : Worker) : List ℕ :=
  match w.ctl with
  | .onClose c =>
      (w.channels c).readBuf.releases w.thread.bufRing (w.channels c).readBuf.readableBytes
  | _ => []

variable {w w' : Worker}

theorem bufRing_serveReads (w : Worker) (rest : List ℕ) :
  (w.serveReads rest).thread.bufRing = w.thread.bufRing
  := by
  cases rest <;> rfl

/-- Of the callbacks, only `on_close` is followed by the release of buffers. -/
theorem ring_afterCallback
    (hlt : ∀ c, ∀ i ∈ (w.channels c).readBuf.queueList, i < w.thread.bufRing.bufNum)
    (h : w.afterCallback = some w') :
  w'.thread.bufRing.ring = w.thread.bufRing.ring ++ w.releasesAfter
  := by
  rw [afterCallback] at h
  rw [releasesAfter]
  cases hctl : w.ctl with
  | poll =>
      rw [hctl] at h
      cases h
  | batch =>
      rw [hctl] at h
      cases h
  | onAccept c =>
      rw [hctl] at h
      cases h
      apply (List.append_nil _).symm
  | onClose c =>
      rw [hctl] at h
      obtain ⟨⟨ch, th⟩, hafter, rfl⟩ := Option.map_eq_some_iff.mp h
      obtain ⟨⟨ch₁, th₁⟩, hclose, hrest⟩ := Option.bind_eq_some_iff.mp hafter
      obtain ⟨⟨readBuf, bufRing⟩, hreset, heq⟩ := Option.bind_eq_some_iff.mp hrest
      cases heq
      have hrests := (TcpChannel.closeOnce_rests hclose).1
      have hbuf : ch₁.readBuf = (w.channels c).readBuf := hrests.buf
      have hring : th₁.bufRing = w.thread.bufRing := hrests.ring
      rw [hbuf, hring] at hreset
      apply (ReadBufStream.released_reset (hlt c) hreset).ring
  | onWrite c =>
      rw [hctl] at h
      obtain ⟨⟨ch, th⟩, hafter, rfl⟩ := Option.map_eq_some_iff.mp h
      have hrests := (TcpChannel.writeLoop_outcome hafter).rests
      apply (congrArg BufRing.ring hrests.ring).trans (List.append_nil _).symm
  | onRead c rest =>
      rw [hctl] at h
      cases h
      rw [bufRing_serveReads, List.append_nil]

/-- A new connection releases nothing. -/
theorem ring_resumeAccept {res : Int} {more : Bool} (h : w.resumeAccept res more = some w') :
  w'.thread.bufRing.ring = w.thread.bufRing.ring
  := by
  rw [resumeAccept] at h
  split at h
  case isTrue =>
    cases h
    rfl
  case isFalse =>
    obtain ⟨ioRing, -, hrest⟩ := Option.bind_eq_some_iff.mp h
    dsimp only at hrest
    split at hrest
    case h_1 =>
      cases hrest
      rfl
    case h_2 c pool hacquire =>
      obtain ⟨⟨ch, th⟩, hassign, heq⟩ := Option.bind_eq_some_iff.mp hrest
      cases heq
      cases TcpChannel.assign_readStep hassign with
      | assign _ _ _ _ hrests => apply congrArg BufRing.ring hrests.ring

/-- A completion releases nothing. -/
theorem ring_complete {d : UserData} {res : Int} {more : Bool} {idx : ℕ}
    (h : w.complete d res more idx = some w') :
  w'.thread.bufRing.ring = w.thread.bufRing.ring
  := by
  cases d with
  | wakeup =>
      cases h
      rfl
  | accept =>
      rw [complete] at h
      split at h
      case isTrue => apply ring_resumeAccept h
      case isFalse =>
        cases h
        rfl
  | read c =>
      rw [complete] at h
      split at h
      case isTrue =>
        obtain ⟨⟨ch, th, callback⟩, hresume, rfl⟩ := Option.map_eq_some_iff.mp h
        apply (TcpChannel.resumeRead_receives hresume).ring_eq
      case isFalse =>
        cases h
        rfl
  | write c =>
      rw [complete] at h
      split at h
      case h_1 =>
        obtain ⟨⟨ch, th, callback⟩, hresume, rfl⟩ := Option.map_eq_some_iff.mp h
        apply congrArg BufRing.ring (TcpChannel.resumeWrite_rests hresume).ring
      case h_2 =>
        cases h
        rfl

end Worker

/-! ### What the loop knows of its ring -/

namespace RunLoop

variable {s s' : RunLoop} {e : LoopEvent} {w : Worker}

/-- The buffers that an event releases, in order. -/
def releases (s : RunLoop) : LoopEvent → List ℕ
  | .ret => s.worker.releasesAfter
  | .app c op => (s.worker.channels c).releases s.worker.thread op
  | _ => []

/-- The worker that the loop follows, with a ring of the given geometry. -/
structure Sized (bits size : ℕ) (s : RunLoop) (w : Worker) : Prop where
  refines : s.Refines w
  bits : w.thread.bufRing.bits = bits
  bufSize : w.thread.bufRing.bufSize = size

theorem Sized.step {bits size : ℕ} (h : Sized bits size s w) (hruns : s.Runs e)
    (hstep : s.step e = some s') :
  ∃ w', Sized bits size s' w'
  := by
  rcases h.refines.step hruns hstep with hrefines | ⟨f, w', hruns', hstep', hrefines⟩
  · use w, hrefines, h.bits, h.bufSize
  · obtain ⟨⟨ok, w₁⟩, hresult, heq⟩ := Option.map_eq_some_iff.mp hstep'
    have hgeometry := (Worker.step_cases hresult).reads.geometry_eq h.refines.sturdy.apart
      (fun _ _ => Worker.promised_of_admits hruns'.1)
    obtain rfl : w₁ = w' := heq
    use w₁, hrefines
    · rw [hgeometry.1, h.bits]
    · rw [hgeometry.2, h.bufSize]

/-- What is known of the ring of the loop: the buffers in it are different ones, and they and those
that the connections have received are buffers of the ring. -/
structure Owns (bits size : ℕ) (s : RunLoop) : Prop where
  bits : s.worker.thread.bufRing.bits = bits
  bufSize : s.worker.thread.bufRing.bufSize = size
  nodup : s.worker.thread.bufRing.ring.Nodup
  ring_lt : ∀ i ∈ s.worker.thread.bufRing.ring, i < s.worker.thread.bufRing.bufNum
  queue_lt : ∀ c, ∀ i ∈ (s.worker.channels c).readBuf.queueList, i < s.worker.thread.bufRing.bufNum

theorem Sized.owns {bits size : ℕ} (h : Sized bits size s w) :
  Owns bits size s
  := by
  obtain ⟨⟨hfollows, hsturdy, -⟩, hbits, hsize⟩ := h
  obtain ⟨k, -, rfl⟩ := hfollows.lags
  have hsound := hsturdy.apart.sound
  refine ⟨hbits, hsize, ?_, ?_, ?_⟩
  · have hnodup : (k.taken ++ s.worker.thread.bufRing.ring).Nodup :=
      (hsound 0).nodup.of_append_left
    apply hnodup.of_append_right
  · intro i hi
    apply (hsound 0).lt i
    apply List.mem_append_left _ (List.mem_append_right _ hi)
  · intro c i hi
    apply (hsound c).lt i
    apply List.mem_append_right _ hi

/-- Besides the posting of a CQE, an event adds the buffers that it releases to the list. -/
theorem Owns.ring_step {bits size : ℕ} (h : Owns bits size s)
    (hpost : ∀ i res more data, e ≠ .post i res more data) (hstep : s.step e = some s') :
  s'.worker.thread.bufRing.ring = s.worker.thread.bufRing.ring ++ s.releases e
  := by
  cases step_cases hstep with
  | post => cases hpost _ _ _ _ rfl
  | submit hworker =>
      obtain ⟨⟨ok, w₂⟩, hresult, rfl⟩ := Option.map_eq_some_iff.mp hworker
      obtain ⟨-, heq⟩ := Option.ite_none_right_eq_some.mp hresult
      cases heq
      apply (List.append_nil _).symm
  | peek => apply (List.append_nil _).symm
  | handle _ _ _ _ hcomplete =>
      apply (Worker.ring_complete hcomplete).trans (List.append_nil _).symm
  | batchDone =>
      change (s.worker.serveReads _).thread.bufRing.ring = _
      rw [Worker.bufRing_serveReads]
      apply (List.append_nil _).symm
  | ret hworker =>
      obtain ⟨⟨ok, w₂⟩, hresult, rfl⟩ := Option.map_eq_some_iff.mp hworker
      obtain ⟨w₃, hafter, heq⟩ := Option.map_eq_some_iff.mp hresult
      cases heq
      apply Worker.ring_afterCallback h.queue_lt hafter
  | @app c op _ hworker =>
      obtain ⟨⟨ok, w₂⟩, hresult, rfl⟩ := Option.map_eq_some_iff.mp hworker
      obtain ⟨⟨ok', ch, th⟩, hcall, heq⟩ := Option.map_eq_some_iff.mp hresult
      cases heq
      apply TcpChannel.ring_call (h.queue_lt c) hcall

end RunLoop

/-! ### The event loop with the shared memory -/

/-- The event loop with the memory of the provided ring. -/
structure SharedLoop (Mem : Type) where
  loop : RunLoop
  /-- `uring_ring_`. -/
  uringRing : Mem

namespace SharedLoop

variable {Mem : Type}

/-- `buf_ring_`. -/
def bufRing (s : SharedLoop Mem) : BufRing := s.loop.worker.thread.bufRing

/-- The kernel has taken an entry: it writes the data to the address of the entry, and posts a CQE
with the index in the entry. -/
def receive (s : SharedLoop Mem) (i : ℕ) (res : Int) (more : Bool) (data : List UInt8) (sqe : Sqe)
    (entry : UringBuf) (m : Mem) : SharedLoop Mem where
  loop := { s.loop with
    worker := { s.loop.worker with
      thread := { s.loop.worker.thread with
        ioRing := s.loop.worker.thread.ioRing.reap i more
        bufRing := { s.bufRing with
          ring := s.bufRing.ring.erase entry.bid.toNat
          bufs := Store.write s.bufRing.bufs entry.addr data } } }
    cq := s.loop.cq ++ [⟨sqe, res, CqeFlags.encode entry.bid.toNat true more, data⟩] }
  uringRing := m

/-- The kernel posts a CQE; without an entry in the ring it cannot receive. -/
def post (ops : BufRingOps Mem) (s : SharedLoop Mem) (i : ℕ) (res : Int) (more : Bool)
    (data : List UInt8) (sqe : Sqe) : Option (SharedLoop Mem) :=
  if Cqe.received sqe res then
    (ops.take s.uringRing).map (fun (entry, m) => s.receive i res more data sqe entry m)
  else
    some { s with loop := s.loop.post i res more data sqe }

/-- The worker has taken the step `e`, in which it released buffers. -/
def released (ops : BufRingOps Mem) (s : SharedLoop Mem) (e : LoopEvent) (loop : RunLoop) :
    SharedLoop Mem :=
  ⟨loop, (s.loop.releases e).foldl (ops.release s.bufRing) s.uringRing⟩

/-- One event. -/
def step (ops : BufRingOps Mem) (s : SharedLoop Mem) (e : LoopEvent) : Option (SharedLoop Mem) :=
  match e with
  | .post i res more data =>
      s.loop.worker.thread.ioRing.inflight[i]?.bind (s.post ops i res more data)
  | e => (s.loop.step e).map (s.released ops e)

/-- The loop when `run_loop` enters it; the constructor has provided the buffers. -/
def start (ops : BufRingOps Mem) (w : Worker) : SharedLoop Mem :=
  ⟨RunLoop.start w, ops.new w.thread.bufRing⟩

/-- What the kernel promises: received data fits into the length of the entry that it takes. -/
def Admits (ops : BufRingOps Mem) (s : SharedLoop Mem) : LoopEvent → Prop
  | .post i res more data =>
      ∀ sqe ∈ s.loop.worker.thread.ioRing.inflight[i]?,
        if Cqe.received sqe res then
          data.length = res.toNat ∧ ∀ p ∈ ops.take s.uringRing, data.length ≤ p.1.len
        else
          s.loop.worker.Delivers sqe res more 0 data
  | e => s.loop.Admits e

/-- The events of a settled run. -/
def Runs (ops : BufRingOps Mem) (s : SharedLoop Mem) (e : LoopEvent) : Prop :=
  s.Admits ops e ∧ s.loop.Settles e

instance (ops : BufRingOps Mem) (s : SharedLoop Mem) : ∀ e, Decidable (s.Admits ops e)
  | .post i res more data =>
      inferInstanceAs (Decidable (∀ sqe ∈ s.loop.worker.thread.ioRing.inflight[i]?,
        if Cqe.received sqe res then
          data.length = res.toNat ∧ ∀ p ∈ ops.take s.uringRing, data.length ≤ p.1.len
        else
          s.loop.worker.Delivers sqe res more 0 data))
  | .submit => inferInstanceAs (Decidable (s.loop.Admits .submit))
  | .peek => inferInstanceAs (Decidable (s.loop.Admits .peek))
  | .handle => inferInstanceAs (Decidable (s.loop.Admits .handle))
  | .batchDone => inferInstanceAs (Decidable (s.loop.Admits .batchDone))
  | .ret => inferInstanceAs (Decidable (s.loop.Admits .ret))
  | .app c op => inferInstanceAs (Decidable (s.loop.Admits (.app c op)))

instance (ops : BufRingOps Mem) (s : SharedLoop Mem) (e : LoopEvent) : Decidable (s.Runs ops e) :=
  inferInstanceAs (Decidable (_ ∧ _))

variable {ops : BufRingOps Mem} {provided : Mem → List UringBuf} {written : Mem → ℕ → UringBuf}
  {s s' : SharedLoop Mem} {e : LoopEvent} {res : Int} {sqe : Sqe} {bits size : ℕ}

/-! ### The kernel takes a buffer -/

/-- The entry that the kernel takes from the memory is that of the first buffer in the list. -/
theorem receive_eq {entry : UringBuf} {m : Mem} (hlaws : ops.Laws bits provided written)
    (howns : s.loop.Owns bits size) (hbits : bits ≤ 15) (h : s.bufRing.Provides provided s.uringRing)
    (htake : ops.take s.uringRing = some (entry, m)) (hreceived : Cqe.received sqe res = true)
    (i : ℕ) (more : Bool) (data : List UInt8) :
  s.receive i res more data sqe entry m = ⟨s.loop.post i res more data sqe, m⟩
    ∧ s.loop.nextBuffer ∈ s.bufRing.ring ∧ entry.len = s.bufRing.bufSize
    ∧ (s.receive i res more data sqe entry m).bufRing.Provides provided m
  := by
  have hgeometry : s.bufRing.bits = bits := howns.bits
  rw [← hgeometry] at hlaws hbits
  obtain ⟨idx, rest, hring, rfl, hrest⟩ := h.take hlaws htake
  have hidx : idx ∈ s.bufRing.ring := by
    rw [hring]
    apply List.mem_cons_self
  have hlt : idx < s.bufRing.bufNum := howns.ring_lt idx hidx
  obtain ⟨haddr, hlen, hbid⟩ := BufRing.entry_spec hlt hbits
  have hnext : s.loop.nextBuffer = idx := congrArg (List.headD · 0) hring
  refine ⟨?_, hnext ▸ hidx, hlen, ?_⟩
  · rw [receive, RunLoop.post, RunLoop.kernel_eq, RunLoop.posted, hreceived, hnext]
    simp only [haddr, hbid, if_true]
    rfl
  · rw [BufRing.Provides]
    change provided m = (s.bufRing.ring.erase (s.bufRing.entry idx).bid.toNat).map s.bufRing.entry
    rw [hrest, hbid, hring, List.erase_cons_head]

/-- What the kernel promises of a CQE without data does not depend on a buffer. -/
theorem delivers_of_not_received {w : Worker} {idx idx' : ℕ} {more : Bool} {data : List UInt8}
    (hreceived : Cqe.received sqe res = false) (h : w.Delivers sqe res more idx data) :
  w.Delivers sqe res more idx' data
  := by
  obtain ⟨op, u⟩ := sqe
  cases u with
  | read c =>
      intro hres
      cases hreceived.symm.trans (decide_eq_true hres)
  | _ => apply h

/-- The kernel posts a CQE. -/
theorem post_step (hlaws : ops.Laws bits provided written) (howns : s.loop.Owns bits size)
    (hbits : bits ≤ 15) (h : s.bufRing.Provides provided s.uringRing) {i : ℕ} {more : Bool}
    {data : List UInt8} (hadmits : s.Admits ops (.post i res more data))
    (hstep : s.step ops (.post i res more data) = some s') :
  s.loop.Admits (.post i res more data) ∧ s.loop.step (.post i res more data) = some s'.loop
    ∧ s'.bufRing.Provides provided s'.uringRing
  := by
  obtain ⟨sqe, hsqe, hpost⟩ := Option.bind_eq_some_iff.mp hstep
  have hpromise := hadmits sqe hsqe
  have hloop : s.loop.step (.post i res more data) = some (s.loop.post i res more data sqe) := by
    rw [RunLoop.step, hsqe]
    rfl
  have hdelivers : s.loop.worker.Delivers sqe res more s.loop.nextBuffer data →
      s.loop.Admits (.post i res more data) := by
    intro hdelivers sqe' hsqe'
    cases hsqe.symm.trans hsqe'
    apply hdelivers
  cases hreceived : Cqe.received sqe res with
  | true =>
      rw [if_pos hreceived] at hpromise
      rw [post, if_pos hreceived] at hpost
      obtain ⟨⟨entry, m⟩, htake, htaken⟩ := Option.map_eq_some_iff.mp hpost
      obtain rfl : s.receive i res more data sqe entry m = s' := htaken
      obtain ⟨heq, hmem, hlen, hprovides⟩ := receive_eq hlaws howns hbits h htake hreceived i more
        data
      have hfits := hpromise.2 _ htake
      rw [hlen] at hfits
      refine ⟨hdelivers ?_, ?_, hprovides⟩
      · obtain ⟨op, u⟩ := sqe
        cases u with
        | read c =>
            intro _
            use hmem, hpromise.1, hfits
        | _ => cases hreceived
      · rw [hloop, heq]
  | false =>
      rw [if_neg (by simp [hreceived])] at hpromise
      rw [post, if_neg (by simp [hreceived])] at hpost
      cases hpost
      use hdelivers (delivers_of_not_received hreceived hpromise), hloop
      have hbufRing : (s.loop.post i res more data sqe).worker.thread.bufRing = s.bufRing := by
        rw [RunLoop.post, RunLoop.kernel_eq, hreceived]
        rfl
      change BufRing.Provides provided (s.loop.post i res more data sqe).worker.thread.bufRing _
      rw [hbufRing]
      apply h

/-! ### The worker releases buffers -/

/-- The buffers that the worker releases find room in the ring. -/
theorem released_step {l : RunLoop} (hlaws : ops.Laws bits provided written)
    (howns : s.loop.Owns bits size) (howns' : l.Owns bits size)
    (h : s.bufRing.Provides provided s.uringRing)
    (hring : l.worker.thread.bufRing.ring = s.bufRing.ring ++ s.loop.releases e) :
  (s.released ops e l).bufRing.Provides provided (s.released ops e l).uringRing
  := by
  have hbits : s.bufRing.bits = bits := howns.bits
  have hsize : s.bufRing.bufSize = size := howns.bufSize
  have hnum : l.worker.thread.bufRing.bufNum = s.bufRing.bufNum :=
    congrArg (2 ^ ·) (howns'.bits.trans hbits.symm)
  have hlt : ∀ i ∈ s.bufRing.ring ++ s.loop.releases e, i < s.bufRing.bufNum := by
    rw [← hring, ← hnum]
    apply howns'.ring_lt
  have hroom : s.bufRing.ring.length + (s.loop.releases e).length ≤ s.bufRing.bufNum := by
    rw [← List.length_append]
    apply Ownership.length_le_of_nodup (hring ▸ howns'.nodup) hlt
  have hlist := h.foldl_release (hbits ▸ hlaws)
    (fun i hi => hlt i (List.mem_append_right _ hi)) hroom
  have hentry : l.worker.thread.bufRing.entry = s.bufRing.entry := by
    funext i
    rw [BufRing.entry, BufRing.entry, howns'.bufSize, hsize]
  rw [BufRing.Provides]
  change provided _ = l.worker.thread.bufRing.ring.map l.worker.thread.bufRing.entry
  rw [hentry, hring]
  apply hlist

/-- Every step with the memory is the step with the list. -/
theorem mirrored_step {w : Worker} (hlaws : ops.Laws bits provided written)
    (hw : s.loop.Sized bits size w) (hbits : bits ≤ 15)
    (h : s.bufRing.Provides provided s.uringRing) (hruns : s.Runs ops e)
    (hstep : s.step ops e = some s') :
  s.loop.Runs e ∧ s.loop.step e = some s'.loop ∧ s'.bufRing.Provides provided s'.uringRing
  := by
  obtain ⟨hadmits, hsettles⟩ := hruns
  have hother : (∀ i res more data, e ≠ .post i res more data) → s.loop.Admits e →
      (s.loop.step e).map (s.released ops e) = some s' →
      s.loop.Runs e ∧ s.loop.step e = some s'.loop
        ∧ s'.bufRing.Provides provided s'.uringRing := by
    intro hpost hadmits hstep
    obtain ⟨l, hl, rfl⟩ := Option.map_eq_some_iff.mp hstep
    use ⟨hadmits, hsettles⟩, hl
    obtain ⟨w', hw'⟩ := hw.step ⟨hadmits, hsettles⟩ hl
    apply released_step hlaws hw.owns hw'.owns h (hw.owns.ring_step hpost hl)
  cases e with
  | post i res more data =>
      obtain ⟨hadmits', hloop, hprovides⟩ := post_step hlaws hw.owns hbits h hadmits hstep
      use ⟨hadmits', trivial⟩, hloop
  | submit => apply hother (by simp) hadmits hstep
  | peek => apply hother (by simp) hadmits hstep
  | handle => apply hother (by simp) hadmits hstep
  | batchDone => apply hother (by simp) hadmits hstep
  | ret => apply hother (by simp) hadmits hstep
  | app c op => apply hother (by simp) hadmits hstep

/-- The event loop with the memory runs as the event loop with the list does. -/
structure Mirrors (provided : Mem → List UringBuf) (start : Worker) (bits size : ℕ)
    (s : SharedLoop Mem) : Prop where
  sized : ∃ w, s.loop.Sized bits size w
  provides : s.bufRing.Provides provided s.uringRing
  reached : Reaches RunLoop.step (fun l e => l.Runs e) (RunLoop.start start) s.loop

theorem Mirrors.step {start : Worker} (h : s.Mirrors provided start bits size)
    (hlaws : ops.Laws bits provided written) (hbits : bits ≤ 15) (hruns : s.Runs ops e)
    (hstep : s.step ops e = some s') :
  s'.Mirrors provided start bits size
  := by
  obtain ⟨w, hw⟩ := h.sized
  obtain ⟨hruns', hloop, hprovides⟩ := mirrored_step hlaws hw hbits h.provides hruns hstep
  use hw.step hruns' hloop, hprovides
  apply Reaches.next h.reached hruns' hloop

section

variable {depth : ℕ} {ringBits ringBufSize : ℕ} {hringPos : 0 < ringBufSize}
  {halloc : 2 ^ ringBits * ringBufSize < 2 ^ 31} {poolBits capBits : Fin 31} {bits bufSize : ℕ}
  {hbits : bits ≤ 30} {hpos : 0 < bufSize} {hlt : bufSize < 2 ^ 31} {pool : BufPool}

/-- At the start the memory is as the constructor has made it. -/
theorem mirrors_start (hlaws : ops.Laws ringBits provided written)
    (hpool : BufPool.new bits bufSize hbits hpos hlt = some pool)
    (hsmall : 2 ^ bits * bufSize < 2 ^ 31) (hring : ringBits ≤ 15) :
  (start ops (Worker.start depth (BufRing.new ringBits ringBufSize hringPos halloc) pool poolBits
    capBits)).Mirrors provided (Worker.start depth
      (BufRing.new ringBits ringBufSize hringPos halloc) pool poolBits capBits) ringBits ringBufSize
  := by
  have hnew := BufRing.new_eq ringBits ringBufSize hringPos halloc
  have hgeometry : (BufRing.new ringBits ringBufSize hringPos halloc).bits = ringBits :=
    congrArg BufRing.bits hnew
  refine ⟨⟨_, RunLoop.refines_start hpool hsmall hring, hgeometry, ?_⟩, ?_, .start⟩
  · apply congrArg BufRing.bufSize hnew
  · apply BufRing.provides_new (hgeometry ▸ hlaws)
    change (BufRing.new ringBits ringBufSize hringPos halloc).ring
      = List.range (BufRing.new ringBits ringBufSize hringPos halloc).bufNum
    rw [hnew]
    rfl

/-- The shared memory refines the list.  Let the functions of liburing and the kernel meet the laws
of a ring of at most `2 ^ 15` entries.  In every settled run of the event loop in which the kernel
takes buffers from the memory, the loop takes the steps that it takes when the kernel takes them
from the list; and the memory provides the entries of the buffers in the list, in order, each with
the address, the length and the index of its buffer. -/
theorem shared_ring_refines_list (hlaws : ops.Laws ringBits provided written)
    (hpool : BufPool.new bits bufSize hbits hpos hlt = some pool)
    (hsmall : 2 ^ bits * bufSize < 2 ^ 31) (hring : ringBits ≤ 15)
    (h : Reaches (step ops) (fun s e => s.Runs ops e)
      (start ops (Worker.start depth (BufRing.new ringBits ringBufSize hringPos halloc) pool
        poolBits capBits)) s) :
  Reaches RunLoop.step (fun l e => l.Runs e)
      (RunLoop.start (Worker.start depth (BufRing.new ringBits ringBufSize hringPos halloc) pool
        poolBits capBits)) s.loop
    ∧ provided s.uringRing = s.bufRing.ring.map
      (fun i => ⟨i * ringBufSize, ringBufSize, BitVec.ofNat 16 i⟩)
  := by
  obtain ⟨⟨w, hw⟩, hprovides, hreached⟩ := h.invariant (mirrors_start hlaws hpool hsmall hring)
    (fun s s' e hmirrors hruns hstep => hmirrors.step hlaws hring hruns hstep)
  use hreached
  rw [hprovides]
  apply List.map_congr_left
  intro i _
  rw [BufRing.entry, show s.bufRing.bufSize = ringBufSize from hw.owns.bufSize]

end

/-- A connection receives three bytes one after the other, and each is consumed: in a ring of two
entries with counters of 16 bits, the first entry has been written three times. -/
theorem shared_ring_refines_list_wrapped :
  ∃ pool s, BufPool.new 0 1 (by decide) (by decide) (by decide) = some pool
    ∧ Reaches (step (.circular 1)) (fun s e => s.Runs (.circular 1) e)
      (start (.circular 1) (Worker.start 8 (BufRing.new 1 4 (by decide) (by decide)) pool 0 0)) s
    ∧ s.uringRing.head = 3 ∧ s.uringRing.tail = 5
    ∧ s.uringRing.toList 1 = [⟨4, 4, 1⟩, ⟨0, 4, 0⟩]
    ∧ s.bufRing.ring.map (fun i => (⟨i * 4, 4, BitVec.ofNat 16 i⟩ : UringBuf))
      = [⟨4, 4, 1⟩, ⟨0, 4, 0⟩]
  := by
  have hrun : (BufPool.new 0 1 (by decide) (by decide) (by decide)).bind (fun pool =>
      (Reaches.follow (step (.circular 1)) (fun s e => s.Runs (.circular 1) e)
        [.submit, .post 0 5 true [], .peek, .handle, .ret, .batchDone, .submit,
          .post 2 1 true [7], .peek, .handle, .batchDone, .app 0 (.consume 1), .ret, .submit,
          .post 2 1 true [8], .peek, .handle, .batchDone, .app 0 (.consume 1), .ret, .submit,
          .post 2 1 true [9], .peek, .handle, .batchDone, .app 0 (.consume 1), .ret]
        (start (.circular 1)
          (Worker.start 8 (BufRing.new 1 4 (by decide) (by decide)) pool 0 0))).map
          (fun s => (s.uringRing.head, s.uringRing.tail, s.uringRing.toList 1)))
      = some (3, 5, [⟨4, 4, 1⟩, ⟨0, 4, 0⟩]) := by
    decide +kernel
  obtain ⟨pool, hpool, hfollow⟩ := Option.bind_eq_some_iff.mp hrun
  obtain ⟨s, hreach, hfinal⟩ := Reaches.of_follow _ hfollow
  obtain ⟨hhead, htail, hlist⟩ := by
    simpa only [Prod.mk.injEq] using hfinal
  use pool, s, hpool, hreach, hhead, htail, hlist
  have hlaws := BufRingOps.circular_laws (show 1 ≤ 15 by decide)
  rw [← (shared_ring_refines_list hlaws hpool (by decide) (by decide) hreach).2, hlist]

end SharedLoop

end Proactor
