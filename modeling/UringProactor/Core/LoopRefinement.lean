import UringProactor.Core.Armed
import UringProactor.Core.ByteStream
import UringProactor.Core.Crashes
import UringProactor.Core.RunLoop

/-!
# The event loop refines the worker

In a run of the loop, the kernel does its work for a completion before the loop handles it.  In a
run of the worker it does it at the moment at which the completion is handled.  The worker follows
the loop: it is the loop's worker before the kernel's work for the CQEs that are not handled yet.
What the kernel promised when it posted a CQE still holds when the CQE is handled, since no step
changes what an outstanding `writev` covers.
-/

namespace Proactor

namespace RunLoop

/-- The kernel state `k` is the one before the kernel's work for the unhandled CQEs. -/
structure Lags (s : RunLoop) (k : KernelState) : Prop where
  inflight : k.inflight.Perm (s.worker.thread.ioRing.inflight ++ Cqe.finals s.unhandled)
  taken : k.taken = Cqe.taken s.unhandled
  bufs : s.worker.thread.bufRing.bufs
    = s.unhandled.foldl (Cqe.write s.worker.thread.bufRing.bufSize) k.bufs
  held : Cqe.Held s.worker.thread.ioRing.inflight s.unhandled

/-- What the kernel promised of a CQE when it posted it, besides that its buffer is in the ring. -/
def Promises (w : Worker) (q : Cqe) : Prop :=
  match q.sqe.data with
  | .accept => True
  | .wakeup => CqeFlags.more q.flags = false
  | .read _ =>
      0 < q.res → q.data.length = q.res.toNat ∧ q.data.length ≤ w.thread.bufRing.bufSize
  | .write _ => CqeFlags.more q.flags = false ∧ q.res ≤ (w.covered q.sqe).length

/-- The loop `s` has done what the worker `w` has done; the kernel's work for the unhandled CQEs is
done in `s` and not yet in `w`. -/
structure Follows (s : RunLoop) (w : Worker) : Prop where
  bounds : ∀ n i, s.batch = some (n, i) → i ≤ n ∧ n ≤ s.cq.length
  lags : ∃ k, s.Lags k ∧ w = s.worker.rewind k
  promises : ∀ q ∈ s.unhandled, Promises w q

variable {s s' : RunLoop} {k k' : KernelState} {w w' : Worker} {q : Cqe}

/-! ### Promises -/

theorem completion_sqe (hmem : q.sqe ∈ w.thread.ioRing.inflight) :
  w.thread.ioRing.inflight[w.thread.ioRing.inflight.idxOf q.sqe]? = some q.sqe
  := by
  rw [List.getElem?_eq_getElem (List.idxOf_lt_length_iff.mpr hmem), List.getElem_idxOf]

theorem length_covered (w : Worker) (op : SqeOp) (c : ℕ) :
  (w.covered ⟨op, .write c⟩).length = (((w.channels c).writeBuf.iovec.take op.nr).map IoVec.len).sum
  := WriteBufStream.length_gather ..

/-- What the kernel promised holds when the CQE is handled. -/
theorem Promises.delivers (h : Promises w q)
    (hbuffer : ∀ idx ∈ q.buffer, idx ∈ w.thread.bufRing.ring) :
  w.Delivers q.sqe q.res (CqeFlags.more q.flags) (CqeFlags.bufferIdx q.flags) q.data
  := by
  obtain ⟨⟨op, u⟩, res, flags, data⟩ := q
  cases u with
  | accept => trivial
  | wakeup => apply h
  | read c =>
      intro hres
      refine ⟨hbuffer _ ?_, h hres⟩
      simp [Cqe.buffer, Cqe.received, hres]
  | write c =>
      obtain ⟨hmore, hle⟩ := h
      refine ⟨hmore, ?_⟩
      rw [← length_covered]
      apply hle

/-- What the kernel promises when it posts a CQE. -/
theorem promises_of_delivers {sqe : Sqe} {res : Int} {more : Bool} {idx : ℕ} {flags : BitVec 32}
    {data : List UInt8} (h : w.Delivers sqe res more idx data)
    (hflags : CqeFlags.more flags = more) :
  Promises w ⟨sqe, res, flags, data⟩
  := by
  obtain ⟨op, u⟩ := sqe
  cases u with
  | accept => trivial
  | wakeup => apply hflags.trans h
  | read c =>
      intro hres
      apply (h hres).2
  | write c =>
      obtain ⟨hmore, hle⟩ := h
      refine ⟨hflags.trans hmore, ?_⟩
      rw [length_covered]
      apply hle

theorem promises_rewind (h : Promises w q) :
  Promises (w.rewind k) q
  := by
  obtain ⟨⟨op, u⟩, res, flags, data⟩ := q
  cases u <;> apply h

/-- The worker keeps the promises of the SQEs that stay in flight. -/
theorem Promises.step (h : Promises w q) (hsturdy : w.Sturdy) {e : Event} (hadmits : w.Admits e)
    {ok : Bool} (hresult : w.stepResult e = some (ok, w'))
    (hmem : q.sqe ∈ w.thread.ioRing.inflight) (hmem' : q.sqe ∈ w'.thread.ioRing.inflight) :
  Promises w' q
  := by
  have hgeometry := (Worker.step_cases hresult).reads.geometry_eq hsturdy.apart
    (fun _ _ => Worker.promised_of_admits hadmits)
  have hcovered : w'.covered q.sqe = w.covered q.sqe :=
    hsturdy.posts.covered_step hsturdy.shut.safe hsturdy.addressable hadmits
      (congrArg (Option.map Prod.snd) hresult) (List.mem_append_right _ hmem)
      (List.mem_append_right _ hmem')
  obtain ⟨⟨op, u⟩, res, flags, data⟩ := q
  cases u with
  | accept => trivial
  | wakeup => apply h
  | read c =>
      intro hres
      rw [hgeometry.2]
      apply h hres
  | write c =>
      obtain ⟨hmore, hle⟩ := h
      refine ⟨hmore, ?_⟩
      rw [hcovered]
      apply hle

/-- Whether the handling of a CQE is settled does not depend on the order of the SQEs in flight. -/
theorem meets_completion {ok : Conn → Action → Prop} (hinflight : k.inflight.Perm k'.inflight)
    (hmem : q.sqe ∈ k.inflight)
    (h : (s.worker.rewind k').Meets ok (completion (s.worker.rewind k') q)) :
  (s.worker.rewind k).Meets ok (completion (s.worker.rewind k) q)
  := by
  have hsqe := completion_sqe (w := s.worker.rewind k) hmem
  have hsqe' := completion_sqe (w := s.worker.rewind k') (hinflight.mem_iff.mp hmem)
  have haction : (s.worker.rewind k).action (completion (s.worker.rewind k) q)
      = (s.worker.rewind k').action (completion (s.worker.rewind k') q) := by
    rw [completion, completion, Worker.action, Worker.action, hsqe, hsqe']
    rfl
  rw [Worker.Meets, haction]
  rw [Worker.Meets] at h
  split at h
  case h_1 => trivial
  case h_2 =>
    rw [Worker.view_rewind hinflight]
    apply h

/-! ### The kernel posts a CQE -/

theorem kernel_eq (th : TcpThread) (i idx : ℕ) (sqe : Sqe) (res : Int) (more : Bool)
    (data : List UInt8) :
  Worker.kernel th i sqe.data res more idx data
    = { th with
        ioRing := th.ioRing.reap i more
        bufRing := if Cqe.received sqe res then th.bufRing.fill idx data else th.bufRing }
  := by
  obtain ⟨op, u⟩ := sqe
  cases u with
  | read c =>
      by_cases hres : 0 < res <;> simp [Worker.kernel, Cqe.received, hres]
  | _ => rfl

theorem rewind_reap (r : IoRing) (i : ℕ) (more : Bool) :
  (r.reap i more).rewind k = r.rewind k
  := by
  cases more <;> rfl

/-- Rewinding undoes the work of the kernel, if the buffer that it took is put back. -/
theorem rewind_kernel {th : TcpThread} {i idx : ℕ} {sqe : Sqe} {res : Int} {more : Bool}
    {data : List UInt8} {l : List ℕ}
    (hring : l ++ (Worker.kernel th i sqe.data res more idx data).bufRing.ring = th.bufRing.ring) :
  (Worker.kernel th i sqe.data res more idx data).rewind { k with taken := k.taken ++ l }
    = th.rewind k
  := by
  rw [kernel_eq] at hring ⊢
  have hbufRing :
      BufRing.rewind (if Cqe.received sqe res then th.bufRing.fill idx data else th.bufRing)
        { k with taken := k.taken ++ l } = th.bufRing.rewind k := by
    rw [BufRing.rewind, BufRing.rewind, List.append_assoc, hring]
    split <;> rfl
  rw [TcpThread.rewind, TcpThread.rewind]
  dsimp only
  rw [hbufRing, show (th.ioRing.reap i more).rewind { k with taken := k.taken ++ l } = _ from
    rewind_reap ..]
  rfl

theorem perm_eraseIdx {inflight : List Sqe} {i : ℕ} {sqe : Sqe} (hsqe : inflight[i]? = some sqe) :
  (sqe :: inflight.eraseIdx i).Perm inflight
  := by
  obtain ⟨hlt, rfl⟩ := List.getElem?_eq_some_iff.mp hsqe
  apply List.getElem_cons_eraseIdx_perm hlt

/-- The SQEs in flight and those that CQEs finish, after one more CQE. -/
theorem perm_post {l : List Cqe} {r : IoRing} {i : ℕ} (hsqe : r.inflight[i]? = some q.sqe) :
  ((r.reap i (CqeFlags.more q.flags)).inflight ++ Cqe.finals (l ++ [q])).Perm
    (r.inflight ++ Cqe.finals l)
  := by
  rw [Cqe.finals_append]
  cases hmore : CqeFlags.more q.flags with
  | true =>
      rw [show Cqe.finals [q] = [] by simp [Cqe.finals, hmore], List.append_nil]
      rfl
  | false =>
      rw [show Cqe.finals [q] = [q.sqe] by simp [Cqe.finals, hmore]]
      have hperm := (perm_eraseIdx hsqe).append_right (Cqe.finals l)
      refine List.Perm.trans ?_ hperm
      rw [← List.append_assoc]
      apply List.perm_append_singleton

theorem Follows.handled_le (h : s.Follows w) :
  s.handled ≤ s.cq.length
  := by
  rw [handled]
  cases hbatch : s.batch with
  | none => apply Nat.zero_le
  | some b =>
      obtain ⟨hi, hn⟩ := h.bounds b.1 b.2 hbatch
      apply hi.trans hn

section

variable {i : ℕ} {res : Int} {more : Bool} {data : List UInt8} {sqe : Sqe}

/-- A buffer that the kernel takes is the first of the ring. -/
theorem cons_erase_nextBuffer (h : s.nextBuffer ∈ s.worker.thread.bufRing.ring) :
  s.nextBuffer :: s.worker.thread.bufRing.ring.erase s.nextBuffer = s.worker.thread.bufRing.ring
  := by
  rw [nextBuffer] at h ⊢
  cases hring : s.worker.thread.bufRing.ring with
  | nil =>
      rw [hring] at h
      cases h
  | cons idx ring =>
      rw [List.headD_cons, List.erase_cons_head]

/-- A buffer that the kernel takes is in the ring, and its index fits in the flags. -/
theorem Follows.nextBuffer_lt (h : s.Follows w) (hsturdy : w.Sturdy)
    (hbits : w.thread.bufRing.bits ≤ 15)
    (hdelivers : s.worker.Delivers sqe res more s.nextBuffer data)
    (hreceived : Cqe.received sqe res = true) :
  s.nextBuffer ∈ s.worker.thread.bufRing.ring ∧ s.nextBuffer < 2 ^ 15
  := by
  obtain ⟨k, -, rfl⟩ := h.lags
  obtain ⟨op, u⟩ := sqe
  cases u with
  | read c =>
      have hring := (hdelivers (of_decide_eq_true hreceived)).1
      refine ⟨hring, ?_⟩
      have hnum := (hsturdy.apart.sound 0).lt s.nextBuffer
        (List.mem_append_left _ (List.mem_append_right _ hring))
      apply hnum.trans_le (Nat.pow_le_pow_right (by decide) hbits)
  | _ => cases hreceived

/-- The loop reads from the flags what the kernel has put there. -/
theorem posted_flags (s : RunLoop) (more : Bool) (data : List UInt8)
    (hlt : Cqe.received sqe res = true → s.nextBuffer < 2 ^ 15) :
  CqeFlags.more (s.posted res more data sqe).flags = more
    ∧ (s.posted res more data sqe).buffer
      = if Cqe.received sqe res then some s.nextBuffer else none
  := by
  have hidx : (if Cqe.received sqe res then s.nextBuffer else 0) < 2 ^ 15 := by
    split
    case isTrue hreceived => apply hlt hreceived
    case isFalse => decide
  constructor
  · apply CqeFlags.more_encode
    omega
  · rw [Cqe.buffer, posted, CqeFlags.bufferIdx_encode hidx]
    dsimp only
    split <;> rfl

/-- The kernel's work for a CQE is undone by putting its buffer back at the head of the ring. -/
theorem Follows.post (h : s.Follows w) (hsturdy : w.Sturdy) (hbits : w.thread.bufRing.bits ≤ 15)
    (hsqe : s.worker.thread.ioRing.inflight[i]? = some sqe)
    (hdelivers : s.worker.Delivers sqe res more s.nextBuffer data) :
  (s.post i res more data sqe).Follows w
  := by
  have hlt := h.nextBuffer_lt hsturdy hbits hdelivers
  obtain ⟨hmore, hbuffer⟩ := posted_flags s more data (fun hreceived => (hlt hreceived).2)
  have hunhandled : (s.post i res more data sqe).unhandled
      = s.unhandled ++ [s.posted res more data sqe] :=
    List.drop_append_of_le_length h.handled_le
  obtain ⟨hbounds, ⟨k, hlags, rfl⟩, hpromises⟩ := h
  have hring : (s.posted res more data sqe).buffer.toList
      ++ (Worker.kernel s.worker.thread i sqe.data res more s.nextBuffer data).bufRing.ring
        = s.worker.thread.bufRing.ring := by
    rw [kernel_eq, hbuffer]
    dsimp only
    split
    case isTrue hreceived => apply cons_erase_nextBuffer (hlt hreceived).1
    case isFalse => rfl
  have hioRing : (s.post i res more data sqe).worker.thread.ioRing
      = s.worker.thread.ioRing.reap i more := Worker.kernel_ioRing ..
  have hperm := perm_post (q := s.posted res more data sqe) (l := s.unhandled) hsqe
  rw [hmore] at hperm
  have hbufs : (s.post i res more data sqe).worker.thread.bufRing.bufs
      = Cqe.write s.worker.thread.bufRing.bufSize s.worker.thread.bufRing.bufs
        (s.posted res more data sqe)
      ∧ (s.post i res more data sqe).worker.thread.bufRing.bufSize
        = s.worker.thread.bufRing.bufSize := by
    rw [RunLoop.post, kernel_eq, Cqe.write, hbuffer]
    cases Cqe.received sqe res <;> exact ⟨rfl, rfl⟩
  refine ⟨?_, ⟨_, ?_, congrArg (fun th => { s.worker with thread := th })
    (rewind_kernel (k := k) hring).symm⟩, ?_⟩
  · intro n j hbatch
    obtain ⟨hj, hn⟩ := hbounds n j hbatch
    refine ⟨hj, ?_⟩
    change n ≤ (s.cq ++ [_]).length
    rw [List.length_append]
    omega
  · constructor
    · rw [hunhandled, hioRing]
      apply hlags.inflight.trans hperm.symm
    · rw [hunhandled, Cqe.taken_append, ← hlags.taken]
    · rw [hunhandled, List.foldl_append, hbufs.2, ← hlags.bufs]
      apply hbufs.1
    · rw [hunhandled, hioRing]
      apply hlags.held.post (List.mem_of_getElem? hsqe)
      intro sqe' hsqe'
      have hperm := perm_post (q := s.posted res more data sqe) (l := []) hsqe
      rw [hmore] at hperm
      apply hperm.mem_iff.mpr (List.mem_append_left _ hsqe')
  · rw [hunhandled]
    intro q hq
    rcases List.mem_append.mp hq with hq | hq
    · apply hpromises q hq
    · rw [List.mem_singleton.mp hq]
      apply promises_rewind
      apply promises_of_delivers hdelivers hmore

end

/-! ### The loop takes a step -/

/-- The SQE of a CQE that was not handled is in flight for the worker. -/
theorem Lags.mem (h : s.Lags k) (hq : q ∈ s.unhandled) :
  q.sqe ∈ k.inflight
  := h.inflight.mem_iff.mpr (h.held.mem hq)

/-- A step of the loop that handles no CQE is a step of the worker. -/
theorem Follows.code {e : Event} {w₁ : Worker} {cq : List Cqe} {batch : Option (ℕ × ℕ)}
    (h : s.Follows w) (hsturdy : w.Sturdy) (hadmits : w.Admits e) (hsubmit : e ≠ .submit)
    (hcomplete : ∀ i res more idx data, e ≠ .complete i res more idx data)
    (hstep : s.worker.step e = some w₁)
    (hunhandled : (⟨w₁, cq, batch⟩ : RunLoop).unhandled = s.unhandled)
    (hbounds : ∀ n i, batch = some (n, i) → i ≤ n ∧ n ≤ cq.length) :
  ∃ w', w.step e = some w' ∧ (⟨w₁, cq, batch⟩ : RunLoop).Follows w'
  := by
  obtain ⟨-, ⟨k, hlags, rfl⟩, hpromises⟩ := h
  have hnatural : ∀ k, (s.worker.rewind k).step e = (s.worker.step e).map (·.rewind k) :=
    fun k => Worker.step_rewind s.worker hsubmit hcomplete
  have hstep' : (s.worker.rewind k).step e = some (w₁.rewind k) := by
    rw [hnatural, hstep]
    rfl
  obtain ⟨hinflight, hbufs⟩ := Worker.frame_of_natural (f := (·.step e)) hnatural hstep
  obtain ⟨⟨ok, w'⟩, hresult, heq⟩ := Option.map_eq_some_iff.mp hstep'
  have hgeometry := (Worker.step_cases hresult).reads.geometry_eq hsturdy.apart
    (fun _ _ => Worker.promised_of_admits hadmits)
  change w' = _ at heq
  subst heq
  have hsize : w₁.thread.bufRing.bufSize = s.worker.thread.bufRing.bufSize := hgeometry.2
  refine ⟨_, hstep', hbounds, ⟨k, ?_, rfl⟩, ?_⟩
  · constructor
    · rw [hinflight, hunhandled]
      apply hlags.inflight
    · rw [hunhandled]
      apply hlags.taken
    · rw [hunhandled, hbufs, hsize]
      apply hlags.bufs
    · rw [hinflight, hunhandled]
      apply hlags.held
  · rw [hunhandled]
    intro q hq
    apply (hpromises q hq).step hsturdy hadmits hresult (hlags.mem hq) (hlags.mem hq)

/-- Submitting SQEs is a step of the worker. -/
theorem Follows.submit {w₁ : Worker} (h : s.Follows w) (hsturdy : w.Sturdy)
    (hstep : s.worker.step .submit = some w₁) :
  ∃ w', w.step .submit = some w' ∧ { s with worker := w₁ }.Follows w'
  := by
  obtain ⟨hbounds, ⟨k, hlags, rfl⟩, hpromises⟩ := h
  obtain ⟨⟨ok, w'⟩, hresult, rfl⟩ := Option.map_eq_some_iff.mp hstep
  obtain ⟨hctl, heq⟩ := Option.ite_none_right_eq_some.mp hresult
  cases heq
  have hresult' : (s.worker.rewind k).stepResult .submit = some (true,
      Worker.rewind { s.worker with
        thread := { s.worker.thread with ioRing := s.worker.thread.ioRing.submit }
        ctl := .batch } { k with inflight := k.inflight ++ s.worker.thread.ioRing.sq }) := by
    rw [Worker.stepResult, if_pos (show (s.worker.rewind k).ctl = .poll from hctl)]
    rfl
  refine ⟨_, congrArg (Option.map Prod.snd) hresult', hbounds,
    ⟨{ k with inflight := k.inflight ++ s.worker.thread.ioRing.sq },
      ⟨?_, hlags.taken, hlags.bufs, ?_⟩, rfl⟩, ?_⟩
  · change (k.inflight ++ _).Perm ((_ ++ s.worker.thread.ioRing.sq) ++ _)
    refine (hlags.inflight.append_right _).trans ?_
    rw [List.append_assoc, List.append_assoc]
    apply List.perm_append_comm.append_left
  · apply hlags.held.mono
    intro sqe hsqe
    apply List.mem_append_left _ hsqe
  · intro q hq
    apply (hpromises q hq).step (e := .submit) hsturdy trivial hresult' (hlags.mem hq)
    apply List.mem_append_left _ (hlags.mem hq)

/-- What the kernel has done for a CQE when it is handled. -/
theorem kernel_rewind {th : TcpThread} {l : List Cqe} (htaken : k.taken = Cqe.taken (q :: l))
    (i : ℕ) :
  Worker.kernel (th.rewind k) i q.sqe.data q.res (CqeFlags.more q.flags)
      (CqeFlags.bufferIdx q.flags) q.data
    = th.rewind ⟨((th.ioRing.rewind k).reap i (CqeFlags.more q.flags)).inflight,
      Cqe.write th.bufRing.bufSize k.bufs q, Cqe.taken l⟩
  := by
  have hioRing : (th.ioRing.rewind k).reap i (CqeFlags.more q.flags)
      = th.ioRing.rewind ⟨((th.ioRing.rewind k).reap i (CqeFlags.more q.flags)).inflight,
        Cqe.write th.bufRing.bufSize k.bufs q, Cqe.taken l⟩ := by
    cases CqeFlags.more q.flags <;> rfl
  have hbufRing : (if Cqe.received q.sqe q.res then
        (th.bufRing.rewind k).fill (CqeFlags.bufferIdx q.flags) q.data
      else
        th.bufRing.rewind k)
      = th.bufRing.rewind ⟨((th.ioRing.rewind k).reap i (CqeFlags.more q.flags)).inflight,
        Cqe.write th.bufRing.bufSize k.bufs q, Cqe.taken l⟩ := by
    cases hreceived : Cqe.received q.sqe q.res with
    | true =>
        have hbuffer : q.buffer = some (CqeFlags.bufferIdx q.flags) := if_pos hreceived
        rw [Cqe.taken, List.filterMap_cons_some hbuffer] at htaken
        rw [BufRing.rewind, BufRing.rewind, BufRing.fill, Cqe.write, hbuffer, htaken]
        simp only [if_true, List.cons_append, List.erase_cons_head]
        rfl
    | false =>
        have hbuffer : q.buffer = none := if_neg (by simp [hreceived])
        rw [Cqe.taken, List.filterMap_cons_none hbuffer] at htaken
        rw [BufRing.rewind, BufRing.rewind, Cqe.write, hbuffer, htaken]
        rfl
  rw [kernel_eq]
  simp only [TcpThread.rewind] at hioRing hbufRing ⊢
  rw [hioRing, hbufRing]
  rfl

/-- The SQEs in flight and those that CQEs finish, after the first of the CQEs is handled. -/
theorem perm_handle {r : IoRing} {l : List Cqe} {inflight : List Sqe} {i : ℕ}
    (hperm : r.inflight.Perm (inflight ++ Cqe.finals (q :: l)))
    (hsqe : r.inflight[i]? = some q.sqe) :
  (r.reap i (CqeFlags.more q.flags)).inflight.Perm (inflight ++ Cqe.finals l)
  := by
  rw [← List.singleton_append, Cqe.finals_append] at hperm
  cases hmore : CqeFlags.more q.flags with
  | true =>
      rw [show Cqe.finals [q] = [] by simp [Cqe.finals, hmore], List.nil_append] at hperm
      apply hperm
  | false =>
      rw [show Cqe.finals [q] = [q.sqe] by simp [Cqe.finals, hmore]] at hperm
      apply List.Perm.cons_inv (a := q.sqe)
      apply (perm_eraseIdx hsqe).trans
      apply hperm.trans List.perm_middle

/-- Handling a CQE is the completion of its SQE in the worker. -/
theorem Follows.handle {n i : ℕ} {w₁ : Worker} (h : s.Follows w) (hsturdy : w.Sturdy)
    (hbatch : s.batch = some (n, i)) (hctl : s.worker.ctl = .batch) (hi : i < n)
    (hq : s.cq[i]? = some q) (hcomplete : s.worker.complete q.sqe.data q.res
      (CqeFlags.more q.flags) (CqeFlags.bufferIdx q.flags) = some w₁)
    (hsettles : s.pending.Meets Conn.Settled (completion s.pending q)) :
  w.Runs Conn.Settled (completion w q) ∧ ∃ w', w.step (completion w q) = some w'
    ∧ (⟨w₁, s.cq, some (n, i + 1)⟩ : RunLoop).Follows w'
  := by
  obtain ⟨hbounds, ⟨k, hlags, rfl⟩, hpromises⟩ := h
  have hdrop : s.unhandled = q :: s.cq.drop (i + 1) := by
    obtain ⟨hlt, rfl⟩ := List.getElem?_eq_some_iff.mp hq
    rw [unhandled, handled, hbatch]
    apply List.drop_eq_getElem_cons hlt
  have hmem : q ∈ s.unhandled := by
    rw [hdrop]
    apply List.mem_cons_self
  have hsqe : q.sqe ∈ k.inflight := hlags.mem hmem
  have hadmits : (s.worker.rewind k).Admits (completion (s.worker.rewind k) q) := by
    intro sqe hlookup
    have hlookup' := (completion_sqe hsqe).symm.trans hlookup
    cases hlookup'
    apply (hpromises q hmem).delivers
    intro idx hidx
    apply List.mem_append_left
    rw [hlags.taken]
    apply List.mem_filterMap.mpr ⟨q, hmem, hidx⟩
  refine ⟨⟨hadmits, meets_completion hlags.inflight hsqe hsettles⟩, ?_⟩
  obtain ⟨hinflight, htaken, hbufs, hheld⟩ := hlags
  rw [hdrop] at hinflight htaken hbufs hheld
  have hresult : (s.worker.rewind k).stepResult (completion (s.worker.rewind k) q)
      = some (true, w₁.rewind ⟨((s.worker.thread.ioRing.rewind k).reap (k.inflight.idxOf q.sqe)
        (CqeFlags.more q.flags)).inflight, Cqe.write s.worker.thread.bufRing.bufSize k.bufs q,
        Cqe.taken (s.cq.drop (i + 1))⟩) := by
    rw [completion, Worker.stepResult, if_pos (show (s.worker.rewind k).ctl = .batch from hctl),
      completion_sqe hsqe, Option.bind_some]
    rw [show Worker.kernel (s.worker.rewind k).thread _ _ _ _ _ _ = _ from kernel_rewind htaken _]
    change Option.map _ (Worker.complete (s.worker.rewind _) _ _ _ _) = _
    rw [Worker.complete_rewind, hcomplete]
    rfl
  obtain ⟨hinflight₁, hbufs₁⟩ := Worker.frame_of_natural
    (f := fun v => v.complete q.sqe.data q.res (CqeFlags.more q.flags) (CqeFlags.bufferIdx q.flags))
    (fun k => Worker.complete_rewind ..) hcomplete
  have hgeometry := (Worker.step_cases hresult).reads.geometry_eq hsturdy.apart
    (fun _ _ => Worker.promised_of_admits hadmits)
  have hsize : w₁.thread.bufRing.bufSize = s.worker.thread.bufRing.bufSize := hgeometry.2
  have hperm := perm_handle (r := s.worker.thread.ioRing.rewind k) hinflight
    (completion_sqe (w := s.worker.rewind k) hsqe)
  refine ⟨_, congrArg (Option.map Prod.snd) hresult, ?_, ⟨_, ⟨?_, rfl, ?_, ?_⟩, rfl⟩, ?_⟩
  · intro n' i' hbatch'
    cases hbatch'
    exact ⟨hi, (hbounds n i hbatch).2⟩
  · change List.Perm _ (w₁.thread.ioRing.inflight ++ _)
    rw [hinflight₁]
    apply hperm
  · change w₁.thread.bufRing.bufs = List.foldl (Cqe.write w₁.thread.bufRing.bufSize) _ _
    rw [hbufs₁, hbufs, hsize]
    rfl
  · change Cqe.Held w₁.thread.ioRing.inflight _
    rw [hinflight₁]
    apply hheld.2
  · intro q' hq'
    have hmem' : q' ∈ s.unhandled := by
      rw [hdrop]
      apply List.mem_cons_of_mem _ hq'
    apply (hpromises q' hmem').step hsturdy hadmits hresult
    · apply hinflight.mem_iff.mpr
      apply hheld.mem (List.mem_cons_of_mem _ hq')
    · apply hperm.mem_iff.mpr
      apply hheld.2.mem hq'

/-- The loop fixes the length of a batch. -/
theorem Follows.peek (h : s.Follows w) (hbatch : s.batch = none) :
  { s with batch := some (min s.cq.length s.worker.thread.ioRing.depth, 0) }.Follows w
  := by
  have hunhandled : (⟨s.worker, s.cq, some (min s.cq.length s.worker.thread.ioRing.depth, 0)⟩ :
      RunLoop).unhandled = s.unhandled := by
    rw [unhandled, unhandled, handled, handled, hbatch]
    rfl
  obtain ⟨-, ⟨k, hlags, hw⟩, hpromises⟩ := h
  refine ⟨?_, ⟨k, ⟨?_, ?_, ?_, ?_⟩, hw⟩, ?_⟩
  · rintro n i ⟨⟩
    use Nat.zero_le _
    apply Nat.min_le_left
  all_goals rw [hunhandled]
  · apply hlags.inflight
  · apply hlags.taken
  · apply hlags.bufs
  · apply hlags.held
  · apply hpromises

/-! ### Runs of the loop -/

/-- What relates the loop to the worker in every run. -/
structure Refines (s : RunLoop) (w : Worker) : Prop where
  follows : s.Follows w
  sturdy : w.Sturdy
  bits : w.thread.bufRing.bits ≤ 15

/-- A settled step of the worker keeps what holds of it. -/
theorem refines_of_follows (h : s.Refines w) {e : Event} (hruns : w.Runs Conn.Settled e)
    (hstep : w.step e = some w') (hfollows : s'.Follows w') :
  s'.Refines w'
  := by
  obtain ⟨⟨ok, w₁⟩, hresult, rfl⟩ := Option.map_eq_some_iff.mp hstep
  have hgeometry := (Worker.step_cases hresult).reads.geometry_eq h.sturdy.apart
    (fun _ _ => Worker.promised_of_admits hruns.1)
  refine ⟨hfollows, h.sturdy.step hruns hresult, ?_⟩
  rw [hgeometry.1]
  apply h.bits

/-- The loop follows a step of the worker that is not a completion. -/
theorem Refines.matched {e : Event} (h : s.Refines w) (hadmits : w.Admits e)
    (hcomplete : ∀ i res more idx data, e ≠ .complete i res more idx data)
    (hmatch : ∃ w', w.step e = some w' ∧ s'.Follows w') :
  ∃ f w', w.Runs Conn.Settled f ∧ w.step f = some w' ∧ s'.Refines w'
  := by
  obtain ⟨w', hstep, hfollows⟩ := hmatch
  have hruns : w.Runs Conn.Settled e := ⟨hadmits, Worker.meets_settled hcomplete⟩
  use e, w', hruns, hstep
  apply refines_of_follows h hruns hstep hfollows

/-- Every step of the loop is a step of the worker, or the worker does not see it. -/
theorem Refines.step {e : LoopEvent} (h : s.Refines w) (hruns : s.Runs e)
    (hstep : s.step e = some s') :
  s'.Refines w ∨ ∃ f w', w.Runs Conn.Settled f ∧ w.step f = some w' ∧ s'.Refines w'
  := by
  obtain ⟨hadmits, hsettles⟩ := hruns
  cases step_cases hstep with
  | submit hworker =>
      right
      apply h.matched (e := .submit) trivial (by simp) (h.follows.submit h.sturdy hworker)
  | post hsqe =>
      left
      use h.follows.post h.sturdy h.bits hsqe (hadmits _ hsqe), h.sturdy, h.bits
  | peek _ hbatch =>
      left
      use h.follows.peek hbatch, h.sturdy, h.bits
  | @handle n i q _ hbatch hctl hi hq hcomplete =>
      right
      have hsettled : s.pending.Meets Conn.Settled (completion s.pending q) := by
        apply hsettles q
        rw [unhandled, handled, hbatch, List.head?_drop]
        apply hq
      obtain ⟨hruns, w', hstep', hfollows⟩ :=
        h.follows.handle h.sturdy hbatch hctl hi hq hcomplete hsettled
      use completion w q, w', hruns, hstep'
      apply refines_of_follows h hruns hstep' hfollows
  | batchDone hbatch hctl =>
      right
      have hworker : s.worker.step .batchDone
          = some (s.worker.serveReads s.worker.thread.pendingReads) := by
        rw [Worker.step, Worker.stepResult, if_pos hctl]
        rfl
      apply h.matched (e := .batchDone) trivial (by simp)
      apply h.follows.code (e := .batchDone) h.sturdy trivial (by simp) (by simp) hworker
      · rw [unhandled, unhandled, handled, handled, hbatch]
        rfl
      · simp
  | ret hworker =>
      right
      apply h.matched (e := .ret) trivial (by simp)
      apply h.follows.code (e := .ret) h.sturdy trivial (by simp) (by simp) hworker rfl
        h.follows.bounds
  | @app c op _ hworker =>
      right
      have hsize : w.size = s.worker.size := by
        obtain ⟨k, -, rfl⟩ := h.follows.lags
        rfl
      have hc : c < w.size := hsize ▸ hadmits
      apply h.matched (e := .app c op) hc (by simp)
      apply h.follows.code (e := .app c op) h.sturdy hc (by simp) (by simp) hworker rfl
        h.follows.bounds

/-- The CQEs that an event posts. -/
def arrivals (s : RunLoop) (e : LoopEvent) (s' : RunLoop) : List Cqe :=
  match e with
  | .post .. => s'.cq.drop s.cq.length
  | _ => []

/-- The CQEs that an event handles. -/
def takes (s : RunLoop) : LoopEvent → List Cqe
  | .handle => s.unhandled.take 1
  | _ => []

/-- A CQE is appended to the unhandled ones when it is posted, and the first of them is handled. -/
theorem Follows.unhandled_step {e : LoopEvent} (h : s.Follows w) (hstep : s.step e = some s') :
  s.takes e ++ s'.unhandled = s.unhandled ++ s.arrivals e s'
  := by
  cases step_cases hstep with
  | submit | ret | app => apply (List.append_nil _).symm
  | post =>
      change (s.cq ++ [_]).drop s.handled = s.unhandled ++ (s.cq ++ [_]).drop s.cq.length
      rw [List.drop_append_of_le_length h.handled_le, List.drop_left]
      rfl
  | peek _ hbatch =>
      rw [unhandled, unhandled, handled, handled, hbatch]
      apply (List.append_nil _).symm
  | @handle n i _ _ hbatch =>
      have hdrop : s.cq.drop (i + 1) = s.unhandled.drop 1 := by
        rw [unhandled, handled, hbatch, List.drop_drop]
        rfl
      change s.unhandled.take 1 ++ s.cq.drop (i + 1) = s.unhandled ++ []
      rw [hdrop, List.take_append_drop, List.append_nil]
  | batchDone hbatch =>
      rw [unhandled, unhandled, handled, handled, hbatch]
      apply (List.append_nil _).symm

end RunLoop

/-! ### The monitor -/

/-- What the monitor keeps: the CQEs that were posted, and those that were handled. -/
structure CqRecord where
  posted : List Cqe
  handled : List Cqe

/-- A loop with its monitor. -/
abbrev Looping := Monitored RunLoop CqRecord

namespace Looping

/-- The record after an event. -/
def observe (s : RunLoop) (g : CqRecord) (e : LoopEvent) (_ : Unit) (s' : RunLoop) : CqRecord where
  posted := g.posted ++ s.arrivals e s'
  handled := g.handled ++ s.takes e

/-- A step of the loop and its monitor. -/
def step (m : Looping) (e : LoopEvent) : Option Looping :=
  Monitored.step (fun s e => (s.step e).map (Prod.mk ())) observe m e

/-- Nothing was posted. -/
def start (w : Worker) : Looping := ⟨RunLoop.start w, [], []⟩

/-- The loop refines the worker, and it has handled what was posted up to the unhandled CQEs. -/
structure Refines (m : Looping) (w : Worker) : Prop where
  refines : m.state.Refines w
  conserved : m.record.handled ++ m.state.unhandled = m.record.posted

variable {m m' : Looping} {w : Worker} {e : LoopEvent}

theorem Refines.step (h : m.Refines w) (hruns : m.state.Runs e) (hstep : m.step e = some m') :
  m'.Refines w ∨ ∃ f w', w.Runs Conn.Settled f ∧ w.step f = some w' ∧ m'.Refines w'
  := by
  obtain ⟨u, hresult, hrecord⟩ := Monitored.step_eq_some hstep
  obtain ⟨s', hstep', heq⟩ := Option.map_eq_some_iff.mp hresult
  obtain rfl : s' = m'.state := congrArg Prod.snd heq
  have hconserved : m'.record.handled ++ m'.state.unhandled = m'.record.posted := by
    rw [hrecord, observe, List.append_assoc, h.refines.follows.unhandled_step hstep',
      ← List.append_assoc, h.conserved]
  rcases h.refines.step hruns hstep' with hrefines | ⟨f, w', hruns', hstep'', hrefines⟩
  · left
    use hrefines, hconserved
  · right
    use f, w', hruns', hstep'', hrefines, hconserved

end Looping

namespace RunLoop

section

variable {depth : ℕ} {ringBits ringBufSize : ℕ} {hringPos : 0 < ringBufSize}
  {halloc : 2 ^ ringBits * ringBufSize < 2 ^ 31} {poolBits capBits : Fin 31} {bits bufSize : ℕ}
  {hbits : bits ≤ 30} {hpos : 0 < bufSize} {hlt : bufSize < 2 ^ 31} {pool : BufPool}

/-- At the start the loop and the worker are the same. -/
theorem refines_start (hpool : BufPool.new bits bufSize hbits hpos hlt = some pool)
    (hsmall : 2 ^ bits * bufSize < 2 ^ 31) (hring : ringBits ≤ 15) :
  (start (Worker.start depth (BufRing.new ringBits ringBufSize hringPos halloc) pool poolBits
    capBits)).Refines
      (Worker.start depth (BufRing.new ringBits ringBufSize hringPos halloc) pool poolBits capBits)
  := by
  refine ⟨⟨?_, ⟨_, ⟨?_, rfl, rfl, trivial⟩, (Worker.rewind_self _).symm⟩, ?_⟩,
    Worker.sturdy_start hpool hsmall, ?_⟩
  · intro n i hbatch
    cases hbatch
  · apply List.Perm.refl
  · intro q hq
    cases hq
  · change (BufRing.new ringBits ringBufSize hringPos halloc).bits ≤ 15
    rw [BufRing.new_eq]
    apply hring

/-- The event loop refines the worker.  The kernel posts completions at any time, and the loop
handles them in batches.  Yet in every run in which every CQE is settled when it is handled
(`Settles`), with at most `2 ^ 15` provided buffers, every state of the loop is, up to the kernel's
work for the CQEs that are not handled, a state that the worker reaches in a settled run in which
the kernel does its work for a completion at the moment at which the completion is handled.  Every
CQE that was posted is handled once, in the order of posting. -/
theorem loop_refines_worker (hpool : BufPool.new bits bufSize hbits hpos hlt = some pool)
    (hsmall : 2 ^ bits * bufSize < 2 ^ 31) (hring : ringBits ≤ 15) {m : Looping}
    (h : Reaches Looping.step (fun m e => m.state.Runs e)
      (Looping.start (Worker.start depth (BufRing.new ringBits ringBufSize hringPos halloc) pool
        poolBits capBits)) m) :
  (∃ w, Reaches Worker.step (fun w e => w.Runs Conn.Settled e)
      (Worker.start depth (BufRing.new ringBits ringBufSize hringPos halloc) pool poolBits
        capBits) w ∧ m.state.Follows w)
    ∧ m.record.handled ++ m.state.unhandled = m.record.posted
  := by
  obtain ⟨w, hreach, hrefines⟩ := h.simulation (R := Looping.Refines)
    ⟨refines_start hpool hsmall hring, rfl⟩
    (fun m m' e w hrefines hruns hstep => hrefines.step hruns hstep)
  use ⟨w, hreach, hrefines.refines.follows⟩, hrefines.conserved

end

/-- A connection is accepted.  Its first byte is posted before a batch and handled in it, its second
byte is posted during the batch: the kernel has taken both buffers, and for the worker the second
one is still in the ring. -/
theorem loop_refines_worker_two_bytes :
  ∃ pool m w, BufPool.new 0 1 (by decide) (by decide) (by decide) = some pool
    ∧ Reaches Looping.step (fun m e => m.state.Runs e)
      (Looping.start (Worker.start 8 (BufRing.new 1 1 (by decide) (by decide)) pool 0 0)) m
    ∧ Reaches Worker.step (fun w e => w.Runs Conn.Settled e)
      (Worker.start 8 (BufRing.new 1 1 (by decide) (by decide)) pool 0 0) w
    ∧ m.record.posted.map Cqe.res = [5, 1, 1] ∧ m.record.handled.map Cqe.res = [5, 1]
    ∧ m.state.worker.thread.bufRing.ring = [] ∧ w.thread.bufRing.ring = [1]
  := by
  have hrun : (BufPool.new 0 1 (by decide) (by decide) (by decide)).bind (fun pool =>
      (Reaches.follow Looping.step (fun m e => m.state.Runs e)
        [.submit, .post 0 5 true [], .peek, .handle, .ret, .batchDone, .submit, .post 2 1 true [7],
          .peek, .post 2 1 true [8], .handle]
        (Looping.start (Worker.start 8 (BufRing.new 1 1 (by decide) (by decide)) pool 0 0))).map
          (fun m => (m.record.posted.map Cqe.res, m.record.handled.map Cqe.res,
            m.state.worker.thread.bufRing.ring, Cqe.taken m.state.unhandled)))
      = some ([5, 1, 1], [5, 1], [], [1]) := by
    decide +kernel
  obtain ⟨pool, hpool, hfollow⟩ := Option.bind_eq_some_iff.mp hrun
  obtain ⟨m, hreach, hfinal⟩ := Reaches.of_follow _ hfollow
  obtain ⟨hposted, hhandled, hring, htaken⟩ := by
    simpa only [Prod.mk.injEq] using hfinal
  obtain ⟨⟨w, hreach', -, ⟨k, hlags, rfl⟩, -⟩, -⟩ :=
    loop_refines_worker hpool (by decide) (by decide) hreach
  refine ⟨pool, m, _, hpool, hreach, hreach', hposted, hhandled, hring, ?_⟩
  change k.taken ++ m.state.worker.thread.bufRing.ring = [1]
  rw [hlags.taken, htaken, hring]
  rfl

end RunLoop

end Proactor