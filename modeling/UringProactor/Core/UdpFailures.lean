import UringProactor.Core.Inbox
import UringProactor.Core.Outbox

/-!
# Failures of a UDP worker

No event ends a UDP worker: its assertions hold if the kernel writes packets as `liburing` reads
them, and an exception that `get_sqe` throws ends the coroutine that called it, since the promises of
`udp_read_loop` and `udp_write_loop` drop it.  The
worker goes on without the coroutine.  Without the write coroutine every datagram that is submitted
stays in `slot_queue_`; without the read coroutine no `recvmsg` is armed and no packet is received.
-/

namespace Proactor

namespace UdpRing

variable {r : UdpRing} {sqe : UdpSqe}

/-- The number of `recvmsg`s in prepared or submitted SQEs. -/
def recvmsgs (r : UdpRing) : ℕ := (r.sq ++ r.inflight).countP UdpSqe.isRecvmsg

theorem recvmsgs_prep (r : UdpRing) (sqe : UdpSqe) :
  ({ r with sq := r.sq ++ [sqe] } : UdpRing).recvmsgs = r.recvmsgs + sqe.isRecvmsg.toNat
  := by
  cases hsqe : sqe.isRecvmsg <;> simp [recvmsgs, List.countP_append, hsqe]
  omega

theorem recvmsgs_submit (r : UdpRing) :
  r.submit.recvmsgs = r.recvmsgs
  := by
  simp [recvmsgs, submit, List.countP_append, Nat.add_comm]

/-- The last completion of an SQE. -/
theorem recvmsgs_reap {i : ℕ} (h : r.inflight[i]? = some sqe) :
  (r.reap i false).recvmsgs + sqe.isRecvmsg.toNat = r.recvmsgs
  := by
  obtain ⟨hi, rfl⟩ := List.getElem?_eq_some_iff.mp h
  have hcount := (List.getElem_cons_eraseIdx_perm hi).countP_eq UdpSqe.isRecvmsg
  simp only [recvmsgs, reap, List.countP_append, ← hcount, List.countP_cons, Bool.false_eq_true,
    if_false]
  cases r.inflight[i].isRecvmsg <;> simp
  omega

/-- A completion of an SQE that is not a `recvmsg`. -/
theorem recvmsgs_reap_of_not {i : ℕ} {more : Bool} (h : r.inflight[i]? = some sqe)
    (hnot : sqe.isRecvmsg = false) :
  (r.reap i more).recvmsgs = r.recvmsgs
  := by
  cases more with
  | true => rfl
  | false =>
      rw [← recvmsgs_reap h, hnot]
      rfl

theorem recvmsgs_pos {i : ℕ} {fd : Int} (h : r.inflight[i]? = some (.multishotRecvmsg fd)) :
  0 < r.recvmsgs
  := by
  have hreap := recvmsgs_reap h
  simp only [UdpSqe.isRecvmsg, Bool.toNat_true] at hreap
  omega

end UdpRing

namespace UdpWorker

variable {w w' : UdpWorker} {e : UdpEvent} {ok : Bool}

/-! ### Every event has an outcome -/

/-- The events that can come next, by where control is. -/
def Possible (w : UdpWorker) : UdpEvent → Prop
  | .submit => w.ctl = .poll
  | .complete i _ _ _ _ => w.ctl = .batch ∧ i < w.thread.ioRing.inflight.length
  | .batchDone => w.ctl = .batch
  | .ret => w.ctl = .onRead ∨ w.ctl = .onWrite
  | .app _ => True

instance (w : UdpWorker) : ∀ e, Decidable (w.Possible e)
  | .submit => inferInstanceAs (Decidable (_ = _))
  | .complete _ _ _ _ _ => inferInstanceAs (Decidable (_ ∧ _))
  | .batchDone => inferInstanceAs (Decidable (_ = _))
  | .ret => inferInstanceAs (Decidable (_ ∨ _))
  | .app _ => inferInstanceAs (Decidable True)

/-- `complete` of a token returns. -/
theorem Inv.complete_some (h : Inv w) {i idx : ℕ} {res : Int} {more : Bool} {data : List UInt8}
    (hctl : w.ctl = .batch) (hi : i < w.thread.ioRing.inflight.length)
    (hadmits : w.Admits (.complete i res more idx data)) :
  ∃ r, w.stepResult (.complete i res more idx data) = some r
  := by
  have hsqe := List.getElem?_eq_getElem hi
  cases hop : w.thread.ioRing.inflight[i] with
  | readWakeup =>
      rw [hop] at hsqe
      rw [stepResult, if_pos hctl, hsqe]
      exact ⟨_, rfl⟩
  | multishotRecvmsg fd =>
      rw [hop] at hsqe
      rw [stepResult, if_pos hctl, hsqe, Option.bind_some, complete]
      split <;> exact ⟨_, rfl⟩
  | sendmsg fd slot =>
      rw [hop] at hsqe
      obtain rfl : more = false := hadmits _ hsqe
      obtain ⟨p, m, hstep, -⟩ := h.complete_send res idx data hctl hsqe
      exact ⟨_, hstep⟩

/-- A `peek` is given what `io_uring_recvmsg_validate` computes for the first queued buffer. -/
def Validates (ops : RecvmsgOps) (w : UdpWorker) : UdpEvent → Prop
  | .app (.peek valid) => valid = (w.channel.readBuf.peek ops w.thread.bufRing).isSome
  | _ => True

instance (ops : RecvmsgOps) (w : UdpWorker) : ∀ e, Decidable (w.Validates ops e)
  | .app (.peek _) => inferInstanceAs (Decidable (_ = _))
  | .app (.append _) | .app (.prepend _) | .app (.submit _) | .app (.submitIp _) | .app .consume
  | .submit | .complete .. | .batchDone | .ret => inferInstanceAs (Decidable True)

/-- The event is then `ReadBufDgram::peek`. -/
theorem stepResult_peek {ops : RecvmsgOps} {valid : Bool}
    (h : w.Validates ops (.app (.peek valid))) :
  w.stepResult (.app (.peek valid))
    = (w.channel.readBuf.peek ops w.thread.bufRing).map (fun msg => (msg.isSome, w))
  := by
  rw [Validates] at h
  rw [stepResult, UdpChannel.call]
  by_cases hempty : w.channel.readBuf.queue.head = w.channel.readBuf.queue.tail
  · rw [if_pos hempty, ReadBufDgram.peek, if_pos hempty]
    rfl
  · rw [ReadBufDgram.peek, if_neg hempty] at h
    rw [if_neg hempty, ReadBufDgram.peek, if_neg hempty]
    dsimp only at h ⊢
    generalize DgramMsg.new ops _ _ _ _ = msg at h ⊢
    subst h
    cases msg <;> rfl

/-- A call of the application but `peek` returns. -/
theorem Inv.call_some (h : Inv w) {op : UdpOp} (hadmits : w.Admits (.app op))
    (hop : ∀ valid, op ≠ .peek valid) :
  ∃ r, w.stepResult (.app op) = some r
  := by
  cases op with
  | append data =>
      obtain ⟨ok, b, p, happend, -⟩ := WriteBufBase.append_spec h.sound.base data
      rw [stepResult, UdpChannel.call, happend]
      exact ⟨_, rfl⟩
  | prepend data =>
      obtain ⟨ok, b, p, hprepend, -⟩ := WriteBufBase.prepend_spec h.sound.base data
      rw [stepResult, UdpChannel.call, hprepend]
      exact ⟨_, rfl⟩
  | submit addr =>
      obtain ⟨_, _, _, hsubmit, -⟩ := h.submits (.inl rfl) hadmits
      exact ⟨_, hsubmit⟩
  | submitIp addr =>
      obtain ⟨_, _, _, hsubmit, -⟩ := h.submits (.inr rfl) hadmits
      exact ⟨_, hsubmit⟩
  | peek valid => apply absurd rfl (hop valid)
  | consume => exact ⟨_, rfl⟩

/-- Every event but `peek` that can come next has an outcome. -/
theorem Inv.step_some (h : Inv w) (hpossible : w.Possible e) (hadmits : w.Admits e)
    (he : ∀ valid, e ≠ .app (.peek valid)) :
  ∃ r, w.stepResult e = some r
  := by
  cases e with
  | submit => exact ⟨_, if_pos hpossible⟩
  | batchDone => exact ⟨_, if_pos hpossible⟩
  | complete i res more idx data => apply h.complete_some hpossible.1 hpossible.2 hadmits
  | app op =>
      apply h.call_some hadmits
      rintro valid rfl
      apply he valid rfl
  | ret =>
      rw [stepResult, afterCallback]
      rcases hpossible with hctl | hctl <;> rw [hctl] <;> exact ⟨_, rfl⟩

/-! ### The write coroutine has ended -/

/-- The write coroutine does not come back, and no slot is given an SQE. -/
theorem Steps.dead (hsteps : Steps w e ok w') (hdead : w.channel.writeCo = .finished) :
  w'.channel.writeCo = .finished
    ∧ w'.thread.ioRing.sends.length ≤ w.thread.ioRing.sends.length
  := by
  cases hsteps with
  | quiet _ hq => exact ⟨hq.writeCo.trans hdead, hq.ring.sends.length_eq.le⟩
  | append => exact ⟨hdead, le_rfl⟩
  | prepend => exact ⟨hdead, le_rfl⟩
  | submits _ hsubmits =>
      cases hsubmits with
      | refused => exact ⟨hdead, le_rfl⟩
      | accepted hidle => cases hidle.writeCo.symm.trans hdead
      | stuck => exact ⟨rfl, le_rfl⟩
  | completed hsqe =>
      use hdead
      rw [(UdpRing.sends_reap hsqe).length_eq, List.length_append]
      apply Nat.le_add_left

theorem length_outbox (r : UdpRing) :
  r.outbox.length = r.sends.length
  := (UdpRing.outbox_perm r).length_eq

namespace Mailing

variable {m m' m'' : Mailing}

/-- From `m` on, with the write coroutine ended, the datagrams submitted are all in `slot_queue_`,
behind those that were there, and only datagrams that were in the outbox were sent. -/
structure Silent (m m' : Mailing) : Prop where
  inv : m'.Inv
  dead : m'.state.channel.writeCo = .finished
  stuck : ∃ stuck, m'.record.submitted = m.record.submitted ++ stuck
    ∧ m'.state.channel.writeBuf.slotList.map m'.state.datagram
      = m.state.channel.writeBuf.slotList.map m.state.datagram ++ stuck
  sent : ∃ sent, m'.record.completed = m.record.completed ++ sent
    ∧ (sent ++ m'.state.thread.ioRing.outbox.map m'.state.datagram).Perm
      (m.state.thread.ioRing.outbox.map m.state.datagram)

theorem Silent.refl (h : m.Inv) (hdead : m.state.channel.writeCo = .finished) :
  Silent m m
  := by
  refine ⟨h, hdead, ⟨[], ?_, ?_⟩, ⟨[], ?_, .refl _⟩⟩ <;> rw [List.append_nil]

theorem Silent.trans (h : Silent m m') (h' : Silent m' m'') :
  Silent m m''
  := by
  obtain ⟨stuck, hsubmitted, hqueue⟩ := h.stuck
  obtain ⟨stuck', hsubmitted', hqueue'⟩ := h'.stuck
  obtain ⟨sent, hcompleted, houtbox⟩ := h.sent
  obtain ⟨sent', hcompleted', houtbox'⟩ := h'.sent
  refine ⟨h'.inv, h'.dead, ⟨stuck ++ stuck', ?_, ?_⟩, ⟨sent ++ sent', ?_, ?_⟩⟩
  · rw [hsubmitted', hsubmitted, List.append_assoc]
  · rw [hqueue', hqueue, List.append_assoc]
  · rw [hcompleted', hcompleted, List.append_assoc]
  · rw [List.append_assoc]
    apply (houtbox'.append_left sent).trans houtbox

/-- One step with the write coroutine ended. -/
theorem Inv.silent (h : m.Inv) (hdead : m.state.channel.writeCo = .finished)
    (hadmits : m.state.Admits e) (hbounded : m.state.Bounded e) (hstep : m.step e = some m') :
  Silent m m'
  := by
  have hinv := h.step hadmits hbounded hstep
  obtain ⟨ok, hresult, hrecord⟩ := Monitored.step_eq_some hstep
  obtain ⟨hdead', hlength⟩ := (h.inv.step_cases hadmits hresult).dead hdead
  rw [← length_outbox, ← length_outbox] at hlength
  obtain ⟨-, hkept⟩ := h.inv.seals_step h.seals hadmits hresult
  have hbuilt : m.state.pendingContent = m.record.built := h.built
  have hmails := h.inv.mails hadmits hresult
  have hsame : ∀ l : List ℕ, (∀ i ∈ l, i ∈ m.state.posted ∧ i ∈ m'.state.posted) →
      l.map m'.state.datagram = l.map m.state.datagram :=
    fun l hl => List.map_congr_left (fun i hi => hkept i (hl i hi).1 (hl i hi).2)
  have hsubmitted := congrArg OutboxRecord.submitted hrecord
  have hcompleted := congrArg OutboxRecord.completed hrecord
  dsimp only [OutboxRecord.observe] at hsubmitted hcompleted
  refine ⟨hinv, hdead', ⟨(e.recipient? ok).toList.map (fun addr => (addr, m.record.built)),
    hsubmitted, ?_⟩, ⟨(m.state.sentSlot? e).toList.map m.state.datagram, hcompleted, ?_⟩⟩
  · cases hmails with
    | rests hrecipient _ hqueue houtbox =>
        rw [hrecipient, hqueue, hsame _ (by grind -linarith [posted])]
        simp
    | posts hrecipient _ hslots _ hdatagram =>
        rcases hslots with ⟨-, houtbox⟩ | ⟨hqueue, houtbox⟩
        · -- The outbox does not grow.
          rw [houtbox, List.length_append] at hlength
          simp at hlength
        · rw [hrecipient, hqueue, List.map_append, hsame _ (by grind -linarith [posted]),
            List.map_singleton, hdatagram, hbuilt]
          rfl
    | sends hrecipient _ hqueue hbefore hafter =>
        rw [hrecipient, hqueue, hsame _ (by grind -linarith [posted])]
        simp
  · cases hmails with
    | rests _ hsent hqueue houtbox =>
        rw [hsent, houtbox, hsame _ (by grind -linarith [posted])]
        apply List.Perm.refl
    | posts _ hsent hslots =>
        rcases hslots with ⟨-, houtbox⟩ | ⟨hqueue, houtbox⟩
        · rw [houtbox, List.length_append] at hlength
          simp at hlength
        · rw [hsent, houtbox, hsame _ (by grind -linarith [posted])]
          apply List.Perm.refl
    | sends _ hsent hqueue hbefore hafter =>
        rw [hsent, hsame _ (by grind -linarith [posted]), hafter, hbefore, List.map_append,
          List.map_append, List.map_cons, Option.toList_some, List.map_singleton,
          List.singleton_append]
        apply List.perm_middle.symm

end Mailing

/-! ### The read coroutine has ended -/

/-- One `recvmsg` is outstanding until the read coroutine ends. -/
def Listens (w : UdpWorker) : Prop :=
  w.thread.ioRing.recvmsgs = if w.channel.readCo = .finished then 0 else 1

/-- A step as the read coroutine sees it: the `recvmsg` stays armed or is armed again, or the read
coroutine ends. -/
inductive Arms (w w' : UdpWorker) : Prop where
  | same (hrecvmsgs : w'.thread.ioRing.recvmsgs = w.thread.ioRing.recvmsgs)
      (hco : w'.channel.readCo = .finished ↔ w.channel.readCo = .finished)
  | ended (hrecvmsgs : w'.thread.ioRing.recvmsgs + 1 = w.thread.ioRing.recvmsgs)
      (hbefore : w.channel.readCo ≠ .finished) (hafter : w'.channel.readCo = .finished)

theorem Listens.step (h : Listens w) (harms : Arms w w') :
  Listens w'
  := by
  rw [Listens] at h ⊢
  cases harms with
  | same hrecvmsgs hco =>
      simp only [hrecvmsgs, hco]
      apply h
  | ended hrecvmsgs hbefore hafter =>
      rw [if_neg hbefore] at h
      rw [if_pos hafter]
      omega

/-- A completion of the `recvmsg`. -/
theorem Listens.recvmsg (h : Listens w) (hawake : Awake w) {i idx : ℕ} {res : Int} {more : Bool}
    {data : List UInt8} {fd : Int} (hctl : w.ctl = .batch)
    (hsqe : w.thread.ioRing.inflight[i]? = some (.multishotRecvmsg fd))
    (hresult : w.stepResult (.complete i res more idx data) = some (ok, w')) :
  Arms w w'
  := by
  have hpos := UdpRing.recvmsgs_pos hsqe
  have hreap := UdpRing.recvmsgs_reap hsqe
  simp only [UdpSqe.isRecvmsg, Bool.toNat_true] at hreap
  have hfinished : w.channel.readCo ≠ .finished := by
    intro hco
    rw [Listens, if_pos hco] at h
    omega
  have hawaiting : w.channel.readCo = .awaiting := by
    cases hco : w.channel.readCo with
    | unstarted => cases hawake.started hco
    | awaiting => rfl
    | running => cases hctl.symm.trans (hawake.running.mp hco)
    | finished => cases hfinished hco
  obtain ⟨hring, -, -⟩ := kernel_spec w.thread i (.multishotRecvmsg fd) res more idx data
  rw [stepResult, if_pos hctl, hsqe, Option.bind_some, complete, if_pos hawaiting] at hresult
  cases hresult
  cases hrearm : UdpChannel.rearmRecvmsg (w.thread.ioRing.reap i more) w.channel.fd more with
  | none =>
      cases more with
      | true => cases hrearm
      | false =>
          simp only [hring, hrearm]
          exact .ended ((congrArg (·.fail.recvmsgs + 1) hring).trans hreap) hfinished rfl
  | some r =>
      have hrecvmsgs : r.recvmsgs = w.thread.ioRing.recvmsgs := by
        cases more with
        | true =>
            cases hrearm
            rfl
        | false =>
            rw [UdpChannel.rearmRecvmsg, if_neg Bool.false_ne_true, UdpRing.prep] at hrearm
            split at hrearm
            case isTrue =>
              cases hrearm
              rw [UdpRing.recvmsgs_prep]
              apply hreap
            case isFalse => cases hrearm
      simp only [hring, hrearm]
      split
      case isTrue => exact .same hrecvmsgs Iff.rfl
      case isFalse => exact .same hrecvmsgs (by simp [hfinished])

/-- Every step that can happen is one of these. -/
theorem Listens.arms (h : Listens w) (hinv : Inv w) (hawake : Awake w) (hadmits : w.Admits e)
    (hresult : w.stepResult e = some (ok, w')) :
  Arms w w'
  := by
  cases e with
  | submit =>
      rw [stepResult] at hresult
      split at hresult
      case isTrue =>
        cases hresult
        exact .same (UdpRing.recvmsgs_submit _) Iff.rfl
      case isFalse => cases hresult
  | batchDone =>
      rw [stepResult] at hresult
      split at hresult
      case isTrue =>
        cases hresult
        exact .same rfl Iff.rfl
      case isFalse => cases hresult
  | ret =>
      obtain ⟨w₁, hafter, heq⟩ := Option.map_eq_some_iff.mp hresult
      cases heq
      rw [afterCallback] at hafter
      split at hafter
      case h_1 => cases hafter
      case h_2 => cases hafter
      case h_3 hctl =>
        cases hafter
        refine .same rfl ?_
        rw [hawake.running.mpr hctl]
        simp
      case h_4 =>
        cases hafter
        exact .same rfl Iff.rfl
  | complete i res more idx data =>
      by_cases hctl : w.ctl = .batch
      · cases hsqe : w.thread.ioRing.inflight[i]? with
        | none =>
            rw [stepResult, if_pos hctl, hsqe] at hresult
            cases hresult
        | some sqe =>
            cases sqe with
            | multishotRecvmsg fd => apply h.recvmsg hawake hctl hsqe hresult
            | readWakeup =>
                rw [stepResult, if_pos hctl, hsqe] at hresult
                cases hresult
                exact .same (UdpRing.recvmsgs_reap_of_not hsqe rfl) Iff.rfl
            | sendmsg fd slot =>
                obtain rfl : more = false := hadmits _ hsqe
                obtain ⟨p, m, heq, -⟩ := hinv.complete_send res idx data hctl hsqe
                rw [heq] at hresult
                cases hresult
                exact .same (UdpRing.recvmsgs_reap_of_not hsqe rfl) Iff.rfl
      · rw [stepResult, if_neg hctl] at hresult
        cases hresult
  | app op =>
      cases hinv.step_cases hadmits hresult with
      | quiet he =>
          cases op with
          | peek valid =>
              cases eq_of_peek hresult
              exact .same rfl Iff.rfl
          | consume =>
              cases hresult
              exact .same rfl Iff.rfl
          | _ => cases he
      | append => exact .same rfl Iff.rfl
      | prepend => exact .same rfl Iff.rfl
      | submits _ hsubmits =>
          cases hsubmits with
          | refused => exact .same rfl Iff.rfl
          | accepted => exact .same (UdpRing.recvmsgs_prep _ _) Iff.rfl
          | stuck => exact .same rfl Iff.rfl

namespace Receiving

variable {m m' m'' : Receiving}

/-- From `m` on, with the read coroutine ended, no packet was received, and those in the read buffer
are still there or were taken. -/
structure Deaf (m m' : Receiving) : Prop where
  inv : m'.Inv
  listens : m'.state.Listens
  ended : m'.state.channel.readCo = .finished
  received : m'.record.received = m.record.received
  kept : m'.record.taken ++ m'.state.unreadPackets = m.record.taken ++ m.state.unreadPackets

/-- One step with the read coroutine ended. -/
theorem Deaf.step (h : Deaf m m') (hadmits : m'.state.Admits e) (hstep : m'.step e = some m'') :
  Deaf m m''
  := by
  obtain ⟨hinv, -⟩ := h.inv.step hadmits hstep
  obtain ⟨ok, hresult, hrecord⟩ := Monitored.step_eq_some hstep
  have hlistens := h.listens
  rw [Listens, if_pos h.ended] at hlistens
  have hsqe : ∀ (i : ℕ) (fd : Int),
      m'.state.thread.ioRing.inflight[i]? ≠ some (UdpSqe.multishotRecvmsg fd) := by
    intro i fd hsqe
    have := UdpRing.recvmsgs_pos hsqe
    omega
  have harms := h.listens.arms h.inv.inv h.inv.awake hadmits hresult
  have hended : m''.state.channel.readCo = .finished := by
    cases harms with
    | same _ hco => apply hco.mpr h.ended
    | ended _ hbefore => cases hbefore h.ended
  have harrives : m'.state.arrives e = none := by
    cases (h.inv.inv.reads h.inv.awake hadmits hresult).1 with
    | rests _ harrives => apply harrives
    | received hrecv => cases hsqe _ _ hrecv
    | lost hrecv => cases hsqe _ _ hrecv
    | consumed => rfl
  obtain ⟨hreads, -⟩ := h.inv.inv.reads h.inv.awake hadmits hresult
  obtain ⟨kept, hcarries⟩ := hreads.carries h.inv.receives.sound hadmits
  have hkept : kept = [] := by
    apply List.sublist_nil.mp
    simpa only [harrives, Option.toList_none] using hcarries.arrived
  refine ⟨hinv, h.listens.step harms, hended, ?_, ?_⟩
  · rw [hrecord, ← h.received, InboxRecord.observe, harrives]
    apply List.append_nil
  · rw [← h.kept, hrecord, InboxRecord.observe, List.append_assoc, hcarries.unread, hkept,
      List.append_nil]

end Receiving

section

variable {depth : ℕ} {fd : Int} {ringBits ringBufSize : ℕ} {hringPos : 0 < ringBufSize}
  {halloc : 2 ^ ringBits * ringBufSize < 2 ^ 31} {bits bufSize : ℕ} {hbits : bits ≤ 30}
  {hpos : 0 < bufSize} {hlt : bufSize < 2 ^ 31} {pool : BufPool} {slotBits maxIov : ℕ}
  {hslot : slotBits ≤ 30} {hmax : 0 < maxIov} {capBits : Fin 31}

/-- The write coroutine fails silently and for good.  In every run that prepends only data whose
size does not wrap when it is rounded to blocks (`Bounded`), once `io_uring_get_sqe` has returned
null in `udp_write_loop`, no later event resumes the coroutine: only datagrams that had an SQE are
sent, while every datagram for which `submit` returns `true` stays in `slot_queue_`, behind those
that were there, until the queue is full. -/
theorem failed_write_loop_sends_nothing
    (hpool : BufPool.new bits bufSize hbits hpos hlt = some pool)
    (hbytes : 2 ^ bits * bufSize < 2 ^ 31) {m m' : Mailing}
    (h : Reaches Mailing.step (fun m e => m.state.Admits e ∧ m.state.Bounded e)
      (Mailing.start (start depth fd (BufRing.new ringBits ringBufSize hringPos halloc) pool
        (.new slotBits maxIov hslot hmax) capBits)) m)
    (hended : m.state.channel.writeCo = .finished)
    (h' : Reaches Mailing.step (fun m e => m.state.Admits e ∧ m.state.Bounded e) m m') :
  m'.state.channel.writeCo = .finished
    ∧ (∃ stuck, m'.record.submitted = m.record.submitted ++ stuck
      ∧ m'.state.channel.writeBuf.slotList.map m'.state.datagram
        = m.state.channel.writeBuf.slotList.map m.state.datagram ++ stuck
      ∧ m.state.channel.writeBuf.slotList.length + stuck.length
        ≤ m'.state.channel.writeBuf.capacity)
    ∧ ∃ sent, m'.record.completed = m.record.completed ++ sent
      ∧ (sent ++ m'.state.thread.ioRing.outbox.map m'.state.datagram).Perm
        (m.state.thread.ioRing.outbox.map m.state.datagram)
  := by
  have hinv : m.Inv := by
    apply h.invariant (Mailing.inv_start hpool hbytes)
    rintro m m' e hinv ⟨hadmits, hbounded⟩ hstep
    apply hinv.step hadmits hbounded hstep
  have hsilent : Mailing.Silent m m' := by
    apply h'.invariant (.refl hinv hended)
    rintro m₁ m₂ e hsilent ⟨hadmits, hbounded⟩ hstep
    apply hsilent.trans (hsilent.inv.silent hsilent.dead hadmits hbounded hstep)
  obtain ⟨stuck, hsubmitted, hqueue⟩ := hsilent.stuck
  refine ⟨hsilent.dead, ⟨stuck, hsubmitted, hqueue, ?_⟩, hsilent.sent⟩
  have hlength := congrArg List.length hqueue
  have hle := hsilent.inv.inv.sound.queue_le
  rw [← Circular.length_toList (k := m'.state.channel.writeBuf.bits)] at hle
  rw [List.length_append, List.length_map, List.length_map] at hlength
  rw [← hlength]
  apply hle

/-- The first `submit` ends the write coroutine, and a second datagram is stuck behind the first. -/
theorem failed_write_loop_sends_nothing_two :
  ∃ pool m m', BufPool.new 1 1 (by decide) (by decide) (by decide) = some pool
    ∧ Reaches Mailing.step (fun m e => m.state.Admits e ∧ m.state.Bounded e)
      (Mailing.start (start 2 5 (BufRing.new 0 40 (by decide) (by decide)) pool
        (.new 1 2 (by decide) (by decide)) 1)) m
    ∧ Reaches Mailing.step (fun m e => m.state.Admits e ∧ m.state.Bounded e) m m'
    ∧ m'.record.submitted = [([7], [1]), ([8], [2])]
    ∧ m'.state.channel.writeCo = .finished
  := by
  have hrun : (BufPool.new 1 1 (by decide) (by decide) (by decide)).bind (fun pool =>
      (Reaches.follow Mailing.step (fun m e => m.state.Admits e ∧ m.state.Bounded e)
        [.app (.append [1]), .app (.submit [7])]
        (Mailing.start (start 2 5 (BufRing.new 0 40 (by decide) (by decide)) pool
          (.new 1 2 (by decide) (by decide)) 1))).bind
        (fun m => (Reaches.follow Mailing.step (fun m e => m.state.Admits e ∧ m.state.Bounded e)
          [.submit, .app (.append [2]), .app (.submitIp [8])] m).map
          (fun m' => (m.state.channel.writeCo, m'.record.submitted))))
      = some (.finished, [([7], [1]), ([8], [2])]) := by
    decide +kernel
  obtain ⟨pool, hpool, hrun⟩ := Option.bind_eq_some_iff.mp hrun
  obtain ⟨m, hfollow, hrun⟩ := Option.bind_eq_some_iff.mp hrun
  obtain ⟨m', hreach', hfinal⟩ := Reaches.of_follow _ hrun
  obtain ⟨m₁, hreach, rfl⟩ := Reaches.of_follow (f := id) _ (Option.map_id'.trans hfollow)
  obtain ⟨hended, hsubmitted⟩ := Prod.mk.inj hfinal
  use pool, m₁, m', hpool, hreach, hreach', hsubmitted
  apply (failed_write_loop_sends_nothing hpool (by decide) hreach hended hreach').1

/-- The read coroutine fails silently and for good.  In every run exactly one `recvmsg` is
outstanding until `io_uring_get_sqe` returns null in `udp_read_loop`; after that, none ever is:
`on_read` is not called, no packet is received, and those in the read buffer stay there until
`consume` takes them. -/
theorem failed_read_loop_receives_nothing
    (hpool : BufPool.new bits bufSize hbits hpos hlt = some pool)
    (hbytes : 2 ^ bits * bufSize < 2 ^ 31) {m : Receiving}
    (h : Reaches Receiving.step (fun m e => m.state.Admits e)
      (Receiving.start (start depth fd (BufRing.new ringBits ringBufSize hringPos halloc) pool
        (.new slotBits maxIov hslot hmax) capBits)) m) :
  m.state.thread.ioRing.recvmsgs = (if m.state.channel.readCo = .finished then 0 else 1)
    ∧ (m.state.channel.readCo = .finished →
      ∀ m', Reaches Receiving.step (fun m e => m.state.Admits e) m m' →
        m'.state.channel.readCo = .finished ∧ m'.state.ctl ≠ .onRead
        ∧ m'.record.received = m.record.received
        ∧ m'.record.taken ++ m'.state.unreadPackets = m.record.taken ++ m.state.unreadPackets)
  := by
  have hinv : m.Inv ∧ m.state.Listens := by
    apply h.invariant (I := fun m => m.Inv ∧ m.state.Listens)
    · use Receiving.inv_start hpool hbytes
      rfl
    · rintro m m' e ⟨hinv, hlistens⟩ hadmits hstep
      obtain ⟨ok, hresult, -⟩ := Monitored.step_eq_some hstep
      use (hinv.step hadmits hstep).1
      apply hlistens.step (hlistens.arms hinv.inv hinv.awake hadmits hresult)
  obtain ⟨hinv, hlistens⟩ := hinv
  use hlistens
  intro hended m' h'
  have hdeaf : Receiving.Deaf m m' := by
    apply h'.invariant (I := Receiving.Deaf m) ⟨hinv, hlistens, hended, rfl, rfl⟩
    intro m₁ m₂ e hdeaf hadmits hstep
    apply hdeaf.step hadmits hstep
  refine ⟨hdeaf.ended, ?_, hdeaf.received, hdeaf.kept⟩
  intro hctl
  cases hdeaf.ended.symm.trans (hdeaf.inv.awake.running.mpr hctl)

/-- With a full submission queue the last completion of the `recvmsg` ends the read coroutine. -/
theorem failed_read_loop_receives_nothing_full :
  ∃ pool m, BufPool.new 1 1 (by decide) (by decide) (by decide) = some pool
    ∧ Reaches Receiving.step (fun m e => m.state.Admits e)
      (Receiving.start (start 2 5 (BufRing.new 0 40 (by decide) (by decide)) pool
        (.new 1 2 (by decide) (by decide)) 1)) m
    ∧ m.state.channel.readCo = .finished ∧ m.state.thread.ioRing.recvmsgs = 0
  := by
  have hrun : (BufPool.new 1 1 (by decide) (by decide) (by decide)).bind (fun pool =>
      (Reaches.follow Receiving.step (fun m e => m.state.Admits e)
        [.submit, .app (.append [1]), .app (.submit [7]), .app (.append [2]), .app (.submit [8]),
          .complete 0 (-105) false 0 []]
        (Receiving.start (start 2 5 (BufRing.new 0 40 (by decide) (by decide)) pool
          (.new 1 2 (by decide) (by decide)) 1))).map
        (fun m => decide (m.state.channel.readCo = .finished)))
      = some true := by
    decide +kernel
  obtain ⟨pool, hpool, hfollow⟩ := Option.bind_eq_some_iff.mp hrun
  obtain ⟨m, hreach, hended⟩ := Reaches.exists_of_follow _ hfollow
  use pool, m, hpool, hreach, hended
  have hrecvmsgs := (failed_read_loop_receives_nothing hpool (by decide) hreach).1
  rw [if_pos hended] at hrecvmsgs
  apply hrecvmsgs

end

end UdpWorker

end Proactor
