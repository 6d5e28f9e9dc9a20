import UringProactor.Core.UdpThread
import UringProactor.Net.UdpSubmit

/-!
# What a step of the UDP worker does

In every state of a run the write buffer is sound, with the slots of the outstanding SQEs in
flight.  As long as `io_uring_get_sqe` has succeeded, the coroutines of the channel are alive,
the write coroutine waits for a notification whenever the application or the loop runs, and
`slot_queue_` is empty.  A step is quiet, that is, it leaves the blocks and slots where they
are, or it is a call of `append`, `prepend` or `submit`, or the completion of a `sendmsg`.
-/

namespace Proactor

namespace UdpWorker

open WriteBufDgram

variable {w w' : UdpWorker}

/-- `io_uring_get_sqe` does not return null in the step. -/
def GetsSqe (w : UdpWorker) (e : UdpEvent) : Prop :=
  ∀ w' ∈ w.step e, w'.thread.ioRing.failed = false

instance (w : UdpWorker) (e : UdpEvent) : Decidable (w.GetsSqe e) :=
  inferInstanceAs (Decidable (∀ w' ∈ w.step e, w'.thread.ioRing.failed = false))

/-- What holds in every state of a run. -/
structure Inv (w : UdpWorker) : Prop where
  sound : Sound w.channel.writeBuf w.thread.bufPool w.thread.msghdrPool w.thread.ioRing.sends
  ready : w.channel.Ready w.thread
  reading : w.thread.ioRing.failed = false → w.channel.readCo ≠ .finished
  tokens : ∀ i ∈ w.thread.ioRing.sends, (w.thread.msghdrPool.slots i).channel = true

end UdpWorker

/-! ### The steps -/

namespace UdpRing

variable {r r' r'' : UdpRing}

/-- The slots that were given an SQE between two states of the ring. -/
def prepared (r r' : UdpRing) : List ℕ :=
  (r'.sq.drop r.sq.length).filterMap UdpSqe.slot?

theorem prepared_of_eq (h : r'.sq = r.sq) :
  r.prepared r' = []
  := by
  rw [prepared, h, List.drop_length]
  rfl

theorem prepared_prep (r : UdpRing) (sqe : UdpSqe) :
  r.prepared { r with sq := r.sq ++ [sqe] } = sqe.slot?.toList
  := by
  rw [prepared, List.drop_left]
  cases sqe <;> rfl

/-- The ring has the same slots in flight, no slot was given an SQE, and no failure is
forgotten. -/
structure Rests (r r' : UdpRing) : Prop where
  sends : r'.sends.Perm r.sends
  prepared : r.prepared r' = []
  failed : r.failed = true → r'.failed = true

theorem Rests.refl :
  Rests r r
  := ⟨.refl _, prepared_of_eq rfl, id⟩

theorem Rests.submit :
  Rests r r.submit
  := by
  refine ⟨sends_submit r, ?_, id⟩
  simp [UdpRing.prepared, UdpRing.submit]

/-- A completion of an SQE that is not a `sendmsg`. -/
theorem Rests.reap {i : ℕ} {sqe : UdpSqe} {more : Bool} (hsqe : r.inflight[i]? = some sqe)
    (hslot : sqe.slot? = none) :
  Rests r (r.reap i more)
  := by
  cases more with
  | true => exact .refl
  | false =>
      have hperm := sends_reap hsqe
      rw [hslot] at hperm
      exact ⟨hperm.symm, prepared_of_eq rfl, id⟩

theorem sq_reap (r : UdpRing) (i : ℕ) (more : Bool) :
  (r.reap i more).sq = r.sq
  := by
  cases more <;> rfl

/-- Arming the multishot `recvmsg` again. -/
theorem Rests.rearm (h : Rests r r') (hsq : r'.sq = r.sq) {fd : Int} {more : Bool}
    (hrearm : UdpChannel.rearmRecvmsg r' fd more = some r'') :
  Rests r r''
  := by
  rw [UdpChannel.rearmRecvmsg] at hrearm
  split at hrearm
  case isTrue =>
    cases hrearm
    exact h
  case isFalse =>
    rw [prep] at hrearm
    split at hrearm
    case isTrue =>
      cases hrearm
      refine ⟨(sends_prep r' _).trans h.sends, ?_, h.failed⟩
      rw [UdpRing.prepared, ← hsq]
      exact prepared_prep r' (.multishotRecvmsg fd)
    case isFalse => cases hrearm

end UdpRing

namespace UdpWorker

/-- The step leaves the blocks, the slots and the write coroutine as they are. -/
structure Quiet (w w' : UdpWorker) : Prop where
  writeBuf : w'.channel.writeBuf = w.channel.writeBuf
  notifyToken : w'.channel.notifyToken = w.channel.notifyToken
  writeCo : w'.channel.writeCo = w.channel.writeCo
  bufPool : w'.thread.bufPool = w.thread.bufPool
  msghdrPool : w'.thread.msghdrPool = w.thread.msghdrPool
  ring : w.thread.ioRing.Rests w'.thread.ioRing
  reading : w'.thread.ioRing.failed = false → w.channel.readCo ≠ .finished →
    w'.channel.readCo ≠ .finished

end UdpWorker

/-- The events that are not calls on the write buffer. -/
def UdpEvent.Quiet : UdpEvent → Prop
  | .app (.append _) => False
  | .app (.prepend _) => False
  | .app (.submit _) => False
  | .app (.submitIp _) => False
  | _ => True

namespace UdpWorker

open WriteBufDgram

variable {w w' : UdpWorker}

/-- The steps of a worker, with the result a call returns. -/
inductive Steps (w : UdpWorker) : UdpEvent → Bool → UdpWorker → Prop where
  | quiet {e : UdpEvent} {ok : Bool} {w' : UdpWorker} (he : e.Quiet) (h : Quiet w w') :
      Steps w e ok w'
  | append {data : List UInt8} {ok : Bool} {b : WriteBufBase} {p : BufPool}
      (h : w.channel.writeBuf.append w.thread.bufPool data = some (ok, b, p)) :
      Steps w (.app (.append data)) ok
        { w with
          channel := { w.channel with writeBuf := { w.channel.writeBuf with toWriteBufBase := b } }
          thread := { w.thread with bufPool := p } }
  | prepend {data : List UInt8} {ok : Bool} {b : WriteBufBase} {p : BufPool}
      (h : w.channel.writeBuf.prepend w.thread.bufPool data = some (ok, b, p)) :
      Steps w (.app (.prepend data)) ok
        { w with
          channel := { w.channel with writeBuf := { w.channel.writeBuf with toWriteBufBase := b } }
          thread := { w.thread with bufPool := p } }
  | submits {op : UdpOp} {addr : List UInt8} {ok : Bool} {ch : UdpChannel} {th : UdpThread}
      (hop : op = .submit addr ∨ op = .submitIp addr)
      (h : w.channel.Submits w.thread addr ok ch th) :
      Steps w (.app op) ok { w with channel := ch, thread := th }
  | completed {i : ℕ} {res : Int} {idx : ℕ} {data : List UInt8} {fd : Int} {slot : ℕ}
      {p : BufPool} {m : MsghdrPool}
      (hsqe : w.thread.ioRing.inflight[i]? = some (.sendmsg fd slot))
      (hreturned : w.thread.bufPool.Returned p
        (slotBlocks w.thread.bufPool (w.thread.msghdrPool.slots slot)))
      (hbits : m.bits = w.thread.msghdrPool.bits)
      (hfree : m.freeList = w.thread.msghdrPool.freeList ++ [slot])
      (hslots : ∀ j, j ≠ slot → m.slots j = w.thread.msghdrPool.slots j)
      (hsound : Sound w.channel.writeBuf p m (w.thread.ioRing.reap i false).sends) :
      Steps w (.complete i res false idx data) true
        { w with
          thread := { w.thread with
            ioRing := w.thread.ioRing.reap i false, bufPool := p, msghdrPool := m }
          ctl := .onWrite }

/-- The kernel touches the rings only. -/
theorem kernel_spec (th : UdpThread) (i : ℕ) (sqe : UdpSqe) (res : Int) (more : Bool) (idx : ℕ)
    (data : List UInt8) :
  (kernel th i sqe res more idx data).ioRing = th.ioRing.reap i more
    ∧ (kernel th i sqe res more idx data).bufPool = th.bufPool
    ∧ (kernel th i sqe res more idx data).msghdrPool = th.msghdrPool
  := by
  cases sqe with
  | multishotRecvmsg fd =>
      rw [kernel]
      dsimp only
      split <;> exact ⟨rfl, rfl, rfl⟩
  | _ => exact ⟨rfl, rfl, rfl⟩

/-- Resuming the read coroutine is quiet. -/
theorem quiet_resumeRead {th : UdpThread} {ctl : UdpCtl} (res : Int) (more : Bool) (idx : ℕ)
    (hbufPool : th.bufPool = w.thread.bufPool) (hmsghdrPool : th.msghdrPool = w.thread.msghdrPool)
    (hring : w.thread.ioRing.Rests th.ioRing) (hsq : th.ioRing.sq = w.thread.ioRing.sq) :
  Quiet w ⟨(w.channel.resumeRead th res more idx).1, (w.channel.resumeRead th res more idx).2.1,
    ctl⟩
  := by
  rw [UdpChannel.resumeRead]
  split
  case h_1 =>
    refine ⟨rfl, rfl, rfl, hbufPool, hmsghdrPool, ?_, ?_⟩
    · exact ⟨hring.sends, UdpRing.prepared_of_eq hsq, fun _ => rfl⟩
    · intro hfalse
      cases hfalse
  case h_2 r hr =>
    have hrests := hring.rearm hsq hr
    split
    case isTrue => exact ⟨rfl, rfl, rfl, hbufPool, hmsghdrPool, hrests, fun _ h => h⟩
    case isFalse =>
      refine ⟨rfl, rfl, rfl, hbufPool, hmsghdrPool, hrests, ?_⟩
      intro _ _ hfinished
      cases hfinished

/-- The completion of a `sendmsg` returns, and releases its slot and the blocks of its
datagram. -/
theorem Inv.complete_send (h : Inv w) {i : ℕ} (res : Int) (idx : ℕ) (data : List UInt8)
    {fd : Int} {slot : ℕ} (hctl : w.ctl = .batch)
    (hsqe : w.thread.ioRing.inflight[i]? = some (.sendmsg fd slot)) :
  ∃ p m, w.stepResult (.complete i res false idx data) = some (true,
      { w with
        thread := { w.thread with
          ioRing := w.thread.ioRing.reap i false, bufPool := p, msghdrPool := m }
        ctl := .onWrite })
    ∧ w.thread.bufPool.Returned p
      (slotBlocks w.thread.bufPool (w.thread.msghdrPool.slots slot))
    ∧ m.bits = w.thread.msghdrPool.bits
    ∧ m.freeList = w.thread.msghdrPool.freeList ++ [slot]
    ∧ (∀ j, j ≠ slot → m.slots j = w.thread.msghdrPool.slots j)
    ∧ Sound w.channel.writeBuf p m (w.thread.ioRing.reap i false).sends
  := by
  have hsends := UdpRing.sends_reap hsqe
  have hmem : slot ∈ w.thread.ioRing.sends := hsends.mem_iff.mpr List.mem_cons_self
  obtain ⟨p, m, hrelease, hreleased⟩ := h.sound.releaseSlot hsends
  refine ⟨p, m, ?_, hreleased⟩
  simp only [stepResult, if_pos hctl, hsqe, Option.bind_some, complete, kernel,
    if_pos (h.tokens slot hmem), hrelease, Option.map_some]

/-- The completions. -/
theorem Inv.complete_cases (h : Inv w) {i : ℕ} {res : Int} {more : Bool} {idx : ℕ}
    {data : List UInt8} {sqe : UdpSqe} {ok : Bool} (hctl : w.ctl = .batch)
    (hsqe : w.thread.ioRing.inflight[i]? = some sqe) (hdelivers : w.Delivers sqe res more idx data)
    (hstep : w.stepResult (.complete i res more idx data) = some (ok, w')) :
  Steps w (.complete i res more idx data) ok w'
  := by
  cases sqe with
  | readWakeup =>
      rw [stepResult, if_pos hctl, hsqe] at hstep
      cases hstep
      exact .quiet trivial ⟨rfl, rfl, rfl, rfl, rfl, .reap hsqe rfl, fun _ h => h⟩
  | multishotRecvmsg fd =>
      rw [stepResult, if_pos hctl, hsqe, Option.bind_some, complete] at hstep
      obtain ⟨hring, hbufPool, hmsghdrPool⟩ :=
        kernel_spec w.thread i (.multishotRecvmsg fd) res more idx data
      have hrests : w.thread.ioRing.Rests
          (kernel w.thread i (.multishotRecvmsg fd) res more idx data).ioRing := by
        rw [hring]
        exact .reap hsqe rfl
      have hsq := (congrArg UdpRing.sq hring).trans (UdpRing.sq_reap _ i more)
      dsimp only at hstep
      split at hstep
      case isTrue =>
        cases hstep
        exact .quiet trivial (quiet_resumeRead res more idx hbufPool hmsghdrPool hrests hsq)
      case isFalse =>
        cases hstep
        exact .quiet trivial ⟨rfl, rfl, rfl, hbufPool, hmsghdrPool, hrests, fun _ h => h⟩
  | sendmsg fd slot =>
      obtain rfl : more = false := hdelivers
      obtain ⟨p, m, heq, hr, hbits, hfree, hslots, hs⟩ := h.complete_send res idx data hctl hsqe
      rw [heq] at hstep
      cases hstep
      exact .completed hsqe hr hbits hfree hslots hs

/-- A call of `submit` returns. -/
theorem Inv.submits (h : Inv w) {op : UdpOp} {addr : List UInt8}
    (hop : op = .submit addr ∨ op = .submitIp addr) (haddr : addr.length ≤ sockaddrStorage) :
  ∃ ok ch th, w.stepResult (.app op) = some (ok, { w with channel := ch, thread := th })
    ∧ w.channel.Submits w.thread addr ok ch th
  := by
  obtain rfl | rfl := hop
  · obtain ⟨ok, ch, th, hsubmit, hsubmits⟩ := h.ready.submit_submits h.sound haddr
    refine ⟨ok, ch, th, ?_, hsubmits⟩
    rw [stepResult, UdpChannel.call, hsubmit]
    rfl
  · obtain ⟨ok, ch, th, hsubmit, hsubmits⟩ := h.ready.submitIp_submits h.sound haddr
    refine ⟨ok, ch, th, ?_, hsubmits⟩
    rw [stepResult, UdpChannel.call, hsubmit]
    rfl

/-- Every step of a worker that can happen is one of these. -/
theorem Inv.step_cases (h : Inv w) {e : UdpEvent} {ok : Bool} (hadmits : w.Admits e)
    (hstep : w.stepResult e = some (ok, w')) :
  Steps w e ok w'
  := by
  cases e with
  | submit =>
      rw [stepResult] at hstep
      split at hstep
      case isTrue =>
        cases hstep
        exact .quiet trivial ⟨rfl, rfl, rfl, rfl, rfl, .submit, fun _ h => h⟩
      case isFalse => cases hstep
  | complete i res more idx data =>
      by_cases hctl : w.ctl = .batch
      · cases hsqe : w.thread.ioRing.inflight[i]? with
        | none =>
            rw [stepResult, if_pos hctl, hsqe] at hstep
            cases hstep
        | some sqe => exact h.complete_cases hctl hsqe (hadmits sqe hsqe) hstep
      · rw [stepResult, if_neg hctl] at hstep
        cases hstep
  | batchDone =>
      rw [stepResult] at hstep
      split at hstep
      case isTrue =>
        cases hstep
        exact .quiet trivial ⟨rfl, rfl, rfl, rfl, rfl, .refl, fun _ h => h⟩
      case isFalse => cases hstep
  | ret =>
      obtain ⟨w'', hafter, heq⟩ := Option.map_eq_some_iff.mp hstep
      cases heq
      rw [afterCallback] at hafter
      split at hafter
      case h_1 => cases hafter
      case h_2 => cases hafter
      case h_3 =>
        cases hafter
        refine .quiet trivial ⟨rfl, rfl, rfl, rfl, rfl, .refl, ?_⟩
        intro _ _ hfinished
        cases hfinished
      case h_4 =>
        cases hafter
        exact .quiet trivial ⟨rfl, rfl, rfl, rfl, rfl, .refl, fun _ h => h⟩
  | app op =>
      cases op with
      | append data =>
          obtain ⟨⟨ok', ch, th⟩, hcall, heq⟩ := Option.map_eq_some_iff.mp hstep
          cases heq
          obtain ⟨⟨ok'', b, p⟩, happend, heq⟩ := Option.map_eq_some_iff.mp hcall
          cases heq
          exact .append happend
      | prepend data =>
          obtain ⟨⟨ok', ch, th⟩, hcall, heq⟩ := Option.map_eq_some_iff.mp hstep
          cases heq
          obtain ⟨⟨ok'', b, p⟩, hprepend, heq⟩ := Option.map_eq_some_iff.mp hcall
          cases heq
          exact .prepend hprepend
      | submit addr =>
          obtain ⟨_, _, _, hsubmit, hsubmits⟩ := h.submits (.inl rfl) hadmits
          rw [hsubmit] at hstep
          cases hstep
          exact .submits (.inl rfl) hsubmits
      | submitIp addr =>
          obtain ⟨_, _, _, hsubmit, hsubmits⟩ := h.submits (.inr rfl) hadmits
          rw [hsubmit] at hstep
          cases hstep
          exact .submits (.inr rfl) hsubmits
      | peek valid =>
          cases eq_of_peek hstep
          exact .quiet trivial ⟨rfl, rfl, rfl, rfl, rfl, .refl, fun _ h => h⟩
      | consume =>
          cases hstep
          exact .quiet trivial ⟨rfl, rfl, rfl, rfl, rfl, .refl, fun _ h => h⟩

/-! ### The invariant -/

/-- As long as `io_uring_get_sqe` has succeeded, no slot is queued. -/
theorem Inv.queue_eq_nil (h : Inv w) (hsucceeded : w.thread.ioRing.failed = false) :
  w.channel.writeBuf.slotList = []
  := by
  cases h.ready with
  | idle _ hqueue => exact hqueue
  | dead _ hfailed =>
      rw [hfailed] at hsucceeded
      cases hsucceeded

/-- `append` and `prepend` keep the invariant. -/
theorem Inv.exchange (h : Inv w) {b : WriteBufBase} {p : BufPool}
    (he : WriteBufBase.Exchange w.channel.writeBuf.toWriteBufBase w.thread.bufPool b p)
    (hsend : b.send = w.channel.writeBuf.send) :
  Inv { w with
    channel := { w.channel with writeBuf := { w.channel.writeBuf with toWriteBufBase := b } }
    thread := { w.thread with bufPool := p } }
  := by
  refine { h with sound := h.sound.exchange he hsend, ready := ?_ }
  exact h.ready.congr rfl rfl id (Sound.slotList_exchange he)

/-- After the last completion of a `sendmsg` the other slots are queued or in flight. -/
theorem Inv.mem_queued_reap (h : Inv w) {i j : ℕ} {fd : Int} {slot : ℕ}
    (hsqe : w.thread.ioRing.inflight[i]? = some (.sendmsg fd slot))
    (hj : j ∈ w.channel.writeBuf.slotList ++ (w.thread.ioRing.reap i false).sends) :
  j ∈ w.channel.writeBuf.slotList ++ w.thread.ioRing.sends ∧ j ≠ slot
  := by
  have hsends : (w.channel.writeBuf.slotList ++ w.thread.ioRing.sends).Perm
      (slot :: (w.channel.writeBuf.slotList ++ (w.thread.ioRing.reap i false).sends)) :=
    ((UdpRing.sends_reap hsqe).append_left _).trans List.perm_middle
  have hnodup := hsends.nodup_iff.mp h.sound.nodup_slots.of_append_right
  constructor
  · exact hsends.mem_iff.mpr (List.mem_cons_of_mem _ hj)
  · rintro rfl
    exact hnodup.notMem hj

/-- Every step keeps the invariant. -/
theorem Inv.steps (h : Inv w) {e : UdpEvent} {ok : Bool} (hsteps : Steps w e ok w') :
  Inv w'
  := by
  cases hsteps with
  | quiet _ hq =>
      obtain ⟨hwriteBuf, hnotify, hwriteCo, hbufPool, hmsghdrPool, hring, hreading⟩ := hq
      constructor
      · rw [hwriteBuf, hbufPool, hmsghdrPool]
        exact h.sound.perm_flight hring.sends
      · exact h.ready.congr hnotify hwriteCo hring.failed (congrArg _ hwriteBuf)
      · intro hsucceeded
        apply hreading hsucceeded
        apply h.reading
        rw [← Bool.not_eq_true]
        intro htrue
        rw [hring.failed htrue] at hsucceeded
        cases hsucceeded
      · rw [hmsghdrPool]
        intro i hi
        exact h.tokens i (hring.sends.mem_iff.mp hi)
  | append happend =>
      obtain ⟨he, hsend, -⟩ := WriteBufBase.append_exchange h.sound.base happend
      exact h.exchange he hsend
  | prepend hprepend =>
      obtain ⟨he, hsend, -⟩ := WriteBufBase.prepend_exchange h.sound.base hprepend
      exact h.exchange he hsend
  | submits _ hsubmits =>
      cases hsubmits with
      | refused he _ _ _ hslots hsound =>
          refine { h with sound := hsound, ready := ?_, tokens := ?_ }
          · exact h.ready.congr rfl rfl id (Sound.slotList_exchange he)
          · intro i hi
            exact (congrArg MsghdrSlot.channel (hslots i (List.mem_append_right _ hi))).trans
              (h.tokens i hi)
      | @accepted d m i hidle _ hdescribes _ hqueue hchannel hsound =>
          have hsends := UdpRing.sends_prep w.thread.ioRing (.sendmsg w.channel.fd i)
          refine { h with sound := hsound.perm_flight hsends, ready := ?_, tokens := ?_ }
          · exact .idle ⟨hidle.handle, hidle.pending, hidle.writeCo⟩ hqueue
          · intro j hj
            by_cases hji : j = i
            · rw [hji]
              exact hchannel
            · have hj : j ∈ i :: w.thread.ioRing.sends := hsends.mem_iff.mp hj
              exact (congrArg MsghdrSlot.channel (hdescribes.other j hji)).trans
                (h.tokens j (List.mem_of_ne_of_mem hji hj))
      | @stuck d m i token hdescribes _ hqueue hhandle _ hsound =>
          refine ⟨hsound, .dead ⟨hhandle, rfl⟩ rfl, ?_, ?_⟩
          · intro hfalse
            cases hfalse
          · intro j hj
            have hne : j ≠ i := by
              rintro rfl
              have hmem : j ∈ d.slotList := by simp [hqueue]
              exact List.disjoint_of_nodup_append hsound.nodup_slots.of_append_right hmem hj
            exact (congrArg MsghdrSlot.channel (hdescribes.other j hne)).trans (h.tokens j hj)
  | completed hsqe _ _ _ hslots hsound =>
      refine { h with sound := hsound, ready := ?_, reading := ?_, tokens := ?_ }
      · exact h.ready.congr rfl rfl id rfl
      · exact h.reading
      · intro j hj
        obtain ⟨-, hne⟩ := h.mem_queued_reap hsqe (List.mem_append_right _ hj)
        exact (congrArg MsghdrSlot.channel (hslots j hne)).trans (h.tokens j
          ((UdpRing.sends_reap hsqe).mem_iff.mpr (List.mem_append_right _ hj)))

/-- The invariant holds when `run_loop` enters its loop. -/
theorem inv_start (depth : ℕ) (fd : Int) (bufRing : BufRing) {bits bufSize : ℕ}
    {hbits : bits ≤ 30} {hpos : 0 < bufSize} {hlt : bufSize < 2 ^ 31} {pool : BufPool}
    (hpool : BufPool.new bits bufSize hbits hpos hlt = some pool)
    (hbytes : 2 ^ bits * bufSize < 2 ^ 31) (slotBits maxIov : ℕ) (hslot : slotBits ≤ 30)
    (hmax : 0 < maxIov) (capBits : Fin 31) :
  Inv (start depth fd bufRing pool (.new slotBits maxIov hslot hmax) capBits)
  := by
  obtain ⟨hbits', -, hfree, hzero⟩ := BufPool.of_new hpool
  have hnum : pool.bufNum = 2 ^ bits := by rw [BufPool.bufNum, hbits']
  have hnil : ∀ k, (⟨fun _ => 0, 0, 0⟩ : Circular 64 ℕ).toList k = [] :=
    fun k => (Circular.toList_eq_nil_iff _).mpr rfl
  refine ⟨?_, .idle ⟨rfl, rfl, rfl⟩ (hnil _), ?_, ?_⟩
  · apply Sound.of_empty (BufPool.addressable_of_new hpool hbytes)
    · exact hnil _
    · exact hnil _
    · exact hnil _
    · rfl
    · exact hfree.trans (congrArg List.range hnum.symm)
    · exact hzero
    · exact MsghdrPool.freeList_new ..
    · exact fun _ => rfl
    · exact fun _ => MsghdrSlot.shaped_wipe _ _
  · intro _ hfinished
    cases hfinished
  · intro i hi
    cases hi

end UdpWorker

end Proactor
