import UringProactor.Core.Datagrams

/-!
# The outbox of a UDP worker

A `submit` that returns `true` posts a datagram: an address, and the bytes accepted since the last
`submit`.  A monitor records the datagrams that were posted and those whose `sendmsg` has completed.
In every run whose `prepend`s are small enough for the size not to wrap when it is rounded to
blocks, the `sendmsg`s that are outstanding carry posted datagrams, in the order in which they were
posted; nothing changes such a datagram before its `sendmsg` completes; and every posted datagram is
carried by one `sendmsg`, or still queued because `io_uring_get_sqe` has failed, or completed, once.
-/

namespace Proactor

namespace UdpRing

variable {r : UdpRing} {sqe : UdpSqe}

/-- The slots of the outstanding `sendmsg`s, in the order in which the kernel is given them. -/
def outbox (r : UdpRing) : List ℕ := (r.inflight ++ r.sq).filterMap UdpSqe.slot?

theorem outbox_perm (r : UdpRing) :
  r.outbox.Perm r.sends
  := List.perm_append_comm.filterMap _

theorem outbox_submit (r : UdpRing) :
  r.submit.outbox = r.outbox
  := by
  rw [outbox, submit, List.append_nil]
  rfl

theorem outbox_prep (r : UdpRing) (sqe : UdpSqe) :
  ({ r with sq := r.sq ++ [sqe] } : UdpRing).outbox = r.outbox ++ sqe.slot?.toList
  := by
  rw [outbox, ← List.append_assoc, List.filterMap_append, outbox]
  cases sqe <;> rfl

/-- A completion that is the last one of its SQE takes its slot out of the outbox. -/
theorem outbox_reap {i : ℕ} (h : r.inflight[i]? = some sqe) :
  ∃ l l', r.outbox = l ++ sqe.slot?.toList ++ l' ∧ (r.reap i false).outbox = l ++ l'
  := by
  obtain ⟨hi, rfl⟩ := List.getElem?_eq_some_iff.mp h
  refine ⟨(r.inflight.take i).filterMap UdpSqe.slot?,
    (r.inflight.drop (i + 1) ++ r.sq).filterMap UdpSqe.slot?, ?_, ?_⟩
  · have hsplit : r.inflight = r.inflight.take i ++ [r.inflight[i]] ++ r.inflight.drop (i + 1) := by
      rw [List.append_assoc, List.singleton_append, ← List.drop_eq_getElem_cons hi,
        List.take_append_drop]
    have hone : [r.inflight[i]].filterMap UdpSqe.slot? = r.inflight[i].slot?.toList := by
      cases r.inflight[i] <;> rfl
    rw [outbox, ← hone]
    conv_lhs => rw [hsplit]
    simp only [List.filterMap_append, List.append_assoc]
  · change (r.inflight.eraseIdx i ++ r.sq).filterMap UdpSqe.slot? = _
    rw [List.eraseIdx_eq_take_drop_succ, List.append_assoc, List.filterMap_append]

/-- A completion of an SQE that is not a `sendmsg`. -/
theorem outbox_reap_of_none {i : ℕ} {more : Bool} (h : r.inflight[i]? = some sqe)
    (hslot : sqe.slot? = none) :
  (r.reap i more).outbox = r.outbox
  := by
  cases more with
  | true => rfl
  | false =>
      obtain ⟨l, l', hbefore, hafter⟩ := outbox_reap h
      rw [hslot, Option.toList_none, List.append_nil] at hbefore
      rw [hbefore, hafter]

/-- Arming the multishot `recvmsg` again. -/
theorem outbox_rearm {r' : UdpRing} {fd : Int} {more : Bool}
    (h : UdpChannel.rearmRecvmsg r fd more = some r') :
  r'.outbox = r.outbox
  := by
  rw [UdpChannel.rearmRecvmsg] at h
  split at h
  case isTrue =>
    cases h
    rfl
  case isFalse =>
    rw [prep] at h
    split at h
    case isTrue =>
      cases h
      rw [outbox_prep]
      exact List.append_nil _
    case isFalse => cases h

end UdpRing

/-- The address that an event with the given result posts a datagram to. -/
def UdpEvent.recipient? (e : UdpEvent) (ok : Bool) : Option (List UInt8) :=
  match e with
  | .app (.submit addr) => if ok then some addr else none
  | .app (.submitIp addr) => if ok then some addr else none
  | _ => none

namespace UdpWorker

open WriteBufDgram

variable {w w' : UdpWorker} {e : UdpEvent} {ok : Bool}

/-- The slot whose `sendmsg` an event completes. -/
def sentSlot? (w : UdpWorker) : UdpEvent → Option ℕ
  | .complete i _ _ _ _ => w.thread.ioRing.inflight[i]?.bind UdpSqe.slot?
  | _ => none

/-- The datagram that the header in a slot describes: its address and its bytes. -/
def datagram (w : UdpWorker) (i : ℕ) : List UInt8 × List UInt8 :=
  ((w.thread.msghdrPool.slots i).msgName,
    WriteBufStream.gather w.thread.bufPool (w.thread.msghdrPool.slots i).msgIov)

/-- The slots of the posted datagrams whose `sendmsg` has not completed: those still queued, and
those in the outbox. -/
def posted (w : UdpWorker) : List ℕ := w.channel.writeBuf.slotList ++ w.thread.ioRing.outbox

theorem mem_posted {i : ℕ} :
  i ∈ w.posted ↔ i ∈ w.channel.writeBuf.slotList ++ w.thread.ioRing.sends
  := ((UdpRing.outbox_perm _).append_left _).mem_iff

/-! ### Where a step leaves the slots -/

/-- The iovecs of a slot describe whole blocks. -/
def Seals (w : UdpWorker) (i : ℕ) : Prop :=
  (w.thread.msghdrPool.slots i).msgIov = WriteBufStream.iovecs w.thread.bufPool 0
    (slotBlocks w.thread.bufPool (w.thread.msghdrPool.slots i))

/-- The slot of a new datagram describes whole blocks. -/
theorem Inv.seals_of_describes (h : Inv w) {addr : List UInt8} {m : MsghdrPool} {i : ℕ}
    (hdescribes : w.channel.Describes w.thread addr m i) :
  (m.slots i).msgIov = WriteBufStream.iovecs w.thread.bufPool 0
    (slotBlocks w.thread.bufPool (m.slots i))
  := by
  have hblocks : slotBlocks w.thread.bufPool (m.slots i) = w.channel.writeBuf.pendingList := by
    rw [slotBlocks, hdescribes.iov]
    apply map_bufIndex_iovecs h.sound.addressable
    intro k hk
    exact (h.sound.base.of_mem_pending hk).1
  rw [hblocks, hdescribes.iov]

/-- How an event changes the queue of slots and the outbox. -/
inductive Mails (w w' : UdpWorker) (e : UdpEvent) (ok : Bool) : Prop where
  | rests (hrecipient : e.recipient? ok = none) (hsent : w.sentSlot? e = none)
      (hqueue : w'.channel.writeBuf.slotList = w.channel.writeBuf.slotList)
      (houtbox : w'.thread.ioRing.outbox = w.thread.ioRing.outbox)
  | posts {addr : List UInt8} {i : ℕ} (hrecipient : e.recipient? ok = some addr)
      (hsent : w.sentSlot? e = none)
      (hslots : w'.channel.writeBuf.slotList = w.channel.writeBuf.slotList
          ∧ w'.thread.ioRing.outbox = w.thread.ioRing.outbox ++ [i]
        ∨ w'.channel.writeBuf.slotList = w.channel.writeBuf.slotList ++ [i]
          ∧ w'.thread.ioRing.outbox = w.thread.ioRing.outbox)
      (hseals : w'.Seals i) (hdatagram : w'.datagram i = (addr, w.pendingContent))
  | sends {slot : ℕ} {l l' : List ℕ} (hrecipient : e.recipient? ok = none)
      (hsent : w.sentSlot? e = some slot)
      (hqueue : w'.channel.writeBuf.slotList = w.channel.writeBuf.slotList)
      (hbefore : w.thread.ioRing.outbox = l ++ slot :: l')
      (hafter : w'.thread.ioRing.outbox = l ++ l')

theorem recipient?_of_quiet (he : e.Quiet) :
  e.recipient? ok = none
  := by
  cases e with
  | app op => cases op <;> first | rfl | cases he
  | _ => rfl

/-- A completion that is not one of a `sendmsg` leaves the outbox. -/
theorem outbox_complete {i idx : ℕ} {res : Int} {more : Bool} {data : List UInt8} {sqe : UdpSqe}
    (hsqe : w.thread.ioRing.inflight[i]? = some sqe) (hslot : sqe.slot? = none)
    (hctl : w.ctl = .batch)
    (hresult : w.stepResult (.complete i res more idx data) = some (ok, w')) :
  w'.thread.ioRing.outbox = w.thread.ioRing.outbox
  := by
  have hreap : (w.thread.ioRing.reap i more).outbox = w.thread.ioRing.outbox :=
    UdpRing.outbox_reap_of_none hsqe hslot
  rw [stepResult, if_pos hctl, hsqe, Option.bind_some] at hresult
  cases sqe with
  | readWakeup =>
      cases hresult
      exact hreap
  | sendmsg fd slot => cases hslot
  | multishotRecvmsg fd =>
      have hring := (kernel_spec w.thread i (.multishotRecvmsg fd) res more idx data).1
      generalize kernel w.thread i (.multishotRecvmsg fd) res more idx data = th at hresult hring
      rw [← hreap, ← hring]
      rw [complete] at hresult
      dsimp only at hresult
      split at hresult
      case isTrue =>
        cases hresult
        rw [UdpChannel.resumeRead]
        split
        case h_1 => rfl
        case h_2 r hr =>
          split <;> exact UdpRing.outbox_rearm hr
      case isFalse =>
        cases hresult
        rfl

/-- An event that does not complete a `sendmsg` and is no call on the write buffer leaves the
outbox. -/
theorem outbox_eq_of_quiet (he : e.Quiet) (hsent : w.sentSlot? e = none)
    (hresult : w.stepResult e = some (ok, w')) :
  w'.thread.ioRing.outbox = w.thread.ioRing.outbox
  := by
  cases e with
  | submit =>
      rw [stepResult] at hresult
      split at hresult
      case isTrue =>
        cases hresult
        exact UdpRing.outbox_submit _
      case isFalse => cases hresult
  | complete i res more idx data =>
      by_cases hctl : w.ctl = .batch
      · cases hsqe : w.thread.ioRing.inflight[i]? with
        | none =>
            rw [stepResult, if_pos hctl, hsqe] at hresult
            cases hresult
        | some sqe =>
            rw [sentSlot?, hsqe, Option.bind_some] at hsent
            exact outbox_complete hsqe hsent hctl hresult
      · rw [stepResult, if_neg hctl] at hresult
        cases hresult
  | batchDone =>
      rw [stepResult] at hresult
      split at hresult
      case isTrue =>
        cases hresult
        rfl
      case isFalse => cases hresult
  | ret =>
      obtain ⟨w₁, hafter, heq⟩ := Option.map_eq_some_iff.mp hresult
      cases heq
      rw [afterCallback] at hafter
      split at hafter <;> cases hafter <;> rfl
  | app op =>
      cases op with
      | peek valid => rw [eq_of_peek hresult]
      | consume =>
          cases hresult
          rfl
      | _ => cases he

/-- Every step that can happen is one of these. -/
theorem Inv.mails (h : Inv w) (hadmits : w.Admits e) (hresult : w.stepResult e = some (ok, w')) :
  Mails w w' e ok
  := by
  cases hsent : w.sentSlot? e with
  | some slot =>
      cases e with
      | complete i res more idx data =>
          obtain ⟨sqe, hsqe, hslot⟩ := Option.bind_eq_some_iff.mp hsent
          cases sqe with
          | sendmsg fd slot' =>
              cases hslot
              have hctl : w.ctl = .batch := by
                by_contra hctl
                rw [stepResult, if_neg hctl] at hresult
                cases hresult
              obtain rfl : more = false := hadmits _ hsqe
              obtain ⟨p, m, heq, -⟩ := h.complete_send res idx data hctl hsqe
              rw [heq] at hresult
              cases hresult
              obtain ⟨l, l', hbefore, hafter⟩ := UdpRing.outbox_reap hsqe
              rw [List.append_assoc] at hbefore
              exact .sends rfl hsent rfl hbefore hafter
          | _ => cases hslot
      | _ => cases hsent
  | none =>
      have hsteps := h.step_cases hadmits hresult
      cases hsteps with
      | quiet he hq =>
          exact .rests (recipient?_of_quiet he) hsent (by rw [hq.writeBuf])
            (outbox_eq_of_quiet he hsent hresult)
      | append happend =>
          obtain ⟨he, -⟩ := WriteBufBase.append_exchange h.sound.base happend
          exact .rests rfl hsent (Sound.slotList_exchange he) rfl
      | prepend hprepend =>
          obtain ⟨he, -⟩ := WriteBufBase.prepend_exchange h.sound.base hprepend
          exact .rests rfl hsent (Sound.slotList_exchange he) rfl
      | @submits op addr ok ch th hop hsubmits =>
          have hrecipient : ∀ b,
              UdpEvent.recipient? (.app op) b = if b then some addr else none := by
            intro b
            obtain rfl | rfl := hop <;> rfl
          cases hsubmits with
          | refused he =>
              exact .rests (hrecipient false) hsent (Sound.slotList_exchange he) rfl
          | @accepted d m i _ hbefore hdescribes _ hqueue =>
              have houtbox := UdpRing.outbox_prep w.thread.ioRing (.sendmsg w.channel.fd i)
              refine .posts (hrecipient true) hsent (.inl ⟨hqueue.trans hbefore.symm, houtbox⟩)
                (h.seals_of_describes hdescribes) ?_
              rw [datagram, hdescribes.iov, WriteBufStream.gather_iovecs_zero, hdescribes.name]
              rfl
          | @stuck d m i _ hdescribes _ hqueue =>
              refine .posts (hrecipient true) hsent (.inr ⟨hqueue, rfl⟩)
                (h.seals_of_describes hdescribes) ?_
              rw [datagram, hdescribes.iov, WriteBufStream.gather_iovecs_zero, hdescribes.name]
              rfl
      | completed hsqe =>
          rw [sentSlot?, hsqe] at hsent
          cases hsent

/-! ### What the slots describe -/

/-- The iovecs of blocks depend on the sizes of the blocks only. -/
theorem iovecs_congr {p p' : BufPool} (hbufSize : p'.bufSize = p.bufSize) {l : List ℕ}
    (hsize : ∀ j ∈ l, p'.dataSize j = p.dataSize j) :
  WriteBufStream.iovecs p' 0 l = WriteBufStream.iovecs p 0 l
  := by
  induction l with
  | nil => rfl
  | cons j l ih =>
      rw [WriteBufStream.iovecs, WriteBufStream.iovecs, ih (fun k hk => hsize k (.tail _ hk)),
        hsize j (.head _), BufPool.bufAddr, BufPool.bufAddr, hbufSize]

/-- A block of a posted datagram is neither free nor pending. -/
theorem Inv.block_of_posted (h : Inv w) {i j : ℕ} (hi : i ∈ w.posted)
    (hj : j ∈ slotBlocks w.thread.bufPool (w.thread.msghdrPool.slots i)) :
  j < w.thread.bufPool.bufNum ∧ j ∉ w.thread.bufPool.freeList
    ∧ j ∉ w.channel.writeBuf.pendingList
  := by
  have hmem : j ∈ (w.channel.writeBuf.slotList ++ w.thread.ioRing.sends).flatMap
      (fun i => slotBlocks w.thread.bufPool (w.thread.msghdrPool.slots i)) :=
    List.mem_flatMap.mpr ⟨i, mem_posted.mp hi, hj⟩
  have hnodup := h.sound.blocks.nodup_iff.mpr List.nodup_range
  refine ⟨?_, ?_, ?_⟩
  · exact List.mem_range.mp (h.sound.blocks.mem_iff.mp
      (List.mem_append_right _ (List.mem_append_right _ hmem)))
  · intro hfree
    exact List.disjoint_of_nodup_append hnodup hfree (List.mem_append_right _ hmem)
  · intro hpending
    exact List.disjoint_of_nodup_append hnodup.of_append_right hpending hmem

/-- The header of the slot `i` and the blocks it describes are as before. -/
structure Undisturbed (w w' : UdpWorker) (i : ℕ) : Prop where
  name : (w'.thread.msghdrPool.slots i).msgName = (w.thread.msghdrPool.slots i).msgName
  iov : (w'.thread.msghdrPool.slots i).msgIov = (w.thread.msghdrPool.slots i).msgIov
  bufSize : w'.thread.bufPool.bufSize = w.thread.bufPool.bufSize
  size : ∀ j ∈ slotBlocks w.thread.bufPool (w.thread.msghdrPool.slots i),
    w'.thread.bufPool.dataSize j = w.thread.bufPool.dataSize j
  block : ∀ j ∈ slotBlocks w.thread.bufPool (w.thread.msghdrPool.slots i),
    w'.thread.bufPool.block j = w.thread.bufPool.block j

/-- Then the datagram is as before. -/
theorem Undisturbed.datagram_eq {i : ℕ} (h : Undisturbed w w' i)
    (hseals : w.Seals i) :
  w'.Seals i ∧ w'.datagram i = w.datagram i
  := by
  have hiov := h.iov
  rw [show _ = _ from hseals, ← iovecs_congr h.bufSize h.size] at hiov
  constructor
  · rw [Seals, slotBlocks_congr h.bufSize h.iov]
    exact hiov
  · rw [datagram, datagram, h.name, hiov, show _ = _ from hseals, WriteBufStream.gather_iovecs_zero,
      WriteBufStream.gather_iovecs_zero]
    congr 1
    exact List.flatMap_congr h.block

/-- `append`, `prepend` and a failed `submit` leave the blocks of posted datagrams. -/
theorem Inv.undisturbed_of_exchange (h : Inv w) (h' : Inv w') {i : ℕ} (hi : i ∈ w.posted)
    (hi' : i ∈ w'.posted) {b : WriteBufBase}
    (he : WriteBufBase.Exchange w.channel.writeBuf.toWriteBufBase w.thread.bufPool b
      w'.thread.bufPool)
    (hslot : w'.thread.msghdrPool.slots i = w.thread.msghdrPool.slots i) :
  Undisturbed w w' i
  := by
  have hfree : ∀ j ∈ slotBlocks w.thread.bufPool (w.thread.msghdrPool.slots i),
      j ∉ w'.thread.bufPool.freeList := by
    intro j hj
    apply (h'.block_of_posted hi' _).2.1
    rw [slotBlocks_congr he.bufSize (congrArg MsghdrSlot.msgIov hslot)]
    exact hj
  refine ⟨congrArg _ hslot, congrArg _ hslot, he.bufSize, ?_, ?_⟩
  · intro j hj
    obtain ⟨-, hnotfree, hnotpending⟩ := h.block_of_posted hi hj
    exact he.frame_size j hnotfree hnotpending (hfree j hj)
  · intro j hj
    obtain ⟨hlt, hnotfree, hnotpending⟩ := h.block_of_posted hi hj
    exact he.frame_block h.sound.addressable j hlt hnotfree hnotpending (hfree j hj)

/-- No step disturbs a datagram that stays posted. -/
theorem Inv.undisturbed (h : Inv w) (h' : Inv w') (hsteps : Steps w e ok w') {i : ℕ}
    (hi : i ∈ w.posted) (hi' : i ∈ w'.posted) :
  Undisturbed w w' i
  := by
  cases hsteps with
  | quiet _ hq =>
      have hslot : w'.thread.msghdrPool.slots i = w.thread.msghdrPool.slots i := by
        rw [hq.msghdrPool]
      refine ⟨congrArg _ hslot, congrArg _ hslot, ?_, ?_, ?_⟩
      · rw [hq.bufPool]
      · rw [hq.bufPool]
        exact fun _ _ => rfl
      · rw [hq.bufPool]
        exact fun _ _ => rfl
  | append happend =>
      obtain ⟨he, -⟩ := WriteBufBase.append_exchange h.sound.base happend
      exact h.undisturbed_of_exchange h' hi hi' he rfl
  | prepend hprepend =>
      obtain ⟨he, -⟩ := WriteBufBase.prepend_exchange h.sound.base hprepend
      exact h.undisturbed_of_exchange h' hi hi' he rfl
  | submits hop hsubmits =>
      have hpool : ∀ {m : MsghdrPool} {ch : UdpChannel} {r : UdpRing},
          m.slots i = w.thread.msghdrPool.slots i →
          Undisturbed w { w with
            channel := ch, thread := { w.thread with msghdrPool := m, ioRing := r } } i := by
        intro m ch r hslot
        exact ⟨congrArg _ hslot, congrArg _ hslot, rfl, fun _ _ => rfl, fun _ _ => rfl⟩
      have hne : ∀ j, w.thread.msghdrPool.acquire.map Prod.fst = some j → i ≠ j := by
        rintro j hacquire rfl
        apply List.disjoint_of_nodup_append h.sound.nodup_slots _ (mem_posted.mp hi)
        rcases w.thread.msghdrPool.acquire_cases with ⟨-, hnone⟩ | ⟨k, l, hfree, hsome, -⟩
        · rw [hnone] at hacquire
          cases hacquire
        · rw [hsome] at hacquire
          cases hacquire
          rw [hfree]
          exact List.mem_cons_self
      cases hsubmits with
      | refused he _ _ _ hslots =>
          exact h.undisturbed_of_exchange h' hi hi' he (hslots i (mem_posted.mp hi))
      | accepted _ _ hdescribes =>
          exact hpool (hdescribes.other i (hne _ hdescribes.acquire))
      | stuck hdescribes =>
          exact hpool (hdescribes.other i (hne _ hdescribes.acquire))
  | @completed k res idx data fd slot p m hsqe hreturned _ _ hslots =>
      have hslot : m.slots i = w.thread.msghdrPool.slots i :=
        hslots i (h.mem_queued_reap hsqe (mem_posted.mp hi')).2
      have hkept : ∀ j ∈ slotBlocks w.thread.bufPool (w.thread.msghdrPool.slots i),
          j ∉ slotBlocks w.thread.bufPool (w.thread.msghdrPool.slots slot) := by
        intro j hj hmem
        apply (h'.block_of_posted hi' _).2.1
        · change j ∈ p.freeList
          rw [hreturned.freeList]
          exact List.mem_append_right _ hmem
        · rw [slotBlocks_congr hreturned.bufSize (congrArg MsghdrSlot.msgIov hslot)]
          exact hj
      refine ⟨congrArg _ hslot, congrArg _ hslot, hreturned.bufSize, ?_, ?_⟩
      · intro j hj
        exact (hreturned.dataSize j).trans (if_neg (hkept j hj))
      · intro j hj
        change p.block j = _
        rw [BufPool.block, BufPool.bufAddr, hreturned.dataSize, if_neg (hkept j hj),
          hreturned.bufs, hreturned.bufSize]
        rfl

/-- Every step keeps the datagrams sealed, and leaves those that stay posted as they are. -/
theorem Inv.seals_step (h : Inv w) (hseals : ∀ i ∈ w.posted, w.Seals i) (hadmits : w.Admits e)
    (hresult : w.stepResult e = some (ok, w')) :
  (∀ i ∈ w'.posted, w'.Seals i) ∧ ∀ i ∈ w.posted, i ∈ w'.posted → w'.datagram i = w.datagram i
  := by
  have hsteps := h.step_cases hadmits hresult
  have hkept : ∀ i ∈ w.posted, i ∈ w'.posted → w'.Seals i ∧ w'.datagram i = w.datagram i :=
    fun i hi hi' => (h.undisturbed (h.steps hsteps) hsteps hi hi').datagram_eq (hseals i hi)
  refine ⟨?_, fun i hi hi' => (hkept i hi hi').2⟩
  intro i hi'
  by_cases hi : i ∈ w.posted
  · exact (hkept i hi hi').1
  · rw [posted] at hi hi'
    cases h.mails hadmits hresult with
    | rests _ _ hqueue houtbox =>
        rw [hqueue, houtbox] at hi'
        exact absurd hi' hi
    | @posts _ j _ _ hslots hnew =>
        obtain rfl : i = j := by
          rcases hslots with ⟨hqueue, houtbox⟩ | ⟨hqueue, houtbox⟩ <;>
          · rw [hqueue, houtbox] at hi'
            grind -linarith
        exact hnew
    | sends _ _ hqueue hbefore hafter =>
        rw [hbefore] at hi
        rw [hqueue, hafter] at hi'
        grind -linarith

/-! ### The monitor -/

/-- What the monitor records: the bytes accepted since the last `submit`, the datagrams that were
posted, and those whose `sendmsg` has completed. -/
structure OutboxRecord where
  built : List UInt8 := []
  submitted : List (List UInt8 × List UInt8) := []
  completed : List (List UInt8 × List UInt8) := []

namespace OutboxRecord

/-- The record after an event. -/
def observe (w : UdpWorker) (g : OutboxRecord) (e : UdpEvent) (ok : Bool) (_ : UdpWorker) :
    OutboxRecord where
  built := DatagramRecord.accept g.built e ok
  submitted := g.submitted ++ (e.recipient? ok).toList.map (fun addr => (addr, g.built))
  completed := g.completed ++ (w.sentSlot? e).toList.map w.datagram

end OutboxRecord

/-- A worker with the record of its datagrams. -/
abbrev Mailing := Monitored UdpWorker OutboxRecord

namespace Mailing

/-- A step of the worker and its monitor. -/
def step (m : Mailing) (e : UdpEvent) : Option Mailing :=
  Monitored.step stepResult OutboxRecord.observe m e

/-- The worker when `run_loop` enters its loop, with nothing recorded. -/
def start (w : UdpWorker) : Mailing := ⟨w, {}⟩

/-- The record is right. -/
structure Inv (m : Mailing) : Prop where
  inv : UdpWorker.Inv m.state
  seals : ∀ i ∈ m.state.posted, m.state.Seals i
  built : m.state.pendingContent = m.record.built
  order : (m.state.thread.ioRing.outbox.map m.state.datagram).Sublist m.record.submitted
  all : (m.state.posted.map m.state.datagram ++ m.record.completed).Perm m.record.submitted

/-- Every step keeps the record right. -/
theorem Inv.step {m m' : Mailing} (h : m.Inv) (hadmits : m.state.Admits e)
    (hbounded : m.state.Bounded e) (hstep : m.step e = some m') :
  m'.Inv
  := by
  obtain ⟨ok, hresult, hrecord⟩ := Monitored.step_eq_some hstep
  have hsteps := h.inv.step_cases hadmits hresult
  obtain ⟨hseals, hkept⟩ := h.inv.seals_step h.seals hadmits hresult
  obtain ⟨w, g⟩ := m
  obtain ⟨w', g'⟩ := m'
  dsimp only at *
  subst hrecord
  have hbuilt : w.pendingContent = g.built := h.built
  have hsame : ∀ l : List ℕ, (∀ i ∈ l, i ∈ w.posted ∧ i ∈ w'.posted) →
      l.map w'.datagram = l.map w.datagram :=
    fun l hl => List.map_congr_left (fun i hi => hkept i (hl i hi).1 (hl i hi).2)
  have horder : (w.thread.ioRing.outbox.map w.datagram).Sublist g.submitted := h.order
  have hall : (w.posted.map w.datagram ++ g.completed).Perm g.submitted := h.all
  suffices hmail : (w'.thread.ioRing.outbox.map w'.datagram).Sublist
        (g.submitted ++ (e.recipient? ok).toList.map (fun addr => (addr, g.built)))
      ∧ (w'.posted.map w'.datagram ++ (g.completed ++ (w.sentSlot? e).toList.map w.datagram)).Perm
        (g.submitted ++ (e.recipient? ok).toList.map (fun addr => (addr, g.built))) by
    refine ⟨h.inv.steps hsteps, hseals, ?_, hmail.1, hmail.2⟩
    rw [h.inv.pendingContent_eq hsteps hbounded, h.built]
    rfl
  cases h.inv.mails hadmits hresult with
  | rests hrecipient hsent hqueue houtbox =>
      have hposted : w'.posted = w.posted := by rw [posted, posted, hqueue, houtbox]
      rw [hrecipient, hsent, houtbox, hposted, hsame w.posted (by grind -linarith),
        hsame w.thread.ioRing.outbox (by grind -linarith [posted])]
      simpa using ⟨horder, hall⟩
  | @posts addr i hrecipient hsent hslots _ hdatagram =>
      have hposted : w'.posted.Perm (w.posted ++ [i]) := by
        rcases hslots with ⟨hqueue, houtbox⟩ | ⟨hqueue, houtbox⟩
        · rw [posted, posted, hqueue, houtbox, List.append_assoc]
        · rw [posted, posted, hqueue, houtbox, List.append_assoc, List.append_assoc]
          exact List.perm_append_comm.append_left _
      have hold : ∀ j ∈ w.posted, j ∈ w.posted ∧ j ∈ w'.posted := fun j hj =>
        ⟨hj, hposted.mem_iff.mpr (List.mem_append_left _ hj)⟩
      have hout := hsame w.thread.ioRing.outbox
        (fun j hj => hold j (List.mem_append_right _ hj))
      have hmap : (w'.posted.map w'.datagram).Perm
          (w.posted.map w.datagram ++ [(addr, g.built)]) := by
        rw [← hsame w.posted hold, ← hbuilt, ← hdatagram]
        exact hposted.map _ |>.trans (.of_eq List.map_append)
      rw [hrecipient, hsent]
      constructor
      · rcases hslots with ⟨-, houtbox⟩ | ⟨-, houtbox⟩
        · rw [houtbox, List.map_append, hout, List.map_singleton, hdatagram, hbuilt]
          exact horder.append (List.Sublist.refl _)
        · rw [houtbox, hout]
          exact horder.trans (List.sublist_append_left ..)
      · have hswap : (w.posted.map w.datagram ++ [(addr, g.built)] ++ g.completed).Perm
            (w.posted.map w.datagram ++ g.completed ++ [(addr, g.built)]) := by
          rw [List.append_assoc, List.append_assoc]
          exact List.perm_append_comm.append_left _
        rw [Option.toList_none, List.map_nil, List.append_nil]
        exact (hmap.append_right _).trans (hswap.trans (hall.append_right _))
  | @sends slot l l' hrecipient hsent hqueue hbefore hafter =>
      have hposted : w.posted.Perm (slot :: w'.posted) := by
        rw [posted, posted, hqueue, hbefore, hafter, ← List.append_assoc, ← List.append_assoc]
        exact List.perm_middle
      have hrest : ∀ j ∈ w'.posted, j ∈ w.posted ∧ j ∈ w'.posted := fun j hj =>
        ⟨hposted.mem_iff.mpr (List.mem_cons_of_mem _ hj), hj⟩
      rw [hrecipient, hsent, hsame w'.posted hrest,
        hsame w'.thread.ioRing.outbox (fun j hj => hrest j (List.mem_append_right _ hj))]
      simp only [Option.toList_none, List.map_nil, List.append_nil, Option.toList_some,
        List.map_singleton]
      constructor
      · refine List.Sublist.trans (List.Sublist.map _ ?_) horder
        rw [hbefore, hafter]
        exact (List.Sublist.refl l).append (List.sublist_cons_self slot l')
      · refine List.Perm.trans ?_ hall
        have hmap := (hposted.map w.datagram).append_right g.completed
        refine List.Perm.trans ?_ hmap.symm
        rw [List.map_cons, ← List.append_assoc]
        exact List.perm_append_singleton _ _

end Mailing

section

variable {depth : ℕ} {fd : Int} {bufRing : BufRing} {bits bufSize : ℕ} {hbits : bits ≤ 30}
  {hpos : 0 < bufSize} {hlt : bufSize < 2 ^ 31} {pool : BufPool} {slotBits maxIov : ℕ}
  {hslot : slotBits ≤ 30} {hmax : 0 < maxIov} {capBits : Fin 31} {m : Mailing}

/-- At the start no datagram is posted. -/
theorem Mailing.inv_start (hpool : BufPool.new bits bufSize hbits hpos hlt = some pool)
    (hbytes : 2 ^ bits * bufSize < 2 ^ 31) :
  (Mailing.start (UdpWorker.start depth fd bufRing pool (.new slotBits maxIov hslot hmax)
    capBits)).Inv
  := by
  have hnil : (Mailing.start (UdpWorker.start depth fd bufRing pool
      (.new slotBits maxIov hslot hmax) capBits)).state.posted = [] :=
    congrArg (· ++ []) ((Circular.toList_eq_nil_iff _).mpr rfl)
  constructor
  · exact UdpWorker.inv_start depth fd bufRing hpool hbytes slotBits maxIov hslot hmax capBits
  · rw [hnil]
    intro i hi
    cases hi
  · exact congrArg pool.content ((Circular.toList_eq_nil_iff _).mpr rfl)
  · exact List.Sublist.refl _
  · rw [hnil]
    exact List.Perm.refl _

/-- Every submitted datagram is sent once, as it was submitted.  The pool holds fewer than `2 ^ 31`
bytes, and the run prepends only data whose size does not wrap when it is rounded to blocks
(`Bounded`).  Then the outstanding `sendmsg`s carry datagrams in the order in which `submit` returned
`true` for them, each with the address it was given and the bytes accepted since the `submit`
before; these datagrams, those still in `slot_queue_` and those whose `sendmsg` has completed are
together the submitted ones, each once; as long as `io_uring_get_sqe` has succeeded, none is in
`slot_queue_`; and no event changes a datagram whose `sendmsg` it does not complete. -/
theorem submitted_datagrams_sent_once (hpool : BufPool.new bits bufSize hbits hpos hlt = some pool)
    (hbytes : 2 ^ bits * bufSize < 2 ^ 31)
    (h : Reaches Mailing.step (fun m e => m.state.Admits e ∧ m.state.Bounded e)
      (Mailing.start (UdpWorker.start depth fd bufRing pool (.new slotBits maxIov hslot hmax)
        capBits)) m) :
  let w := m.state
  (w.thread.ioRing.outbox.map w.datagram).Sublist m.record.submitted
    ∧ ((w.channel.writeBuf.slotList ++ w.thread.ioRing.outbox).map w.datagram
      ++ m.record.completed).Perm m.record.submitted
    ∧ (w.thread.ioRing.failed = false → w.channel.writeBuf.slotList = [])
    ∧ ∀ e w', w.Admits e → w.step e = some w' →
      ∀ i ∈ w.thread.ioRing.outbox, i ∈ w'.thread.ioRing.outbox → w'.datagram i = w.datagram i
  := by
  have hinv : m.Inv := by
    apply h.invariant (Mailing.inv_start hpool hbytes)
    rintro m m' e hinv ⟨hadmits, hbounded⟩ hstep
    exact hinv.step hadmits hbounded hstep
  refine ⟨hinv.order, hinv.all, hinv.inv.queue_eq_nil, ?_⟩
  intro e w' hadmits hstep i hi hi'
  obtain ⟨⟨ok, w₁⟩, hresult, rfl⟩ := Option.map_eq_some_iff.mp hstep
  exact (hinv.inv.seals_step hinv.seals hadmits hresult).2 i (List.mem_append_right _ hi)
    (List.mem_append_right _ hi')

end

/-- Three datagrams are submitted, and the `sendmsg` of the second one completes. -/
theorem submitted_datagrams_sent_once_three :
  ∃ pool m, BufPool.new 2 2 (by decide) (by decide) (by decide) = some pool
    ∧ Reaches Mailing.step (fun m e => m.state.Admits e ∧ m.state.Bounded e)
      (Mailing.start (start 8 5 (BufRing.new 0 1 (by decide) (by decide)) pool
        (.new 2 2 (by decide) (by decide)) 2)) m
    ∧ m.record.submitted = [([7], [1, 2, 3]), ([8], [4]), ([7], [6, 5])]
    ∧ m.record.completed = [([8], [4])]
    ∧ (m.state.thread.ioRing.outbox.map m.state.datagram).Sublist m.record.submitted
  := by
  have hrun : (BufPool.new 2 2 (by decide) (by decide) (by decide)).bind (fun pool =>
      (Reaches.follow Mailing.step (fun m e => m.state.Admits e ∧ m.state.Bounded e)
        [.app (.append [1, 2, 3]), .app (.submit [7]), .app (.append [4]), .app (.submitIp [8]),
          .submit, .complete 3 1 false 0 [], .app (.append [5]), .app (.prepend [6]),
          .app (.submit [7])]
        (Mailing.start (start 8 5 (BufRing.new 0 1 (by decide) (by decide)) pool
          (.new 2 2 (by decide) (by decide)) 2))).map
        (fun m => (m.record.submitted, m.record.completed)))
      = some ([([7], [1, 2, 3]), ([8], [4]), ([7], [6, 5])], [([8], [4])]) := by
    decide +kernel
  obtain ⟨pool, hpool, hfollow⟩ := Option.bind_eq_some_iff.mp hrun
  obtain ⟨m, hreach, hfinal⟩ := Reaches.of_follow _ hfollow
  obtain ⟨hsubmitted, hcompleted⟩ := Prod.mk.inj hfinal
  exact ⟨pool, m, hpool, hreach, hsubmitted, hcompleted,
    (submitted_datagrams_sent_once hpool (by decide) hreach).1⟩

end UdpWorker

end Proactor
