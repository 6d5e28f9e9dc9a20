import UringProactor.Net.UdpChannel

/-!
# What `UdpChannel::submit` does

As long as `io_uring_get_sqe` has not failed, the write coroutine is suspended on
`notify_token_` whenever the application runs, and `slot_queue_` is empty.  A `submit` that
succeeds then queues one slot and resumes the coroutine, which prepares one `sendmsg` and
suspends again, so a second notification finds an empty queue.  If `io_uring_get_sqe` fails,
the coroutine ends, and from then on `submit` only queues slots.  A `submit` that fails gives
back the slot and the pending blocks.
-/

namespace Proactor

namespace UdpRing

variable {r r' : UdpRing} {sqe : UdpSqe}

theorem prep_of_lt (h : r.sq.length < r.depth) (sqe : UdpSqe) :
  r.prep sqe = some { r with sq := r.sq ++ [sqe] }
  := if_pos h

theorem prep_of_le (h : r.depth ≤ r.sq.length) (sqe : UdpSqe) :
  r.prep sqe = none
  := if_neg (Nat.not_lt.mpr h)

theorem sends_prep (r : UdpRing) (sqe : UdpSqe) :
  ({ r with sq := r.sq ++ [sqe] } : UdpRing).sends.Perm (sqe.slot?.toList ++ r.sends)
  := by
  have hperm : (r.sq ++ [sqe] ++ r.inflight).Perm ([sqe] ++ (r.sq ++ r.inflight)) := by
    rw [List.append_assoc]
    exact List.perm_middle
  refine (hperm.filterMap _).trans (.of_eq ?_)
  rw [List.filterMap_append, sends]
  cases sqe <;> rfl

theorem sends_submit (r : UdpRing) :
  r.submit.sends.Perm r.sends
  := by
  have hperm : (r.inflight ++ r.sq).Perm (r.sq ++ r.inflight) := List.perm_append_comm
  apply hperm.filterMap

/-- The last completion of a `sendmsg` takes its slot out of flight. -/
theorem sends_reap {i : ℕ} (h : r.inflight[i]? = some sqe) :
  r.sends.Perm (sqe.slot?.toList ++ (r.reap i false).sends)
  := by
  obtain ⟨hi, rfl⟩ := List.getElem?_eq_some_iff.mp h
  have hperm : (r.sq ++ r.inflight).Perm
      ([r.inflight[i]] ++ (r.sq ++ r.inflight.eraseIdx i)) :=
    ((List.getElem_cons_eraseIdx_perm hi).symm.append_left _).trans List.perm_middle
  refine (hperm.filterMap _).trans (.of_eq ?_)
  rw [List.filterMap_append, sends]
  cases r.inflight[i] <;> rfl

end UdpRing

namespace WriteBufDgram

theorem peekSlot_eq (d : WriteBufDgram) (i : ℕ) :
  d.peekSlot i = d.slotList[i]?
  := by
  rw [slotList, Circular.getElem?_toList, peekSlot]
  split
  case isTrue h => rw [if_neg (Nat.not_lt.mpr h)]
  case isFalse h => rw [if_pos (Nat.lt_of_not_le h)]

/-- The number of queued slots fits in an `int`. -/
theorem slotQueueSize_eq {d : WriteBufDgram} (h : d.slotQueue.size ≤ d.capacity) :
  d.slotQueueSize = d.slotList.length
  := by
  have hle : d.slotQueue.size ≤ 2 ^ 30 :=
    h.trans (Nat.pow_le_pow_right (by decide) d.bits_le)
  rw [slotList, Circular.length_toList, slotQueueSize, BitVec.toInt_eq_toNat_of_lt]
  · rw [BitVec.toNat_ofNat, Nat.mod_eq_of_lt (by omega)]
  · rw [BitVec.toNat_ofNat, Nat.mod_eq_of_lt (by omega)]
    omega

end WriteBufDgram

namespace UdpChannel

open WriteBufDgram

/-- The write coroutine waits for a notification. -/
structure Idle (ch : UdpChannel) : Prop where
  handle : ch.notifyToken.handle = true
  pending : ch.notifyToken.pending = false
  writeCo : ch.writeCo = .onNotify

/-- The write coroutine has ended. -/
structure Dead (ch : UdpChannel) : Prop where
  handle : ch.notifyToken.handle = false
  writeCo : ch.writeCo = .finished

/-- The channel between two calls: the coroutine waits and has nothing to send, or it has
ended because `io_uring_get_sqe` failed. -/
inductive Ready (ch : UdpChannel) (th : UdpThread) : Prop where
  | idle (h : Idle ch) (hqueue : ch.writeBuf.slotList = [])
  | dead (h : Dead ch) (hfailed : th.ioRing.failed = true)

variable {ch : UdpChannel} {th : UdpThread} {d : WriteBufDgram}

/-- What `Ready` depends on. -/
theorem Ready.congr (h : Ready ch th) {ch' : UdpChannel} {th' : UdpThread}
    (hnotify : ch'.notifyToken = ch.notifyToken) (hwriteCo : ch'.writeCo = ch.writeCo)
    (hfailed : th.ioRing.failed = true → th'.ioRing.failed = true)
    (hqueue : ch'.writeBuf.slotList = ch.writeBuf.slotList) :
  Ready ch' th'
  := by
  cases h with
  | idle h hnil =>
      apply Ready.idle
      · exact ⟨hnotify ▸ h.handle, hnotify ▸ h.pending, hwriteCo.trans h.writeCo⟩
      · rw [hqueue, hnil]
  | dead h hfail =>
      apply Ready.dead
      · exact ⟨hnotify ▸ h.handle, hwriteCo.trans h.writeCo⟩
      · exact hfailed hfail

/-! ### `udp_write_loop` -/

/-- The thread after the slots were given SQEs. -/
def sent (fd : Int) (slots : List ℕ) (th : UdpThread) : UdpThread :=
  { th with
    msghdrPool := slots.foldl bindToken th.msghdrPool
    ioRing := { th.ioRing with sq := th.ioRing.sq ++ slots.map (UdpSqe.sendmsg fd) } }

/-- The thread after the slots were given SQEs and `io_uring_get_sqe` failed for the next
slot. -/
def cut (fd : Int) (slots : List ℕ) (slot : ℕ) (th : UdpThread) : UdpThread :=
  { sent fd slots th with
    msghdrPool := bindToken (sent fd slots th).msghdrPool slot
    ioRing := (sent fd slots th).ioRing.fail }

/-- Sending the first slot and then the rest. -/
def sentOne (fd : Int) (slot : ℕ) (th : UdpThread) : UdpThread :=
  { th with
    msghdrPool := bindToken th.msghdrPool slot
    ioRing := { th.ioRing with sq := th.ioRing.sq ++ [.sendmsg fd slot] } }

theorem sent_cons (fd : Int) (slot : ℕ) (slots : List ℕ) (th : UdpThread) :
  sent fd (slot :: slots) th = sent fd slots (sentOne fd slot th)
  := by
  simp [sent, sentOne]

/-- The loop prepares one `sendmsg` for every slot, or `io_uring_get_sqe` fails for one of
them for want of room. -/
theorem sendSlots_eq (fd : Int) {offsets slots : List ℕ}
    (hslots : offsets.map d.peekSlot = slots.map some) (th : UdpThread) :
  sendSlots fd d offsets th = some (true, sent fd slots th)
    ∨ ∃ done slot rest, slots = done ++ slot :: rest
      ∧ th.ioRing.depth ≤ th.ioRing.sq.length + done.length
      ∧ sendSlots fd d offsets th = some (false, cut fd done slot th)
  := by
  induction offsets generalizing slots th with
  | nil =>
      obtain rfl : slots = [] := List.map_eq_nil_iff.mp hslots.symm
      left
      simp [sendSlots, sent]
  | cons i offsets ih =>
      cases slots with
      | nil => cases hslots
      | cons slot slots =>
          obtain ⟨hpeek, hrest⟩ := List.cons.inj hslots
          rw [sendSlots, hpeek, Option.bind_some]
          dsimp only
          by_cases hroom : th.ioRing.sq.length < th.ioRing.depth
          · rw [UdpRing.prep_of_lt hroom]
            obtain heq | ⟨done, slot', rest, rfl, hle, heq⟩ := ih hrest (sentOne fd slot th)
            · left
              rw [sent_cons]
              exact heq
            · right
              refine ⟨slot :: done, slot', rest, rfl, ?_, ?_⟩
              · simp only [sentOne, List.length_append, List.length_singleton] at hle
                rw [List.length_cons]
                omega
              · rw [cut, sent_cons]
                exact heq
          · right
            rw [UdpRing.prep_of_le (Nat.le_of_not_lt hroom)]
            refine ⟨[], slot, slots, rfl, Nat.le_of_not_lt hroom, ?_⟩
            simp [cut, sent, UdpThread.getSqeFailed]

/-- A pass of the write coroutine sends the queued slots, unless `io_uring_get_sqe` fails. -/
theorem writePass_eq (ch : UdpChannel)
    (hle : ch.writeBuf.slotQueue.size ≤ ch.writeBuf.capacity) (th : UdpThread) :
  ch.writePass th = some (true, { ch with writeBuf := ch.writeBuf.clearSlotQueue },
      sent ch.fd ch.writeBuf.slotList th)
    ∨ ∃ done slot rest, ch.writeBuf.slotList = done ++ slot :: rest
      ∧ th.ioRing.depth ≤ th.ioRing.sq.length + done.length
      ∧ ch.writePass th
        = some (false, { ch with writeCo := .finished }, cut ch.fd done slot th)
  := by
  have hslots : (List.range ch.writeBuf.slotList.length).map ch.writeBuf.peekSlot
      = ch.writeBuf.slotList.map some := by
    apply List.ext_getElem
    · simp
    · intro i hi hi'
      simp [peekSlot_eq]
  rw [writePass, slotQueueSize_eq hle, Int.toNat_natCast]
  obtain heq | ⟨done, slot, rest, hlist, hroom, heq⟩ := sendSlots_eq ch.fd hslots th
  · left
    rw [heq]
    rfl
  · right
    refine ⟨done, slot, rest, hlist, hroom, ?_⟩
    rw [heq]
    rfl

/-- A notification of the waiting coroutine sends the queued slots and lets the coroutine wait
again, unless `io_uring_get_sqe` fails, which ends it. -/
theorem Idle.notify_eq (h : Idle ch) (hle : ch.writeBuf.slotQueue.size ≤ ch.writeBuf.capacity)
    (th : UdpThread) :
  ch.notify th = some ({ ch with writeBuf := ch.writeBuf.clearSlotQueue },
      sent ch.fd ch.writeBuf.slotList th)
    ∨ ∃ done slot rest, ch.writeBuf.slotList = done ++ slot :: rest
      ∧ th.ioRing.depth ≤ th.ioRing.sq.length + done.length
      ∧ ch.notify th = some (
        { ch with
          notifyToken := { ch.notifyToken with handle := false }
          writeCo := .finished },
        cut ch.fd done slot th)
  := by
  obtain ⟨fd, ⟨pending, closed, handle⟩, readBuf, writeBuf, readCo, writeCo⟩ := ch
  obtain ⟨rfl, rfl, rfl⟩ := h
  obtain heq | ⟨done, slot, rest, hlist, hroom, heq⟩ := writePass_eq
    ⟨fd, ⟨false, closed, false⟩, readBuf, writeBuf, readCo, .onNotify⟩ hle th
  · left
    rw [notify, if_pos rfl, heq]
    change writeLoop _ _ = _
    rw [writeLoop, if_neg Bool.false_ne_true]
  · right
    refine ⟨done, slot, rest, hlist, hroom, ?_⟩
    rw [notify, if_pos rfl, heq]
    rfl

/-- A notification of the waiting coroutine that has nothing to send changes nothing. -/
theorem Idle.notify_nil (h : Idle ch) (hqueue : ch.writeBuf.slotList = []) (th : UdpThread) :
  ch.notify th = some (ch, th)
  := by
  have hle : ch.writeBuf.slotQueue.size ≤ ch.writeBuf.capacity := by
    rw [← Circular.length_toList (k := ch.writeBuf.bits)]
    exact (congrArg List.length hqueue).trans_le (Nat.zero_le _)
  obtain heq | ⟨done, slot, rest, hlist, -⟩ := h.notify_eq hle th
  · rw [heq, clearSlotQueue_of_nil hqueue, hqueue]
    simp [sent]
  · rw [hqueue] at hlist
    simp at hlist

/-- A notification of the ended coroutine is only noted. -/
theorem Dead.notify_eq (h : Dead ch) (th : UdpThread) :
  ch.notify th
    = some ({ ch with notifyToken := { ch.notifyToken with pending := true } }, th)
  := by
  rw [notify, if_neg (by simp [h.handle])]

/-- The notification after the slot `i` was queued: the slot is given an SQE, or it stays
queued and the coroutine is dead. -/
theorem Ready.notify_cases (h : Ready ch th) {m : MsghdrPool} {i : ℕ}
    (hle : d.slotQueue.size ≤ d.capacity) (hlist : d.slotList = ch.writeBuf.slotList ++ [i]) :
  (notify { ch with writeBuf := d } { th with msghdrPool := m }
      = some ({ ch with writeBuf := d.clearSlotQueue },
        sentOne ch.fd i { th with msghdrPool := m }) ∧ Idle ch ∧ ch.writeBuf.slotList = [])
    ∨ ∃ token m', token.handle = false ∧ (m' = m ∨ m' = bindToken m i)
      ∧ (th.ioRing.failed = false → th.ioRing.depth ≤ th.ioRing.sq.length)
      ∧ notify { ch with writeBuf := d } { th with msghdrPool := m }
        = some ({ ch with writeBuf := d, notifyToken := token, writeCo := .finished },
          { th with msghdrPool := m', ioRing := th.ioRing.fail })
  := by
  cases h with
  | idle h hqueue =>
      rw [hqueue, List.nil_append] at hlist
      have hidle : Idle { ch with writeBuf := d } := ⟨h.handle, h.pending, h.writeCo⟩
      obtain heq | ⟨done, slot, rest, hsplit, hroom, heq⟩ := hidle.notify_eq hle
        { th with msghdrPool := m }
      · left
        rw [heq, hlist]
        exact ⟨rfl, h, hqueue⟩
      · right
        rw [hlist] at hsplit
        obtain ⟨rfl, rfl, -⟩ : done = [] ∧ slot = i ∧ rest = [] := by
          cases done with
          | nil => simpa [eq_comm] using hsplit
          | cons _ _ => simp at hsplit
        refine ⟨{ ch.notifyToken with handle := false }, bindToken m slot, rfl, .inr rfl,
          fun _ => hroom, ?_⟩
        rw [heq]
        simp [cut, sent, UdpRing.fail]
  | dead h hfailed =>
      right
      have hdead : Dead { ch with writeBuf := d } := ⟨h.handle, h.writeCo⟩
      refine ⟨{ ch.notifyToken with pending := true }, m, h.handle, .inl rfl, ?_, ?_⟩
      · rw [hfailed]
        intro hfalse
        cases hfalse
      · rw [hdead.notify_eq]
        obtain ⟨⟨depth, sq, inflight, failed⟩, bufRing, bufPool, msghdrPool⟩ := th
        obtain ⟨fd, notifyToken, readBuf, writeBuf, readCo, writeCo⟩ := ch
        obtain rfl : failed = true := hfailed
        obtain rfl : writeCo = .finished := h.writeCo
        rfl

/-! ### `submit` -/

/-- What a successful `submit` makes of the slot `i`: a header with the address and the pending
blocks. -/
structure Describes (ch : UdpChannel) (th : UdpThread) (addr : List UInt8) (m : MsghdrPool)
    (i : ℕ) : Prop where
  acquire : th.msghdrPool.acquire.map Prod.fst = some i
  bits : m.bits = th.msghdrPool.bits
  name : (m.slots i).msgName = addr
  iovlen : (m.slots i).iovlen = ch.writeBuf.pendingList.length
  iov : (m.slots i).msgIov = WriteBufStream.iovecs th.bufPool 0 ch.writeBuf.pendingList
  other : ∀ j, j ≠ i → m.slots j = th.msghdrPool.slots j

/-- What `submit` does with the given address. -/
inductive Submits (ch : UdpChannel) (th : UdpThread) (addr : List UInt8) :
    Bool → UdpChannel → UdpThread → Prop where
  /-- The pending blocks are free again, and so is the slot if there was one. -/
  | refused {b : WriteBufBase} {p : BufPool} {m : MsghdrPool}
      (hexchange : WriteBufBase.Exchange ch.writeBuf.toWriteBufBase th.bufPool b p)
      (hnil : b.pendingList = [])
      (hbits : m.bits = th.msghdrPool.bits)
      (hfree : m.freeList.length = th.msghdrPool.freeList.length)
      (hslots : ∀ i ∈ ch.writeBuf.slotList ++ th.ioRing.sends,
        m.slots i = th.msghdrPool.slots i)
      (hsound : Sound { ch.writeBuf with toWriteBufBase := b } p m th.ioRing.sends) :
      Submits ch th addr false
        { ch with writeBuf := { ch.writeBuf with toWriteBufBase := b } }
        { th with bufPool := p, msghdrPool := m }
  /-- The datagram has an SQE, and the write coroutine waits again. -/
  | accepted {d : WriteBufDgram} {m : MsghdrPool} {i : ℕ}
      (hidle : Idle ch) (hbefore : ch.writeBuf.slotList = [])
      (hdescribes : Describes ch th addr m i)
      (hpending : d.pendingList = [])
      (hqueue : d.slotList = [])
      (hchannel : (m.slots i).channel = true)
      (hsound : Sound d th.bufPool m (i :: th.ioRing.sends)) :
      Submits ch th addr true { ch with writeBuf := d }
        { th with
          msghdrPool := m
          ioRing := { th.ioRing with sq := th.ioRing.sq ++ [.sendmsg ch.fd i] } }
  /-- The datagram is queued, and the write coroutine is dead. -/
  | stuck {d : WriteBufDgram} {m : MsghdrPool} {i : ℕ} {token : NotifyToken}
      (hdescribes : Describes ch th addr m i)
      (hpending : d.pendingList = [])
      (hqueue : d.slotList = ch.writeBuf.slotList ++ [i])
      (hhandle : token.handle = false)
      (hroom : th.ioRing.failed = false → th.ioRing.depth ≤ th.ioRing.sq.length)
      (hsound : Sound d th.bufPool m th.ioRing.sends) :
      Submits ch th addr true
        { ch with writeBuf := d, notifyToken := token, writeCo := .finished }
        { th with msghdrPool := m, ioRing := th.ioRing.fail }

/-- The failure path of `submit` gives the pending blocks back. -/
theorem discard_submits {m : MsghdrPool} (addr : List UInt8)
    (hs : Sound ch.writeBuf th.bufPool m th.ioRing.sends)
    (hbits : m.bits = th.msghdrPool.bits)
    (hfree : m.freeList.length = th.msghdrPool.freeList.length)
    (hslots : ∀ i ∈ ch.writeBuf.slotList ++ th.ioRing.sends,
      m.slots i = th.msghdrPool.slots i) :
  ∃ ok ch' th', ch.discard { th with msghdrPool := m } = some (ok, ch', th')
    ∧ Submits ch th addr ok ch' th'
  := by
  obtain ⟨b, p, hdiscard, he, hsend, hnil⟩ := WriteBufBase.discardPending_spec hs.base
  refine ⟨false, _, _, ?_, .refused he hnil hbits hfree hslots (hs.exchange he hsend)⟩
  rw [discard, hdiscard]
  rfl

/-- Setting the token of a slot keeps the buffer sound. -/
theorem bindToken_sound {p : BufPool} {m : MsghdrPool} {flight : List ℕ}
    (h : Sound d p m flight) (i : ℕ) :
  Sound d p (bindToken m i) flight
  := h.set rfl rfl ⟨(h.shaped i).iov, (h.shaped i).addr⟩

/-- Setting the token of a slot keeps what it describes. -/
theorem Describes.bindToken {addr : List UInt8} {m : MsghdrPool} {i : ℕ}
    (h : Describes ch th addr m i) :
  Describes ch th addr (UdpChannel.bindToken m i) i
    ∧ ((UdpChannel.bindToken m i).slots i).channel = true
  := by
  have hslot : (UdpChannel.bindToken m i).slots i = { m.slots i with channel := true } :=
    MsghdrPool.set_slots_self ..
  refine ⟨{ h with name := ?_, iovlen := ?_, iov := ?_, other := ?_ }, ?_⟩
  · rw [hslot]
    exact h.name
  · rw [hslot]
    exact h.iovlen
  · rw [hslot]
    exact h.iov
  · intro j hj
    rw [← h.other j hj]
    exact MsghdrPool.set_slots_of_ne _ _ hj
  · rw [hslot]

/-- The rest of `submit` once the slot is queued. -/
theorem Ready.enqueued_submits (h : Ready ch th) {m : MsghdrPool} {i : ℕ} {addr : List UInt8}
    (hdescribes : Describes ch th addr m i)
    (hsize : ch.writeBuf.slotQueue.size < ch.writeBuf.capacity)
    (hs : Sound (ch.writeBuf.enqueued i) th.bufPool m th.ioRing.sends) :
  ∃ ok ch' th',
    (notify { ch with writeBuf := ch.writeBuf.enqueued i } { th with msghdrPool := m }).map
        (fun (ch, th) => (true, ch, th)) = some (ok, ch', th')
    ∧ Submits ch th addr ok ch' th'
  := by
  have hlist := slotList_enqueued i hsize
  obtain ⟨hbound, hchannel⟩ := hdescribes.bindToken
  obtain ⟨heq, hidle, hnil⟩ | ⟨token, m', hhandle, hm', hroom, heq⟩ :=
    h.notify_cases (m := m) hs.queue_le hlist
  · have hclear : (ch.writeBuf.enqueued i).clearSlotQueue.slotList = [] :=
      slotList_clearSlotQueue _
    refine ⟨true, _, _, congrArg _ heq, .accepted hidle hnil hbound
      (pendingList_enqueued _ i) hclear hchannel ?_⟩
    apply (bindToken_sound hs i).of_perm
    · rw [← Circular.length_toList (k := ch.writeBuf.bits)]
      exact (congrArg List.length hclear).trans_le (Nat.zero_le _)
    · rw [hlist, hnil]
      exact .of_eq (congrArg (· ++ _) hclear)
  · refine ⟨true, _, _, congrArg _ heq, ?_⟩
    obtain rfl | rfl := hm'
    · exact .stuck hdescribes (pendingList_enqueued _ i) hlist hhandle hroom hs
    · exact .stuck hbound (pendingList_enqueued _ i) hlist hhandle hroom (bindToken_sound hs i)

/-- The rest of `submit` with an acquired slot that holds the address. -/
theorem Ready.submitSlot_submits (h : Ready ch th) {m : MsghdrPool} {i : ℕ} {addr : List UInt8}
    (hs : Sound ch.writeBuf th.bufPool m (i :: th.ioRing.sends))
    (hacquire : th.msghdrPool.acquire.map Prod.fst = some i)
    (hbits : m.bits = th.msghdrPool.bits)
    (hfree : m.freeList.length + 1 = th.msghdrPool.freeList.length)
    (hwiped : (m.slots i).iovlen = 0) (hname : (m.slots i).msgName = addr)
    (hother : ∀ j, j ≠ i → m.slots j = th.msghdrPool.slots j) :
  ∃ ok ch' th', ch.submitSlot { th with msghdrPool := m } i = some (ok, ch', th')
    ∧ Submits ch th addr ok ch' th'
  := by
  have hnotin : ∀ j ∈ ch.writeBuf.slotList ++ th.ioRing.sends, j ≠ i := by
    rintro j hj rfl
    exact (List.nodup_middle.mp hs.nodup_slots.of_append_right).notMem hj
  rw [submitSlot]
  obtain ⟨-, hsubmit⟩ | ⟨-, hlt, hle, hsubmit⟩ := ch.writeBuf.submit_cases th.bufPool m i
  · obtain ⟨p, m', hrelease, -, hbits', hlist, hkeep, hs'⟩ := hs.releaseSlot (.refl _)
    obtain rfl := releaseSlot_of_wiped _ _ _ _ hwiped hrelease
    simp only [hsubmit, hrelease, Option.bind_some]
    apply discard_submits addr hs' (hbits'.trans hbits)
    · rw [hlist, List.length_append, List.length_singleton, hfree]
    · intro j hj
      rw [hkeep j (hnotin j hj), hother j (hnotin j hj)]
  · have hsize : ch.writeBuf.slotQueue.size < ch.writeBuf.capacity :=
      (Circular.length_toList _).symm.trans_lt hlt
    have hslot : (m.set i (ch.writeBuf.describe th.bufPool (m.slots i))).slots i
        = ch.writeBuf.describe th.bufPool (m.slots i) := MsghdrPool.set_slots_self ..
    simp only [hsubmit]
    refine h.enqueued_submits ⟨hacquire, hbits, ?_, ?_, ?_, ?_⟩ hsize (hs.submit hwiped hsize hle)
    · rw [hslot]
      exact hname
    · rw [hslot]
      exact length_iovecs ..
    · rw [hslot]
      exact msgIov_describe ..
    · intro j hj
      rw [← hother j hj]
      exact MsghdrPool.set_slots_of_ne _ _ hj

/-- `submit` returns and does one of these things. -/
theorem Ready.submit_submits (h : Ready ch th)
    (hs : Sound ch.writeBuf th.bufPool th.msghdrPool th.ioRing.sends) {addr : List UInt8}
    (haddr : addr.length ≤ sockaddrStorage) :
  ∃ ok ch' th', ch.submit th addr = some (ok, ch', th') ∧ Submits ch th addr ok ch' th'
  := by
  rw [submit]
  obtain ⟨hnil, hacquire⟩ | ⟨i, l, hfree, hacquire, hrest⟩ := th.msghdrPool.acquire_cases
  · rw [hacquire]
    exact discard_submits addr hs rfl rfl (fun _ _ => rfl)
  · rw [hacquire]
    obtain ⟨hs₁, hwiped⟩ := hs.acquire hfree hrest
    obtain ⟨hshaped, hname⟩ := (hs.shaped i).setAddr haddr
    have hs₂ : Sound ch.writeBuf th.bufPool
        (MsghdrPool.set { th.msghdrPool with pool := th.msghdrPool.pool.pop } i
          ((th.msghdrPool.slots i).setAddr addr)) (i :: th.ioRing.sends) := by
      apply hs₁.set
      · rfl
      · rfl
      · exact hshaped
    apply h.submitSlot_submits hs₂
    · rw [hacquire]
      rfl
    · rfl
    · rw [hfree]
      exact congrArg (fun l => l.length + 1) hrest
    · rw [MsghdrPool.set_slots_self]
      exact hwiped
    · rw [MsghdrPool.set_slots_self]
      exact hname
    · intro j hj
      apply MsghdrPool.set_slots_of_ne _ _ hj

/-- The second notification of `submit` with an `IpAddress` sends nothing. -/
theorem Ready.submitIp_submits (h : Ready ch th)
    (hs : Sound ch.writeBuf th.bufPool th.msghdrPool th.ioRing.sends) {addr : List UInt8}
    (haddr : addr.length ≤ sockaddrStorage) :
  ∃ ok ch' th', ch.submitIp th addr = some (ok, ch', th') ∧ Submits ch th addr ok ch' th'
  := by
  obtain ⟨ok, ch', th', hsubmit, hsubmits⟩ := h.submit_submits hs haddr
  rw [submitIp, hsubmit, Option.bind_some]
  have hcases := hsubmits
  cases hcases with
  | refused => exact ⟨false, _, _, rfl, hsubmits⟩
  | @accepted d m i hidle _ _ _ hqueue =>
      have hidle' : Idle { ch with writeBuf := d } :=
        ⟨hidle.handle, hidle.pending, hidle.writeCo⟩
      refine ⟨true, _, _, ?_, hsubmits⟩
      dsimp only
      rw [if_pos rfl, hidle'.notify_nil hqueue, Option.map_some]
  | @stuck d m i token hdescribes hpending hqueue hhandle hroom hsound =>
      have hdead : Dead { ch with writeBuf := d, notifyToken := token, writeCo := .finished } :=
        ⟨hhandle, rfl⟩
      have hstuck : Submits ch th addr true
          { ch with
            writeBuf := d
            notifyToken := { token with pending := true }
            writeCo := .finished }
          { th with msghdrPool := m, ioRing := th.ioRing.fail } :=
        .stuck hdescribes hpending hqueue hhandle hroom hsound
      refine ⟨true, _, _, ?_, hstuck⟩
      dsimp only
      rw [if_pos rfl, hdead.notify_eq, Option.map_some]

end UdpChannel

end Proactor
