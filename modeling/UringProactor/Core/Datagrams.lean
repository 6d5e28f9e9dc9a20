import UringProactor.Core.UdpSteps
import UringProactor.Prelude.Monitor

/-!
# Datagrams

A monitor of the UDP worker records the bytes that `append` and `prepend` have accepted since
the last `submit`, and for every slot the blocks of the last datagram it was used for.  As long
as `io_uring_get_sqe` succeeds, `submit` sends the recorded bytes as one datagram or sends
nothing, and blocks and slots are neither lost nor shared.
-/

namespace Proactor

/-- What the monitor records. -/
structure DatagramRecord where
  /-- The bytes accepted since the last `submit`. -/
  built : List UInt8
  /-- The blocks that were pending at the last `submit` that took the slot. -/
  made : ℕ → List ℕ

namespace DatagramRecord

/-- The bytes accepted since the last `submit`, after an event with the given result. -/
def accept (built : List UInt8) (e : UdpEvent) (ok : Bool) : List UInt8 :=
  match e with
  | .app (.append data) => if ok then built ++ data else built
  | .app (.prepend data) => if ok then data ++ built else built
  | .app (.submit _) => []
  | .app (.submitIp _) => []
  | _ => built

/-- The blocks of the datagrams after a `submit`, which takes the slot that `acquire`
returns. -/
def makeOne (made : ℕ → List ℕ) (w : UdpWorker) (ok : Bool) : ℕ → List ℕ :=
  match ok, w.thread.msghdrPool.acquire with
  | true, some (slot, _) => Function.update made slot w.channel.writeBuf.pendingList
  | _, _ => made

/-- The blocks of the datagrams after an event with the given result. -/
def make (made : ℕ → List ℕ) (w : UdpWorker) (e : UdpEvent) (ok : Bool) : ℕ → List ℕ :=
  match e with
  | .app (.submit _) => makeOne made w ok
  | .app (.submitIp _) => makeOne made w ok
  | _ => made

/-- Only a successful `submit` makes a datagram. -/
theorem make_of_quiet {e : UdpEvent} (he : e.Quiet) (made : ℕ → List ℕ) (w : UdpWorker)
    (ok : Bool) :
  make made w e ok = made
  := by
  cases e with
  | app op => cases op <;> first | rfl | cases he
  | _ => rfl

theorem make_refused {op : UdpOp} {addr : List UInt8}
    (hop : op = .submit addr ∨ op = .submitIp addr) (made : ℕ → List ℕ) (w : UdpWorker) :
  make made w (.app op) false = made
  := by
  obtain rfl | rfl := hop <;> rfl

theorem make_accepted {op : UdpOp} {addr : List UInt8}
    (hop : op = .submit addr ∨ op = .submitIp addr) (made : ℕ → List ℕ) {w : UdpWorker} {i : ℕ}
    (hacquire : w.thread.msghdrPool.acquire.map Prod.fst = some i) :
  make made w (.app op) true = Function.update made i w.channel.writeBuf.pendingList
  := by
  obtain ⟨⟨j, m⟩, hj, rfl⟩ := Option.map_eq_some_iff.mp hacquire
  have hone : makeOne made w true = Function.update made j w.channel.writeBuf.pendingList := by
    unfold makeOne
    rw [hj]
  obtain rfl | rfl := hop <;> exact hone

theorem accept_of_quiet {e : UdpEvent} (he : e.Quiet) (built : List UInt8) (ok : Bool) :
  accept built e ok = built
  := by
  cases e with
  | app op => cases op <;> first | rfl | cases he
  | _ => rfl

theorem accept_submit {op : UdpOp} {addr : List UInt8}
    (hop : op = .submit addr ∨ op = .submitIp addr) (built : List UInt8) (ok : Bool) :
  accept built (.app op) ok = []
  := by
  obtain rfl | rfl := hop <;> rfl

/-- The monitor. -/
def observe (w : UdpWorker) (g : DatagramRecord) (e : UdpEvent) (ok : Bool) (_ : UdpWorker) :
    DatagramRecord :=
  ⟨accept g.built e ok, make g.made w e ok⟩

end DatagramRecord

namespace UdpWorker

open WriteBufDgram

/-- A UDP worker with its monitor. -/
abbrev Traced := Monitored UdpWorker DatagramRecord

/-- A step of a worker with its monitor. -/
def Traced.step (s : Traced) (e : UdpEvent) : Option Traced :=
  Monitored.step stepResult DatagramRecord.observe s e

/-- The kernel and the application keep their promises. -/
def Traced.Admits (s : Traced) (e : UdpEvent) : Prop := s.state.Admits e

instance (s : Traced) (e : UdpEvent) : Decidable (s.Admits e) :=
  inferInstanceAs (Decidable (s.state.Admits e))

variable {w w' : UdpWorker}

/-! ### Where the blocks and slots are -/

/-- No step resizes the pools. -/
theorem Inv.bits_eq (h : Inv w) {e : UdpEvent} {ok : Bool} (hsteps : Steps w e ok w') :
  w'.thread.bufPool.bits = w.thread.bufPool.bits
    ∧ w'.thread.msghdrPool.bits = w.thread.msghdrPool.bits
  := by
  cases hsteps with
  | quiet _ hq =>
      rw [hq.bufPool, hq.msghdrPool]
      exact ⟨rfl, rfl⟩
  | append happend =>
      exact ⟨(WriteBufBase.append_exchange h.sound.base happend).1.poolBits, rfl⟩
  | prepend hprepend =>
      exact ⟨(WriteBufBase.prepend_exchange h.sound.base hprepend).1.poolBits, rfl⟩
  | submits _ hsubmits =>
      cases hsubmits with
      | refused he _ hbits => exact ⟨he.poolBits, hbits⟩
      | accepted _ _ hdescribes => exact ⟨rfl, hdescribes.bits⟩
      | stuck hdescribes => exact ⟨rfl, hdescribes.bits⟩
  | completed _ hreturned hbits => exact ⟨hreturned.bits, hbits⟩

/-- The blocks that the iovecs of the slots lead back to are those of their datagrams. -/
def Made (w : UdpWorker) (made : ℕ → List ℕ) : Prop :=
  ∀ i ∈ w.channel.writeBuf.slotList ++ w.thread.ioRing.sends,
    slotBlocks w.thread.bufPool (w.thread.msghdrPool.slots i) = made i

/-- The slot of a new datagram leads back to the pending blocks, and the other slots to the
blocks they led to. -/
theorem Inv.slotBlocks_describes (h : Inv w) {addr : List UInt8} {m : MsghdrPool} {i : ℕ}
    (hdescribes : w.channel.Describes w.thread addr m i) {made : ℕ → List ℕ} (hmade : Made w made)
    {j : ℕ} (hj : j ∈ i :: (w.channel.writeBuf.slotList ++ w.thread.ioRing.sends)) :
  slotBlocks w.thread.bufPool (m.slots j)
    = Function.update made i w.channel.writeBuf.pendingList j
  := by
  by_cases hji : j = i
  · rw [hji, Function.update_self, slotBlocks, hdescribes.iov]
    apply map_bufIndex_iovecs h.sound.addressable
    intro k hk
    exact (h.sound.base.of_mem_pending hk).1
  · rw [Function.update_of_ne hji, hdescribes.other j hji]
    exact hmade j (List.mem_of_ne_of_mem hji hj)

/-- A step keeps the record of the blocks. -/
theorem Made.steps {made : ℕ → List ℕ} (hmade : Made w made) (h : Inv w) {e : UdpEvent} {ok : Bool}
    (hsteps : Steps w e ok w') :
  Made w' (DatagramRecord.make made w e ok)
  := by
  cases hsteps with
  | quiet he hq =>
      rw [DatagramRecord.make_of_quiet he]
      intro i hi
      rw [hq.writeBuf] at hi
      rw [hq.bufPool, hq.msghdrPool]
      exact hmade i ((hq.ring.sends.append_left _).mem_iff.mp hi)
  | append happend =>
      obtain ⟨he, -⟩ := WriteBufBase.append_exchange h.sound.base happend
      intro i hi
      rw [Sound.slotList_exchange he] at hi
      exact (slotBlocks_congr he.bufSize rfl).trans (hmade i hi)
  | prepend hprepend =>
      obtain ⟨he, -⟩ := WriteBufBase.prepend_exchange h.sound.base hprepend
      intro i hi
      rw [Sound.slotList_exchange he] at hi
      exact (slotBlocks_congr he.bufSize rfl).trans (hmade i hi)
  | submits hop hsubmits =>
      cases hsubmits with
      | refused he _ _ _ hslots =>
          rw [DatagramRecord.make_refused hop]
          intro i hi
          rw [Sound.slotList_exchange he] at hi
          exact (slotBlocks_congr he.bufSize (congrArg MsghdrSlot.msgIov (hslots i hi))).trans
            (hmade i hi)
      | @accepted d m i _ hbefore hdescribes _ hqueue =>
          have hsends := UdpRing.sends_prep w.thread.ioRing (.sendmsg w.channel.fd i)
          rw [DatagramRecord.make_accepted hop made hdescribes.acquire]
          intro j hj
          apply h.slotBlocks_describes hdescribes hmade
          rw [hqueue, List.nil_append] at hj
          rw [hbefore, List.nil_append]
          exact hsends.mem_iff.mp hj
      | stuck hdescribes _ hqueue =>
          rw [DatagramRecord.make_accepted hop made hdescribes.acquire]
          intro j hj
          apply h.slotBlocks_describes hdescribes hmade
          rw [hqueue, List.append_assoc] at hj
          exact List.perm_middle.mem_iff.mp hj
  | completed hsqe hreturned _ _ hslots =>
      intro j hj
      have hmem : j ∈ w.channel.writeBuf.slotList ++ w.thread.ioRing.sends ∧ j ≠ _ :=
        h.mem_queued_reap hsqe hj
      exact (slotBlocks_congr hreturned.bufSize
        (congrArg MsghdrSlot.msgIov (hslots j hmem.2))).trans (hmade j hmem.1)

/-- The state of the worker and the record in every state reached. -/
structure Traced.Inv (bits slotBits : ℕ) (s : Traced) : Prop where
  inv : UdpWorker.Inv s.state
  bufBits : s.state.thread.bufPool.bits = bits
  slotBits : s.state.thread.msghdrPool.bits = slotBits
  made : Made s.state s.record.made

/-- Every step of the worker keeps the record right. -/
theorem Traced.Inv.step {bits slotBits : ℕ} {s s' : Traced} {e : UdpEvent}
    (h : Traced.Inv bits slotBits s) (hadmits : s.Admits e) (hstep : s.step e = some s') :
  Traced.Inv bits slotBits s'
  := by
  obtain ⟨ok, hrun, hrecord⟩ := Monitored.step_eq_some hstep
  have hsteps := h.inv.step_cases hadmits hrun
  obtain ⟨hbits, hslotBits⟩ := h.inv.bits_eq hsteps
  refine ⟨h.inv.steps hsteps, hbits.trans h.bufBits, hslotBits.trans h.slotBits, ?_⟩
  rw [hrecord]
  exact h.made.steps h.inv hsteps

/-! ### The pending content -/

/-- The rounding of `prepend` does not wrap. -/
def Bounded (w : UdpWorker) : UdpEvent → Prop
  | .app (.prepend data) => data.length + w.thread.bufPool.bufSize - 1 < 2 ^ 32
  | _ => True

instance (w : UdpWorker) (e : UdpEvent) : Decidable (w.Bounded e) :=
  match e with
  | .submit => inferInstanceAs (Decidable True)
  | .complete .. => inferInstanceAs (Decidable True)
  | .batchDone => inferInstanceAs (Decidable True)
  | .ret => inferInstanceAs (Decidable True)
  | .app (.append _) => inferInstanceAs (Decidable True)
  | .app (.prepend data) =>
      inferInstanceAs (Decidable (data.length + w.thread.bufPool.bufSize - 1 < 2 ^ 32))
  | .app (.submit _) => inferInstanceAs (Decidable True)
  | .app (.submitIp _) => inferInstanceAs (Decidable True)
  | .app (.peek _) => inferInstanceAs (Decidable True)
  | .app .consume => inferInstanceAs (Decidable True)

/-- The bytes of the pending blocks. -/
def pendingContent (w : UdpWorker) : List UInt8 :=
  w.thread.bufPool.content w.channel.writeBuf.pendingList

/-- The pending content changes as the monitor records. -/
theorem Inv.pendingContent_eq (h : Inv w) {e : UdpEvent} {ok : Bool} (hsteps : Steps w e ok w')
    (hbounded : w.Bounded e) :
  w'.pendingContent = DatagramRecord.accept w.pendingContent e ok
  := by
  cases hsteps with
  | quiet he hq =>
      rw [DatagramRecord.accept_of_quiet he, pendingContent, hq.writeBuf, hq.bufPool]
      rfl
  | append happend =>
      obtain ⟨-, -, hcontent⟩ := WriteBufBase.append_exchange h.sound.base happend
      exact hcontent h.sound.addressable
  | prepend hprepend =>
      obtain ⟨-, -, hcontent⟩ := WriteBufBase.prepend_exchange h.sound.base hprepend
      rw [WriteBufBase.taken_eq_self hbounded] at hcontent
      exact hcontent h.sound.addressable
  | submits hop hsubmits =>
      rw [DatagramRecord.accept_submit hop]
      cases hsubmits with
      | refused _ hnil => exact congrArg _ hnil
      | accepted _ _ _ hpending => exact congrArg _ hpending
      | stuck _ hpending => exact congrArg _ hpending
  | @completed i _ _ _ _ slot _ _ hsqe hreturned =>
      apply hreturned.content_eq
      intro j hj hmem
      have hslot : slot ∈ w.channel.writeBuf.slotList ++ w.thread.ioRing.sends :=
        List.mem_append_right _ ((UdpRing.sends_reap hsqe).mem_iff.mpr List.mem_cons_self)
      have hnodup := h.sound.blocks.nodup_iff.mpr List.nodup_range
      exact List.disjoint_of_nodup_append hnodup.of_append_right hj
        (List.mem_flatMap.mpr ⟨slot, hslot, hmem⟩)

/-- The worker when `run_loop` enters its loop, with nothing recorded. -/
def Traced.start (depth : ℕ) (fd : Int) (bufRing : BufRing) (bufPool : BufPool)
    (msghdrPool : MsghdrPool) (capBits : Fin 31) : Traced :=
  ⟨UdpWorker.start depth fd bufRing bufPool msghdrPool capBits, ⟨[], fun _ => []⟩⟩

section

variable {depth : ℕ} {fd : Int} {bufRing : BufRing} {bits bufSize : ℕ} {hbits : bits ≤ 30}
  {hpos : 0 < bufSize} {hlt : bufSize < 2 ^ 31} {pool : BufPool} {slotBits maxIov : ℕ}
  {hslot : slotBits ≤ 30} {hmax : 0 < maxIov} {capBits : Fin 31} {s : Traced}

/-- The invariant holds in every state reached. -/
theorem Traced.reaches_inv
    (hpool : BufPool.new bits bufSize hbits hpos hlt = some pool)
    (hbytes : 2 ^ bits * bufSize < 2 ^ 31) {ok : Traced → UdpEvent → Prop}
    (hok : ∀ s e, ok s e → s.Admits e)
    (h : Reaches Traced.step ok
      (Traced.start depth fd bufRing pool (.new slotBits maxIov hslot hmax) capBits) s) :
  Traced.Inv bits slotBits s
  := by
  apply h.invariant
  · obtain ⟨hpoolBits, -⟩ := BufPool.of_new hpool
    refine ⟨inv_start depth fd bufRing hpool hbytes slotBits maxIov hslot hmax capBits, hpoolBits,
      rfl, ?_⟩
    have hnil : (start depth fd bufRing pool (.new slotBits maxIov hslot hmax)
        capBits).state.channel.writeBuf.slotList = [] := (Circular.toList_eq_nil_iff _).mpr rfl
    intro i hi
    rw [hnil] at hi
    cases hi
  · intro t u e ht he hstep
    exact ht.step (hok t e he) hstep

/-- The pending content is what was accepted since the last `submit`. -/
theorem Traced.reaches_built
    (hpool : BufPool.new bits bufSize hbits hpos hlt = some pool)
    (hbytes : 2 ^ bits * bufSize < 2 ^ 31)
    (h : Reaches Traced.step (fun s e => s.Admits e ∧ s.state.Bounded e)
      (Traced.start depth fd bufRing pool (.new slotBits maxIov hslot hmax) capBits) s) :
  s.state.pendingContent = s.record.built
  := by
  induction h with
  | start => exact congrArg pool.content ((Circular.toList_eq_nil_iff _).mpr rfl)
  | @next s s' e hreach hok hstep ih =>
      obtain ⟨hinv, -⟩ := Traced.reaches_inv hpool hbytes (fun _ _ h => h.1) hreach
      obtain ⟨ok, hrun, hrecord⟩ := Monitored.step_eq_some hstep
      rw [hinv.pendingContent_eq (hinv.step_cases hok.1 hrun) hok.2, ih, hrecord]
      rfl

/-- Blocks and slots are conserved.  In every state reached, every slot is once in the free
queue, in `slot_queue_` or in flight, and every block is once in the free queue, in the pending
window or in the iovecs of one slot that is queued or in flight; these iovecs lead back to the
blocks the datagram was made of; a completion of its `sendmsg` returns and releases exactly
these blocks and the slot; and both pools are full when nothing is pending, queued or in
flight. -/
theorem blocks_and_slots_conserved
    (hpool : BufPool.new bits bufSize hbits hpos hlt = some pool)
    (hbytes : 2 ^ bits * bufSize < 2 ^ 31)
    (h : Reaches Traced.step Traced.Admits
      (Traced.start depth fd bufRing pool (.new slotBits maxIov hslot hmax) capBits) s) :
  let b := s.state.channel.writeBuf
  let p := s.state.thread.bufPool
  let m := s.state.thread.msghdrPool
  let r := s.state.thread.ioRing
  (m.freeList ++ (b.slotList ++ r.sends)).Perm (List.range (2 ^ slotBits))
    ∧ (p.freeList ++ (b.pendingList
      ++ (b.slotList ++ r.sends).flatMap (fun i => slotBlocks p (m.slots i)))).Perm
        (List.range (2 ^ bits))
    ∧ (∀ i ∈ b.slotList ++ r.sends, slotBlocks p (m.slots i) = s.record.made i)
    ∧ (s.state.ctl = .batch → ∀ i fd slot res idx data,
      r.inflight[i]? = some (.sendmsg fd slot) →
        ∃ s', s.step (.complete i res false idx data) = some s'
          ∧ s'.state.thread.bufPool.freeList = p.freeList ++ s.record.made slot
          ∧ s'.state.thread.msghdrPool.freeList = m.freeList ++ [slot])
    ∧ (b.pendingList = [] → b.slotList = [] → r.sends = [] →
      p.freeList.Perm (List.range (2 ^ bits)) ∧ m.freeList.Perm (List.range (2 ^ slotBits)))
  := by
  obtain ⟨hinv, hbufBits, hslotBits, hmade⟩ := Traced.reaches_inv hpool hbytes (fun _ _ h => h) h
  have hslots := hinv.sound.slots
  have hblocks := hinv.sound.blocks
  rw [MsghdrPool.capacity, hslotBits] at hslots
  rw [BufPool.bufNum, hbufBits] at hblocks
  refine ⟨hslots, hblocks, ?_, ?_, ?_⟩
  · exact hmade
  · intro hctl i fd slot res idx data hsqe
    obtain ⟨p, m, hrun, hreturned, -, hfree, -⟩ := hinv.complete_send res idx data hctl hsqe
    refine ⟨_, congrArg (Option.map _) hrun, ?_, hfree⟩
    rw [← hmade slot (List.mem_append_right _
      ((UdpRing.sends_reap hsqe).mem_iff.mpr List.mem_cons_self))]
    exact hreturned.freeList
  · intro hpending hqueue hsends
    rw [hqueue, hsends] at hslots
    rw [hpending, hqueue, hsends] at hblocks
    simp only [List.append_nil, List.flatMap_nil] at hslots hblocks
    exact ⟨hblocks, hslots⟩

/-- A run with two datagrams over four blocks of two bytes and two slots; the second one is
completed first, so its block is behind the free ones. -/
theorem blocks_and_slots_conserved_two_datagrams :
  ∃ pool s, BufPool.new 2 2 (by decide) (by decide) (by decide) = some pool
    ∧ Reaches Traced.step Traced.Admits
      (Traced.start 8 5 (BufRing.new 0 1 (by decide) (by decide)) pool
        (.new 1 2 (by decide) (by decide)) 2) s
    ∧ (s.state.thread.bufPool.freeList ++ (s.state.channel.writeBuf.pendingList
      ++ (s.state.channel.writeBuf.slotList ++ s.state.thread.ioRing.sends).flatMap
        (fun i => slotBlocks s.state.thread.bufPool (s.state.thread.msghdrPool.slots i)))).Perm
          (List.range (2 ^ 2))
    ∧ (s.state.thread.bufPool.freeList, s.state.thread.ioRing.sends) = ([3, 2], [0])
  := by
  have hrun : (BufPool.new 2 2 (by decide) (by decide) (by decide)).bind (fun pool =>
      (Reaches.follow Traced.step Traced.Admits
        [.app (.append [1, 2, 3]), .app (.submit [7]), .app (.append [4]), .app (.submitIp [8]),
          .submit, .complete 3 1 false 0 []]
        (Traced.start 8 5 (BufRing.new 0 1 (by decide) (by decide)) pool
          (.new 1 2 (by decide) (by decide)) 2)).map
        (fun s => (s.state.thread.bufPool.freeList, s.state.thread.ioRing.sends)))
      = some ([3, 2], [0]) := by
    decide +kernel
  obtain ⟨pool, hpool, hfollow⟩ := Option.bind_eq_some_iff.mp hrun
  obtain ⟨s, hreach, hfinal⟩ := Reaches.of_follow _ hfollow
  use pool, s, hpool, hreach
  constructor
  · exact (blocks_and_slots_conserved hpool (by decide) hreach).2.1
  · exact hfinal

/-- The pending content is all that was accepted since the last `submit`, so `submit` is all or
nothing.  In every state reached, `submit` with either overload returns.  If it returns `true`,
it has prepared one `sendmsg`, behind those prepared before, with the given address, at most
`max_iov` iovecs, and the bytes accepted since the last `submit`.  If it returns `false`, no
SQE was prepared, no slot was taken, and the pending blocks are free.  Either way nothing is
pending or queued. -/
theorem submit_all_or_nothing
    (hpool : BufPool.new bits bufSize hbits hpos hlt = some pool)
    (hbytes : 2 ^ bits * bufSize < 2 ^ 31)
    (h : Reaches Traced.step (fun s e => s.Admits e ∧ s.state.Bounded e)
      (Traced.start depth fd bufRing pool (.new slotBits maxIov hslot hmax) capBits) s)
    {op : UdpOp} {addr : List UInt8} (hop : op = .submit addr ∨ op = .submitIp addr)
    (haddr : addr.length ≤ sockaddrStorage) (hsqe : s.state.GetsSqe (.app op)) :
  ∃ ok w', s.state.stepResult (.app op) = some (ok, w')
    ∧ w'.channel.writeBuf.pendingList = [] ∧ w'.channel.writeBuf.slotList = []
    ∧ (ok = true → ∃ i,
      w'.thread.ioRing = { s.state.thread.ioRing with
        sq := s.state.thread.ioRing.sq ++ [.sendmsg s.state.channel.fd i] }
      ∧ (w'.thread.msghdrPool.slots i).msgName = addr
      ∧ (w'.thread.msghdrPool.slots i).iovlen ≤ w'.thread.msghdrPool.maxIov
      ∧ WriteBufStream.gather w'.thread.bufPool (w'.thread.msghdrPool.slots i).msgIov
        = s.record.built)
    ∧ (ok = false →
      w'.thread.ioRing = s.state.thread.ioRing
      ∧ w'.thread.msghdrPool.freeList.length = s.state.thread.msghdrPool.freeList.length
      ∧ w'.thread.bufPool.freeList.length
        = s.state.thread.bufPool.freeList.length + s.state.channel.writeBuf.pendingList.length)
  := by
  obtain ⟨hinv, -⟩ := Traced.reaches_inv hpool hbytes (fun _ _ h => h.1) h
  have hbuilt := Traced.reaches_built hpool hbytes h
  obtain ⟨ok, ch, th, hrun, hsubmits⟩ := hinv.submits hop haddr
  have hsucceeded := hsqe _ (congrArg (Option.map Prod.snd) hrun)
  refine ⟨ok, _, hrun, ?_⟩
  cases hsubmits with
  | refused he hnil _ hfree _ hsound =>
      refine ⟨hnil, ?_, ?_, ?_⟩
      · rw [Sound.slotList_exchange he]
        exact hinv.queue_eq_nil hsucceeded
      · intro hok
        cases hok
      · intro _
        refine ⟨rfl, hfree, ?_⟩
        have hlen := he.perm.length_eq
        rw [hnil, hinv.sound.send] at hlen
        rw [show WriteBufBase.sendList _ = [] from hsound.send] at hlen
        simpa using hlen
  | accepted _ _ hdescribes hpending hqueue _ hsound =>
      refine ⟨hpending, hqueue, ?_, ?_⟩
      · intro _
        refine ⟨_, rfl, hdescribes.name, ?_, ?_⟩
        · have hlen := congrArg List.length hdescribes.iov
          rw [length_iovecs, ← hdescribes.iovlen, MsghdrSlot.msgIov, List.length_take,
            (hsound.shaped _).iov] at hlen
          exact min_eq_left_iff.mp hlen
        · rw [hdescribes.iov, WriteBufStream.gather_iovecs_zero]
          exact hbuilt
      · intro hok
        cases hok
  | stuck => cases hsucceeded

/-- A datagram of two appended bytes and a prepended one. -/
theorem submit_all_or_nothing_three_bytes :
  ∃ pool s w' i, BufPool.new 2 2 (by decide) (by decide) (by decide) = some pool
    ∧ Reaches Traced.step (fun s e => s.Admits e ∧ s.state.Bounded e)
      (Traced.start 8 5 (BufRing.new 0 1 (by decide) (by decide)) pool
        (.new 1 2 (by decide) (by decide)) 2) s
    ∧ s.state.stepResult (.app (.submitIp [9])) = some (true, w')
    ∧ w'.thread.ioRing = { s.state.thread.ioRing with
      sq := s.state.thread.ioRing.sq ++ [.sendmsg s.state.channel.fd i] }
    ∧ (w'.thread.msghdrPool.slots i).msgName = [9]
    ∧ WriteBufStream.gather w'.thread.bufPool (w'.thread.msghdrPool.slots i).msgIov = [3, 1, 2]
    ∧ w'.channel.writeBuf.pendingList = []
  := by
  have hrun : (BufPool.new 2 2 (by decide) (by decide) (by decide)).bind (fun pool =>
      (Reaches.follow Traced.step (fun s e => s.Admits e ∧ s.state.Bounded e)
        [.app (.append [1, 2]), .app (.prepend [3])]
        (Traced.start 8 5 (BufRing.new 0 1 (by decide) (by decide)) pool
          (.new 1 2 (by decide) (by decide)) 2)).map
        (fun s => (s.record.built, decide (s.state.GetsSqe (.app (.submitIp [9]))),
          (s.state.stepResult (.app (.submitIp [9]))).map Prod.fst)))
      = some ([3, 1, 2], true, some true) := by
    decide +kernel
  obtain ⟨pool, hpool, hfollow⟩ := Option.bind_eq_some_iff.mp hrun
  obtain ⟨s, hreach, hfinal⟩ := Reaches.of_follow _ hfollow
  obtain ⟨hbuilt, hsqe, hok⟩ := by
    simpa only [Prod.mk.injEq] using hfinal
  obtain ⟨ok, w', hsubmit, hpending, -, haccepted, -⟩ := submit_all_or_nothing hpool (by decide)
    hreach (.inr rfl) (by decide) (of_decide_eq_true hsqe)
  rw [hsubmit] at hok
  cases hok
  obtain ⟨i, hring, hname, -, hgather⟩ := haccepted rfl
  rw [hbuilt] at hgather
  use pool, s, w', i

end

end UdpWorker

end Proactor
