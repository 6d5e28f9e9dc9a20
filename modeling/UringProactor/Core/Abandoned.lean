import UringProactor.Buffer.Room
import UringProactor.Core.Datagrams

/-!
# Abandoned datagrams

An application that builds a datagram with several calls of `append` and `prepend` may give it
up when one of them fails, and start the next datagram.  A monitor records the bytes of the
current datagram, and for every datagram that is handed to `sendmsg` these bytes beside those
its iovecs cover.  A failed call only takes back its own bytes, so what the datagram that was
given up had collected before goes out in front of the next one.  When only the first call of a
datagram can fail, every datagram consists of its own bytes.
-/

namespace Proactor

/-- What the monitor records. -/
structure BuildRecord where
  /-- The bytes of the datagram under construction, if one was started. -/
  own : Option (List UInt8)
  /-- For every datagram given an SQE, its own bytes and those its iovecs cover. -/
  sent : List (List UInt8 × List UInt8)

namespace BuildRecord

/-- The datagram under construction after an event with the given result: a failed call
abandons it, and `submit` ends it. -/
def build (own : Option (List UInt8)) (e : UdpEvent) (ok : Bool) : Option (List UInt8) :=
  match e with
  | .app (.append data) => if ok then some (own.getD [] ++ data) else none
  | .app (.prepend data) => if ok then some (data ++ own.getD []) else none
  | .app (.submit _) => none
  | .app (.submitIp _) => none
  | _ => own

theorem build_of_quiet {e : UdpEvent} (he : e.Quiet) (own : Option (List UInt8)) (ok : Bool) :
  build own e ok = own
  := by
  cases e with
  | app op => cases op <;> first | rfl | cases he
  | _ => rfl

theorem build_submit {op : UdpOp} {addr : List UInt8}
    (hop : op = .submit addr ∨ op = .submitIp addr) (own : Option (List UInt8)) (ok : Bool) :
  build own (.app op) ok = none
  := by
  obtain rfl | rfl := hop <;> rfl

/-- The datagrams that were given an SQE between two states of the worker. -/
def handed (own : Option (List UInt8)) (w w' : UdpWorker) : List (List UInt8 × List UInt8) :=
  (w.thread.ioRing.prepared w'.thread.ioRing).map (fun i => (own.getD [],
    WriteBufStream.gather w'.thread.bufPool (w'.thread.msghdrPool.slots i).msgIov))

/-- The monitor. -/
def observe (w : UdpWorker) (g : BuildRecord) (e : UdpEvent) (ok : Bool) (w' : UdpWorker) :
    BuildRecord :=
  ⟨build g.own e ok, g.sent ++ handed g.own w w'⟩

end BuildRecord

namespace UdpWorker

open WriteBufDgram

/-- A UDP worker with the monitor of its datagrams. -/
abbrev Building := Monitored UdpWorker BuildRecord

/-- A step of a worker with its monitor. -/
def Building.step (s : Building) (e : UdpEvent) : Option Building :=
  Monitored.step stepResult BuildRecord.observe s e

/-- The worker when `run_loop` enters its loop, with nothing recorded. -/
def Building.start (depth : ℕ) (fd : Int) (bufRing : BufRing) (bufPool : BufPool)
    (msghdrPool : MsghdrPool) (capBits : Fin 31) : Building :=
  ⟨UdpWorker.start depth fd bufRing bufPool msghdrPool capBits, ⟨none, []⟩⟩

/-- The blocks a call of `append` or `prepend` takes when blocks are pending. -/
def blocksNeeded (w : UdpWorker) : UdpEvent → Option ℕ
  | .app (.append data) => some (w.channel.writeBuf.blocksToAppend w.thread.bufPool data)
  | .app (.prepend data) => some (WriteBufBase.blockToWrite w.thread.bufPool data)
  | _ => none

/-- A call of `append` or `prepend` is the first of its datagram, or there is room for it. -/
def Fits (w : UdpWorker) (e : UdpEvent) : Prop :=
  ∀ n ∈ w.blocksNeeded e,
    w.channel.writeBuf.pendingList = [] ∨ w.channel.writeBuf.HasRoom w.thread.bufPool n

instance (w : UdpWorker) (e : UdpEvent) : Decidable (w.Fits e) :=
  inferInstanceAs (Decidable (∀ n ∈ w.blocksNeeded e,
    w.channel.writeBuf.pendingList = [] ∨ w.channel.writeBuf.HasRoom w.thread.bufPool n))

/-- The kernel and the application keep their promises, the rounding of `prepend` does not wrap,
and no call fails but the first one of a datagram. -/
def Building.Careful (s : Building) (e : UdpEvent) : Prop :=
  s.state.Admits e ∧ s.state.Bounded e ∧ s.state.Fits e

instance (s : Building) (e : UdpEvent) : Decidable (s.Careful e) :=
  inferInstanceAs (Decidable (_ ∧ _ ∧ _))

variable {w w' : UdpWorker} {own : Option (List UInt8)}

/-! ### The datagram under construction -/

/-- The pending blocks are those of the datagram under construction. -/
structure Builds (w : UdpWorker) (own : Option (List UInt8)) : Prop where
  content : w.pendingContent = own.getD []
  pending : own = none → w.channel.writeBuf.pendingList = []

/-- Nothing is pending. -/
theorem Builds.of_nil (h : w.channel.writeBuf.pendingList = []) :
  Builds w none
  := by
  constructor
  · rw [pendingContent, h]
    rfl
  · exact fun _ => h

/-- A call of `append` that fails was the first of its datagram, and nothing is pending. -/
theorem Inv.pendingList_of_append_failed (h : Inv w) {data : List UInt8} {b : WriteBufBase}
    {p : BufPool} (happend : w.channel.writeBuf.append w.thread.bufPool data = some (false, b, p))
    (hfits : w.Fits (.app (.append data))) :
  b.pendingList = []
  := by
  obtain ⟨_, _, _, heq, hundone⟩ := WriteBufBase.append_spec h.sound.base data
  rw [happend] at heq
  cases heq
  rw [WriteBufBase.Undone.pending hundone]
  by_contra hne
  obtain ⟨_, _, htrue⟩ := WriteBufBase.append_true h.sound.base hne
    ((hfits _ rfl).resolve_left hne)
  rw [happend] at htrue
  cases htrue

/-- A call of `prepend` that fails was the first of its datagram, and nothing is pending. -/
theorem Inv.pendingList_of_prepend_failed (h : Inv w) {data : List UInt8} {b : WriteBufBase}
    {p : BufPool} (hprepend : w.channel.writeBuf.prepend w.thread.bufPool data = some (false, b, p))
    (hfits : w.Fits (.app (.prepend data))) :
  b.pendingList = []
  := by
  obtain ⟨_, _, _, heq, hundone⟩ := WriteBufBase.prepend_spec h.sound.base data
  rw [hprepend] at heq
  cases heq
  rw [WriteBufBase.Undone.pending hundone]
  by_contra hne
  obtain ⟨_, _, htrue⟩ := WriteBufBase.prepend_true h.sound.base
    ((hfits _ rfl).resolve_left hne)
  rw [hprepend] at htrue
  cases htrue

/-- A step keeps the record of the datagram under construction. -/
theorem Builds.steps (hbuilds : Builds w own) (h : Inv w) {e : UdpEvent} {ok : Bool}
    (hsteps : Steps w e ok w') (hbounded : w.Bounded e) (hfits : w.Fits e) :
  Builds w' (BuildRecord.build own e ok)
  := by
  have hcontent := h.pendingContent_eq hsteps hbounded
  rw [hbuilds.content] at hcontent
  cases hsteps with
  | quiet he hq =>
      rw [DatagramRecord.accept_of_quiet he] at hcontent
      rw [BuildRecord.build_of_quiet he]
      constructor
      · exact hcontent
      · rw [hq.writeBuf]
        exact hbuilds.pending
  | @append data ok b p happend =>
      cases ok with
      | true =>
          constructor
          · exact hcontent
          · intro hnone
            cases hnone
      | false => exact .of_nil (h.pendingList_of_append_failed happend hfits)
  | @prepend data ok b p hprepend =>
      cases ok with
      | true =>
          constructor
          · exact hcontent
          · intro hnone
            cases hnone
      | false => exact .of_nil (h.pendingList_of_prepend_failed hprepend hfits)
  | submits hop hsubmits =>
      rw [BuildRecord.build_submit hop]
      apply Builds.of_nil
      cases hsubmits with
      | refused _ hnil => exact hnil
      | accepted _ _ _ hpending => exact hpending
      | stuck _ hpending => exact hpending
  | completed =>
      constructor
      · exact hcontent
      · exact hbuilds.pending

/-- A datagram that is given an SQE in a step has the pending content. -/
theorem Steps.gather_prepared {e : UdpEvent} {ok : Bool} (hsteps : Steps w e ok w') {i : ℕ}
    (hi : i ∈ w.thread.ioRing.prepared w'.thread.ioRing) :
  WriteBufStream.gather w'.thread.bufPool (w'.thread.msghdrPool.slots i).msgIov
    = w.pendingContent
  := by
  have hsame : w'.thread.ioRing.sq ≠ w.thread.ioRing.sq := by
    intro hsq
    rw [UdpRing.prepared_of_eq hsq] at hi
    cases hi
  cases hsteps with
  | quiet _ hq =>
      rw [hq.ring.prepared] at hi
      cases hi
  | submits _ hsubmits =>
      cases hsubmits with
      | refused => cases hsame rfl
      | accepted _ _ hdescribes =>
          rw [UdpRing.prepared_prep] at hi
          obtain rfl := List.mem_singleton.mp hi
          rw [hdescribes.iov, WriteBufStream.gather_iovecs_zero]
          rfl
      | stuck => cases hsame rfl
  | _ => cases hsame rfl

/-! ### Runs -/

/-- The state of the worker and the record in every state reached. -/
structure Building.Inv (bits : ℕ) (s : Building) : Prop where
  inv : UdpWorker.Inv s.state
  bufBits : s.state.thread.bufPool.bits = bits
  builds : Builds s.state s.record.own
  sent : ∀ d ∈ s.record.sent, d.2 = d.1

/-- Every step in which only the first call of a datagram can fail keeps the record right. -/
theorem Building.Inv.step {bits : ℕ} {s s' : Building} {e : UdpEvent} (h : Building.Inv bits s)
    (hcareful : s.Careful e) (hstep : s.step e = some s') :
  Building.Inv bits s'
  := by
  obtain ⟨ok, hrun, hrecord⟩ := Monitored.step_eq_some hstep
  obtain ⟨hadmits, hbounded, hfits⟩ := hcareful
  have hsteps := h.inv.step_cases hadmits hrun
  refine ⟨h.inv.steps hsteps, (h.inv.bits_eq hsteps).1.trans h.bufBits, ?_, ?_⟩
  · rw [hrecord]
    exact h.builds.steps h.inv hsteps hbounded hfits
  · rw [hrecord]
    intro d hd
    obtain hd | hd := List.mem_append.mp hd
    · exact h.sent d hd
    · obtain ⟨i, hi, rfl⟩ := List.mem_map.mp hd
      exact (hsteps.gather_prepared hi).trans h.builds.content

section

variable {depth : ℕ} {fd : Int} {bufRing : BufRing} {bits bufSize : ℕ} {hbits : bits ≤ 30}
  {hpos : 0 < bufSize} {hlt : bufSize < 2 ^ 31} {pool : BufPool} {slotBits maxIov : ℕ}
  {hslot : slotBits ≤ 30} {hmax : 0 < maxIov} {capBits : Fin 31} {s : Building}

/-- An abandoned datagram leaves no trace, when no call fails but the first one of a datagram.
In every state reached, every datagram that was handed to `sendmsg` consists of its own bytes;
and when no datagram is under construction, so also right after one was given up, nothing is
pending, and every block is free or belongs to a datagram that is queued or in flight. -/
theorem abandoned_leaves_no_trace
    (hpool : BufPool.new bits bufSize hbits hpos hlt = some pool)
    (hbytes : 2 ^ bits * bufSize < 2 ^ 31)
    (h : Reaches Building.step Building.Careful
      (Building.start depth fd bufRing pool (.new slotBits maxIov hslot hmax) capBits) s) :
  (∀ d ∈ s.record.sent, d.2 = d.1)
    ∧ (s.record.own = none →
      s.state.channel.writeBuf.pendingList = []
      ∧ (s.state.thread.bufPool.freeList
        ++ (s.state.channel.writeBuf.slotList ++ s.state.thread.ioRing.sends).flatMap
          (fun i => slotBlocks s.state.thread.bufPool (s.state.thread.msghdrPool.slots i))).Perm
            (List.range (2 ^ bits)))
  := by
  have hinv : Building.Inv bits s := by
    apply h.invariant
    · obtain ⟨hpoolBits, -⟩ := BufPool.of_new hpool
      refine ⟨inv_start depth fd bufRing hpool hbytes slotBits maxIov hslot hmax capBits,
        hpoolBits, .of_nil ((Circular.toList_eq_nil_iff _).mpr rfl), ?_⟩
      intro d hd
      cases hd
    · intro t u e ht hcareful hstep
      exact ht.step hcareful hstep
  constructor
  · exact hinv.sent
  · intro hnone
    have hpending := hinv.builds.pending hnone
    have hblocks := hinv.inv.sound.blocks
    rw [hpending, List.nil_append, BufPool.bufNum, hinv.bufBits] at hblocks
    exact ⟨hpending, hblocks⟩

/-- A datagram is given up at its first call for want of blocks, and the next one is sent. -/
theorem abandoned_leaves_no_trace_first_call :
  ∃ pool s, BufPool.new 1 2 (by decide) (by decide) (by decide) = some pool
    ∧ Reaches Building.step Building.Careful
      (Building.start 8 5 (BufRing.new 0 1 (by decide) (by decide)) pool
        (.new 1 2 (by decide) (by decide)) 2) s
    ∧ s.record.sent = [([8, 7], [8, 7])]
    ∧ ∀ d ∈ s.record.sent, d.2 = d.1
  := by
  have hrun : (BufPool.new 1 2 (by decide) (by decide) (by decide)).bind (fun pool =>
      (Reaches.follow Building.step Building.Careful
        [.app (.append [1, 2, 3, 4, 5]), .app (.append [7]), .app (.prepend [8]),
          .app (.submit [9])]
        (Building.start 8 5 (BufRing.new 0 1 (by decide) (by decide)) pool
          (.new 1 2 (by decide) (by decide)) 2)).map (fun s => s.record.sent))
      = some [([8, 7], [8, 7])] := by
    decide +kernel
  obtain ⟨pool, hpool, hfollow⟩ := Option.bind_eq_some_iff.mp hrun
  obtain ⟨s, hreach, hfinal⟩ := Reaches.of_follow _ hfollow
  use pool, s, hpool, hreach, hfinal
  exact (abandoned_leaves_no_trace hpool (by decide) hreach).1

/-- The second call of a datagram fails, the datagram is given up, and its first two bytes are
sent in front of the next one. -/
theorem abandoned_bytes_are_sent :
  ∃ pool s, BufPool.new 1 2 (by decide) (by decide) (by decide) = some pool
    ∧ Reaches Building.step (fun s e => s.state.Admits e ∧ s.state.Bounded e)
      (Building.start 8 5 (BufRing.new 0 1 (by decide) (by decide)) pool
        (.new 1 2 (by decide) (by decide)) 2) s
    ∧ s.record.sent = [([7], [1, 2, 7])]
  := by
  have hrun : (BufPool.new 1 2 (by decide) (by decide) (by decide)).bind (fun pool =>
      (Reaches.follow Building.step (fun s e => s.state.Admits e ∧ s.state.Bounded e)
        [.app (.append [1, 2]), .app (.append [3, 4, 5, 6]), .app (.append [7]),
          .app (.submit [9])]
        (Building.start 8 5 (BufRing.new 0 1 (by decide) (by decide)) pool
          (.new 1 2 (by decide) (by decide)) 2)).map (fun s => s.record.sent))
      = some [([7], [1, 2, 7])] := by
    decide +kernel
  obtain ⟨pool, hpool, hfollow⟩ := Option.bind_eq_some_iff.mp hrun
  obtain ⟨s, hreach, hfinal⟩ := Reaches.of_follow _ hfollow
  use pool, s, hpool, hreach, hfinal

end

end UdpWorker

end Proactor
