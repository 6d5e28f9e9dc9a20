import UringProactor.Buffer.DgramMsg
import UringProactor.Core.UdpSteps
import UringProactor.Prelude.Monitor

/-!
# The inbox of a UDP worker

A monitor records the packets that completions of the multishot `recvmsg` brought, and those that
`consume` took.  In every run, the packets taken, followed by those in the read buffer, are among
the packets received, in order; and as long as `io_uring_get_sqe` succeeds, no packet and no receive
buffer is lost.  If the kernel writes packets as `liburing` reads them, `peek` shows the application
the next one, with the address of its sender and its payload.
-/

namespace Proactor

namespace UdpRing

theorem failed_reap (r : UdpRing) (i : ℕ) (more : Bool) :
  (r.reap i more).failed = r.failed
  := by
  cases more <;> rfl

end UdpRing

/-- The SQE receives packets. -/
def UdpSqe.isRecvmsg : UdpSqe → Bool
  | .multishotRecvmsg _ => true
  | _ => false

namespace UdpWorker

variable {w w' : UdpWorker} {e : UdpEvent} {ok : Bool} {idx : ℕ} {data : List UInt8}

/-! ### What an event does on the read side -/

/-- The packet that an event brings: a completion of the `recvmsg` without an error. -/
def arrives (w : UdpWorker) : UdpEvent → Option (List UInt8)
  | .complete i res _ _ data =>
      if w.thread.ioRing.inflight[i]?.any UdpSqe.isRecvmsg ∧ 0 ≤ res then some data else none
  | _ => none

theorem arrives_of_recvmsg {i idx : ℕ} {res : Int} {more : Bool} {data : List UInt8} {fd : Int}
    (hsqe : w.thread.ioRing.inflight[i]? = some (.multishotRecvmsg fd)) :
  w.arrives (.complete i res more idx data) = if 0 ≤ res then some data else none
  := by
  simp [arrives, hsqe, UdpSqe.isRecvmsg]

theorem arrives_of_not {i idx : ℕ} {res : Int} {more : Bool} {data : List UInt8} {sqe : UdpSqe}
    (hsqe : w.thread.ioRing.inflight[i]? = some sqe) (hnot : sqe.isRecvmsg = false) :
  w.arrives (.complete i res more idx data) = none
  := by
  simp [arrives, hsqe, hnot]

/-- The read coroutine is suspended, or runs in `on_read`, unless `io_uring_get_sqe` has failed. -/
structure Awake (w : UdpWorker) : Prop where
  started : w.channel.readCo ≠ .unstarted
  running : w.channel.readCo = .running ↔ w.ctl = .onRead
  alive : w.thread.ioRing.failed = false → w.channel.readCo ≠ .finished

/-- The steps of a worker as the read side sees them. -/
inductive Reads (w : UdpWorker) : UdpEvent → Bool → UdpWorker → Prop where
  | rests {e : UdpEvent} {ok : Bool} {w' : UdpWorker} (hop : e ≠ .app .consume)
      (harrives : w.arrives e = none) (hreadBuf : w'.channel.readBuf = w.channel.readBuf)
      (hring : w'.thread.bufRing = w.thread.bufRing)
      (hfailed : w.thread.ioRing.failed = true → w'.thread.ioRing.failed = true) :
      Reads w e ok w'
  | received {i idx : ℕ} {res : Int} {more : Bool} {data : List UInt8} {fd : Int} {w' : UdpWorker}
      (hsqe : w.thread.ioRing.inflight[i]? = some (.multishotRecvmsg fd)) (hres : 0 ≤ res)
      (hctl : w'.ctl = .onRead)
      (hreadBuf : w'.channel.readBuf = ⟨(w.channel.readBuf.pushBuf w'.thread.bufRing idx).2⟩)
      (hring : w'.thread.bufRing = (w.thread.bufRing.fill idx data).setDataSize idx res.toNat)
      (hfailed : w.thread.ioRing.failed = true → w'.thread.ioRing.failed = true) :
      Reads w (.complete i res more idx data) true w'
  | lost {i idx : ℕ} {res : Int} {more : Bool} {data : List UInt8} {fd : Int} {w' : UdpWorker}
      (hsqe : w.thread.ioRing.inflight[i]? = some (.multishotRecvmsg fd)) (hres : 0 ≤ res)
      (hreadBuf : w'.channel.readBuf = w.channel.readBuf)
      (hring : w'.thread.bufRing = w.thread.bufRing.fill idx data)
      (hfailed : w'.thread.ioRing.failed = true) :
      Reads w (.complete i res more idx data) true w'
  | consumed {ok : Bool} {w' : UdpWorker}
      (hconsume : w.channel.readBuf.consume w.thread.bufRing
        = (ok, w'.channel.readBuf, w'.thread.bufRing))
      (hfailed : w'.thread.ioRing = w.thread.ioRing) :
      Reads w (.app .consume) ok w'

/-- Arming the `recvmsg` again forgets no failure. -/
theorem failed_rearm {r r' : UdpRing} {fd : Int} {more : Bool}
    (h : UdpChannel.rearmRecvmsg r fd more = some r') :
  r'.failed = r.failed
  := by
  rw [UdpChannel.rearmRecvmsg] at h
  split at h
  case isTrue =>
    cases h
    rfl
  case isFalse =>
    rw [UdpRing.prep] at h
    split at h
    case isTrue =>
      cases h
      rfl
    case isFalse => cases h

/-- A completion of the `recvmsg`. -/
theorem Awake.recvmsg (hawake : Awake w) {i idx : ℕ} {res : Int} {more : Bool} {data : List UInt8}
    {fd : Int} (hctl : w.ctl = .batch)
    (hsqe : w.thread.ioRing.inflight[i]? = some (.multishotRecvmsg fd))
    (hresult : w.stepResult (.complete i res more idx data) = some (ok, w')) :
  Reads w (.complete i res more idx data) ok w' ∧ Awake w'
  := by
  have hnot : w.channel.readCo ≠ .running := by
    rw [ne_eq, hawake.running, hctl]
    simp
  have hreap := UdpRing.failed_reap w.thread.ioRing i more
  have harrives : ¬ 0 ≤ res → w.arrives (.complete i res more idx data) = none := by
    intro hres
    rw [arrives_of_recvmsg hsqe, if_neg hres]
  -- The ring after the kernel has taken a buffer, or not.
  have hkernel : ∀ d, kernel w.thread i (.multishotRecvmsg fd) res more idx d
      = { w.thread with
          ioRing := w.thread.ioRing.reap i more
          bufRing := if 0 ≤ res then w.thread.bufRing.fill idx d else w.thread.bufRing } := by
    intro d
    rw [kernel]
    dsimp only
    split <;> rfl
  rw [stepResult, if_pos hctl, hsqe, Option.bind_some, hkernel, complete] at hresult
  dsimp only at hresult
  split at hresult
  case isFalse hco =>
    have hfinished : w.channel.readCo = .finished := by
      cases hread : w.channel.readCo with
      | unstarted => apply absurd hread hawake.started
      | awaiting => apply absurd hread hco
      | running => apply absurd hread hnot
      | finished => rfl
    have hfailed : w.thread.ioRing.failed = true := by
      rw [← Bool.not_eq_false]
      intro hfalse
      apply hawake.alive hfalse hfinished
    cases hresult
    refine ⟨?_, hawake.started, hawake.running, ?_⟩
    · by_cases hres : 0 ≤ res
      · exact .lost hsqe hres rfl (if_pos hres) (hreap.trans hfailed)
      · exact .rests (by simp) (harrives hres) rfl (if_neg hres) (fun _ => hreap.trans hfailed)
    · intro hfalse
      cases (hreap.trans hfailed).symm.trans hfalse
  case isTrue hco =>
    cases hresult
    cases hrearm : UdpChannel.rearmRecvmsg (w.thread.ioRing.reap i more) w.channel.fd more with
    | none =>
        -- `get_sqe` throws, and the coroutine ends.
        simp only [UdpChannel.resumeRead, hrearm]
        refine ⟨?_, by simp, by simp [hctl], ?_⟩
        · by_cases hres : 0 ≤ res
          · exact .lost hsqe hres rfl (if_pos hres) rfl
          · exact .rests (by simp) (harrives hres) rfl (if_neg hres) (fun _ => rfl)
        · intro hfalse
          cases hfalse
    | some ioRing =>
        have hsame := (failed_rearm hrearm).trans hreap
        simp only [UdpChannel.resumeRead, hrearm]
        by_cases hres : res < 0
        · rw [if_pos hres]
          refine ⟨.rests (by simp) (harrives (by omega)) rfl (if_neg (by omega)) ?_, hawake.started,
            hawake.running, ?_⟩
          · exact fun hfailed => hsame.trans hfailed
          · exact fun hfalse => hawake.alive (hsame.symm.trans hfalse)
        · have hres' : 0 ≤ res := by omega
          rw [if_neg hres, if_pos hres']
          exact ⟨.received hsqe hres' rfl rfl rfl (fun hfailed => hsame.trans hfailed), by simp,
            by simp, by simp⟩

theorem failed_eq_false (hfailed : w.thread.ioRing.failed = true → w'.thread.ioRing.failed = true)
    (h : w'.thread.ioRing.failed = false) :
  w.thread.ioRing.failed = false
  := by
  rw [← Bool.not_eq_true]
  intro htrue
  cases (hfailed htrue).symm.trans h

/-- A step that leaves the read buffer and the read coroutine. -/
theorem Awake.rests (hawake : Awake w) (hop : e ≠ .app .consume) (harrives : w.arrives e = none)
    (hreadBuf : w'.channel.readBuf = w.channel.readBuf)
    (hreadCo : w'.channel.readCo = w.channel.readCo) (hctl : w'.ctl = .onRead ↔ w.ctl = .onRead)
    (hring : w'.thread.bufRing = w.thread.bufRing)
    (hfailed : w.thread.ioRing.failed = true → w'.thread.ioRing.failed = true) :
  Reads w e ok w' ∧ Awake w'
  := by
  refine ⟨.rests hop harrives hreadBuf hring hfailed, ?_, ?_, ?_⟩
  · rw [hreadCo]
    apply hawake.started
  · rw [hreadCo, hctl]
    apply hawake.running
  · intro hsucceeded
    rw [hreadCo]
    apply hawake.alive (failed_eq_false hfailed hsucceeded)

/-- The return from a callback. -/
theorem Awake.ret (hawake : Awake w) (hresult : w.stepResult .ret = some (ok, w')) :
  Reads w .ret ok w' ∧ Awake w'
  := by
  obtain ⟨w₁, hafter, heq⟩ := Option.map_eq_some_iff.mp hresult
  cases heq
  rw [afterCallback] at hafter
  split at hafter
  case h_1 => cases hafter
  case h_2 => cases hafter
  case h_3 =>
    cases hafter
    exact ⟨.rests (by simp) rfl rfl rfl id, by simp, by simp, by simp⟩
  case h_4 hctl =>
    cases hafter
    exact hawake.rests (by simp) rfl rfl rfl (by simp [hctl]) rfl id

/-- A completion. -/
theorem Inv.complete_reads (h : Inv w) (hawake : Awake w) {i idx : ℕ} {res : Int} {more : Bool}
    {data : List UInt8} (hadmits : w.Admits (.complete i res more idx data))
    (hresult : w.stepResult (.complete i res more idx data) = some (ok, w')) :
  Reads w (.complete i res more idx data) ok w' ∧ Awake w'
  := by
  obtain ⟨hctl, hbind⟩ := Option.ite_none_right_eq_some.mp hresult
  obtain ⟨sqe, hsqe, -⟩ := Option.bind_eq_some_iff.mp hbind
  have hreap := UdpRing.failed_reap w.thread.ioRing i more
  cases sqe with
  | multishotRecvmsg fd => exact hawake.recvmsg hctl hsqe hresult
  | readWakeup =>
      rw [stepResult, if_pos hctl, hsqe] at hresult
      cases hresult
      exact hawake.rests (by simp) (arrives_of_not hsqe rfl) rfl rfl Iff.rfl rfl hreap.trans
  | sendmsg fd slot =>
      obtain rfl : more = false := hadmits _ hsqe
      obtain ⟨p, m, heq, -⟩ := h.complete_send res idx data hctl hsqe
      rw [heq] at hresult
      cases hresult
      exact hawake.rests (by simp) (arrives_of_not hsqe rfl) rfl rfl (by simp [hctl]) rfl hreap.trans

/-- A call of the application. -/
theorem Inv.call_reads (h : Inv w) (hawake : Awake w) {op : UdpOp} (hadmits : w.Admits (.app op))
    (hresult : w.stepResult (.app op) = some (ok, w')) :
  Reads w (.app op) ok w' ∧ Awake w'
  := by
  cases h.step_cases hadmits hresult with
  | quiet he =>
      cases op with
      | peek valid =>
          cases eq_of_peek hresult
          exact hawake.rests (by simp) rfl rfl rfl Iff.rfl rfl id
      | consume =>
          cases hresult
          exact ⟨.consumed rfl rfl, hawake.started, hawake.running, hawake.alive⟩
      | _ => cases he
  | append => exact hawake.rests (by simp) rfl rfl rfl Iff.rfl rfl id
  | prepend => exact hawake.rests (by simp) rfl rfl rfl Iff.rfl rfl id
  | submits hop hsubmits =>
      have hne : UdpEvent.app op ≠ .app .consume := by
        obtain rfl | rfl := hop <;> simp
      cases hsubmits with
      | refused => exact hawake.rests hne rfl rfl rfl Iff.rfl rfl id
      | accepted => exact hawake.rests hne rfl rfl rfl Iff.rfl rfl id
      | stuck => exact hawake.rests hne rfl rfl rfl Iff.rfl rfl (fun _ => rfl)

/-- Every step that can happen is one of these, and keeps the read coroutine awake. -/
theorem Inv.reads (h : Inv w) (hawake : Awake w) (hadmits : w.Admits e)
    (hresult : w.stepResult e = some (ok, w')) :
  Reads w e ok w' ∧ Awake w'
  := by
  cases e with
  | submit =>
      obtain ⟨hctl, hsome⟩ := Option.ite_none_right_eq_some.mp hresult
      cases hsome
      exact hawake.rests (by simp) rfl rfl rfl (by simp [hctl]) rfl id
  | batchDone =>
      obtain ⟨hctl, hsome⟩ := Option.ite_none_right_eq_some.mp hresult
      cases hsome
      exact hawake.rests (by simp) rfl rfl rfl (by simp [hctl]) rfl id
  | ret => apply hawake.ret hresult
  | complete i res more idx data => apply h.complete_reads hawake hadmits hresult
  | app op => apply h.call_reads hawake hadmits hresult

/-! ### The monitor -/

/-- The packet that an event with the given result takes from the read buffer. -/
def takes (w : UdpWorker) (ok : Bool) : UdpEvent → Option (List UInt8)
  | .app .consume =>
      if ok then w.channel.readBuf.queueList.head?.map w.thread.bufRing.block else none
  | _ => none

theorem takes_of_ne (he : e ≠ .app .consume) :
  w.takes ok e = none
  := by
  cases e with
  | app op =>
      cases op with
      | consume => apply absurd rfl he
      | _ => rfl
  | _ => rfl

/-- What a monitor records: the bytes of the packets received, and of those taken. -/
structure InboxRecord where
  received : List (List UInt8) := []
  taken : List (List UInt8) := []

/-- The record after an event. -/
def InboxRecord.observe (w : UdpWorker) (g : InboxRecord) (e : UdpEvent) (ok : Bool)
    (_ : UdpWorker) : InboxRecord where
  received := g.received ++ (w.arrives e).toList
  taken := g.taken ++ (w.takes ok e).toList

/-- A worker with the record of its packets. -/
abbrev Receiving := Monitored UdpWorker InboxRecord

/-- The packets in the read buffer, in order. -/
def unreadPackets (w : UdpWorker) : List (List UInt8) :=
  w.channel.readBuf.queueList.map w.thread.bufRing.block

theorem unreadPackets_congr (hreadBuf : w'.channel.readBuf = w.channel.readBuf)
    (hblock : ∀ i ∈ w.channel.readBuf.queueList,
      w'.thread.bufRing.block i = w.thread.bufRing.block i) :
  w'.unreadPackets = w.unreadPackets
  := by
  rw [unreadPackets, unreadPackets, hreadBuf, List.map_congr_left hblock]

/-! ### What a step does with the packets -/

/-- The packets that the step takes, followed by those in the read buffer after it, are those before
it followed by `kept`.  Unless `io_uring_get_sqe` has failed, these are all that arrive, and the
buffers stay in the ring or in the read buffer. -/
structure Carries (w : UdpWorker) (e : UdpEvent) (ok : Bool) (w' : UdpWorker)
    (kept : List (List UInt8)) : Prop where
  sound : w'.channel.readBuf.toReadBufBase.Sound w'.thread.bufRing
  unread : (w.takes ok e).toList ++ w'.unreadPackets = w.unreadPackets ++ kept
  arrived : kept.Sublist (w.arrives e).toList
  bufNum : w'.thread.bufRing.bufNum = w.thread.bufRing.bufNum
  failed : w.thread.ioRing.failed = true → w'.thread.ioRing.failed = true
  exact : w'.thread.ioRing.failed = false → kept = (w.arrives e).toList
  conserved : w'.thread.ioRing.failed = false →
    (w'.thread.bufRing.ring ++ w'.channel.readBuf.queueList).Perm
      (w.thread.bufRing.ring ++ w.channel.readBuf.queueList)

/-- A packet is queued. -/
theorem carries_received (h : w.channel.readBuf.toReadBufBase.Sound w.thread.bufRing)
    (harrives : w.arrives e = some data) (htakes : w.takes ok e = none)
    (hidx : idx ∈ w.thread.bufRing.ring) (hfit : data.length ≤ w.thread.bufRing.bufSize)
    (hreadBuf : w'.channel.readBuf = ⟨(w.channel.readBuf.pushBuf w'.thread.bufRing idx).2⟩)
    (hring : w'.thread.bufRing = (w.thread.bufRing.fill idx data).setDataSize idx data.length)
    (hfailed : w.thread.ioRing.failed = true → w'.thread.ioRing.failed = true) :
  Carries w e ok w' [data]
  := by
  have he := h.fill_exchange hidx hfit
  obtain ⟨b, hpush, hbits, -, -, hqueue, -⟩ := h.pushBuf_eq hidx w'.thread.bufRing
  have hb : w'.channel.readBuf.toReadBufBase = b := by
    rw [hreadBuf, hpush]
  rw [← hring] at he
  rw [← hb] at hqueue hbits
  rw [← hqueue] at he
  have hsound : w'.channel.readBuf.toReadBufBase.Sound w'.thread.bufRing := h.exchange hbits he
  have hold : ∀ i ∈ w.channel.readBuf.queueList,
      w'.thread.bufRing.block i = w.thread.bufRing.block i := by
    intro i hi
    obtain ⟨hlt, hnot⟩ := h.of_mem hi
    apply he.frame_block i hlt hnot
    apply (hsound.of_mem _).2
    rw [hqueue]
    apply List.mem_append_left _ hi
  have hnew : w'.thread.bufRing.block idx = data := by
    rw [hring]
    apply BufRing.block_fill_self ..
  have hpackets : w'.unreadPackets = w.unreadPackets ++ [data] := by
    rw [unreadPackets, hqueue, List.map_append, List.map_singleton, hnew, unreadPackets,
      List.map_congr_left hold]
  constructor
  · apply hsound
  · rw [htakes, hpackets]
    rfl
  · rw [harrives]
    apply List.Sublist.refl _
  · apply congrArg (2 ^ ·) he.bits
  · apply hfailed
  · rw [harrives]
    exact fun _ => rfl
  · exact fun _ => he.perm

/-- A packet is lost, for want of a coroutine or of an SQE. -/
theorem carries_lost (h : w.channel.readBuf.toReadBufBase.Sound w.thread.bufRing)
    (htakes : w.takes ok e = none) (hidx : idx ∈ w.thread.bufRing.ring)
    (hfit : data.length ≤ w.thread.bufRing.bufSize)
    (hreadBuf : w'.channel.readBuf = w.channel.readBuf)
    (hring : w'.thread.bufRing = w.thread.bufRing.fill idx data)
    (hfailed : w'.thread.ioRing.failed = true) :
  Carries w e ok w' []
  := by
  have hlt := h.lt idx (List.mem_append_left _ hidx)
  have hframes := BufRing.frames_fill hidx hlt hfit h.size_le
  have hsub : (w'.thread.bufRing.ring ++ w.channel.readBuf.queueList).Sublist
      (w.thread.bufRing.ring ++ w.channel.readBuf.queueList) := by
    rw [hring]
    apply (List.erase_sublist).append_right _
  have hpackets : w'.unreadPackets = w.unreadPackets := by
    apply unreadPackets_congr hreadBuf
    intro i hi
    obtain ⟨hlt, hnot⟩ := h.of_mem hi
    rw [hring]
    apply hframes i hlt hnot (fun hmem => hnot (List.mem_of_mem_erase hmem))
  have hnot : w'.thread.ioRing.failed ≠ false := by
    rw [hfailed]
    simp
  refine ⟨⟨?_, ?_, ?_, ?_⟩, ?_, List.nil_sublist _, ?_, fun _ => hfailed,
    fun hfalse => absurd hfalse hnot, fun hfalse => absurd hfalse hnot⟩
  · rw [hreadBuf, hring]
    apply h.bits
  · rw [hreadBuf]
    apply h.nodup.sublist hsub
  · rw [hreadBuf]
    intro i hi
    rw [hring]
    apply h.lt i (hsub.subset hi)
  · rw [hring]
    apply h.size_le
  · rw [htakes, hpackets, List.append_nil]
    rfl
  · rw [hring]
    rfl

/-- `consume` takes the first packet, if there is one. -/
theorem unread_consumed (h : w.channel.readBuf.toReadBufBase.Sound w.thread.bufRing)
    (hconsume : w.channel.readBuf.consume w.thread.bufRing
      = (ok, w'.channel.readBuf, w'.thread.bufRing)) :
  (w.takes ok (.app .consume)).toList ++ w'.unreadPackets = w.unreadPackets
    ∧ (w.unreadPackets ≠ [] → ok = true)
  := by
  obtain ⟨hbits, he⟩ := ReadBufDgram.consume_exchange h
  rw [hconsume] at hbits he
  have hsound : w'.channel.readBuf.toReadBufBase.Sound w'.thread.bufRing := h.exchange hbits he
  rw [ReadBufDgram.consume] at hconsume
  split at hconsume
  case isTrue hempty =>
    obtain ⟨rfl, hreadBuf, hbufRing⟩ := by
      simpa only [Prod.mk.injEq] using hconsume
    have hnil : w.channel.readBuf.queueList = [] := (Circular.toList_eq_nil_iff _).mpr hempty
    constructor
    · rw [unreadPackets, ← hreadBuf, ← hbufRing]
      rfl
    · intro hne
      rw [unreadPackets, hnil] at hne
      apply absurd rfl hne
  case isFalse hne =>
    obtain ⟨rfl, hreadBuf, hbufRing⟩ := by
      simpa only [Prod.mk.injEq] using hconsume
    have hlist : w.channel.readBuf.queueList
        = w.channel.readBuf.queue.front w.channel.readBuf.bits :: w'.channel.readBuf.queueList := by
      rw [← hreadBuf]
      apply Circular.toList_of_ne hne
    have hold : ∀ i ∈ w'.channel.readBuf.queueList,
        w'.thread.bufRing.block i = w.thread.bufRing.block i := by
      intro i hi
      have hmem : i ∈ w.channel.readBuf.queueList := by
        rw [hlist]
        apply List.mem_cons_of_mem _ hi
      obtain ⟨hlt, hnot⟩ := h.of_mem hmem
      apply he.frame_block i hlt hnot (hsound.of_mem hi).2
    refine ⟨?_, fun _ => rfl⟩
    rw [takes, if_pos rfl, unreadPackets, unreadPackets, hlist, List.map_congr_left hold]
    rfl

theorem carries_consumed (h : w.channel.readBuf.toReadBufBase.Sound w.thread.bufRing)
    (hconsume : w.channel.readBuf.consume w.thread.bufRing
      = (ok, w'.channel.readBuf, w'.thread.bufRing))
    (hring : w'.thread.ioRing = w.thread.ioRing) :
  Carries w (.app .consume) ok w' []
  := by
  obtain ⟨hpackets, -⟩ := unread_consumed h hconsume
  obtain ⟨hbits, he⟩ := ReadBufDgram.consume_exchange h
  rw [hconsume] at hbits he
  constructor
  · apply h.exchange hbits he
  · rw [hpackets, List.append_nil]
  · apply List.Sublist.refl _
  · apply congrArg (2 ^ ·) he.bits
  · rw [hring]
    apply id
  · exact fun _ => rfl
  · exact fun _ => he.perm

/-- Every step is of this kind. -/
theorem Reads.carries (hreads : Reads w e ok w')
    (h : w.channel.readBuf.toReadBufBase.Sound w.thread.bufRing) (hadmits : w.Admits e) :
  ∃ kept, Carries w e ok w' kept
  := by
  cases hreads with
  | rests hop harrives hreadBuf hring hfailed =>
      have hpackets : w'.unreadPackets = w.unreadPackets := by
        apply unreadPackets_congr hreadBuf
        rw [hring]
        exact fun _ _ => rfl
      use []
      constructor
      · rw [hreadBuf, hring]
        apply h
      · rw [takes_of_ne hop, hpackets, List.append_nil]
        rfl
      · apply List.nil_sublist _
      · rw [hring]
      · apply hfailed
      · rw [harrives]
        exact fun _ => rfl
      · rw [hreadBuf, hring]
        exact fun _ => .refl _
  | @received i idx res more data fd _ hsqe hres _ hreadBuf hring hfailed =>
      obtain ⟨hidx, hlength, hfit⟩ := hadmits _ hsqe hres
      have harrives : w.arrives (.complete i res more idx data) = some data :=
        (arrives_of_recvmsg hsqe).trans (if_pos hres)
      rw [← hlength] at hring
      exact ⟨[data], carries_received h harrives rfl hidx hfit hreadBuf hring hfailed⟩
  | @lost i idx res more data fd _ hsqe hres hreadBuf hring hfailed =>
      obtain ⟨hidx, -, hfit⟩ := hadmits _ hsqe hres
      exact ⟨[], carries_lost h rfl hidx hfit hreadBuf hring hfailed⟩
  | consumed hconsume hring => exact ⟨[], carries_consumed h hconsume hring⟩

/-! ### The record -/

/-- The read buffer is sound, the record tells which packets it holds, and no packet and no buffer
is lost unless `io_uring_get_sqe` has failed. -/
structure Receives (w : UdpWorker) (g : InboxRecord) : Prop where
  sound : w.channel.readBuf.toReadBufBase.Sound w.thread.bufRing
  queued : (g.taken ++ w.unreadPackets).Sublist g.received
  exact : w.thread.ioRing.failed = false → g.taken ++ w.unreadPackets = g.received
  conserved : w.thread.ioRing.failed = false →
    (w.thread.bufRing.ring ++ w.channel.readBuf.queueList).Perm (List.range w.thread.bufRing.bufNum)

/-- Every step keeps the record of the packets. -/
theorem Receives.step {g : InboxRecord} (h : Receives w g) {kept : List (List UInt8)}
    (hcarries : Carries w e ok w' kept) :
  Receives w' (InboxRecord.observe w g e ok w')
  := by
  have hunread : g.taken ++ (w.takes ok e).toList ++ w'.unreadPackets
      = g.taken ++ w.unreadPackets ++ kept := by
    rw [List.append_assoc, hcarries.unread, List.append_assoc]
  constructor
  · apply hcarries.sound
  · rw [InboxRecord.observe, hunread]
    apply h.queued.append hcarries.arrived
  · intro hsucceeded
    rw [InboxRecord.observe, hunread, h.exact (failed_eq_false hcarries.failed hsucceeded),
      hcarries.exact hsucceeded]
  · intro hsucceeded
    rw [hcarries.bufNum]
    apply (hcarries.conserved hsucceeded).trans
      (h.conserved (failed_eq_false hcarries.failed hsucceeded))

/-! ### Packets that can be read -/

section

variable {ops : RecvmsgOps} {parse : List UInt8 → Option Packet}

/-- The bytes are those of a packet, whose address fits in `sockaddr_storage`. -/
def Formed (parse : List UInt8 → Option Packet) (data : List UInt8) : Prop :=
  ∃ p ∈ parse data, p.name.length ≤ sockaddrStorage

/-- What the kernel promises of the bytes of a received packet. -/
def Packs (parse : List UInt8 → Option Packet) (w : UdpWorker) (e : UdpEvent) : Prop :=
  ∀ data ∈ w.arrives e, Formed parse data

instance (data : List UInt8) : Decidable (Formed parse data) :=
  inferInstanceAs (Decidable (∃ p ∈ parse data, p.name.length ≤ sockaddrStorage))

instance (w : UdpWorker) (e : UdpEvent) : Decidable (w.Packs parse e) :=
  inferInstanceAs (Decidable (∀ data ∈ w.arrives e, Formed parse data))

/-- The read buffer holds packets. -/
def Packed (parse : List UInt8 → Option Packet) (w : UdpWorker) : Prop :=
  ∀ data ∈ w.unreadPackets, Formed parse data

theorem Packed.step (h : w.Packed parse) (hpacks : w.Packs parse e) {kept : List (List UInt8)}
    (hcarries : Carries w e ok w' kept) :
  w'.Packed parse
  := by
  intro data hmem
  have hmem' : data ∈ w.unreadPackets ++ kept := by
    rw [← hcarries.unread]
    apply List.mem_append_right _ hmem
  rcases List.mem_append.mp hmem' with hold | hnew
  · apply h data hold
  · apply hpacks data (Option.mem_toList.mp (hcarries.arrived.subset hnew))

/-- `peek` shows the first packet in the read buffer. -/
theorem Packed.peek (h : w.Packed parse) (hops : ops.Reads parse)
    (hsound : w.channel.readBuf.toReadBufBase.Sound w.thread.bufRing) :
  ∃ result, w.channel.readBuf.peek ops w.thread.bufRing = some result
    ∧ result.map (DgramMsg.packet ops w.thread.bufRing.bufs) = w.unreadPackets.head?.bind parse
  := by
  obtain ⟨result, hpeek, hpacket⟩ := ReadBufDgram.peek_spec hops hsound (by
    intro i hi
    obtain ⟨p, hp, -⟩ := h _ (List.mem_map_of_mem hi)
    apply Option.isSome_of_mem hp)
  refine ⟨result, hpeek, ?_⟩
  rw [hpacket, unreadPackets, List.head?_map, Option.bind_map]
  rfl

end

namespace Receiving

/-- A step of the worker and its monitor. -/
def step (m : Receiving) (e : UdpEvent) : Option Receiving :=
  Monitored.step stepResult InboxRecord.observe m e

/-- The worker when `run_loop` enters its loop, with nothing received. -/
def start (w : UdpWorker) : Receiving := ⟨w, {}⟩

/-- What holds in every state of a run. -/
structure Inv (m : Receiving) : Prop where
  inv : UdpWorker.Inv m.state
  awake : m.state.Awake
  receives : m.state.Receives m.record

/-- Every step keeps the invariant, and carries the packets. -/
theorem Inv.step {m m' : Receiving} (h : m.Inv) (hadmits : m.state.Admits e)
    (hstep : m.step e = some m') :
  m'.Inv ∧ ∃ ok kept, m.state.Carries e ok m'.state kept
  := by
  obtain ⟨ok, hresult, hrecord⟩ := Monitored.step_eq_some hstep
  obtain ⟨hreads, hawake⟩ := h.inv.reads h.awake hadmits hresult
  obtain ⟨kept, hcarries⟩ := hreads.carries h.receives.sound hadmits
  refine ⟨⟨h.inv.steps (h.inv.step_cases hadmits hresult), hawake, ?_⟩, ok, kept, hcarries⟩
  rw [hrecord]
  apply h.receives.step hcarries

end Receiving

/-- With an empty read buffer and all buffers in the ring nothing has been received. -/
theorem receives_of_empty (hqueue : w.channel.readBuf.queueList = [])
    (hbits : w.channel.readBuf.bits = w.thread.bufRing.bits)
    (hring : w.thread.bufRing.ring = List.range w.thread.bufRing.bufNum)
    (hsize : ∀ i, w.thread.bufRing.dataSize i ≤ w.thread.bufRing.bufSize) :
  w.Receives {}
  := by
  have hunread : w.unreadPackets = [] := by
    rw [unreadPackets, hqueue, List.map_nil]
  have hall : w.thread.bufRing.ring ++ w.channel.readBuf.queueList
      = List.range w.thread.bufRing.bufNum := by
    rw [hqueue, List.append_nil, hring]
  refine ⟨⟨hbits, ?_, ?_, hsize⟩, ?_, fun _ => hunread, ?_⟩
  · rw [hall]
    apply List.nodup_range
  · rw [hall]
    exact fun i hi => List.mem_range.mp hi
  · rw [hunread]
    apply List.Sublist.refl _
  · intro _
    rw [hall]

section

variable {depth : ℕ} {fd : Int} {ringBits ringBufSize : ℕ} {hringPos : 0 < ringBufSize}
  {halloc : 2 ^ ringBits * ringBufSize < 2 ^ 31} {bits bufSize : ℕ} {hbits : bits ≤ 30}
  {hpos : 0 < bufSize} {hlt : bufSize < 2 ^ 31} {pool : BufPool} {slotBits maxIov : ℕ}
  {hslot : slotBits ≤ 30} {hmax : 0 < maxIov} {capBits : Fin 31}

/-- At the start all receive buffers are in the ring. -/
theorem Receiving.inv_start (hpool : BufPool.new bits bufSize hbits hpos hlt = some pool)
    (hbytes : 2 ^ bits * bufSize < 2 ^ 31) :
  (Receiving.start (UdpWorker.start depth fd (BufRing.new ringBits ringBufSize hringPos halloc) pool
    (.new slotBits maxIov hslot hmax) capBits)).Inv
  := by
  have hnew := BufRing.new_eq ringBits ringBufSize hringPos halloc
  refine ⟨UdpWorker.inv_start depth fd _ hpool hbytes slotBits maxIov hslot hmax capBits, ?_, ?_⟩
  · exact ⟨by simp [Receiving.start, UdpWorker.start], by simp [Receiving.start, UdpWorker.start],
      by simp [Receiving.start, UdpWorker.start]⟩
  · apply receives_of_empty
    · apply (Circular.toList_eq_nil_iff _).mpr rfl
    · rfl
    · change (BufRing.new ringBits ringBufSize hringPos halloc).ring
        = List.range (BufRing.new ringBits ringBufSize hringPos halloc).bufNum
      rw [hnew]
      rfl
    · intro i
      apply (congrFun (congrArg BufRing.dataSize hnew) i).trans_le (Nat.zero_le _)

theorem packed_start (parse : List UInt8 → Option Packet) (bufRing : BufRing)
    (msghdrPool : MsghdrPool) :
  (start depth fd bufRing pool msghdrPool capBits).Packed parse
  := by
  have hnil : (start depth fd bufRing pool msghdrPool capBits).unreadPackets = [] :=
    List.map_eq_nil_iff.mpr ((Circular.toList_eq_nil_iff _).mpr rfl)
  intro data hmem
  rw [hnil] at hmem
  cases hmem

/-- The receive path refines a queue of packets.  Let `ops` be the functions of `liburing`, which
read the packets that `parse` finds (`RecvmsgOps.Reads`).  In every run in which the kernel writes
such packets, the packets that `consume` has taken, followed by those in the read buffer, are among
the packets received, in order.  `peek` returns, and shows the first packet in the read buffer, with
the address and the payload the kernel wrote, or null if there is none.  As long as
`io_uring_get_sqe` has succeeded, the packets taken and those in the read buffer are all packets
received, and every receive buffer is in the ring or in the read buffer, once. -/
theorem packets_in_order {ops : RecvmsgOps} {parse : List UInt8 → Option Packet}
    (hops : ops.Reads parse) (hpool : BufPool.new bits bufSize hbits hpos hlt = some pool)
    (hbytes : 2 ^ bits * bufSize < 2 ^ 31) {m : Receiving}
    (h : Reaches Receiving.step (fun m e => m.state.Admits e ∧ m.state.Packs parse e)
      (Receiving.start (UdpWorker.start depth fd (BufRing.new ringBits ringBufSize hringPos halloc)
        pool (.new slotBits maxIov hslot hmax) capBits)) m) :
  let w := m.state
  (m.record.taken ++ w.unreadPackets).Sublist m.record.received
    ∧ (∃ result, w.channel.readBuf.peek ops w.thread.bufRing = some result
      ∧ result.map (DgramMsg.packet ops w.thread.bufRing.bufs) = w.unreadPackets.head?.bind parse
      ∧ (result = none ↔ w.unreadPackets = []))
    ∧ (w.thread.ioRing.failed = false →
      m.record.taken ++ w.unreadPackets = m.record.received
      ∧ (w.thread.bufRing.ring ++ w.channel.readBuf.queueList).Perm
        (List.range w.thread.bufRing.bufNum))
  := by
  obtain ⟨hinv, hpacked⟩ : m.Inv ∧ m.state.Packed parse := by
    apply h.invariant (I := fun m => m.Inv ∧ m.state.Packed parse)
    · exact ⟨Receiving.inv_start hpool hbytes, packed_start parse _ _⟩
    · rintro m m' e ⟨hinv, hpacked⟩ ⟨hadmits, hpacks⟩ hstep
      obtain ⟨hinv', ok, kept, hcarries⟩ := hinv.step hadmits hstep
      exact ⟨hinv', hpacked.step hpacks hcarries⟩
  obtain ⟨result, hpeek, hpacket⟩ := hpacked.peek hops hinv.receives.sound
  refine ⟨hinv.receives.queued, ⟨result, hpeek, hpacket, ?_⟩, fun hsucceeded =>
    ⟨hinv.receives.exact hsucceeded, hinv.receives.conserved hsucceeded⟩⟩
  cases hunread : m.state.unreadPackets with
  | nil =>
      rw [hunread] at hpacket
      simpa using hpacket
  | cons data rest =>
      obtain ⟨p, hp, -⟩ := hpacked data (by rw [hunread]; exact List.mem_cons_self)
      rw [hunread, List.head?_cons, Option.bind_some, Option.mem_def.mp hp] at hpacket
      simp only [reduceCtorEq, iff_false]
      rintro rfl
      cases hpacket

end

/-- Two packets of four bytes arrive, from an address of two bytes, and the first one is taken. -/
theorem packets_in_order_two :
  ∃ pool m, BufPool.new 0 1 (by decide) (by decide) (by decide) = some pool
    ∧ Reaches Receiving.step (fun m e => m.state.Admits e ∧ m.state.Packs Packet.parse e)
      (Receiving.start (start 8 5 (BufRing.new 1 40 (by decide) (by decide)) pool
        (.new 0 1 (by decide) (by decide)) 0)) m
    ∧ m.record.received = [Packet.encode ⟨[2, 0], [1, 2, 3, 4]⟩, Packet.encode ⟨[2, 0], [5, 6, 7, 8]⟩]
    ∧ m.record.taken = [Packet.encode ⟨[2, 0], [1, 2, 3, 4]⟩]
    ∧ m.record.taken ++ m.state.unreadPackets = m.record.received
    ∧ ∃ msg, m.state.channel.readBuf.peek Packet.ops m.state.thread.bufRing = some (some msg)
      ∧ msg.packet Packet.ops m.state.thread.bufRing.bufs = ⟨[2, 0], [5, 6, 7, 8]⟩
  := by
  have hrun : (BufPool.new 0 1 (by decide) (by decide) (by decide)).bind (fun pool =>
      (Reaches.follow Receiving.step (fun m e => m.state.Admits e ∧ m.state.Packs Packet.parse e)
        [.submit, .complete 0 36 true 0 (Packet.encode ⟨[2, 0], [1, 2, 3, 4]⟩), .ret,
          .complete 0 36 true 1 (Packet.encode ⟨[2, 0], [5, 6, 7, 8]⟩), .app .consume]
        (Receiving.start (start 8 5 (BufRing.new 1 40 (by decide) (by decide)) pool
          (.new 0 1 (by decide) (by decide)) 0))).map
        (fun m => (m.record.received, m.record.taken, m.state.thread.ioRing.failed,
          m.state.unreadPackets.head?.bind Packet.parse)))
      = some ([Packet.encode ⟨[2, 0], [1, 2, 3, 4]⟩, Packet.encode ⟨[2, 0], [5, 6, 7, 8]⟩],
        [Packet.encode ⟨[2, 0], [1, 2, 3, 4]⟩], false, some ⟨[2, 0], [5, 6, 7, 8]⟩) := by
    decide +kernel
  obtain ⟨pool, hpool, hfollow⟩ := Option.bind_eq_some_iff.mp hrun
  obtain ⟨m, hreach, hfinal⟩ := Reaches.of_follow _ hfollow
  obtain ⟨hreceived, htaken, hfailed, hhead⟩ := by
    simpa only [Prod.mk.injEq] using hfinal
  obtain ⟨-, ⟨result, hpeek, hpacket, -⟩, hexact⟩ :=
    packets_in_order Packet.ops_reads hpool (by decide) hreach
  rw [hhead] at hpacket
  obtain ⟨msg, rfl, hmsg⟩ := Option.map_eq_some_iff.mp hpacket
  exact ⟨pool, m, hpool, hreach, hreceived, htaken, (hexact hfailed).1, msg, hpeek, hmsg⟩

end UdpWorker

end Proactor
