import UringProactor.Net.Lifecycle
import UringProactor.Net.Outcome

/-!
# The channel functions refine the lifecycle

`ch.view c th` is what the lifecycle sees of the channel `ch` with index `c` on the thread
`th`.  Each function of a channel changes the view as the lifecycle says, and keeps the view
of every other channel.
-/

namespace Proactor

namespace TcpChannel

/-- What the lifecycle sees of a channel. -/
def view (c : ℕ) (ch : TcpChannel) (th : TcpThread) : Conn where
  closed := ch.fd = -1
  token := ch.notifyToken
  inFlight := ch.inFlight
  read := ch.readCo
  write := ch.writeCo
  recvs := th.ioRing.outstanding (.read c)
  writes := th.ioRing.outstanding (.write c)
  free := th.channelPool.freeList.count c

end TcpChannel

/-- `Keeps c th th'`: between `th` and `th'` only the channel `c` prepared SQEs or was
released. -/
structure TcpThread.Keeps (c : ℕ) (th th' : TcpThread) : Prop where
  ring : th.ioRing.Keeps c th'.ioRing
  bits : th'.channelPool.bits = th.channelPool.bits
  free : ∀ d, d ≠ c → th'.channelPool.freeList.count d = th.channelPool.freeList.count d

namespace TcpThread.Keeps

variable {c : ℕ} {th th' th'' : TcpThread}

/-- What does not touch the free queue keeps the other channels if the ring does. -/
theorem of_ring (hring : th.ioRing.Keeps c th'.ioRing)
    (hpool : th'.channelPool = th.channelPool) :
  Keeps c th th'
  := by
  refine ⟨hring, ?_, ?_⟩
  · rw [hpool]
  · intro d _
    rw [hpool]

/-- A change of the ring alone. -/
theorem of_ioRing {r : IoRing} (hring : th.ioRing.Keeps c r) :
  Keeps c th { th with ioRing := r }
  := of_ring hring rfl

/-- What touches neither the ring nor the free queue keeps the other channels. -/
theorem of_eq (hring : th'.ioRing = th.ioRing) (hpool : th'.channelPool = th.channelPool) :
  Keeps c th th'
  := by
  apply of_ring _ hpool
  rw [hring]
  exact .refl

theorem refl :
  Keeps c th th
  := of_eq rfl rfl

theorem trans (h : Keeps c th th') (h' : Keeps c th' th'') :
  Keeps c th th''
  := by
  refine ⟨h.ring.trans h'.ring, ?_, ?_⟩
  · rw [h'.bits, h.bits]
  · intro d hd
    rw [h'.free d hd, h.free d hd]

/-- The views of the other channels stay. -/
theorem view_eq (h : Keeps c th th') {d : ℕ} (hd : d ≠ c) (ch : TcpChannel) :
  ch.view d th' = ch.view d th
  := by
  rw [TcpChannel.view, TcpChannel.view, h.ring.recvs d hd, h.ring.writes d hd, h.free d hd]

end TcpThread.Keeps

namespace TcpChannelPool

/-- Releasing a channel appends its index to the free queue. -/
theorem freeList_release {pool pool' : TcpChannelPool} {c : ℕ} {ch : TcpChannel}
    (hroom : pool.freeList.length < pool.size) (h : pool.release c ch = some pool') :
  ch.fd = -1 ∧ pool'.bits = pool.bits ∧ pool'.freeList = pool.freeList ++ [c]
  := by
  rw [release] at h
  split at h
  case isTrue hfd =>
    cases h
    refine ⟨hfd, rfl, ?_⟩
    rw [freeList, Circular.length_toList] at hroom
    apply Circular.toList_push _ _ hroom
    have := pool.bits_le
    omega
  case isFalse => cases h

/-- Acquiring takes the first index of the free queue. -/
theorem freeList_acquire {pool pool' : TcpChannelPool} {c : ℕ}
    (h : pool.acquire = some (c, pool')) :
  pool'.bits = pool.bits ∧ pool.freeList = c :: pool'.freeList
  := by
  rw [acquire] at h
  split at h
  case isTrue => cases h
  case isFalse hne =>
    cases h
    refine ⟨rfl, ?_⟩
    apply Circular.toList_of_ne hne

end TcpChannelPool

namespace TcpChannel

variable {c : ℕ} {ch ch' : TcpChannel} {th th' : TcpThread}

/-- Preparing a `writev` adds it to the view. -/
theorem view_prep_write {op : SqeOp} {ioRing : IoRing}
    (hprep : th.ioRing.prep ⟨op, .write c⟩ = some ioRing) :
  ch.view c { th with ioRing := ioRing }
    = { ch.view c th with writes := (ch.view c th).writes + 1 }
  := by
  simp [view, IoRing.outstanding_prep _ hprep]

/-- Preparing a `recv` adds it to the view. -/
theorem view_prep_read {op : SqeOp} {ioRing : IoRing}
    (hprep : th.ioRing.prep ⟨op, .read c⟩ = some ioRing) :
  ch.view c { th with ioRing := ioRing }
    = { ch.view c th with recvs := (ch.view c th).recvs + 1 }
  := by
  simp [view, IoRing.outstanding_prep _ hprep]

/-- A run of the write coroutine. -/
theorem WriteOutcome.refines {woken : Bool} (h : WriteOutcome c woken ch th ch' th') :
  Conn.Runs woken (ch.view c th) (ch'.view c th') ∧ th.Keeps c th'
  := by
  cases h with
  | finish pending hdrained _ => exact ⟨.finish pending hdrained, .of_eq rfl rfl⟩
  | suspend _ hopen => exact ⟨.suspend hopen, .refl⟩
  | prepare hopen _ _ hprep =>
      constructor
      · rw [view_prep_write hprep]
        exact .prepare _ hopen
      · exact .of_ioRing (.of_prep_write hprep)
  | throw hopen => exact ⟨.throw hopen, .of_ioRing .fail⟩

/-- `NotifyToken::notify`. -/
theorem notify_refines (h : ch.notify c th = some (ch', th')) :
  Conn.Notifies (ch.view c th) (ch'.view c th') ∧ th.Keeps c th'
  := by
  rw [notify] at h
  split at h
  case isTrue hhandle =>
    obtain ⟨hrun, hkeeps⟩ := (resumeNotified_outcome h).refines
    exact ⟨.resume hhandle hrun, hkeeps⟩
  case isFalse hhandle =>
    cases h
    exact ⟨.mark (Bool.eq_false_iff.mpr hhandle), .refl⟩

/-- Notifying leaves the free queue as it is. -/
theorem notify_channelPool (h : ch.notify c th = some (ch', th')) :
  th'.channelPool = th.channelPool
  := by
  rw [notify] at h
  split at h
  · cases resumeNotified_outcome h <;> rfl
  · cases h
    rfl

/-- `TcpChannel::in_flight_dec`, as long as the free queue has room for the channel. -/
theorem inFlightDec_refines (h : ch.inFlightDec c th = some (ch', th'))
    (hroom : ch.inFlight = 1 → ch.isClosing = true →
      th.channelPool.freeList.length < th.channelPool.size) :
  Conn.Drains (ch.view c th) (ch'.view c th') ∧ th.Keeps c th'
  := by
  cases inFlightDec_cases h with
  | keep hopen => exact ⟨.keep hopen, .refl⟩
  | @drain _ th₁ pool hone hclosing hnotify hrelease =>
      obtain ⟨hnotifies, hkeeps⟩ := notify_refines hnotify
      rw [notify_channelPool hnotify] at hrelease
      obtain ⟨hfd, hbits, hlist⟩ :=
        TcpChannelPool.freeList_release (hroom hone hclosing) hrelease
      constructor
      · have hview : ch'.view c { th₁ with channelPool := pool }
            = { ch'.view c th₁ with free := (ch'.view c th₁).free + 1 } := by
          simp [view, hlist, notify_channelPool hnotify]
        rw [hview]
        exact .release hone hclosing hnotifies
      · apply hkeeps.trans
        refine ⟨.refl, ?_, ?_⟩
        · rw [notify_channelPool hnotify]
          exact hbits
        · intro d hd
          simp [hlist, notify_channelPool hnotify, Ne.symm hd]

/-- `TcpChannel::close`. -/
theorem close_refines (h : ch.close c th = some (ch', th')) :
  Conn.Closes (ch.view c th) (ch'.view c th') ∧ th.Keeps c th'
  := by
  obtain ⟨⟨ch₁, th₁⟩, hnotify, heq⟩ := Option.map_eq_some_iff.mp h
  cases heq
  obtain ⟨hnotifies, hkeeps⟩ := notify_refines hnotify
  refine ⟨?_, hkeeps⟩
  have hclose := Conn.Closes.mk (k := ch.view c th) hnotifies
  exact hclose

/-- Queueing received data suspends the read coroutine. -/
theorem pushReceived_refines {idx size : ℕ}
    (h : ch.pushReceived c th idx size = (ch', th')) :
  ch'.view c th' = { ch.view c th with read := .awaiting } ∧ th.Keeps c th'
  := by
  rw [pushReceived, markPendingRead] at h
  split at h
  · cases h
    exact ⟨rfl, .of_eq rfl rfl⟩
  · cases h
    exact ⟨rfl, .of_eq rfl rfl⟩

/-- `tcp_read_loop` after a completion; `k` is the view before the kernel finished the SQE. -/
theorem resumeRead_refines {k : Conn} {n idx : ℕ} {res : Int} {more callback : Bool}
    (hview : ch.view c th = { k with recvs := n }) (hread : k.read = .awaiting)
    (hrecvs : k.recvs = n + (!more).toNat)
    (hroom : ch.inFlight = 1 → ch.isClosing = true →
      th.channelPool.freeList.length < th.channelPool.size)
    (h : ch.resumeRead c th res more idx = some (ch', th', callback)) :
  Conn.Step k (.recv (res ≤ 0) more) (ch'.view c th') ∧ th.Keeps c th' ∧ callback = (res ≤ 0 : Bool)
  := by
  obtain ⟨ch₁, th₁, hdec, hrest⟩ := resumeRead_cases h
  obtain ⟨hdrain, hkeeps⟩ := inFlightDec_refines hdec hroom
  have hrunning : view c { ch with readCo := .running } th
      = { k with recvs := n, read := .running } := by
    change { ch.view c th with read := .running } = _
    rw [hview]
  rw [hrunning] at hdrain
  have hended : 0 < res → decide (res ≤ 0) = false :=
    fun hres => decide_eq_false (Int.not_le.mpr hres)
  cases hrest with
  | ended hres =>
      rw [decide_eq_true hres]
      exact ⟨.ended hread hrecvs hdrain, hkeeps, rfl⟩
  | pushed hres hpush =>
      rw [hended hres]
      obtain ⟨hview', hkeeps'⟩ := pushReceived_refines hpush
      have hn : n = k.recvs := by simpa using hrecvs.symm
      rw [hn] at hdrain
      rw [hview']
      exact ⟨.more hread hdrain, hkeeps.trans hkeeps', rfl⟩
  | threw hres _ =>
      rw [hended hres]
      exact ⟨.rearm hread hrecvs hdrain .throw, hkeeps.trans (.of_ioRing .fail), rfl⟩
  | rearmed hres hprep hpush =>
      rw [hended hres]
      obtain ⟨hview', hkeeps'⟩ := pushReceived_refines hpush
      rw [hview', view_prep_read hprep]
      have hkeeps₁ := hkeeps.trans (.of_ioRing (.of_prep_read hprep))
      exact ⟨.rearm hread hrecvs hdrain .arm, hkeeps₁.trans hkeeps', rfl⟩

/-- `if (!is_closing()) close()`. -/
theorem closeOnce_refines (h : ch.closeOnce c th = some (ch', th')) :
  Conn.ClosesOnce (ch.view c th) (ch'.view c th') ∧ th.Keeps c th'
  := by
  rw [closeOnce] at h
  split at h
  case isTrue hclosing =>
    cases h
    exact ⟨.skip hclosing, .refl⟩
  case isFalse hopen =>
    obtain ⟨hclose, hkeeps⟩ := close_refines h
    exact ⟨.close (Bool.eq_false_iff.mpr hopen) hclose, hkeeps⟩

/-- `tcp_read_loop` after `on_close`. -/
theorem afterOnClose_refines (hread : ch.readCo = .running)
    (h : ch.afterOnClose c th = some (ch', th')) :
  Conn.Step (ch.view c th) .onCloseReturns (ch'.view c th') ∧ th.Keeps c th'
  := by
  obtain ⟨⟨ch₁, th₁⟩, hclose, hrest⟩ := Option.bind_eq_some_iff.mp h
  obtain ⟨⟨readBuf, bufRing⟩, -, heq⟩ := Option.bind_eq_some_iff.mp hrest
  cases heq
  obtain ⟨hcloses, hkeeps⟩ := closeOnce_refines hclose
  exact ⟨.onCloseReturns hread hcloses, hkeeps.trans (.of_eq rfl rfl)⟩

/-- `tcp_write_loop` after `on_write`. -/
theorem afterOnWrite_refines (hwrite : ch.writeCo = .running)
    (h : ch.writeLoop c th = some (ch', th')) :
  Conn.Step (ch.view c th) .onWriteReturns (ch'.view c th') ∧ th.Keeps c th'
  := by
  obtain ⟨hrun, hkeeps⟩ := (writeLoop_outcome h).refines
  exact ⟨.onWriteReturns hwrite hrun, hkeeps⟩

/-- `tcp_write_loop` after a completion; `k` is the view before the kernel finished the SQE. -/
theorem resumeWrite_refines {k : Conn} {n submittedBytes : ℕ} {res : Int} {callback : Bool}
    (hview : ch.view c th = { k with writes := n }) (hwrite : k.write = .onToken submittedBytes)
    (hwrites : k.writes = n + 1)
    (h : ch.resumeWrite c th submittedBytes res = some (ch', th', callback))
    (hroom : ch.inFlight = 1 → ch.isClosing = true →
      th.channelPool.freeList.length < th.channelPool.size) :
  Conn.Step k (.written (res ≤ 0)) (ch'.view c th') ∧ th.Keeps c th' ∧ callback = (0 < res : Bool)
  := by
  obtain ⟨ch₁, th₁, hdec, hrest⟩ := resumeWrite_cases h
  obtain ⟨hdrain, hkeeps⟩ := inFlightDec_refines hdec hroom
  have hrunning : view c { ch with writeCo := .running } th
      = { k with writes := n, write := .running } := by
    change { ch.view c th with write := .running } = _
    rw [hview]
  rw [hrunning] at hdrain
  cases hrest with
  | failed hres hclose _ =>
      obtain ⟨hcloses, hkeeps'⟩ := closeOnce_refines hclose
      rw [decide_eq_true hres, decide_eq_false (Int.not_lt.mpr hres)]
      exact ⟨.failed hwrite hwrites hdrain hcloses,
        (hkeeps.trans hkeeps').trans (.of_eq rfl rfl), rfl⟩
  | consumed hres _ _ =>
      rw [decide_eq_false (Int.not_le.mpr hres), decide_eq_true hres]
      exact ⟨.written hwrite hwrites hdrain, hkeeps.trans (.of_eq rfl rfl), rfl⟩

/-- `TcpChannel::assign`; `k` is the view before the index was taken from the free queue. -/
theorem assign_refines {k : Conn} {fd : Int} (hfd : 0 ≤ fd) (hfree : 0 < k.free)
    (hview : ch.view c th = { k with free := k.free - 1 })
    (h : ch.assign c th fd = some (ch', th')) :
  Conn.Step k .assign (ch'.view c th') ∧ th.Keeps c th'
  := by
  obtain ⟨ch₁, th₁, hstart⟩ : ∃ ch₁ th₁,
      startRead c { ch with fd := fd, notifyToken := {} } th = (ch₁, th₁) := ⟨_, _, rfl⟩
  simp only [assign, hstart] at h
  obtain ⟨hrun, hkeeps⟩ := (writeLoop_outcome h).refines
  have hne : (fd = -1 : Bool) = false := by
    apply decide_eq_false
    omega
  have hreset : view c { ch with fd := fd, notifyToken := {} } th
      = { k with closed := false, token := {}, free := k.free - 1 } := by
    change { ch.view c th with closed := (fd = -1 : Bool), token := {} } = _
    rw [hview, hne]
  rw [startRead] at hstart
  split at hstart
  case h_1 =>
    cases hstart
    refine ⟨.assign hfree .throw ?_, .trans (.of_ioRing .fail) hkeeps⟩
    rw [← hreset]
    exact hrun
  case h_2 ioRing hprep =>
    cases hstart
    refine ⟨.assign hfree .arm ?_, .trans (.of_ioRing (.of_prep_read hprep)) hkeeps⟩
    rw [← hreset]
    rw [view_prep_read hprep] at hrun
    exact hrun

end TcpChannel

end Proactor
