import UringProactor.Core.Delivery
import UringProactor.Core.Quiet
import UringProactor.Core.StopTokens
import UringProactor.Core.WriteStreams

/-!
# The drain of `on_stop`

The loop of `on_stop` ends when it has handled the completion of the cancel request, whatever is
outstanding then.  It is a drain only if the kernel posts that completion last and if nothing is
prepared meanwhile: no connection is accepted, no `recv` is armed again, no data is left to send
and none is submitted.  Then every call that the loop makes returns, and when it ends no SQE is
left.  With `cpu_id_ >= 0` the loop never submits, so the cancel request never reaches the kernel
and the loop does not end.
-/

namespace Proactor

/-- A closing channel has given its descriptor up. -/
structure Conn.Shut (k : Conn) : Prop extends Conn.Safe k where
  shut : k.token.closed = true → k.closed = true

theorem Conn.Shut.step {k k' : Conn} {a : Action} (h : Shut k) (hsettled : k.Settled a)
    (hstep : Step k a k') :
  Shut k'
  := by
  refine ⟨h.toSafe.step hsettled hstep, ?_⟩
  have hshut := h.shut
  cases hstep with
  | assign hfree harm hrun =>
      have := hrun.balanced
      cases harm <;> grind -linarith [Balanced]
  | ended _ _ hdrain => grind -linarith [hdrain.spec]
  | more _ hdrain => grind -linarith [hdrain.spec]
  | rearm _ _ hdrain harm =>
      have := hdrain.spec
      cases harm <;> grind -linarith
  | written _ _ hdrain => grind -linarith [hdrain.spec]
  | failed _ _ hdrain hclose =>
      have := hdrain.spec
      cases hclose with
      | skip _ => grind -linarith
      | close _ hclose => grind -linarith [hclose.spec]
  | staleRecv _ _ => exact hshut
  | staleWrite _ _ => exact hshut
  | onCloseReturns _ hclose =>
      cases hclose with
      | skip _ => exact hshut
      | close _ hclose => grind -linarith [hclose.spec]
  | onWriteReturns _ hrun => grind -linarith [Balanced, hrun.balanced]
  | submit hnotify => grind -linarith [Balanced, hnotify.balanced]
  | close hclose => grind -linarith [hclose.spec]

namespace TcpChannel

variable {c : ℕ} {ch ch' : TcpChannel} {th th' : TcpThread} {op : AppOp}

/-- The calls other than `submit` return. -/
theorem call_total (hwrite : WriteBufBase.Sound ch.writeBuf.toWriteBufBase th.bufPool)
    (hread : ch.readBuf.Sound th.bufRing) (hidle : ch.Idle) (hsubmit : op ≠ .submit) :
  ∃ r, ch.call c th op = some r
  := by
  cases op with
  | append data =>
      obtain ⟨ok, b, p, happend, -⟩ := WriteBufBase.append_spec hwrite data
      rw [call, happend]
      exact ⟨_, rfl⟩
  | prepend data =>
      obtain ⟨ok, b, p, hprepend, -⟩ := WriteBufBase.prepend_spec hwrite data
      rw [call, hprepend]
      exact ⟨_, rfl⟩
  | submit => exact absurd rfl hsubmit
  | peek size => exact ⟨_, rfl⟩
  | consume size =>
      rcases Nat.lt_or_ge ch.readBuf.readableBytes size with hgt | hle
      · rw [call, ReadBufStream.consume_of_gt hgt]
        exact ⟨_, rfl⟩
      · obtain ⟨s, r, R, hconsume, -⟩ := ReadBufStream.consume_of_le hread hle
        rw [call, hconsume]
        exact ⟨_, rfl⟩
  | close =>
      obtain ⟨ch', th', hclose⟩ := close_total (c := c) hwrite hidle
      rw [call, hclose]
      exact ⟨_, rfl⟩

end TcpChannel

namespace Worker

variable {w w' : Worker} {e : Event} {ok : Bool} {c : ℕ}

/-! ### Workers whose calls return -/

/-- What holds of a worker in every run whose actions are settled, and makes its calls return. -/
structure Ready (w : Worker) : Prop where
  shut : Inv Conn.Shut w
  posts : Posts w
  idles : Idles w
  apart : Apart w

theorem Inv.safe (h : Inv Conn.Shut w) :
  Inv Conn.Safe w
  := ⟨h.located, h.unused, fun c hc => (h.holds c hc).toSafe⟩

theorem Apart.step (h : Apart w) (hadmits : w.Admits e) (hresult : w.stepResult e = some (ok, w')) :
  Apart w'
  := by
  refine ((step_cases hresult).reads.owes h ?_ (g := fun _ => {}) (fun _ => .of_nil rfl) ?_).1
  · intro c l hlabel
    apply promised_of_admits hadmits hlabel
  · exact fun _ _ _ _ => rfl

theorem Ready.step (h : Ready w) (hruns : w.Runs Conn.Settled e)
    (hresult : w.stepResult e = some (ok, w')) :
  Ready w'
  := by
  obtain ⟨hadmits, hsettled⟩ := hruns
  have hstep : w.step e = some w' := congrArg (Option.map Prod.snd) hresult
  constructor
  · exact h.shut.step (fun _ hk => hk.toSafe) (fun _ _ _ hk hok hstep => hk.step hok hstep) hadmits
      hsettled hstep
  · exact (h.posts.step h.shut.safe hadmits hresult).1
  · exact h.idles.step hadmits hresult
  · exact h.apart.step hadmits hresult

/-- Being ready depends neither on the room in the submission queue nor on where control is
outside of callbacks. -/
theorem Ready.of_inLoop (h : Ready w) (hloop : w.InLoop) {depth : ℕ} {ctl : Ctl}
    (hctl : ctl = .poll ∨ ctl = .batch) :
  Ready { w.setRing { w.thread.ioRing with depth := depth } with ctl := ctl }
  := by
  have houtside : ∀ c, w.ctl ≠ .onClose c ∧ w.ctl ≠ .onWrite c := by
    intro c
    rcases hloop with hloop | hloop <;> rw [hloop] <;> exact ⟨nofun, nofun⟩
  have houtside' : ∀ c, ctl ≠ .onClose c ∧ ctl ≠ .onWrite c := by
    intro c
    rcases hctl with rfl | rfl <;> exact ⟨nofun, nofun⟩
  constructor
  · refine ⟨⟨?_, ?_⟩, h.shut.unused, h.shut.holds⟩
    · intro c
      exact iff_of_false (fun hread => (houtside c).1 ((h.shut.located.read c).mp hread))
        (houtside' c).1
    · intro c
      exact iff_of_false (fun hwrite => (houtside c).2 ((h.shut.located.write c).mp hwrite))
        (houtside' c).2
  · exact ⟨h.posts.conserved, h.posts.posted⟩
  · exact ⟨h.idles.idle, fun c hc => absurd hc (houtside' c).2⟩
  · exact h.apart

theorem ready_start (depth : ℕ) {ringBits ringBufSize : ℕ} {hringPos : 0 < ringBufSize}
    {halloc : 2 ^ ringBits * ringBufSize < 2 ^ 31} {bits bufSize : ℕ} {hbits : bits ≤ 30}
    {hpos : 0 < bufSize} {hlt : bufSize < 2 ^ 31} {pool : BufPool}
    (hpool : BufPool.new bits bufSize hbits hpos hlt = some pool) (poolBits capBits : Fin 31) :
  Ready (start depth (BufRing.new ringBits ringBufSize hringPos halloc) pool poolBits capBits)
  := by
  constructor
  · apply start_inv
    exact ⟨by constructor <;> decide, nofun⟩
  · exact posts_start depth _ poolBits capBits hpool
  · exact idles_start depth _ pool poolBits capBits
  · exact (Offering.inv_start depth pool poolBits capBits).apart

/-! ### Events of the drain -/

/-- The events of a pass of the loop of `on_stop` that can happen next. -/
def Enabled (w : Worker) : Event → Prop
  | .complete i _ _ _ _ => w.ctl = .batch ∧ i < w.thread.ioRing.inflight.length
  | .ret => ¬ w.InLoop
  | .app _ _ => True
  | .submit | .batchDone => False

/-- The `writev` of a channel has written at most what was submitted. -/
def MeasuredCqe (w : Worker) (res : Int) : UserData → Prop
  | .write c =>
      match (w.channels c).writeCo with
      | .onToken submittedBytes => res ≤ submittedBytes
      | _ => True
  | _ => True

/-- The assertion of `tcp_write_loop` holds. -/
def Measured (w : Worker) : Event → Prop
  | .complete i res _ _ _ => ∀ sqe ∈ w.thread.ioRing.inflight[i]?, w.MeasuredCqe res sqe.data
  | _ => True

instance (w : Worker) : ∀ e, Decidable (w.Enabled e)
  | .complete _ _ _ _ _ => inferInstanceAs (Decidable (_ ∧ _ < _))
  | .ret => inferInstanceAs (Decidable (¬ _))
  | .app _ _ => inferInstanceAs (Decidable True)
  | .submit | .batchDone => inferInstanceAs (Decidable False)

instance (w : Worker) (res : Int) : ∀ u, Decidable (w.MeasuredCqe res u)
  | .write c =>
      match h : (w.channels c).writeCo with
      | .onToken b => decidable_of_iff (res ≤ b) (by rw [MeasuredCqe, h])
      | .unstarted | .onNotify | .running | .finished => isTrue (by rw [MeasuredCqe, h]; trivial)
  | .wakeup | .accept | .read _ => inferInstanceAs (Decidable True)

instance (w : Worker) : ∀ e, Decidable (w.Measured e)
  | .complete i res _ _ _ =>
      inferInstanceAs (Decidable (∀ sqe ∈ w.thread.ioRing.inflight[i]?, w.MeasuredCqe res sqe.data))
  | .ret | .app _ _ | .submit | .batchDone => inferInstanceAs (Decidable True)

/-! ### The calls return -/

theorem kernel_bufPool {th : TcpThread} {i idx : ℕ} {u : UserData} {res : Int} {more : Bool}
    {data : List UInt8} :
  (kernel th i u res more idx data).bufPool = th.bufPool
  := by
  cases u with
  | read c =>
      rw [kernel]
      split <;> rfl
  | _ => rfl

theorem Ready.lt_size_of_onClose (h : Ready w) (hctl : w.ctl = .onClose c) :
  c < w.size
  := by
  by_contra hc
  have hread := (h.shut.unused c (Nat.le_of_not_lt hc)).read
  cases hread.symm.trans ((h.shut.located.read c).mpr hctl)

theorem Ready.lt_size_of_onWrite (h : Ready w) (hctl : w.ctl = .onWrite c) :
  c < w.size
  := by
  by_contra hc
  have hwrite := (h.shut.unused c (Nat.le_of_not_lt hc)).write
  cases hwrite.symm.trans ((h.shut.located.write c).mpr hctl)

theorem Ready.closed (h : Ready w) (hc : c < w.size) (hclosing : (w.channels c).isClosing = true) :
  (w.channels c).fd = -1
  := by
  have hshut := (h.shut.holds c hc).shut hclosing
  simpa [view, TcpChannel.view] using hshut

/-- `Token::complete` returns. -/
theorem Ready.complete_total (h : Ready w) {i idx : ℕ} {res : Int} {more : Bool}
    {data : List UInt8} {sqe : Sqe} (hsqe : w.thread.ioRing.inflight[i]? = some sqe)
    (hdelivers : w.Delivers sqe res more idx data) (hquiet : QuietCqe res more sqe.data)
    (hmeasured : w.MeasuredCqe res sqe.data) :
  ∃ w', complete { w with thread := kernel w.thread i sqe.data res more idx data } sqe.data res more
    idx = some w'
  := by
  obtain ⟨op, u⟩ := sqe
  have hmem := List.mem_append_right w.thread.ioRing.sq (List.mem_of_getElem? hsqe)
  have hpool : (kernel w.thread i u res more idx data).bufPool = w.thread.bufPool := kernel_bufPool
  dsimp only
  generalize kernel w.thread i u res more idx data = th at hpool ⊢
  have hsound : ∀ c < w.size, (w.channels c).writeBuf.Sound th.bufPool := by
    intro c hc
    rw [hpool]
    exact h.posts.sound hc
  cases u with
  | wakeup => exact ⟨_, rfl⟩
  | accept =>
      have hres : res < 0 := hquiet
      rw [complete]
      split
      · rw [resumeAccept, if_pos hres]
        exact ⟨_, rfl⟩
      · exact ⟨_, rfl⟩
  | read c =>
      have hc : c < w.size := by
        by_contra hc
        apply (IoRing.outstanding_pos hmem).ne'
        exact (h.shut.unused c (Nat.le_of_not_lt hc)).recvs
      obtain ⟨r, hresume⟩ := TcpChannel.resumeRead_total (c := c) (hsound c hc).toSound
        (h.idles.channel c) (h.closed hc) res more idx
      rw [complete]
      split
      · rw [hresume]
        exact ⟨_, rfl⟩
      · exact ⟨_, rfl⟩
  | write c =>
      have hc := h.shut.lt_size_of_mem hmem rfl
      rw [complete]
      split
      case h_1 submittedBytes hwrite =>
        change (w.channels c).writeCo = _ at hwrite
        change w.MeasuredCqe res (.write c) at hmeasured
        rw [MeasuredCqe, hwrite] at hmeasured
        obtain ⟨_, -, hcovers⟩ := (h.posts.posted c hc).onToken (IoRing.mem_writevs hmem rfl)
        have hunsent : res ≤ ((w.channels c).writeBuf.unsent th.bufPool).length := by
          rw [hpool]
          exact hdelivers.2.trans (Int.ofNat_le.mpr (hcovers.sum_le_unsent (h.posts.sound hc)))
        obtain ⟨r, hresume⟩ := TcpChannel.resumeWrite_total (c := c) (hsound c hc)
          (h.idles.handle_of_onToken hwrite) (h.closed hc) hmeasured hunsent
        rw [hresume]
        exact ⟨_, rfl⟩
      case h_2 => exact ⟨_, rfl⟩

/-- The enabled events that are quiet can be run to their end. -/
theorem Ready.step_total (h : Ready w) (henabled : w.Enabled e) (hadmits : w.Admits e)
    (hquiet : w.Quiet e) (hmeasured : w.Measured e) :
  ∃ ok w', w.stepResult e = some (ok, w')
  := by
  cases e with
  | submit => cases henabled
  | batchDone => cases henabled
  | complete i res more idx data =>
      obtain ⟨hctl, hi⟩ := henabled
      have hsqe := List.getElem?_eq_getElem hi
      obtain ⟨w', hcomplete⟩ := h.complete_total hsqe (hadmits _ hsqe) (hquiet _ hsqe)
        (hmeasured _ hsqe)
      rw [stepResult, if_pos hctl, hsqe]
      refine ⟨true, w', ?_⟩
      rw [Option.bind_some, hcomplete]
      rfl
  | ret =>
      rw [stepResult, afterCallback]
      cases hctl : w.ctl with
      | poll => exact absurd (.inl hctl) henabled
      | batch => exact absurd (.inr hctl) henabled
      | onAccept c => exact ⟨_, _, rfl⟩
      | onRead c rest => exact ⟨_, _, rfl⟩
      | onClose c =>
          obtain ⟨ch, th, hafter⟩ := TcpChannel.afterOnClose_total (c := c)
            (h.posts.sound (h.lt_size_of_onClose hctl)).toSound (h.idles.channel c)
            (h.apart.sound c)
          dsimp only
          rw [hafter]
          exact ⟨_, _, rfl⟩
      | onWrite c =>
          rw [Quiet, hctl] at hquiet
          obtain ⟨ch, th, hafter⟩ := TcpChannel.writeLoop_total (c := c)
            (h.posts.sound (h.lt_size_of_onWrite hctl)).toSound
            (TcpChannel.sendList_of_hasSendData hquiet)
          dsimp only
          rw [hafter]
          exact ⟨_, _, rfl⟩
  | app c op =>
      have hsubmit : op ≠ .submit := by
        rintro rfl
        exact hquiet
      obtain ⟨r, hcall⟩ := TcpChannel.call_total (c := c) (h.posts.sound hadmits).toSound
        (h.apart.sound c) (h.idles.channel c) hsubmit
      rw [stepResult, hcall]
      exact ⟨_, _, rfl⟩

end Worker

namespace StopWorker

variable {s s' s₀ : StopWorker} {e : StopEvent} {es : List StopEvent}

/-! ### Passes of the loop of `on_stop` -/

/-- The action of an event is settled. -/
def Settled (s : StopWorker) : StopEvent → Prop
  | .worker e => s.worker.Meets Conn.Settled e
  | _ => True

/-- Control is in the loop of `on_stop`. -/
def InDrain (s : StopWorker) : Prop := s.phase = .drain false ∨ s.phase = .drain true

/-- The events that can happen next in the loop of `on_stop`. -/
def Enabled (s : StopWorker) : StopEvent → Prop
  | .requestStop => s.InDrain
  | .worker e => s.InDrain ∧ s.worker.Enabled e
  | .leave => False
  | .poll => s.phase = .drain false ∧ s.worker.ctl = .poll
  | .cancelled => s.InDrain ∧ s.worker.ctl = .batch ∧ s.cancel = .submitted
  | .advance => s.InDrain ∧ s.worker.ctl = .batch

/-- The conditions of a drain: what happens prepares nothing, and the completion of the cancel
request comes when nothing is in flight. -/
def Orderly (s : StopWorker) : StopEvent → Prop
  | .worker e => s.worker.Quiet e ∧ s.worker.Measured e
  | .cancelled => s.ring.inflight = []
  | _ => True

/-- The events `es` can happen from `s` on, one after the other for as long as the calls they
make return, and they meet the conditions of a drain. -/
def Plays (s : StopWorker) : List StopEvent → Prop
  | [] => True
  | e :: es =>
      s.Enabled e ∧ s.Admits e ∧ s.Settled e ∧ s.Orderly e ∧ ∀ s' ∈ s.step e, Plays s' es

instance (s : StopWorker) : ∀ e, Decidable (s.Settled e)
  | .worker e => inferInstanceAs (Decidable (s.worker.Meets Conn.Settled e))
  | .requestStop | .leave | .poll | .cancelled | .advance => inferInstanceAs (Decidable True)

instance (s : StopWorker) : Decidable s.InDrain := inferInstanceAs (Decidable (_ ∨ _))

instance (s : StopWorker) : ∀ e, Decidable (s.Enabled e)
  | .requestStop => inferInstanceAs (Decidable (InDrain _))
  | .worker e => inferInstanceAs (Decidable (_ ∧ Worker.Enabled _ e))
  | .leave => inferInstanceAs (Decidable False)
  | .poll => inferInstanceAs (Decidable (_ = _ ∧ _ = _))
  | .cancelled => inferInstanceAs (Decidable (_ ∧ _ = _ ∧ _ = _))
  | .advance => inferInstanceAs (Decidable (_ ∧ _ = _))

instance (s : StopWorker) : ∀ e, Decidable (s.Orderly e)
  | .worker e => inferInstanceAs (Decidable (s.worker.Quiet e ∧ s.worker.Measured e))
  | .cancelled => inferInstanceAs (Decidable (_ = _))
  | .requestStop | .leave | .poll | .advance => inferInstanceAs (Decidable True)

/-- Whether events can be played is decided by running them. -/
instance decidablePlays : ∀ (es : List StopEvent) (s : StopWorker), Decidable (s.Plays es)
  | [], _ => inferInstanceAs (Decidable True)
  | _ :: es, s =>
      have : ∀ s', Decidable (Plays s' es) := decidablePlays es
      inferInstanceAs (Decidable (_ ∧ _ ∧ _ ∧ _ ∧ ∀ s' ∈ s.step _, Plays s' es))

/-- A worker in the loop of `on_stop`, with `cpu_id_ == -1`. -/
structure Draining (s : StopWorker) : Prop where
  ready : s.worker.Ready
  woken : s.worker.Woken
  mode : s.cpuId = -1
  phase : s.phase = .drain (decide (s.cancel = .completed))
  flushed : s.cancel ≠ .prepared → s.ring.sq = []
  emptied : s.cancel = .completed → s.ring.inflight = []

/-- A step of the worker in the loop of `on_stop`. -/
theorem Draining.worker_step (h : Draining s) {e : Event} (henabled : s.worker.Enabled e)
    (hruns : s.worker.Runs Conn.Settled e) (hquiet : s.worker.Quiet e)
    (hmeasured : s.worker.Measured e) :
  ∃ s', s.step (.worker e) = some s' ∧ Draining s' ∧ s'.cancel = s.cancel
  := by
  obtain ⟨ok, w, hresult⟩ := h.ready.step_total henabled hruns.1 hquiet hmeasured
  have hsteps := Worker.step_cases hresult
  have hsubmit : e ≠ .submit := by
    rintro rfl
    exact henabled
  have hsq := hsteps.sq_eq h.ready.idles hquiet
  have hrun : s.run e = some { s with worker := w, completed := s.completed ++ s.worker.calls e } := by
    rw [run, Worker.step, hresult]
    rfl
  have hstep : s.step (.worker e) = s.run e := by
    rw [step, h.phase]
    cases e with
    | submit => cases henabled
    | batchDone => cases henabled
    | ret => rfl
    | app c op => rfl
    | complete i res more idx data =>
        dsimp only
        rw [drainStep]
        split
        case h_1 op hsqe =>
          -- the wake-up read is finished
          have hmem := List.mem_append_right s.ring.sq (List.mem_of_getElem? hsqe)
          exact absurd rfl (h.woken _ hmem)
        case h_2 => rfl
  refine ⟨_, hstep.trans hrun, ?_, rfl⟩
  constructor
  · exact h.ready.step hruns hresult
  · exact h.woken.step hsteps.descriptors
  · exact h.mode
  · exact h.phase
  · intro hcancel
    exact hsq.trans (h.flushed hcancel)
  · intro hcancel
    have hsublist := hsteps.descriptors.inflight_sublist hsubmit
    rw [show s.worker.thread.ioRing.inflight = [] from h.emptied hcancel] at hsublist
    exact List.sublist_nil.mp hsublist

/-- The start of a pass. -/
theorem Draining.poll_step (h : Draining s) (hphase : s.phase = .drain false)
    (hctl : s.worker.ctl = .poll) :
  ∃ s', s.step .poll = some s' ∧ Draining s'
  := by
  have hsubmit : s.worker.stepResult .submit
      = some (true, { s.worker.setRing s.ring.submit with ctl := .batch }) := if_pos hctl
  have hready := h.ready.step (e := .submit) ⟨trivial, trivial⟩ hsubmit
  have hwoken : ∀ sqe ∈ s.ring.submit.sq ++ s.ring.submit.inflight, sqe.data ≠ .wakeup :=
    fun sqe hmem => h.woken sqe (IoRing.mem_of_mem_submit hmem)
  have hopen : s.cancel ≠ .completed := by
    intro hcancel
    have := h.phase
    rw [hphase, hcancel] at this
    cases this
  rw [step, poll, if_pos ⟨hphase, hctl⟩, if_pos h.mode]
  by_cases hcancel : s.cancel = .prepared
  · rw [if_pos hcancel]
    refine ⟨_, rfl, ?_⟩
    exact ⟨hready.of_inLoop (.inr rfl) (.inr rfl), hwoken, h.mode, hphase, fun _ => rfl, by simp⟩
  · rw [if_neg hcancel]
    refine ⟨_, rfl, ?_⟩
    exact ⟨hready, hwoken, h.mode, h.phase, fun _ => rfl, fun hover => absurd hover hopen⟩

theorem not_enabled_of_returned (h : s.phase = .returned) :
  ¬ s.Enabled e
  := by
  have hdrain : ¬ s.InDrain := by
    rw [InDrain, h]
    nofun
  cases e with
  | requestStop => exact hdrain
  | worker e => exact fun henabled => hdrain henabled.1
  | leave => exact id
  | poll => exact fun henabled => hdrain (.inl henabled.1)
  | cancelled => exact fun henabled => hdrain henabled.1
  | advance => exact fun henabled => hdrain henabled.1

/-- One event of the drain: the loop goes on and is done as soon as the cancel request has
completed, or it ends at the end of a pass in which it is done. -/
theorem Draining.step_total (h : Draining s) (henabled : s.Enabled e) (hadmits : s.Admits e)
    (hsettled : s.Settled e) (horderly : s.Orderly e) :
  ∃ s', s.step e = some s'
    ∧ (Draining s' ∧ (s.cancel = .completed ∨ e = .cancelled → s'.cancel = .completed)
        ∧ (e = .advance → s.cancel ≠ .completed)
      ∨ s.cancel = .completed ∧ s' = { s with phase := .returned })
  := by
  cases e with
  | requestStop =>
      refine ⟨_, rfl, .inl ⟨?_, ?_, by simp⟩⟩
      · exact ⟨h.ready, h.woken, h.mode, h.phase, h.flushed, h.emptied⟩
      · rintro (hcancel | ⟨⟨⟩⟩)
        exact hcancel
  | worker e =>
      obtain ⟨s', hstep, hdraining, hcancel⟩ := h.worker_step henabled.2 ⟨hadmits.1, hsettled⟩
        horderly.1 horderly.2
      refine ⟨s', hstep, .inl ⟨hdraining, ?_, by simp⟩⟩
      rintro (hover | ⟨⟨⟩⟩)
      exact hcancel.trans hover
  | leave => cases henabled
  | poll =>
      obtain ⟨s', hstep, hdraining⟩ := h.poll_step henabled.1 henabled.2
      refine ⟨s', hstep, .inl ⟨hdraining, ?_, by simp⟩⟩
      rintro (hover | ⟨⟨⟩⟩)
      have := h.phase
      rw [henabled.1, hover] at this
      cases this
  | cancelled =>
      obtain ⟨-, hctl, hsubmitted⟩ := henabled
      rw [step, h.phase]
      dsimp only
      rw [if_pos ⟨hctl, hsubmitted⟩]
      refine ⟨_, rfl, .inl ⟨?_, fun _ => rfl, by simp⟩⟩
      have hflushed : s.ring.sq = [] := h.flushed (by simp [hsubmitted])
      exact ⟨h.ready, h.woken, h.mode, rfl, fun _ => hflushed, fun _ => horderly⟩
  | advance =>
      obtain ⟨-, hctl⟩ := henabled
      rw [step, h.phase]
      dsimp only
      rw [if_pos hctl]
      by_cases hover : s.cancel = .completed
      · rw [if_pos (decide_eq_true hover)]
        exact ⟨_, rfl, .inr ⟨hover, rfl⟩⟩
      · rw [if_neg (by simpa using hover)]
        refine ⟨_, rfl, .inl ⟨?_, ?_, fun _ => hover⟩⟩
        · exact ⟨h.ready.of_inLoop (.inr hctl) (.inl rfl), h.woken, h.mode, rfl, h.flushed, h.emptied⟩
        · rintro (hcancel | ⟨⟨⟩⟩)
          exact absurd hcancel hover

/-- A run of the drain in which the cancel request completes and the pass ends. -/
theorem Draining.plays (h : Draining s) (hplays : s.Plays (es ++ [.advance]))
    (hcancel : s.cancel = .completed ∨ .cancelled ∈ es) :
  ∃ s', List.foldlM step s (es ++ [.advance]) = some s' ∧ s'.phase = .returned
    ∧ s'.ring.sq = [] ∧ s'.ring.inflight = []
  := by
  induction es generalizing s with
  | nil =>
      obtain ⟨henabled, hadmits, hsettled, horderly, -⟩ := hplays
      have hover : s.cancel = .completed := hcancel.resolve_right nofun
      obtain ⟨s', hstep, ⟨-, -, hopen⟩ | ⟨-, rfl⟩⟩ := h.step_total henabled hadmits hsettled horderly
      · exact absurd hover (hopen rfl)
      · refine ⟨{ s with phase := .returned }, ?_, rfl, h.flushed (by rw [hover]; nofun), h.emptied hover⟩
        rw [List.nil_append, List.foldlM_cons, hstep]
        rfl
  | cons e es ih =>
      obtain ⟨henabled, hadmits, hsettled, horderly, hrest⟩ := hplays
      obtain ⟨s', hstep, ⟨hdraining, hover, -⟩ | ⟨-, rfl⟩⟩ :=
        h.step_total henabled hadmits hsettled horderly
      · have hcancel' : s'.cancel = .completed ∨ .cancelled ∈ es := by
          rcases hcancel with hcancel | hmem
          · exact .inl (hover (.inl hcancel))
          · rcases List.mem_cons.mp hmem with heq | hmem
            · exact .inl (hover (.inr heq.symm))
            · exact .inr hmem
        rw [List.cons_append, List.foldlM_cons, hstep]
        exact ih hdraining (hrest s' hstep) hcancel'
      · -- nothing happens behind the end of the loop
        have hrest := hrest _ hstep
        cases es with
        | nil => exact absurd hrest.1 (not_enabled_of_returned rfl)
        | cons e' es => exact absurd hrest.1 (not_enabled_of_returned rfl)

/-! ### From the start of the worker -/

/-- Until `run_loop` leaves its loop, the worker is ready. -/
theorem ready_step (h : s.phase = .loop → s.worker.Ready) (hadmits : s.Admits e)
    (hsettled : s.Settled e) (hstep : Steps s e s') :
  s'.phase = .loop → s'.worker.Ready
  := by
  intro hphase'
  cases hstep with
  | requestStop => exact h hphase'
  | runs _ _ hrun =>
      obtain ⟨ok, w, hresult, rfl⟩ := run_eq hrun
      exact (h hphase').step ⟨hadmits.1, hsettled⟩ hresult
  | sentinel => cases hphase'
  | leave => cases hphase'
  | flush hphase => cases hphase.symm.trans hphase'
  | submit hphase => cases hphase.symm.trans hphase'
  | peek hphase => cases hphase.symm.trans hphase'
  | cancelled => cases hphase'
  | advance hphase => cases hphase.symm.trans hphase'
  | returns => cases hphase'

theorem draining_of_leave (h : s.phase = .loop → s.worker.Ready) (hcpu : s.cpuId = -1)
    (hwoken : s.worker.Woken) (hleave : s.leave = some s₀) :
  Draining s₀
  := by
  rw [leave] at hleave
  split at hleave
  case isTrue hif =>
    cases hleave
    obtain ⟨hphase, hctl, -⟩ := hif
    refine ⟨?_, hwoken, hcpu, rfl, fun hne => absurd rfl hne, by simp⟩
    have hready : Worker.Ready
        { s.worker.setRing { s.ring with depth := s.ring.depth - 1 } with ctl := .poll } :=
      (h hphase).of_inLoop (.inl hctl) (.inl rfl)
    rw [← hctl] at hready
    exact hready
  case isFalse => cases hleave

section

variable (depth : ℕ) {ringBits ringBufSize : ℕ} {hringPos : 0 < ringBufSize}
  {halloc : 2 ^ ringBits * ringBufSize < 2 ^ 31} {bits bufSize : ℕ} {hbits : bits ≤ 30}
  {hpos : 0 < bufSize} {hlt : bufSize < 2 ^ 31} {pool : BufPool} (poolBits capBits : Fin 31)

end

/-- With `cpu_id_ >= 0` the cancel request stays in the submission queue. -/
structure Pinned (s : StopWorker) : Prop where
  mode : s.cpuId ≠ -1
  cancel : s.cancel = .prepared
  phase : s.phase = .drain false ∨ s.phase = .undefined

theorem Pinned.step (h : Pinned s) (hstep : Steps s e s') :
  Pinned s'
  := by
  obtain ⟨hmode, hcancel, hphase⟩ := h
  cases hstep with
  | requestStop => exact ⟨hmode, hcancel, hphase⟩
  | runs _ _ hrun =>
      obtain ⟨ok, w, -, rfl⟩ := run_eq hrun
      exact ⟨hmode, hcancel, hphase⟩
  | sentinel => exact ⟨hmode, hcancel, .inr rfl⟩
  | leave hloop => rcases hphase with hphase | hphase <;> cases hloop.symm.trans hphase
  | flush _ _ hcpu => exact absurd hcpu hmode
  | submit _ _ hcpu => exact absurd hcpu hmode
  | peek => exact ⟨hmode, hcancel, hphase⟩
  | cancelled _ _ hsubmitted => cases hcancel.symm.trans hsubmitted
  | advance => exact ⟨hmode, hcancel, hphase⟩
  | returns hdone => rcases hphase with hphase | hphase <;> cases hdone.symm.trans hphase

end StopWorker

end Proactor
