import UringProactor.Core.Input

/-!
# Receive buffers of a worker

The kernel posts the last completion of a multishot `recv` without `IORING_CQE_F_MORE`.  Then, in a
run whose actions are settled, a `recv` is outstanding exactly while its read coroutine waits, so
every completion finds the coroutine it is for.  As long as `io_uring_get_sqe` succeeds, no buffer
is lost on the way: every provided buffer is in the ring or in the read buffer of one channel, and
a channel without a read coroutine holds none.
-/

namespace Proactor

namespace Conn

/-- A `recv` is outstanding only while the read coroutine waits for it. -/
structure Armed (k : Conn) : Prop extends Safe k where
  recvs_of_ne : k.read ≠ .awaiting → k.recvs = 0

/-- The completion that ends a stream is the last one of its `recv`. -/
def Final : Action → Prop
  | .recv ended more => ended = true → more = false
  | _ => True

instance : DecidablePred Final
  | .recv _ _ => inferInstanceAs (Decidable (_ → _))
  | .assign | .written _ | .staleRecv | .staleWrite | .onCloseReturns | .onWriteReturns | .submit
  | .close => inferInstanceAs (Decidable True)

variable {k k' : Conn} {a : Action}

theorem Armed.step (h : Armed k) (hsettled : k.Settled a) (hfinal : Final a) (hstep : Step k a k') :
  Armed k'
  := by
  refine ⟨h.toSafe.step hsettled hstep, ?_⟩
  have hrecvs := h.recvs_of_ne
  have hle := h.recvs_le
  cases hstep with
  | assign hfree harm hrun =>
      have := hrun.balanced
      have := h.idle hfree
      cases harm <;> grind -linarith [Balanced]
  | ended _ _ hdrain => grind -linarith [hdrain.spec, Final]
  | more _ hdrain => grind -linarith [hdrain.spec]
  | rearm _ _ hdrain harm =>
      have := hdrain.spec
      cases harm <;> grind -linarith
  | written _ _ hdrain => grind -linarith [hdrain.spec]
  | failed _ _ hdrain hclose =>
      have := hdrain.spec
      cases hclose with
      | skip _ => grind -linarith
      | close _ hclose => grind -linarith [hclose.spec]
  | staleRecv hread hone => grind -linarith
  | staleWrite _ _ => exact hrecvs
  | onCloseReturns _ hclose =>
      cases hclose with
      | skip _ => grind -linarith
      | close _ hclose => grind -linarith [hclose.spec]
  | onWriteReturns _ hrun => grind -linarith [Balanced, hrun.balanced]
  | submit hnotify => grind -linarith [Balanced, hnotify.balanced]
  | close hclose => grind -linarith [hclose.spec]

end Conn

/-- The read coroutine has not started, or has finished. -/
def ReadCo.Dead (co : ReadCo) : Prop := co = .unstarted ∨ co = .finished

namespace ReadSide

variable {c : ℕ} {s s' : ReadSide} {l : ReadLabel}

/-- A read side without a coroutine holds no buffer. -/
def Vacant (s : ReadSide) : Prop := s.co.Dead → s.buf.queueList = []

/-- As long as `io_uring_get_sqe` succeeds, a read coroutine resets its buffer before it ends. -/
theorem Step.vacant (h : Vacant s) (hsound : s.buf.Sound s.ring) (hsqe : s'.failed = false)
    (hstep : Step c s l s') :
  Vacant s'
  := by
  have hsame : s'.buf.queueList = s.buf.queueList → s'.co = s.co → Vacant s' := by
    intro hqueue hco hdead
    rw [hqueue]
    rw [hco] at hdead
    exact h hdead
  cases hstep with
  | quiet hrests => exact hsame (by rw [hrests.buf]) hrests.co
  | assign co failed hco _ hrests =>
      intro hdead
      have hsucceeded : failed = false := by
        rw [← Bool.not_eq_true]
        intro hfailed
        cases hsqe.symm.trans (hrests.failed hfailed)
      rw [hrests.co] at hdead
      obtain rfl | ⟨-, hfailed⟩ := hco
      · rcases hdead with hdead | hdead <;> cases hdead
      · cases hsucceeded.symm.trans hfailed
  | stale =>
      rw [filled_eq_with] at hsame ⊢
      exact hsame rfl rfl
  | recv _ hreceives =>
      intro hdead
      cases hreceives with
      | received => rcases hdead with hdead | hdead <;> cases hdead
      | ended _ hrests =>
          rw [hrests.co] at hdead
          rcases hdead with hdead | hdead <;> cases hdead
      | threw => cases hsqe
  | closed hrests _ hreset =>
      intro _
      obtain ⟨_, _, hrun, -, hqueue, -, -⟩ := ReadBufStream.reset_spec hsound
      rw [hrests.buf, hrests.ring, hrun] at hreset
      cases hreset
      exact hqueue
  | peek size => exact hsame (ReadBuf.peek_sound hsound size).2.2 rfl
  | @consume size _ _ _ hconsume =>
      rcases Nat.lt_or_ge s.buf.readableBytes size with hgt | hle
      · rw [ReadBufStream.consume_of_gt hgt] at hconsume
        cases hconsume
        exact h
      · intro hdead
        obtain ⟨_, _, _, hrun, -, -, hqueue, -⟩ := ReadBufStream.consume_of_le hsound hle
        rw [hrun] at hconsume
        cases hconsume
        rw [h hdead] at hqueue
        exact (List.append_eq_nil_iff.mp hqueue.symm).2
  | serve => exact hsame rfl rfl

end ReadSide

namespace Worker

open ReadSide

variable {w w' : Worker} {e : Event} {ok : Bool} {c : ℕ} {P : Conn → Prop}

/-- `on_read` apart, only channels of the pool act. -/
theorem Inv.lt_size_of_readLabel (h : Inv P w) (hadmits : w.Admits e) {l : ReadLabel}
    (hlabel : w.readLabel e = some (c, l)) (hserve : l ≠ .serve) :
  c < w.size
  := by
  by_contra hc
  have hunused := h.unused c (Nat.le_of_not_lt hc)
  have hsqes : ∀ (i : ℕ) (op : SqeOp) (u : UserData),
      w.thread.ioRing.inflight[i]? = some ⟨op, u⟩ →
      0 < w.thread.ioRing.outstanding u := by
    intro i op u hsqe
    have hmem := List.mem_append_right w.thread.ioRing.sq (List.mem_of_getElem? hsqe)
    exact IoRing.outstanding_pos hmem
  cases labels_of_readLabel hlabel with
  | assign hassigns => exact (free_pos_of_assigns hassigns).ne' hunused.free
  | received hsqe => exact (hsqes _ _ _ hsqe).ne' hunused.recvs
  | written hsqe => exact (hsqes _ _ _ hsqe).ne' hunused.writes
  | onCloseReturns hctl => cases hunused.read.symm.trans ((h.located.read c).mpr hctl)
  | onWriteReturns hctl => cases hunused.write.symm.trans ((h.located.write c).mpr hctl)
  | batchDone => exact hserve rfl
  | onReadReturns => exact hserve rfl
  | _ => exact hc hadmits

/-- Control enters `on_read` by serving a channel. -/
theorem Steps.onRead_cases (hsteps : Steps w e ok w') {rest : List ℕ}
    (hctl : w'.ctl = .onRead c rest) :
  w.ctl = .onRead c rest ∨ w.readLabel e = some (c, .serve)
  := by
  have hserves : ∀ l : List ℕ, (w.serveReads l).ctl = .onRead c rest → l.head? = some c := by
    intro l hserve
    cases l with
    | nil => cases hserve
    | cons d l =>
        cases hserve
        rfl
  cases hsteps with
  | submit => cases hctl
  | ignored => exact .inl hctl
  | refused => exact .inl hctl
  | exhausted => exact .inl hctl
  | accepted => cases hctl
  | @received _ _ _ _ _ callback => cases callback <;> cases hctl
  | @written _ _ _ _ _ _ callback => cases callback <;> cases hctl
  | batchDone =>
      right
      rw [readLabel, hserves _ hctl]
      rfl
  | onAcceptReturns => cases hctl
  | onCloseReturns => cases hctl
  | onWriteReturns => cases hctl
  | onReadReturns hread =>
      right
      rw [readLabel, hread]
      change Option.map _ _ = _
      rw [hserves _ hctl]
      rfl
  | call => exact .inl hctl

/-- `on_read` is called, and will be called, on channels of the pool only. -/
structure Served (w : Worker) : Prop extends Deferred w where
  scheduled_lt : ∀ c ∈ w.scheduled, c < w.size
  onRead_lt : ∀ c rest, w.ctl = .onRead c rest → c < w.size

theorem Served.step (h : Served w) (hinv : Inv P w) (hadmits : w.Admits e)
    (hsize : w'.size = w.size) (hsteps : Steps w e ok w') :
  Served w'
  := by
  have hschedules := hsteps.schedules h.poll
  have hserved : ∀ c, w.readLabel e = some (c, .serve) → c ∈ w.scheduled := by
    intro c hlabel
    rw [hlabel] at hschedules
    cases hschedules with
    | keeps hx => exact absurd rfl (hx c)
    | serves hscheduled =>
        rw [hscheduled]
        exact List.mem_cons_self
  refine ⟨h.toDeferred.step hsteps, ?_, ?_⟩
  · intro c hc
    rw [hsize]
    generalize hlabel : w.readLabel e = x at hschedules
    cases hschedules with
    | keeps _ hscheduled =>
        rw [hscheduled] at hc
        exact h.scheduled_lt c hc
    | marks _ hscheduled =>
        rw [hscheduled] at hc
        rcases List.mem_append.mp hc with hc | hc
        · exact h.scheduled_lt c hc
        · rw [List.mem_singleton.mp hc]
          exact hinv.lt_size_of_readLabel hadmits hlabel (by simp)
    | serves hscheduled =>
        apply h.scheduled_lt c
        rw [hscheduled]
        exact List.mem_cons_of_mem _ hc
  · intro c rest hctl
    rw [hsize]
    rcases hsteps.onRead_cases hctl with hread | hlabel
    · exact h.onRead_lt c rest hread
    · exact h.scheduled_lt c (hserved c hlabel)

theorem served_start (depth : ℕ) (bufRing : BufRing) (bufPool : BufPool)
    (poolBits capBits : Fin 31) :
  Served (start depth bufRing bufPool poolBits capBits)
  := by
  refine ⟨⟨List.nodup_nil, ?_, fun _ => rfl⟩, ?_, ?_⟩
  · intro c
    simp [scheduled, marks, start, newChannel]
  · intro c hc
    cases hc
  · intro c rest hctl
    cases hctl

/-- The action is settled, and a stream ends with the last completion of its `recv`. -/
def Delivered (k : Conn) (a : Action) : Prop := k.Settled a ∧ Conn.Final a

instance (k : Conn) (a : Action) : Decidable (Delivered k a) := inferInstanceAs (Decidable (_ ∧ _))

/-- The read buffers of the channels. -/
def readBufs (w : Worker) (c : ℕ) : ReadBuf := .stream (w.channels c).readBuf

/-- Every `recv` has its read coroutine, and every provided buffer is in the ring or in one read
buffer, none of them in the read buffer of a channel without a read coroutine. -/
structure Stocked (w : Worker) : Prop where
  armed : Inv Conn.Armed w
  succeeded : w.thread.ioRing.failed = false
  conserved : ReadConserved w.thread.bufRing w.size w.readBufs
  vacant : ∀ c, (w.readSide c).Vacant

theorem Inv.armed_safe (h : Inv Conn.Armed w) :
  Inv Conn.Safe w
  := ⟨h.located, h.unused, fun c hc => (h.holds c hc).toSafe⟩

/-- A completion of a `recv` finds the read coroutine waiting. -/
theorem Inv.awaiting_of_recv (h : Inv Conn.Armed w) (hc : c < w.size) {res : Int} {idx : ℕ}
    {data : List UInt8} (hlabel : w.readLabel e = some (c, .recv res idx data)) :
  (w.channels c).readCo = .awaiting
  := by
  cases labels_of_readLabel hlabel with
  | received hsqe =>
      have hmem := List.mem_append_right w.thread.ioRing.sq (List.mem_of_getElem? hsqe)
      have hpos : 0 < (w.view c).recvs := IoRing.outstanding_pos hmem
      by_contra hne
      exact hpos.ne' ((h.holds c hc).recvs_of_ne hne)

/-- A step does not resize the ring. -/
theorem Reads.geometry_eq {x : Option (ℕ × ReadLabel)} (hreads : Reads w w' x) (hapart : w.Apart)
    (hpromised : ∀ c l, x = some (c, l) → Promised (w.readSide c) l) :
  w'.thread.bufRing.bits = w.thread.bufRing.bits
    ∧ w'.thread.bufRing.bufSize = w.thread.bufRing.bufSize
  := by
  cases hreads with
  | none hside =>
      have hring : w'.thread.bufRing = w.thread.bufRing := congrArg ReadSide.ring (hside 0)
      rw [hring]
      exact ⟨rfl, rfl⟩
  | @acts c l hstep _ =>
      rcases hstep.exchange (hapart.sound c) (hpromised c l rfl) with he |
        ⟨⟨_, _, _, -, -, hring⟩, -, -⟩
      · exact ⟨he.bits, he.bufSize⟩
      · change (w'.readSide c).ring.bits = _ ∧ (w'.readSide c).ring.bufSize = _
        rw [hring]
        exact ⟨rfl, rfl⟩

/-- A step loses no buffer. -/
theorem Stocked.conserved_step (h : Stocked w) (hapart : w.Apart) (hapart' : w'.Apart)
    (hsize : w'.size = w.size) (hadmits : w.Admits e) (hsqe : w'.thread.ioRing.failed = false)
    (hsteps : Steps w e ok w') :
  ReadConserved w'.thread.bufRing w'.size w'.readBufs
  := by
  have hreads := hsteps.reads
  generalize hlabel : w.readLabel e = x at hreads
  rw [hsize]
  cases hreads with
  | none hside =>
      have hbufs : w'.readBufs = w.readBufs := by
        funext d
        exact congrArg ReadBuf.stream (congrArg ReadSide.buf (hside d))
      rw [hbufs, show w'.thread.bufRing = _ from congrArg ReadSide.ring (hside 0)]
      exact h.conserved
  | @acts c l hstep hother =>
      have hbufs : w'.readBufs
          = Function.update w.readBufs c (.stream (w'.channels c).readBuf) := by
        funext d
        by_cases hd : d = c
        · rw [hd, Function.update_self]
          rfl
        · rw [Function.update_of_ne hd]
          exact congrArg ReadBuf.stream (congrArg ReadSide.buf (hother d hd))
      by_cases hserve : l = .serve
      · subst hserve
        have hsame : (w'.readSide c).buf = (w.readSide c).buf
            ∧ (w'.readSide c).ring = (w.readSide c).ring := by
          generalize w'.readSide c = s at hstep
          cases hstep
          exact ⟨rfl, rfl⟩
        have hbuf : (w'.channels c).readBuf = (w.channels c).readBuf := hsame.1
        rw [hbufs, hbuf, show w'.thread.bufRing = _ from hsame.2]
        change ReadConserved _ _ (Function.update w.readBufs c (w.readBufs c))
        rw [Function.update_eq_self]
        exact h.conserved
      · have hc := h.armed.lt_size_of_readLabel hadmits hlabel hserve
        have hpromised := promised_of_admits hadmits hlabel
        rw [hbufs]
        rcases hstep.exchange (hapart.sound c) hpromised with he |
          ⟨⟨res, idx, data, rfl, -⟩, -, hwhy⟩
        · exact h.conserved.update hc he (hapart'.sound c)
        · rcases hwhy with hco | hfailed
          · exact absurd (h.armed.awaiting_of_recv hc hlabel) hco
          · cases hsqe.symm.trans hfailed

/-- A step leaves no buffer with a channel without a read coroutine. -/
theorem Reads.vacant {x : Option (ℕ × ReadLabel)} (hreads : Reads w w' x)
    (h : ∀ c, (w.readSide c).Vacant) (hapart : w.Apart) (hsqe : w'.thread.ioRing.failed = false)
    (d : ℕ) :
  (w'.readSide d).Vacant
  := by
  cases hreads with
  | none hside =>
      intro hdead
      rw [hside d] at hdead ⊢
      exact h d hdead
  | @acts c l hstep hother =>
      by_cases hd : d = c
      · rw [hd]
        exact hstep.vacant (h c) (hapart.sound c) hsqe
      · intro hdead
        rw [hother d hd] at hdead ⊢
        exact h d hdead

/-- Every step of such a run keeps the buffers where they belong. -/
theorem Stocked.step (h : Stocked w) (hapart : w.Apart) (hruns : w.Runs Delivered e)
    (hroomy : w.Roomy e) (hresult : w.stepResult e = some (ok, w')) :
  Stocked w'
  := by
  obtain ⟨hadmits, hdelivered⟩ := hruns
  have hsteps := step_cases hresult
  have hstep : w.step e = some w' := congrArg (Option.map Prod.snd) hresult
  have hsqe := hsteps.failed_eq hroomy h.succeeded
  constructor
  · apply h.armed.step (fun _ hk => hk.toSafe) _ hadmits hdelivered hstep
    intro k k' a hk hok hstep
    exact hk.step hok.1 hok.2 hstep
  · exact hsqe
  · exact h.conserved_step hapart (hapart.step hadmits hresult)
      (h.armed.armed_safe.size_step (fun _ hk => hk) hadmits hstep) hadmits hsqe hsteps
  · exact hsteps.reads.vacant h.vacant hapart hsqe

section

variable (depth : ℕ) {ringBits ringBufSize : ℕ} {hpos : 0 < ringBufSize}
  {halloc : 2 ^ ringBits * ringBufSize < 2 ^ 31} (bufPool : BufPool) (poolBits capBits : Fin 31)

/-- At the start all buffers are in the ring. -/
theorem stocked_start :
  Stocked (start depth (BufRing.new ringBits ringBufSize hpos halloc) bufPool poolBits capBits)
  := by
  have hnil : ∀ c, ((start depth (BufRing.new ringBits ringBufSize hpos halloc) bufPool poolBits
      capBits).channels c).readBuf.queueList = [] := fun _ => (Circular.toList_eq_nil_iff _).mpr rfl
  constructor
  · apply start_inv
    exact ⟨by constructor <;> decide, fun _ => rfl⟩
  · rfl
  · exact ReadSystem.new_inv _ ringBits ringBufSize hpos halloc (fun _ => true)
  · exact fun c _ => hnil c

/-- No receive buffer is lost.  In every run whose actions are settled, in which a stream ends with
the last completion of its `recv`, and in which the submission queue has room for the SQEs that are
prepared: the ring and the read buffers of the channels hold every provided buffer once; a `recv`
is outstanding exactly on the channels whose read coroutine waits for it; and a channel whose read
coroutine has not started or has finished holds no buffer. -/
theorem receive_buffers_accounted {w : Worker}
    (h : Reaches step (fun w e => w.Runs Delivered e ∧ w.Roomy e)
      (start depth (BufRing.new ringBits ringBufSize hpos halloc) bufPool poolBits capBits) w) :
  (w.thread.bufRing.ring
      ++ (List.range w.size).flatMap (fun c => (w.channels c).readBuf.queueList)).Perm
        (List.range (2 ^ ringBits))
    ∧ ∀ c < w.size,
      w.thread.ioRing.outstanding (.read c)
          = (if (w.channels c).readCo = .awaiting then 1 else 0)
        ∧ ((w.channels c).readCo = .unstarted ∨ (w.channels c).readCo = .finished →
          (w.channels c).readBuf.queueList = [])
  := by
  obtain ⟨hstocked, -, hbits⟩ : Stocked w ∧ w.Apart ∧ w.thread.bufRing.bits = ringBits := by
    apply h.invariant
    · refine ⟨stocked_start depth bufPool poolBits capBits,
        (Offering.inv_start depth bufPool poolBits capBits).apart, ?_⟩
      change (BufRing.new ringBits ringBufSize hpos halloc).bits = ringBits
      rw [BufRing.new_eq]
    · rintro w w' e ⟨hstocked, hapart, hbits⟩ ⟨hruns, hroomy⟩ hstep
      obtain ⟨⟨ok, w₁⟩, hresult, rfl⟩ := Option.map_eq_some_iff.mp hstep
      refine ⟨hstocked.step hapart hruns hroomy hresult, hapart.step hruns.1 hresult, ?_⟩
      rw [← hbits]
      have hreads := (step_cases hresult).reads
      exact (hreads.geometry_eq hapart (fun _ _ => promised_of_admits hruns.1)).1
  constructor
  · have hperm := hstocked.conserved.perm
    rw [BufRing.bufNum, hbits] at hperm
    exact hperm
  · intro c hc
    have harmed := hstocked.armed.holds c hc
    constructor
    · change (w.view c).recvs = if (w.view c).read = .awaiting then 1 else 0
      split
      case isTrue hread => exact harmed.awaiting hread
      case isFalse hread => exact harmed.recvs_of_ne hread
    · exact hstocked.vacant c

end

/-- A connection receives three times, and its second byte is consumed with the first: two buffers
are back in the ring, and the third is in the read buffer. -/
theorem receive_buffers_accounted_three_bytes :
  ∃ pool w, BufPool.new 0 1 (by decide) (by decide) (by decide) = some pool
    ∧ Reaches step (fun w e => w.Runs Delivered e ∧ w.Roomy e)
      (start 8 (BufRing.new 2 1 (by decide) (by decide)) pool 1 0) w
    ∧ w.thread.bufRing.ring = [3, 0, 1] ∧ (w.channels 0).readBuf.queueList = [2]
    ∧ (w.thread.bufRing.ring
      ++ (List.range w.size).flatMap (fun c => (w.channels c).readBuf.queueList)).Perm
        (List.range (2 ^ 2))
  := by
  have hrun : (BufPool.new 0 1 (by decide) (by decide) (by decide)).bind (fun pool =>
      (Reaches.follow step (fun w e => w.Runs Delivered e ∧ w.Roomy e)
        [.submit, .complete 0 5 true 0 [], .ret, .batchDone, .submit, .complete 2 1 true 0 [7],
          .complete 2 1 true 1 [8], .batchDone, .app 0 (.consume 2), .ret, .submit,
          .complete 2 1 false 2 [9]]
        (start 8 (BufRing.new 2 1 (by decide) (by decide)) pool 1 0)).map
          (fun w => (w.thread.bufRing.ring, (w.channels 0).readBuf.queueList)))
      = some ([3, 0, 1], [2]) := by
    decide +kernel
  obtain ⟨pool, hpool, hfollow⟩ := Option.bind_eq_some_iff.mp hrun
  obtain ⟨w, hreach, hfinal⟩ := Reaches.of_follow _ hfollow
  obtain ⟨hring, hqueue⟩ := Prod.mk.inj hfinal
  have h := (receive_buffers_accounted 8 pool 1 0 hreach).1
  exact ⟨pool, w, hpool, hreach, hring, hqueue, h⟩

end Worker

end Proactor
