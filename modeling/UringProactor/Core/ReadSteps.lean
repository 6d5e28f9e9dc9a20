import UringProactor.Core.WriteSteps
import UringProactor.Net.ReadSide

/-!
# What a step of the worker does on the read sides

Every event of a worker acts on the read side of at most one channel, as its label says.  The
other channels only see the ring of provided buffers and `pending_reads_` change, and failures of
`io_uring_get_sqe`.
-/

namespace Proactor

namespace Worker

open ReadSide

/-- The read side of the channel `c`. -/
def readSide (w : Worker) (c : ℕ) : ReadSide := (w.channels c).readSide w.thread

/-- The channel whose read side an event acts on, and how. -/
def readLabel (w : Worker) : Event → Option (ℕ × ReadLabel)
  | .complete i res _ idx data =>
      match w.thread.ioRing.inflight[i]? with
      | some ⟨_, .accept⟩ =>
          if w.accepting = true ∧ 0 ≤ res then
            w.thread.channelPool.acquire.map (fun (c, _) => (c, .assign))
          else
            none
      | some ⟨_, .read c⟩ => some (c, .recv res idx data)
      | some ⟨_, .write c⟩ => some (c, .quiet)
      | _ => none
  | .batchDone => w.thread.pendingReads.head?.map (fun c => (c, .serve))
  | .ret =>
      match w.ctl with
      | .onClose c => some (c, .closed)
      | .onWrite c => some (c, .quiet)
      | .onRead _ rest => rest.head?.map (fun c => (c, .serve))
      | _ => none
  | .app c (.peek _) => some (c, .peek)
  | .app c (.consume _) => some (c, .consume)
  | .app c _ => some (c, .quiet)
  | _ => none

/-- What an event with the given label does on the read sides. -/
inductive Reads (w w' : Worker) : Option (ℕ × ReadLabel) → Prop where
  | none (h : ∀ d, w'.readSide d = { w.readSide d with
        pending := w'.thread.pendingReads, failed := w'.thread.ioRing.failed })
      (hfailed : w.thread.ioRing.failed = true → w'.thread.ioRing.failed = true) :
      Reads w w' none
  | acts {c : ℕ} {l : ReadLabel} (hstep : Step c (w.readSide c) l (w'.readSide c))
      (hother : ∀ d, d ≠ c → w'.readSide d = { w.readSide d with
        ring := w'.thread.bufRing, pending := w'.thread.pendingReads,
        failed := w'.thread.ioRing.failed }) :
      Reads w w' (some (c, l))

variable {w w' : Worker} {e : Event} {ok : Bool} {c : ℕ}

/-! ### One channel acts -/

theorem readSide_update_self {ch : TcpChannel} {th : TcpThread} (ctl : Ctl) :
  readSide { w.update c ch th with ctl := ctl } c = ch.readSide th
  := by
  change TcpChannel.readSide (Function.update w.channels c ch c) th = _
  rw [Function.update_self]

theorem readSide_update_of_ne {d : ℕ} (hd : d ≠ c) {ch : TcpChannel} {th : TcpThread}
    (ctl : Ctl) :
  readSide { w.update c ch th with ctl := ctl } d = (w.channels d).readSide th
  := by
  change TcpChannel.readSide (Function.update w.channels c ch d) th = _
  rw [Function.update_of_ne hd]

/-- What changes at most the ring of a read side changes nothing else that channels share. -/
theorem readSide_eq_with {d : ℕ} {ring : BufRing}
    (h : w'.readSide d = { w.readSide d with ring := ring }) :
  w'.readSide d = { w.readSide d with
    ring := w'.thread.bufRing, pending := w'.thread.pendingReads,
    failed := w'.thread.ioRing.failed }
  := by
  change { w'.readSide d with
    ring := w'.thread.bufRing, pending := w'.thread.pendingReads,
    failed := w'.thread.ioRing.failed } = _
  rw [h]

/-- A function of the channel `c`. -/
theorem reads_update {l : ReadLabel} {ch : TcpChannel} {th : TcpThread} (ctl : Ctl)
    (hstep : Step c (w.readSide c) l (ch.readSide th)) :
  Reads w { w.update c ch th with ctl := ctl } (some (c, l))
  := by
  apply Reads.acts
  · rw [readSide_update_self]
    exact hstep
  · intro d hd
    exact readSide_update_of_ne hd ctl

/-- `TcpThread::on_batch_done` calls `on_read` on the next channel, or ends. -/
theorem reads_serveReads (rest : List ℕ) :
  Reads w (w.serveReads rest) (rest.head?.map (fun c => (c, .serve)))
  := by
  cases rest with
  | nil => exact .none (fun _ => rfl) id
  | cons c rest => exact reads_update (.onRead c rest) .serve

/-- A call of the application. -/
theorem call_reads {op : AppOp} {ch ch' : TcpChannel} {th th' : TcpThread}
    (hcall : ch.call c th op = some (ok, ch', th')) :
  ∃ l, ((∀ w : Worker, w.readLabel (.app c op) = some (c, l))
      ∧ (l = .quiet ∨ l = .peek ∨ l = .consume))
    ∧ Step c (ch.readSide th) l (ch'.readSide th')
  := by
  cases op with
  | append data =>
      obtain ⟨⟨ok', b, p⟩, -, heq⟩ := Option.map_eq_some_iff.mp hcall
      cases heq
      exact ⟨_, ⟨fun _ => rfl, .inl rfl⟩, .quiet .refl⟩
  | prepend data =>
      obtain ⟨⟨ok', b, p⟩, -, heq⟩ := Option.map_eq_some_iff.mp hcall
      cases heq
      exact ⟨_, ⟨fun _ => rfl, .inl rfl⟩, .quiet .refl⟩
  | submit =>
      rw [TcpChannel.call] at hcall
      dsimp only at hcall
      split at hcall
      case isTrue =>
        obtain ⟨⟨ch₁, th₁⟩, hnotify, heq⟩ := Option.map_eq_some_iff.mp hcall
        cases heq
        have hrests := TcpChannel.notify_rests hnotify
        exact ⟨_, ⟨fun _ => rfl, .inl rfl⟩, .quiet hrests⟩
      case isFalse =>
        cases hcall
        exact ⟨_, ⟨fun _ => rfl, .inl rfl⟩, .quiet .refl⟩
  | peek size =>
      cases hcall
      exact ⟨_, ⟨fun _ => rfl, .inr (.inl rfl)⟩, .peek size⟩
  | consume size =>
      obtain ⟨⟨ok', readBuf, bufRing⟩, hconsume, heq⟩ := Option.map_eq_some_iff.mp hcall
      cases heq
      exact ⟨_, ⟨fun _ => rfl, .inr (.inr rfl)⟩, .consume hconsume⟩
  | close =>
      obtain ⟨⟨ch₁, th₁⟩, hclose, heq⟩ := Option.map_eq_some_iff.mp hcall
      cases heq
      exact ⟨_, ⟨fun _ => rfl, .inl rfl⟩, .quiet (TcpChannel.close_rests hclose).1⟩

/-! ### Completions -/

theorem readSide_congr {ch : TcpChannel} {th th' : TcpThread} (hring : th'.bufRing = th.bufRing)
    (hpending : th'.pendingReads = th.pendingReads)
    (hfailed : th'.ioRing.failed = th.ioRing.failed) :
  ch.readSide th' = ch.readSide th
  := by
  rw [TcpChannel.readSide, hring, hpending, hfailed]
  rfl

/-- What the kernel does for a `recv`. -/
theorem readSide_kernel_read (ch : TcpChannel) (th : TcpThread) (i : ℕ) (res : Int) (more : Bool)
    (idx : ℕ) (data : List UInt8) :
  ch.readSide (kernel th i (.read c) res more idx data) = (ch.readSide th).filled res idx data
  := by
  rw [kernel, filled]
  dsimp only
  split
  · rw [TcpChannel.readSide, IoRing.failed_reap]
    rfl
  · exact readSide_congr rfl rfl IoRing.failed_reap

/-- What the kernel does for another SQE is not about the read sides. -/
theorem readSide_kernel {u : UserData} (hne : ∀ d, u ≠ .read d) (ch : TcpChannel) (th : TcpThread)
    (i : ℕ) (res : Int) (more : Bool) (idx : ℕ) (data : List UInt8) :
  ch.readSide (kernel th i u res more idx data) = ch.readSide th
  := by
  cases u with
  | read d => exact absurd rfl (hne d)
  | _ => exact readSide_congr rfl rfl IoRing.failed_reap

/-- The label of a completion, by its SQE. -/
theorem readLabel_read {i idx : ℕ} {res : Int} {more : Bool} {data : List UInt8} {op : SqeOp}
    (hsqe : w.thread.ioRing.inflight[i]? = some ⟨op, .read c⟩) :
  w.readLabel (.complete i res more idx data) = some (c, .recv res idx data)
  := by
  simp only [readLabel, hsqe]

theorem readLabel_write {i idx : ℕ} {res : Int} {more : Bool} {data : List UInt8} {op : SqeOp}
    (hsqe : w.thread.ioRing.inflight[i]? = some ⟨op, .write c⟩) :
  w.readLabel (.complete i res more idx data) = some (c, .quiet)
  := by
  simp only [readLabel, hsqe]

theorem readLabel_accept {i idx : ℕ} {res : Int} {more : Bool} {data : List UInt8} {op : SqeOp}
    (hsqe : w.thread.ioRing.inflight[i]? = some ⟨op, .accept⟩) :
  w.readLabel (.complete i res more idx data)
    = if w.accepting = true ∧ 0 ≤ res then
        w.thread.channelPool.acquire.map (fun (c, _) => (c, .assign))
      else
        none
  := by
  simp only [readLabel, hsqe]

/-- What leaves all read sides as they are. -/
theorem reads_none (h : ∀ d, w'.readSide d = w.readSide d) :
  Reads w w' none
  := by
  have hfailed : w'.thread.ioRing.failed = w.thread.ioRing.failed :=
    congrArg ReadSide.failed (h 0)
  apply Reads.none
  · intro d
    rw [← h d]
    rfl
  · rw [hfailed]
    exact id

/-- A completion that no coroutine waits for. -/
theorem reads_ignored {i idx : ℕ} {res : Int} {more : Bool} {data : List UInt8} {op : SqeOp}
    {u : UserData} (hsqe : w.thread.ioRing.inflight[i]? = some ⟨op, u⟩) (hignores : w.Ignores u) :
  Reads w { w with thread := kernel w.thread i u res more idx data }
    (w.readLabel (.complete i res more idx data))
  := by
  cases u with
  | wakeup =>
      simp only [readLabel, hsqe]
      exact reads_none (fun d => readSide_kernel (by nofun) _ _ i res more idx data)
  | accept =>
      rw [readLabel_accept hsqe, if_neg (fun h => Bool.false_ne_true (hignores.symm.trans h.1))]
      exact reads_none (fun d => readSide_kernel (by nofun) _ _ i res more idx data)
  | read c =>
      rw [readLabel_read hsqe]
      have hside : ∀ d,
          readSide { w with thread := kernel w.thread i (.read c) res more idx data } d
            = (w.readSide d).filled res idx data :=
        fun d => readSide_kernel_read (c := c) _ _ i res more idx data
      apply Reads.acts
      · rw [hside]
        exact .stale hignores
      · intro d _
        apply readSide_eq_with
        rw [hside]
        exact filled_eq_with res idx data
  | write c =>
      rw [readLabel_write hsqe]
      have hside : ∀ d,
          readSide { w with thread := kernel w.thread i (.write c) res more idx data } d
            = w.readSide d :=
        fun d => readSide_kernel (by nofun) _ _ i res more idx data
      apply Reads.acts
      · rw [hside]
        exact .quiet .refl
      · intro d _
        exact readSide_eq_with (hside d)

/-! ### Every step -/

/-- A step acts on the read sides as its label says. -/
theorem Steps.reads (h : Steps w e ok w') :
  Reads w w' (w.readLabel e)
  := by
  cases h with
  | submit hctl => exact reads_none (fun _ => rfl)
  | ignored hctl hsqe hignores => exact reads_ignored hsqe hignores
  | @refused i idx res more data op hctl hsqe hres =>
      rw [readLabel_accept hsqe, if_neg (fun h => absurd h.2 (by omega))]
      exact reads_none (fun d => readSide_kernel (by nofun) _ _ i res more idx data)
  | exhausted hctl hsqe _ hrearm hacquire =>
      rw [readLabel_accept hsqe, hacquire, Option.map_none, ite_self]
      obtain ⟨-, hfailed⟩ := accept_spec hsqe hrearm
      exact reads_none (fun d => readSide_congr rfl rfl hfailed)
  | @accepted i idx c res more data op ioRing pool ch th hctl hsqe haccepting hres hrearm hacquire
      hassign =>
      rw [readLabel_accept hsqe, hacquire, if_pos ⟨haccepting, hres⟩, Option.map_some]
      obtain ⟨-, hfailed⟩ := accept_spec hsqe hrearm
      have hside : (w.channels c).readSide
          { w.thread with ioRing := ioRing, channelPool := pool } = w.readSide c :=
        readSide_congr rfl rfl hfailed
      have hstep := TcpChannel.assign_readStep hassign
      rw [hside] at hstep
      exact reads_update (.onAccept c) hstep
  | @received i idx c res more callback data op ch th hctl hsqe hread hresume =>
      rw [readLabel_read hsqe]
      have hreceives := TcpChannel.resumeRead_receives hresume
      rw [readSide_kernel_read] at hreceives
      exact reads_update _ (.recv hread hreceives)
  | @written i idx c submittedBytes res more callback data op ch th hctl hsqe hwrite hresume =>
      rw [readLabel_write hsqe]
      have hside : (w.channels c).readSide
          { w.thread with ioRing := w.thread.ioRing.reap i more } = w.readSide c :=
        readSide_congr rfl rfl IoRing.failed_reap
      have hrests := TcpChannel.resumeWrite_rests hresume
      rw [hside] at hrests
      exact reads_update _ (.quiet hrests)
  | batchDone hctl => exact reads_serveReads _
  | onAcceptReturns hctl =>
      rw [readLabel, hctl]
      exact reads_none (fun _ => rfl)
  | onCloseReturns hctl hafter =>
      rw [readLabel, hctl]
      exact reads_update .batch (TcpChannel.afterOnClose_readStep hafter)
  | onWriteReturns hctl hafter =>
      rw [readLabel, hctl]
      exact reads_update .batch (.quiet (TcpChannel.writeLoop_outcome hafter).rests)
  | onReadReturns hctl =>
      rw [readLabel, hctl]
      exact reads_serveReads _
  | call hcall =>
      obtain ⟨l, ⟨hlabel, -⟩, hstep⟩ := call_reads hcall
      rw [hlabel]
      exact reads_update w.ctl hstep

/-! ### Events by their labels -/

/-- The events that act on the read side of the channel `c` with a given label. -/
inductive ReadLabels (w : Worker) (c : ℕ) : Event → ReadLabel → Prop where
  | assign {e : Event} (h : w.Assigns c e) : ReadLabels w c e .assign
  | received {i idx : ℕ} {res : Int} {more : Bool} {data : List UInt8} {op : SqeOp}
      (hsqe : w.thread.ioRing.inflight[i]? = some ⟨op, .read c⟩) :
      ReadLabels w c (.complete i res more idx data) (.recv res idx data)
  | written {i idx : ℕ} {res : Int} {more : Bool} {data : List UInt8} {op : SqeOp}
      (hsqe : w.thread.ioRing.inflight[i]? = some ⟨op, .write c⟩) :
      ReadLabels w c (.complete i res more idx data) .quiet
  | batchDone (hnext : w.thread.pendingReads.head? = some c) : ReadLabels w c .batchDone .serve
  | onCloseReturns (hctl : w.ctl = .onClose c) : ReadLabels w c .ret .closed
  | onWriteReturns (hctl : w.ctl = .onWrite c) : ReadLabels w c .ret .quiet
  | onReadReturns {d : ℕ} {rest : List ℕ} (hctl : w.ctl = .onRead d rest)
      (hnext : rest.head? = some c) : ReadLabels w c .ret .serve
  | peek {size : ℕ} : ReadLabels w c (.app c (.peek size)) .peek
  | consume {size : ℕ} : ReadLabels w c (.app c (.consume size)) .consume
  | call {op : AppOp} : ReadLabels w c (.app c op) .quiet

theorem labels_of_readLabel {l : ReadLabel} (h : w.readLabel e = some (c, l)) :
  ReadLabels w c e l
  := by
  cases e with
  | submit => cases h
  | batchDone =>
      obtain ⟨d, hnext, heq⟩ := Option.map_eq_some_iff.mp h
      cases heq
      exact .batchDone hnext
  | ret =>
      rw [readLabel] at h
      split at h
      case h_1 hctl =>
        cases h
        exact .onCloseReturns hctl
      case h_2 hctl =>
        cases h
        exact .onWriteReturns hctl
      case h_3 hctl =>
        obtain ⟨d, hnext, heq⟩ := Option.map_eq_some_iff.mp h
        cases heq
        exact .onReadReturns hctl hnext
      case h_4 => cases h
  | app d op =>
      cases op with
      | peek => cases h; exact .peek
      | consume => cases h; exact .consume
      | _ => cases h; exact .call
  | complete i res more idx data =>
      rw [readLabel] at h
      split at h
      case h_1 op hsqe =>
        split at h
        case isTrue hif =>
          obtain ⟨⟨d, pool⟩, hacquire, heq⟩ := Option.map_eq_some_iff.mp h
          cases heq
          exact .assign ⟨congrArg (Option.map Sqe.data) hsqe, hif.1, hif.2,
            congrArg (Option.map Prod.fst) hacquire⟩
        case isFalse => cases h
      case h_2 hsqe =>
        cases h
        exact .received hsqe
      case h_3 hsqe =>
        cases h
        exact .written hsqe
      case h_4 => cases h

/-! ### The calls of `on_read` to come -/

/-- The channels on which `on_read` will be called before the next submit. -/
def scheduled (w : Worker) : List ℕ :=
  match w.ctl with
  | .poll => []
  | .onRead _ rest => rest
  | _ => w.thread.pendingReads

/-- `in_pending_reads_` of the channels. -/
def marks (w : Worker) (c : ℕ) : Bool := (w.channels c).inPendingReads

/-- How an event with the given label changes the calls of `on_read` to come. -/
inductive Schedules (w w' : Worker) : Option (ℕ × ReadLabel) → Prop where
  | keeps {x : Option (ℕ × ReadLabel)} (hx : ∀ c, x ≠ some (c, .serve))
      (hscheduled : w'.scheduled = w.scheduled) (hmarks : w'.marks = w.marks) : Schedules w w' x
  | marks {c idx : ℕ} {res : Int} {data : List UInt8} (hmark : w.marks c = false)
      (hscheduled : w'.scheduled = w.scheduled ++ [c])
      (hmarks : w'.marks = Function.update w.marks c true) :
      Schedules w w' (some (c, .recv res idx data))
  | serves {c : ℕ} (hscheduled : w.scheduled = c :: w'.scheduled)
      (hmarks : w'.marks = Function.update w.marks c false) : Schedules w w' (some (c, .serve))

/-- While the completions of a batch are handled, all of `pending_reads_` is still to come. -/
theorem scheduled_of_ne (hpoll : w.ctl ≠ .poll) (hread : ∀ c rest, w.ctl ≠ .onRead c rest) :
  w.scheduled = w.thread.pendingReads
  := by
  rw [scheduled]
  split
  · contradiction
  case h_2 c rest hctl => exact absurd hctl (hread c rest)
  · rfl

theorem scheduled_of_ctl {ctl : Ctl} (hctl : w.ctl = ctl) (hpoll : ctl ≠ .poll)
    (hread : ∀ c rest, ctl ≠ .onRead c rest) :
  w.scheduled = w.thread.pendingReads
  := by
  apply scheduled_of_ne
  · rw [hctl]
    exact hpoll
  · rw [hctl]
    exact hread

theorem scheduled_congr (hctl : w'.ctl = w.ctl)
    (hpending : w'.thread.pendingReads = w.thread.pendingReads) :
  w'.scheduled = w.scheduled
  := by
  rw [scheduled, hctl, hpending]
  rfl

theorem marks_eq (d : ℕ) :
  w.marks d = (w.readSide d).marked
  := rfl

/-- An event that serves no channel, in a batch. -/
theorem Reads.schedules {x : Option (ℕ × ReadLabel)} (h : Reads w w' x)
    (hx : ∀ c, x ≠ some (c, .serve)) (hbefore : w.scheduled = w.thread.pendingReads)
    (hafter : w'.scheduled = w'.thread.pendingReads)
    (hnone : x = .none → w'.thread.pendingReads = w.thread.pendingReads) :
  Schedules w w' x
  := by
  cases h with
  | none h =>
      apply Schedules.keeps hx
      · rw [hafter, hbefore, hnone rfl]
      · funext d
        rw [marks_eq, h]
        rfl
  | @acts c l hstep hother =>
      have hmarks : ∀ b, (w'.readSide c).marked = b → w'.marks = Function.update w.marks c b := by
        intro b hb
        funext d
        by_cases hd : d = c
        · rw [hd, Function.update_self]
          exact hb
        · rw [Function.update_of_ne hd, marks_eq, hother d hd]
          rfl
      rcases hstep.pending with ⟨hmarked, hpending⟩
        | ⟨⟨res, idx, data, rfl⟩, hmark, hmarked, hpending⟩ | ⟨rfl, -⟩
      · apply Schedules.keeps hx
        · rw [hafter, hbefore]
          exact hpending
        · rw [hmarks _ hmarked]
          exact Function.update_eq_self c w.marks
      · apply Schedules.marks hmarked
        · rw [hafter, hbefore]
          exact hpending
        · exact hmarks _ hmark
      · exact absurd rfl (hx c)

/-- `TcpThread::on_batch_done` serves the next channel, or ends. -/
theorem schedules_serveReads {rest : List ℕ} (hscheduled : w.scheduled = rest) :
  Schedules w (w.serveReads rest) (rest.head?.map (fun c => (c, .serve)))
  := by
  cases rest with
  | nil => exact .keeps nofun hscheduled.symm rfl
  | cons c rest =>
      apply Schedules.serves hscheduled
      funext d
      change (Function.update w.channels c { w.channels c with inPendingReads := false }
        d).inPendingReads = _
      rw [Function.update_apply, Function.update_apply]
      split <;> rfl

theorem pendingReads_kernel (th : TcpThread) (i : ℕ) (u : UserData) (res : Int) (more : Bool)
    (idx : ℕ) (data : List UInt8) :
  (kernel th i u res more idx data).pendingReads = th.pendingReads
  := by
  cases u with
  | read d =>
      rw [kernel]
      dsimp only
      split <;> rfl
  | _ => rfl

/-- Completions serve no channel. -/
theorem readLabel_complete_ne {i idx : ℕ} {res : Int} {more : Bool} {data : List UInt8} :
  w.readLabel (.complete i res more idx data) ≠ some (c, .serve)
  := by
  intro hlabel
  cases labels_of_readLabel hlabel

/-- A call of the application neither marks the channel nor serves it. -/
theorem call_pending {op : AppOp} {ch ch' : TcpChannel} {th th' : TcpThread}
    (hcall : ch.call c th op = some (ok, ch', th')) :
  ch'.inPendingReads = ch.inPendingReads ∧ th'.pendingReads = th.pendingReads
  := by
  obtain ⟨l, ⟨-, hl⟩, hstep⟩ := call_reads hcall
  rcases hstep.pending with h | ⟨⟨_, _, _, rfl⟩, -⟩ | ⟨rfl, -⟩
  · exact h
  · simp at hl
  · simp at hl

/-- A step changes the calls of `on_read` to come as its label says. -/
theorem Steps.schedules (h : Steps w e ok w') (hpoll : w.ctl = .poll → w.thread.pendingReads = []) :
  Schedules w w' (w.readLabel e)
  := by
  have hreads := h.reads
  cases h with
  | submit hctl =>
      refine .keeps nofun ?_ rfl
      rw [scheduled, scheduled, hctl]
      exact hpoll hctl
  | ignored hctl =>
      apply hreads.schedules (fun _ => readLabel_complete_ne) (scheduled_of_ctl hctl nofun nofun)
        (scheduled_of_ctl hctl nofun nofun)
      exact fun _ => pendingReads_kernel ..
  | refused hctl =>
      apply hreads.schedules (fun _ => readLabel_complete_ne) (scheduled_of_ctl hctl nofun nofun)
        (scheduled_of_ctl hctl nofun nofun)
      exact fun _ => pendingReads_kernel ..
  | exhausted hctl =>
      apply hreads.schedules (fun _ => readLabel_complete_ne) (scheduled_of_ctl hctl nofun nofun)
        (scheduled_of_ctl hctl nofun nofun)
      exact fun _ => rfl
  | accepted hctl hsqe haccepting hres _ hacquire _ =>
      rw [readLabel_accept hsqe, if_pos ⟨haccepting, hres⟩, hacquire] at hreads ⊢
      exact hreads.schedules nofun (scheduled_of_ctl hctl nofun nofun)
        (scheduled_of_ctl rfl nofun nofun) nofun
  | @received _ _ _ _ _ callback _ _ _ _ hctl hsqe =>
      rw [readLabel_read hsqe] at hreads ⊢
      apply hreads.schedules nofun (scheduled_of_ctl hctl nofun nofun) _ nofun
      cases callback <;> rfl
  | @written _ _ _ _ _ _ callback _ _ _ _ hctl hsqe =>
      rw [readLabel_write hsqe] at hreads ⊢
      apply hreads.schedules nofun (scheduled_of_ctl hctl nofun nofun) _ nofun
      cases callback <;> rfl
  | batchDone hctl => exact schedules_serveReads (scheduled_of_ctl hctl nofun nofun)
  | onAcceptReturns hctl =>
      rw [readLabel, hctl] at hreads ⊢
      exact hreads.schedules nofun (scheduled_of_ctl hctl nofun nofun)
        (scheduled_of_ctl rfl nofun nofun) (fun _ => rfl)
  | onCloseReturns hctl =>
      rw [readLabel, hctl] at hreads ⊢
      exact hreads.schedules nofun (scheduled_of_ctl hctl nofun nofun)
        (scheduled_of_ctl rfl nofun nofun) nofun
  | onWriteReturns hctl =>
      rw [readLabel, hctl] at hreads ⊢
      exact hreads.schedules nofun (scheduled_of_ctl hctl nofun nofun)
        (scheduled_of_ctl rfl nofun nofun) nofun
  | onReadReturns hctl =>
      rw [readLabel, hctl]
      apply schedules_serveReads
      rw [scheduled, hctl]
  | @call c op ok ch th hcall =>
      obtain ⟨l, ⟨hlabel, hl⟩, -⟩ := call_reads hcall
      obtain ⟨hmarked, hpending⟩ := call_pending hcall
      apply Schedules.keeps
      · rw [hlabel]
        rintro d ⟨⟩
        simp at hl
      · exact scheduled_congr rfl hpending
      · funext d
        change (Function.update w.channels c ch d).inPendingReads = _
        rw [Function.update_apply]
        split
        case isTrue hd =>
          rw [hd]
          exact hmarked
        case isFalse => rfl

/-- The loop is left with nothing pending. -/
theorem Steps.pendingReads_eq_nil (h : Steps w e ok w')
    (hpoll : w.ctl = .poll → w.thread.pendingReads = []) (hctl : w'.ctl = .poll) :
  w'.thread.pendingReads = []
  := by
  cases h with
  | submit => cases hctl
  | ignored hbatch => exact absurd (hbatch.symm.trans hctl) nofun
  | refused hbatch => exact absurd (hbatch.symm.trans hctl) nofun
  | exhausted hbatch => exact absurd (hbatch.symm.trans hctl) nofun
  | accepted => cases hctl
  | @received _ _ _ _ _ callback => cases callback <;> cases hctl
  | @written _ _ _ _ _ _ callback => cases callback <;> cases hctl
  | batchDone =>
      cases hrest : w.thread.pendingReads with
      | nil =>
          rw [serveReads]
      | cons c rest =>
          rw [hrest] at hctl
          cases hctl
  | onAcceptReturns => cases hctl
  | onCloseReturns => cases hctl
  | onWriteReturns => cases hctl
  | @onReadReturns _ rest =>
      cases rest with
      | nil => rfl
      | cons c rest => cases hctl
  | call hcall => exact (call_pending hcall).2.trans (hpoll hctl)

/-- Every marked channel is to be served once before the next submit, and no other. -/
structure Deferred (w : Worker) : Prop where
  nodup : w.scheduled.Nodup
  mem_iff : ∀ c, c ∈ w.scheduled ↔ w.marks c = true
  poll : w.ctl = .poll → w.thread.pendingReads = []

theorem Deferred.of_schedules {x : Option (ℕ × ReadLabel)} (h : Deferred w)
    (hschedules : Schedules w w' x) (hpoll : w'.ctl = .poll → w'.thread.pendingReads = []) :
  Deferred w'
  := by
  cases hschedules with
  | keeps _ hscheduled hmarks =>
      constructor
      · rw [hscheduled]
        exact h.nodup
      · intro d
        rw [hscheduled, hmarks]
        exact h.mem_iff d
      · exact hpoll
  | @marks c _ _ _ hmark hscheduled hmarks =>
      have hnew : c ∉ w.scheduled := by
        rw [h.mem_iff, hmark]
        nofun
      constructor
      · rw [hscheduled]
        exact List.nodup_append.mpr ⟨h.nodup, List.nodup_singleton c, by grind -linarith⟩
      · intro d
        rw [hscheduled, hmarks, List.mem_append, List.mem_singleton, Function.update_apply, h.mem_iff]
        grind -linarith
      · exact hpoll
  | @serves c hscheduled hmarks =>
      have hnodup := h.nodup
      rw [hscheduled] at hnodup
      constructor
      · exact hnodup.of_cons
      · intro d
        have hmem := h.mem_iff d
        have hnew : c ∉ w'.scheduled := (List.nodup_cons.mp hnodup).1
        rw [hscheduled, List.mem_cons] at hmem
        rw [hmarks, Function.update_apply]
        grind -linarith
      · exact hpoll

theorem Deferred.step (h : Deferred w) (hsteps : Steps w e ok w') :
  Deferred w'
  := h.of_schedules (hsteps.schedules h.poll) (hsteps.pendingReads_eq_nil h.poll)

end Worker

end Proactor
