import UringProactor.Core.ReadSteps
import UringProactor.Prelude.Monitor

/-!
# The order of callbacks

A monitor records the callbacks on every channel since `on_accept`.  Nothing follows `on_close`
when, at the end of the stream, the channel is not in `pending_reads_` and its write coroutine has
no `writev` to wait for, and the application does not submit afterwards.
-/

namespace Proactor

/-- The callbacks of `TcpServer`. -/
inductive Callback where
  | onAccept
  | onRead
  | onWrite
  | onClose
deriving DecidableEq

/-- The callback control is in, with its channel. -/
def Ctl.running : Ctl → Option (ℕ × Callback)
  | .onAccept c => some (c, .onAccept)
  | .onRead c _ => some (c, .onRead)
  | .onWrite c => some (c, .onWrite)
  | .onClose c => some (c, .onClose)
  | .poll | .batch => none

namespace WriteSide

variable {s s' : WriteSide} {l : WriteLabel}

/-- A coroutine that waits for a notification has nothing to send. -/
def Waits (s : WriteSide) : Prop :=
  s.handle = true → s.co = .onNotify ∧ s.buf.sendList = []

/-- A run of the write coroutine ends where it waits, if it began awake. -/
theorem Runs.waits (h : Runs s s') (hhandle : s.handle = false) :
  s'.Waits
  := by
  have habsurd : s.handle = true → False := by
    rw [hhandle]
    nofun
  cases h with
  | suspend hidle => exact fun _ => ⟨rfl, hidle⟩
  | finish => exact fun htrue => (habsurd htrue).elim
  | prepare => exact fun htrue => (habsurd htrue).elim
  | throw => exact fun htrue => (habsurd htrue).elim

theorem Notifies.waits (h : Notifies s s') :
  s'.Waits
  := by
  cases h with
  | resume _ hrun =>
      apply hrun.waits
      rfl
  | mark hhandle =>
      intro htrue
      rw [hhandle] at htrue
      cases htrue

theorem Stirs.waits (h : Stirs s s') (hwaits : s.Waits) :
  s'.Waits
  := by
  cases h with
  | rest => exact hwaits
  | notify _ _ _ _ _ hnotify => exact hnotify.waits

/-- A coroutine that does not wait for a notification is not made to by others. -/
theorem Stirs.handle_eq (h : Stirs s s') (hhandle : s.handle = false) :
  s'.handle = false
  := by
  obtain ⟨closing, failed, rfl⟩ := h.eq_of_handle hhandle
  apply hhandle

theorem Waits.handle_of_onToken (h : s.Waits) {submittedBytes : ℕ}
    (hco : s.co = .onToken submittedBytes) :
  s.handle = false
  := by
  rw [← Bool.not_eq_true]
  intro htrue
  cases hco.symm.trans (h htrue).1

/-- Every step leaves the coroutine where it waits. -/
theorem Step.waits (h : Step s l s') (hwaits : s.Waits)
    (hreturned : l = .returned → s.handle = false) :
  s'.Waits
  := by
  cases h with
  | quiet hstirs => exact hstirs.waits hwaits
  | append happend =>
      intro htrue
      use (hwaits htrue).1
      apply (WriteBufBase.sendList_append happend).trans (hwaits htrue).2
  | prepend hprepend =>
      intro htrue
      use (hwaits htrue).1
      apply (WriteBufBase.sendList_prepend hprepend).trans (hwaits htrue).2
  | submit _ hnotify => exact hnotify.waits
  | written hco _ _ _ hdrain _ =>
      have hfalse := hdrain.handle_eq (hwaits.handle_of_onToken hco)
      intro htrue
      cases hfalse.symm.trans htrue
  | failed hco _ hdrain hclose =>
      have hfalse := hclose.handle_eq (hdrain.handle_eq (hwaits.handle_of_onToken hco))
      intro htrue
      cases hfalse.symm.trans htrue
  | stale => exact hwaits
  | returned hrun =>
      apply hrun.waits
      apply hreturned rfl
  | assign _ _ hrun =>
      apply hrun.waits
      rfl

/-- The coroutine waits for nothing when `on_write` is called. -/
theorem Step.handle_of_written {bytes : ℕ} (h : Step s (.written bytes) s') (hwaits : s.Waits) :
  s'.handle = false
  := by
  cases h with
  | written hco _ _ _ hdrain _ => exact hdrain.handle_eq (hwaits.handle_of_onToken hco)

/-- No call of the application makes the coroutine wait. -/
theorem Step.handle_of_call (h : Step s l s') (hcall : l.IsCall) (hhandle : s.handle = false) :
  s'.handle = false
  := by
  cases h with
  | quiet hstirs => exact hstirs.handle_eq hhandle
  | append => exact hhandle
  | prepend => exact hhandle
  | submit _ hnotify =>
      rw [hnotify.eq_of_handle hhandle]
      apply hhandle
  | _ => exact hcall.elim

/-- The write coroutine has no `writev` to wait for. -/
def Hushed (s : WriteSide) : Prop := s.co = .onNotify ∨ s.co.Dead

/-- A run of the write coroutine that has nothing to send. -/
theorem Runs.hushed (h : Runs s s') (hsend : s.buf.sendList = []) :
  s'.Hushed
  := by
  cases h with
  | finish => exact .inr (.inr rfl)
  | suspend => exact .inl rfl
  | prepare hcount hpeek =>
      have hne := sendList_of_peekIovec hpeek hcount
      rw [WriteBufBase.sendList, (peekIovec_base hpeek).1] at hne
      exact absurd hsend hne
  | throw => exact .inr (.inr rfl)

theorem Notifies.hushed (h : Notifies s s') (hwaits : s.Waits) (hhushed : s.Hushed) :
  s'.Hushed
  := by
  cases h with
  | resume hhandle hrun =>
      apply hrun.hushed
      apply (hwaits hhandle).2
  | mark => exact hhushed

theorem Stirs.hushed (h : Stirs s s') (hwaits : s.Waits) (hhushed : s.Hushed) :
  s'.Hushed
  := by
  cases h with
  | rest => exact hhushed
  | notify s₁ closing failed _ _ hnotify =>
      have hwaits' : Waits { s with closing := closing } := hwaits
      exact hnotify.hushed hwaits' hhushed

/-- No `writev` completes on a write side that has none to wait for. -/
theorem Hushed.ne_onToken (h : s.Hushed) (submittedBytes : ℕ) :
  s.co ≠ .onToken submittedBytes
  := by
  intro htoken
  rw [Hushed, htoken] at h
  rcases h with hnotify | hunstarted | hfinished
  · cases hnotify
  · cases hunstarted
  · cases hfinished

theorem Hushed.not_written (h : s.Hushed) {bytes : ℕ} (hstep : Step s (.written bytes) s') :
  False
  := by
  cases hstep with
  | written hco => exact h.ne_onToken _ hco

/-- Without a new connection and without `submit`, the write coroutine has no `writev` to wait
for. -/
theorem Step.hushed (h : Step s l s') (hwaits : s.Waits) (hhushed : s.Hushed) (hl : l ≠ .assign)
    (hsubmit : l ≠ .submit) (hreturned : l ≠ .returned) :
  s'.Hushed
  := by
  cases h with
  | quiet hstirs => exact hstirs.hushed hwaits hhushed
  | append => exact hhushed
  | prepend => exact hhushed
  | submit => exact absurd rfl hsubmit
  | written htoken => exact absurd htoken (hhushed.ne_onToken _)
  | failed htoken => exact absurd htoken (hhushed.ne_onToken _)
  | stale => exact hhushed
  | returned => exact absurd rfl hreturned
  | assign => exact absurd rfl hl

end WriteSide

namespace ReadSide

variable {c : ℕ} {s s' : ReadSide} {l : ReadLabel}

/-- Once the read coroutine does not wait for its `recv`, it does not until the next connection,
and the channel is not marked. -/
theorem Step.ended (h : Step c s l s') (hl : l ≠ .assign) (hco : s.co ≠ .awaiting)
    (hmarked : s.marked = false) :
  s'.co ≠ .awaiting ∧ s'.marked = false
  := by
  cases h with
  | quiet hrests =>
      rw [hrests.co, hrests.marked]
      exact ⟨hco, hmarked⟩
  | assign => exact absurd rfl hl
  | stale =>
      rw [filled_eq_with]
      exact ⟨hco, hmarked⟩
  | recv hawaiting => exact absurd hawaiting hco
  | closed hrests =>
      constructor
      · nofun
      · apply hrests.marked.trans hmarked
  | peek => exact ⟨hco, hmarked⟩
  | consume => exact ⟨hco, hmarked⟩
  | serve => exact ⟨hco, rfl⟩

/-- The end of the stream marks no channel. -/
theorem Step.marked_of_end {res : Int} {idx : ℕ} {data : List UInt8}
    (h : Step c s (.recv res idx data) s') (hres : res ≤ 0) :
  s'.marked = s.marked
  := by
  have hfilled : (s.filled res idx data).marked = s.marked := by
    rw [filled_eq_with]
  cases h with
  | stale => exact hfilled
  | recv _ hreceives =>
      cases hreceives with
      | received hpos => omega
      | ended _ hrests => exact hrests.marked.trans hfilled
      | threw hpos => omega

end ReadSide

namespace Worker

open WriteSide

variable {w w' : Worker} {e : Event} {ok : Bool} {c : ℕ}

/-- In `on_write` the application calls, or the callback returns. -/
theorem isCall_of_onWrite {d : ℕ} {l : WriteLabel} (hresult : w.stepResult e = some (ok, w'))
    (hctl : w.ctl = .onWrite d) (hlabel : w.writeLabel ok e = some (c, l)) (hl : l ≠ .returned) :
  l.IsCall
  := by
  have hbatch : w.ctl ≠ .batch := by
    rw [hctl]
    nofun
  cases labels_of_writeLabel hlabel with
  | assign hassigns => exact absurd (ctl_of_assigns hassigns hresult) hbatch
  | received => trivial
  | written => exact absurd (ctl_of_complete hresult) hbatch
  | failed => exact absurd (ctl_of_complete hresult) hbatch
  | stale => exact absurd (ctl_of_complete hresult) hbatch
  | onCloseReturns => trivial
  | onWriteReturns => exact absurd rfl hl
  | append => trivial
  | prepend => trivial
  | submit => trivial
  | call => trivial

/-- Every write coroutine that waits for a notification has nothing to send, and the one whose
`on_write` runs does not wait. -/
structure Listening (w : Worker) : Prop where
  waits : ∀ c, (w.writeSide c).Waits
  awake : ∀ c, w.ctl = .onWrite c → (w.writeSide c).handle = false

theorem Listening.step (h : Listening w) (hadmits : w.Admits e)
    (hresult : w.stepResult e = some (ok, w')) :
  Listening w'
  := by
  have hwrites := (step_cases hresult).writes hadmits
  generalize hlabel : w.writeLabel ok e = label at hwrites
  cases hwrites with
  | none hctl hside =>
      constructor
      · intro d
        rw [hside]
        apply h.waits
      · intro d hd
        rw [hside]
        rcases (hctl.ctl_iff d).mp hd with ⟨_, ⟨⟩⟩ | ⟨hbefore, -⟩
        apply h.awake d hbefore
  | @acts c l hctl hact hother =>
      constructor
      · intro d
        by_cases hd : d = c
        · rw [hd]
          apply hact.waits (h.waits c)
          rintro rfl
          apply h.awake c (hctl.returned c rfl)
        · rw [hother d hd]
          apply h.waits d
      · intro d hd
        rcases (hctl.ctl_iff d).mp hd with ⟨bytes, hwritten⟩ | ⟨hbefore, hne⟩
        · cases hwritten
          apply hact.handle_of_written (h.waits c)
        · by_cases hdc : d = c
          · subst hdc
            apply hact.handle_of_call _ (h.awake d hbefore)
            apply isCall_of_onWrite hresult hbefore hlabel
            rintro rfl
            exact hne rfl
          · rw [hother d hdc]
            apply h.awake d hbefore

/-! ### The callbacks -/

/-- The callback that an event calls, with its channel, when it leads to `w'`. -/
def called (w' : Worker) : Event → Option (ℕ × Callback)
  | .submit | .app _ _ => none
  | .complete .. | .batchDone | .ret => w'.ctl.running

/-- Where the callbacks come from. -/
inductive Calls (w : Worker) (e : Event) (ok : Bool) (w' : Worker) :
    Option (ℕ × Callback) → Prop where
  | none (h : ∀ c, ¬ w.Assigns c e) : Calls w e ok w' none
  | onAccept {c : ℕ} (h : w.Assigns c e) : Calls w e ok w' (some (c, .onAccept))
  | onRead {c : ℕ} (h : w.readLabel e = some (c, .serve)) : Calls w e ok w' (some (c, .onRead))
  | onWrite {c bytes : ℕ} (h : w.writeLabel ok e = some (c, .written bytes)) :
      Calls w e ok w' (some (c, .onWrite))
  | onClose {i idx c : ℕ} {res : Int} {more : Bool} {data : List UInt8} {op : SqeOp}
      (he : e = .complete i res more idx data)
      (hsqe : w.thread.ioRing.inflight[i]? = some ⟨op, .read c⟩)
      (hco : (w.channels c).readCo = .awaiting) (hres : res ≤ 0)
      (hco' : (w'.channels c).readCo = .running) (hctl : w'.ctl = .onClose c) :
      Calls w e ok w' (some (c, .onClose))

/-- A completion of an SQE of another coroutine starts no connection. -/
theorem not_assigns_of_sqe {i idx : ℕ} {res : Int} {more : Bool} {data : List UInt8} {sqe : Sqe}
    (hsqe : w.thread.ioRing.inflight[i]? = some sqe) (hdata : sqe.data ≠ .accept) :
  ¬ w.Assigns c (.complete i res more idx data)
  := by
  rintro ⟨haccept, -⟩
  rw [hsqe] at haccept
  apply hdata (Option.some.inj haccept)

/-- `on_read` is called on the next channel, if there is one. -/
theorem calls_serveReads {rest : List ℕ} (he : ∀ c, ¬ w.Assigns c e)
    (hcalled : called (w.serveReads rest) e
      = (rest.head?.map (fun c => (c, Callback.onRead))))
    (hlabel : w.readLabel e = rest.head?.map (fun c => (c, .serve))) :
  Calls w e ok (w.serveReads rest) (called (w.serveReads rest) e)
  := by
  rw [hcalled]
  cases rest with
  | nil => exact .none he
  | cons c rest => exact .onRead hlabel

/-- Every callback comes from one of these. -/
theorem Steps.calls (h : Steps w e ok w') (hadmits : w.Admits e) :
  Calls w e ok w' (called w' e)
  := by
  have hwrites := h.writes hadmits
  cases h with
  | submit => exact .none (fun _ => id)
  | @ignored i idx res more data op u hctl hsqe hignores =>
      change Calls _ _ _ _ w.ctl.running
      rw [hctl]
      apply Calls.none
      rintro c ⟨haccept, haccepting, -⟩
      rw [hsqe] at haccept
      cases haccept
      rw [hignores] at haccepting
      cases haccepting
  | refused hctl hsqe hres =>
      change Calls _ _ _ _ w.ctl.running
      rw [hctl]
      apply Calls.none
      rintro c ⟨-, -, hnonneg, -⟩
      omega
  | exhausted hctl hsqe _ _ hacquire =>
      change Calls _ _ _ _ w.ctl.running
      rw [hctl]
      apply Calls.none
      rintro c ⟨-, -, -, hacquired⟩
      rw [hacquire] at hacquired
      cases hacquired
  | accepted hctl hsqe haccepting hres _ hacquire _ =>
      apply Calls.onAccept
      exact ⟨congrArg (Option.map Sqe.data) hsqe, haccepting, hres,
        congrArg (Option.map Prod.fst) hacquire⟩
  | @received i idx c res more callback data op ch th hctl hsqe hread hresume =>
      cases callback with
      | true =>
          obtain ⟨hres, hco⟩ := TcpChannel.resumeRead_callback hresume
          apply Calls.onClose rfl hsqe hread hres _ rfl
          change (Function.update w.channels c ch c).readCo = _
          rw [Function.update_self, hco]
      | false => exact .none (fun d => not_assigns_of_sqe hsqe (by simp))
  | @written i idx c submittedBytes res more callback data op ch th hctl hsqe hwrite hresume =>
      cases callback with
      | true =>
          rcases (hwrites.onWrite.ctl_iff c).mp rfl with ⟨bytes, hlabel⟩ | ⟨honWrite, -⟩
          · exact .onWrite hlabel
          · cases hctl.symm.trans honWrite
      | false => exact .none (fun d => not_assigns_of_sqe hsqe (by simp))
  | batchDone =>
      apply calls_serveReads
      · exact fun _ => id
      · cases w.thread.pendingReads <;> rfl
      · rfl
  | onAcceptReturns => exact .none (fun _ => id)
  | onCloseReturns => exact .none (fun _ => id)
  | onWriteReturns => exact .none (fun _ => id)
  | @onReadReturns _ rest hctl =>
      apply calls_serveReads
      · exact fun _ => id
      · cases rest <;> rfl
      · rw [readLabel, hctl]
  | call => exact .none (fun _ => id)

/-- `on_accept` is called on the channel that is assigned. -/
theorem Calls.eq_of_assigns {x : Option (ℕ × Callback)} (h : Calls w e ok w' x)
    (hassigns : w.Assigns c e) :
  x = some (c, .onAccept)
  := by
  have hlabel := writeLabel_of_assigns hassigns ok
  cases h with
  | none hnot => exact absurd hassigns (hnot c)
  | onAccept h =>
      rw [writeLabel_of_assigns h ok] at hlabel
      cases hlabel
      rfl
  | onRead hserve =>
      cases e with
      | complete => exact absurd hserve readLabel_complete_ne
      | _ => cases hassigns
  | onWrite hwritten =>
      rw [hwritten] at hlabel
      cases hlabel
  | onClose he hsqe =>
      subst he
      exact absurd hassigns (not_assigns_of_sqe hsqe nofun)

/-! ### After `on_close` -/

/-- The connection of the channel `c` is over: no callback on the channel can follow until the next
connection. -/
structure Over (w : Worker) (c : ℕ) : Prop where
  read : (w.channels c).readCo ≠ .awaiting
  unmarked : w.marks c = false
  hushed : (w.writeSide c).Hushed
  ctl : w.ctl ≠ .onWrite c

/-- What happens on the read side once a connection is over. -/
theorem Over.reads_step (h : Over w c) {x : Option (ℕ × ReadLabel)} (hreads : Reads w w' x)
    (hx : x ≠ some (c, .assign)) :
  (w'.channels c).readCo ≠ .awaiting ∧ w'.marks c = false
  := by
  have hsame : (w'.readSide c).co = (w.readSide c).co →
      (w'.readSide c).marked = (w.readSide c).marked →
      (w'.channels c).readCo ≠ .awaiting ∧ w'.marks c = false := by
    intro hco hmarked
    constructor
    · change (w'.readSide c).co ≠ _
      rw [hco]
      apply h.read
    · apply hmarked.trans h.unmarked
  cases hreads with
  | none hside => apply hsame <;> rw [hside]
  | @acts d l hstep hother =>
      by_cases hd : c = d
      · subst hd
        apply hstep.ended _ h.read h.unmarked
        rintro rfl
        exact hx rfl
      · apply hsame <;> rw [hother c hd]

/-- What happens on the write side once a connection is over. -/
theorem Over.writes_step (h : Over w c) (hwaits : (w.writeSide c).Waits)
    {x : Option (ℕ × WriteLabel)} (hwrites : Writes w w' x) (hx : x ≠ some (c, .assign))
    (hsubmit : x ≠ some (c, .submit)) :
  (w'.writeSide c).Hushed ∧ w'.ctl ≠ .onWrite c
  := by
  cases hwrites with
  | none hctl hside =>
      constructor
      · rw [hside]
        apply h.hushed
      · intro honWrite
        rcases (hctl.ctl_iff c).mp honWrite with ⟨_, ⟨⟩⟩ | ⟨hbefore, -⟩
        apply h.ctl hbefore
  | @acts d l hctl hstep hother =>
      by_cases hd : c = d
      · subst hd
        constructor
        · apply hstep.hushed hwaits h.hushed
          · rintro rfl
            exact hx rfl
          · rintro rfl
            exact hsubmit rfl
          · rintro rfl
            apply h.ctl (hctl.returned c rfl)
        · intro honWrite
          rcases (hctl.ctl_iff c).mp honWrite with ⟨_, hwritten⟩ | ⟨hbefore, -⟩
          · cases hwritten
            apply h.hushed.not_written hstep
          · apply h.ctl hbefore
      · constructor
        · rw [hother c hd]
          apply h.hushed
        · intro honWrite
          rcases (hctl.ctl_iff c).mp honWrite with ⟨_, hwritten⟩ | ⟨hbefore, -⟩
          · cases hwritten
            exact hd rfl
          · apply h.ctl hbefore

/-- A connection that is over stays so until the next, if the application does not submit. -/
theorem Over.step (h : Over w c) (hlistening : Listening w) (hadmits : w.Admits e)
    (hresult : w.stepResult e = some (ok, w')) (hassigns : ¬ w.Assigns c e)
    (hsubmit : e ≠ .app c .submit) :
  Over w' c
  := by
  have hsteps := step_cases hresult
  obtain ⟨hread, hunmarked⟩ := h.reads_step hsteps.reads (by
    intro hlabel
    cases labels_of_readLabel hlabel with
    | assign hassign => exact hassigns hassign)
  obtain ⟨hhushed, hctl⟩ := h.writes_step (hlistening.waits c) (hsteps.writes hadmits)
    (fun hlabel => hassigns (assigns_of_writeLabel hlabel)) (by
      intro hlabel
      cases labels_of_writeLabel hlabel with
      | submit => exact hsubmit rfl)
  exact ⟨hread, hunmarked, hhushed, hctl⟩

/-- Once a connection is over, only `on_accept` is called on the channel. -/
theorem Over.not_called (h : Over w c) (hdeferred : Deferred w) (hadmits : w.Admits e)
    (hsteps : Steps w e ok w') {cb : Callback} (hcalls : Calls w e ok w' (some (c, cb))) :
  cb = .onAccept
  := by
  cases hcalls with
  | onAccept => rfl
  | onRead hlabel =>
      have hschedules := hsteps.schedules hdeferred.poll
      rw [hlabel] at hschedules
      have hmem : c ∈ w.scheduled := by
        cases hschedules with
        | keeps hx => exact absurd rfl (hx c)
        | serves hscheduled =>
            rw [hscheduled]
            apply List.mem_cons_self
      have hmark := (hdeferred.mem_iff c).mp hmem
      rw [h.unmarked] at hmark
      cases hmark
  | onWrite hlabel =>
      have hwrites := hsteps.writes hadmits
      rw [hlabel] at hwrites
      cases hwrites with
      | acts _ hstep => exact (h.hushed.not_written hstep).elim
  | onClose _ _ hco => exact absurd hco h.read

/-- At the end of the stream of a channel that is not marked and has no `writev` to wait for. -/
theorem over_of_onClose (hlistening : Listening w) (hadmits : w.Admits e)
    (hresult : w.stepResult e = some (ok, w')) {i idx : ℕ} {res : Int} {more : Bool}
    {data : List UInt8} {op : SqeOp} (he : e = .complete i res more idx data)
    (hsqe : w.thread.ioRing.inflight[i]? = some ⟨op, .read c⟩) (hres : res ≤ 0)
    (hco' : (w'.channels c).readCo = .running) (hctl : w'.ctl = .onClose c)
    (hmark : w.marks c = false) (hhushed : (w.writeSide c).Hushed) :
  Over w' c
  := by
  subst he
  have hsteps := step_cases hresult
  have hreads := hsteps.reads
  have hwrites := hsteps.writes hadmits
  rw [readLabel_read hsqe] at hreads
  rw [writeLabel_read hsqe] at hwrites
  constructor
  · rw [hco']
    nofun
  · cases hreads with
    | acts hstep => exact (hstep.marked_of_end hres).trans hmark
  · cases hwrites with
    | acts _ hstep => exact hstep.hushed (hlistening.waits c) hhushed nofun nofun nofun
  · rw [hctl]
    nofun

/-! ### The monitored worker -/

/-- The callbacks on the channel `d` since `on_accept`, when they were `t` before an event that
calls `x`. -/
def traceNext (t : List Callback) (d : ℕ) (x : Option (ℕ × Callback)) : List Callback :=
  match x with
  | none => t
  | some (c, .onAccept) => if c = d then [.onAccept] else t
  | some (c, cb) => if c = d then t ++ [cb] else t

theorem traceNext_of_ne {t : List Callback} {x : Option (ℕ × Callback)}
    (h : ∀ cb, x ≠ some (c, cb)) :
  traceNext t c x = t
  := by
  rcases x with - | ⟨d, cb⟩
  · rfl
  · have hd : d ≠ c := by
      rintro rfl
      exact h cb rfl
    cases cb <;> apply if_neg hd

theorem traceNext_of_eq {t : List Callback} {cb : Callback} (hcb : cb ≠ .onAccept) :
  traceNext t c (some (c, cb)) = t ++ [cb]
  := by
  cases cb with
  | onAccept => exact absurd rfl hcb
  | _ => exact if_pos rfl

/-- A worker with the callbacks on its channels. -/
abbrev Tracing := Monitored Worker (ℕ → List Callback)

namespace Tracing

/-- The callbacks after an event. -/
def observe (_ : Worker) (g : ℕ → List Callback) (e : Event) (_ : Bool) (w' : Worker) :
    ℕ → List Callback :=
  fun d => traceNext (g d) d (called w' e)

/-- A step of the worker and its monitor. -/
def step (m : Tracing) (e : Event) : Option Tracing := Monitored.step stepResult observe m e

/-- No callback has been called. -/
def start (w : Worker) : Tracing := ⟨w, fun _ => []⟩

/-- The stream of a channel ends only when the channel is not in `pending_reads_` and its write
coroutine waits for no `writev`, and the application does not submit on a channel after its
`on_close`. -/
def ClosesLast (m : Tracing) : Event → Prop
  | .complete i res _ _ _ =>
      match m.state.thread.ioRing.inflight[i]? with
      | some ⟨_, .read c⟩ =>
          (m.state.channels c).readCo = .awaiting → res ≤ 0 →
            m.state.marks c = false ∧ (m.state.writeSide c).Hushed
      | _ => True
  | .app c .submit => .onClose ∉ m.record c
  | _ => True

instance (s : WriteSide) : Decidable s.Hushed := inferInstanceAs (Decidable (_ ∨ _))

instance (m : Tracing) (e : Event) : Decidable (m.ClosesLast e) :=
  match e with
  | .complete i res _ _ _ =>
      match h : m.state.thread.ioRing.inflight[i]? with
      | some ⟨_, .read c⟩ =>
          decidable_of_iff ((m.state.channels c).readCo = .awaiting → res ≤ 0 →
            m.state.marks c = false ∧ (m.state.writeSide c).Hushed) (by rw [ClosesLast, h])
      | some ⟨_, .accept⟩ | some ⟨_, .write _⟩ | some ⟨_, .wakeup⟩ | none =>
          .isTrue (by rw [ClosesLast, h]; trivial)
  | .app c .submit => inferInstanceAs (Decidable (.onClose ∉ m.record c))
  | .app _ (.append _) | .app _ (.prepend _) | .app _ (.peek _) | .app _ (.consume _)
  | .app _ .close | .submit | .batchDone | .ret => .isTrue trivial

/-- Nothing follows `on_close`, and after it the connection is over. -/
structure Inv (m : Tracing) : Prop where
  deferred : Deferred m.state
  listening : Listening m.state
  ended : ∀ c, .onClose ∈ m.record c → .onClose ∉ (m.record c).dropLast ∧ Over m.state c

variable {m m' : Tracing}

/-- A step keeps the invariant. -/
theorem Inv.step (h : m.Inv) (hadmits : m.state.Admits e) (hlast : m.ClosesLast e)
    (hstep : m.step e = some m') :
  m'.Inv
  := by
  obtain ⟨ok, hresult, hrecord⟩ := Monitored.step_eq_some hstep
  have hsteps := step_cases hresult
  have hcalls := hsteps.calls hadmits
  refine ⟨h.deferred.step hsteps, h.listening.step hadmits hresult, ?_⟩
  intro d hmem
  -- an earlier `on_close` leaves nothing but `on_accept` to be called
  have hfirst : ∀ cb, called m'.state e = some (d, cb) → cb ≠ .onAccept →
      .onClose ∉ m.record d := by
    intro cb hcalled hcb hclose
    rw [hcalled] at hcalls
    apply hcb ((h.ended d hclose).2.not_called h.deferred hadmits hsteps hcalls)
  have hnext : m'.record d = traceNext (m.record d) d (called m'.state e) := by
    rw [hrecord]
    rfl
  by_cases hother : ∀ cb, called m'.state e ≠ some (d, cb)
  · rw [hnext, traceNext_of_ne hother] at hmem ⊢
    obtain ⟨hdrop, hover⟩ := h.ended d hmem
    use hdrop
    apply hover.step h.listening hadmits hresult
    · intro hassigns
      apply hother _ (hcalls.eq_of_assigns hassigns)
    · rintro rfl
      exact hlast hmem
  · rw [not_forall] at hother
    obtain ⟨cb, hcalled⟩ := hother
    rw [not_not] at hcalled
    rw [hcalled] at hcalls hnext
    by_cases haccept : cb = .onAccept
    · subst haccept
      rw [hnext, traceNext, if_pos rfl] at hmem
      simp at hmem
    · have hnone := hfirst cb hcalled haccept
      rw [hnext, traceNext_of_eq haccept] at hmem ⊢
      rw [List.dropLast_concat]
      use hnone
      rcases List.mem_append.mp hmem with hbefore | hnow
      · exact absurd hbefore hnone
      · cases List.mem_singleton.mp hnow
        cases hcalls with
        | onClose he hsqe hco hres hco' hctl =>
            rw [he, ClosesLast, hsqe] at hlast
            obtain ⟨hmark, hhushed⟩ := hlast hco hres
            apply over_of_onClose h.listening hadmits hresult he hsqe hres hco' hctl hmark hhushed

/-- At the start no channel is marked and no write coroutine has started. -/
theorem inv_start (depth : ℕ) (bufRing : BufRing) (bufPool : BufPool) (poolBits capBits : Fin 31) :
  (start (Worker.start depth bufRing bufPool poolBits capBits)).Inv
  := by
  constructor
  · constructor
    · apply List.nodup_nil
    · intro c
      exact iff_of_false nofun nofun
    · exact fun _ => rfl
  · constructor
    · nofun
    · nofun
  · nofun

end Tracing

/-- On every channel nothing follows `on_close` until the next `on_accept`, in a run in which the
stream of a channel ends only when the channel is not in `pending_reads_` and has no `writev` to
wait for, and the application does not submit on a channel after its `on_close`. -/
theorem callbacks_end_with_onClose (depth : ℕ) (bufRing : BufRing) (bufPool : BufPool)
    (poolBits capBits : Fin 31) {m : Tracing}
    (h : Reaches Tracing.step (fun m e => m.state.Admits e ∧ m.ClosesLast e)
      (Tracing.start (start depth bufRing bufPool poolBits capBits)) m) (c : ℕ)
    (before after : List Callback) (htrace : m.record c = before ++ .onClose :: after) :
  after = []
  := by
  have hinv : m.Inv := by
    apply h.invariant (Tracing.inv_start depth bufRing bufPool poolBits capBits)
    rintro m m' e hinv ⟨hadmits, hlast⟩ hstep
    exact hinv.step hadmits hlast hstep
  have hmem : .onClose ∈ m.record c := by
    rw [htrace]
    simp
  obtain ⟨hdrop, -⟩ := hinv.ended c hmem
  by_contra hne
  apply hdrop
  rw [htrace, List.dropLast_append_of_ne_nil (by simp), List.dropLast_cons_of_ne_nil hne]
  simp

/-- A connection receives a byte, which is offered to `on_read`, and its stream ends in the next
batch. -/
theorem callbacks_end_with_onClose_one_byte :
  ∃ pool m, BufPool.new 0 1 (by decide) (by decide) (by decide) = some pool
    ∧ Reaches Tracing.step (fun m e => m.state.Admits e ∧ m.ClosesLast e)
      (Tracing.start (start 8 (BufRing.new 0 1 (by decide) (by decide)) pool 0 0)) m
    ∧ m.record 0 = [.onAccept, .onRead, .onClose]
    ∧ ∀ after, m.record 0 = [.onAccept, .onRead] ++ .onClose :: after → after = []
  := by
  have hrun : (BufPool.new 0 1 (by decide) (by decide) (by decide)).bind (fun pool =>
      (Reaches.follow Tracing.step (fun m e => m.state.Admits e ∧ m.ClosesLast e)
        [.submit, .complete 0 5 true 0 [], .ret, .batchDone, .submit, .complete 2 1 true 0 [7],
          .batchDone, .ret, .submit, .complete 2 0 false 0 [], .ret, .batchDone]
        (Tracing.start (start 8 (BufRing.new 0 1 (by decide) (by decide)) pool 0 0))).map
          (fun m => m.record 0))
      = some [.onAccept, .onRead, .onClose] := by
    decide +kernel
  obtain ⟨pool, hpool, hfollow⟩ := Option.bind_eq_some_iff.mp hrun
  obtain ⟨m, hreach, htrace⟩ := Reaches.of_follow _ hfollow
  use pool, m, hpool, hreach, htrace
  intro after
  apply callbacks_end_with_onClose 8 _ pool 0 0 hreach

/-- When data and the end of the stream arrive in one batch, `on_read` is called after `on_close`;
and when a `writev` completes after the end of the stream, `on_write` is. -/
theorem called_after_onClose :
  (∃ pool m, BufPool.new 0 1 (by decide) (by decide) (by decide) = some pool
    ∧ Reaches Tracing.step (fun m e => m.state.Admits e)
      (Tracing.start (start 8 (BufRing.new 0 1 (by decide) (by decide)) pool 0 0)) m
    ∧ m.record 0 = [.onAccept, .onClose, .onRead])
  ∧ ∃ pool m, BufPool.new 0 1 (by decide) (by decide) (by decide) = some pool
    ∧ Reaches Tracing.step (fun m e => m.state.Admits e)
      (Tracing.start (start 8 (BufRing.new 0 1 (by decide) (by decide)) pool 0 0)) m
    ∧ m.record 0 = [.onAccept, .onClose, .onWrite]
  := by
  have hread : (BufPool.new 0 1 (by decide) (by decide) (by decide)).bind (fun pool =>
      (Reaches.follow Tracing.step (fun m e => m.state.Admits e)
        [.submit, .complete 0 5 true 0 [], .ret, .batchDone, .submit, .complete 2 1 true 0 [7],
          .complete 2 0 false 0 [], .ret, .batchDone]
        (Tracing.start (start 8 (BufRing.new 0 1 (by decide) (by decide)) pool 0 0))).map
          (fun m => m.record 0))
      = some [.onAccept, .onClose, .onRead] := by
    decide +kernel
  have hwrite : (BufPool.new 0 1 (by decide) (by decide) (by decide)).bind (fun pool =>
      (Reaches.follow Tracing.step (fun m e => m.state.Admits e)
        [.submit, .complete 0 5 true 0 [], .app 0 (.append [1]), .app 0 .submit, .ret, .batchDone,
          .submit, .complete 2 0 false 0 [], .ret, .complete 2 1 false 0 []]
        (Tracing.start (start 8 (BufRing.new 0 1 (by decide) (by decide)) pool 0 0))).map
          (fun m => m.record 0))
      = some [.onAccept, .onClose, .onWrite] := by
    decide +kernel
  constructor
  · obtain ⟨pool, hpool, hfollow⟩ := Option.bind_eq_some_iff.mp hread
    obtain ⟨m, hreach, htrace⟩ := Reaches.of_follow _ hfollow
    use pool, m
  · obtain ⟨pool, hpool, hfollow⟩ := Option.bind_eq_some_iff.mp hwrite
    obtain ⟨m, hreach, htrace⟩ := Reaches.of_follow _ hfollow
    use pool, m

end Worker

end Proactor
