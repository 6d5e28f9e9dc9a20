import UringProactor.Util.LogShutdown

/-!
# Where the records of a thread are

The records a thread has logged are in the buffers it has enqueued, or in its current buffer
before it is enqueued: these are the records the logger keeps.  `Accounts` says what a step does
to them.  It leaves them, adds the record that was copied, or drops those of the current
buffer.  Only the exit of a thread drops bytes: `~ThreadFlushGuard` does not wait for the other
buffer or for room in the queue.
-/

open scoped List

namespace Proactor

/-- The places in the code where a thread may have no `ThreadState`. -/
def LogPc.Outside : LogPc → Prop
  | .idle | .requestStop | .releaseStop | .join | .deleteMain | .close | .destroyed => True
  | _ => False

namespace LogThread

variable {held : List BufId} {queue : TicketQueue Flush} {t : ℕ} {th th' : LogThread}
  {effect : LogEffect} {finished : Bool}

/-- The records of the current buffer as long as it is not enqueued. -/
def pending (th : LogThread) : List Record :=
  match th.pc with
  | .idle => if th.allocated then th.front.records else []
  | .loadBack _ | .setFlag _ | .enqueue _ | .clearFlag _ | .copy _ => th.front.records
  | _ => []

/-- A thread in the code of `append` or of `~ThreadFlushGuard` has a `ThreadState`. -/
def Alive (th : LogThread) : Prop := th.allocated = false → th.pc.Outside

/-- `~ThreadFlushGuard` is about to give up the current buffer. -/
def GivesUp (th : LogThread) : Prop :=
  th.pc = .loadBack .exit ∧ th.back.inFlight = true ∨ th.pc = .clearFlag .exit

theorem Alive.allocated (h : Alive th) (hpc : ¬ th.pc.Outside) :
  th.allocated = true
  := by
  by_contra hgone
  exact hpc (h (Bool.eq_false_iff.mpr hgone))

theorem pending_of_idle (hpc : th.pc = .idle) (halloc : th.allocated = true) :
  th.pending = th.front.records
  := by
  rw [pending, hpc]
  exact if_pos halloc

/-- A thread that returns with the given current buffer. -/
theorem pending_setFront_of_idle (b : LoggerBuffer) (halloc : th.allocated = true) :
  ({ th.setFront b with pc := .idle } : LogThread).pending = b.records
  := by
  change (if th.allocated then (th.setFront b).front.records else []) = b.records
  rw [if_pos halloc, front_setFront]

/-- An empty buffer has empty records only. -/
theorem eq_nil_of_isEmpty {b : LoggerBuffer} (h : b.isEmpty = true) {r : Record}
    (hr : r ∈ b.records) :
  r = []
  := by
  have hsize : b.size = 0 := of_decide_eq_true h
  apply List.eq_nil_of_length_eq_zero
  apply Nat.le_zero.mp
  rw [← hsize]
  exact List.le_sum_of_mem (List.mem_map_of_mem hr)

/-! ### Steps of a thread -/

theorem Advances.alive (h : Advances t queue finished th th' effect) (halive : Alive th) :
  Alive th'
  := by
  intro hgone
  cases h with
  | delete | requestStop | releaseStop | join | deleteMain | close => trivial
  | _ =>
      have hpc := halive hgone
      simp_all [LogPc.Outside]

/-- A thread whose other buffer is in flight keeps its records, unless it exits. -/
theorem pending_whenBusy {f : FlushFor} (halive : Alive th) (hpc : th.pc = .loadBack f)
    (hback : th.back.inFlight = true) :
  LogThread.pending { th with pc := f.whenBusy } = th.pending
    ∨ LogThread.pending { th with pc := f.whenBusy } = [] ∧ th.GivesUp
  := by
  have hpending : th.pending = th.front.records := by rw [LogThread.pending, hpc]
  cases f with
  | append r isFull =>
      left
      rw [hpending]
      cases isFull with
      | true =>
          have halloc := halive.allocated (by simp [hpc, LogPc.Outside])
          exact pending_of_idle rfl halloc
      | false => rfl
  | exit =>
      right
      use rfl, .inl ⟨hpc, hback⟩
  | destroy =>
      left
      rw [hpending]
      rfl

/-- A thread for which the queue was full keeps its records, unless it exits. -/
theorem pending_whenRefused {f : FlushFor} (halive : Alive th) (hpc : th.pc = .clearFlag f) :
  LogThread.pending { th.setFront { th.front with inFlight := false } with pc := f.whenRefused }
      = th.pending
    ∨ LogThread.pending
        { th.setFront { th.front with inFlight := false } with pc := f.whenRefused } = []
      ∧ th.GivesUp
  := by
  have hpending : th.pending = th.front.records := by rw [LogThread.pending, hpc]
  cases f with
  | append r isFull =>
      left
      rw [hpending]
      cases isFull with
      | true =>
          apply pending_setFront_of_idle _ (halive.allocated (by simp [hpc, LogPc.Outside]))
      | false =>
          change (th.setFront _).front.records = _
          rw [front_setFront]
  | exit =>
      right
      use rfl, .inr hpc
  | destroy =>
      left
      rw [hpending]
      change (th.setFront _).front.records = _
      rw [front_setFront]

/-- What a step of a thread does to the records it keeps outside of the queue. -/
theorem Advances.pending (h : Advances t queue finished th th' effect) (halive : Alive th)
    (hok : Ok held queue t th) :
  match effect with
  | .reserve f => f = ⟨(t, th.writeIdx), th.pending⟩ ∧ th'.pending = []
  | .copied r => th'.pending = th.pending ++ [r]
  | _ => th'.pending = th.pending ∨ th'.pending = [] ∧ th.GivesUp
  := by
  have hpcOk := hok.pc
  cases h with
  | busy hpc hback => apply pending_whenBusy halive hpc hback
  | ready hpc _ =>
      left
      rw [LogThread.pending, LogThread.pending, hpc]
      rfl
  | setFlag hpc =>
      left
      rw [LogThread.pending, LogThread.pending, hpc]
      change (th.setFront _).front.records = th.front.records
      rw [front_setFront]
  | @full f hpc _ =>
      left
      rw [LogThread.pending, LogThread.pending, hpc]
      cases f <;> rfl
  | reserve hpc _ =>
      refine ⟨?_, rfl⟩
      rw [LogThread.pending, hpc]
  | publish hpc =>
      left
      rw [LogThread.pending, LogThread.pending, hpc]
  | @release f hpc =>
      left
      rw [LogThread.pending, LogThread.pending, hpc]
      cases f <;> rfl
  | clearFlag hpc => apply pending_whenRefused halive hpc
  | switch hpc =>
      left
      rw [hpc] at hpcOk
      rw [LogThread.pending, LogThread.pending, hpc]
      exact hok.back hpcOk.1
  | copy hpc =>
      have hpending : th.pending = th.front.records := by rw [LogThread.pending, hpc]
      have halloc := halive.allocated (by simp [hpc, LogPc.Outside])
      rw [hpending]
      exact pending_setFront_of_idle _ halloc
  | spin => exact .inl rfl
  | @waited i hpc _ =>
      left
      rw [LogThread.pending, LogThread.pending, hpc]
      cases i <;> rfl
  | delete hpc | requestStop hpc | releaseStop hpc | join hpc _ | deleteMain hpc | close hpc =>
      left
      simp [LogThread.pending, hpc]

/-- `~ThreadFlushGuard` takes the flag back when the queue is full. -/
theorem Advances.clearFlag_exit (h : Advances t queue finished th th' effect)
    (hpc' : th'.pc = .clearFlag .exit) (hne : th.pc ≠ .clearFlag .exit) :
  th.pc = .enqueue .exit ∧ queue.Full flushQueueCapacity
  := by
  cases h with
  | @full f hpc hfull =>
      cases f with
      | exit => exact ⟨hpc, hfull⟩
      | _ => cases hpc'
  | @busy f hpc _ | @release f hpc | @clearFlag f hpc =>
      cases f with
      | append r isFull => cases isFull <;> cases hpc'
      | _ => cases hpc'
  | spin => exact absurd hpc' hne
  | @waited i hpc _ => cases i <;> cases hpc'
  | _ => cases hpc'

/-- What the backend may do to the buffers of a thread leaves the records it keeps outside of
the queue. -/
theorem Ok.pending_emptied {bufs : Bool → LoggerBuffer} (hok : Ok held queue t th)
    (hbufs : ∀ i, Emptied held (t, i) (th.bufs i) (bufs i)) :
  ({ th with bufs := bufs } : LogThread).pending = th.pending
  := by
  have hfront : Emptied held (t, th.writeIdx) th.front (bufs th.writeIdx) := hbufs _
  have hkept : th.front.inFlight = false ∨ (t, th.writeIdx) ∉ held →
      bufs th.writeIdx = th.front := by
    rintro (hflag | hnot)
    · apply hfront.eq_of_unflagged hflag
    · rcases hfront with heq | ⟨hmem, -⟩
      · exact heq
      · exact absurd hmem hnot
  have hpc := hok.pc
  rw [LogThread.pending, LogThread.pending]
  revert hpc
  cases th.pc with
  | idle =>
      intro hpc
      change (if th.allocated then (bufs th.writeIdx).records else []) = _
      rw [hkept (.inl hpc)]
  | loadBack | setFlag =>
      intro hpc
      exact congrArg LoggerBuffer.records (hkept (.inl hpc.2.1))
  | copy =>
      intro hpc
      exact congrArg LoggerBuffer.records (hkept (.inl hpc.1))
  | enqueue | clearFlag =>
      intro hpc
      exact congrArg LoggerBuffer.records (hkept (.inr hpc.1))
  | _ => exact fun _ => rfl

/-! ### Calls -/

theorem pending_append (hpc : th.pc = .idle) (r : Record) (late : Bool) :
  ∃ lost, th.pending = (th.append r late).pending ++ lost ∧ ∀ r ∈ lost, r = []
  := by
  refine ⟨[], ?_, nofun⟩
  have hstate : th.pending = th.withState.front.records := by
    cases halloc : th.allocated <;> simp [pending, hpc, withState, halloc, front]
  rw [hstate, List.append_nil]
  rcases th.append_cases r late with ⟨-, heq⟩ | ⟨isFull, -, heq⟩ <;>
  · rw [heq]
    rfl

/-- `~ThreadFlushGuard` leaves an empty buffer. -/
theorem pending_exit (hpc : th.pc = .idle) :
  ∃ lost, th.pending = th.exit.pending ++ lost ∧ ∀ r ∈ lost, r = []
  := by
  rw [exit]
  split
  case isFalse => exact ⟨[], (List.append_nil _).symm, by simp⟩
  case isTrue halloc =>
    rw [pending_of_idle hpc halloc]
    split
    case isTrue hempty =>
      use th.front.records, rfl
      intro r hr
      apply eq_nil_of_isEmpty hempty hr
    case isFalse => exact ⟨[], (List.append_nil _).symm, by simp⟩

/-- `~Logger` leaves an empty buffer. -/
theorem pending_destroy (hpc : th.pc = .idle) :
  ∃ lost, th.pending = th.destroy.pending ++ lost ∧ ∀ r ∈ lost, r = []
  := by
  rw [destroy]
  cases halloc : th.allocated with
  | false =>
      refine ⟨[], ?_, nofun⟩
      simp [pending, hpc, halloc]
  | true =>
      rw [pending_of_idle hpc halloc, Bool.true_and]
      cases hempty : th.front.isEmpty with
      | true =>
          use th.front.records, rfl
          intro r hr
          apply eq_nil_of_isEmpty hempty hr
      | false => exact ⟨[], (List.append_nil _).symm, nofun⟩

theorem alive_append (r : Record) (late : Bool) :
  Alive (th.append r late)
  := by
  intro hgone
  rw [show (th.append r late).allocated = th.withState.allocated from rfl,
    withState_allocated] at hgone
  cases hgone

theorem alive_exit (hpc : th.pc = .idle) :
  Alive th.exit
  := by
  rw [exit]
  split
  case isTrue halloc =>
    intro hgone
    rw [show th.allocated = false from hgone] at halloc
    cases halloc
  case isFalse =>
    intro _
    rw [hpc]
    trivial

theorem alive_destroy :
  Alive th.destroy
  := by
  intro hgone
  have hgone : th.allocated = false := hgone
  rw [destroy, hgone]
  trivial

end LogThread

namespace Logger

variable {s s' : Logger} {t : ℕ} {th : LogThread} {e : LogEvent} {files : ℕ → ℕ}

/-- The records of a thread that were enqueued. -/
def flushed (s : Logger) (t : ℕ) : List Record :=
  (s.queue.taken.filter (fun f => f.buf.1 = t)).flatMap Flush.records

/-- The records of a thread that the logger keeps. -/
def kept (s : Logger) (t : ℕ) : List Record := s.flushed t ++ (s.threads t).pending

/-- What a step does to the records of the thread `t`. -/
inductive Accounts (s : Logger) (e : LogEvent) (s' : Logger) (t : ℕ) : Prop where
  | same (hkept : s'.kept t = s.kept t) (hlogged : s'.logged t = s.logged t)
  | copied (r : Record) (hkept : s'.kept t = s.kept t ++ [r])
      (hlogged : s'.logged t = s.logged t ++ [r])
  | lost (rs : List Record) (hkept : s.kept t = s'.kept t ++ rs)
      (hlogged : s'.logged t = s.logged t)
      (hwhy : (∀ r ∈ rs, r = []) ∨ e = .thread t ∧ (s.threads t).GivesUp)

theorem flushed_congr (h : s'.queue.taken = s.queue.taken) :
  s'.flushed t = s.flushed t
  := by
  rw [flushed, flushed, h]

/-- A step that leaves the thread, the tickets and what was logged. -/
theorem Accounts.frame (hthread : s'.threads t = s.threads t)
    (htaken : s'.queue.taken = s.queue.taken) (hlogged : s'.logged t = s.logged t) :
  Accounts s e s' t
  := by
  refine .same ?_ hlogged
  rw [kept, kept, flushed_congr htaken, hthread]

/-- A call drops at most empty records. -/
theorem Accounts.call (hthread : s'.threads = Function.update s.threads t th)
    (htaken : s'.queue.taken = s.queue.taken) (hlogged : s'.logged = s.logged)
    (hpending : ∃ lost, (s.threads t).pending = th.pending ++ lost ∧ ∀ r ∈ lost, r = [])
    (t' : ℕ) :
  Accounts s e s' t'
  := by
  rcases eq_or_ne t' t with rfl | hne
  · obtain ⟨lost, heq, hlost⟩ := hpending
    refine .lost lost ?_ (by rw [hlogged]) (.inl hlost)
    rw [kept, kept, flushed_congr htaken, hthread, Function.update_self, heq,
      List.append_assoc]
  · apply Accounts.frame _ htaken (by rw [hlogged])
    rw [hthread, Function.update_of_ne hne]

theorem flushed_reserve (f : Flush) :
  ({ s with queue := s.queue.reserve f } : Logger).flushed t
    = s.flushed t ++ if f.buf.1 = t then f.records else []
  := by
  change ((s.queue.taken ++ [f]).filter _).flatMap Flush.records = _
  rw [List.filter_append, List.flatMap_append]
  apply congrArg
  by_cases ht : f.buf.1 = t <;> simp [ht]

/-- What a step of a thread does to the records of all threads. -/
theorem Accounts.thread {finished : Bool} {effect : LogEffect} (hown : Own s)
    (halive : (s.threads t).Alive)
    (hstep : (s.threads t).Advances t s.queue finished th effect) (t' : ℕ) :
  Accounts s (.thread t) ((s.setThread t th).apply t effect) t'
  := by
  have hpending := hstep.pending halive (hown.threads t)
  set s' := (s.setThread t th).apply t effect with hs'
  have hself : s'.threads t = th := by
    rw [hs', threads_apply]
    exact Function.update_self ..
  have hother : t' ≠ t → s'.threads t' = s.threads t' := by
    intro hne
    rw [hs', threads_apply]
    exact Function.update_of_ne hne ..
  cases effect with
  | reserve f =>
      obtain ⟨rfl, hnil⟩ := hpending
      refine .same ?_ rfl
      rw [kept, kept, show s'.flushed t' = _ from flushed_reserve _]
      rcases eq_or_ne t' t with rfl | hne
      · rw [if_pos rfl, hself, hnil, List.append_nil]
        rfl
      · rw [if_neg (Ne.symm hne), hother hne, List.append_nil]
        rfl
  | copied r =>
      rcases eq_or_ne t' t with rfl | hne
      · refine .copied r ?_ (Function.update_self ..)
        rw [kept, kept, hself, hpending, ← List.append_assoc]
        rfl
      · exact .frame (hother hne) rfl (Function.update_of_ne hne ..)
  | none | publish ticket | release | requestStop | closeFd =>
      rcases eq_or_ne t' t with rfl | hne
      · rcases hpending with heq | ⟨hnil, hgives⟩
        · refine .same ?_ rfl
          rw [kept, kept, hself, heq]
          rfl
        · refine .lost (s.threads t').pending ?_ rfl (.inr ⟨rfl, hgives⟩)
          rw [kept, kept, hself, hnil, List.append_nil]
          rfl
      · exact .frame (hother hne) rfl rfl

/-- What a step does to the records of all threads. -/
theorem Steps.accounts (h : Steps s e s') (hown : Own s) (halive : ∀ t, (s.threads t).Alive)
    (t : ℕ) :
  Accounts s e s' t
  := by
  cases h with
  | append r late hpc =>
      refine .call ?_ ?_ ?_ (LogThread.pending_append hpc r late) t <;> rfl
  | exit hpc =>
      refine .call ?_ ?_ ?_ (LogThread.pending_exit hpc) t <;> rfl
  | destroy hpc =>
      refine .call ?_ ?_ ?_ (LogThread.pending_destroy hpc) t <;> rfl
  | thread hadvance => exact .thread hown (halive _) hadvance t
  | backend hbacks =>
      obtain ⟨bufs, heq, hemptied⟩ := hown.emptied hbacks t
      refine .same ?_ (by rw [hbacks.untouched.logged])
      rw [kept, kept, flushed_congr hbacks.untouched.taken, heq,
        (hown.threads t).pending_emptied hemptied]
  | complete len hw => exact .frame rfl rfl rfl

theorem Steps.alive (h : Steps s e s') (hown : Own s) (halive : ∀ t, (s.threads t).Alive) (t : ℕ) :
  (s'.threads t).Alive
  := by
  have hset : ∀ {t' : ℕ} {th : LogThread}, th.Alive → ((s.setThread t' th).threads t).Alive :=
    fun hth => of_setThread (fun _ => hth) (fun _ => halive t)
  cases h with
  | append r late hpc => exact hset (LogThread.alive_append r late)
  | exit hpc => exact hset (LogThread.alive_exit hpc)
  | destroy hpc => exact hset LogThread.alive_destroy
  | @thread t' th effect hadvance =>
      have hth : ((s.setThread t' th).threads t).Alive := hset (hadvance.alive (halive t'))
      rw [threads_apply]
      exact hth
  | backend hbacks =>
      obtain ⟨bufs, heq, -⟩ := hown.emptied hbacks t
      rw [heq]
      apply halive t
  | complete len hw => exact halive t

/-- The invariant of the records: the logger keeps some of the records a thread has logged, in
their order. -/
structure Recorded (s : Logger) : Prop where
  own : Own s
  alive : ∀ t, (s.threads t).Alive
  sublist : ∀ t, (s.kept t) <+ (s.logged t)

theorem recorded_start (files : ℕ → ℕ) :
  Recorded (start files)
  := by
  constructor
  case own => exact own_start files
  case alive => exact fun t _ => trivial
  case sublist => exact fun t => .refl _

/-- Every step keeps the invariant. -/
theorem Recorded.step (h : Recorded s) (hstep : Steps s e s') :
  Recorded s'
  := by
  constructor
  case own => exact h.own.step hstep
  case alive => exact hstep.alive h.own h.alive
  case sublist =>
    intro t
    have hsub := h.sublist t
    cases hstep.accounts h.own h.alive t with
    | same hkept hlogged =>
        rw [hkept, hlogged]
        apply hsub
    | copied r hkept hlogged =>
        rw [hkept, hlogged]
        apply hsub.append_right
    | lost rs hkept hlogged hwhy =>
        rw [hlogged]
        rw [hkept] at hsub
        apply (List.sublist_append_left _ _).trans hsub

/-- When `~ThreadFlushGuard` looks at the flag of the other buffer it is not in flight, and when
it enqueues the current one there is room in the queue. -/
def Guarded (s : Logger) : LogEvent → Prop
  | .thread t => ((s.threads t).pc = .loadBack .exit → (s.threads t).back.inFlight = false)
      ∧ ((s.threads t).pc = .enqueue .exit → ¬ s.queue.Full flushQueueCapacity)
  | _ => True

instance (s : Logger) : ∀ e, Decidable (Guarded s e)
  | .thread _ => inferInstanceAs (Decidable (_ ∧ _))
  | .append _ _ _ | .exit _ | .destroy _ | .backend _ _ | .complete _ _ =>
      inferInstanceAs (Decidable True)

/-- With room in the queue `~ThreadFlushGuard` does not take the flag back. -/
theorem Steps.clearFlag_exit (h : Steps s e s') (hown : Own s) (hguarded : Guarded s e)
    (hnot : ∀ t, (s.threads t).pc ≠ .clearFlag .exit) (t : ℕ) :
  (s'.threads t).pc ≠ .clearFlag .exit
  := by
  have hset : ∀ {t' : ℕ} {th : LogThread}, th.pc ≠ .clearFlag .exit →
      ((s.setThread t' th).threads t).pc ≠ .clearFlag .exit := by
    intro t' th hth
    apply of_setThread (P := fun th' => th'.pc ≠ .clearFlag .exit)
    · exact fun _ => hth
    · exact fun _ => hnot t
  cases h with
  | @append t' r late hpc =>
      apply hset
      rcases (s.threads t').append_cases r late with ⟨-, heq⟩ | ⟨isFull, -, heq⟩ <;> simp [heq]
  | @exit t' hpc =>
      apply hset
      rw [LogThread.exit]
      split
      · split <;> simp
      · apply hnot t'
  | @destroy t' hpc =>
      apply hset
      rw [LogThread.destroy]
      split <;> simp
  | @thread t' th effect hadvance =>
      rw [threads_apply]
      apply hset
      intro hpc'
      obtain ⟨hpc, hfull⟩ := hadvance.clearFlag_exit hpc' (hnot t')
      exact hguarded.2 hpc hfull
  | backend hbacks =>
      obtain ⟨bufs, heq, -⟩ := hown.emptied hbacks t
      rw [heq]
      apply hnot t
  | complete len hw => exact hnot t

/-- The invariant of the runs in which `~ThreadFlushGuard` hands every buffer over: nothing but
empty records is lost. -/
structure Complete (s : Logger) : Prop where
  accepted : ∀ t, (s.threads t).pc ≠ .clearFlag .exit
  kept : ∀ t, (s.kept t).filter (· ≠ []) = (s.logged t).filter (· ≠ [])

theorem Complete.step (h : Complete s) (hrecorded : Recorded s) (hguarded : Guarded s e)
    (hstep : Steps s e s') :
  Complete s'
  := by
  refine ⟨hstep.clearFlag_exit hrecorded.own hguarded h.accepted, ?_⟩
  intro t
  have heq := h.kept t
  cases hstep.accounts hrecorded.own hrecorded.alive t with
  | same hkept hlogged => rw [hkept, hlogged, heq]
  | copied r hkept hlogged => rw [hkept, hlogged, List.filter_append, List.filter_append, heq]
  | lost rs hkept hlogged hwhy =>
      have hempty : rs.filter (· ≠ []) = [] := by
        rcases hwhy with hnil | ⟨rfl, ⟨hpc, hback⟩ | hpc⟩
        · rw [List.filter_eq_nil_iff]
          intro r hr
          simp [hnil r hr]
        · rw [hguarded.1 hpc] at hback
          cases hback
        · exact absurd hpc (h.accepted t)
      rw [hlogged, ← heq, hkept, List.filter_append, hempty, List.append_nil]

/-- In every run in which `~ThreadFlushGuard` finds the other buffer not in flight and room in
the queue: the records a thread has logged, up to empty ones, are those it has enqueued, when
its `ThreadState` is about to be deleted. -/
theorem records_flushed (hreach : Reaches step Guarded (start files) s)
    (hpc : (s.threads t).pc = .delete ∨ (s.threads t).pc = .deleteMain) :
  (s.flushed t).filter (· ≠ []) = (s.logged t).filter (· ≠ [])
  := by
  have hinv : Recorded s ∧ Complete s := by
    apply hreach.invariant (I := fun s => Recorded s ∧ Complete s)
    · exact ⟨recorded_start files, nofun, fun t => rfl⟩
    · rintro s s' e ⟨hrecorded, hcomplete⟩ hguarded hstep
      have hsteps := step_cases hstep
      exact ⟨hrecorded.step hsteps, hcomplete.step hrecorded hguarded hsteps⟩
  rw [← hinv.2.kept t, kept, LogThread.pending]
  rcases hpc with hpc | hpc <;>
  · rw [hpc, List.append_nil]

/-- A thread logs two records a second apart, and exits when the write of the first was seen. -/
theorem records_flushed_in_time :
  ∃ s, Reaches step Guarded (start fun _ => 0) s ∧ (s.threads 0).pc = .delete
    ∧ s.logged 0 = [[65], [66]] ∧ (s.flushed 0).filter (· ≠ []) = (s.logged 0).filter (· ≠ [])
  := by
  obtain ⟨s, hreach, hpc, hlogged⟩ : ∃ s, Reaches step Guarded (start fun _ => 0) s
      ∧ (s.threads 0).pc = .delete ∧ s.logged 0 = [[65], [66]] := by
    apply Reaches.exists_of_follow [.append 0 [65] false, .thread 0, .append 0 [66] true,
      .thread 0, .thread 0, .thread 0, .thread 0, .thread 0, .thread 0, .thread 0,
      .backend 1 .ok, .backend 1 .ok, .backend 1 .ok, .backend 1 .ok, .backend 1 .ok,
      .backend 1 .ok, .backend 1 .ok, .backend 1 .ok, .backend 1 .ok, .complete 0 1,
      .backend 1 .ok, .backend 1 .ok, .backend 1 .ok, .backend 1 .ok, .exit 0, .thread 0,
      .thread 0, .thread 0, .thread 0, .thread 0, .thread 0, .backend 1 .ok, .backend 1 .ok,
      .backend 1 .ok, .backend 1 .ok, .backend 1 .ok, .backend 1 .ok, .backend 1 .ok,
      .backend 1 .ok, .complete 0 1, .backend 1 .ok, .backend 1 .ok, .backend 1 .ok, .thread 0]
    decide +kernel
  use s, hreach, hpc, hlogged
  exact records_flushed hreach (.inl hpc)

/-- A thread logs two records a second apart, and exits while the first is being written: its
`ThreadState` is deleted with the second record, which was never enqueued. -/
theorem exit_drops_record :
  ∃ s, Reachable 1 (fun _ => 0) s ∧ (s.threads 0).pc = .delete ∧ s.logged 0 = [[65], [66]]
    ∧ s.flushed 0 = [[65]]
  := by
  apply Reaches.exists_of_follow [.append 0 [65] false, .thread 0, .append 0 [66] true,
    .thread 0, .thread 0, .thread 0, .thread 0, .thread 0, .thread 0, .thread 0,
    .backend 1 .ok, .backend 1 .ok, .backend 1 .ok, .backend 1 .ok, .backend 1 .ok,
    .backend 1 .ok, .backend 1 .ok, .backend 1 .ok, .backend 1 .ok, .exit 0, .thread 0,
    .complete 0 1, .backend 1 .ok, .backend 1 .ok, .backend 1 .ok, .thread 0, .thread 0]
  decide +kernel

end Logger

end Proactor
