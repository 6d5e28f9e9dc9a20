import UringProactor.Util.LogShutdown
import UringProactor.Prelude.Monitor

/-!
# The submission queue of the logger

`submit_buf` takes an SQE for every buffer, and the backend submits them only when
`flush_queue_` is empty.  The buffers on the way to the kernel are flagged, so they belong to
different threads, and each of these threads has a `ThreadState`.  Hence the ring has an SQE
for every buffer as long as there are at most as many `ThreadState`s as the ring is deep.  The
queue is deeper than the ring, so more threads than that can make `get_sqe` throw.
-/

namespace Proactor

/-- The number of buffers the backend is in `submit_buf` with. -/
def BackendTask.passed : BackendTask → ℕ
  | .submitBuf _ => 1
  | _ => 0

/-- A step of a thread makes no `ThreadState`. -/
theorem LogThread.Advances.allocated {t : ℕ} {queue : TicketQueue Flush} {finished : Bool}
    {th th' : LogThread} {effect : LogEffect} (h : Advances t queue finished th th' effect)
    (halloc : th'.allocated = true) :
  th.allocated = true
  := by
  cases h with
  | delete | deleteMain => cases halloc
  | _ => exact halloc

namespace Logger

variable {s s' : Logger} {n t : ℕ} {e : LogEvent}

/-- The threads that have a `ThreadState`, among the first `n`. -/
def live (n : ℕ) (s : Logger) : Finset ℕ :=
  (Finset.range n).filter (fun t => (s.threads t).allocated = true)

/-- The condition that a thread gets a `ThreadState` only when there are fewer than the ring is
deep. -/
def Few (n : ℕ) (s : Logger) : LogEvent → Prop
  | .append t _ _ => (s.threads t).allocated = true ∨ (live n s).card < logRingDepth
  | _ => True

instance (n : ℕ) (s : Logger) : ∀ e, Decidable (Few n s e)
  | .append _ _ _ => inferInstanceAs (Decidable (_ ∨ _))
  | .exit _ | .destroy _ | .thread _ | .backend _ _ | .complete _ _ =>
      inferInstanceAs (Decidable True)

/-- The condition that a log file is open in `submit_buf`. -/
def Opened (s : Logger) : LogEvent → Prop
  | .backend _ _ => s.task.passed = 0 ∨ s.fd ≠ none
  | _ => True

instance (s : Logger) : ∀ e, Decidable (Opened s e)
  | .backend _ _ => inferInstanceAs (Decidable (_ ∨ _))
  | .append _ _ _ | .exit _ | .destroy _ | .thread _ | .complete _ _ =>
      inferInstanceAs (Decidable True)

/-! ### The threads with buffers in flight -/

/-- The buffers that are queued or being written belong to different threads. -/
theorem Own.nodup_holders (h : Own s) :
  (s.held.map Prod.fst).Nodup
  := by
  apply h.nodup.map_on
  rintro ⟨t, i⟩ hi ⟨t', j⟩ hj heq
  obtain rfl : t = t' := heq
  have hone := (h.threads t).one
  rw [LogThread.front, LogThread.back] at hone
  have hflag : ∀ k, (t, k) ∈ s.held → ((s.threads t).bufs k).inFlight = true := by
    intro k
    apply h.flagged_thread
  by_contra hne
  have hij : j = !i := by
    cases i <;> cases j <;> simp_all
  subst hij
  cases hidx : (s.threads t).writeIdx <;> cases i <;> simp_all

/-- A thread with a buffer that is queued or being written has a `ThreadState`. -/
theorem Shutdown.allocated_of_held (h : Shutdown n s) (hown : Own s) {i : Bool}
    (hi : (t, i) ∈ s.held) :
  (s.threads t).allocated = true
  := by
  by_contra hgone
  have hjoined : (s.threads t).pc.Joined := by
    by_contra hjoined
    have hflag := (hown.threads t).gone (Bool.eq_false_iff.mpr hgone)
      (fun hpc => hjoined (hpc ▸ trivial)) (fun hpc => hjoined (hpc ▸ trivial)) i
    rw [hown.flagged_thread t hi] at hflag
    cases hflag
  rw [h.held_eq_nil hown (h.joined t hjoined)] at hi
  cases hi

theorem allocated_setThread {u : ℕ} {th : LogThread}
    (hth : th.allocated = true → (s.threads u).allocated = true)
    (ht : ((s.setThread u th).threads t).allocated = true) :
  (s.threads t).allocated = true
  := by
  revert ht
  apply of_setThread (P := fun th' => th'.allocated = true → (s.threads t).allocated = true)
  · rintro rfl
    exact hth
  · exact fun _ => id

/-- The backend makes no `ThreadState`. -/
theorem Backs.allocated {date : ℕ} {opened : OpenResult} (h : Backs s date opened s')
    (ht : (s'.threads t).allocated = true) :
  (s.threads t).allocated = true
  := by
  cases h with
  | openFirst | openNext => cases opened <;> exact ht
  | clear | unflag =>
      apply allocated_setThread _ ht
      exact id
  | _ => exact ht

/-- Only a call of `append` makes a `ThreadState`. -/
theorem Steps.allocated (h : Steps s e s') (ht : (s'.threads t).allocated = true) :
  (s.threads t).allocated = true ∨ ∃ r late, e = .append t r late
  := by
  cases h with
  | @append u r late hpc =>
      rcases eq_or_ne t u with rfl | hne
      · right
        use r, late
      · left
        change (Function.update s.threads u _ t).allocated = true at ht
        rwa [Function.update_of_ne hne] at ht
  | exit hpc =>
      left
      apply allocated_setThread _ ht
      rw [LogThread.exit]
      split <;> exact id
  | destroy hpc =>
      left
      apply allocated_setThread _ ht
      exact id
  | thread hadvance =>
      left
      rw [threads_apply] at ht
      apply allocated_setThread hadvance.allocated ht
  | backend hbacks =>
      left
      apply hbacks.allocated ht
  | complete => exact .inl ht

/-- What holds of the threads when each gets its `ThreadState` under the condition. -/
structure Crowd (n : ℕ) (s : Logger) : Prop where
  unused : ∀ t, (s.threads t).allocated = true → t < n
  few : (live n s).card ≤ logRingDepth

theorem Crowd.step (h : Crowd n s) (hadmits : Admits n s e) (hfew : Few n s e)
    (hstep : Steps s e s') :
  Crowd n s'
  := by
  constructor
  · intro t ht
    rcases hstep.allocated ht with halloc | ⟨r, late, rfl⟩
    · apply h.unused t halloc
    · apply hadmits.1
  · by_cases hnew : ∃ t r late, e = .append t r late ∧ (s.threads t).allocated = false
    · obtain ⟨t, r, late, rfl, hgone⟩ := hnew
      have hsub : live n s' ⊆ insert t (live n s) := by
        intro t' ht'
        rw [live, Finset.mem_filter] at ht'
        rw [Finset.mem_insert, live, Finset.mem_filter]
        rcases hstep.allocated ht'.2 with halloc | ⟨r', late', heq⟩
        · exact .inr ⟨ht'.1, halloc⟩
        · cases heq
          exact .inl rfl
      have hroom : (live n s).card < logRingDepth := by
        apply hfew.resolve_left
        rw [hgone]
        exact Bool.false_ne_true
      calc
        (live n s').card ≤ (insert t (live n s)).card := Finset.card_le_card hsub
        _ ≤ (live n s).card + 1 := Finset.card_insert_le ..
        _ ≤ logRingDepth := hroom
    · have hsub : live n s' ⊆ live n s := by
        intro t ht
        rw [live, Finset.mem_filter] at ht ⊢
        use ht.1
        rcases hstep.allocated ht.2 with halloc | ⟨r, late, rfl⟩
        · exact halloc
        · by_contra hgone
          apply hnew
          exact ⟨t, r, late, rfl, Bool.eq_false_iff.mpr hgone⟩
      apply (Finset.card_le_card hsub).trans h.few

theorem crowd_start (n : ℕ) (files : ℕ → ℕ) :
  Crowd n (start files)
  := by
  constructor
  · exact nofun
  · simp [live, start]

/-- At most as many buffers are queued or being written as the ring is deep. -/
theorem Crowd.length_held (h : Crowd n s) (hown : Own s) (hshutdown : Shutdown n s) :
  s.held.length ≤ logRingDepth
  := by
  have hsub : (s.held.map Prod.fst).toFinset ⊆ live n s := by
    intro t ht
    obtain ⟨⟨t, i⟩, hi, rfl⟩ := List.mem_map.mp (List.mem_toFinset.mp ht)
    have halloc := hshutdown.allocated_of_held hown hi
    rw [live, Finset.mem_filter, Finset.mem_range]
    exact ⟨h.unused t halloc, halloc⟩
  calc
    s.held.length = (s.held.map Prod.fst).length := (List.length_map ..).symm
    _ = (s.held.map Prod.fst).toFinset.card :=
      (List.toFinset_card_of_nodup hown.nodup_holders).symm
    _ ≤ (live n s).card := Finset.card_le_card hsub
    _ ≤ logRingDepth := h.few

/-! ### The buffers passed to `submit_buf` -/

theorem length_prepared_le_held :
  s.sq.length + s.task.passed ≤ s.held.length
  := by
  have htask : s.task.passed ≤ s.task.bufs.length := by
    cases s.task <;> simp [BackendTask.passed, BackendTask.bufs]
  simp only [held, queued, writing, List.length_append, List.length_map]
  omega

/-- `submit_buf` finds an SQE. -/
theorem submitBuf_of_room {f : Flush} (htask : s.task = .submitBuf f)
    (hheld : s.held.length ≤ logRingDepth) :
  s.submitBuf f.buf ≠ none
  := by
  have hprepared := length_prepared_le_held (s := s)
  rw [htask, BackendTask.passed] at hprepared
  have hroom : s.sq.length < logRingDepth := by omega
  rw [submitBuf]
  split
  · simp
  · rw [if_pos hroom]
    simp

/-- The runs of the logger with at most as many `ThreadState`s as the ring is deep. -/
theorem length_held_of_reaches {files : ℕ → ℕ}
    (h : Reaches step (fun s e => Admits n s e ∧ Few n s e) (start files) s) :
  s.held.length ≤ logRingDepth
  := by
  have hinv : Own s ∧ Shutdown n s ∧ Crowd n s := by
    apply h.invariant (I := fun s => Own s ∧ Shutdown n s ∧ Crowd n s)
    · exact ⟨own_start files, shutdown_start n files, crowd_start n files⟩
    · rintro s s' e ⟨hown, hshutdown, hcrowd⟩ ⟨hadmits, hfew⟩ hstep
      have hsteps := step_cases hstep
      exact ⟨hown.step hsteps, hshutdown.step hown hadmits hsteps,
        hcrowd.step hadmits hfew hsteps⟩
  obtain ⟨hown, hshutdown, hcrowd⟩ := hinv
  apply hcrowd.length_held hown hshutdown

/-- The logger with the number of buffers passed to `submit_buf` since the last submit. -/
abbrev Counting := Monitored Logger ℕ

namespace Counting

/-- The number of buffers passed to `submit_buf` since the last submit, after a step. -/
def observe (s : Logger) (passed : ℕ) (e : LogEvent) : ℕ :=
  match e, s.task, s.pc with
  | .backend _ _, .none, .drain | .backend _ _, .none, .finalDrain =>
      if s.queue.front.isSome then passed + 1 else passed
  | .backend _ _, .none, .submit | .backend _ _, .none, .finalSubmit => 0
  | .backend _ _, .none, .settle _ => if s.inFlight = 0 then passed else 0
  | _, _, _ => passed

/-- One event, counted. -/
def step (m : Counting) (e : LogEvent) : Option Counting :=
  Monitored.step (fun s e => (s.step e).map (fun s' => ((), s')))
    (fun s passed e _ _ => observe s passed e) m e

variable {m m' : Counting} {passed : ℕ} {e : LogEvent}

/-- While a file is open, a buffer passed to `submit_buf` is there or prepared, up to the next
submit. -/
theorem observe_eq (hsteps : Steps s e s') (hopened : Opened s e)
    (h : passed = s.sq.length + s.task.passed) :
  observe s passed e = s'.sq.length + s'.task.passed
  := by
  cases hsteps with
  | append | exit | destroy | complete => exact h
  | @thread t th effect => cases effect <;> exact h
  | backend hbacks =>
      cases hbacks with
      | openFirst htask hpc | openNext htask hpc =>
          rename_i opened
          cases opened <;> simpa [observe, switchLogFileDate, htask, hpc] using h
      | dequeue htask hpc hfront =>
          rw [htask] at h
          rcases hpc with hpc | hpc <;> simp [observe, htask, hpc, hfront, BackendTask.passed, h]
      | drained htask hpc hfront | finalDrained htask hpc hfront =>
          simpa [observe, htask, hpc, hfront] using h
      | submit htask hpc | finalSubmit htask hpc =>
          simp [observe, submitRing, htask, hpc, BackendTask.passed]
      | settled htask hpc hinFlight =>
          simpa [observe, htask, hpc, hinFlight] using h
      | settle htask hpc hinFlight =>
          simp [observe, submitRing, htask, hpc, hinFlight, BackendTask.passed]
      | reap htask hpc hcq =>
          rcases hpc with hpc | ⟨final, hpc⟩ <;>
            simpa [observe, htask, hpc, BackendTask.passed] using h
      | prepare htask hfd | clear htask | unflag htask =>
          simp [observe, setBuf, setThread, htask, h, BackendTask.passed]
      | drop htask hfd =>
          -- no file is open, against the condition
          rcases hopened with hpassed | hopen
          · rw [htask] at hpassed
            cases hpassed
          · exact absurd hfd hopen
      | start htask hpc | top htask hpc | sameDate htask hpc | newDate htask hpc
      | acquire htask hpc | reaped htask hpc | check htask hpc | waited htask hpc
      | reapedAll htask hpc =>
          simpa [observe, htask, hpc] using h

/-- What holds in every state of a counted run: its state is reached by the logger, and the
count is that of the buffers in `submit_buf` or prepared. -/
theorem counted {n : ℕ} {files : ℕ → ℕ}
    (h : Reaches step (fun m e => Admits n m.state e ∧ Few n m.state e ∧ Opened m.state e)
      ⟨start files, 0⟩ m) :
  Reaches Logger.step (fun s e => Admits n s e ∧ Few n s e) (start files) m.state
    ∧ m.record = m.state.sq.length + m.state.task.passed
  := by
  induction h with
  | start => exact ⟨.start, rfl⟩
  | next _ hok hstep ih =>
      obtain ⟨hadmits, hfew, hopened⟩ := hok
      obtain ⟨⟨⟩, hrun, hrecord⟩ := Monitored.step_eq_some hstep
      obtain ⟨s', hs', heq⟩ := Option.map_eq_some_iff.mp hrun
      obtain rfl := (Prod.mk.inj heq).2
      constructor
      · apply ih.1.next ⟨hadmits, hfew⟩ hs'
      · rw [hrecord]
        apply observe_eq (step_cases hs') hopened ih.2

end Counting

theorem task_of_passed (h : s.task.passed = 1) :
  ∃ f, s.task = .submitBuf f
  := by
  revert h
  cases s.task with
  | submitBuf f => exact fun _ => ⟨f, rfl⟩
  | _ => exact nofun

/-- Each of the first `n` threads logs a record and hands it over with the next; then the
backend takes `k` steps. -/
def burst (n k : ℕ) : List LogEvent :=
  (List.range n).flatMap (fun t => [.append t [65] false, .thread t, .append t [66] true,
    .thread t, .thread t, .thread t, .thread t, .thread t])
  ++ List.replicate k (.backend 1 .ok)

/-- As long as a thread gets a `ThreadState` only when fewer than 64 exist, `get_sqe` does not
throw in `submit_buf`; and as long as a log file is open in `submit_buf`, at most 64 buffers
are passed to it between two submits. -/
theorem sqes_suffice (n : ℕ) (files : ℕ → ℕ) :
  (∀ s, Reaches step (fun s e => Admits n s e ∧ Few n s e) (start files) s →
      ∀ f, s.task = .submitBuf f → s.submitBuf f.buf ≠ none)
    ∧ ∀ m, Reaches Counting.step
        (fun m e => Admits n m.state e ∧ Few n m.state e ∧ Opened m.state e)
        ⟨start files, 0⟩ m →
      m.record ≤ logRingDepth
  := by
  constructor
  · intro s hreach f htask
    apply submitBuf_of_room htask (length_held_of_reaches hreach)
  · intro m hreach
    obtain ⟨hstate, hrecord⟩ := Counting.counted hreach
    rw [hrecord]
    apply length_prepared_le_held.trans (length_held_of_reaches hstate)

/-- Two threads flush at once: their buffers are passed to `submit_buf` without a submit in
between, and the second finds an SQE as well. -/
theorem sqes_suffice_two_threads :
  ∃ m, Reaches Counting.step
      (fun m e => Admits 2 m.state e ∧ Few 2 m.state e ∧ Opened m.state e)
      ⟨start (fun _ => 0), 0⟩ m
    ∧ m.record = 2 ∧ m.record ≤ logRingDepth
    ∧ ∃ f, m.state.task = .submitBuf f ∧ m.state.submitBuf f.buf ≠ none
  := by
  obtain ⟨m, hreach, hrecord, hpassed⟩ : ∃ m, Reaches Counting.step
      (fun m e => Admits 2 m.state e ∧ Few 2 m.state e ∧ Opened m.state e)
      ⟨start (fun _ => 0), 0⟩ m ∧ m.record = 2 ∧ m.state.task.passed = 1 := by
    apply Reaches.exists_of_follow (burst 2 8)
    decide +kernel
  obtain ⟨f, htask⟩ := task_of_passed hpassed
  obtain ⟨hsqe, hcount⟩ := sqes_suffice 2 (fun _ => 0)
  use m, hreach, hrecord, hcount m hreach, f, htask
  apply hsqe m.state (Counting.counted hreach).1 f htask

/-- When 65 threads hand a buffer over at the same time, 65 buffers are passed to `submit_buf`
without a submit in between, and `get_sqe` throws at the last of them. -/
theorem sqes_run_out :
  ∃ m, Reaches Counting.step (fun m e => Admits 65 m.state e) ⟨start (fun _ => 0), 0⟩ m
    ∧ m.record = 65 ∧ ∃ f, m.state.task = .submitBuf f ∧ m.state.submitBuf f.buf = none
  := by
  obtain ⟨m, hreach, hrecord, hpassed, hthrows⟩ : ∃ m, Reaches Counting.step
      (fun m e => Admits 65 m.state e) ⟨start (fun _ => 0), 0⟩ m ∧ m.record = 65
      ∧ m.state.task.passed = 1 ∧ (m.state.taskStep).isNone = true := by
    apply Reaches.exists_of_follow (burst 65 134)
    decide +kernel
  obtain ⟨f, htask⟩ := task_of_passed hpassed
  use m, hreach, hrecord, f, htask
  rw [taskStep, htask] at hthrows
  apply Option.isNone_iff_eq_none.mp hthrows

end Logger

end Proactor
