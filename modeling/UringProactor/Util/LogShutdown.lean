import UringProactor.Util.LogOwnership

/-!
# The end of the logger

`~Logger` runs after all other threads have exited: it hands over the last buffer, requests
the backend to stop and waits for it.  The backend then finds every ticket published, empties
the queue and waits for all writes in flight.  When it has finished no buffer is held, so the
last `ThreadState` can be deleted.
-/

open scoped List

namespace Proactor

/-- The thread is in `~Logger`, after it requested the backend to stop. -/
def LogPc.Stopping : LogPc → Prop
  | .releaseStop | .join | .deleteMain | .close | .destroyed => True
  | _ => False

/-- The thread is in `~Logger`, after it joined the backend. -/
def LogPc.Joined : LogPc → Prop
  | .deleteMain | .close | .destroyed => True
  | _ => False

/-- The thread is in `~Logger`. -/
def LogPc.Destroying : LogPc → Prop
  | .loadBack .destroy | .setFlag .destroy | .enqueue .destroy | .publish .destroy _
  | .release .destroy | .clearFlag .destroy | .requestStop => True
  | pc => pc.Stopping

theorem LogPc.Stopping.destroying {pc : LogPc} (h : pc.Stopping) :
  pc.Destroying
  := by
  revert h
  cases pc <;> simp [LogPc.Stopping, LogPc.Destroying]

theorem LogPc.Joined.stopping {pc : LogPc} (h : pc.Joined) :
  pc.Stopping
  := by
  revert h
  cases pc <;> simp [LogPc.Joined, LogPc.Stopping]

/-- The backend has emptied the queue for the last time. -/
def BackendPc.Drained : BackendPc → Prop
  | .finalSubmit | .finished => True
  | .settle final | .wait final | .reapAll final => final = true
  | _ => False

/-- The backend has seen the request to stop. -/
def BackendPc.Final : BackendPc → Prop
  | .finalDrain => True
  | pc => pc.Drained

theorem BackendPc.Drained.final {pc : BackendPc} (h : pc.Drained) :
  pc.Final
  := by
  revert h
  cases pc <;> simp [Drained, Final]

/-- The number of writes that the task settles. -/
def BackendTask.reaped : BackendTask → ℕ
  | .none | .submitBuf _ => 0
  | .clear _ reaped | .unflag _ reaped => reaped.toNat

namespace LogThread.Advances

variable {t : ℕ} {queue : TicketQueue Flush} {finished : Bool} {th th' : LogThread}
  {effect : LogEffect}

theorem pc_ne_idle (h : Advances t queue finished th th' effect) :
  th.pc ≠ .idle
  := by
  cases h <;> simp [*]

/-- No step enters `~Logger`. -/
theorem destroying (h : Advances t queue finished th th' effect) (hpc' : th'.pc.Destroying) :
  th.pc.Destroying
  := by
  cases h with
  | @busy f hpc _ | @setFlag f hpc | @ready f hpc _ | @full f hpc _ | @reserve f hpc _
  | @publish f ticket hpc | @release f hpc | @clearFlag f hpc =>
      rw [hpc]
      cases f with
      | append r isFull => cases isFull <;> exact hpc'.elim
      | exit => exact hpc'.elim
      | destroy => trivial
  | spin hpc _ => exact hpc'
  | @waited i hpc _ => cases i <;> exact hpc'.elim
  | requestStop hpc | releaseStop hpc | join hpc _ | deleteMain hpc | close hpc =>
      rw [hpc]
      trivial
  | _ => exact hpc'.elim

/-- Nothing leads out of the end of `~Logger`. -/
theorem stopping (h : Advances t queue finished th th' effect) (hpc : th.pc.Stopping) :
  th'.pc.Stopping
  := by
  cases h with
  | releaseStop _ | join _ _ | deleteMain _ | close _ => trivial
  | _ => simp_all [LogPc.Stopping]

/-- `~Logger` goes on when the backend has finished. -/
theorem joined (h : Advances t queue finished th th' effect) (hpc' : th'.pc.Joined) :
  finished = true ∨ th.pc.Joined
  := by
  cases h with
  | join hpc hfinished =>
      left
      exact hfinished
  | deleteMain hpc | close hpc =>
      right
      rw [hpc]
      trivial
  | spin hpc _ =>
      right
      exact hpc'
  | @busy f hpc _ | @full f hpc _ | @release f hpc | @clearFlag f hpc =>
      cases f with
      | append r isFull => cases isFull <;> exact hpc'.elim
      | _ => exact hpc'.elim
  | @waited i hpc _ => cases i <;> exact hpc'.elim
  | _ => exact hpc'.elim

end LogThread.Advances

namespace Logger

variable {s s' : Logger} {n t : ℕ} {th : LogThread} {e : LogEvent}

/-- The condition on the events of `n` threads: threads log and exit until `~Logger` starts,
and it starts once, when all other threads have exited. -/
def Admits (n : ℕ) (s : Logger) : LogEvent → Prop
  | .append t _ _ => t < n ∧ s.destroyer = none
  | .exit t => t < n ∧ s.destroyer = none
  | .destroy t => t < n ∧ s.destroyer = none
      ∧ ∀ t' < n, t' ≠ t → (s.threads t').pc = .idle ∧ (s.threads t').allocated = false
  | _ => True

instance (n : ℕ) (s : Logger) : ∀ e, Decidable (Admits n s e)
  | .append _ _ _ | .exit _ => inferInstanceAs (Decidable (_ ∧ _))
  | .destroy _ => inferInstanceAs (Decidable (_ ∧ _ ∧ _))
  | .thread _ | .backend _ _ | .complete _ _ => inferInstanceAs (Decidable True)

/-- The number of writes that are prepared but not settled. -/
def unsettled (s : Logger) : ℕ :=
  s.sq.length + s.submitted.length + s.cq.length + s.task.reaped

/-- The invariant of the shutdown. -/
structure Shutdown (n : ℕ) (s : Logger) : Prop where
  /-- Only the first `n` threads use the logger. -/
  unused : ∀ t, n ≤ t → (s.threads t).pc = .idle
  destroying : ∀ t, (s.threads t).pc.Destroying → s.destroyer = some t
  /-- Once `~Logger` has started, no other thread uses the logger. -/
  alone : ∀ t t', s.destroyer = some t → t' ≠ t → (s.threads t').pc = .idle
  stopping : s.stop = true → ∃ t, (s.threads t).pc.Stopping
  final : s.pc.Final → s.stop = true
  drained : s.pc.Drained → s.queue.consumed = s.queue.taken.length
  inFlight : s.inFlight = s.unsettled
  finished : s.pc = .finished → s.task = .none ∧ s.inFlight = 0
  joined : ∀ t, (s.threads t).pc.Joined → s.pc = .finished

/-! ### Steps of the threads -/

/-- A thread that uses the logger when `~Logger` has started is the one that runs it. -/
theorem Shutdown.destroyer_eq (h : Shutdown n s) (hpc : (s.threads t).pc ≠ .idle) {d : ℕ}
    (hd : s.destroyer = some d) :
  d = t
  := by
  by_contra hne
  exact hpc (h.alone d t hd (Ne.symm hne))

/-- When the backend was requested to stop no thread is before the request. -/
theorem Shutdown.pc_stopping (h : Shutdown n s) (hstop : s.stop = true)
    (hpc : (s.threads t).pc ≠ .idle) :
  (s.threads t).pc.Stopping
  := by
  obtain ⟨d, hd⟩ := h.stopping hstop
  rw [← h.destroyer_eq hpc (h.destroying d hd.destroying)]
  exact hd

/-- A thread that uses the logger goes on. -/
theorem Shutdown.setThread (h : Shutdown n s) (hidle : (s.threads t).pc ≠ .idle)
    (hdestroying : th.pc.Destroying → (s.threads t).pc.Destroying)
    (hstopping : (s.threads t).pc.Stopping → th.pc.Stopping)
    (hjoined : th.pc.Joined → s.pc = .finished) :
  Shutdown n (s.setThread t th)
  := by
  have hthreads : ∀ t', t' ≠ t → (s.setThread t th).threads t' = s.threads t' :=
    fun t' hne => Function.update_of_ne hne ..
  have hself : (s.setThread t th).threads t = th := Function.update_self ..
  constructor
  case unused =>
    intro t' ht'
    rw [hthreads t']
    · apply h.unused t' ht'
    · rintro rfl
      exact hidle (h.unused t' ht')
  case destroying =>
    intro t' hpc
    rcases eq_or_ne t' t with rfl | hne
    · rw [hself] at hpc
      apply h.destroying t' (hdestroying hpc)
    · rw [hthreads t' hne] at hpc
      apply h.destroying t' hpc
  case alone =>
    intro d t' hd hne
    rw [hthreads t']
    · apply h.alone d t' hd hne
    · rintro rfl
      exact hne (h.destroyer_eq hidle hd).symm
  case stopping =>
    intro hstop
    use t
    rw [hself]
    apply hstopping (h.pc_stopping hstop hidle)
  case final => exact h.final
  case drained => exact h.drained
  case inFlight => exact h.inFlight
  case finished => exact h.finished
  case joined =>
    intro t' hpc
    rcases eq_or_ne t' t with rfl | hne
    · rw [hself] at hpc
      apply hjoined hpc
    · rw [hthreads t' hne] at hpc
      apply h.joined t' hpc

/-- Every step of a thread keeps the invariant. -/
theorem Shutdown.thread {effect : LogEffect} (h : Shutdown n s)
    (hstep : (s.threads t).Advances t s.queue (s.pc = .finished) th effect) :
  Shutdown n ((s.setThread t th).apply t effect)
  := by
  have hset : Shutdown n (s.setThread t th) := by
    apply h.setThread hstep.pc_ne_idle hstep.destroying hstep.stopping
    intro hpc
    rcases hstep.joined hpc with hfinished | hpc
    · exact of_decide_eq_true hfinished
    · apply h.joined t hpc
  cases hstep with
  | reserve hpc hroom =>
      refine { hset with drained := ?_ }
      -- The thread would be past its request to stop.
      intro hdrained
      have hdrained : s.pc.Drained := hdrained
      have hidle : (s.threads t).pc ≠ .idle := by simp [hpc]
      have hstopping := h.pc_stopping (h.final hdrained.final) hidle
      rw [hpc] at hstopping
      exact hstopping.elim
  | requestStop hpc =>
      refine { hset with stopping := ?_, final := ?_ }
      · intro _
        use t
        change (Function.update s.threads t _ t).pc.Stopping
        rw [Function.update_self]
        trivial
      · exact fun _ => rfl
  | publish hpc => exact { hset with }
  | release hpc => exact { hset with }
  | copy hpc => exact { hset with }
  | releaseStop hpc => exact { hset with }
  | close hpc => exact { hset with }
  | _ => exact hset

/-! ### Calls -/

/-- A thread calls the logger, while `~Logger` has not started or to start it. -/
theorem Shutdown.call {d : Option ℕ} (h : Shutdown n s) (ht : t < n) (hnone : s.destroyer = none)
    (hstopping : ¬ th.pc.Stopping)
    (hd : d = none ∧ ¬ th.pc.Destroying
      ∨ d = some t ∧ ∀ t', t' ≠ t → (s.threads t').pc = .idle) :
  Shutdown n { s.setThread t th with destroyer := d }
  := by
  have hthreads : ∀ t', t' ≠ t → (s.setThread t th).threads t' = s.threads t' :=
    fun t' hne => Function.update_of_ne hne ..
  have hself : (s.setThread t th).threads t = th := Function.update_self ..
  have hcalm : ∀ t', ¬ (s.threads t').pc.Destroying := by
    intro t' hpc
    have := h.destroying t' hpc
    rw [hnone] at this
    cases this
  constructor
  case unused =>
    intro t' ht'
    change ((s.setThread t th).threads t').pc = .idle
    rw [hthreads t' (by omega)]
    apply h.unused t' ht'
  case destroying =>
    intro t' hpc
    change ((s.setThread t th).threads t').pc.Destroying at hpc
    rcases eq_or_ne t' t with rfl | hne
    · rw [hself] at hpc
      rcases hd with ⟨-, hnot⟩ | ⟨hd, -⟩
      · exact absurd hpc hnot
      · exact hd
    · rw [hthreads t' hne] at hpc
      exact absurd hpc (hcalm t')
  case alone =>
    intro d' t' hd' hne
    change d = some d' at hd'
    change ((s.setThread t th).threads t').pc = .idle
    rcases hd with ⟨rfl, -⟩ | ⟨rfl, hidle⟩
    · cases hd'
    · cases hd'
      rw [hthreads t' hne]
      apply hidle t' hne
  case stopping =>
    intro hstop
    obtain ⟨t', hpc⟩ := h.stopping hstop
    exact absurd hpc.destroying (hcalm t')
  case final => exact h.final
  case drained => exact h.drained
  case inFlight => exact h.inFlight
  case finished => exact h.finished
  case joined =>
    intro t' hpc
    change ((s.setThread t th).threads t').pc.Joined at hpc
    rcases eq_or_ne t' t with rfl | hne
    · rw [hself] at hpc
      exact absurd hpc.stopping hstopping
    · rw [hthreads t' hne] at hpc
      exact absurd hpc.stopping.destroying (hcalm t')

/-! ### Steps of the backend -/

/-- The backend leaves the code of the threads where it is. -/
theorem Backs.pc_eq {date : ℕ} {opened : OpenResult} (h : Backs s date opened s') (t : ℕ) :
  (s'.threads t).pc = (s.threads t).pc
  := by
  cases h with
  | openFirst | openNext => cases opened <;> rfl
  | clear | unflag => exact pc_setBuf _ t
  | _ => rfl

/-- The backend comes to its end when it was requested to stop. -/
theorem final_of_backs {date : ℕ} {opened : OpenResult} (h : Backs s date opened s')
    (hfinal : s'.pc.Final) :
  s.pc.Final ∨ s.stop = true
  := by
  cases h with
  | top htask hpc =>
      exfalso
      revert hfinal
      cases s.stop <;> exact id
  | check htask hpc =>
      cases hstop : s.stop with
      | true => exact .inr rfl
      | false =>
          rw [hstop] at hfinal
          exact hfinal.elim
  | finalDrained htask hpc _ | finalSubmit htask hpc =>
      left
      rw [hpc]
      trivial
  | @settled final htask hpc _ =>
      left
      rw [hpc]
      cases final with
      | true => rfl
      | false => exact hfinal.elim
  | @settle final htask hpc _ | @waited final htask hpc | @reapedAll final htask hpc _ =>
      left
      rw [hpc]
      exact hfinal
  | dequeue | reap | prepare | drop | clear | unflag => exact .inl hfinal
  | newDate => exact nomatch hfinal
  | _ => exact hfinal.elim

/-- The backend has emptied the queue when it finds it empty after the request to stop. -/
theorem drained_of_backs {date : ℕ} {opened : OpenResult} (h : Backs s date opened s')
    (hdrained : s'.pc.Drained) :
  s'.queue = s.queue ∧ (s.pc.Drained ∨ s.pc = .finalDrain ∧ s.queue.front = none)
  := by
  cases h with
  | dequeue htask hpc _ =>
      have hdrained : s.pc.Drained := hdrained
      rcases hpc with hpc | hpc <;>
      · rw [hpc] at hdrained
        exact hdrained.elim
  | top htask hpc =>
      exfalso
      revert hdrained
      cases s.stop <;> exact id
  | check htask hpc =>
      exfalso
      revert hdrained
      cases s.stop <;> exact id
  | finalDrained htask hpc hfront => exact ⟨rfl, .inr ⟨hpc, hfront⟩⟩
  | finalSubmit htask hpc =>
      refine ⟨rfl, .inl ?_⟩
      rw [hpc]
      trivial
  | @settled final htask hpc _ =>
      refine ⟨rfl, .inl ?_⟩
      rw [hpc]
      cases final with
      | true => rfl
      | false => exact hdrained.elim
  | @settle final htask hpc _ | @waited final htask hpc | @reapedAll final htask hpc _ =>
      refine ⟨rfl, .inl ?_⟩
      rw [hpc]
      exact hdrained
  | reap | prepare | drop | clear | unflag => exact ⟨rfl, .inl hdrained⟩
  | newDate => exact nomatch hdrained
  | _ => exact hdrained.elim

/-- `in_flight_` counts the writes that are not settled. -/
theorem inFlight_of_backs {date : ℕ} {opened : OpenResult} (h : Backs s date opened s')
    (hcount : s.inFlight = s.unsettled) :
  s'.inFlight = s'.unsettled
  := by
  rw [unsettled] at hcount
  cases h with
  | openFirst | openNext => cases opened <;> exact hcount
  | dequeue htask _ _ =>
      rw [htask] at hcount
      exact hcount
  | submit | finalSubmit | settle =>
      simp only [unsettled, submitRing, List.length_append, List.length_nil]
      omega
  | reap htask _ hcq =>
      rw [htask, hcq, BackendTask.reaped, List.length_cons] at hcount
      simp only [unsettled, BackendTask.reaped, Bool.toNat_true]
      omega
  | prepare htask _ =>
      rw [htask, BackendTask.reaped] at hcount
      simp only [unsettled, BackendTask.reaped, List.length_append, List.length_singleton]
      omega
  | drop htask _ =>
      rw [htask] at hcount
      exact hcount
  | clear htask =>
      rw [htask] at hcount
      exact hcount
  | @unflag b reaped htask =>
      rw [htask] at hcount
      cases reaped with
      | false => exact hcount
      | true =>
          change s.inFlight = s.sq.length + s.submitted.length + s.cq.length + 1 at hcount
          change s.inFlight - 1 = s.sq.length + s.submitted.length + s.cq.length + 0
          omega
  | _ => exact hcount

/-- The backend finishes when no write is in flight. -/
theorem finished_of_backs {date : ℕ} {opened : OpenResult} (h : Backs s date opened s')
    (hne : s.pc ≠ .finished) (hpc' : s'.pc = .finished) :
  s'.task = .none ∧ s'.inFlight = 0
  := by
  cases h with
  | settled htask _ hinFlight => exact ⟨htask, hinFlight⟩
  | top | check =>
      revert hpc'
      cases s.stop <;> exact nofun
  | dequeue | reap | prepare | drop | clear | unflag => exact absurd hpc' hne
  | _ => cases hpc'

/-- The backend that has finished takes no step. -/
theorem not_backs_of_finished {date : ℕ} {opened : OpenResult} (hpc : s.pc = .finished)
    (htask : s.task = .none) :
  ¬ Backs s date opened s'
  := by
  intro h
  cases h <;> simp_all

/-- A queue that was found empty after the request to stop is empty. -/
theorem Shutdown.consumed_eq (h : Shutdown n s) (hown : Own s) (hstop : s.stop = true)
    (hfront : s.queue.front = none) :
  s.queue.consumed = s.queue.taken.length
  := by
  by_contra hne
  have hlt := Nat.lt_of_le_of_ne hown.tickets.consumed_le hne
  -- The oldest ticket left would be that of a thread that has not published it.
  have hnot := hown.tickets.not_mem_of_front_eq_none hfront
  obtain ⟨t, f, hpc⟩ := hown.unpublished _ hlt hnot
  have hidle : (s.threads t).pc ≠ .idle := by simp [hpc]
  have hstopping := h.pc_stopping hstop hidle
  rw [hpc] at hstopping
  exact hstopping

/-- Every step of the backend keeps the invariant. -/
theorem Shutdown.backs {date : ℕ} {opened : OpenResult} (h : Shutdown n s) (hown : Own s)
    (hstep : Backs s date opened s') :
  Shutdown n s'
  := by
  have hne : s.pc ≠ .finished := by
    intro hpc
    exact not_backs_of_finished hpc (h.finished hpc).1 hstep
  constructor
  case unused =>
    intro t ht
    rw [hstep.pc_eq]
    apply h.unused t ht
  case destroying =>
    intro t
    rw [hstep.pc_eq, hstep.untouched.destroyer]
    apply h.destroying t
  case alone =>
    intro t t'
    rw [hstep.pc_eq, hstep.untouched.destroyer]
    apply h.alone t t'
  case stopping =>
    rw [hstep.untouched.stop]
    intro hstop
    obtain ⟨t, ht⟩ := h.stopping hstop
    use t
    rw [hstep.pc_eq]
    apply ht
  case final =>
    intro hfinal
    rw [hstep.untouched.stop]
    rcases final_of_backs hstep hfinal with hfinal | hstop
    · apply h.final hfinal
    · apply hstop
  case drained =>
    intro hdrained
    obtain ⟨heq, hdrained | ⟨hpc, hfront⟩⟩ := drained_of_backs hstep hdrained
    · rw [heq]
      apply h.drained hdrained
    · rw [heq]
      apply h.consumed_eq hown (h.final _) hfront
      rw [hpc]
      trivial
  case inFlight => exact inFlight_of_backs hstep h.inFlight
  case finished => exact finished_of_backs hstep hne
  case joined =>
    intro t ht
    rw [hstep.pc_eq] at ht
    exact absurd (h.joined t ht) hne

/-! ### All steps -/

/-- Every step that is admitted keeps the invariant. -/
theorem Shutdown.step (h : Shutdown n s) (hown : Own s) (hadmits : Admits n s e)
    (hstep : Steps s e s') :
  Shutdown n s'
  := by
  cases hstep with
  | @append t r late hpc =>
      obtain ⟨ht, hnone⟩ := hadmits
      have hpc' : ¬ ((s.threads t).append r late).pc.Destroying := by
        rcases (s.threads t).append_cases r late with ⟨-, heq⟩ | ⟨isFull, -, heq⟩ <;>
        · rw [heq]
          exact id
      exact h.call ht hnone (mt LogPc.Stopping.destroying hpc') (.inl ⟨hnone, hpc'⟩)
  | @exit t hpc =>
      obtain ⟨ht, hnone⟩ := hadmits
      have hpc' : ¬ (s.threads t).exit.pc.Destroying := by
        rw [LogThread.exit]
        split
        · change ¬ (if _ then LogPc.wait false else LogPc.loadBack .exit).Destroying
          split <;> exact id
        · rw [hpc]
          exact id
      exact h.call ht hnone (mt LogPc.Stopping.destroying hpc') (.inl ⟨hnone, hpc'⟩)
  | @destroy t hpc =>
      obtain ⟨ht, hnone, hexited⟩ := hadmits
      apply h.call ht hnone
      · change ¬ (if _ then LogPc.loadBack .destroy else LogPc.requestStop).Stopping
        split <;> exact id
      · refine .inr ⟨rfl, ?_⟩
        intro t' hne
        rcases Nat.lt_or_ge t' n with hlt | hge
        · apply (hexited t' hlt hne).1
        · apply h.unused t' hge
  | thread hadvance => exact h.thread hadvance
  | backend hbacks => exact h.backs hown hbacks
  | @complete i w len hw =>
      refine { h with inFlight := ?_ }
      have hlt := (List.getElem?_eq_some_iff.mp hw).1
      have hcount := h.inFlight
      simp only [unsettled, List.length_eraseIdx_of_lt hlt, List.length_append,
        List.length_singleton] at hcount ⊢
      omega

theorem shutdown_start (n : ℕ) (files : ℕ → ℕ) :
  Shutdown n (start files)
  := by
  constructor
  case unused => exact fun _ _ => rfl
  case destroying => exact fun _ => False.elim
  case alone => exact nofun
  case stopping => exact nofun
  case final => exact False.elim
  case drained => exact False.elim
  case inFlight => rfl
  case finished => exact nofun
  case joined => exact fun _ => False.elim

/-- The states of a logger with `n` threads and log files of the given sizes. -/
def Reachable (n : ℕ) (files : ℕ → ℕ) (s : Logger) : Prop :=
  Reaches step (Admits n) (start files) s

theorem Reachable.inv {files : ℕ → ℕ} (h : Reachable n files s) :
  Own s ∧ Shutdown n s
  := by
  apply h.invariant (I := fun s => Own s ∧ Shutdown n s)
  · exact ⟨own_start files, shutdown_start n files⟩
  · rintro s s' e ⟨hown, hshutdown⟩ hadmits hstep
    have hsteps := step_cases hstep
    exact ⟨hown.step hsteps, hshutdown.step hown hadmits hsteps⟩

/-- When the backend has finished, no buffer is held. -/
theorem Shutdown.held_eq_nil (h : Shutdown n s) (hown : Own s) (hpc : s.pc = .finished) :
  s.held = []
  := by
  obtain ⟨htask, hinFlight⟩ := h.finished hpc
  have hcount := h.inFlight
  rw [hinFlight, unsettled] at hcount
  have hdrained : s.pc.Drained := by
    rw [hpc]
    trivial
  have hwaiting := (TicketQueue.waiting_eq_nil_iff hown.tickets).mpr (h.drained hdrained)
  have hsq : s.sq = [] := List.eq_nil_of_length_eq_zero (by omega)
  have hsubmitted : s.submitted = [] := List.eq_nil_of_length_eq_zero (by omega)
  have hcq : s.cq = [] := List.eq_nil_of_length_eq_zero (by omega)
  rw [held, queued, writing, hwaiting, htask, hsq, hsubmitted, hcq]
  rfl

/-- In every run: a thread about to copy a record has a current buffer that is neither queued
nor being written, with room for every record that fits into a buffer at all; no buffer is
queued twice, or queued and being written; the other buffer of a thread is in flight or empty;
no thread has both its buffers queued or being written; and a `ThreadState` about to be deleted
has none of them queued or being written. -/
theorem buffers_owned {files : ℕ → ℕ} (hreach : Reachable n files s) :
  (∀ t r, (s.threads t).pc = .copy r → (t, (s.threads t).writeIdx) ∉ s.queued ++ s.writing
      ∧ (r.length ≤ LoggerBuffer.bufferSize →
        (s.threads t).front.size + r.length ≤ LoggerBuffer.bufferSize))
    ∧ (s.queued ++ s.writing).Nodup
    ∧ (∀ t, (s.threads t).back.inFlight = true ∨ (s.threads t).back.isEmpty)
    ∧ (∀ t, ¬ ((t, false) ∈ s.queued ++ s.writing ∧ (t, true) ∈ s.queued ++ s.writing))
    ∧ (∀ t, (s.threads t).pc = .delete ∨ (s.threads t).pc = .deleteMain →
        ∀ i, (t, i) ∉ s.queued ++ s.writing)
  := by
  obtain ⟨hown, hshutdown⟩ := hreach.inv
  have hfree : ∀ t i, ((s.threads t).bufs i).inFlight = false → (t, i) ∉ s.held := by
    intro t i hflag hmem
    rw [hown.flagged_thread t hmem] at hflag
    cases hflag
  refine ⟨?_, hown.nodup, ?_, ?_, ?_⟩
  · intro t r hpc
    have hok := (hown.threads t).pc
    rw [hpc] at hok
    exact ⟨hfree t _ hok.1, hok.2⟩
  · intro t
    cases hflag : (s.threads t).back.inFlight with
    | true => exact .inl rfl
    | false =>
        right
        rw [LoggerBuffer.isEmpty, LogThread.size_of_records_nil ((hown.threads t).back hflag)]
        rfl
  · rintro t ⟨hfalse, htrue⟩
    have hone := (hown.threads t).one
    rw [LogThread.front, LogThread.back] at hone
    cases hidx : (s.threads t).writeIdx with
    | false =>
        rw [hidx] at hone
        exact hfree t true (hone (hown.flagged_thread t hfalse)) htrue
    | true =>
        rw [hidx] at hone
        exact hfree t false (hone (hown.flagged_thread t htrue)) hfalse
  · rintro t (hpc | hpc) i
    · have hok := (hown.threads t).pc
      rw [hpc] at hok
      apply hfree t i (hok i)
    · have hjoined : (s.threads t).pc.Joined := by
        rw [hpc]
        trivial
      change (t, i) ∉ s.held
      rw [hshutdown.held_eq_nil hown (hshutdown.joined t hjoined)]
      exact List.not_mem_nil

/-- A thread that has handed its first buffer over copies the next record into the other. -/
theorem buffers_owned_after_flush :
  ∃ s, Reachable 2 (fun _ => 0) s ∧ s.queued = [(1, false)] ∧ (s.threads 1).pc = .copy [66]
    ∧ (1, (s.threads 1).writeIdx) ∉ s.queued ++ s.writing
  := by
  obtain ⟨s, hreach, hqueued, hpc⟩ : ∃ s, Reachable 2 (fun _ => 0) s ∧ s.queued = [(1, false)]
      ∧ (s.threads 1).pc = .copy [66] := by
    apply Reaches.exists_of_follow [.append 1 [65] false, .thread 1, .append 1 [66] true,
      .thread 1, .thread 1, .thread 1, .thread 1, .thread 1, .thread 1]
    decide +kernel
  use s, hreach, hqueued, hpc
  exact ((buffers_owned hreach).1 1 [66] hpc).1

end Logger

end Proactor
