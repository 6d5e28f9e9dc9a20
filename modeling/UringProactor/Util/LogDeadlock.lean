import UringProactor.Util.LogShutdown

/-!
# Threads that wait for the backend

`~ThreadFlushGuard` and `~Logger` spin until the backend has given a buffer back.  The backend
sees a completion only when it is between `submit` and `semaphore_.acquire()`, and it peeks
without waiting.  A write that completes after the peek is seen at the next release of the
semaphore, which the spinning thread does not come to.  When every write completes before the
peek, the backend never blocks with a completion left.
-/

namespace Proactor

/-- The thread spins on the flag of its buffer `i`, in `~ThreadFlushGuard` or in `~Logger`. -/
def LogThread.Spins (th : LogThread) (i : Bool) : Prop :=
  (th.bufs i).inFlight = true ∧ (th.pc = .wait i ∨ th.pc = .loadBack .destroy ∧ i = !th.writeIdx)

/-- The next step of the thread releases the semaphore. -/
def LogPc.Releases : LogPc → Prop
  | .release _ | .releaseStop => True
  | _ => False

/-- The backend has settled all writes when it comes here. -/
def BackendPc.Quiet : BackendPc → Prop
  | .start | .openFirst | .top | .date | .openNext | .acquire | .check => True
  | .settle final | .wait final | .reapAll final => final = false
  | _ => False

namespace Logger

variable {s s' : Logger} {n t : ℕ} {e : LogEvent} {files : ℕ → ℕ}

/-- A thread spins on the flag of a buffer whose write has completed, the backend is blocked in
`semaphore_.acquire()`, and no other thread is about to release the semaphore. -/
def Deadlocked (s : Logger) : Prop :=
  (s.pc = .acquire ∧ s.task = .none ∧ s.semaphore = 0)
    ∧ ∃ t i, (s.threads t).Spins i ∧ (t, i) ∈ s.cq.map LogWrite.buf
      ∧ ∀ t', t' ≠ t → ¬ (s.threads t').pc.Releases

/-- When the backend finds no completion, no submitted write is left. -/
def Prompt (s : Logger) : LogEvent → Prop
  | .backend _ _ => s.pc = .reap → s.cq = [] → s.submitted = []
  | _ => True

instance (s : Logger) : ∀ e, Decidable (Prompt s e)
  | .backend _ _ => inferInstanceAs (Decidable (_ → _ → _))
  | .append _ _ _ | .exit _ | .destroy _ | .thread _ | .complete _ _ =>
      inferInstanceAs (Decidable True)

/-- The invariant of the runs in which every write completes before the backend looks. -/
structure Prompted (s : Logger) : Prop where
  submitting : ∀ f, s.task = .submitBuf f → s.pc = .drain ∨ s.pc = .finalDrain
  prepared : s.pc = .reap → s.sq = []
  quiet : s.pc.Quiet → s.task = .none ∧ s.sq = [] ∧ s.submitted = [] ∧ s.cq = []

/-- The steps of the threads leave the ring and the backend alone. -/
theorem Prompted.frame (h : Prompted s) (hpc : s'.pc = s.pc) (htask : s'.task = s.task)
    (hsq : s'.sq = s.sq) (hsubmitted : s'.submitted = s.submitted) (hcq : s'.cq = s.cq) :
  Prompted s'
  := by
  obtain ⟨hsubmitting, hprepared, hquiet⟩ := h
  constructor
  · rw [hpc, htask]
    apply hsubmitting
  · rw [hpc, hsq]
    apply hprepared
  · rw [hpc, htask, hsq, hsubmitted, hcq]
    apply hquiet

/-- The backend goes on from a place where all writes are settled. -/
theorem Prompted.of_quiet (h : Prompted s) (hquiet : s.pc.Quiet) (htask : s'.task = s.task)
    (hsq : s'.sq = s.sq) (hsubmitted : s'.submitted = s.submitted) (hcq : s'.cq = s.cq) :
  Prompted s'
  := by
  obtain ⟨hnone, hnil⟩ := h.quiet hquiet
  constructor
  · intro f hf
    rw [htask, hnone] at hf
    cases hf
  · intro _
    rw [hsq, hnil.1]
  · intro _
    rw [htask, hsq, hsubmitted, hcq]
    exact ⟨hnone, hnil⟩

/-- Away from these places there is nothing to keep but where `submit_buf` runs. -/
theorem Prompted.of_busy
    (hsubmitting : ∀ f, s'.task = .submitBuf f → s'.pc = .drain ∨ s'.pc = .finalDrain)
    (hreap : s'.pc ≠ .reap) (hquiet : ¬ s'.pc.Quiet) :
  Prompted s'
  := ⟨hsubmitting, fun hpc => absurd hpc hreap, fun hpc => absurd hpc hquiet⟩

/-- A task of the backend other than `submit_buf` runs away from the places where all writes
are settled. -/
theorem Prompted.of_task (h : Prompted s) (htask : s.task ≠ .none) (hpc : s'.pc = s.pc)
    (htask' : ∀ f, s'.task ≠ .submitBuf f) (hsq : s'.sq = s.sq) :
  Prompted s'
  := by
  constructor
  · intro f hf
    exact absurd hf (htask' f)
  · rw [hpc, hsq]
    apply h.prepared
  · rw [hpc]
    intro hquiet
    exact absurd (h.quiet hquiet).1 htask

/-- Every prompt step of the backend keeps the invariant. -/
theorem Prompted.backs {date : ℕ} {opened : OpenResult} (h : Prompted s)
    (hprompt : s.pc = .reap → s.cq = [] → s.submitted = []) (hstep : Backs s date opened s') :
  Prompted s'
  := by
  have hnone : s.task = .none → ∀ f, s.task ≠ .submitBuf f := by
    intro htask f
    simp [htask]
  cases hstep with
  | openFirst htask hpc | openNext htask hpc =>
      have hquiet : s.pc.Quiet := by
        rw [hpc]
        trivial
      cases opened <;> exact h.of_quiet hquiet rfl rfl rfl rfl
  | start htask hpc | top htask hpc | sameDate htask hpc | newDate htask hpc _
  | acquire htask hpc _ | check htask hpc =>
      have hquiet : s.pc.Quiet := by
        rw [hpc]
        trivial
      exact h.of_quiet hquiet rfl rfl rfl rfl
  | dequeue htask hpc hfront =>
      apply Prompted.of_busy
      · intro _ _
        exact hpc
      · rcases hpc with hpc | hpc <;> simp [hpc]
      · rcases hpc with hpc | hpc <;> simp [hpc, BackendPc.Quiet]
  | drained htask hpc hfront | finalDrained htask hpc hfront =>
      exact .of_busy (fun f hf => absurd hf (hnone htask f)) (by simp) id
  | submit htask hpc =>
      exact ⟨fun f hf => absurd hf (hnone htask f), fun _ => rfl, fun hquiet => hquiet.elim⟩
  | finalSubmit htask hpc =>
      exact .of_busy (fun f hf => absurd hf (hnone htask f)) (by simp) (by simp [BackendPc.Quiet])
  | reap htask hpc hcq =>
      refine ⟨by simp, h.prepared, ?_⟩
      intro hquiet
      rw [(h.quiet hquiet).2.2.2] at hcq
      cases hcq
  | reaped htask hpc hcq =>
      refine ⟨fun f hf => absurd hf (hnone htask f), by simp, ?_⟩
      intro _
      exact ⟨htask, h.prepared hpc, hprompt hpc hcq, hcq⟩
  | @settled final htask hpc _ | @settle final htask hpc _ | @waited final htask hpc
  | @reapedAll final htask hpc _ =>
      cases final with
      | true =>
          refine .of_busy (fun f hf => absurd hf (hnone htask f)) ?_ ?_ <;> simp [BackendPc.Quiet]
      | false =>
          have hquiet : s.pc.Quiet := by
            rw [hpc]
            rfl
          obtain ⟨-, hsq, hsubmitted, -⟩ := h.quiet hquiet
          refine h.of_quiet hquiet ?_ ?_ ?_ ?_ <;> simp [submitRing, hsq, hsubmitted]
  | @prepare f file htask hfd =>
      apply Prompted.of_busy
      · intro f hf
        cases hf
      · rcases h.submitting f htask with hpc | hpc <;> simp [hpc]
      · rcases h.submitting f htask with hpc | hpc <;> simp [hpc, BackendPc.Quiet]
  | drop htask _ | clear htask | unflag htask =>
      exact h.of_task (by simp [htask]) rfl (by simp) rfl

/-- In every run in which the backend, whenever it finds no completion, has no submitted write
left: no thread spins on the flag of a buffer whose write has completed while the backend is
blocked and no other thread is about to wake it. -/
theorem not_deadlocked (hreach : Reaches step Prompt (start files) s) :
  ¬ Deadlocked s
  := by
  have hinv : Prompted s := by
    apply hreach.invariant (I := Prompted)
    · exact ⟨nofun, fun _ => rfl, fun _ => ⟨rfl, rfl, rfl, rfl⟩⟩
    · intro s s' e h hprompt hstep
      cases step_cases hstep with
      | append | exit | destroy => exact h.frame rfl rfl rfl rfl rfl
      | @thread t th effect hadvance => cases effect <;> exact h.frame rfl rfl rfl rfl rfl
      | backend hbacks => exact h.backs hprompt hbacks
      | complete len hw =>
          refine ⟨h.submitting, h.prepared, ?_⟩
          intro hquiet
          rw [(h.quiet hquiet).2.2.1] at hw
          cases hw
  rintro ⟨⟨hpc, -⟩, t, i, -, hmem, -⟩
  have hquiet : s.pc.Quiet := by
    rw [hpc]
    trivial
  rw [(hinv.quiet hquiet).2.2.2] at hmem
  cases hmem

/-- A thread logs two records a second apart, which hands the first over, and exits when the
write of the first has completed and was seen. -/
theorem not_deadlocked_in_time :
  ∃ s, Reaches step Prompt (start fun _ => 0) s ∧ (s.threads 0).pc = .delete ∧ ¬ Deadlocked s
  := by
  obtain ⟨s, hreach, hpc⟩ : ∃ s, Reaches step Prompt (start fun _ => 0) s
      ∧ (s.threads 0).pc = .delete := by
    apply Reaches.exists_of_follow [.append 0 [65] false, .thread 0, .append 0 [66] true,
      .thread 0, .thread 0, .thread 0, .thread 0, .thread 0, .thread 0, .thread 0,
      .backend 1 .ok, .backend 1 .ok, .backend 1 .ok, .backend 1 .ok, .backend 1 .ok,
      .backend 1 .ok, .backend 1 .ok, .backend 1 .ok, .backend 1 .ok, .complete 0 1,
      .backend 1 .ok, .backend 1 .ok, .backend 1 .ok, .backend 1 .ok, .exit 0, .thread 0,
      .thread 0, .thread 0, .thread 0, .thread 0, .thread 0, .backend 1 .ok, .backend 1 .ok,
      .backend 1 .ok, .backend 1 .ok, .backend 1 .ok, .backend 1 .ok, .backend 1 .ok,
      .backend 1 .ok, .complete 0 1, .backend 1 .ok, .backend 1 .ok, .backend 1 .ok, .thread 0]
    decide +kernel
  use s, hreach, hpc
  exact not_deadlocked hreach

/-- A thread logs two records a second apart, which hands the first over, and exits while its
write is in flight.  The write completes after the backend has looked for completions, and the
thread spins for ever. -/
theorem exit_deadlocks :
  ∃ s, Reachable 1 (fun _ => 0) s ∧ Deadlocked s ∧ (s.threads 0).pc = .wait false
  := by
  obtain ⟨s, hreach, hbackend, hpc, hflag, hmem⟩ : ∃ s, Reachable 1 (fun _ => 0) s
      ∧ (s.pc = .acquire ∧ s.task.bufs = [] ∧ s.semaphore = 0)
      ∧ (s.threads 0).pc = .wait false ∧ ((s.threads 0).bufs false).inFlight = true
      ∧ (0, false) ∈ s.cq.map LogWrite.buf := by
    apply Reaches.exists_of_follow [.append 0 [65] false, .thread 0, .append 0 [66] true,
      .thread 0, .thread 0, .thread 0, .thread 0, .thread 0, .thread 0, .thread 0,
      .backend 1 .ok, .backend 1 .ok, .backend 1 .ok, .backend 1 .ok, .backend 1 .ok,
      .backend 1 .ok, .backend 1 .ok, .backend 1 .ok, .backend 1 .ok, .backend 1 .ok,
      .backend 1 .ok, .backend 1 .ok, .backend 1 .ok, .complete 0 1, .exit 0, .thread 0]
    decide +kernel
  refine ⟨s, hreach, ⟨⟨hbackend.1, ?_, hbackend.2.2⟩, 0, false, ⟨hflag, .inl hpc⟩, hmem, ?_⟩, hpc⟩
  · cases htask : s.task with
    | none => rfl
    | _ => simp [htask, BackendTask.bufs] at hbackend
  · intro t' hne
    rw [hreach.inv.2.unused t' (Nat.pos_of_ne_zero hne)]
    exact id

end Logger

end Proactor
