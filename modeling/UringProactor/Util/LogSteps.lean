import UringProactor.Util.Log

/-!
# What a step of the logger does

`LogThread.Advances` lists the steps of a thread, `Logger.Backs` those of the backend.
Everything about the steps of a logger is derived from these lists.
-/

namespace Proactor

namespace LogThread

variable {t : ℕ} {queue : TicketQueue Flush} {finished : Bool} {th th' : LogThread}
  {effect : LogEffect}

/-- The steps of a thread, with what they do to what the threads share. -/
inductive Advances (t : ℕ) (queue : TicketQueue Flush) (finished : Bool) (th : LogThread) :
    LogThread → LogEffect → Prop where
  | busy {f : FlushFor} (hpc : th.pc = .loadBack f) (hback : th.back.inFlight = true) :
      Advances t queue finished th { th with pc := f.whenBusy } .none
  | ready {f : FlushFor} (hpc : th.pc = .loadBack f) (hback : th.back.inFlight = false) :
      Advances t queue finished th { th with pc := .setFlag f } .none
  | setFlag {f : FlushFor} (hpc : th.pc = .setFlag f) :
      Advances t queue finished th
        { th.setFront { th.front with inFlight := true } with pc := .enqueue f } .none
  | full {f : FlushFor} (hpc : th.pc = .enqueue f) (hfull : queue.Full flushQueueCapacity) :
      Advances t queue finished th { th with pc := f.whenFull } .none
  | reserve {f : FlushFor} (hpc : th.pc = .enqueue f)
      (hroom : ¬ queue.Full flushQueueCapacity) :
      Advances t queue finished th { th with pc := .publish f queue.taken.length }
        (.reserve ⟨(t, th.writeIdx), th.front.records⟩)
  | publish {f : FlushFor} {ticket : ℕ} (hpc : th.pc = .publish f ticket) :
      Advances t queue finished th { th with pc := .release f } (.publish ticket)
  | release {f : FlushFor} (hpc : th.pc = .release f) :
      Advances t queue finished th { th with pc := f.whenQueued } .release
  | clearFlag {f : FlushFor} (hpc : th.pc = .clearFlag f) :
      Advances t queue finished th
        { th.setFront { th.front with inFlight := false } with pc := f.whenRefused } .none
  | switch {r : Record} (hpc : th.pc = .switch r) :
      Advances t queue finished th { th with writeIdx := !th.writeIdx, pc := .copy r } .none
  | copy {r : Record} (hpc : th.pc = .copy r) :
      Advances t queue finished th { th.setFront (th.front.append r) with pc := .idle }
        (.copied r)
  | spin {i : Bool} (hpc : th.pc = .wait i) (hflag : (th.bufs i).inFlight = true) :
      Advances t queue finished th th .none
  | waited {i : Bool} (hpc : th.pc = .wait i) (hflag : (th.bufs i).inFlight = false) :
      Advances t queue finished th { th with pc := if i then .delete else .wait true } .none
  | delete (hpc : th.pc = .delete) :
      Advances t queue finished th { th with allocated := false, pc := .idle } .none
  | requestStop (hpc : th.pc = .requestStop) :
      Advances t queue finished th { th with pc := .releaseStop } .requestStop
  | releaseStop (hpc : th.pc = .releaseStop) :
      Advances t queue finished th { th with pc := .join } .release
  | join (hpc : th.pc = .join) (hfinished : finished = true) :
      Advances t queue finished th { th with pc := .deleteMain } .none
  | deleteMain (hpc : th.pc = .deleteMain) :
      Advances t queue finished th { th with allocated := false, pc := .close } .none
  | close (hpc : th.pc = .close) :
      Advances t queue finished th { th with pc := .destroyed } .closeFd

/-- Every step of a thread is in the list. -/
theorem advance_cases (h : th.advance t queue finished = some (th', effect)) :
  Advances t queue finished th th' effect
  := by
  rw [advance] at h
  split at h
  case h_1 => cases h
  case h_2 f hpc =>
    cases h
    cases hback : th.back.inFlight with
    | true => exact .busy hpc hback
    | false => exact .ready hpc hback
  case h_3 f hpc =>
    cases h
    exact .setFlag hpc
  case h_4 f hpc =>
    split at h
    case isTrue hfull =>
      cases h
      exact .full hpc hfull
    case isFalse hroom =>
      cases h
      exact .reserve hpc hroom
  case h_5 f ticket hpc =>
    cases h
    exact .publish hpc
  case h_6 f hpc =>
    cases h
    exact .release hpc
  case h_7 f hpc =>
    cases h
    exact .clearFlag hpc
  case h_8 r hpc =>
    cases h
    exact .switch hpc
  case h_9 r hpc =>
    cases h
    exact .copy hpc
  case h_10 i hpc =>
    split at h
    case isTrue hflag =>
      cases h
      exact .spin hpc hflag
    case isFalse hflag =>
      cases h
      exact .waited hpc (Bool.eq_false_iff.mpr hflag)
  case h_11 hpc =>
    cases h
    exact .delete hpc
  case h_12 hpc =>
    cases h
    exact .requestStop hpc
  case h_13 hpc =>
    cases h
    exact .releaseStop hpc
  case h_14 hpc =>
    split at h
    case isTrue hfinished =>
      cases h
      exact .join hpc hfinished
    case isFalse => cases h
  case h_15 hpc =>
    cases h
    exact .deleteMain hpc
  case h_16 hpc =>
    cases h
    exact .close hpc
  case h_17 => cases h

/-- A call of `append` goes on to copy its record when that fits, or to hand the current
buffer over. -/
theorem append_cases (th : LogThread) (r : Record) (late : Bool) :
  (th.withState.front.size + r.length ≤ LoggerBuffer.bufferSize
      ∧ th.append r late = { th.withState with pc := .copy r })
    ∨ ∃ isFull : Bool, (isFull = false →
        th.withState.front.size + r.length ≤ LoggerBuffer.bufferSize)
      ∧ th.append r late = { th.withState with pc := .loadBack (.append r isFull) }
  := by
  rw [append]
  generalize th.withState = th₀
  by_cases hfull : LoggerBuffer.bufferSize < th₀.front.size + r.length
  · right
    use true
    simp [hfull]
  · have hfits := Nat.le_of_not_lt hfull
    by_cases hlate : th₀.front.isEmpty = false ∧ late = true
    · right
      use false
      simp [hfull, hlate, hfits]
    · left
      use hfits
      cases hempty : th₀.front.isEmpty <;> cases late <;> simp_all

end LogThread

namespace Logger

variable {s s' : Logger} {date : ℕ} {opened : OpenResult}

theorem threads_apply (t : ℕ) (effect : LogEffect) :
  (s.apply t effect).threads = s.threads
  := by
  cases effect <;> rfl

/-- What holds of the new state of a thread and of all other threads holds of every thread. -/
theorem of_setThread {P : LogThread → Prop} {t u : ℕ} {th : LogThread} (hself : u = t → P th)
    (hother : u ≠ t → P (s.threads u)) :
  P ((s.setThread t th).threads u)
  := by
  change P (Function.update s.threads t th u)
  rcases eq_or_ne u t with rfl | hne
  · rw [Function.update_self]
    apply hself rfl
  · rw [Function.update_of_ne hne]
    apply hother hne

/-- The steps of the backend. -/
inductive Backs (s : Logger) (date : ℕ) (opened : OpenResult) : Logger → Prop where
  | start (htask : s.task = .none) (hpc : s.pc = .start) :
      Backs s date opened { s with today := date, pc := .openFirst }
  | openFirst (htask : s.task = .none) (hpc : s.pc = .openFirst) :
      Backs s date opened { s.switchLogFileDate opened with pc := .top }
  | top (htask : s.task = .none) (hpc : s.pc = .top) :
      Backs s date opened { s with pc := if s.stop then .drain else .date }
  | sameDate (htask : s.task = .none) (hpc : s.pc = .date) :
      Backs s date opened { s with pc := .acquire }
  | newDate (htask : s.task = .none) (hpc : s.pc = .date) (hdate : date ≠ s.today) :
      Backs s date opened { s with today := date, pc := .settle false }
  | openNext (htask : s.task = .none) (hpc : s.pc = .openNext) :
      Backs s date opened { s.switchLogFileDate opened with pc := .acquire }
  | acquire (htask : s.task = .none) (hpc : s.pc = .acquire) (hpermit : 0 < s.semaphore) :
      Backs s date opened { s with semaphore := s.semaphore - 1, pc := .drain }
  | dequeue {f : Flush} (htask : s.task = .none) (hpc : s.pc = .drain ∨ s.pc = .finalDrain)
      (hfront : s.queue.front = some f) :
      Backs s date opened { s with queue := s.queue.consume, task := .submitBuf f }
  | drained (htask : s.task = .none) (hpc : s.pc = .drain) (hfront : s.queue.front = none) :
      Backs s date opened { s with pc := .submit }
  | submit (htask : s.task = .none) (hpc : s.pc = .submit) :
      Backs s date opened { s.submitRing with pc := .reap }
  | reap {w : LogWrite} {cq : List LogWrite} (htask : s.task = .none)
      (hpc : s.pc = .reap ∨ ∃ final, s.pc = .reapAll final) (hcq : s.cq = w :: cq) :
      Backs s date opened { s with cq := cq, task := .clear w.buf true }
  | reaped (htask : s.task = .none) (hpc : s.pc = .reap) (hcq : s.cq = []) :
      Backs s date opened { s with pc := .check }
  | check (htask : s.task = .none) (hpc : s.pc = .check) :
      Backs s date opened { s with pc := if s.stop then .finalDrain else .top }
  | finalDrained (htask : s.task = .none) (hpc : s.pc = .finalDrain)
      (hfront : s.queue.front = none) :
      Backs s date opened { s with pc := .finalSubmit }
  | finalSubmit (htask : s.task = .none) (hpc : s.pc = .finalSubmit) :
      Backs s date opened { s.submitRing with pc := .settle true }
  | settled {final : Bool} (htask : s.task = .none) (hpc : s.pc = .settle final)
      (hinFlight : s.inFlight = 0) :
      Backs s date opened { s with pc := if final then .finished else .openNext }
  | settle {final : Bool} (htask : s.task = .none) (hpc : s.pc = .settle final)
      (hinFlight : s.inFlight ≠ 0) :
      Backs s date opened { s.submitRing with pc := .wait final }
  | waited {final : Bool} (htask : s.task = .none) (hpc : s.pc = .wait final) :
      Backs s date opened { s with pc := .reapAll final }
  | reapedAll {final : Bool} (htask : s.task = .none) (hpc : s.pc = .reapAll final)
      (hinFlight : s.inFlight = 0) :
      Backs s date opened { s with pc := .settle final }
  | prepare {f : Flush} {file : ℕ} (htask : s.task = .submitBuf f) (hfd : s.fd = some file) :
      Backs s date opened { s with
        task := .none
        sq := s.sq ++ [⟨f.buf, file, s.offset, (s.buf f.buf).records⟩]
        offset := s.offset + (s.buf f.buf).size
        inFlight := s.inFlight + 1
        writes := s.writes ++ [⟨f.buf, file, s.offset, (s.buf f.buf).records⟩] }
  | drop {f : Flush} (htask : s.task = .submitBuf f) (hfd : s.fd = none) :
      Backs s date opened { s with task := .clear f.buf false }
  | clear {b : BufId} {reaped : Bool} (htask : s.task = .clear b reaped) :
      Backs s date opened { s.setBuf b (s.buf b).clear with task := .unflag b reaped }
  | unflag {b : BufId} {reaped : Bool} (htask : s.task = .unflag b reaped) :
      Backs s date opened { s.setBuf b { s.buf b with inFlight := false } with
        task := .none
        inFlight := if reaped then s.inFlight - 1 else s.inFlight }

/-- What the backend never touches: what was handed over and logged, what the kernel has
written, and how far the logger is destroyed. -/
structure Backs.Untouched (s s' : Logger) : Prop where
  taken : s'.queue.taken = s.queue.taken
  logged : s'.logged = s.logged
  written : s'.written = s.written
  destroyer : s'.destroyer = s.destroyer
  stop : s'.stop = s.stop

theorem Backs.untouched (h : Backs s date opened s') :
  Backs.Untouched s s'
  := by
  cases h with
  | openFirst | openNext => cases opened <;> constructor <;> rfl
  | _ => constructor <;> rfl

/-- Every step of the backend between its tasks is in the list. -/
theorem loopStep_cases (htask : s.task = .none) (h : s.loopStep date opened = some s') :
  Backs s date opened s'
  := by
  rw [loopStep] at h
  split at h
  case h_1 hpc =>
    cases h
    exact .start htask hpc
  case h_2 hpc =>
    cases h
    exact .openFirst htask hpc
  case h_3 hpc =>
    cases h
    exact .top htask hpc
  case h_4 hpc =>
    split at h
    case isTrue =>
      cases h
      exact .sameDate htask hpc
    case isFalse hdate =>
      cases h
      exact .newDate htask hpc hdate
  case h_5 hpc =>
    cases h
    exact .openNext htask hpc
  case h_6 hpc =>
    split at h
    case isTrue hpermit =>
      cases h
      exact .acquire htask hpc hpermit
    case isFalse => cases h
  case h_7 hpc =>
    split at h
    case h_1 f hfront =>
      cases h
      exact .dequeue htask (.inl hpc) hfront
    case h_2 hfront =>
      cases h
      exact .drained htask hpc hfront
  case h_8 hpc =>
    cases h
    exact .submit htask hpc
  case h_9 hpc =>
    split at h
    case h_1 w cq hcq =>
      cases h
      exact .reap htask (.inl hpc) hcq
    case h_2 hcq =>
      cases h
      exact .reaped htask hpc hcq
  case h_10 hpc =>
    cases h
    exact .check htask hpc
  case h_11 hpc =>
    split at h
    case h_1 f hfront =>
      cases h
      exact .dequeue htask (.inr hpc) hfront
    case h_2 hfront =>
      cases h
      exact .finalDrained htask hpc hfront
  case h_12 hpc =>
    cases h
    exact .finalSubmit htask hpc
  case h_13 final hpc =>
    split at h
    case isTrue hinFlight =>
      cases h
      exact .settled htask hpc hinFlight
    case isFalse hinFlight =>
      cases h
      exact .settle htask hpc hinFlight
  case h_14 final hpc =>
    split at h
    case isTrue =>
      cases h
      exact .waited htask hpc
    case isFalse => cases h
  case h_15 final hpc =>
    split at h
    case isTrue hinFlight =>
      cases h
      exact .reapedAll htask hpc hinFlight
    case isFalse =>
      split at h
      case h_1 w cq hcq =>
        cases h
        exact .reap htask (.inr ⟨final, hpc⟩) hcq
      case h_2 => cases h
  case h_16 => cases h

/-- Every step of the backend in a task is in the list. -/
theorem taskStep_cases (h : s.taskStep = some s') :
  Backs s date opened s'
  := by
  rw [taskStep] at h
  split at h
  case h_1 => cases h
  case h_2 f htask =>
    rw [submitBuf] at h
    split at h
    case h_1 hfd =>
      cases h
      exact .drop htask hfd
    case h_2 file hfd =>
      split at h
      case isTrue =>
        cases h
        exact .prepare htask hfd
      case isFalse => cases h
  case h_3 b reaped htask =>
    cases h
    exact .clear htask
  case h_4 b reaped htask =>
    cases h
    exact .unflag htask

/-- The steps of a logger. -/
inductive Steps (s : Logger) : LogEvent → Logger → Prop where
  | append {t : ℕ} (r : Record) (late : Bool) (hpc : (s.threads t).pc = .idle) :
      Steps s (.append t r late) (s.setThread t ((s.threads t).append r late))
  | exit {t : ℕ} (hpc : (s.threads t).pc = .idle) :
      Steps s (.exit t) (s.setThread t (s.threads t).exit)
  | destroy {t : ℕ} (hpc : (s.threads t).pc = .idle) :
      Steps s (.destroy t) { s.setThread t (s.threads t).destroy with destroyer := some t }
  | thread {t : ℕ} {th : LogThread} {effect : LogEffect}
      (h : (s.threads t).Advances t s.queue (s.pc = .finished) th effect) :
      Steps s (.thread t) ((s.setThread t th).apply t effect)
  | backend {date : ℕ} {opened : OpenResult} {s' : Logger} (h : Backs s date opened s') :
      Steps s (.backend date opened) s'
  | complete {i : ℕ} {w : LogWrite} (len : ℕ) (hw : s.submitted[i]? = some w) :
      Steps s (.complete i len) { s with
        submitted := s.submitted.eraseIdx i
        cq := s.cq ++ [w]
        files := if len = 0 then s.files else
          Function.update s.files w.file (max (s.files w.file) (w.offset + len))
        written := s.written ++ [{ w with records := (s.buf w.buf).records }] }

/-- Every step is in the list. -/
theorem step_cases {e : LogEvent} (h : s.step e = some s') :
  Steps s e s'
  := by
  cases e with
  | append t r late =>
      rw [step] at h
      split at h
      case h_1 hpc =>
        cases h
        exact .append r late hpc
      case h_2 => cases h
  | exit t =>
      rw [step] at h
      split at h
      case h_1 hpc =>
        cases h
        exact .exit hpc
      case h_2 => cases h
  | destroy t =>
      rw [step] at h
      split at h
      case h_1 hpc =>
        cases h
        exact .destroy hpc
      case h_2 => cases h
  | thread t =>
      obtain ⟨⟨th, effect⟩, hadvance, rfl⟩ := Option.map_eq_some_iff.mp h
      exact .thread (LogThread.advance_cases hadvance)
  | backend date opened =>
      rw [step] at h
      split at h
      case h_1 htask => exact .backend (loopStep_cases htask h)
      case h_2 => exact .backend (taskStep_cases h)
  | complete i len =>
      obtain ⟨w, hw, rfl⟩ := Option.map_eq_some_iff.mp h
      exact .complete len hw

end Logger

end Proactor
