import UringProactor.Core.Descriptors
import UringProactor.Core.Release
import UringProactor.Core.Stop

/-!
# The tokens that are completed

All SQEs but that of the wake-up read carry the token of a coroutine.  `run_loop` knows the
sentinel of the wake-up read, the loop of `on_stop` does not: it calls `Token::complete` on
every pointer that is not null.  So only tokens are completed if the wake-up read is finished
when `run_loop` leaves its loop.
-/

namespace Proactor

/-- The SQE carries the token of the accept coroutine, or of a coroutine of a channel. -/
def Sqe.OfCoroutine (sqe : Sqe) : Prop :=
  sqe = ⟨.multishotAccept, .accept⟩ ∨ ∃ c fd, sqe.Names c fd

theorem Sqe.OfCoroutine.data_ne {sqe : Sqe} (h : sqe.OfCoroutine) :
  sqe.data ≠ .wakeup
  := by
  rcases h with rfl | ⟨c, fd, rfl | ⟨nr, rfl⟩⟩ <;> nofun

theorem IoRing.mem_of_mem_submit {r : IoRing} {sqe : Sqe}
    (h : sqe ∈ r.submit.sq ++ r.submit.inflight) :
  sqe ∈ r.sq ++ r.inflight
  := by
  change sqe ∈ r.inflight ++ r.sq at h
  exact List.mem_append.mpr (List.mem_append.mp h).symm

namespace Worker

variable {w w' : Worker} {e : Event}

/-- An SQE of a worker carries a token, or it is the wake-up read. -/
def Typed (w : Worker) : Prop :=
  ∀ sqe ∈ w.thread.ioRing.sq ++ w.thread.ioRing.inflight,
    sqe.OfCoroutine ∨ sqe = ⟨.readWakeup, .wakeup⟩

/-- The wake-up read is finished. -/
def Woken (w : Worker) : Prop :=
  ∀ sqe ∈ w.thread.ioRing.sq ++ w.thread.ioRing.inflight, sqe.data ≠ .wakeup

instance (w : Worker) : Decidable w.Woken := inferInstanceAs (Decidable (∀ sqe ∈ _, _ ≠ _))

/-- A step adds SQEs of coroutines only. -/
theorem Descriptors.mem_entries (h : Descriptors w e w') {sqe : Sqe}
    (hmem : sqe ∈ w'.thread.ioRing.sq ++ w'.thread.ioRing.inflight) :
  sqe ∈ w.thread.ioRing.sq ++ w.thread.ioRing.inflight ∨ sqe.OfCoroutine
  := by
  have hgrows : ∀ c fd, Grows c fd w w' →
      sqe ∈ w.thread.ioRing.sq ++ w.thread.ioRing.inflight ∨ sqe.OfCoroutine := by
    intro c fd hgrows
    obtain ⟨l, hsq, hnames⟩ := hgrows.sq
    rw [hsq, List.append_assoc] at hmem
    rcases List.mem_append.mp hmem with hold | hmem
    · exact .inl (List.mem_append_left _ hold)
    · rcases List.mem_append.mp hmem with hnew | hold
      · right
        rcases hnames sqe hnew with haccept | hnames
        · exact .inl haccept
        · exact .inr ⟨c, fd, hnames⟩
      · exact .inl (List.mem_append_right _ (hgrows.inflight.subset hold))
  cases h with
  | submit hring =>
      left
      rw [hring] at hmem
      apply IoRing.mem_of_mem_submit hmem
  | keeps c h => exact hgrows _ _ h
  | closes _ h => exact hgrows _ _ h
  | assigns _ h => exact hgrows _ _ h

theorem Typed.step (h : w.Typed) (hstep : Descriptors w e w') :
  w'.Typed
  := by
  intro sqe hmem
  rcases hstep.mem_entries hmem with hold | htoken
  · apply h sqe hold
  · exact .inl htoken

theorem Woken.step (h : w.Woken) (hstep : Descriptors w e w') :
  w'.Woken
  := by
  intro sqe hmem
  rcases hstep.mem_entries hmem with hold | htoken
  · apply h sqe hold
  · exact htoken.data_ne

/-- `run_loop` completes tokens only. -/
theorem Typed.calls (h : w.Typed) {p : Option Sqe} (hp : p ∈ w.calls e) :
  ∃ sqe, p = some sqe ∧ sqe.OfCoroutine
  := by
  cases e with
  | complete i res more idx data =>
      rw [Worker.calls] at hp
      split at hp
      case h_1 sqe hsqe =>
        split at hp
        case isTrue => cases hp
        case isFalse hdata =>
          have hmem := List.mem_append_right w.thread.ioRing.sq (List.mem_of_getElem? hsqe)
          rw [List.mem_singleton.mp hp]
          refine ⟨sqe, rfl, (h sqe hmem).resolve_right ?_⟩
          rintro rfl
          exact hdata rfl
      case h_2 => cases hp
  | _ => cases hp

end Worker

namespace StopWorker

variable {s s' : StopWorker} {e : StopEvent}

/-- The condition that the wake-up read is finished when `run_loop` leaves its loop. -/
def LeavesWoken (s : StopWorker) : StopEvent → Prop
  | .leave => s.worker.Woken
  | _ => True

instance (s : StopWorker) : ∀ e, Decidable (s.LeavesWoken e)
  | .leave => inferInstanceAs (Decidable (Worker.Woken _))
  | .requestStop | .worker _ | .poll | .cancelled | .advance => inferInstanceAs (Decidable True)

/-- The invariant of the tokens. -/
structure Tokens (s : StopWorker) : Prop where
  typed : s.worker.Typed
  woken : s.phase ≠ .loop → s.worker.Woken
  completed : ∀ p ∈ s.completed, ∃ sqe, p = some sqe ∧ sqe.OfCoroutine

/-- A step of the worker. -/
theorem Tokens.run (h : Tokens s) {e : Event} (hrun : s.run e = some s') :
  Tokens s'
  := by
  obtain ⟨ok, w, hresult, rfl⟩ := run_eq hrun
  have hdescriptors := (Worker.step_cases hresult).descriptors
  refine ⟨h.typed.step hdescriptors, fun hphase => (h.woken hphase).step hdescriptors, ?_⟩
  intro p hp
  rcases List.mem_append.mp hp with hold | hnew
  · apply h.completed p hold
  · apply h.typed.calls hnew

/-- A step that changes no SQE and completes nothing. -/
theorem Tokens.of_entries (h : Tokens s)
    (hentries : ∀ sqe ∈ s'.ring.sq ++ s'.ring.inflight, sqe ∈ s.ring.sq ++ s.ring.inflight)
    (hphase : s'.phase ≠ .loop → s.phase ≠ .loop ∨ s.worker.Woken)
    (hcompleted : s'.completed = s.completed) :
  Tokens s'
  := by
  refine ⟨fun sqe hmem => h.typed sqe (hentries sqe hmem), ?_, ?_⟩
  · intro hleft sqe hmem
    rcases hphase hleft with hleft | hwoken
    · exact h.woken hleft sqe (hentries sqe hmem)
    · exact hwoken sqe (hentries sqe hmem)
  · rw [hcompleted]
    exact h.completed

theorem Tokens.step (h : Tokens s) (hleaves : s.LeavesWoken e) (hstep : Steps s e s') :
  Tokens s'
  := by
  have hleft : ∀ done, s.phase = .drain done → s.phase ≠ .loop := by
    intro done hphase
    rw [hphase]
    nofun
  cases hstep with
  | requestStop => exact h.of_entries (fun _ => id) .inl rfl
  | runs _ _ hrun => exact h.run hrun
  | sentinel hphase hsqe =>
      -- the wake-up read is finished
      have hmem := List.mem_append_right s.ring.sq (List.mem_of_getElem? hsqe)
      exact absurd rfl (h.woken (hleft _ hphase) _ hmem)
  | leave => exact h.of_entries (fun _ => id) (fun _ => .inr hleaves) rfl
  | flush hphase =>
      exact h.of_entries (fun _ => IoRing.mem_of_mem_submit) (fun _ => .inl (hleft _ hphase)) rfl
  | submit hphase =>
      exact h.of_entries (fun _ => IoRing.mem_of_mem_submit) (fun _ => .inl (hleft _ hphase)) rfl
  | peek => exact h.of_entries (fun _ => id) .inl rfl
  | cancelled hphase => exact h.of_entries (fun _ => id) (fun _ => .inl (hleft _ hphase)) rfl
  | advance => exact h.of_entries (fun _ => id) .inl rfl
  | returns hphase => exact h.of_entries (fun _ => id) (fun _ => .inl (hleft _ hphase)) rfl

theorem tokens_start (depth : ℕ) (bufRing : BufRing) (bufPool : BufPool)
    (poolBits capBits : Fin 31) (cpuId : Int) :
  Tokens (start cpuId (Worker.start depth bufRing bufPool poolBits capBits))
  := by
  refine ⟨?_, fun hphase => absurd rfl hphase, nofun⟩
  intro sqe hmem
  rcases List.mem_pair.mp hmem with rfl | rfl
  · exact .inl (.inl rfl)
  · exact .inr rfl

/-- In every run in which the wake-up read is finished whenever `run_loop` leaves its loop,
`Token::complete` is called only on pointers to the tokens of coroutines. -/
theorem only_tokens_completed (depth : ℕ) (bufRing : BufRing) (bufPool : BufPool)
    (poolBits capBits : Fin 31) (cpuId : Int)
    (h : Reaches step (fun s e => s.Admits e ∧ s.LeavesWoken e)
      (start cpuId (Worker.start depth bufRing bufPool poolBits capBits)) s) :
  ∀ p ∈ s.completed, ∃ sqe, p = some sqe ∧ sqe.OfCoroutine
  := by
  have htokens : Tokens s := by
    apply h.invariant (tokens_start depth bufRing bufPool poolBits capBits cpuId)
    intro s s' e htokens hok hstep
    apply htokens.step hok.2 (step_cases hstep)
  exact htokens.completed

/-- Stop is requested while the worker waits: the wake-up read ends the wait, and `on_stop`
completes the tokens of the accept and of the `recv` of a connection. -/
theorem only_tokens_completed_three :
  ∃ s, Reaches step (fun s e => s.Admits e ∧ s.LeavesWoken e) (start (-1) Worker.tiny) s
    ∧ s.phase = .returned ∧ s.completed.length = 3
    ∧ ∀ p ∈ s.completed, ∃ sqe, p = some sqe ∧ sqe.OfCoroutine
  := by
  obtain ⟨s, hreach, hphase, hlength⟩ :
      ∃ s, Reaches step (fun s e => s.Admits e ∧ s.LeavesWoken e) (start (-1) Worker.tiny) s
        ∧ s.phase = .returned ∧ s.completed.length = 3 := by
    apply Reaches.exists_of_follow [.worker .submit, .worker (.complete 0 5 true 0 []),
      .worker .ret, .requestStop, .worker (.complete 1 8 false 0 []), .worker .batchDone, .leave,
      .poll, .worker (.complete 0 (-125) false 0 []), .worker (.complete 0 (-125) false 0 []),
      .worker .ret, .cancelled, .advance]
    decide +kernel
  exact ⟨s, hreach, hphase, hlength, only_tokens_completed _ _ _ _ _ _ hreach⟩

/-- Stop is requested in a callback, so that `run_loop` leaves its loop without the completion of
the wake-up read: `on_stop` gets it, and calls `Token::complete` on the sentinel. -/
theorem sentinel_completed :
  ∃ s, Reaches step Admits (start (-1) Worker.tiny) s
    ∧ some ⟨.readWakeup, .wakeup⟩ ∈ s.completed
  := by
  apply Reaches.exists_of_follow [.worker .submit, .worker (.complete 0 5 true 0 []),
    .requestStop, .worker .ret, .worker .batchDone, .leave, .poll,
    .worker (.complete 1 8 false 0 [])]
  decide +kernel

end StopWorker

end Proactor
