import UringProactor.Prelude.Run

/-!
# Destroying a worker object

A `TcpThread` or `UdpThread` is destroyed by its owner while its thread runs.  The members of the
derived class go first, in reverse order of declaration; then the object is an `IoThread` for
virtual calls, the body of `~IoThread` closes `wakeup_fd_`, and only then `thread_`, the last
member of `IoThread`, requests stop and joins.  The model keeps of the thread where it is in
`run_loop`, and of each of its steps which members it may use.  It records the faults: uses of
destroyed members, calls of the wrong `on_stop`, and writes to the closed `wakeup_fd_`.
-/

namespace Proactor

/-- The two classes derived from `IoThread`. -/
inductive WorkerKind where
  | tcp
  | udp
deriving DecidableEq

/-- The members that the thread uses. -/
inductive Member where
  | ioRing
  | bufRing
  | bufPool
  | tcpChannelPool
  | pendingReads
  | acceptHandle
  | msghdrPool
  | socket
  | channel
deriving DecidableEq

/-- The members of the derived class, in the order of their declaration. -/
def WorkerKind.members : WorkerKind → List Member
  | .tcp => [.tcpChannelPool, .pendingReads, .acceptHandle]
  | .udp => [.msghdrPool, .socket, .channel]

/-- A step of the destructor: a member is destroyed; the body of `~IoThread` is entered, with
`IoThread` as the class of the object, and closes `wakeup_fd_`; `~jthread` requests stop, and
joins. -/
inductive DestroyStep where
  | member (x : Member)
  | enterBase
  | closeWakeup
  | requestStop
  | join
deriving DecidableEq

/-- The destructor. -/
def WorkerKind.destructor (k : WorkerKind) : List DestroyStep :=
  k.members.reverse.map .member
    ++ [.enterBase, .closeWakeup, .requestStop, .join, .member .bufPool, .member .bufRing,
      .member .ioRing]

/-- Where the thread is in `run_loop`: before `on_loop_start`, at the condition of the loop, in
`submit_and_wait`, among the completions of a batch, in `on_stop` (that of `TcpThread`, if
`overridden`), or behind its end. -/
inductive LoopPc where
  | entering
  | testing
  | waiting
  | handling
  | stopping (overridden : Bool)
  | finished
deriving DecidableEq

/-- What a completion is for. -/
inductive Completion where
  | wakeup
  | accept
  | read
  | write
deriving DecidableEq

inductive Fault where
  | usesDestroyed (x : Member)
  | baseOnStop
  | writesClosed
deriving DecidableEq

/-- A worker object with its thread and its owner. -/
structure WorkerObject where
  kind : WorkerKind
  /-- `cpu_id_`. -/
  cpuId : Int
  /-- What is left of the destructor. -/
  todo : List DestroyStep
  destroyed : List Member
  /-- Whether virtual calls go to the derived class. -/
  derived : Bool
  /-- Whether `*wakeup_fd_` is open. -/
  wakeupOpen : Bool
  /-- Whether stop was requested. -/
  stop : Bool
  /-- Whether `*wakeup_fd_` was written, so that the wake-up read completes. -/
  written : Bool
  pc : LoopPc
  faults : List Fault

/-- An event: the owner takes the next step of the destructor; another holder of the stop state
requests stop; or the thread takes a step. -/
inductive LifeEvent where
  | destroy
  | requestStop
  | enter
  | test
  | wake (traffic : Bool)
  | complete (u : Completion)
  | batchDone
  | stopped
deriving DecidableEq

namespace WorkerKind

/-- The members that the coroutine of a completion may use. -/
def uses : WorkerKind → Completion → List Member
  | _, .wakeup => []
  | .tcp, .accept => [.tcpChannelPool, .ioRing]
  | .tcp, .read => [.tcpChannelPool, .pendingReads, .bufRing, .ioRing]
  | .tcp, .write => [.tcpChannelPool, .bufPool, .ioRing]
  | .udp, .accept => []
  | .udp, .read => [.channel, .socket, .msghdrPool, .bufRing, .bufPool, .ioRing]
  | .udp, .write => [.channel, .msghdrPool, .bufPool]

end WorkerKind

namespace WorkerObject

/-- The object when its constructor has returned. -/
def start (k : WorkerKind) (cpuId : Int) : WorkerObject where
  kind := k
  cpuId := cpuId
  todo := k.destructor
  destroyed := []
  derived := true
  wakeupOpen := true
  stop := false
  written := false
  pc := .entering
  faults := []

/-- Whether virtual calls go to `TcpThread`, the only class that overrides them. -/
def overridden (s : WorkerObject) : Bool := s.derived && s.kind = .tcp

/-- The thread uses members. -/
def use (s : WorkerObject) (l : List Member) : WorkerObject :=
  { s with faults := s.faults ++ (l.filter (· ∈ s.destroyed)).map .usesDestroyed }

/-- The stop callback of `run_loop`. -/
def callback (s : WorkerObject) : WorkerObject :=
  if s.wakeupOpen then
    { s with written := true }
  else
    { s with faults := s.faults ++ [.writesClosed] }

/-- Whether the stop callback is registered. -/
def registered (s : WorkerObject) : Bool := s.pc ≠ .entering ∧ s.pc ≠ .finished

/-- `std::stop_source::request_stop`. -/
def request (s : WorkerObject) : WorkerObject :=
  if s.stop then s
  else if s.registered then callback { s with stop := true }
  else { s with stop := true }

/-- The next step of the destructor. -/
def destroy (s : WorkerObject) : Option WorkerObject :=
  match s.todo with
  | [] => none
  | .member x :: todo => some { s with todo := todo, destroyed := x :: s.destroyed }
  | .enterBase :: todo => some { s with todo := todo, derived := false }
  | .closeWakeup :: todo => some { s with todo := todo, wakeupOpen := false }
  | .requestStop :: todo => some (request { s with todo := todo })
  | .join :: todo => if s.pc = .finished then some { s with todo := todo } else none

/-- `run_loop` up to its loop: `on_loop_start`, the wake-up read and the stop callback, which is
called at once if stop was requested before. -/
def enter (s : WorkerObject) : WorkerObject :=
  let s := s.use ((if s.overridden then [.acceptHandle, .pendingReads, .tcpChannelPool] else [])
    ++ [.ioRing])
  let s := { s with pc := .testing }
  if s.stop then s.callback else s

/-- The condition of the loop, and the submit or the call of `on_stop` behind it. -/
def test (s : WorkerObject) : WorkerObject :=
  if s.stop then
    { s.use [.ioRing] with
      pc := .stopping s.overridden
      faults := (s.use [.ioRing]).faults
        ++ if s.kind = .tcp ∧ s.derived = false then [.baseOnStop] else [] }
  else
    { s.use [.ioRing] with pc := if s.cpuId = -1 then .waiting else .handling }

/-- One event; `none` when it cannot happen.  Without traffic the thread is woken only if the
wake-up read completes. -/
def step (s : WorkerObject) : LifeEvent → Option WorkerObject
  | .destroy => s.destroy
  | .requestStop => some s.request
  | .enter => if s.pc = .entering then some s.enter else none
  | .test => if s.pc = .testing then some s.test else none
  | .wake traffic =>
      if s.pc = .waiting ∧ (traffic = true ∨ s.written = true) then
        some { s with pc := .handling }
      else
        none
  | .complete u =>
      if s.pc = .handling ∨ s.pc = .stopping true then some (s.use (s.kind.uses u)) else none
  | .batchDone =>
      if s.pc = .handling then
        some { s.use (if s.overridden then [.pendingReads, .tcpChannelPool] else []) with
          pc := .testing }
      else
        none
  | .stopped =>
      match s.pc with
      | .stopping overridden =>
          some { s.use (if overridden then [.acceptHandle, .ioRing] else [.ioRing]) with
            pc := .finished }
      | _ => none

variable {s s' : WorkerObject} {e : LifeEvent}

/-! ### Destruction behind the end of the thread -/

/-- The owner takes no step of the destructor before the thread has finished. -/
def Joined (s : WorkerObject) (e : LifeEvent) : Prop := e = .destroy → s.pc = .finished

instance (s : WorkerObject) (e : LifeEvent) : Decidable (s.Joined e) :=
  inferInstanceAs (Decidable (_ → _))

/-- No fault has happened, the object is whole while the thread runs, and the wake-up read of a
thread that has to stop completes. -/
structure Intact (s : WorkerObject) : Prop where
  faults : s.faults = []
  destroyed : s.pc ≠ .finished → s.destroyed = []
  derived : s.pc ≠ .finished → s.derived = true
  wakeupOpen : s.pc ≠ .finished → s.wakeupOpen = true
  written : s.registered = true → s.stop = true → s.written = true

theorem registered_iff :
  s.registered = true ↔ s.pc ≠ .entering ∧ s.pc ≠ .finished
  := decide_eq_true_iff

/-- Uses of the members of a whole object are no faults. -/
theorem use_of_nil (h : s.destroyed = []) (l : List Member) :
  s.use l = s
  := by
  have hnone : l.filter (· ∈ s.destroyed) = [] := by
    rw [h]
    simp
  rw [use, hnone, List.map_nil, List.append_nil]

theorem Intact.request (h : Intact s) :
  Intact s.request
  := by
  rw [WorkerObject.request]
  split
  case isTrue => exact h
  case isFalse hstop =>
    split
    case isTrue hregistered =>
      have hopen := h.wakeupOpen (registered_iff.mp hregistered).2
      rw [callback, if_pos hopen]
      exact ⟨h.faults, h.destroyed, h.derived, h.wakeupOpen, fun _ _ => rfl⟩
    case isFalse hregistered =>
      exact ⟨h.faults, h.destroyed, h.derived, h.wakeupOpen, fun htrue => absurd htrue hregistered⟩

/-- A step of the destructor when the thread has finished. -/
theorem destroy_of_finished (hpc : s.pc = .finished) {x : DestroyStep} {todo : List DestroyStep}
    (htodo : s.todo = x :: todo) :
  ∃ s', s.destroy = some s' ∧ s'.todo = todo ∧ s'.pc = .finished ∧ s'.faults = s.faults
  := by
  have hregistered : s.registered = false := by
    rw [registered, hpc]
    rfl
  rw [WorkerObject.destroy, htodo]
  cases x with
  | member x => exact ⟨_, rfl, rfl, hpc, rfl⟩
  | enterBase => exact ⟨_, rfl, rfl, hpc, rfl⟩
  | closeWakeup => exact ⟨_, rfl, rfl, hpc, rfl⟩
  | requestStop =>
      -- the callback is not registered any more
      have hrequest : ∃ stop, request { s with todo := todo } = { s with todo := todo, stop := stop } := by
        rw [WorkerObject.request]
        split
        · exact ⟨s.stop, rfl⟩
        · exact ⟨true, if_neg (Bool.eq_false_iff.mp hregistered)⟩
      obtain ⟨stop, hrequest⟩ := hrequest
      refine ⟨_, rfl, ?_⟩
      rw [hrequest]
      exact ⟨rfl, hpc, rfl⟩
  | join => exact ⟨_, if_pos hpc, rfl, hpc, rfl⟩

/-- The destructor takes its steps when the thread has finished. -/
theorem Intact.destroy (h : Intact s) (hpc : s.pc = .finished) (hstep : s.destroy = some s') :
  Intact s'
  := by
  cases htodo : s.todo with
  | nil =>
      rw [WorkerObject.destroy, htodo] at hstep
      cases hstep
  | cons x todo =>
      obtain ⟨s₁, hdestroy, -, hpc', hfaults⟩ := destroy_of_finished hpc htodo
      cases hdestroy.symm.trans hstep
      have hfinished : s'.pc ≠ .finished → False := fun hne => hne hpc'
      refine ⟨hfaults.trans h.faults, fun hne => (hfinished hne).elim,
        fun hne => (hfinished hne).elim, fun hne => (hfinished hne).elim, ?_⟩
      intro hregistered
      exact (hfinished (registered_iff.mp hregistered).2).elim

/-- The thread uses the members of the whole object. -/
theorem Intact.use_eq (h : Intact s) (hrunning : s.pc ≠ .finished) (l : List Member) :
  s.use l = s
  := use_of_nil (h.destroyed hrunning) l

/-- The thread takes its steps with the object whole. -/
theorem Intact.setPc (h : Intact s) (hentered : s.pc ≠ .entering) (hrunning : s.pc ≠ .finished)
    (pc : LoopPc) :
  Intact { s with pc := pc }
  := by
  have hregistered := registered_iff.mpr ⟨hentered, hrunning⟩
  exact ⟨h.faults, fun _ => h.destroyed hrunning, fun _ => h.derived hrunning,
    fun _ => h.wakeupOpen hrunning, fun _ => h.written hregistered⟩

theorem Intact.enter (h : Intact s) (hpc : s.pc = .entering) :
  Intact s.enter
  := by
  have hrunning : s.pc ≠ .finished := by simp [hpc]
  have hopen := h.wakeupOpen hrunning
  rw [WorkerObject.enter, h.use_eq hrunning]
  dsimp only
  split
  case isTrue =>
    rw [callback, if_pos hopen]
    exact ⟨h.faults, fun _ => h.destroyed hrunning, fun _ => h.derived hrunning,
      fun _ => hopen, fun _ _ => rfl⟩
  case isFalse hstop =>
    exact ⟨h.faults, fun _ => h.destroyed hrunning, fun _ => h.derived hrunning,
      fun _ => hopen, fun _ htrue => absurd htrue hstop⟩

theorem Intact.test (h : Intact s) (hpc : s.pc = .testing) :
  Intact s.test
  := by
  have hrunning : s.pc ≠ .finished := by simp [hpc]
  have hentered : s.pc ≠ .entering := by simp [hpc]
  rw [WorkerObject.test, h.use_eq hrunning]
  split
  case isTrue =>
    -- `on_stop` is the one of the whole object
    rw [if_neg (by simp [h.derived hrunning]), List.append_nil]
    exact h.setPc hentered hrunning _
  case isFalse => exact h.setPc hentered hrunning _

theorem Intact.step (h : Intact s) (hjoined : s.Joined e) (hstep : s.step e = some s') :
  Intact s'
  := by
  cases e with
  | destroy => exact h.destroy (hjoined rfl) hstep
  | requestStop =>
      cases hstep
      exact h.request
  | enter =>
      obtain ⟨hpc, heq⟩ := Option.ite_none_right_eq_some.mp hstep
      cases heq
      exact h.enter hpc
  | test =>
      obtain ⟨hpc, heq⟩ := Option.ite_none_right_eq_some.mp hstep
      cases heq
      exact h.test hpc
  | wake traffic =>
      obtain ⟨⟨hpc, -⟩, heq⟩ := Option.ite_none_right_eq_some.mp hstep
      cases heq
      apply h.setPc <;> simp [hpc]
  | complete u =>
      obtain ⟨hpc, heq⟩ := Option.ite_none_right_eq_some.mp hstep
      cases heq
      rw [h.use_eq (by rcases hpc with hpc | hpc <;> simp [hpc])]
      exact h
  | batchDone =>
      obtain ⟨hpc, heq⟩ := Option.ite_none_right_eq_some.mp hstep
      cases heq
      rw [h.use_eq (by simp [hpc])]
      apply h.setPc <;> simp [hpc]
  | stopped =>
      rw [WorkerObject.step] at hstep
      split at hstep
      case h_1 overridden hpc =>
        cases hstep
        rw [h.use_eq (by simp [hpc])]
        apply h.setPc <;> simp [hpc]
      case h_2 => cases hstep

/-- The destructor returns when the thread has finished. -/
theorem destructor_returns (hpc : s.pc = .finished) :
  ∃ s', List.foldlM step s (List.replicate s.todo.length .destroy) = some s' ∧ s'.todo = []
    ∧ s'.faults = s.faults
  := by
  generalize htodo : s.todo = todo
  induction todo generalizing s with
  | nil => exact ⟨s, rfl, htodo, rfl⟩
  | cons x todo ih =>
      obtain ⟨s₁, hdestroy, htodo₁, hpc₁, hfaults₁⟩ := destroy_of_finished hpc htodo
      obtain ⟨s', hrun, hdone, hfaults⟩ := ih hpc₁ htodo₁
      refine ⟨s', ?_, hdone, hfaults.trans hfaults₁⟩
      rw [List.length_cons, List.replicate_succ, List.foldlM_cons]
      change (s.destroy >>= _) = _
      rw [hdestroy]
      exact hrun

theorem intact_start (k : WorkerKind) (cpuId : Int) :
  Intact (start k cpuId)
  := ⟨rfl, fun _ => rfl, fun _ => rfl, fun _ => rfl, nofun⟩

/-- In every run in which the owner destroys the object only behind the end of the thread: the
thread uses no destroyed member, the `on_stop` it runs is that of its class, and the stop callback
writes to the open `wakeup_fd_`, so that a thread that waits without traffic is woken when stop is
requested; and when the thread has finished, the destructor returns. -/
theorem destroyed_after_thread (k : WorkerKind) (cpuId : Int)
    (h : Reaches step Joined (start k cpuId) s) :
  s.faults = []
    ∧ (s.pc = .waiting → s.stop = true → ∃ s', s.step (.wake false) = some s')
    ∧ (s.pc = .finished →
        ∃ s', List.foldlM step s (List.replicate s.todo.length .destroy) = some s' ∧ s'.todo = []
          ∧ s'.faults = [])
  := by
  have hintact : Intact s := by
    apply h.invariant (intact_start k cpuId)
    intro s s' e hintact hjoined hstep
    apply hintact.step hjoined hstep
  refine ⟨hintact.faults, ?_, ?_⟩
  · intro hpc hstop
    have hregistered : s.registered = true := by
      rw [registered, hpc]
      rfl
    exact ⟨_, if_pos ⟨hpc, .inr (hintact.written hregistered hstop)⟩⟩
  · intro hpc
    obtain ⟨s', hrun, hdone, hfaults⟩ := destructor_returns hpc
    exact ⟨s', hrun, hdone, hfaults.trans hintact.faults⟩

/-- Stop is requested while the thread waits; it is woken, drains in `TcpThread::on_stop` and
finishes, and then the object is destroyed. -/
theorem destroyed_after_thread_tcp :
  ∃ s s', Reaches step Joined (start .tcp (-1)) s ∧ s.pc = .finished
    ∧ s.todo = WorkerKind.tcp.destructor
    ∧ List.foldlM step s (List.replicate s.todo.length .destroy) = some s' ∧ s'.todo = []
    ∧ s'.faults = []
  := by
  obtain ⟨s, hreach, hpc, htodo⟩ :
      ∃ s, Reaches step Joined (start .tcp (-1)) s ∧ s.pc = .finished
        ∧ s.todo = WorkerKind.tcp.destructor := by
    apply Reaches.exists_of_follow [.enter, .test, .wake true, .complete .accept, .batchDone, .test,
      .requestStop, .wake false, .complete .wakeup, .batchDone, .test, .complete .read, .stopped]
    decide +kernel
  obtain ⟨-, -, hreturns⟩ := destroyed_after_thread .tcp (-1) hreach
  obtain ⟨s', hrun, hdone, hfaults⟩ := hreturns hpc
  exact ⟨s, s', hreach, hpc, htodo, hrun, hdone, hfaults⟩

/-! ### Destruction while the thread runs -/

/-- The thread waits, and the stop callback wrote to the closed `wakeup_fd_`; the owner joins. -/
structure Hung (s : WorkerObject) : Prop where
  pc : s.pc = .waiting
  stop : s.stop = true
  written : s.written = false
  todo : s.todo.head? = some .join

/-- Without traffic nothing changes any more. -/
theorem Hung.step (h : Hung s) (htraffic : e ≠ .wake true) (hstep : s.step e = some s') :
  s' = s
  := by
  obtain ⟨hpc, hstop, hwritten, htodo⟩ := h
  obtain ⟨todo, htodo⟩ := List.head?_eq_some_iff.mp htodo
  cases e with
  | destroy =>
      rw [WorkerObject.step, WorkerObject.destroy, htodo] at hstep
      simp [hpc] at hstep
  | requestStop =>
      rw [WorkerObject.step, WorkerObject.request, if_pos hstop] at hstep
      exact (Option.some.inj hstep).symm
  | wake traffic =>
      cases traffic with
      | true => exact absurd rfl htraffic
      | false => simp [WorkerObject.step, hwritten] at hstep
  | _ => simp [WorkerObject.step, hpc] at hstep

/-- The destruction of a running worker.  A `recv` of a TCP worker and a datagram of a UDP worker
complete when the channels are destroyed; a TCP worker that polls runs `IoThread::on_stop`; and
for a worker that waits, the stop callback writes to the closed `wakeup_fd_`, and without traffic
the thread is not woken and the destructor does not return. -/
theorem destroyed_while_running :
  (∃ s, Reaches step (fun _ e => e ≠ .requestStop) (start .tcp (-1)) s
      ∧ .usesDestroyed .tcpChannelPool ∈ s.faults ∧ .usesDestroyed .pendingReads ∈ s.faults)
    ∧ (∃ s, Reaches step (fun _ e => e ≠ .requestStop) (start .udp (-1)) s
      ∧ .usesDestroyed .channel ∈ s.faults ∧ .usesDestroyed .socket ∈ s.faults
      ∧ .usesDestroyed .msghdrPool ∈ s.faults)
    ∧ (∃ s, Reaches step (fun _ e => e ≠ .requestStop) (start .tcp 0) s ∧ .baseOnStop ∈ s.faults)
    ∧ ∃ s, Reaches step (fun _ e => e ≠ .requestStop) (start .tcp (-1)) s
      ∧ s.pc = .waiting ∧ s.stop = true ∧ .writesClosed ∈ s.faults
      ∧ ∀ s', Reaches step (fun _ e => e ≠ .wake true) s s' → s'.pc = .waiting ∧ s'.todo ≠ []
  := by
  refine ⟨?_, ?_, ?_, ?_⟩
  · apply Reaches.exists_of_follow [.enter, .test, .destroy, .destroy, .destroy, .wake true,
      .complete .read]
    decide +kernel
  · apply Reaches.exists_of_follow [.enter, .test, .destroy, .destroy, .destroy, .wake true,
      .complete .read]
    decide +kernel
  · apply Reaches.exists_of_follow [.enter, .destroy, .destroy, .destroy, .destroy, .destroy, .destroy,
      .test]
    decide +kernel
  · obtain ⟨s, hreach, hpc, hstop, hwritten, htodo, hfault⟩ :
        ∃ s, Reaches WorkerObject.step (fun _ e => e ≠ .requestStop) (start .tcp (-1)) s
          ∧ s.pc = .waiting ∧ s.stop = true ∧ s.written = false ∧ s.todo.head? = some .join
          ∧ .writesClosed ∈ s.faults := by
      apply Reaches.exists_of_follow [.enter, .test, .destroy, .destroy, .destroy, .destroy, .destroy,
        .destroy]
      decide +kernel
    have hhung : Hung s := ⟨hpc, hstop, hwritten, htodo⟩
    refine ⟨s, hreach, hpc, hstop, hfault, ?_⟩
    intro s' hreach'
    have heq : s = s' := by
      apply hreach'.invariant rfl
      rintro t u e rfl htraffic hstep
      exact (hhung.step htraffic hstep).symm
    rw [← heq]
    refine ⟨hpc, ?_⟩
    intro hnil
    rw [hnil] at htodo
    cases htodo

end WorkerObject

end Proactor
