import UringProactor.Net.Lifecycle

/-!
# Invariants of the close and release protocol

A channel that is `Safe` is at most once in the free queue, and then it has no SQE
outstanding and no coroutine that will use one.  Actions keep a channel safe as long as they
are settled: the completion that brings `in_flight_` to zero while the channel is closing is
the last of its only SQE, and no `recv` is armed again.  Two stronger invariants are kept by
fewer actions.  A channel is `Exact` if `in_flight_` is the number of its outstanding SQEs,
and it is `Kept` if a closing channel outside the free queue still waits for a completion.
-/

namespace Proactor

namespace Conn

variable {k k' : Conn} {a : Action}

/-! ### Safety of the free queue -/

/-- The free queue has the channel at most once, and only at rest. -/
structure Safe (k : Conn) : Prop where
  recvs_le : k.recvs ≤ 1
  awaiting : k.read = .awaiting → k.recvs = 1
  writes_eq : k.writes = k.write.tokens
  handle_iff : k.token.handle = true ↔ k.write = .onNotify
  free_le : k.free ≤ 1
  idle : 0 < k.free → k.recvs = 0 ∧ k.writes = 0 ∧ k.inFlight = 0
  resting : 0 < k.free → k.write ≠ .onNotify
  ending : 0 < k.free → k.write = .running → k.token.closed = true ∧ k.token.pending = true

/-- A completion that a closing channel gets with `in_flight_ == 1` is the last one of its
only SQE, and a `recv` completion carries no data. -/
def Settled (k : Conn) : Action → Prop
  | .recv ended more =>
      k.token.closed = true → k.inFlight = 1 → ended = true ∧ more = false ∧ k.writes = 0
  | .written _ => k.token.closed = true → k.inFlight = 1 → k.recvs = 0
  | _ => True

theorem Safe.runs {woken : Bool} (h : Safe k) (hwrite : k.write = .running)
    (hrun : Runs woken k k') :
  Safe k'
  := by
  -- The counters are natural numbers, so that `grind` needs no ordered fields here and below.
  have hdrained : 0 < k.free → k.Drained := by grind -linarith [Safe, Drained]
  cases hrun with
  | finish _ _ => constructor <;> grind -linarith [Safe]
  | suspend _ => constructor <;> grind -linarith [Safe]
  | prepare _ _ => constructor <;> grind -linarith [Safe]
  | throw _ => constructor <;> grind -linarith [Safe]

theorem Safe.notifies (h : Safe k) (hnotify : Notifies k k') :
  Safe k'
  := by
  cases hnotify with
  | resume hhandle hrun =>
      apply Safe.runs _ rfl hrun
      constructor <;> grind -linarith [Safe]
  | mark _ => constructor <;> grind -linarith [Safe]

theorem Safe.closes (h : Safe k) (hclose : Closes k k') :
  Safe k'
  := by
  obtain ⟨hnotify⟩ := hclose
  have hclosing : Safe { k with token := { k.token with closed := true } } := by
    constructor <;> grind -linarith [Safe]
  have := hclosing.notifies hnotify
  constructor <;> grind -linarith [Safe]

theorem Safe.closesOnce (h : Safe k) (hclose : ClosesOnce k k') :
  Safe k'
  := by
  cases hclose with
  | skip _ => exact h
  | close _ hclose => exact h.closes hclose

/-- Arming a `recv` on a channel that has none and is in use keeps it safe. -/
theorem Safe.arms (h : Safe k) (hrecvs : k.recvs = 0) (hfree : k.free = 0) (harm : Arms k k') :
  Safe k'
  := by
  cases harm with
  | arm => constructor <;> grind -linarith [Safe]
  | throw => constructor <;> grind -linarith [Safe]

/-- Notifying a drained channel ends the write coroutine that waits for it, and leaves a note
for one that is running. -/
theorem Notifies.of_drained (hdrained : k.Drained) (hnotify : Notifies k k') :
  k' = { k with token := { k.token with pending := true } } ∧ k.token.handle = false
    ∨ ∃ pending, k' = { k with
        token := { k.token with pending := pending, handle := false }
        write := .finished }
  := by
  cases hnotify with
  | resume hhandle hrun =>
      right
      cases hrun with
      | finish pending _ => exact ⟨pending, rfl⟩
      | suspend hopen => exact absurd hdrained (hopen (.inl rfl))
      | prepare _ hopen => exact absurd hdrained hopen
      | throw hopen => exact absurd hdrained hopen
  | mark hhandle =>
      left
      exact ⟨rfl, hhandle⟩

/-- A decrement keeps a channel in use safe if, at zero while closing, no SQE is left. -/
theorem Safe.drains (h : Safe k) (hfree : k.free = 0)
    (hlast : k.token.closed = true → k.inFlight = 1 → k.recvs = 0 ∧ k.writes = 0)
    (hdrain : Drains k k') :
  Safe k'
  := by
  cases hdrain with
  | keep _ => constructor <;> grind -linarith [Safe]
  | release hone hclosing hnotify =>
      obtain ⟨hrecvs, hwrites⟩ := hlast hclosing hone
      have hdrained : ({ k with inFlight := 0 } : Conn).Drained := ⟨hclosing, le_rfl⟩
      obtain ⟨rfl, hhandle⟩ | ⟨pending, rfl⟩ := hnotify.of_drained hdrained
      · constructor <;> grind -linarith [Safe]
      · constructor <;> grind -linarith [Safe]

/-- While the write coroutine runs, notifying the channel leaves a note for it. -/
theorem Notifies.eq_of_running (hnotify : Notifies k k') (hhandle : k.token.handle = false) :
  k' = { k with token := { k.token with pending := true } }
  := by
  cases hnotify with
  | resume hresumed _ => simp [hhandle] at hresumed
  | mark _ => rfl

/-- No decrement resumes a write coroutine that is not waiting for a notification. -/
theorem Drains.write_eq (hdrain : Drains k k') (hhandle : k.token.handle = false) :
  k'.write = k.write
  := by
  cases hdrain with
  | keep _ => rfl
  | release _ _ hnotify => rw [hnotify.eq_of_running hhandle]

/-- Closing resumes no write coroutine that is not waiting for a notification. -/
theorem ClosesOnce.write_eq (hclose : ClosesOnce k k') (hhandle : k.token.handle = false) :
  k'.write = k.write
  := by
  cases hclose with
  | skip _ => rfl
  | close _ hclose =>
      obtain ⟨hnotify⟩ := hclose
      rw [hnotify.eq_of_running hhandle]

/-- A decrement that does not release the channel. -/
theorem Drains.eq_of_keep (hdrain : Drains k k')
    (hkeep : ¬ (k.token.closed = true ∧ k.inFlight = 1)) :
  k' = { k with inFlight := k.inFlight - 1 }
  := by
  cases hdrain with
  | keep _ => rfl
  | release hone hclosing _ => exact absurd ⟨hclosing, hone⟩ hkeep

/-- A settled action keeps a channel safe. -/
theorem Safe.step (h : Safe k) (hsettled : k.Settled a) (hstep : Step k a k') :
  Safe k'
  := by
  cases hstep with
  | assign hfree harm hrun =>
      apply Safe.runs _ rfl hrun
      cases harm with
      | arm => constructor <;> grind -linarith [Safe]
      | throw => constructor <;> grind -linarith [Safe]
  | ended hread hrecvs hdrain =>
      apply Safe.drains _ _ _ hdrain
      · constructor <;> grind -linarith [Safe]
      · grind -linarith [Safe]
      · grind -linarith [Safe, Settled]
  | more hread hdrain =>
      rw [hdrain.eq_of_keep (by grind -linarith [Settled])]
      constructor <;> grind -linarith [Safe]
  | rearm hread hrecvs hdrain harm =>
      rw [hdrain.eq_of_keep (by grind -linarith [Settled])] at harm
      apply Safe.arms _ _ _ harm
      · constructor <;> grind -linarith [Safe]
      · grind -linarith [Safe]
      · grind -linarith [Safe]
  | written hwrite hwrites hdrain =>
      apply Safe.drains _ _ _ hdrain
      · constructor <;> grind -linarith [Safe]
      · grind -linarith [Safe]
      · grind -linarith [Safe, Settled]
  | failed hwrite hwrites hdrain hclose =>
      have hdrained := Safe.drains (by constructor <;> grind -linarith [Safe])
        (by grind -linarith [Safe]) (by grind -linarith [Safe, Settled]) hdrain
      have hclosed := hdrained.closesOnce hclose
      have hrunning := hdrain.write_eq (by grind -linarith [Safe])
      have hrunning' := hclose.write_eq (by grind -linarith [Safe])
      constructor <;> grind -linarith [Safe]
  | staleRecv hread hrecvs => constructor <;> grind -linarith [Safe]
  | staleWrite hwrite hwrites =>
      exfalso
      cases hk : k.write <;> grind -linarith [Safe, WriteCo.tokens]
  | onCloseReturns hread hclose =>
      have := h.closesOnce hclose
      constructor <;> grind -linarith [Safe]
  | onWriteReturns hwrite hrun => exact h.runs hwrite hrun
  | submit hnotify => exact h.notifies hnotify
  | close hclose => exact h.closes hclose

/-! ### The count of SQEs in flight -/

/-- `Balanced k k'`: from `k` to `k'` at most a `writev` was prepared, and counted. -/
structure Balanced (k k' : Conn) : Prop where
  closed : k'.closed = k.closed
  closing : k'.token.closed = k.token.closed
  read : k'.read = k.read
  recvs : k'.recvs = k.recvs
  free : k'.free = k.free
  inFlight_le : k.inFlight ≤ k'.inFlight
  balance : k'.inFlight - k'.writes = k.inFlight - k.writes

theorem Runs.balanced {woken : Bool} (hrun : Runs woken k k') :
  Balanced k k'
  := by
  cases hrun with
  | finish _ _ => constructor <;> rfl
  | suspend _ => constructor <;> rfl
  | prepare _ _ => constructor <;> grind -linarith
  | throw _ => constructor <;> rfl

theorem Notifies.balanced (hnotify : Notifies k k') :
  Balanced k k'
  := by
  cases hnotify with
  | resume _ hrun => exact ⟨hrun.balanced.1, hrun.balanced.2, hrun.balanced.3, hrun.balanced.4,
      hrun.balanced.5, hrun.balanced.6, hrun.balanced.7⟩
  | mark _ => constructor <;> rfl

/-- A decrement lowers `in_flight_` by one, and releases the channel if it is closing and had
one SQE in flight. -/
theorem Drains.spec (hdrain : Drains k k') :
  k'.closed = k.closed ∧ k'.token.closed = k.token.closed ∧ k'.read = k.read
    ∧ k'.recvs = k.recvs ∧ k'.writes = k.writes ∧ k'.inFlight = k.inFlight - 1
    ∧ k'.free = if k.token.closed = true ∧ k.inFlight = 1 then k.free + 1 else k.free
  := by
  cases hdrain with
  | keep hkeep => grind -linarith
  | release hone hclosing hnotify =>
      have hdrained : ({ k with inFlight := 0 } : Conn).Drained := ⟨hclosing, le_rfl⟩
      obtain ⟨rfl, -⟩ | ⟨pending, rfl⟩ := hnotify.of_drained hdrained
      · grind -linarith
      · grind -linarith

/-- Closing marks the channel, and is otherwise balanced. -/
theorem Closes.spec (hclose : Closes k k') :
  k'.closed = true ∧ k'.token.closed = true ∧ k'.read = k.read ∧ k'.recvs = k.recvs
    ∧ k'.free = k.free ∧ k.inFlight ≤ k'.inFlight
    ∧ k'.inFlight - k'.writes = k.inFlight - k.writes
  := by
  obtain ⟨hnotify⟩ := hclose
  have := hnotify.balanced
  grind -linarith [Balanced]

/-- `in_flight_` is the number of outstanding SQEs, and an outstanding `recv` has a coroutine
that waits for it. -/
structure Exact (k : Conn) : Prop extends Safe k where
  armed : k.recvs = 1 → k.read = .awaiting
  inFlight_eq : k.inFlight = k.recvs + k.writes

/-- The completions of a `recv` come without `IORING_CQE_F_MORE`. -/
def SingleShot : Action → Prop
  | .recv _ more => more = false
  | _ => True

/-- A settled action without `IORING_CQE_F_MORE` keeps the count exact. -/
theorem Exact.step (h : Exact k) (hsettled : k.Settled a) (hsingle : SingleShot a)
    (hstep : Step k a k') :
  Exact k'
  := by
  have hsafe := h.toSafe.step hsettled hstep
  suffices hcount : (k'.recvs = 1 → k'.read = .awaiting) ∧ k'.inFlight = k'.recvs + k'.writes by
    exact ⟨hsafe, hcount.1, hcount.2⟩
  obtain ⟨hprev, harmed, hcount⟩ := h
  clear hsafe
  cases hstep with
  | assign hfree harm hrun =>
      have := hrun.balanced
      cases harm with
      | arm => grind -linarith [Safe, Balanced]
      | throw => grind -linarith [Safe, Balanced]
  | ended hread hrecvs hdrain => grind -linarith [Safe, SingleShot, hdrain.spec]
  | more hread hdrain => cases hsingle
  | rearm hread hrecvs hdrain harm =>
      have := hdrain.spec
      cases harm with
      | arm => grind -linarith [Safe]
      | throw => grind -linarith [Safe]
  | written hwrite hwrites hdrain => grind -linarith [hdrain.spec]
  | failed hwrite hwrites hdrain hclose =>
      have := hdrain.spec
      cases hclose with
      | skip _ => grind -linarith
      | close _ hclose => grind -linarith [hclose.spec]
  | staleRecv hread hrecvs => grind -linarith [Safe]
  | staleWrite hwrite hwrites =>
      exfalso
      cases hk : k.write <;> grind -linarith [Safe, WriteCo.tokens]
  | onCloseReturns hread hclose =>
      cases hclose with
      | skip _ => grind -linarith [Safe]
      | close _ hclose => grind -linarith [Safe, hclose.spec]
  | onWriteReturns hwrite hrun => grind -linarith [Balanced, hrun.balanced]
  | submit hnotify => grind -linarith [Balanced, hnotify.balanced]
  | close hclose => grind -linarith [hclose.spec]

/-! ### Closing channels wait for a completion -/

/-- A closing channel outside the free queue still has an SQE in flight, by its count and in
fact. -/
structure Kept (k : Conn) : Prop extends Safe k where
  armed : k.recvs = 1 → k.read = .awaiting
  inFlight_le : k.inFlight ≤ k.recvs + k.writes
  waiting : k.token.closed = true → k.free = 0 → 1 ≤ k.inFlight
  closing : k.closed = true → k.token.closed = true ∨ 0 < k.free

/-- A channel that starts to close has another SQE in flight by its count, and the end of a
stream comes without `IORING_CQE_F_MORE`. -/
def ClosesInFlight (k : Conn) : Action → Prop
  | .recv ended more => ended = true → more = false
  | .written failed => failed = true → k.token.closed = false → 1 < k.inFlight
  | .onCloseReturns => k.token.closed = false → 0 < k.inFlight
  | .close => k.token.closed = false → k.closed = false → 0 < k.inFlight
  | _ => True

/-- A settled action that starts to close a channel only with an SQE in flight keeps the
channel from being lost. -/
theorem Kept.step (h : Kept k) (hsettled : k.Settled a) (hcloses : k.ClosesInFlight a)
    (hstep : Step k a k') :
  Kept k'
  := by
  have hsafe := h.toSafe.step hsettled hstep
  suffices hkept : (k'.recvs = 1 → k'.read = .awaiting) ∧ k'.inFlight ≤ k'.recvs + k'.writes
      ∧ (k'.token.closed = true → k'.free = 0 → 1 ≤ k'.inFlight)
      ∧ (k'.closed = true → k'.token.closed = true ∨ 0 < k'.free) by
    exact ⟨hsafe, hkept.1, hkept.2.1, hkept.2.2.1, hkept.2.2.2⟩
  obtain ⟨hprev, harmed, hcount, hwaiting, hclosing⟩ := h
  clear hsafe
  cases hstep with
  | assign hfree harm hrun =>
      have := hrun.balanced
      cases harm with
      | arm => grind -linarith [Safe, Balanced]
      | throw => grind -linarith [Safe, Balanced]
  | ended hread hrecvs hdrain => grind -linarith [Safe, ClosesInFlight, hdrain.spec]
  | more hread hdrain => grind -linarith [Safe, hdrain.spec]
  | rearm hread hrecvs hdrain harm =>
      have := hdrain.spec
      cases harm with
      | arm => grind -linarith [Safe]
      | throw => grind -linarith [Safe]
  | written hwrite hwrites hdrain => grind -linarith [Safe, hdrain.spec]
  | failed hwrite hwrites hdrain hclose =>
      have := hdrain.spec
      cases hclose with
      | skip _ => grind -linarith [Safe]
      | close _ hclose => grind -linarith [Safe, ClosesInFlight, hclose.spec]
  | staleRecv hread hrecvs => grind -linarith [Safe]
  | staleWrite hwrite hwrites =>
      exfalso
      cases hk : k.write <;> grind -linarith [Safe, WriteCo.tokens]
  | onCloseReturns hread hclose =>
      cases hclose with
      | skip _ => grind -linarith [Safe]
      | close _ hclose => grind -linarith [Safe, ClosesInFlight, hclose.spec]
  | onWriteReturns hwrite hrun => grind -linarith [Balanced, hrun.balanced]
  | submit hnotify => grind -linarith [Balanced, hnotify.balanced]
  | close hclose => grind -linarith [Safe, ClosesInFlight, hclose.spec]

end Conn

end Proactor
