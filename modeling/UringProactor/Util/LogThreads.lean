import UringProactor.Util.LogSteps

/-!
# The buffers of a logging thread

For every place in the code of a thread, `LogThread.PcOk` says which of its two buffers the
thread may touch, given the buffers the backend holds, and that a record it is about to copy
fits.  Every step of the thread keeps this, and so does what the backend may do to a buffer it
holds.
-/

namespace Proactor

namespace LogThread

/-- The record a buffer is handed over for fits into it, unless `is_full` was found. -/
def Fits (th : LogThread) : FlushFor → Prop
  | .append r isFull => isFull = false → th.front.size + r.length ≤ LoggerBuffer.bufferSize
  | _ => True

/-- What holds at each place in the code of the thread `t`. -/
def PcOk (held : List BufId) (queue : TicketQueue Flush) (t : ℕ) (th : LogThread) : LogPc → Prop
  | .idle => th.front.inFlight = false
  | .loadBack f => th.allocated = true ∧ th.front.inFlight = false ∧ th.Fits f
  | .setFlag f => th.allocated = true ∧ th.front.inFlight = false ∧ th.back.inFlight = false
      ∧ th.Fits f
  | .enqueue f => (t, th.writeIdx) ∉ held ∧ th.front.inFlight = true
      ∧ th.back.inFlight = false ∧ th.Fits f
  | .clearFlag f => (t, th.writeIdx) ∉ held ∧ th.front.inFlight = true
      ∧ th.back.inFlight = false ∧ th.Fits f ∧ f ≠ .destroy
  | .publish _ ticket => queue.taken[ticket]?.map Flush.buf = some (t, th.writeIdx)
      ∧ ticket ∉ queue.published ∧ th.back.inFlight = false
      ∧ (th.front.inFlight = false → th.front.records = [])
  | .release _ => th.back.inFlight = false
      ∧ (th.front.inFlight = false → th.front.records = [])
  | .switch _ => th.back.inFlight = false
      ∧ (th.front.inFlight = false → th.front.records = [])
  | .copy r => th.front.inFlight = false
      ∧ (r.length ≤ LoggerBuffer.bufferSize →
        th.front.size + r.length ≤ LoggerBuffer.bufferSize)
  | .wait i => i = true → (th.bufs false).inFlight = false
  | .delete => ∀ i, (th.bufs i).inFlight = false
  | _ => True

/-- What holds of the thread `t` and its buffers. -/
structure Ok (held : List BufId) (queue : TicketQueue Flush) (t : ℕ) (th : LogThread) : Prop where
  /-- A thread without a `ThreadState` has no buffer in flight. -/
  gone : th.allocated = false → th.pc ≠ .close → th.pc ≠ .destroyed →
    ∀ i, (th.bufs i).inFlight = false
  /-- The buffer that is not the current one is in flight or empty. -/
  back : th.back.inFlight = false → th.back.records = []
  /-- At most one buffer is in flight. -/
  one : th.front.inFlight = true → th.back.inFlight = false
  pc : PcOk held queue t th th.pc

variable {held held' : List BufId} {queue queue' : TicketQueue Flush} {t : ℕ}
  {th th' : LogThread} {effect : LogEffect} {finished : Bool}

/-! ### The two buffers -/

theorem forall_bufs {p : LoggerBuffer → Prop} :
  (∀ i, p (th.bufs i)) ↔ p th.front ∧ p th.back
  := by
  rw [front, back]
  cases th.writeIdx <;> simp [and_comm]

@[simp]
theorem front_setFront (b : LoggerBuffer) :
  (th.setFront b).front = b
  := Function.update_self ..

@[simp]
theorem back_setFront (b : LoggerBuffer) :
  (th.setFront b).back = th.back
  := by
  simp [back, setFront]

theorem size_of_records_nil {b : LoggerBuffer} (h : b.records = []) :
  b.size = 0
  := by
  rw [LoggerBuffer.size, h]
  rfl

/-! ### Steps of a thread -/

/-- What holds of a thread depends on the buffers that are held only as far as its own are
not. -/
theorem Ok.mono (h : Ok held queue t th) (hheld : ∀ i, (t, i) ∈ held' → (t, i) ∈ held)
    (hticket : ∀ ticket f, th.pc = .publish f ticket →
      queue'.taken[ticket]? = queue.taken[ticket]? ∧ (ticket ∉ queue.published →
        ticket ∉ queue'.published)) :
  Ok held' queue' t th
  := by
  refine ⟨h.gone, h.back, h.one, ?_⟩
  have hpc := h.pc
  revert hpc hticket
  cases th.pc with
  | enqueue f =>
      intro _ hpc
      exact ⟨fun hmem => hpc.1 (hheld _ hmem), hpc.2⟩
  | clearFlag f =>
      intro _ hpc
      exact ⟨fun hmem => hpc.1 (hheld _ hmem), hpc.2⟩
  | publish f ticket =>
      intro hticket hpc
      obtain ⟨htaken, hpub⟩ := hticket ticket f rfl
      rw [PcOk, htaken]
      exact ⟨hpc.1, hpub hpc.2.1, hpc.2.2⟩
  | _ => exact fun _ => id

/-- Moving on without touching a buffer. -/
theorem Ok.goto {pc : LogPc} (h : Ok held queue t th) (hclose : th.pc ≠ .close)
    (hdestroyed : th.pc ≠ .destroyed) (hpc : PcOk held queue t th pc) :
  Ok held queue t { th with pc := pc }
  := by
  refine ⟨?_, h.back, h.one, hpc⟩
  intro hgone _ _
  apply h.gone hgone hclose hdestroyed

/-- Where a thread goes on when it keeps its current buffer. -/
theorem pcOk_whenBusy {f : FlushFor} (halloc : th.allocated = true)
    (hfront : th.front.inFlight = false) (hfits : th.Fits f) :
  PcOk held queue t th f.whenBusy
  := by
  cases f with
  | append r isFull =>
      cases isFull with
      | true => exact hfront
      | false => exact ⟨hfront, fun _ => hfits rfl⟩
  | exit => exact fun h => nomatch h
  | destroy => exact ⟨halloc, hfront, hfits⟩

/-- Where a thread goes on when the queue is full. -/
theorem pcOk_whenFull {f : FlushFor} (h : PcOk held queue t th (.enqueue f)) :
  PcOk held queue t th f.whenFull
  := by
  obtain ⟨hnot, hfront, hback, hfits⟩ := h
  cases f with
  | append r isFull => exact ⟨hnot, hfront, hback, hfits, nofun⟩
  | exit => exact ⟨hnot, hfront, hback, hfits, nofun⟩
  | destroy => exact ⟨hnot, hfront, hback, hfits⟩

/-- Where a thread goes on when its buffer is handed over. -/
theorem pcOk_whenQueued {f : FlushFor} (h : PcOk held queue t th (.release f)) :
  PcOk held queue t th f.whenQueued
  := by
  cases f with
  | append r isFull => exact h
  | exit => exact fun h => nomatch h
  | destroy => trivial

/-- A thread sets the flag of its current buffer. -/
theorem Ok.setFlag {f : FlushFor} (h : Ok held queue t th)
    (hflagged : ∀ i, (t, i) ∈ held → (th.bufs i).inFlight = true) (hpc : th.pc = .setFlag f) :
  Ok held queue t { th.setFront { th.front with inFlight := true } with pc := .enqueue f }
  := by
  have hok := h.pc
  rw [hpc] at hok
  obtain ⟨halloc, hfront, hback, hfits⟩ := hok
  have hnot : (t, th.writeIdx) ∉ held := by
    intro hmem
    have := hflagged _ hmem
    rw [front] at hfront
    simp [hfront] at this
  constructor
  case gone =>
    intro hgone
    rw [show th.allocated = false from hgone] at halloc
    cases halloc
  case back =>
    change (th.setFront _).back.inFlight = false → (th.setFront _).back.records = []
    rw [back_setFront]
    apply h.back
  case one =>
    change _ → (th.setFront _).back.inFlight = false
    rw [back_setFront]
    intro _
    apply hback
  case pc =>
    refine ⟨hnot, ?_, ?_, ?_⟩
    · change (th.setFront _).front.inFlight = true
      rw [front_setFront]
    · change (th.setFront _).back.inFlight = false
      rw [back_setFront]
      apply hback
    · revert hfits
      cases f with
      | append r isFull =>
          change (_ → th.front.size + _ ≤ _) → _ → (th.setFront _).front.size + _ ≤ _
          rw [front_setFront]
          exact id
      | _ => exact id

/-- A thread takes the flag of its current buffer back. -/
theorem Ok.clearFlag {f : FlushFor} (h : Ok held queue t th) (hpc : th.pc = .clearFlag f) :
  Ok held queue t { th.setFront { th.front with inFlight := false } with pc := f.whenRefused }
  := by
  have hok := h.pc
  rw [hpc] at hok
  obtain ⟨hnot, hfront, hback, hfits, hf⟩ := hok
  have halloc : th.allocated = true := by
    by_contra hgone
    have hflag := h.gone (Bool.eq_false_iff.mpr hgone) (by simp [hpc]) (by simp [hpc])
      th.writeIdx
    rw [front, hflag] at hfront
    cases hfront
  constructor
  case gone =>
    intro hgone
    rw [show th.allocated = false from hgone] at halloc
    cases halloc
  case back =>
    change (th.setFront _).back.inFlight = false → (th.setFront _).back.records = []
    rw [back_setFront]
    apply h.back
  case one =>
    change (th.setFront _).front.inFlight = true → _
    rw [front_setFront]
    intro hflag
    cases hflag
  case pc =>
    cases f with
    | append r isFull =>
        cases isFull with
        | true =>
            change (th.setFront _).front.inFlight = false
            rw [front_setFront]
        | false =>
            refine ⟨?_, ?_⟩
            · change (th.setFront _).front.inFlight = false
              rw [front_setFront]
            · change _ → (th.setFront _).front.size + _ ≤ _
              rw [front_setFront]
              exact fun _ => hfits rfl
    | exit => exact fun h => nomatch h
    | destroy => exact absurd rfl hf

/-- A thread goes over to its other buffer, which is empty. -/
theorem Ok.switch {r : Record} (h : Ok held queue t th) (hpc : th.pc = .switch r) :
  Ok held queue t { th with writeIdx := !th.writeIdx, pc := .copy r }
  := by
  have hok := h.pc
  rw [hpc] at hok
  obtain ⟨hback, hfront⟩ := hok
  have hother : th.bufs (!!th.writeIdx) = th.front := by rw [Bool.not_not]; rfl
  constructor
  case gone =>
    intro hgone _ _
    apply h.gone hgone (by simp [hpc]) (by simp [hpc])
  case back =>
    change (th.bufs (!!th.writeIdx)).inFlight = false → (th.bufs (!!th.writeIdx)).records = []
    rw [hother]
    apply hfront
  case one =>
    intro hflag
    change (th.bufs (!th.writeIdx)).inFlight = true at hflag
    change th.back.inFlight = true at hflag
    rw [hback] at hflag
    cases hflag
  case pc =>
    refine ⟨hback, ?_⟩
    change _ → th.back.size + r.length ≤ _
    rw [size_of_records_nil (h.back hback), Nat.zero_add]
    exact id

/-- A thread copies its record. -/
theorem Ok.copy {r : Record} (h : Ok held queue t th) (hpc : th.pc = .copy r) :
  Ok held queue t { th.setFront (th.front.append r) with pc := .idle }
  := by
  have hok := h.pc
  rw [hpc] at hok
  have hfront : (th.front.append r).inFlight = false := hok.1
  constructor
  case gone =>
    intro hgone _ _
    have hflags := h.gone hgone (by simp [hpc]) (by simp [hpc])
    rw [forall_bufs (p := fun b => b.inFlight = false)] at hflags ⊢
    change (th.setFront _).front.inFlight = false ∧ (th.setFront _).back.inFlight = false
    rw [front_setFront, back_setFront]
    exact ⟨hfront, hflags.2⟩
  case back =>
    change (th.setFront _).back.inFlight = false → (th.setFront _).back.records = []
    rw [back_setFront]
    apply h.back
  case one =>
    change (th.setFront _).front.inFlight = true → _
    rw [front_setFront, hfront]
    intro hflag
    cases hflag
  case pc =>
    change (th.setFront _).front.inFlight = false
    rw [front_setFront]
    apply hfront

/-- Every step of a thread keeps what holds of it, with the queue it leaves. -/
theorem Ok.advance (h : Ok held queue t th)
    (hflagged : ∀ i, (t, i) ∈ held → (th.bufs i).inFlight = true)
    (hsound : queue.Sound flushQueueCapacity)
    (hstep : Advances t queue finished th th' effect) :
  match effect with
  | .reserve f => ∀ held', Ok held' (queue.reserve f) t th'
  | .publish ticket => Ok held (queue.publish ticket) t th'
  | _ => Ok held queue t th'
  := by
  have hok := h.pc
  cases hstep with
  | busy hpc hback =>
      rw [hpc] at hok
      apply h.goto (by simp [hpc]) (by simp [hpc])
      apply pcOk_whenBusy hok.1 hok.2.1 hok.2.2
  | ready hpc hback =>
      rw [hpc] at hok
      apply h.goto (by simp [hpc]) (by simp [hpc])
      exact ⟨hok.1, hok.2.1, hback, hok.2.2⟩
  | setFlag hpc => exact h.setFlag hflagged hpc
  | full hpc hfull =>
      rw [hpc] at hok
      apply h.goto (by simp [hpc]) (by simp [hpc])
      apply pcOk_whenFull hok
  | @reserve f hpc hroom =>
      rw [hpc] at hok
      intro held'
      refine ⟨?_, h.back, h.one, ?_⟩
      · intro hgone _ _
        apply h.gone hgone (by simp [hpc]) (by simp [hpc])
      · refine ⟨?_, ?_, hok.2.2.1, ?_⟩
        · rw [TicketQueue.reserve, List.getElem?_concat_length]
          rfl
        · intro hmem
          exact Nat.lt_irrefl _ (hsound.published_lt _ hmem)
        · intro hflag
          change th.front.inFlight = false at hflag
          rw [hok.2.1] at hflag
          cases hflag
  | publish hpc =>
      rw [hpc] at hok
      refine ⟨?_, h.back, h.one, hok.2.2⟩
      intro hgone _ _
      apply h.gone hgone (by simp [hpc]) (by simp [hpc])
  | release hpc =>
      rw [hpc] at hok
      apply h.goto (by simp [hpc]) (by simp [hpc])
      apply pcOk_whenQueued hok
  | clearFlag hpc => exact h.clearFlag hpc
  | switch hpc => exact h.switch hpc
  | copy hpc => exact h.copy hpc
  | spin hpc hflag => exact h
  | @waited i hpc hflag =>
      rw [hpc] at hok
      apply h.goto (by simp [hpc]) (by simp [hpc])
      cases i with
      | false =>
          intro _
          apply hflag
      | true =>
          rintro (_ | _)
          · apply hok rfl
          · apply hflag
  | delete hpc =>
      rw [hpc] at hok
      exact ⟨fun _ _ _ => hok, h.back, h.one, hok _⟩
  | requestStop hpc => exact h.goto (by simp [hpc]) (by simp [hpc]) trivial
  | releaseStop hpc => exact h.goto (by simp [hpc]) (by simp [hpc]) trivial
  | join hpc hfinished => exact h.goto (by simp [hpc]) (by simp [hpc]) trivial
  | deleteMain hpc => exact ⟨fun _ hclose => absurd rfl hclose, h.back, h.one, trivial⟩
  | close hpc => exact ⟨fun _ _ hdestroyed => absurd rfl hdestroyed, h.back, h.one, trivial⟩

/-- No step of a thread touches a buffer of the thread that is held. -/
theorem Ok.bufs_eq (h : Ok held queue t th)
    (hflagged : ∀ i, (t, i) ∈ held → (th.bufs i).inFlight = true)
    (hstep : Advances t queue finished th th' effect) {i : Bool} (hi : (t, i) ∈ held) :
  th'.bufs i = th.bufs i
  := by
  have hok := h.pc
  have hset : ∀ b, (t, th.writeIdx) ∉ held → (th.setFront b).bufs i = th.bufs i := by
    intro b hnot
    apply Function.update_of_ne
    rintro rfl
    exact hnot hi
  have hfree : th.front.inFlight = false → (t, th.writeIdx) ∉ held := by
    intro hflag hmem
    have := hflagged _ hmem
    rw [front, this] at hflag
    cases hflag
  cases hstep with
  | setFlag hpc =>
      rw [hpc] at hok
      apply hset _ (hfree hok.2.1)
  | clearFlag hpc =>
      rw [hpc] at hok
      apply hset _ hok.1
  | copy hpc =>
      rw [hpc] at hok
      apply hset _ (hfree hok.1)
  | _ => rfl

/-- What the backend may do to a buffer: nothing, or empty it, when it is held and flagged. -/
def Emptied (held : List BufId) (b : BufId) (lb lb' : LoggerBuffer) : Prop :=
  lb' = lb ∨ b ∈ held ∧ lb.inFlight = true ∧ lb'.records = []

theorem Emptied.eq_of_unflagged {b : BufId} {lb lb' : LoggerBuffer} (h : Emptied held b lb lb')
    (hflag : lb.inFlight = false) :
  lb' = lb
  := by
  rcases h with heq | ⟨-, hflag', -⟩
  · exact heq
  · rw [hflag] at hflag'
    cases hflag'

theorem Emptied.flag_eq_false {b : BufId} {lb lb' : LoggerBuffer} (h : Emptied held b lb lb')
    (hflag : lb.inFlight = false) :
  lb'.inFlight = false
  := by
  rw [h.eq_of_unflagged hflag]
  apply hflag

theorem Emptied.records_nil {b : BufId} {lb lb' : LoggerBuffer} (h : Emptied held b lb lb')
    (hnil : lb.inFlight = false → lb.records = []) (hflag : lb'.inFlight = false) :
  lb'.records = []
  := by
  rcases h with rfl | ⟨-, -, hrecords⟩
  · apply hnil hflag
  · apply hrecords

theorem Emptied.flag_of_flag {b : BufId} {lb lb' : LoggerBuffer} (h : Emptied held b lb lb')
    (hflag : lb'.inFlight = true) :
  lb.inFlight = true
  := by
  rcases h with rfl | ⟨-, hflag', -⟩
  · apply hflag
  · apply hflag'

/-- What the backend may do to the buffers of a thread keeps what holds of the thread. -/
theorem Ok.emptied {bufs : Bool → LoggerBuffer} (h : Ok held queue t th)
    (hbufs : ∀ i, Emptied held (t, i) (th.bufs i) (bufs i))
    (hheld : ∀ i, (t, i) ∈ held' → (t, i) ∈ held) :
  Ok held' queue t { th with bufs := bufs }
  := by
  have hfront : Emptied held (t, th.writeIdx) th.front (bufs th.writeIdx) := hbufs _
  have hback : Emptied held (t, !th.writeIdx) th.back (bufs (!th.writeIdx)) := hbufs _
  have hkept : (t, th.writeIdx) ∉ held → bufs th.writeIdx = th.front := by
    intro hnot
    rcases hfront with heq | ⟨hmem, -⟩
    · exact heq
    · exact absurd hmem hnot
  have hfits : ∀ {f : FlushFor}, bufs th.writeIdx = th.front → th.Fits f →
      ({ th with bufs := bufs } : LogThread).Fits f := by
    intro f heq hf
    cases f with
    | append r isFull =>
        change _ → (bufs th.writeIdx).size + _ ≤ _
        rw [heq]
        apply hf
    | _ => trivial
  constructor
  case gone =>
    intro hgone hclose hdestroyed i
    apply (hbufs i).flag_eq_false (h.gone hgone hclose hdestroyed i)
  case back =>
    intro hflag
    apply hback.records_nil h.back hflag
  case one =>
    intro hflag
    apply hback.flag_eq_false (h.one (hfront.flag_of_flag hflag))
  case pc =>
    have hok := h.pc
    change PcOk held' queue t _ th.pc
    revert hok
    cases th.pc with
    | idle => exact fun hok => hfront.flag_eq_false hok
    | loadBack f =>
        intro hok
        refine ⟨hok.1, hfront.flag_eq_false hok.2.1, ?_⟩
        apply hfits (hfront.eq_of_unflagged hok.2.1) hok.2.2
    | setFlag f =>
        intro hok
        refine ⟨hok.1, hfront.flag_eq_false hok.2.1, hback.flag_eq_false hok.2.2.1, ?_⟩
        apply hfits (hfront.eq_of_unflagged hok.2.1) hok.2.2.2
    | enqueue f =>
        intro hok
        refine ⟨fun hmem => hok.1 (hheld _ hmem), ?_, hback.flag_eq_false hok.2.2.1,
          hfits (hkept hok.1) hok.2.2.2⟩
        change (bufs th.writeIdx).inFlight = true
        rw [hkept hok.1]
        apply hok.2.1
    | clearFlag f =>
        intro hok
        refine ⟨fun hmem => hok.1 (hheld _ hmem), ?_, hback.flag_eq_false hok.2.2.1,
          hfits (hkept hok.1) hok.2.2.2.1, hok.2.2.2.2⟩
        change (bufs th.writeIdx).inFlight = true
        rw [hkept hok.1]
        apply hok.2.1
    | publish f ticket =>
        intro hok
        exact ⟨hok.1, hok.2.1, hback.flag_eq_false hok.2.2.1, hfront.records_nil hok.2.2.2⟩
    | release f =>
        intro hok
        exact ⟨hback.flag_eq_false hok.1, hfront.records_nil hok.2⟩
    | switch r =>
        intro hok
        exact ⟨hback.flag_eq_false hok.1, hfront.records_nil hok.2⟩
    | copy r =>
        intro hok
        refine ⟨hfront.flag_eq_false hok.1, ?_⟩
        change _ → (bufs th.writeIdx).size + _ ≤ _
        rw [hfront.eq_of_unflagged hok.1]
        apply hok.2
    | wait i => exact fun hok hi => (hbufs _).flag_eq_false (hok hi)
    | delete => exact fun hok i => (hbufs i).flag_eq_false (hok i)
    | _ => exact id

/-! ### Calls -/

theorem Ok.withState (h : Ok held queue t th) :
  Ok held queue t th.withState
  := by
  rw [LogThread.withState]
  split
  case isTrue => exact h
  case isFalse =>
    constructor
    case gone => exact fun hgone => nomatch hgone
    case back => exact fun _ => rfl
    case one => exact fun _ => rfl
    case pc => rfl

theorem withState_pc (hpc : th.pc = .idle) :
  th.withState.pc = .idle
  := by
  rw [withState]
  split
  · exact hpc
  · rfl

theorem withState_allocated :
  th.withState.allocated = true
  := by
  rw [withState]
  split
  case isTrue halloc => exact halloc
  case isFalse => rfl

/-- A call of `append` leaves the buffers as they are, unless it makes new ones. -/
theorem bufs_append (r : Record) (late : Bool) :
  (th.append r late).bufs = th.bufs ∨ th.allocated = false
  := by
  cases halloc : th.allocated with
  | false =>
      right
      rfl
  | true =>
      left
      rw [append, withState, if_pos halloc]

/-- A call of `append`. -/
theorem Ok.append (h : Ok held queue t th) (hpc : th.pc = .idle) (r : Record) (late : Bool) :
  Ok held queue t (th.append r late)
  := by
  have hstate := h.withState
  have hidle := withState_pc hpc
  have hok := hstate.pc
  rw [hidle] at hok
  rcases th.append_cases r late with ⟨hfits, heq⟩ | ⟨isFull, hfits, heq⟩
  · rw [heq]
    exact hstate.goto (by simp [hidle]) (by simp [hidle]) ⟨hok, fun _ => hfits⟩
  · rw [heq]
    exact hstate.goto (by simp [hidle]) (by simp [hidle]) ⟨withState_allocated, hok, hfits⟩

/-- The start of `~ThreadFlushGuard`. -/
theorem Ok.exit (h : Ok held queue t th) (hpc : th.pc = .idle) :
  Ok held queue t th.exit
  := by
  have hok := h.pc
  rw [hpc] at hok
  rw [LogThread.exit]
  split
  case isFalse => exact h
  case isTrue halloc =>
    apply h.goto (by simp [hpc]) (by simp [hpc])
    split
    · exact fun h => nomatch h
    · exact ⟨halloc, hok, trivial⟩

/-- The start of `~Logger`. -/
theorem Ok.destroy (h : Ok held queue t th) (hpc : th.pc = .idle) :
  Ok held queue t th.destroy
  := by
  have hok := h.pc
  rw [hpc] at hok
  apply h.goto (by simp [hpc]) (by simp [hpc])
  split
  case isTrue hflush =>
    rw [Bool.and_eq_true] at hflush
    exact ⟨hflush.1, hok, trivial⟩
  case isFalse => trivial

end LogThread

end Proactor
