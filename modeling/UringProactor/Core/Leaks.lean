import UringProactor.Core.Armed

/-!
# Channels that never return

`tcp_read_loop` calls `in_flight_dec` for every completion of its `recv`, also for one with
`IORING_CQE_F_MORE`, after which the `recv` is still outstanding.  Nothing makes up for it later,
not even a new connection: in the runs in which no channel is released too early, `in_flight_` lags
behind the outstanding SQEs by the number of these completions.  A channel is released when
`in_flight_` reaches zero with no SQE left, so a channel that lags is never released.
-/

namespace Proactor

/-- How many completions with `IORING_CQE_F_MORE` the read coroutine gets by an action. -/
def Action.mores : Action → ℕ
  | .recv _ more => more.toNat
  | _ => 0

namespace Conn

variable {k k' : Conn} {a : Action}

/-- By how much `in_flight_` is less than the number of outstanding SQEs. -/
def lag (k : Conn) : Int := k.recvs + k.writes - k.inFlight

/-- A channel that lags is not in the free queue. -/
theorem Safe.free_eq_zero (h : Safe k) (hlag : k.lag ≠ 0) :
  k.free = 0
  := by
  by_contra hfree
  obtain ⟨hrecvs, hwrites, hinFlight⟩ := h.idle (Nat.pos_of_ne_zero hfree)
  apply hlag
  simp [lag, hrecvs, hwrites, hinFlight]

theorem Balanced.lag_eq (h : Balanced k k') :
  k'.lag = k.lag
  := by
  have hrecvs := h.recvs
  have hbalance := h.balance
  rw [lag, lag]
  omega

theorem Closes.lag_eq (hclose : Closes k k') :
  k'.lag = k.lag
  := by
  obtain ⟨-, -, -, hrecvs, -, -, hbalance⟩ := hclose.spec
  rw [lag, lag]
  omega

theorem ClosesOnce.lag_eq (hclose : ClosesOnce k k') :
  k'.lag = k.lag
  := by
  cases hclose with
  | skip _ => rfl
  | close _ hclose => apply hclose.lag_eq

theorem Drains.lag_eq (hdrain : Drains k k') :
  k'.lag = k.lag + 1
  := by
  obtain ⟨-, -, -, hrecvs, hwrites, hinFlight, -⟩ := hdrain.spec
  rw [lag, lag]
  omega

theorem Arms.lag_eq (harm : Arms k k') :
  k'.lag = k.lag
  := by
  cases harm with
  | arm =>
      simp only [lag]
      omega
  | throw => rfl

/-- Only a completion that leaves its SQE outstanding changes the lag. -/
theorem Armed.lag_step (h : Armed k) (hstep : Step k a k') :
  k'.lag = k.lag + a.mores
  := by
  cases hstep with
  | assign _ harm hrun =>
      have hrun := hrun.balanced.lag_eq
      have harm := harm.lag_eq
      simp only [lag, Action.mores] at *
      omega
  | @ended _ more n _ hrecvs hdrain =>
      have hdrain := hdrain.lag_eq
      cases more with
      | false =>
          rw [Bool.not_false, Bool.toNat_true] at hrecvs
          simp only [lag, Action.mores, Bool.toNat_false] at *
          omega
      | true =>
          rw [Bool.not_true, Bool.toNat_false] at hrecvs
          simp only [lag, Action.mores, Bool.toNat_true] at *
          omega
  | more _ hdrain => apply hdrain.lag_eq
  | rearm _ hrecvs hdrain harm =>
      have hdrain := hdrain.lag_eq
      have harm := harm.lag_eq
      simp only [lag, Action.mores, Bool.toNat_false] at *
      omega
  | written _ hwrites hdrain =>
      have hdrain := hdrain.lag_eq
      simp only [lag, Action.mores] at *
      omega
  | failed _ hwrites hdrain hclose =>
      have hdrain := hdrain.lag_eq
      have hclose := hclose.lag_eq
      simp only [lag, Action.mores] at *
      omega
  | staleRecv hread hrecvs =>
      cases (h.recvs_of_ne hread).symm.trans hrecvs
  | staleWrite hwrite hwrites =>
      have htokens := h.writes_eq.trans (WriteCo.tokens_of_ne hwrite)
      cases htokens.symm.trans hwrites
  | onCloseReturns _ hclose =>
      have hclose := hclose.lag_eq
      simp only [lag, Action.mores] at *
      omega
  | onWriteReturns _ hrun => simp [Action.mores, hrun.balanced.lag_eq]
  | submit hnotify => simp [Action.mores, hnotify.balanced.lag_eq]
  | close hclose => simp [Action.mores, hclose.lag_eq]

end Conn

/-! ### The monitor -/

/-- What the monitor keeps. -/
structure MoreRecord where
  /-- The completions with `IORING_CQE_F_MORE` that the read coroutine of a channel got. -/
  mores : ℕ → ℕ
  /-- Whether the present connection of a channel has got one. -/
  current : ℕ → Bool
  /-- The connections that have got one, by their channels. -/
  connections : List ℕ

/-- A worker with its monitor. -/
abbrev Leaking := Monitored Worker MoreRecord

namespace Leaking

open Worker

/-- The record after an event. -/
def observe (w : Worker) (g : MoreRecord) (e : Event) (_ : Bool) (_ : Worker) : MoreRecord :=
  match w.action e with
  | some (c, .assign) => { g with current := Function.update g.current c false }
  | some (c, .recv _ true) =>
      { mores := Function.update g.mores c (g.mores c + 1)
        current := Function.update g.current c true
        connections := if g.current c then g.connections else g.connections ++ [c] }
  | _ => g

/-- A step of the worker and its monitor. -/
def step (m : Leaking) (e : Event) : Option Leaking := Monitored.step stepResult observe m e

/-- No connection has received anything. -/
def start (w : Worker) : Leaking := ⟨w, fun _ => 0, fun _ => false, []⟩

variable {m m' : Leaking} {e : Event} {c : ℕ}

/-- Every channel lags by the completions that the monitor counted, and the connections that it
counted have different channels, which they still have. -/
structure Inv (m : Leaking) : Prop where
  armed : Worker.Inv Conn.Armed m.state
  lag : ∀ c < m.state.size, (m.state.view c).lag = m.record.mores c
  listed : ∀ c ∈ m.record.connections,
    c < m.state.size ∧ 0 < m.record.mores c ∧ m.record.current c = true
  nodup : m.record.connections.Nodup

/-- The channel of a connection that the monitor counted is not free. -/
theorem Inv.not_free (h : m.Inv) (hc : c ∈ m.record.connections) :
  (m.state.view c).free = 0
  := by
  obtain ⟨hsize, hmores, -⟩ := h.listed c hc
  apply (h.armed.holds c hsize).free_eq_zero
  rw [h.lag c hsize]
  exact_mod_cast hmores.ne'

/-- The record counts the completions of the channel that acts. -/
theorem observe_mores {w w' : Worker} {g : MoreRecord} {ok : Bool} {a : Action}
    (haction : w.action e = some (c, a)) :
  (observe w g e ok w').mores = Function.update g.mores c (g.mores c + a.mores)
  := by
  rw [observe, haction]
  cases a with
  | recv ended more => cases more <;> simp [Action.mores]
  | _ => simp [Action.mores]

/-- The channel that acts lags by one more completion, if it gets one. -/
theorem Inv.lag_moves {w' : Worker} {a : Action} (h : m.Inv) (hmoves : Moves m.state c a w')
    (d : ℕ) (hd : d < m.state.size) :
  (w'.view d).lag = Function.update m.record.mores c (m.record.mores c + a.mores) d
  := by
  by_cases hdc : d = c
  · subst hdc
    rw [Function.update_self, (h.armed.holds d hd).lag_step hmoves.step, h.lag d hd]
    push_cast
    rfl
  · rw [Function.update_of_ne hdc, hmoves.view_eq hdc]
    apply h.lag d hd

/-- A channel that gets a completion is listed rightly, and the others stay so. -/
theorem Inv.listed_recv (h : m.Inv) (hc : c < m.state.size) (d : ℕ)
    (hd : d ∈ m.record.connections ++ [c]) :
  d < m.state.size
    ∧ 0 < Function.update m.record.mores c (m.record.mores c + 1) d
    ∧ Function.update m.record.current c true d = true
  := by
  by_cases hdc : d = c
  · subst hdc
    rw [Function.update_self, Function.update_self]
    exact ⟨hc, Nat.succ_pos _, rfl⟩
  · rw [Function.update_of_ne hdc, Function.update_of_ne hdc]
    apply h.listed d
    simpa [hdc] using hd

/-- The record lists the channel that acts if its connection gets its first completion; a channel
that is listed gets no new connection. -/
theorem Inv.listed_moves {w' : Worker} {a : Action} {ok : Bool} (h : m.Inv)
    (hadmits : m.state.Admits e) (haction : m.state.action e = some (c, a))
    (hmoves : Moves m.state c a w') :
  let g := observe m.state m.record e ok w'
  (∀ d ∈ g.connections, d < m.state.size ∧ 0 < g.mores d ∧ g.current d = true)
    ∧ g.connections.Nodup
  := by
  have hc := h.armed.lt_size_of_moves hadmits haction hmoves
  dsimp only
  rw [observe, haction]
  cases a with
  | assign =>
      constructor
      · intro d hd
        have hne : d ≠ c := by
          rintro rfl
          cases hmoves.step with
          | assign hfree _ _ => exact hfree.ne' (h.not_free hd)
        change _ ∧ _ ∧ Function.update m.record.current c false d = true
        rw [Function.update_of_ne hne]
        apply h.listed d hd
      · apply h.nodup
  | recv ended more =>
      cases more with
      | false => exact ⟨h.listed, h.nodup⟩
      | true =>
          have hlisted := h.listed_recv hc
          dsimp only
          split
          case isTrue hcurrent =>
            constructor
            · intro d hd
              apply hlisted d (List.mem_append_left _ hd)
            · apply h.nodup
          case isFalse hcurrent =>
            constructor
            · apply hlisted
            · rw [← List.concat_eq_append]
              apply List.Nodup.concat _ h.nodup
              intro hmem
              exact hcurrent (h.listed c hmem).2.2
  | _ => exact ⟨h.listed, h.nodup⟩

/-- Every step keeps the invariant. -/
theorem Inv.step (h : m.Inv) (hruns : m.state.Runs Delivered e) (hstep : m.step e = some m') :
  m'.Inv
  := by
  obtain ⟨hadmits, hdelivered⟩ := hruns
  obtain ⟨ok, hresult, hrecord⟩ := Monitored.step_eq_some hstep
  have hstep' : m.state.step e = some m'.state := congrArg (Option.map Prod.snd) hresult
  have hsafe : ∀ k, Conn.Armed k → Conn.Safe k := fun _ hk => hk.toSafe
  have hsize := h.armed.size_step hsafe hadmits hstep'
  have harmed : Worker.Inv Conn.Armed m'.state := by
    apply h.armed.step hsafe _ hadmits hdelivered hstep'
    intro k k' a hk hok hstep
    exact hk.step hok.1 hok.2 hstep
  have hsim := step_simulates h.armed.located hadmits (fun c => h.armed.room hsafe) hstep'
  rw [Simulates] at hsim
  cases haction : m.state.action e with
  | none =>
      have hsame : m'.record = m.record := by rw [hrecord, observe, haction]
      simp only [haction] at hsim
      refine ⟨harmed, ?_, ?_, ?_⟩
      · intro c hc
        rw [hsim.view, hsame]
        apply h.lag c (hsize ▸ hc)
      · rw [hsize, hsame]
        apply h.listed
      · rw [hsame]
        apply h.nodup
  | some x =>
      obtain ⟨c, a⟩ := x
      simp only [haction] at hsim
      obtain ⟨hlisted, hnodup⟩ := h.listed_moves hadmits haction hsim
      rw [← hrecord] at hlisted hnodup
      refine ⟨harmed, ?_, ?_, hnodup⟩
      · intro d hd
        rw [hrecord, observe_mores haction]
        apply h.lag_moves hsim d (hsize ▸ hd)
      · rw [hsize]
        apply hlisted

theorem inv_start (depth : ℕ) (bufRing : BufRing) (bufPool : BufPool) (poolBits capBits : Fin 31) :
  (start (Worker.start depth bufRing bufPool poolBits capBits)).Inv
  := by
  constructor
  · apply start_inv
    exact ⟨by constructor <;> decide, fun _ => rfl⟩
  · intro c hc
    change ((Worker.start depth bufRing bufPool poolBits capBits).view c).lag = 0
    rw [start_view]
    rfl
  · intro c hc
    cases hc
  · apply List.nodup_nil

end Leaking

namespace Worker

section

variable (depth : ℕ) (bufRing : BufRing) (bufPool : BufPool) (poolBits capBits : Fin 31)

/-- Connections that receive with `IORING_CQE_F_MORE` use up the pool.  In every run in which no
channel is released while an SQE of it is outstanding, and in which a stream ends with the last
completion of its `recv`: `in_flight_` of every channel is less than the number of its outstanding
SQEs by exactly the completions with `IORING_CQE_F_MORE` that it ever got; the connections that got
one have different channels, none of which is free again, whatever became of the connection; so
there are at most as many of them as channels, and only the others are left to be acquired. -/
theorem more_completions_use_up_pool {m : Leaking}
    (h : Reaches Leaking.step (fun m e => m.state.Runs Delivered e)
      (Leaking.start (start depth bufRing bufPool poolBits capBits)) m) :
  (∀ c < m.state.size,
      (m.state.channels c).inFlight + m.record.mores c = m.state.outstanding c)
    ∧ m.record.connections.Nodup
    ∧ (∀ c ∈ m.record.connections, c ∉ m.state.thread.channelPool.freeList)
    ∧ m.record.connections.length + m.state.thread.channelPool.freeList.length
      ≤ 2 ^ poolBits.val
  := by
  obtain ⟨hinv, hsize⟩ : m.Inv ∧ m.state.size = 2 ^ poolBits.val := by
    apply h.invariant (I := fun m => m.Inv ∧ m.state.size = 2 ^ poolBits.val)
    · exact ⟨Leaking.inv_start depth bufRing bufPool poolBits capBits, rfl⟩
    · rintro m m' e ⟨hinv, hsize⟩ hruns hstep
      obtain ⟨ok, hresult, -⟩ := Monitored.step_eq_some hstep
      have hstep' : m.state.step e = some m'.state := congrArg (Option.map Prod.snd) hresult
      use hinv.step hruns hstep
      rw [← hsize]
      apply hinv.armed.size_step (fun _ hk => hk.toSafe) hruns.1 hstep'
  have hfree : ∀ c ∈ m.record.connections, c ∉ m.state.thread.channelPool.freeList := by
    intro c hc
    apply List.count_eq_zero.mp (hinv.not_free hc)
  refine ⟨?_, hinv.nodup, hfree, ?_⟩
  · intro c hc
    have hlag : (m.state.thread.ioRing.outstanding (.read c) : Int)
        + m.state.thread.ioRing.outstanding (.write c) - (m.state.channels c).inFlight
        = m.record.mores c := hinv.lag c hc
    rw [outstanding]
    omega
  · obtain ⟨hnodup, hlt⟩ := hinv.armed.free_nodup (fun _ hk => hk.toSafe)
    rw [← hsize, ← List.length_append]
    apply Ownership.length_le_of_nodup
    · apply hinv.nodup.append hnodup
      intro c hc hmem
      apply hfree c hc hmem
    · intro c hc
      rcases List.mem_append.mp hc with hc | hc
      · exact (hinv.listed c hc).1
      · exact hlt c hc

end

/-- A connection receives one byte and ends: its descriptor is closed and no SQE is left, but the
only channel of the pool is not free, and the next connection is refused. -/
theorem more_completions_use_up_pool_one_byte :
  ∃ m, Reaches Leaking.step (fun m e => m.state.Runs Delivered e) (Leaking.start tiny) m
    ∧ (m.state.channels 0).fd = -1 ∧ m.state.outstanding 0 = 0 ∧ m.record.mores 0 = 1
    ∧ (m.state.channels 0).inFlight = -1 ∧ m.state.thread.channelPool.freeList = []
  := by
  obtain ⟨m, hreach, hfd, hout, hmores, hconnections, hsize⟩ : ∃ m,
      Reaches Leaking.step (fun m e => m.state.Runs Delivered e) (Leaking.start tiny) m
      ∧ (m.state.channels 0).fd = -1 ∧ m.state.outstanding 0 = 0 ∧ m.record.mores 0 = 1
      ∧ m.record.connections = [0] ∧ 0 < m.state.size := by
    apply Reaches.exists_of_follow (accepted ++ [.complete 2 1 true 0 [7], .batchDone, .ret,
      .submit, .complete 2 0 false 0 [], .ret, .complete 0 6 true 0 []])
    decide +kernel
  obtain ⟨hcount, -, -, hlength⟩ := more_completions_use_up_pool _ _ _ _ _ hreach
  have hcount := hcount 0 hsize
  rw [hout, hmores] at hcount
  rw [hconnections, List.length_singleton] at hlength
  refine ⟨m, hreach, hfd, hout, hmores, by omega, ?_⟩
  apply List.length_eq_zero_iff.mp
  change 1 + _ ≤ 1 at hlength
  omega

end Worker


end Proactor
