import UringProactor.Core.Simulation
import UringProactor.Net.Protocol
import UringProactor.Prelude.Ownership

/-!
# Invariants of a worker

An invariant of the lifecycle that implies `Conn.Safe` is an invariant of the worker: it
holds of the view of every channel in every state reached by events whose actions keep it.
-/

namespace Proactor

/-- A channel outside the pool: never used. -/
structure Conn.Unused (k : Conn) : Prop where
  inFlight : k.inFlight = 0
  read : k.read = .unstarted
  write : k.write = .unstarted
  recvs : k.recvs = 0
  writes : k.writes = 0
  free : k.free = 0

/-- A new channel of the pool, in the free queue. -/
def Conn.fresh : Conn := ⟨true, {}, 0, .unstarted, .unstarted, 0, 0, 1⟩

/-- Only the application can act on a channel that was never used. -/
theorem Conn.Step.not_unused {k k' : Conn} {a : Action} (hstep : Step k a k')
    (hsubmit : a ≠ .submit) (hclose : a ≠ .close) :
  ¬ k.Unused
  := by
  intro hunused
  cases hstep <;> grind -linarith [Conn.Unused]

namespace Worker

variable {w w' : Worker} {c : ℕ} {e : Event} {P : Conn → Prop} {ok : Conn → Action → Prop}

/-- The invariant `P` of the lifecycle holds of all channels of the pool, control is where
the coroutines run, and no channel outside the pool is used. -/
structure Inv (P : Conn → Prop) (w : Worker) : Prop where
  located : w.Located
  unused : ∀ c, w.size ≤ c → (w.view c).Unused
  holds : ∀ c, c < w.size → P (w.view c)

/-- The action of an event meets the condition `ok` in the state before it. -/
def Meets (ok : Conn → Action → Prop) (w : Worker) (e : Event) : Prop :=
  match w.action e with
  | none => True
  | some (c, a) => ok (w.view c) a

/-- The free queue holds different channels of the pool. -/
theorem Inv.free_nodup (h : Inv P w) (hsafe : ∀ k, P k → Conn.Safe k) :
  w.thread.channelPool.freeList.Nodup ∧ ∀ c ∈ w.thread.channelPool.freeList, c < w.size
  := by
  constructor
  · apply List.nodup_iff_count_le_one.mpr
    intro c
    change (w.view c).free ≤ 1
    by_cases hc : c < w.size
    · exact (hsafe _ (h.holds c hc)).free_le
    · rw [(h.unused c (by omega)).free]
      omega
  · intro c hmem
    by_contra hc
    have hpos : 0 < (w.view c).free := List.count_pos_iff.mpr hmem
    rw [(h.unused c (by omega)).free] at hpos
    omega

/-- A channel with an SQE in flight finds room in the free queue. -/
theorem Inv.room (h : Inv P w) (hsafe : ∀ k, P k → Conn.Safe k) (hone : (w.view c).inFlight = 1) :
  w.thread.channelPool.freeList.length < w.size
  := by
  obtain ⟨hnodup, hlt⟩ := h.free_nodup hsafe
  have hc : c < w.size := by
    by_contra hc
    rw [(h.unused c (by omega)).inFlight] at hone
    omega
  have hfree : c ∉ w.thread.channelPool.freeList := by
    intro hmem
    have hpos : 0 < (w.view c).free := List.count_pos_iff.mpr hmem
    have := ((hsafe _ (h.holds c hc)).idle hpos).2.2
    omega
  have hcons := Ownership.length_le_of_nodup (List.nodup_cons.mpr ⟨hfree, hnodup⟩) (by
    intro i hi
    cases hi with
    | head => exact hc
    | tail _ hi => exact hlt i hi)
  rwa [List.length_cons] at hcons

theorem size_eq_of_bits (h : w'.thread.channelPool.bits = w.thread.channelPool.bits) :
  w'.size = w.size
  := by
  rw [size, size, TcpChannelPool.size, TcpChannelPool.size, h]

/-- The views after an action. -/
theorem Moves.view_eq {a : Action} (h : Moves w c a w') {d : ℕ} (hd : d ≠ c) :
  w'.view d = w.view d
  := by
  rw [view, h.channels d hd, h.keeps.view_eq hd]
  rfl

/-- An action moves control with the coroutines. -/
theorem Located.moves {a : Action} (h : w.Located) (hmoves : Moves w c a w')
    (hhandle : (w.view c).token.handle = true → (w.view c).write = .onNotify) :
  w'.Located
  := by
  obtain ⟨hread, hwrite⟩ := hmoves.step.running_iff hhandle
  have hctl := hmoves.ctl
  have hallowed := hmoves.allowed
  constructor
  · intro d
    by_cases hd : d = c
    · rw [hd, hread, hctl]
      have := h.read c
      cases a <;> grind -linarith [Action.ReadRuns, after, Allows]
    · rw [hmoves.view_eq hd, h.read d, hctl]
      cases a <;> grind -linarith [after, Allows]
  · intro d
    by_cases hd : d = c
    · rw [hd, hwrite, hctl]
      have := h.write c
      cases a <;> grind -linarith [Action.WriteRuns, after, Allows]
    · rw [hmoves.view_eq hd, h.write d, hctl]
      cases a <;> grind -linarith [after, Allows]

/-- What no channel sees leaves control where the coroutines run. -/
theorem Located.stays (h : w.Located) (hstays : Stays w w') :
  w'.Located
  := by
  constructor
  · intro c
    rw [hstays.view, h.read c]
    obtain hctl | ⟨hout, hout'⟩ := hstays.ctl
    · rw [hctl]
    · exact iff_of_false (hout c).1 (hout' c).1
  · intro c
    rw [hstays.view, h.write c]
    obtain hctl | ⟨hout, hout'⟩ := hstays.ctl
    · rw [hctl]
    · exact iff_of_false (hout c).2 (hout' c).2

/-- Submitting and closing are calls of the application. -/
theorem app_of_action {a : Action} (haction : w.action e = some (c, a))
    (ha : a = .submit ∨ a = .close) :
  ∃ op, e = .app c op
  := by
  cases e with
  | submit => simp [action] at haction
  | batchDone => simp [action] at haction
  | complete i res more idx data =>
      cases hacquire : w.thread.channelPool.acquire <;> grind -linarith [action]
  | ret => grind -linarith [action]
  | app d op => cases op <;> grind -linarith [action]

/-- Actions are on channels of the pool. -/
theorem Inv.lt_size_of_moves {a : Action} (h : Inv P w) (hadmits : w.Admits e)
    (haction : w.action e = some (c, a)) (hmoves : Moves w c a w') :
  c < w.size
  := by
  by_contra hc
  have hunused := h.unused c (Nat.le_of_not_lt hc)
  by_cases ha : a = .submit ∨ a = .close
  · obtain ⟨op, rfl⟩ := app_of_action haction ha
    exact hc hadmits
  · rw [not_or] at ha
    exact hmoves.step.not_unused ha.1 ha.2 hunused

/-- An event whose action keeps an invariant of the lifecycle keeps it for the worker. -/
theorem Inv.step (hsafe : ∀ k, P k → Conn.Safe k)
    (hkeep : ∀ k k' a, P k → ok k a → Conn.Step k a k' → P k')
    (h : Inv P w) (hadmits : w.Admits e) (hok : w.Meets ok e) (hstep : w.step e = some w') :
  Inv P w'
  := by
  have hsim := step_simulates h.located hadmits (fun c => h.room hsafe) hstep
  rw [Simulates] at hsim
  cases haction : w.action e with
  | none =>
      simp only [haction] at hsim
      have hsize := size_eq_of_bits hsim.bits
      refine ⟨h.located.stays hsim, ?_, ?_⟩
      · intro c hc
        rw [hsim.view]
        exact h.unused c (hsize ▸ hc)
      · intro c hc
        rw [hsim.view]
        exact h.holds c (hsize ▸ hc)
  | some x =>
      obtain ⟨c, a⟩ := x
      simp only [haction] at hsim
      have hsize := size_eq_of_bits hsim.keeps.bits
      have hc := h.lt_size_of_moves hadmits haction hsim
      refine ⟨h.located.moves hsim (hsafe _ (h.holds c hc)).handle_iff.mp, ?_, ?_⟩
      · intro d hd
        have hdc : d ≠ c := by omega
        rw [hsim.view_eq hdc]
        exact h.unused d (hsize ▸ hd)
      · intro d hd
        by_cases hdc : d = c
        · rw [hdc]
          rw [Meets, haction] at hok
          exact hkeep _ _ a (h.holds c hc) hok hsim.step
        · rw [hsim.view_eq hdc]
          exact h.holds d (hsize ▸ hd)

/-! ### From the start -/

section

variable (depth : ℕ) (bufRing : BufRing) (bufPool : BufPool) (poolBits capBits : Fin 31)

/-- At the start, all channels are free. -/
theorem start_freeList :
  (start depth bufRing bufPool poolBits capBits).thread.channelPool.freeList
    = List.range (start depth bufRing bufPool poolBits capBits).size
  := by
  have hbits : poolBits.val < 32 := by omega
  have hpush := Circular.toList_foldl_push (k := poolBits.val) (q := ⟨fun _ => 0, 0, 0⟩)
    (l := List.range (2 ^ poolBits.val)) hbits (by simp [Circular.size])
  exact hpush

/-- At the start, the channels of the pool are new and all others unused. -/
theorem start_view (c : ℕ) :
  (start depth bufRing bufPool poolBits capBits).view c
    = { Conn.fresh with
        free := if c < (start depth bufRing bufPool poolBits capBits).size then 1 else 0 }
  := by
  simp only [view, TcpChannel.view, start_freeList, List.count_range]
  rfl

/-- An invariant of the lifecycle that holds of a new channel holds of all channels at the
start. -/
theorem start_inv (hfresh : P Conn.fresh) :
  Inv P (start depth bufRing bufPool poolBits capBits)
  := by
  constructor
  · constructor
    · intro c
      rw [start_view]
      exact iff_of_false nofun nofun
    · intro c
      rw [start_view]
      exact iff_of_false nofun nofun
  · intro c hc
    rw [start_view, if_neg (by omega)]
    constructor <;> rfl
  · intro c hc
    rw [start_view, if_pos hc]
    exact hfresh

/-- The invariant holds in every state reached by events whose actions keep it. -/
theorem reaches_inv (hsafe : ∀ k, P k → Conn.Safe k)
    (hkeep : ∀ k k' a, P k → ok k a → Conn.Step k a k' → P k') (hfresh : P Conn.fresh)
    (h : Reaches step (fun w e => w.Admits e ∧ w.Meets ok e)
      (start depth bufRing bufPool poolBits capBits) w) :
  Inv P w
  := by
  apply h.invariant (start_inv depth bufRing bufPool poolBits capBits hfresh)
  intro w w' e hinv hok hstep
  exact hinv.step hsafe hkeep hok.1 hok.2 hstep

end

end Worker

end Proactor
