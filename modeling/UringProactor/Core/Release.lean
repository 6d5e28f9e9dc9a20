import UringProactor.Core.Invariant

/-!
# Release and reuse of channels

A channel that is released while one of its coroutines still waits is handed to the next
connection with that coroutine alive; a channel that is never released is lost.  The worker
is safe from the first as long as the actions on its channels are `Settled`, and from the
second as long as channels also start to close only with an SQE in flight.  Neither is
guaranteed: a multishot `recv` is counted once in `in_flight_` and uncounted at each of its
completions, and `in_flight_dec` looks whether the channel is closing before `on_close` and
`close()` can make it so.
-/

namespace Proactor

namespace TcpChannel

/-- A coroutine of the channel has started and not finished. -/
def Live (ch : TcpChannel) : Prop :=
  ¬ (ch.readCo = .unstarted ∨ ch.readCo = .finished)
    ∨ ¬ (ch.writeCo = .unstarted ∨ ch.writeCo = .finished)

instance (ch : TcpChannel) : Decidable ch.Live := inferInstanceAs (Decidable (_ ∨ _))

end TcpChannel

instance (k : Conn) (a : Action) : Decidable (k.Settled a) :=
  match a with
  | .recv _ _ => inferInstanceAs (Decidable (_ → _ → _))
  | .written _ => inferInstanceAs (Decidable (_ → _ → _))
  | .assign => inferInstanceAs (Decidable True)
  | .staleRecv => inferInstanceAs (Decidable True)
  | .staleWrite => inferInstanceAs (Decidable True)
  | .onCloseReturns => inferInstanceAs (Decidable True)
  | .onWriteReturns => inferInstanceAs (Decidable True)
  | .submit => inferInstanceAs (Decidable True)
  | .close => inferInstanceAs (Decidable True)

namespace Worker

variable {w w' : Worker} {c : ℕ} {e : Event}

instance (ok : Conn → Action → Prop) [∀ k a, Decidable (ok k a)] (w : Worker) (e : Event) :
    Decidable (w.Meets ok e) :=
  match h : w.action e with
  | none => isTrue (by rw [Meets, h]; trivial)
  | some (c, a) => decidable_of_iff (ok (w.view c) a) (by rw [Meets, h])

/-- Control is in the event loop, between completions. -/
def InLoop (w : Worker) : Prop := w.ctl = .poll ∨ w.ctl = .batch

instance (w : Worker) : Decidable w.InLoop := inferInstanceAs (Decidable (_ ∨ _))

/-- The outstanding SQEs of the channel `c`. -/
def outstanding (w : Worker) (c : ℕ) : ℕ :=
  w.thread.ioRing.outstanding (.read c) + w.thread.ioRing.outstanding (.write c)

/-- The events of a run: those that can happen and meet the condition `ok`. -/
def Runs (ok : Conn → Action → Prop) (w : Worker) (e : Event) : Prop :=
  w.Admits e ∧ w.Meets ok e

instance (ok : Conn → Action → Prop) [∀ k a, Decidable (ok k a)] (w : Worker) (e : Event) :
    Decidable (w.Runs ok e) :=
  inferInstanceAs (Decidable (_ ∧ _))

/-- Only completions have to be settled. -/
theorem meets_settled (hcomplete : ∀ i res more idx data, e ≠ .complete i res more idx data) :
  w.Meets Conn.Settled e
  := by
  rw [Meets]
  split
  case h_1 => trivial
  case h_2 c a haction =>
    cases e with
    | complete i res more idx data => exact absurd rfl (hcomplete i res more idx data)
    | ret =>
        rw [action] at haction
        split at haction <;> cases haction <;> trivial
    | app d op =>
        cases op with
        | submit =>
            rw [action] at haction
            split at haction <;> cases haction
            trivial
        | close =>
            cases haction
            trivial
        | _ => cases haction
    | _ => cases haction

/-! ### No channel is reused while busy -/

/-- In the event loop, a free channel of a safe worker is at rest. -/
theorem Inv.rest_of_free (h : Inv Conn.Safe w) (hloop : w.InLoop)
    (hc : c ∈ w.thread.channelPool.freeList) :
  w.outstanding c = 0 ∧ ¬ (w.channels c).Live
  := by
  have hlt := (h.free_nodup (fun _ hk => hk)).2 c hc
  have hsafe := h.holds c hlt
  have hfree : 0 < (w.view c).free := List.count_pos_iff.mpr hc
  obtain ⟨hrecvs, hwrites, -⟩ := hsafe.idle hfree
  have hread : (w.view c).read ≠ .running := by
    rw [Ne, h.located.read c]
    obtain hctl | hctl := hloop <;> simp [hctl]
  have hwrite : (w.view c).write ≠ .running := by
    rw [Ne, h.located.write c]
    obtain hctl | hctl := hloop <;> simp [hctl]
  have hnotify := hsafe.resting hfree
  have htoken := hsafe.writes_eq
  have hawaiting := hsafe.awaiting
  constructor
  · change (w.view c).recvs + (w.view c).writes = 0
    omega
  · rintro (hlive | hlive)
    · cases hco : (w.view c).read with
      | unstarted => exact hlive (.inl hco)
      | awaiting => grind -linarith
      | running => exact hread hco
      | finished => exact hlive (.inr hco)
    · cases hco : (w.view c).write with
      | unstarted => exact hlive (.inl hco)
      | onNotify => exact hnotify hco
      | onToken submittedBytes => grind -linarith
      | running => exact hwrite hco
      | finished => exact hlive (.inr hco)

section

variable (depth : ℕ) (bufRing : BufRing) (bufPool : BufPool) (poolBits capBits : Fin 31)

/-- In every run whose actions are settled, no channel is in the free queue twice, and in the
event loop no channel in the free queue has an outstanding SQE or a live coroutine; so no
accept assigns a connection to a channel with a live coroutine. -/
theorem free_channels_at_rest
    (h : Reaches step (Runs Conn.Settled) (start depth bufRing bufPool poolBits capBits) w) :
  w.thread.channelPool.freeList.Nodup
    ∧ (w.InLoop → ∀ c ∈ w.thread.channelPool.freeList,
        w.outstanding c = 0 ∧ ¬ (w.channels c).Live)
    ∧ ∀ e w' c, w.Admits e → w.step e = some w' → w.action e = some (c, .assign) →
        ¬ (w.channels c).Live
  := by
  have hinv : Inv Conn.Safe w := by
    apply reaches_inv depth bufRing bufPool poolBits capBits (fun _ hk => hk) _ _ h
    · intro k k' a hk hok hstep
      exact hk.step hok hstep
    · constructor <;> decide
  refine ⟨(hinv.free_nodup (fun _ hk => hk)).1, ?_, ?_⟩
  · intro hloop c hc
    exact hinv.rest_of_free hloop hc
  · intro e w' c hadmits hstep haction
    have hsim := step_simulates hinv.located hadmits (fun c => hinv.room (fun _ hk => hk)) hstep
    rw [Simulates, haction] at hsim
    obtain ⟨hfree, -, -⟩ := hsim.step
    apply (hinv.rest_of_free (.inr hsim.allowed) (List.count_pos_iff.mp hfree)).2

end

/-! ### The smallest worker -/

theorem tiny_alloc_lt :
  2 ^ 0 * 1 < 2 ^ 31
  := by
  decide

theorem tiny_bits_le :
  0 ≤ 30
  := by
  decide

theorem tiny_bufSize_lt :
  1 < 2 ^ 31
  := by
  decide

/-- A worker with one channel, one provided buffer and one write block of one byte each. -/
def tiny : Worker :=
  start 8 (BufRing.new 0 1 Nat.one_pos tiny_alloc_lt)
    ⟨0, tiny_bits_le, 1, Nat.one_pos, tiny_bufSize_lt, fun _ => 0, fun _ => 0, ⟨fun _ => 0, 0, 1⟩⟩
    0 0

/-- A connection is accepted, and the batch ends. -/
def accepted : List Event :=
  [.submit, .complete 0 5 true 0 [], .ret, .batchDone, .submit]

/-- A connection is accepted and closed by the application, and its `recv` ends: the channel
is free again, and at rest. -/
theorem free_channels_at_rest_closed :
  ∃ w, Reaches step (Runs Conn.Settled) tiny w
    ∧ w.thread.channelPool.freeList = [0] ∧ w.outstanding 0 = 0 ∧ ¬ (w.channels 0).Live
  := by
  obtain ⟨w, hreach, hfree, hloop⟩ : ∃ w, Reaches step (Runs Conn.Settled) tiny w
      ∧ w.thread.channelPool.freeList = [0] ∧ w.InLoop := by
    apply Reaches.exists_of_follow (accepted ++ [.app 0 .close, .complete 2 0 false 0 [], .ret])
    decide +kernel
  have hrest := (free_channels_at_rest _ _ _ _ _ hreach).2.1 hloop 0 (by simp [hfree])
  exact ⟨w, hreach, hfree, hrest⟩

/-- The application answers the first data of a connection and closes it.  The completion of
its `writev` brings `in_flight_` to zero, since the completion of the `recv` was uncounted
although the `recv` goes on; the channel is free with its read coroutine waiting. -/
theorem busy_channel_freed :
  ∃ w, Reaches step Admits tiny w ∧ w.InLoop ∧ 0 ∈ w.thread.channelPool.freeList
    ∧ w.outstanding 0 = 1 ∧ (w.channels 0).Live
  := by
  apply Reaches.exists_of_follow
    (accepted ++ [.complete 2 1 true 0 [7], .batchDone, .app 0 (.append [1]), .app 0 .submit,
      .app 0 .close, .ret, .submit, .complete 3 (-9) false 0 []])
  decide +kernel

/-! ### The count of SQEs in flight -/

instance (a : Action) : Decidable (Conn.SingleShot a) :=
  match a with
  | .recv _ more => inferInstanceAs (Decidable (more = false))
  | .written _ => inferInstanceAs (Decidable True)
  | .assign => inferInstanceAs (Decidable True)
  | .staleRecv => inferInstanceAs (Decidable True)
  | .staleWrite => inferInstanceAs (Decidable True)
  | .onCloseReturns => inferInstanceAs (Decidable True)
  | .onWriteReturns => inferInstanceAs (Decidable True)
  | .submit => inferInstanceAs (Decidable True)
  | .close => inferInstanceAs (Decidable True)

/-- The action is settled and no `recv` completes with `IORING_CQE_F_MORE`. -/
def Counted (k : Conn) (a : Action) : Prop := k.Settled a ∧ Conn.SingleShot a

instance (k : Conn) (a : Action) : Decidable (Counted k a) := inferInstanceAs (Decidable (_ ∧ _))

section

variable (depth : ℕ) (bufRing : BufRing) (bufPool : BufPool) (poolBits capBits : Fin 31)

/-- In every run whose actions are settled and whose `recv` completions come without
`IORING_CQE_F_MORE`, `in_flight_` of every channel is the number of its outstanding SQEs, at
most one `recv` and at most one `writev`. -/
theorem in_flight_exact
    (h : Reaches step (Runs Counted) (start depth bufRing bufPool poolBits capBits) w) (c : ℕ)
    (hc : c < w.size) :
  (w.channels c).inFlight = w.outstanding c
    ∧ w.thread.ioRing.outstanding (.read c) ≤ 1 ∧ w.thread.ioRing.outstanding (.write c) ≤ 1
    ∧ ((w.channels c).hasInFlight = true ↔ 0 < w.outstanding c)
  := by
  have hinv : Inv Conn.Exact w := by
    apply reaches_inv depth bufRing bufPool poolBits capBits (fun _ hk => hk.toSafe) _ _ h
    · intro k k' a hk hok hstep
      exact hk.step hok.1 hok.2 hstep
    · exact ⟨by constructor <;> decide, by decide, by decide⟩
  have hexact := hinv.holds c hc
  have hcount : (w.channels c).inFlight = w.outstanding c := by
    rw [outstanding]
    push_cast
    exact hexact.inFlight_eq
  refine ⟨hcount, hexact.recvs_le, ?_, ?_⟩
  · have htokens : (w.view c).writes = (w.view c).write.tokens := hexact.writes_eq
    change (w.view c).writes ≤ 1
    rw [htokens]
    cases (w.view c).write <;> simp [WriteCo.tokens]
  · rw [TcpChannel.hasInFlight, decide_eq_true_eq, hcount]
    omega

end

/-- A connection is accepted and receives data once; its `recv` is armed again. -/
theorem in_flight_exact_rearmed :
  ∃ w, Reaches step (Runs Counted) tiny w ∧ w.outstanding 0 = 1 ∧ (w.channels 0).inFlight = 1
  := by
  obtain ⟨w, hreach, hout, hsize⟩ : ∃ w, Reaches step (Runs Counted) tiny w
      ∧ w.outstanding 0 = 1 ∧ 0 < w.size := by
    apply Reaches.exists_of_follow (accepted ++ [.complete 2 1 false 0 [7]])
    decide +kernel
  have hcount := (in_flight_exact _ _ _ _ _ hreach 0 hsize).1
  rw [hout] at hcount
  exact ⟨w, hreach, hout, hcount⟩

/-- After the first data of an open connection, received with `IORING_CQE_F_MORE`, the `recv`
is outstanding and `in_flight_` is zero. -/
theorem in_flight_zero_with_recv_outstanding :
  ∃ w, Reaches step Admits tiny w ∧ w.InLoop ∧ (w.channels 0).fd = 5 ∧ w.outstanding 0 = 1
    ∧ (w.channels 0).inFlight = 0 ∧ (w.channels 0).hasInFlight = false
  := by
  apply Reaches.exists_of_follow (accepted ++ [.complete 2 1 true 0 [7]])
  decide +kernel

/-! ### No channel is lost -/

instance (k : Conn) (a : Action) : Decidable (k.ClosesInFlight a) :=
  match a with
  | .recv _ _ => inferInstanceAs (Decidable (_ → _))
  | .written _ => inferInstanceAs (Decidable (_ → _ → _))
  | .onCloseReturns => inferInstanceAs (Decidable (_ → _))
  | .close => inferInstanceAs (Decidable (_ → _ → _))
  | .assign => inferInstanceAs (Decidable True)
  | .staleRecv => inferInstanceAs (Decidable True)
  | .staleWrite => inferInstanceAs (Decidable True)
  | .onWriteReturns => inferInstanceAs (Decidable True)
  | .submit => inferInstanceAs (Decidable True)

/-- The action is settled, and starts to close a channel only with an SQE in flight. -/
def Awaited (k : Conn) (a : Action) : Prop := k.Settled a ∧ k.ClosesInFlight a

instance (k : Conn) (a : Action) : Decidable (Awaited k a) := inferInstanceAs (Decidable (_ ∧ _))

section

variable (depth : ℕ) (bufRing : BufRing) (bufPool : BufPool) (poolBits capBits : Fin 31)

/-- In every run whose actions are settled and start to close a channel only with an SQE in
flight, a closed channel with no outstanding SQE is in the free queue, and so is in
particular one whose coroutines have finished. -/
theorem closed_channel_free
    (h : Reaches step (Runs Awaited) (start depth bufRing bufPool poolBits capBits) w) (c : ℕ)
    (hc : c < w.size) (hclosed : (w.channels c).fd = -1) (hout : w.outstanding c = 0) :
  c ∈ w.thread.channelPool.freeList
  := by
  have hinv : Inv Conn.Kept w := by
    apply reaches_inv depth bufRing bufPool poolBits capBits (fun _ hk => hk.toSafe) _ _ h
    · intro k k' a hk hok hstep
      exact hk.step hok.1 hok.2 hstep
    · exact ⟨by constructor <;> decide, by decide, by decide, by decide, by decide⟩
  have hkept := hinv.holds c hc
  apply List.count_pos_iff.mp
  change 0 < (w.view c).free
  obtain hclosing | hfree := hkept.closing (decide_eq_true hclosed)
  · by_contra hzero
    have hone := hkept.waiting hclosing (by omega)
    have hle := hkept.inFlight_le
    have hnone : (w.view c).recvs + (w.view c).writes = 0 := hout
    omega
  · exact hfree

end

/-- The application closes a connection, and its `recv` ends: the channel is free. -/
theorem closed_channel_free_after_close :
  ∃ w, Reaches step (Runs Awaited) tiny w ∧ ¬ (w.channels 0).Live ∧ (w.channels 0).fd = -1
    ∧ 0 ∈ w.thread.channelPool.freeList
  := by
  obtain ⟨w, hreach, hlive, hsize, hclosed, hout⟩ :
      ∃ w, Reaches step (Runs Awaited) tiny w ∧ ¬ (w.channels 0).Live ∧ 0 < w.size
        ∧ (w.channels 0).fd = -1 ∧ w.outstanding 0 = 0 := by
    apply Reaches.exists_of_follow (accepted ++ [.app 0 .close, .complete 2 0 false 0 [], .ret])
    decide +kernel
  exact ⟨w, hreach, hlive, hclosed, closed_channel_free _ _ _ _ _ hreach 0 hsize hclosed hout⟩

/-- The peer ends a connection: its `recv` is uncounted before the channel is closing, so that
the channel is closed and finished without ever being released. -/
theorem closed_channel_lost :
  ∃ w, Reaches step Admits tiny w ∧ w.InLoop ∧ (w.channels 0).fd = -1 ∧ w.outstanding 0 = 0
    ∧ (w.channels 0).readCo = .finished ∧ (w.channels 0).writeCo = .finished
    ∧ 0 ∉ w.thread.channelPool.freeList
  := by
  apply Reaches.exists_of_follow (accepted ++ [.complete 2 0 false 0 [], .ret])
  decide +kernel

end Worker

end Proactor
