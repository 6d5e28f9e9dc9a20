import UringProactor.Core.ByteStream

/-!
# Connections on one channel are isolated

A channel is used by one connection after the other, and `assign` does not reset its write
buffer.  The buffer is empty at the next assignment when the write coroutine resets it at its end
and nothing is built afterwards.  Then every byte of a `writev` was accepted since the assignment
that began the connection.
-/

namespace Proactor

namespace Worker

open WriteSide

variable {w w' : Worker} {e : Event} {ok : Bool} {c : ℕ}

/-- The application builds only on channels whose write coroutine is alive. -/
def BuildsAlive (w : Worker) : Event → Prop
  | .app c (.append _) => ¬ (w.channels c).writeCo.Dead
  | .app c (.prepend _) => ¬ (w.channels c).writeCo.Dead
  | _ => True

instance (w : Worker) (e : Event) : Decidable (w.BuildsAlive e) :=
  match e with
  | .app _ (.append _) | .app _ (.prepend _) => inferInstanceAs (Decidable (¬ _))
  | .app _ .submit | .app _ (.peek _) | .app _ (.consume _) | .app _ .close
  | .submit | .complete .. | .batchDone | .ret => inferInstanceAs (Decidable True)

end Worker

/-- The channel that was passed to the callback control is in. -/
def Ctl.callback : Ctl → Option ℕ
  | .onAccept c => some c
  | .onClose c => some c
  | .onWrite c => some c
  | .onRead c _ => some c
  | _ => none

namespace Worker

/-- The application calls only the channel that was passed to its callback. -/
def InCallback (w : Worker) : Event → Prop
  | .app c _ => w.ctl.callback = some c
  | _ => True

instance (w : Worker) (e : Event) : Decidable (w.InCallback e) :=
  match e with
  | .app _ _ => inferInstanceAs (Decidable (_ = _))
  | .submit | .complete .. | .batchDone | .ret => inferInstanceAs (Decidable True)

/-- A channel that is assigned to a connection has no write coroutine. -/
theorem dead_of_assigns (hinv : Inv Conn.Safe w) (hassigns : w.Assigns c e)
    (hresult : w.stepResult e = some (ok, w')) :
  (w.channels c).writeCo.Dead
  := by
  have hmem : c ∈ w.thread.channelPool.freeList :=
    List.count_pos_iff.mp (free_pos_of_assigns hassigns)
  obtain ⟨-, hlive⟩ := hinv.rest_of_free (.inr (ctl_of_assigns hassigns hresult)) hmem
  by_contra hdead
  apply hlive (.inr hdead)

namespace Streaming

variable {m m' : Streaming}

/-- The buffer of a channel whose write coroutine is not alive is empty, and the connection of one
whose write coroutine is alive has been recorded from the start. -/
structure Isolated (m : Streaming) : Prop extends Inv m where
  failed : m.state.thread.ioRing.failed = false
  vacant : ∀ c < m.state.size, (m.state.channels c).writeCo.Dead →
    (m.state.channels c).writeBuf.pendingList = [] ∧ (m.state.channels c).writeBuf.sendList = []
  tracked : ∀ c < m.state.size, ¬ (m.state.channels c).writeCo.Dead →
    (m.record c).tracked = true

theorem Isolated.step (h : m.Isolated) {e : Event} (hruns : m.state.Runs Conn.Settled e)
    (hroomy : m.state.Roomy e) (halive : m.state.BuildsAlive e)
    (hstep : m.step WriteBufBase.taken e = some m') :
  m'.Isolated
  := by
  obtain ⟨hadmits, hsettled⟩ := hruns
  obtain ⟨ok, hresult, hrecord⟩ := Monitored.step_eq_some hstep
  have hstate : m.state.step e = some m'.state := congrArg (Option.map Prod.snd) hresult
  have hsize := h.safe.size_step (fun _ hk => hk) hadmits hstate
  obtain ⟨-, hstreams⟩ := h.posts.step h.safe hadmits hresult
  have hsqe := (step_cases hresult).failed_eq hroomy h.failed
  constructor
  · apply h.toInv.step hadmits hsettled _ hstep
    intro c data _
    rfl
  · apply hsqe
  · intro c hc hdead
    rw [hsize] at hc
    obtain hown | ⟨hdead₀, hbuf | ⟨⟨data, ok', hlabel⟩, -⟩ | ⟨-, hpending⟩⟩ :=
      hstreams.vacates hsqe c hc hdead
    · exact hown
    · change (m'.state.channels c).writeBuf = (m.state.channels c).writeBuf at hbuf
      rw [hbuf]
      apply h.vacant c hc hdead₀
    · exfalso
      obtain hlabel | hlabel := hlabel
      · cases labels_of_writeLabel (eq_some_of_labelAt hlabel (by simp)) with
        | append => exact halive hdead₀
      · cases labels_of_writeLabel (eq_some_of_labelAt hlabel (by simp)) with
        | prepend => exact halive hdead₀
    · cases hpending (h.vacant c hc hdead₀).1
  · intro c hc hlive
    rw [hsize] at hc
    rw [hrecord, observe]
    by_cases hlabel : labelAt (m.state.writeLabel ok e) c = .assign
    · have hassigns := assigns_of_writeLabel (eq_some_of_labelAt hlabel (by simp))
      rw [hlabel]
      apply decide_eq_true
      apply h.vacant c hc (dead_of_assigns h.safe hassigns hresult)
    · rw [StreamRecord.tracked_next hlabel]
      apply h.tracked c hc
      intro hdead
      rw [hstreams.dead c hc hlabel hdead] at hlive
      apply hlive hdead

/-- At the start no write coroutine is alive. -/
theorem isolated_start (depth : ℕ) (bufRing : BufRing) (poolBits capBits : Fin 31)
    {bits bufSize : ℕ} {hbits : bits ≤ 30} {hpos : 0 < bufSize} {hlt : bufSize < 2 ^ 31}
    {pool : BufPool} (hpool : BufPool.new bits bufSize hbits hpos hlt = some pool)
    (hsmall : 2 ^ bits * bufSize < 2 ^ 31) :
  (start (Worker.start depth bufRing pool poolBits capBits)).Isolated
  := by
  have hnil : (⟨fun _ => 0, 0, 0⟩ : Circular 64 ℕ).toList capBits = [] :=
    (Circular.toList_eq_nil_iff _).mpr rfl
  constructor
  · apply inv_start depth bufRing poolBits capBits hpool hsmall
  · rfl
  · intro c _ _
    exact ⟨hnil, hnil⟩
  · intro c _ hlive
    cases hlive (.inl rfl)

end Streaming

section

variable (depth : ℕ) (bufRing : BufRing) (poolBits capBits : Fin 31) {bits bufSize : ℕ}
  {hbits : bits ≤ 30} {hpos : 0 < bufSize} {hlt : bufSize < 2 ^ 31} {pool : BufPool}

/-- Connections on one channel are isolated.  In every run whose actions are settled, in which the
submission queue has room for the SQEs that are prepared, and in which the application appends and
prepends only while the write coroutine of the channel is alive: what the connection on a channel
has sent, followed by what its outstanding `writev` covers, begins the bytes that were accepted and
submitted since the channel was assigned to the connection. -/
theorem writes_own_bytes (hpool : BufPool.new bits bufSize hbits hpos hlt = some pool)
    (hsmall : 2 ^ bits * bufSize < 2 ^ 31) {m : Streaming}
    (h : Reaches (Streaming.step WriteBufBase.taken)
      (fun m e => m.state.Runs Conn.Settled e ∧ m.state.Roomy e ∧ m.state.BuildsAlive e)
      (Streaming.start (start depth bufRing pool poolBits capBits)) m) :
  ∀ c, ∀ sqe ∈ m.state.thread.ioRing.sq ++ m.state.thread.ioRing.inflight, sqe.data = .write c →
    (m.record c).acked ++ m.state.covered sqe <+: (m.record c).submitted
  := by
  have hinv : m.Isolated := by
    apply h.invariant (Streaming.isolated_start depth bufRing poolBits capBits hpool hsmall)
    rintro m m' e hinv ⟨hruns, hroomy, halive⟩ hstep
    apply hinv.step hruns hroomy halive hstep
  intro c sqe hmem hdata
  have hc := hinv.safe.lt_size_of_mem hmem hdata
  obtain ⟨submittedBytes, hco, hcovers⟩ :=
    (hinv.posts.posted c hc).onToken (IoRing.mem_writevs hmem hdata)
  have hlive : ¬ (m.state.channels c).writeCo.Dead := by
    rw [show (m.state.channels c).writeCo = _ from hco]
    rintro (hdead | hdead) <;> cases hdead
  obtain ⟨-, hunsent⟩ := hinv.describes c hc (hinv.tracked c hc hlive)
    (fun hfinished => absurd (.inr hfinished) hlive)
  rw [← hunsent, covered, hdata]
  apply List.prefix_append_right_inj _ |>.mpr
  rw [WriteSide.unsent, hcovers.unsent_eq (hinv.posts.sound hc)]
  apply List.prefix_append

end

/-- A connection sends two bytes and is closed, and the next connection on the channel sends two
others in `on_accept`. -/
theorem writes_own_bytes_second_connection :
  ∃ pool m, BufPool.new 1 2 (by decide) (by decide) (by decide) = some pool
    ∧ Reaches (Streaming.step WriteBufBase.taken)
      (fun m e => m.state.Runs Conn.Settled e ∧ m.state.Roomy e ∧ m.state.BuildsAlive e)
      (Streaming.start (start 8 (BufRing.new 0 1 (by decide) (by decide)) pool 0 1)) m
    ∧ ∃ sqe ∈ m.state.thread.ioRing.sq ++ m.state.thread.ioRing.inflight, sqe.data = .write 0
      ∧ m.state.covered sqe = [1, 2] ∧ (m.record 0).submitted = [1, 2]
      ∧ (m.record 0).acked ++ m.state.covered sqe <+: (m.record 0).submitted
  := by
  have hrun : (BufPool.new 1 2 (by decide) (by decide) (by decide)).bind (fun pool =>
      (Reaches.follow (Streaming.step WriteBufBase.taken)
        (fun m e => m.state.Runs Conn.Settled e ∧ m.state.Roomy e ∧ m.state.BuildsAlive e)
        [.submit, .complete 0 5 true 0 [], .app 0 (.append [7, 8]), .app 0 .submit, .ret,
          .batchDone, .submit, .complete 3 2 false 0 [], .app 0 .close, .ret,
          .complete 2 0 false 0 [], .ret, .complete 0 6 true 0 [], .app 0 (.append [1, 2]),
          .app 0 .submit]
        (Streaming.start (start 8 (BufRing.new 0 1 (by decide) (by decide)) pool 0 1))).map
          (fun m => (m.state.thread.ioRing.sq, m.state.covered ⟨.writev 6 1, .write 0⟩,
            (m.record 0).submitted)))
      = some ([⟨.multishotRecv 6, .read 0⟩, ⟨.writev 6 1, .write 0⟩], [1, 2], [1, 2]) := by
    decide +kernel
  obtain ⟨pool, hpool, hfollow⟩ := Option.bind_eq_some_iff.mp hrun
  obtain ⟨m, hreach, hfinal⟩ := Reaches.of_follow _ hfollow
  obtain ⟨hsq, hcovered, hsubmitted⟩ := by
    simpa only [Prod.mk.injEq] using hfinal
  have hmem : (⟨.writev 6 1, .write 0⟩ : Sqe)
      ∈ m.state.thread.ioRing.sq ++ m.state.thread.ioRing.inflight := by
    rw [hsq]
    simp
  have h := writes_own_bytes 8 _ 0 1 hpool (by decide) hreach 0 _ hmem rfl
  exact ⟨pool, m, hpool, hreach, _, hmem, rfl, hcovered, hsubmitted, h⟩

/-- The application closes a connection in `on_accept`.  The end of its stream releases the channel
and ends the write coroutine before `on_close`, in which the application appends and submits a
byte.  The next connection on the channel starts with a `writev` of this byte, although nothing has
been accepted since it was assigned. -/
theorem writes_bytes_of_earlier_connection :
  ∃ pool m, BufPool.new 0 1 (by decide) (by decide) (by decide) = some pool
    ∧ Reaches (Streaming.step WriteBufBase.taken)
      (fun m e => m.state.Admits e ∧ m.state.InCallback e)
      (Streaming.start (start 8 (BufRing.new 0 1 (by decide) (by decide)) pool 0 0)) m
    ∧ ∃ sqe ∈ m.state.thread.ioRing.sq ++ m.state.thread.ioRing.inflight, sqe.data = .write 0
      ∧ (m.record 0).submitted = []
      ∧ ¬ (m.record 0).acked ++ m.state.covered sqe <+: (m.record 0).submitted
  := by
  have hrun : (BufPool.new 0 1 (by decide) (by decide) (by decide)).bind (fun pool =>
      (Reaches.follow (Streaming.step WriteBufBase.taken)
        (fun m e => m.state.Admits e ∧ m.state.InCallback e)
        [.submit, .complete 0 5 true 0 [], .app 0 .close, .ret, .batchDone, .submit,
          .complete 2 0 false 0 [], .app 0 (.append [1]), .app 0 .submit, .ret,
          .complete 0 6 true 0 []]
        (Streaming.start (start 8 (BufRing.new 0 1 (by decide) (by decide)) pool 0 0))).map
          (fun m => (m.state.thread.ioRing.sq, m.state.covered ⟨.writev 6 1, .write 0⟩,
            (m.record 0).submitted)))
      = some ([⟨.multishotRecv 6, .read 0⟩, ⟨.writev 6 1, .write 0⟩], [1], []) := by
    decide +kernel
  obtain ⟨pool, hpool, hfollow⟩ := Option.bind_eq_some_iff.mp hrun
  obtain ⟨m, hreach, hfinal⟩ := Reaches.of_follow _ hfollow
  obtain ⟨hsq, hcovered, hsubmitted⟩ := by
    simpa only [Prod.mk.injEq] using hfinal
  have hmem : (⟨.writev 6 1, .write 0⟩ : Sqe)
      ∈ m.state.thread.ioRing.sq ++ m.state.thread.ioRing.inflight := by
    rw [hsq]
    simp
  refine ⟨pool, m, hpool, hreach, _, hmem, rfl, hsubmitted, ?_⟩
  rw [hcovered, hsubmitted]
  simp

end Worker

end Proactor
