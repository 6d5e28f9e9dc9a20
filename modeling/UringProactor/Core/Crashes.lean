import UringProactor.Buffer.Filled
import UringProactor.Core.Drain

/-!
# What ends a TCP worker

A step of the worker has no outcome if an assertion fails, if a loop does not end, or if an
exception reaches `std::terminate`.  In the runs in which no channel is released too early, the
assertions of `tcp_write_loop`, of `consume_written` and of the channel pool hold, and every call
returns: `submitted_bytes` is the number of bytes of the outstanding `writev`, so the kernel cannot
report more.  One case remains.  When the accept coroutine has to arm its multishot accept again and
the submission queue is full, `get_sqe` throws, and `std::terminate` is called.
-/

namespace Proactor

namespace WriteBufStream

variable {s s' : WriteBufStream} {p : BufPool}

/-- `peek_iovec` reports the number of bytes of the iovecs, modulo `2 ^ 32`. -/
theorem peekIovec_bytes (h : Sound s p) {count bytes : ℕ} (hcount : count ≠ 0)
    (hpeek : s.peekIovec p = (count, bytes, s')) :
  bytes = u32 ((s'.iovec.take count).map IoVec.len).sum
  := by
  have hne : s.sendList ≠ [] := by
    intro hnil
    rw [peekIovec_of_nil hnil] at hpeek
    cases hpeek
    exact hcount rfl
  rw [peekIovec_of_ne h hne] at hpeek
  cases hpeek
  rw [List.take_left' (length_iovecs ..), ← length_gather p, gather_iovecs h.offset_le]
  rfl

end WriteBufStream

namespace WriteSide

variable {s s' : WriteSide} {l : WriteLabel}

/-- The write coroutine knows how many bytes the `writev` has that it waits for. -/
def Counted (s : WriteSide) : Prop :=
  ∀ submittedBytes, s.co = .onToken submittedBytes → ∀ nr ∈ s.writevs,
    submittedBytes = u32 ((s.buf.iovec.take nr).map IoVec.len).sum

theorem counted_of_ne (hco : ∀ submittedBytes, s.co ≠ .onToken submittedBytes) :
  Counted s
  := fun submittedBytes htoken => absurd htoken (hco submittedBytes)

/-- A run of the write coroutine, which waited for no SQE. -/
theorem Runs.counted (h : Runs s s') (hsound : s.buf.Sound s.pool) (hwritevs : s.writevs = 0) :
  Counted s'
  := by
  cases h with
  | finish => exact counted_of_ne (by simp)
  | suspend => exact counted_of_ne (by simp)
  | @prepare count submittedBytes buf hcount hpeek =>
      intro submittedBytes' htoken nr hnr
      cases htoken
      change nr ∈ count ::ₘ s.writevs at hnr
      rw [hwritevs, Multiset.mem_cons, or_iff_left (Multiset.notMem_zero nr)] at hnr
      rw [hnr]
      exact WriteBufStream.peekIovec_bytes hsound hcount hpeek
  | throw => exact counted_of_ne (by simp)

/-- A notification. -/
theorem Notifies.counted (h : Notifies s s') (hcounted : Counted s) (hsound : s.buf.Sound s.pool)
    (hposted : Posted s) :
  Counted s'
  := by
  cases h with
  | resume hhandle hrun =>
      apply hrun.counted hsound
      apply hposted.writevs_eq_zero
      rw [hposted.handle_iff.mp hhandle]
      simp
  | mark => exact hcounted

theorem Stirs.counted (h : Stirs s s') (hcounted : Counted s) (hsound : s.buf.Sound s.pool)
    (hposted : Posted s) :
  Counted s'
  := by
  cases h with
  | rest => exact hcounted
  | notify s₁ closing failed _ _ hnotify =>
      obtain ⟨hhandle, hcard, hcovers⟩ := hposted
      have hcounted₁ : Counted s₁ := hnotify.counted hcounted hsound ⟨hhandle, hcard, hcovers⟩
      exact hcounted₁

/-- Every step keeps the number known. -/
theorem Counted.step (h : Counted s) (hstep : Step s l s') (hsound : s.buf.Sound s.pool)
    (hposted : Posted s) (hassign : l = .assign → s.writevs = 0)
    (hreturned : l = .returned → s.co = .running) :
  Counted s'
  := by
  have hhandle : ∀ submittedBytes, s.co = .onToken submittedBytes → s.handle = false := by
    intro submittedBytes hco
    apply hposted.handle_eq_false
    rw [hco]
    simp
  cases hstep with
  | quiet hstirs => exact hstirs.counted h hsound hposted
  | append => exact h
  | prepend => exact h
  | @submit buf _ hsubmit hnotify =>
      obtain ⟨hsound₁, -, hiovec, hoffset, hsend, -⟩ := WriteBufStream.submit_spec hsound hsubmit
      apply hnotify.counted _ hsound₁
      · refine ⟨hposted.handle_iff, hposted.card_writevs, ?_⟩
        intro submittedBytes hco nr hnr
        exact (hposted.covers submittedBytes hco nr hnr).congr hiovec hoffset hsend
      · intro submittedBytes hco nr hnr
        change submittedBytes = u32 ((buf.iovec.take nr).map IoVec.len).sum
        rw [hiovec]
        exact h submittedBytes hco nr hnr
  | written hco _ _ _ hdrain =>
      obtain ⟨_, _, rfl⟩ := hdrain.eq_of_handle (hhandle _ hco)
      exact counted_of_ne (by simp)
  | failed => exact counted_of_ne (by simp)
  | stale hco => exact counted_of_ne hco
  | returned hrun =>
      apply hrun.counted hsound
      apply hposted.writevs_eq_zero
      rw [hreturned rfl]
      simp
  | assign _ _ hrun => exact hrun.counted hsound (hassign rfl)

end WriteSide

namespace TcpChannel

variable {c : ℕ} {ch : TcpChannel} {th : TcpThread}

/-- A pass of `tcp_write_loop` returns, and it does not continue with data left to send. -/
theorem writePass_some (c : ℕ) (ch : TcpChannel) (hsound : ch.writeBuf.Sound th.bufPool) :
  ∃ r, ch.writePass c th = some r ∧ (ch.writeBuf.hasSendData = true → r.isSome)
  := by
  rw [writePass]
  split
  · obtain ⟨ch', th', hfinish⟩ := finishWrite_total hsound.toSound
    rw [hfinish]
    exact ⟨_, rfl, fun _ => rfl⟩
  · cases hlist : ch.writeBuf.sendList with
    | nil =>
        rw [WriteBufStream.peekIovec_of_nil hlist]
        refine ⟨none, rfl, ?_⟩
        rw [WriteBufStream.hasSendData_of_sendList hlist]
        exact fun hdata => absurd hdata (by decide)
    | cons i l =>
        have hne : ch.writeBuf.sendList ≠ [] := by simp [hlist]
        rw [WriteBufStream.peekIovec_of_ne hsound hne]
        dsimp only
        rw [if_neg (by simp [hlist])]
        split <;> exact ⟨_, rfl, fun _ => rfl⟩

/-- `tcp_write_loop` gets to a `co_await` or to its end. -/
theorem writeLoop_some (hsound : ch.writeBuf.Sound th.bufPool) :
  ∃ r, ch.writeLoop c th = some r
  := by
  fun_induction writeLoop c ch th with
  | case1 ch hdata =>
      obtain ⟨r, hpass, hsome⟩ := writePass_some c ch hsound
      obtain ⟨r', rfl⟩ := Option.isSome_iff_exists.mp (hsome hdata)
      rw [hpass]
      exact ⟨r', rfl⟩
  | case2 ch hdata hpending ch₁ hpass =>
      obtain ⟨r, hsome, -⟩ := writePass_some c ch₁ hsound
      cases hpass.symm.trans hsome
  | case3 ch hdata hpending ch₁ r hpass => exact ⟨r, rfl⟩
  | case4 ch hdata hpending ch₁ hpass ih => exact ih hsound
  | case5 ch hdata hpending => exact ⟨_, rfl⟩

theorem notify_some (hsound : ch.writeBuf.Sound th.bufPool) :
  ∃ r, ch.notify c th = some r
  := by
  rw [notify]
  split
  case isTrue =>
    obtain ⟨r, hpass, -⟩ := writePass_some c
      { ch with notifyToken := { ch.notifyToken with handle := false }, writeCo := .running } hsound
    rw [resumeNotified, hpass]
    cases r with
    | none => exact writeLoop_some hsound
    | some r => exact ⟨r, rfl⟩
  case isFalse => exact ⟨_, rfl⟩

/-- `TcpChannel::submit` returns. -/
theorem submit_some (hsound : ch.writeBuf.Sound th.bufPool) :
  ∃ r, ch.call c th .submit = some r
  := by
  rw [call]
  generalize hsubmit : ch.writeBuf.submit = result
  obtain ⟨ok, writeBuf⟩ := result
  dsimp only
  split
  case isTrue =>
    obtain ⟨hsound', -⟩ := WriteBufStream.submit_spec hsound hsubmit
    obtain ⟨r, hnotify⟩ : ∃ r, notify c { ch with writeBuf := writeBuf } th = some r :=
      notify_some hsound'
    rw [hnotify]
    exact ⟨_, rfl⟩
  case isFalse => exact ⟨_, rfl⟩

/-- `TcpChannel::assign` returns. -/
theorem assign_some (fd : Int) (hsound : ch.writeBuf.Sound th.bufPool) :
  ∃ r, ch.assign c th fd = some r
  := by
  cases hprep : th.ioRing.prep ⟨.multishotRecv fd, .read c⟩ with
  | none =>
      simp only [assign, startRead, hprep]
      apply writeLoop_some
      exact hsound
  | some ioRing =>
      simp only [assign, startRead, hprep]
      apply writeLoop_some
      exact hsound

end TcpChannel

namespace Worker

variable {w w' : Worker} {e : Event} {ok : Bool} {c : ℕ}

/-! ### The bytes of outstanding `writev`s -/

/-- Every write coroutine knows how many bytes its `writev` has. -/
def Counts (w : Worker) : Prop := ∀ c < w.size, (w.writeSide c).Counted

theorem Counts.step (h : Counts w) (hposts : Posts w) (hinv : Inv Conn.Safe w)
    (hadmits : w.Admits e) (hresult : w.stepResult e = some (ok, w')) :
  Counts w'
  := by
  have hsize : w'.size = w.size :=
    hinv.size_step (fun _ hk => hk) hadmits (congrArg (Option.map Prod.snd) hresult)
  have hwrites := (step_cases hresult).writes hadmits
  generalize hlabel : w.writeLabel ok e = x at hwrites
  intro d hd
  rw [hsize] at hd
  cases hwrites with
  | none _ hside =>
      rw [hside]
      exact h d hd
  | @acts c l hctl hstep hother =>
      by_cases hdc : d = c
      · subst hdc
        apply (h d hd).step hstep (hposts.sound hd) (hposts.posted d hd)
        · rintro rfl
          have hfree := free_pos_of_assigns (assigns_of_writeLabel hlabel)
          apply Multiset.card_eq_zero.mp
          exact (IoRing.card_writevs _ d).trans ((hinv.holds d hd).idle hfree).2.1
        · rintro rfl
          exact (hinv.located.write d).mpr (hctl.returned d rfl)
      · rw [hother d hdc]
        exact h d hd

/-- What holds in every state of a run: the worker is ready, its write coroutines know the bytes of
their `writev`s, and the pool is small enough for 32-bit sums. -/
structure Sturdy (w : Worker) : Prop extends Ready w where
  counts : Counts w
  addressable : w.thread.bufPool.Addressable

theorem Sturdy.step (h : Sturdy w) (hruns : w.Runs Conn.Settled e)
    (hresult : w.stepResult e = some (ok, w')) :
  Sturdy w'
  := by
  refine ⟨h.toReady.step hruns hresult, ?_, ?_⟩
  · exact h.counts.step h.posts h.shut.safe hruns.1 hresult
  · exact (h.posts.step h.shut.safe hruns.1 hresult).2.addressable h.addressable

/-- The kernel reports at most `submitted_bytes`. -/
theorem Sturdy.measured (h : Sturdy w) {sqe : Sqe} {i idx : ℕ} {res : Int} {more : Bool}
    {data : List UInt8} (hsqe : w.thread.ioRing.inflight[i]? = some sqe)
    (hdelivers : w.Delivers sqe res more idx data) :
  w.MeasuredCqe res sqe.data
  := by
  obtain ⟨op, u⟩ := sqe
  cases u with
  | write c =>
      have hmem := List.mem_append_right w.thread.ioRing.sq (List.mem_of_getElem? hsqe)
      have hc := h.shut.lt_size_of_mem hmem rfl
      have hnr := IoRing.mem_writevs hmem rfl
      obtain ⟨submittedBytes, hco, hcovers⟩ := (h.posts.posted c hc).onToken hnr
      change (w.channels c).writeCo = _ at hco
      rw [MeasuredCqe, hco]
      have hcount := h.counts c hc submittedBytes hco _ hnr
      have hsum := hcovers.sum_le_unsent (h.posts.sound hc)
      have hlt := (h.posts.sound hc).length_unsent_lt h.addressable
      rw [u32_of_lt (by omega)] at hcount
      dsimp only
      rw [hcount]
      exact hdelivers.2
  | _ => trivial

/-! ### Events that control may come to -/

/-- The events that can come next, by where control is. -/
def Possible (w : Worker) : Event → Prop
  | .submit => w.ctl = .poll
  | .complete i _ _ _ _ => w.ctl = .batch ∧ i < w.thread.ioRing.inflight.length
  | .batchDone => w.ctl = .batch
  | .ret => ¬ w.InLoop
  | .app _ _ => True

/-- The accept coroutine is resumed with a connection and has to arm its accept again. -/
def RearmsAccept (w : Worker) : Event → Prop
  | .complete i res more _ _ =>
      w.thread.ioRing.inflight[i]?.map Sqe.data = some .accept ∧ w.accepting = true ∧ 0 ≤ res
        ∧ more = false
  | _ => False

/-- The submission queue is full. -/
def Full (w : Worker) : Prop := w.thread.ioRing.depth ≤ w.thread.ioRing.sq.length

instance (w : Worker) : ∀ e, Decidable (w.Possible e)
  | .submit => inferInstanceAs (Decidable (w.ctl = .poll))
  | .complete i _ _ _ _ =>
      inferInstanceAs (Decidable (w.ctl = .batch ∧ i < w.thread.ioRing.inflight.length))
  | .batchDone => inferInstanceAs (Decidable (w.ctl = .batch))
  | .ret => inferInstanceAs (Decidable (¬ w.InLoop))
  | .app _ _ => inferInstanceAs (Decidable True)

instance (w : Worker) : ∀ e, Decidable (w.RearmsAccept e)
  | .complete _ _ _ _ _ => inferInstanceAs (Decidable (_ ∧ _ ∧ _ ∧ _))
  | .submit | .batchDone | .ret | .app _ _ => inferInstanceAs (Decidable False)

instance (w : Worker) : Decidable w.Full := inferInstanceAs (Decidable (_ ≤ _))

theorem prep_eq_none_iff {r : IoRing} {sqe : Sqe} :
  r.prep sqe = none ↔ r.depth ≤ r.sq.length
  := by
  rw [IoRing.prep]
  split <;> simp <;> omega

/-- `accept_loop` gets to its next `co_await`, unless it cannot arm the accept. -/
theorem Sturdy.resumeAccept_none_iff (h : Sturdy w) {i idx : ℕ} {res : Int} {more : Bool}
    {data : List UInt8} :
  resumeAccept { w with thread := kernel w.thread i .accept res more idx data } res more = none
    ↔ 0 ≤ res ∧ more = false ∧ w.Full
  := by
  rw [resumeAccept]
  split
  case isTrue hres => simp [show ¬ 0 ≤ res by omega]
  case isFalse hres =>
    cases hrearm : rearmAccept (kernel w.thread i .accept res more idx data).ioRing more with
    | none =>
        cases more with
        | true => cases hrearm
        | false =>
            have hfull := prep_eq_none_iff.mp hrearm
            simp only [Option.bind_eq_bind, Option.bind_none, true_iff, true_and]
            exact ⟨by omega, hfull⟩
    | some ioRing =>
        have hroom : ¬ (more = false ∧ w.Full) := by
          rintro ⟨rfl, hfull⟩
          cases hrearm.symm.trans (prep_eq_none_iff.mpr hfull)
        simp only [Option.bind_eq_bind, Option.bind_some]
        refine iff_of_false ?_ (fun hcontra => hroom hcontra.2)
        split
        case h_1 => simp
        case h_2 c pool hacquire =>
          change w.thread.channelPool.acquire = some (c, pool) at hacquire
          have hc : c < w.size := by
            apply (h.shut.free_nodup (fun _ hk => hk.toSafe)).2
            rw [(TcpChannelPool.freeList_acquire hacquire).2]
            exact List.mem_cons_self
          obtain ⟨r, hassign⟩ : ∃ r, (w.channels c).assign c
              { w.thread with ioRing := ioRing, channelPool := pool } res = some r :=
            TcpChannel.assign_some res (h.posts.sound hc)
          change Option.bind (TcpChannel.assign c (w.channels c)
            { w.thread with ioRing := ioRing, channelPool := pool } res) _ ≠ none
          rw [hassign]
          simp

/-- `tcp_read_loop` gets to its next `co_await`, or to `on_close`. -/
theorem Ready.complete_read (h : Ready w) {i idx : ℕ} {res : Int} {more : Bool} {data : List UInt8}
    {op : SqeOp} (hsqe : w.thread.ioRing.inflight[i]? = some ⟨op, .read c⟩) :
  ∃ w', complete { w with thread := kernel w.thread i (.read c) res more idx data } (.read c) res
    more idx = some w'
  := by
  have hmem := List.mem_append_right w.thread.ioRing.sq (List.mem_of_getElem? hsqe)
  have hc : c < w.size := by
    by_contra hc
    apply (IoRing.outstanding_pos hmem).ne'
    exact (h.shut.unused c (Nat.le_of_not_lt hc)).recvs
  have hsound := (h.posts.sound hc).toSound
  change WriteBufBase.Sound (w.channels c).writeBuf.toWriteBufBase w.thread.bufPool at hsound
  have hpool : (kernel w.thread i (.read c) res more idx data).bufPool = w.thread.bufPool :=
    kernel_bufPool
  rw [← hpool] at hsound
  obtain ⟨r, hresume⟩ := TcpChannel.resumeRead_total (c := c) hsound (h.idles.channel c)
    (h.closed hc) res more idx
  rw [complete]
  dsimp only
  split
  · rw [hresume]
    exact ⟨_, rfl⟩
  · exact ⟨_, rfl⟩

/-- `Token::complete` returns, unless the accept coroutine cannot arm its accept. -/
theorem Sturdy.complete_none_iff (h : Sturdy w) {i idx : ℕ} {res : Int} {more : Bool}
    {data : List UInt8} {sqe : Sqe} (hsqe : w.thread.ioRing.inflight[i]? = some sqe)
    (hdelivers : w.Delivers sqe res more idx data) :
  complete { w with thread := kernel w.thread i sqe.data res more idx data } sqe.data res more idx
      = none
    ↔ sqe.data = .accept ∧ w.accepting = true ∧ 0 ≤ res ∧ more = false ∧ w.Full
  := by
  have hmeasured := h.measured hsqe hdelivers
  obtain ⟨op, u⟩ := sqe
  cases u with
  | accept =>
      dsimp only
      rw [complete]
      by_cases haccepting : w.accepting = true
      · rw [if_pos haccepting, h.resumeAccept_none_iff]
        simp [haccepting]
      · rw [if_neg haccepting]
        simp [haccepting]
  | read c =>
      obtain ⟨w', hcomplete⟩ := h.complete_read hsqe
      rw [hcomplete]
      simp
  | wakeup =>
      obtain ⟨w', hcomplete⟩ := h.complete_total hsqe hdelivers trivial hmeasured
      rw [hcomplete]
      simp
  | write c =>
      obtain ⟨w', hcomplete⟩ := h.complete_total hsqe hdelivers trivial hmeasured
      rw [hcomplete]
      simp

/-- The callbacks return to code that returns. -/
theorem Ready.afterCallback_some (h : Ready w) (hctl : ¬ w.InLoop) :
  ∃ w', w.afterCallback = some w'
  := by
  rw [afterCallback]
  cases hwhere : w.ctl with
  | poll => exact absurd (.inl hwhere) hctl
  | batch => exact absurd (.inr hwhere) hctl
  | onAccept c => exact ⟨_, rfl⟩
  | onRead c rest => exact ⟨_, rfl⟩
  | onClose c =>
      obtain ⟨ch, th, hafter⟩ := TcpChannel.afterOnClose_total (c := c)
        (h.posts.sound (h.lt_size_of_onClose hwhere)).toSound (h.idles.channel c)
        (h.apart.sound c)
      dsimp only
      rw [hafter]
      exact ⟨_, rfl⟩
  | onWrite c =>
      obtain ⟨r, hafter⟩ := TcpChannel.writeLoop_some (c := c)
        (h.posts.sound (h.lt_size_of_onWrite hwhere))
      dsimp only
      rw [hafter]
      exact ⟨_, rfl⟩

/-- The calls of the application return. -/
theorem Ready.call_some (h : Ready w) (hc : c < w.size) (op : AppOp) :
  ∃ r, (w.channels c).call c w.thread op = some r
  := by
  by_cases hsubmit : op = .submit
  · rw [hsubmit]
    exact TcpChannel.submit_some (h.posts.sound hc)
  · exact TcpChannel.call_total (h.posts.sound hc).toSound (h.apart.sound c) (h.idles.channel c)
      hsubmit

/-- Every event that can come next has an outcome, unless the accept coroutine cannot arm its
accept. -/
theorem Sturdy.step_none_iff (h : Sturdy w) (hpossible : w.Possible e) (hadmits : w.Admits e) :
  w.step e = none ↔ w.RearmsAccept e ∧ w.Full
  := by
  have hreturns : (∃ r, w.stepResult e = some r) → ¬ w.RearmsAccept e →
      (w.step e = none ↔ w.RearmsAccept e ∧ w.Full) := by
    rintro ⟨r, hresult⟩ hnot
    rw [Worker.step, hresult]
    simp [hnot]
  cases e with
  | submit => exact hreturns ⟨_, if_pos hpossible⟩ id
  | batchDone => exact hreturns ⟨_, if_pos hpossible⟩ id
  | ret =>
      obtain ⟨w', hafter⟩ := h.afterCallback_some hpossible
      exact hreturns ⟨_, congrArg (Option.map _) hafter⟩ id
  | app c op =>
      obtain ⟨r, hcall⟩ := h.call_some hadmits op
      exact hreturns ⟨_, congrArg (Option.map _) hcall⟩ id
  | complete i res more idx data =>
      obtain ⟨hctl, hi⟩ := hpossible
      have hsqe := List.getElem?_eq_getElem hi
      have hcomplete := h.complete_none_iff hsqe (hadmits _ hsqe)
      rw [Worker.step, stepResult, if_pos hctl, hsqe, Option.bind_some, Option.map_eq_none_iff,
        Option.map_eq_none_iff, hcomplete, RearmsAccept, hsqe]
      simp [and_assoc]

section

variable {depth : ℕ} {ringBits ringBufSize : ℕ} {hringPos : 0 < ringBufSize}
  {halloc : 2 ^ ringBits * ringBufSize < 2 ^ 31} {poolBits capBits : Fin 31} {bits bufSize : ℕ}
  {hbits : bits ≤ 30} {hpos : 0 < bufSize} {hlt : bufSize < 2 ^ 31} {pool : BufPool}

/-- At the start no write coroutine waits. -/
theorem sturdy_start (hpool : BufPool.new bits bufSize hbits hpos hlt = some pool)
    (hsmall : 2 ^ bits * bufSize < 2 ^ 31) :
  Sturdy (start depth (BufRing.new ringBits ringBufSize hringPos halloc) pool poolBits capBits)
  := by
  refine ⟨ready_start depth hpool poolBits capBits, ?_, BufPool.addressable_of_new hpool hsmall⟩
  intro c _
  apply WriteSide.counted_of_ne
  intro submittedBytes hco
  cases hco

end

end Worker

end Proactor
