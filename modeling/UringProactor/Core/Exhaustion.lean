import UringProactor.Core.ByteStream
import UringProactor.Core.ReadSteps
import UringProactor.Core.UdpSteps

/-!
# A full submission queue

When `io_uring_get_sqe` returns null, `get_sqe` throws, and `unhandled_exception` swallows the
exception and ends the coroutine.  As long as the submission queue has room for the SQEs that an
event may prepare, no coroutine of an open channel ends, and what was submitted is covered by an
SQE or waits in a queue that a coroutine drains.
-/

namespace Proactor

namespace ReadSide

variable {c : ℕ} {s s' : ReadSide} {l : ReadLabel}

/-- The read coroutine ends only when the channel is closed or `get_sqe` throws. -/
def Lives (s : ReadSide) : Prop := s.co = .finished → s.closing = true ∨ s.failed = true

theorem Rests.lives (h : Rests s s') (hlives : s.Lives) :
  s'.Lives
  := by
  intro hco
  rw [h.co] at hco
  apply (hlives hco).imp h.closing h.failed

theorem Step.lives (h : Step c s l s') (hlives : s.Lives) :
  s'.Lives
  := by
  cases h with
  | quiet hrests => exact hrests.lives hlives
  | assign co failed hco _ hrests =>
      apply hrests.lives
      intro hfinished
      apply Or.inr
      rcases hco with hawaiting | ⟨-, hfailed⟩
      · cases hawaiting.symm.trans hfinished
      · apply hfailed
  | stale =>
      rw [filled_eq_with]
      apply hlives
  | recv _ hreceives =>
      cases hreceives with
      | received => nofun
      | ended _ hrests =>
          intro hfinished
          cases hrests.co.symm.trans hfinished
      | threw => exact fun _ => .inr rfl
  | closed _ hclosing => exact fun _ => .inl hclosing
  | peek => exact hlives
  | consume => exact hlives
  | serve => exact hlives

end ReadSide

namespace WriteSide

variable {s s' : WriteSide} {l : WriteLabel}

/-- The write coroutine ends only when the channel is closed or `get_sqe` throws. -/
def Lives (s : WriteSide) : Prop := s.co = .finished → s.closing = true ∨ s.failed = true

theorem Runs.lives (h : Runs s s') :
  s'.Lives
  := by
  cases h with
  | finish hclosing => exact fun _ => .inl hclosing
  | suspend => nofun
  | prepare => nofun
  | throw => exact fun _ => .inr rfl

theorem Notifies.lives (h : Notifies s s') (hlives : s.Lives) :
  s'.Lives
  := by
  cases h with
  | resume _ hrun => exact hrun.lives
  | mark => exact hlives

theorem Stirs.lives (h : Stirs s s') (hlives : s.Lives) :
  s'.Lives
  := by
  cases h with
  | rest closing failed hclosing hfailed =>
      intro hco
      apply (hlives hco).imp hclosing hfailed
  | notify s₁ closing failed hclosing hfailed hnotify =>
      have hlives₁ : s₁.Lives := by
        apply hnotify.lives
        intro hco
        apply (hlives hco).imp_left hclosing
      intro hco
      apply (hlives₁ hco).imp_right hfailed

theorem Step.lives (h : Step s l s') (hlives : s.Lives) :
  s'.Lives
  := by
  cases h with
  | quiet hstirs => exact hstirs.lives hlives
  | append => exact hlives
  | prepend => exact hlives
  | submit _ hnotify =>
      apply hnotify.lives
      apply hlives
  | written _ _ _ _ hdrain _ =>
      apply hdrain.lives
      nofun
  | failed _ _ _ _ hclosing => exact fun _ => .inl hclosing
  | stale => exact hlives
  | returned hrun => exact hrun.lives
  | assign _ _ hrun => exact hrun.lives

/-- On an open channel, and without a failure of `io_uring_get_sqe`, a successful `submit` puts
the pending blocks into the send queue. -/
theorem Step.sendList_of_submit (h : Step s .submit s') (hsound : s.buf.Sound s.pool)
    (hopen : s.closing = false) (hsqe : s'.failed = false) :
  s'.buf.sendList = s.buf.sendList ++ s.buf.pendingList
  := by
  cases h with
  | @submit buf _ hsubmit hnotify =>
      obtain ⟨-, -, -, -, hsend, -⟩ := WriteBufStream.submit_spec hsound hsubmit
      rw [if_pos rfl] at hsend
      rw [← hsend]
      cases hnotify with
      | mark => rfl
      | resume _ hrun =>
          cases hrun with
          | finish hclosing => cases hopen.symm.trans hclosing
          | suspend => rfl
          | prepare _ hpeek => exact congrArg WriteBufBase.sendList (peekIovec_base hpeek).1
          | throw => cases hsqe

end WriteSide

namespace Worker

open WriteSide

variable {w w' : Worker} {e : Event} {ok : Bool} {c : ℕ}

/-! ### The coroutines of open channels -/

/-- The coroutines of a channel end only when it is closed or `get_sqe` throws. -/
structure Lives (w : Worker) : Prop where
  read : ∀ c, (w.readSide c).Lives
  write : ∀ c, (w.writeSide c).Lives

theorem Writes.failed_mono {x : Option (ℕ × WriteLabel)} (h : Writes w w' x)
    (hfailed : w.thread.ioRing.failed = true) :
  w'.thread.ioRing.failed = true
  := by
  cases h with
  | none _ hside => exact (congrArg WriteSide.failed (hside 0)).trans hfailed
  | acts _ hstep => exact hstep.failed_mono hfailed

theorem Lives.step (h : Lives w) (hsteps : Steps w e ok w') (hadmits : w.Admits e) :
  Lives w'
  := by
  have hreads := hsteps.reads
  have hwrites := hsteps.writes hadmits
  have hfailed := hwrites.failed_mono
  generalize w.readLabel e = x at hreads
  generalize w.writeLabel ok e = y at hwrites
  constructor
  · intro d
    cases hreads with
    | none hside =>
        rw [hside]
        intro hco
        apply (h.read d hco).imp_right hfailed
    | @acts c l hstep hother =>
        by_cases hd : d = c
        · rw [hd]
          apply hstep.lives (h.read c)
        · rw [hother d hd]
          intro hco
          apply (h.read d hco).imp_right hfailed
  · intro d
    cases hwrites with
    | none _ hside =>
        rw [hside]
        apply h.write
    | @acts c l _ hstep hother =>
        by_cases hd : d = c
        · rw [hd]
          apply hstep.lives (h.write c)
        · rw [hother d hd]
          intro hco
          apply (h.write d hco).imp_right hfailed

/-! ### What was submitted -/

/-- The application submits only on channels whose write coroutine is alive. -/
def SubmitsAlive (w : Worker) : Event → Prop
  | .app c .submit => ¬ (w.channels c).writeCo.Dead
  | _ => True

instance (w : Worker) (e : Event) : Decidable (w.SubmitsAlive e) :=
  match e with
  | .app _ .submit => inferInstanceAs (Decidable (¬ _))
  | .app _ (.append _) | .app _ (.prepend _) | .app _ (.peek _) | .app _ (.consume _)
  | .app _ .close | .submit | .complete .. | .batchDone | .ret => inferInstanceAs (Decidable True)

/-- The submitted blocks of the channel `c` are in the send queue of a live write coroutine, each
once.  The head of the queue is in the `writev` SQE that the coroutine waits for, if there is one,
and the blocks behind it are in none. -/
structure Queued (w : Worker) (c : ℕ) : Prop where
  alive : (w.channels c).writeBuf.sendList ≠ [] → ¬ (w.channels c).writeCo.Dead
  nodup : (w.channels c).writeBuf.sendList.Nodup
  outstanding_le : w.thread.ioRing.outstanding (.write c) ≤ 1
  covered : ∀ sqe ∈ w.thread.ioRing.sq ++ w.thread.ioRing.inflight, sqe.data = .write c →
    ∃ submittedBytes, (w.channels c).writeCo = .onToken submittedBytes
      ∧ (w.channels c).writeBuf.Covers w.thread.bufPool sqe.op.nr submittedBytes

/-- What holds as long as the submission queue has room. -/
structure Drained (w : Worker) : Prop where
  safe : Inv Conn.Safe w
  posts : Posts w
  failed : w.thread.ioRing.failed = false
  vacant : ∀ c < w.size, (w.channels c).writeCo.Dead → (w.channels c).writeBuf.sendList = []

theorem Drained.step (h : Drained w) (hruns : w.Runs Conn.Settled e) (hroomy : w.Roomy e)
    (halive : w.SubmitsAlive e) (hresult : w.stepResult e = some (ok, w')) :
  Drained w'
  := by
  obtain ⟨hadmits, hsettled⟩ := hruns
  have hstep : w.step e = some w' := congrArg (Option.map Prod.snd) hresult
  have hsize := h.safe.size_step (fun _ hk => hk) hadmits hstep
  obtain ⟨hposts, hstreams⟩ := h.posts.step h.safe hadmits hresult
  have hsqe := (step_cases hresult).failed_eq hroomy h.failed
  constructor
  · apply h.safe.step (fun _ hk => hk) _ hadmits hsettled hstep
    intro k k' a hk hok hstep
    apply hk.step hok hstep
  · apply hposts
  · apply hsqe
  · intro c hc hdead
    rw [hsize] at hc
    obtain hown | ⟨hdead₀, hbuf | ⟨-, hsend⟩ | ⟨hlabel, -⟩⟩ := hstreams.vacates hsqe c hc hdead
    · exact hown.2
    · change (w'.channels c).writeBuf = (w.channels c).writeBuf at hbuf
      rw [hbuf]
      apply h.vacant c hc hdead₀
    · apply hsend.trans (h.vacant c hc hdead₀)
    · exfalso
      cases labels_of_writeLabel (eq_some_of_labelAt hlabel nofun) with
      | submit => exact halive hdead₀

theorem Drained.queued (h : Drained w) (hc : c < w.size) :
  Queued w c
  := by
  have hposted := h.posts.posted c hc
  constructor
  · intro hne hdead
    apply hne (h.vacant c hc hdead)
  · apply List.Nodup.of_append_right (List.Nodup.of_append_right (h.posts.sound hc).nodup)
  · rw [← IoRing.card_writevs]
    apply hposted.card_writevs.trans_le
    apply WriteCo.tokens_le
  · intro sqe hmem hdata
    apply hposted.onToken (IoRing.mem_writevs hmem hdata)

end Worker

/-! ### UDP -/

namespace UdpWorker

variable {w w' : UdpWorker} {e : UdpEvent} {ok : Bool}

/-- The number of SQEs an event may prepare. -/
def demand : UdpEvent → ℕ
  | .complete .. => 1
  | .app (.submit _) => 1
  | .app (.submitIp _) => 1
  | _ => 0

/-- The submission queue has room for the SQEs the event may prepare. -/
def Roomy (w : UdpWorker) (e : UdpEvent) : Prop :=
  w.thread.ioRing.sq.length + demand e ≤ w.thread.ioRing.depth

instance (w : UdpWorker) (e : UdpEvent) : Decidable (w.Roomy e) :=
  inferInstanceAs (Decidable (_ ≤ _))

/-- With room for one SQE, resuming the read coroutine does not fail. -/
theorem failed_resumeRead {ch : UdpChannel} {th : UdpThread} {res : Int} {more : Bool} {idx : ℕ}
    (hroom : th.ioRing.sq.length + 1 ≤ th.ioRing.depth) :
  (ch.resumeRead th res more idx).2.1.ioRing.failed = th.ioRing.failed
  := by
  rw [UdpChannel.resumeRead]
  have hrearm : ∃ r, UdpChannel.rearmRecvmsg th.ioRing ch.fd more = some r
      ∧ r.failed = th.ioRing.failed := by
    rw [UdpChannel.rearmRecvmsg]
    split
    case isTrue => exact ⟨_, rfl, rfl⟩
    case isFalse =>
      rw [UdpRing.prep, if_pos (Nat.lt_of_succ_le hroom)]
      exact ⟨_, rfl, rfl⟩
  obtain ⟨r, hr, hfailed⟩ := hrearm
  rw [hr]
  dsimp only
  split
  · exact hfailed
  · exact hfailed

theorem failed_reap (r : UdpRing) (i : ℕ) (more : Bool) :
  (r.reap i more).failed = r.failed ∧ (r.reap i more).depth = r.depth
  := by
  cases more <;> exact ⟨rfl, rfl⟩

/-- With room in the submission queue, a completion does not fail to get an SQE. -/
theorem failed_complete {i idx : ℕ} {res : Int} {more : Bool} {data : List UInt8}
    (hroomy : w.Roomy (.complete i res more idx data))
    (hstep : w.stepResult (.complete i res more idx data) = some (ok, w')) :
  w'.thread.ioRing.failed = w.thread.ioRing.failed
  := by
  have hreap := failed_reap w.thread.ioRing i more
  rw [stepResult] at hstep
  split at hstep
  case isFalse => cases hstep
  case isTrue =>
    obtain ⟨sqe, -, hcomplete⟩ := Option.bind_eq_some_iff.mp hstep
    obtain ⟨w₁, hcomplete, heq⟩ := Option.map_eq_some_iff.mp hcomplete
    cases heq
    obtain ⟨hring, -⟩ := kernel_spec w.thread i sqe res more idx data
    have hkernel : (kernel w.thread i sqe res more idx data).ioRing.failed
        = w.thread.ioRing.failed := by
      rw [hring, hreap.1]
    cases sqe with
    | readWakeup =>
        cases hcomplete
        exact hkernel
    | multishotRecvmsg fd =>
        rw [complete] at hcomplete
        dsimp only at hcomplete
        split at hcomplete
        case isFalse =>
          cases hcomplete
          exact hkernel
        case isTrue =>
          cases hcomplete
          apply (failed_resumeRead _).trans hkernel
          rw [hring, hreap.2, UdpRing.sq_reap]
          apply hroomy
    | sendmsg fd slot =>
        rw [complete] at hcomplete
        split at hcomplete
        case isFalse => cases hcomplete
        case isTrue =>
          obtain ⟨_, -, rfl⟩ := Option.map_eq_some_iff.mp hcomplete
          exact hkernel

/-- With room in the submission queue, `submit` gives its datagram an SQE or refuses it. -/
theorem Inv.sends_submit (h : Inv w) {op : UdpOp} {addr : List UInt8}
    (hop : op = .submit addr ∨ op = .submitIp addr) (hadmits : w.Admits (.app op))
    (hroomy : w.Roomy (.app op)) (hfailed : w.thread.ioRing.failed = false)
    (hstep : w.stepResult (.app op) = some (ok, w')) :
  w'.thread.ioRing.failed = false
    ∧ (ok = true → ∃ slot, w.thread.msghdrPool.acquire.map Prod.fst = some slot
      ∧ w'.thread.ioRing.sends.Perm (slot :: w.thread.ioRing.sends))
  := by
  have haddr : addr.length ≤ sockaddrStorage := by
    obtain rfl | rfl := hop
    · exact hadmits
    · exact hadmits
  have hroom : w.thread.ioRing.sq.length < w.thread.ioRing.depth := by
    obtain rfl | rfl := hop
    · exact hroomy
    · exact hroomy
  obtain ⟨ok', ch, th, heq, hsubmits⟩ := h.submits hop haddr
  rw [heq] at hstep
  cases hstep
  cases hsubmits with
  | refused => exact ⟨hfailed, nofun⟩
  | @accepted _ _ slot _ _ hdescribes =>
      refine ⟨hfailed, fun _ => ⟨slot, hdescribes.acquire, ?_⟩⟩
      apply UdpRing.sends_prep w.thread.ioRing (.sendmsg w.channel.fd slot)
  | stuck _ _ _ _ hfull =>
      have hle := hfull hfailed
      omega

/-- With room in the submission queue, `io_uring_get_sqe` does not fail. -/
theorem Inv.failed_eq (h : Inv w) (hadmits : w.Admits e) (hroomy : w.Roomy e)
    (hfailed : w.thread.ioRing.failed = false) (hstep : w.stepResult e = some (ok, w')) :
  w'.thread.ioRing.failed = false
  := by
  cases e with
  | complete => exact (failed_complete hroomy hstep).trans hfailed
  | submit =>
      rw [stepResult] at hstep
      split at hstep
      · cases hstep
        exact hfailed
      · cases hstep
  | batchDone =>
      rw [stepResult] at hstep
      split at hstep
      · cases hstep
        exact hfailed
      · cases hstep
  | ret =>
      obtain ⟨w₁, hafter, heq⟩ := Option.map_eq_some_iff.mp hstep
      cases heq
      rw [afterCallback] at hafter
      split at hafter <;> cases hafter <;> exact hfailed
  | app op =>
      cases op with
      | submit addr => exact (h.sends_submit (.inl rfl) hadmits hroomy hfailed hstep).1
      | submitIp addr => exact (h.sends_submit (.inr rfl) hadmits hroomy hfailed hstep).1
      | append data =>
          cases h.step_cases hadmits hstep with
          | append => exact hfailed
          | quiet he => cases he
          | submits hop => rcases hop with hop | hop <;> cases hop
      | prepend data =>
          cases h.step_cases hadmits hstep with
          | prepend => exact hfailed
          | quiet he => cases he
          | submits hop => rcases hop with hop | hop <;> cases hop
      | peek valid =>
          cases eq_of_peek hstep
          exact hfailed
      | consume =>
          cases hstep
          exact hfailed

/-- Both coroutines are alive, every slot is free, queued or in an SQE, and only once, and none
is queued. -/
structure Served (w : UdpWorker) : Prop where
  read : w.channel.readCo ≠ .finished
  write : w.channel.writeCo ≠ .finished
  slots : (w.thread.msghdrPool.freeList
    ++ (w.channel.writeBuf.slotList ++ w.thread.ioRing.sends)).Perm
      (List.range (2 ^ w.thread.msghdrPool.bits))
  queue : w.channel.writeBuf.slotList = []

/-- As long as `io_uring_get_sqe` has succeeded, all datagrams are served. -/
theorem Inv.served (h : Inv w) (hfailed : w.thread.ioRing.failed = false) :
  Served w
  := by
  constructor
  · apply h.reading hfailed
  · cases h.ready with
    | idle hidle =>
        rw [hidle.writeCo]
        nofun
    | dead _ hfailed' => cases hfailed.symm.trans hfailed'
  · apply h.sound.slots
  · apply h.queue_eq_nil hfailed

end UdpWorker

/-! ### Runs -/

section

variable (depth : ℕ) (bufRing : BufRing) (poolBits capBits : Fin 31) {bits bufSize : ℕ}
  {hbits : bits ≤ 30} {hpos : 0 < bufSize} {hlt : bufSize < 2 ^ 31} {pool : BufPool}

namespace Worker

variable {w : Worker}

/-- With room in the submission queue, `io_uring_get_sqe` has not failed, and the coroutines end
only when their channel is closed. -/
theorem lives_of_reaches
    (h : Reaches step (fun w e => w.Admits e ∧ w.Roomy e)
      (start depth bufRing pool poolBits capBits) w) :
  Lives w ∧ w.thread.ioRing.failed = false
  := by
  apply h.invariant
  · refine ⟨⟨?_, ?_⟩, rfl⟩
    · nofun
    · nofun
  · rintro w w' e ⟨hlives, hfailed⟩ ⟨hadmits, hroomy⟩ hstep
    obtain ⟨⟨ok, _⟩, hresult, rfl⟩ := Option.map_eq_some_iff.mp hstep
    have hsteps := step_cases hresult
    exact ⟨hlives.step hsteps hadmits, hsteps.failed_eq hroomy hfailed⟩

theorem drained_of_reaches (hpool : BufPool.new bits bufSize hbits hpos hlt = some pool)
    (h : Reaches step (fun w e => w.Runs Conn.Settled e ∧ w.Roomy e ∧ w.SubmitsAlive e)
      (start depth bufRing pool poolBits capBits) w) :
  Drained w
  := by
  apply h.invariant
  · constructor
    · apply start_inv
      constructor <;> decide
    · apply posts_start depth bufRing poolBits capBits hpool
    · rfl
    · intro c _ _
      exact (Circular.toList_eq_nil_iff _).mpr rfl
  · rintro w w' e hdrained ⟨hruns, hroomy, halive⟩ hstep
    obtain ⟨⟨ok, _⟩, hresult, rfl⟩ := Option.map_eq_some_iff.mp hstep
    apply hdrained.step hruns hroomy halive hresult

end Worker

/-- With room in the submission queue nothing is lost.  In every run of a TCP worker in which the
queue has room for the SQEs that an event may prepare, no coroutine of an open channel has
finished; if moreover the actions are settled and `submit` is called only while the write
coroutine is alive, submitted blocks are in the send queue of a live write coroutine, and its
`writev` covers the head of this queue.  In every run of a UDP worker with such room both
coroutines are alive, and a `submit` that returns `true` has put its slot into an SQE. -/
theorem survives_with_room (hpool : BufPool.new bits bufSize hbits hpos hlt = some pool) :
  (∀ w, Reaches Worker.step (fun w e => w.Admits e ∧ w.Roomy e)
      (Worker.start depth bufRing pool poolBits capBits) w →
    ∀ c, (w.channels c).isClosing = false →
      (w.channels c).readCo ≠ .finished ∧ (w.channels c).writeCo ≠ .finished)
  ∧ (∀ w, Reaches Worker.step (fun w e => w.Runs Conn.Settled e ∧ w.Roomy e ∧ w.SubmitsAlive e)
      (Worker.start depth bufRing pool poolBits capBits) w →
    ∀ c < w.size, w.Queued c
      ∧ ∀ w', (w.channels c).isClosing = false → w.Roomy (.app c .submit) →
        w.stepResult (.app c .submit) = some (true, w') →
          (w'.channels c).writeBuf.sendList
            = (w.channels c).writeBuf.sendList ++ (w.channels c).writeBuf.pendingList)
  ∧ ∀ (fd : Int) (slotBits maxIov : ℕ) (hslot : slotBits ≤ 30) (hmax : 0 < maxIov),
    2 ^ bits * bufSize < 2 ^ 31 →
    ∀ w, Reaches UdpWorker.step (fun w e => w.Admits e ∧ w.Roomy e)
      (UdpWorker.start depth fd bufRing pool (.new slotBits maxIov hslot hmax) capBits) w →
    w.Served
      ∧ ∀ op addr w', op = .submit addr ∨ op = .submitIp addr → w.Admits (.app op) →
        w.Roomy (.app op) → w.stepResult (.app op) = some (true, w') →
          ∃ slot, w.thread.msghdrPool.acquire.map Prod.fst = some slot
            ∧ w'.thread.ioRing.sends.Perm (slot :: w.thread.ioRing.sends)
  := by
  refine ⟨?_, ?_, ?_⟩
  · intro w h c hopen
    obtain ⟨hlives, hfailed⟩ := Worker.lives_of_reaches depth bufRing poolBits capBits h
    have hnot : ¬ ((w.channels c).isClosing = true ∨ w.thread.ioRing.failed = true) := by
      simp [hopen, hfailed]
    exact ⟨fun hco => hnot (hlives.read c hco), fun hco => hnot (hlives.write c hco)⟩
  · intro w h c hc
    have hdrained := Worker.drained_of_reaches depth bufRing poolBits capBits hpool h
    refine ⟨hdrained.queued hc, ?_⟩
    intro w' hopen hroomy hresult
    have hsteps := Worker.step_cases hresult
    have hsqe := hsteps.failed_eq hroomy hdrained.failed
    cases hsteps.writes (e := .app c .submit) hc with
    | acts _ hstep =>
        apply hstep.sendList_of_submit (hdrained.posts.sound hc) hopen hsqe
  · intro fd slotBits maxIov hslot hmax hbytes w h
    have hinv : w.Inv ∧ w.thread.ioRing.failed = false := by
      apply h.invariant
      · exact ⟨UdpWorker.inv_start depth fd bufRing hpool hbytes slotBits maxIov hslot hmax capBits,
          rfl⟩
      · rintro w w' e ⟨hinv, hfailed⟩ ⟨hadmits, hroomy⟩ hstep
        obtain ⟨⟨ok, _⟩, hresult, rfl⟩ := Option.map_eq_some_iff.mp hstep
        exact ⟨hinv.steps (hinv.step_cases hadmits hresult),
          hinv.failed_eq hadmits hroomy hfailed hresult⟩
    obtain ⟨hinv, hfailed⟩ := hinv
    refine ⟨hinv.served hfailed, ?_⟩
    intro op addr w' hop hadmits hroomy hresult
    apply (hinv.sends_submit hop hadmits hroomy hfailed hresult).2 rfl

end

/-- A connection sends a byte in `on_accept`, and a datagram is sent. -/
theorem survives_with_room_one_byte :
  ∃ pool w u, BufPool.new 1 2 (by decide) (by decide) (by decide) = some pool
    ∧ Reaches Worker.step (fun w e => w.Runs Conn.Settled e ∧ w.Roomy e ∧ w.SubmitsAlive e)
      (Worker.start 8 (BufRing.new 0 1 (by decide) (by decide)) pool 0 1) w
    ∧ Reaches UdpWorker.step (fun w e => w.Admits e ∧ w.Roomy e)
      (UdpWorker.start 8 5 (BufRing.new 0 1 (by decide) (by decide)) pool
        (.new 1 2 (by decide) (by decide)) 1) u
    ∧ (w.channels 0).writeBuf.sendList ≠ [] ∧ w.Queued 0
    ∧ u.thread.ioRing.sends = [0] ∧ u.Served
  := by
  have hrun : (BufPool.new 1 2 (by decide) (by decide) (by decide)).map (fun pool =>
      ((Reaches.follow Worker.step
        (fun w e => w.Runs Conn.Settled e ∧ w.Roomy e ∧ w.SubmitsAlive e)
        [.submit, .complete 0 5 true 0 [], .app 0 (.append [1]), .app 0 .submit]
        (Worker.start 8 (BufRing.new 0 1 (by decide) (by decide)) pool 0 1)).map
          (fun w => ((w.channels 0).writeBuf.sendList, w.size)),
      (Reaches.follow UdpWorker.step (fun w e => w.Admits e ∧ w.Roomy e)
        [.submit, .app (.append [1]), .app (.submit [9])]
        (UdpWorker.start 8 5 (BufRing.new 0 1 (by decide) (by decide)) pool
          (.new 1 2 (by decide) (by decide)) 1)).map (fun u => u.thread.ioRing.sends)))
      = some (some ([0], 1), some [0]) := by
    decide +kernel
  obtain ⟨pool, hpool, hfollow⟩ := Option.map_eq_some_iff.mp hrun
  obtain ⟨htcp, hudp⟩ := Prod.mk.inj hfollow
  obtain ⟨w, hw, hsend⟩ := Reaches.of_follow _ htcp
  obtain ⟨u, hu, hsends⟩ := Reaches.of_follow _ hudp
  obtain ⟨hsend, hsize⟩ := Prod.mk.inj hsend
  obtain ⟨-, hqueued, hserved⟩ :=
    survives_with_room 8 (BufRing.new 0 1 (by decide) (by decide)) 0 1 hpool
  refine ⟨pool, w, u, hpool, hw, hu, ?_, ?_, hsends, ?_⟩
  · simp [hsend]
  · apply (hqueued w hw 0 (by omega)).1
  · apply (hserved 5 1 2 (by decide) (by decide) (by decide) u hu).1

/-- A submission queue with two entries.  Two connections are accepted in one batch, which takes
both entries; in `on_accept` of the second one `append` and `submit` return `true`, but the write
coroutine ends without an SQE, with the block in the send queue of the open channel.  A third
datagram in one callback is queued likewise, and its write coroutine ends. -/
theorem full_queue_ends_coroutines :
  ∃ pool w w' u u', BufPool.new 2 1 (by decide) (by decide) (by decide) = some pool
    ∧ Reaches Worker.step Worker.Admits
      (Worker.start 2 (BufRing.new 0 1 (by decide) (by decide)) pool 1 0) w
    ∧ w.stepResult (.app 1 .submit) = some (true, w')
    ∧ ((w'.channels 1).isClosing = false ∧ (w'.channels 1).writeCo = .finished
      ∧ (w'.channels 1).writeBuf.sendList = [0]
      ∧ w'.thread.ioRing.outstanding (.write 1) = 0)
    ∧ Reaches UdpWorker.step UdpWorker.Admits
      (UdpWorker.start 2 5 (BufRing.new 0 1 (by decide) (by decide)) pool
        (.new 2 1 (by decide) (by decide)) 2) u
    ∧ u.stepResult (.app (.submit [9])) = some (true, u')
    ∧ u'.channel.writeCo = .finished ∧ u'.channel.writeBuf.slotList = [2]
    ∧ u'.thread.ioRing.sends = [0, 1]
  := by
  have htcp : (BufPool.new 2 1 (by decide) (by decide) (by decide)).bind (fun pool =>
      (Reaches.follow Worker.step Worker.Admits
        [.submit, .complete 0 5 true 0 [], .ret, .complete 0 6 true 0 [], .app 1 (.append [1])]
        (Worker.start 2 (BufRing.new 0 1 (by decide) (by decide)) pool 1 0)).map
          (fun w => (w.stepResult (.app 1 .submit)).map (fun r => (r.1, decide
            ((r.2.channels 1).isClosing = false ∧ (r.2.channels 1).writeCo = .finished
              ∧ (r.2.channels 1).writeBuf.sendList = [0]
              ∧ r.2.thread.ioRing.outstanding (.write 1) = 0)))))
      = some (some (true, true)) := by
    decide +kernel
  have hudp : (BufPool.new 2 1 (by decide) (by decide) (by decide)).bind (fun pool =>
      (Reaches.follow UdpWorker.step UdpWorker.Admits
        [.submit, .complete 0 1 true 0 [7], .app (.append [1]), .app (.submit [9]),
          .app (.append [2]), .app (.submit [9]), .app (.append [3])]
        (UdpWorker.start 2 5 (BufRing.new 0 1 (by decide) (by decide)) pool
          (.new 2 1 (by decide) (by decide)) 2)).map
            (fun u => (u.stepResult (.app (.submit [9]))).map (fun r => (r.1, decide
              (r.2.channel.writeCo = .finished ∧ r.2.channel.writeBuf.slotList = [2]
                ∧ r.2.thread.ioRing.sends = [0, 1])))))
      = some (some (true, true)) := by
    decide +kernel
  obtain ⟨pool, hpool, htcp⟩ := Option.bind_eq_some_iff.mp htcp
  rw [hpool, Option.bind_some] at hudp
  obtain ⟨w, hw, hsubmit⟩ := Reaches.of_follow _ htcp
  obtain ⟨u, hu, hsend⟩ := Reaches.of_follow _ hudp
  obtain ⟨⟨ok, w'⟩, hw', hfinal⟩ := Option.map_eq_some_iff.mp hsubmit
  obtain ⟨⟨ok', u'⟩, hu', hfinal'⟩ := Option.map_eq_some_iff.mp hsend
  obtain ⟨rfl, hlast⟩ := Prod.mk.inj hfinal
  obtain ⟨rfl, hlast'⟩ := Prod.mk.inj hfinal'
  exact ⟨pool, w, w', u, u', hpool, hw, hw', of_decide_eq_true hlast, hu, hu',
    of_decide_eq_true hlast'⟩

end Proactor
