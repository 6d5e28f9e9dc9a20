import UringProactor.Core.TcpThread
import UringProactor.Net.Refinement

/-!
# The worker simulates the lifecycle of its channels

Every event of a worker is an action on at most one channel.  It changes the view of that
channel as the lifecycle says, leaves all other channels as they are, and moves control
accordingly.
-/

namespace Proactor

namespace Worker

variable {w w' : Worker} {c d : ℕ} {e : Event} {a : Action} {ok : Bool}

/-- What the lifecycle sees of the channel `c`. -/
def view (w : Worker) (c : ℕ) : Conn := (w.channels c).view c w.thread

/-- The action of an event, and the channel it acts on. -/
def action (w : Worker) : Event → Option (ℕ × Action)
  | .complete i res more _ _ =>
      match w.thread.ioRing.inflight[i]? with
      | none => none
      | some sqe =>
          match sqe.data with
          | .wakeup => none
          | .accept =>
              if w.accepting = true ∧ 0 ≤ res then
                w.thread.channelPool.acquire.map (fun (c, _) => (c, .assign))
              else
                none
          | .read c =>
              if (w.channels c).readCo = .awaiting then
                some (c, .recv (res ≤ 0) more)
              else if more then
                none
              else
                some (c, .staleRecv)
          | .write c =>
              if (w.channels c).writeCo.tokens = 1 then
                some (c, .written (res ≤ 0))
              else
                some (c, .staleWrite)
  | .ret =>
      match w.ctl with
      | .onClose c => some (c, .onCloseReturns)
      | .onWrite c => some (c, .onWriteReturns)
      | _ => none
  | .app c .submit => if (w.channels c).writeBuf.submit.1 then some (c, .submit) else none
  | .app c .close => some (c, .close)
  | _ => none

/-- Where control has to be for an action on the channel `c`. -/
def Allows (ctl : Ctl) (c : ℕ) : Action → Prop
  | .onCloseReturns => ctl = .onClose c
  | .onWriteReturns => ctl = .onWrite c
  | .submit => True
  | .close => True
  | _ => ctl = .batch

/-- Where control is after an action on the channel `c`. -/
def after (ctl : Ctl) (c : ℕ) : Action → Ctl
  | .assign => .onAccept c
  | .recv ended _ => if ended then .onClose c else .batch
  | .written failed => if failed then .batch else .onWrite c
  | .onCloseReturns => .batch
  | .onWriteReturns => .batch
  | _ => ctl

/-- Control is in no callback of a coroutine of a channel. -/
def Outside (ctl : Ctl) : Prop := ∀ c, ctl ≠ .onClose c ∧ ctl ≠ .onWrite c

/-- A step that is an action on the channel `c`. -/
structure Moves (w : Worker) (c : ℕ) (a : Action) (w' : Worker) : Prop where
  allowed : Allows w.ctl c a
  ctl : w'.ctl = after w.ctl c a
  keeps : w.thread.Keeps c w'.thread
  channels : ∀ d, d ≠ c → w'.channels d = w.channels d
  step : Conn.Step (w.view c) a (w'.view c)

/-- A step that no channel sees. -/
structure Stays (w w' : Worker) : Prop where
  ctl : w'.ctl = w.ctl ∨ Outside w.ctl ∧ Outside w'.ctl
  bits : w'.thread.channelPool.bits = w.thread.channelPool.bits
  view : ∀ d, w'.view d = w.view d
  failed : w'.thread.ioRing.failed = false → w.thread.ioRing.failed = false

theorem view_update_self (ch : TcpChannel) (th : TcpThread) :
  (w.update c ch th).view c = ch.view c th
  := by
  simp [view, update]

/-- Control runs in the coroutine whose callback it is in, and in no other. -/
structure Located (w : Worker) : Prop where
  read : ∀ c, (w.view c).read = .running ↔ w.ctl = .onClose c
  write : ∀ c, (w.view c).write = .running ↔ w.ctl = .onWrite c

/-! ### What the kernel changes -/

section

variable {th : TcpThread} {i : ℕ} {sqe : Sqe} (res : Int) (more : Bool) (idx : ℕ)
  (data : List UInt8)

theorem kernel_ioRing (u : UserData) :
  (kernel th i u res more idx data).ioRing = th.ioRing.reap i more
  := by
  cases u with
  | read c => rw [kernel]; split <;> rfl
  | _ => rfl

theorem kernel_channelPool (u : UserData) :
  (kernel th i u res more idx data).channelPool = th.channelPool
  := by
  cases u with
  | read c => rw [kernel]; split <;> rfl
  | _ => rfl

/-- A completion changes the outstanding SQEs of the channel it is for. -/
theorem outstanding_kernel (hsqe : th.ioRing.inflight[i]? = some sqe) (u : UserData) :
  th.ioRing.outstanding u
    = (kernel th i sqe.data res more idx data).ioRing.outstanding u
      + if more = false ∧ sqe.data = u then 1 else 0
  := by
  rw [kernel_ioRing]
  exact IoRing.outstanding_reap u more hsqe

theorem kernel_keeps (hsqe : th.ioRing.inflight[i]? = some sqe)
    (hdata : ∀ d, d ≠ c → sqe.data ≠ .read d ∧ sqe.data ≠ .write d) :
  th.Keeps c (kernel th i sqe.data res more idx data)
  := by
  apply TcpThread.Keeps.of_ring
  · rw [kernel_ioRing]
    exact .reap more hsqe hdata
  · rw [kernel_channelPool]

end

/-! ### Steps -/

/-- An action that replaces the channel `c` and the thread. -/
theorem moves_update {ch : TcpChannel} {th : TcpThread} {ctl : Ctl} (hallowed : Allows w.ctl c a)
    (hctl : ctl = after w.ctl c a) (hkeeps : w.thread.Keeps c th)
    (hstep : Conn.Step (w.view c) a (ch.view c th)) :
  Moves w c a { w.update c ch th with ctl := ctl }
  := by
  refine ⟨hallowed, hctl, hkeeps, ?_, ?_⟩
  · intro d hd
    exact Function.update_of_ne hd _ _
  · change Conn.Step _ a ((w.update c ch th).view c)
    rw [view_update_self]
    exact hstep

/-- A step that changes only what no channel sees. -/
theorem stays_of_keeps (hctl : w'.ctl = w.ctl ∨ Outside w.ctl ∧ Outside w'.ctl)
    (hkeeps : ∀ c, w.thread.Keeps c w'.thread)
    (hview : ∀ d th, (w'.channels d).view d th = (w.channels d).view d th) :
  Stays w w'
  := by
  refine ⟨hctl, (hkeeps 0).bits, ?_, (hkeeps 0).ring.failed⟩
  intro d
  rw [view, hview, (hkeeps (d + 1)).view_eq (by omega)]
  rfl

/-- What a step does: the action of its event, or nothing that a channel sees. -/
def Simulates (w : Worker) (e : Event) (w' : Worker) : Prop :=
  match w.action e with
  | none => Stays w w'
  | some (c, a) => Moves w c a w'

section

variable {i : ℕ} {op : SqeOp} (res : Int) (more : Bool) (idx : ℕ) (data : List UInt8)

/-- A completion of a `recv` lowers the number of outstanding ones, unless more follow. -/
theorem view_kernel_read (hsqe : w.thread.ioRing.inflight[i]? = some ⟨op, .read c⟩) :
  ∃ n, (w.channels c).view c (kernel w.thread i (.read c) res more idx data)
      = { w.view c with recvs := n }
    ∧ (w.view c).recvs = n + (!more).toNat
  := by
  use (kernel w.thread i (.read c) res more idx data).ioRing.outstanding (.read c)
  constructor
  · have hwrites : (kernel w.thread i (.read c) res more idx data).ioRing.outstanding (.write c)
        = w.thread.ioRing.outstanding (.write c) := by
      rw [outstanding_kernel res more idx data hsqe (.write c)]
      simp
    simp only [TcpChannel.view, view, hwrites, kernel_channelPool]
  · change w.thread.ioRing.outstanding (.read c) = _
    rw [outstanding_kernel res more idx data hsqe (.read c)]
    cases more <;> simp

/-- A completion of a `writev` is its last. -/
theorem view_kernel_write (hsqe : w.thread.ioRing.inflight[i]? = some ⟨op, .write c⟩)
    (hmore : more = false) :
  ∃ n, (w.channels c).view c (kernel w.thread i (.write c) res more idx data)
      = { w.view c with writes := n }
    ∧ (w.view c).writes = n + 1
  := by
  use (kernel w.thread i (.write c) res more idx data).ioRing.outstanding (.write c)
  constructor
  · have hrecvs : (kernel w.thread i (.write c) res more idx data).ioRing.outstanding (.read c)
        = w.thread.ioRing.outstanding (.read c) := by
      rw [outstanding_kernel res more idx data hsqe (.read c)]
      simp
    simp only [TcpChannel.view, view, hrecvs, kernel_channelPool]
  · change w.thread.ioRing.outstanding (.write c) = _
    rw [outstanding_kernel res more idx data hsqe (.write c)]
    simp [hmore]

/-- A completion for the read coroutine of the channel `c`. -/
theorem complete_read_simulates (hbatch : w.ctl = .batch)
    (hsqe : w.thread.ioRing.inflight[i]? = some ⟨op, .read c⟩)
    (hroom : (w.view c).inFlight = 1 → w.thread.channelPool.freeList.length < w.size)
    (h : complete { w with thread := kernel w.thread i (.read c) res more idx data } (.read c) res
      more idx = some w') :
  Simulates w (.complete i res more idx data) w'
  := by
  have hkeeps : w.thread.Keeps c (kernel w.thread i (.read c) res more idx data) := by
    apply kernel_keeps res more idx data hsqe
    intro d hd
    simp [Ne.symm hd]
  obtain ⟨n, hview, hrecvs⟩ := view_kernel_read res more idx data hsqe
  rw [complete] at h
  rw [Simulates]
  simp only [action, hsqe]
  split at h
  case isTrue hread =>
    have hread : (w.channels c).readCo = .awaiting := hread
    obtain ⟨⟨ch, th, callback⟩, hresume, rfl⟩ := Option.map_eq_some_iff.mp h
    rw [if_pos hread]
    obtain ⟨hstep, hkeeps', hcallback⟩ := TcpChannel.resumeRead_refines hview hread hrecvs (by
      intro hone _
      rw [kernel_channelPool]
      exact hroom hone) hresume
    refine moves_update (a := .recv (res ≤ 0) more) hbatch ?_ (hkeeps.trans hkeeps') hstep
    rw [hcallback]
    simp [after, hbatch]
  case isFalse hread =>
    have hread : (w.channels c).readCo ≠ .awaiting := hread
    cases h
    rw [if_neg hread]
    cases more with
    | true =>
        refine ⟨.inl rfl, hkeeps.bits, ?_, hkeeps.ring.failed⟩
        intro d
        by_cases hd : d = c
        · rw [hd]
          apply hview.trans
          simp at hrecvs
          rw [← hrecvs]
        · exact hkeeps.view_eq hd _
    | false =>
        refine ⟨hbatch, rfl, hkeeps, fun _ _ => rfl, ?_⟩
        change Conn.Step _ .staleRecv
          ((w.channels c).view c (kernel w.thread i (.read c) res false idx data))
        rw [hview]
        exact .staleRecv hread hrecvs

/-- A completion for the write coroutine of the channel `c`. -/
theorem complete_write_simulates (hbatch : w.ctl = .batch)
    (hsqe : w.thread.ioRing.inflight[i]? = some ⟨op, .write c⟩)
    (hmore : more = false)
    (hroom : (w.view c).inFlight = 1 → w.thread.channelPool.freeList.length < w.size)
    (h : complete { w with thread := kernel w.thread i (.write c) res more idx data } (.write c) res
      more idx = some w') :
  Simulates w (.complete i res more idx data) w'
  := by
  have hkeeps : w.thread.Keeps c (kernel w.thread i (.write c) res more idx data) := by
    apply kernel_keeps res more idx data hsqe
    intro d hd
    simp [Ne.symm hd]
  obtain ⟨n, hview, hwrites⟩ := view_kernel_write res more idx data hsqe hmore
  rw [complete] at h
  rw [Simulates]
  simp only [action, hsqe]
  split at h
  case h_1 submittedBytes hwrite =>
    have hwrite : (w.channels c).writeCo = .onToken submittedBytes := hwrite
    obtain ⟨⟨ch, th, callback⟩, hresume, rfl⟩ := Option.map_eq_some_iff.mp h
    rw [hwrite, WriteCo.tokens_onToken, if_pos rfl]
    obtain ⟨hstep, hkeeps', hcallback⟩ :=
      TcpChannel.resumeWrite_refines hview hwrite hwrites hresume (by
        intro hone _
        rw [kernel_channelPool]
        exact hroom hone)
    refine moves_update (a := .written (res ≤ 0)) hbatch ?_ (hkeeps.trans hkeeps') hstep
    rw [hcallback]
    simp only [after, hbatch]
    grind -linarith
  case h_2 hwrite =>
    have hwrite : ∀ submittedBytes, (w.channels c).writeCo ≠ .onToken submittedBytes := hwrite
    cases h
    have htokens : (w.channels c).writeCo.tokens ≠ 1 := by
      cases hco : (w.channels c).writeCo with
      | onToken submittedBytes => exact absurd hco (hwrite submittedBytes)
      | _ => simp [WriteCo.tokens]
    rw [if_neg htokens]
    refine ⟨hbatch, rfl, hkeeps, fun _ _ => rfl, ?_⟩
    change Conn.Step _ .staleWrite
      ((w.channels c).view c (kernel w.thread i (.write c) res more idx data))
    rw [hview]
    exact .staleWrite hwrite hwrites

/-- A completion for the accept coroutine. -/
theorem complete_accept_simulates (hbatch : w.ctl = .batch)
    (hsqe : w.thread.ioRing.inflight[i]? = some ⟨op, .accept⟩)
    (h : complete { w with thread := kernel w.thread i .accept res more idx data } .accept res
      more idx = some w') :
  Simulates w (.complete i res more idx data) w'
  := by
  have hkernel : ∀ c, w.thread.Keeps c (kernel w.thread i .accept res more idx data) := by
    intro c
    apply kernel_keeps res more idx data hsqe
    simp
  have hpool : (kernel w.thread i .accept res more idx data).channelPool = w.thread.channelPool :=
    kernel_channelPool res more idx data .accept
  rw [Simulates]
  simp only [action, hsqe]
  generalize kernel w.thread i .accept res more idx data = th₀ at h hkernel hpool
  rw [← hpool]
  rw [complete] at h
  split at h
  case isFalse haccepting =>
    cases h
    rw [if_neg (fun hc => haccepting hc.1)]
    exact stays_of_keeps (.inl rfl) hkernel (fun _ _ => rfl)
  case isTrue haccepting =>
    rw [resumeAccept] at h
    split at h
    case isTrue hres =>
      cases h
      rw [if_neg (by omega)]
      exact stays_of_keeps (.inl rfl) hkernel (fun _ _ => rfl)
    case isFalse hres =>
      obtain ⟨ioRing, hrearm, hrest⟩ := Option.bind_eq_some_iff.mp h
      rw [if_pos ⟨haccepting, by omega⟩]
      have hkeeps : ∀ c, w.thread.Keeps c { th₀ with ioRing := ioRing } := by
        intro c
        apply (hkernel c).trans
        rw [rearmAccept] at hrearm
        split at hrearm
        · cases hrearm
          exact .refl
        · exact .of_ioRing (.of_prep hrearm (by simp))
      dsimp only at hrest
      split at hrest
      case h_1 hacquire =>
        cases hrest
        rw [show th₀.channelPool.acquire = none from hacquire]
        exact stays_of_keeps (.inl rfl) hkeeps (fun _ _ => rfl)
      case h_2 c pool hacquire =>
        have hacquire : th₀.channelPool.acquire = some (c, pool) := hacquire
        obtain ⟨⟨ch, th⟩, hassign, heq⟩ := Option.bind_eq_some_iff.mp hrest
        cases heq
        rw [hacquire]
        obtain ⟨hbits, hlist⟩ := TcpChannelPool.freeList_acquire hacquire
        have hkeeps' : w.thread.Keeps c
            { { th₀ with ioRing := ioRing } with channelPool := pool } := by
          apply (hkeeps c).trans
          refine ⟨.refl, hbits, ?_⟩
          intro d hd
          change _ = th₀.channelPool.freeList.count d
          rw [hlist, List.count_cons_of_ne (Ne.symm hd)]
        have hfree : (w.view c).free = pool.freeList.count c + 1 := by
          change w.thread.channelPool.freeList.count c = _
          rw [← hpool, hlist, List.count_cons_self]
        have hview : (w.channels c).view c { { th₀ with ioRing := ioRing } with channelPool := pool }
            = { w.view c with free := (w.view c).free - 1 } := by
          have hring := hkeeps (c + 1)
          rw [hfree, Nat.add_sub_cancel]
          simp only [TcpChannel.view, view, ← hring.ring.recvs c (by omega),
            ← hring.ring.writes c (by omega)]
        obtain ⟨hstep, hassigned⟩ := TcpChannel.assign_refines (by omega) (by omega) hview hassign
        exact moves_update (a := .assign) hbatch rfl (hkeeps'.trans hassigned) hstep

end

/-- A step that changes only what no channel sees, on one channel and the thread. -/
theorem stays_update {ch : TcpChannel} {th : TcpThread} {ctl : Ctl}
    (hctl : ctl = w.ctl ∨ Outside w.ctl ∧ Outside ctl) (hkeeps : ∀ c, w.thread.Keeps c th)
    (hview : ∀ th, ch.view c th = (w.channels c).view c th) :
  Stays w { w.update c ch th with ctl := ctl }
  := by
  apply stays_of_keeps hctl hkeeps
  intro d th
  by_cases hd : d = c
  · rw [hd]
    simp [update, hview]
  · simp [update, Function.update_of_ne hd]

theorem outside_onRead {rest : List ℕ} :
  Outside (.onRead c rest)
  := by
  intro d
  simp

theorem serveReads_stays (hctl : Outside w.ctl) (l : List ℕ) :
  Stays w (w.serveReads l)
  := by
  cases l with
  | nil =>
      refine stays_of_keeps (.inr ⟨hctl, ?_⟩) ?_ ?_
      · intro d
        simp [serveReads]
      · intro d
        exact .of_eq rfl rfl
      · intro d th
        rfl
  | cons c rest =>
      exact stays_update (.inr ⟨hctl, outside_onRead⟩) (fun _ => .refl) (fun _ => rfl)

/-- The return from a callback. -/
theorem afterCallback_simulates (hlocated : w.Located) (h : w.afterCallback = some w') :
  Simulates w .ret w'
  := by
  rw [afterCallback] at h
  rw [Simulates]
  cases hctl : w.ctl with
  | poll => simp [hctl] at h
  | batch => simp [hctl] at h
  | onAccept c =>
      simp only [hctl] at h
      cases h
      simp only [action, hctl]
      refine stays_of_keeps (.inr ?_) ?_ ?_
      · constructor <;> intro d <;> simp [hctl]
      · intro d
        exact .refl
      · intro d th
        rfl
  | onClose c =>
      simp only [hctl] at h
      obtain ⟨⟨ch, th⟩, hafter, rfl⟩ := Option.map_eq_some_iff.mp h
      simp only [action, hctl]
      obtain ⟨hstep, hkeeps⟩ :=
        TcpChannel.afterOnClose_refines ((hlocated.read c).mpr hctl) hafter
      exact moves_update (a := .onCloseReturns) hctl rfl hkeeps hstep
  | onWrite c =>
      simp only [hctl] at h
      obtain ⟨⟨ch, th⟩, hafter, rfl⟩ := Option.map_eq_some_iff.mp h
      simp only [action, hctl]
      obtain ⟨hstep, hkeeps⟩ :=
        TcpChannel.afterOnWrite_refines ((hlocated.write c).mpr hctl) hafter
      exact moves_update (a := .onWriteReturns) hctl rfl hkeeps hstep
  | onRead c rest =>
      simp only [hctl] at h
      cases h
      simp only [action, hctl]
      apply serveReads_stays
      rw [hctl]
      exact outside_onRead

/-- A call of the application. -/
theorem call_simulates {op : AppOp} {ch : TcpChannel} {th : TcpThread}
    (h : (w.channels c).call c w.thread op = some (ok, ch, th)) :
  Simulates w (.app c op) (w.update c ch th)
  := by
  rw [Simulates]
  cases op with
  | append data =>
      obtain ⟨⟨_, b, p⟩, -, heq⟩ := Option.map_eq_some_iff.mp h
      cases heq
      exact stays_update (.inl rfl) (fun _ => .of_eq rfl rfl) (fun _ => rfl)
  | prepend data =>
      obtain ⟨⟨_, b, p⟩, -, heq⟩ := Option.map_eq_some_iff.mp h
      cases heq
      exact stays_update (.inl rfl) (fun _ => .of_eq rfl rfl) (fun _ => rfl)
  | submit =>
      simp only [TcpChannel.call] at h
      simp only [action]
      split at h
      case isTrue hok =>
        obtain ⟨⟨ch', th'⟩, hnotify, heq⟩ := Option.map_eq_some_iff.mp h
        cases heq
        rw [if_pos hok]
        obtain ⟨hnotifies, hkeeps⟩ := TcpChannel.notify_refines hnotify
        exact moves_update (a := .submit) trivial rfl hkeeps (.submit hnotifies)
      case isFalse hok =>
        cases h
        rw [if_neg hok]
        exact stays_update (.inl rfl) (fun _ => .refl) (fun _ => rfl)
  | peek size =>
      cases h
      exact stays_update (.inl rfl) (fun _ => .refl) (fun _ => rfl)
  | consume size =>
      obtain ⟨⟨_, readBuf, bufRing⟩, -, heq⟩ := Option.map_eq_some_iff.mp h
      cases heq
      exact stays_update (.inl rfl) (fun _ => .of_eq rfl rfl) (fun _ => rfl)
  | close =>
      obtain ⟨⟨ch', th'⟩, hclose, heq⟩ := Option.map_eq_some_iff.mp h
      cases heq
      obtain ⟨hcloses, hkeeps⟩ := TcpChannel.close_refines hclose
      exact moves_update (a := .close) trivial rfl hkeeps (.close hcloses)

/-- Every step is the action of its event. -/
theorem step_simulates (hlocated : w.Located) (hadmits : w.Admits e)
    (hroom : ∀ c, (w.view c).inFlight = 1 → w.thread.channelPool.freeList.length < w.size)
    (h : w.step e = some w') :
  Simulates w e w'
  := by
  obtain ⟨⟨ok, w₁⟩, hresult, rfl⟩ := Option.map_eq_some_iff.mp h
  cases e with
  | submit =>
      rw [stepResult] at hresult
      split at hresult
      case isTrue hpoll =>
        cases hresult
        refine stays_of_keeps (.inr ?_) ?_ (fun _ _ => rfl)
        · constructor <;> intro d <;> simp [hpoll]
        · intro c
          exact .of_ioRing .submit
      case isFalse => cases hresult
  | complete i res more idx data =>
      rw [stepResult] at hresult
      split at hresult
      case isFalse => cases hresult
      case isTrue hbatch =>
        obtain ⟨⟨op, u⟩, hsqe, hcomplete⟩ := Option.bind_eq_some_iff.mp hresult
        obtain ⟨w₂, hcomplete, heq⟩ := Option.map_eq_some_iff.mp hcomplete
        cases heq
        have hdelivers := hadmits _ hsqe
        cases u with
        | accept => exact complete_accept_simulates res more idx data hbatch hsqe hcomplete
        | wakeup =>
            cases hcomplete
            simp only [Simulates, action, hsqe]
            refine stays_of_keeps (.inl rfl) ?_ (fun _ _ => rfl)
            intro c
            apply kernel_keeps res more idx data hsqe
            simp
        | read c =>
            exact complete_read_simulates res more idx data hbatch hsqe (hroom c) hcomplete
        | write c =>
            exact complete_write_simulates res more idx data hbatch hsqe hdelivers.1 (hroom c)
              hcomplete
  | batchDone =>
      rw [stepResult] at hresult
      split at hresult
      case isTrue hbatch =>
        cases hresult
        apply serveReads_stays
        intro d
        simp [hbatch]
      case isFalse => cases hresult
  | ret =>
      obtain ⟨w₂, hafter, heq⟩ := Option.map_eq_some_iff.mp hresult
      cases heq
      exact afterCallback_simulates hlocated hafter
  | app c op =>
      obtain ⟨⟨_, ch, th⟩, hcall, heq⟩ := Option.map_eq_some_iff.mp hresult
      cases heq
      exact call_simulates hcall

end Worker

end Proactor
