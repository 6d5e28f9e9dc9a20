import UringProactor.Core.Drain
import UringProactor.Core.OwnSocket
import UringProactor.Prelude.Ownership

/-!
# Connections are kept or closed

The kernel hands descriptors to the accept coroutine, which gives each one to a channel or, if no
channel is free, closes it.  A monitor records the descriptors that were handed over and those that
were closed.  In the runs in which no channel is released too early, no descriptor is lost and none
is closed twice: the closed descriptors and those that the channels have are the descriptors handed
over, each once.  The multishot accept stays armed until it fails.
-/

namespace Proactor

/-- A channel in the free queue has no descriptor. -/
structure Conn.Vacant (k : Conn) : Prop extends Conn.Shut k where
  vacant : 0 < k.free → k.closed = true

theorem Conn.Vacant.step {k k' : Conn} {a : Action} (h : Vacant k) (hsettled : k.Settled a)
    (hstep : Step k a k') :
  Vacant k'
  := by
  refine ⟨h.toShut.step hsettled hstep, ?_⟩
  have hvacant := h.vacant
  have hshut := h.shut
  have hfree := h.free_le
  cases hstep with
  | assign _ harm hrun =>
      have := hrun.balanced
      cases harm <;> grind -linarith [Balanced]
  | ended _ _ hdrain => grind -linarith [hdrain.spec]
  | more _ hdrain => grind -linarith [hdrain.spec]
  | rearm _ _ hdrain harm =>
      have := hdrain.spec
      cases harm <;> grind -linarith
  | written _ _ hdrain => grind -linarith [hdrain.spec]
  | failed _ _ hdrain hclose =>
      have := hdrain.spec
      cases hclose with
      | skip _ => grind -linarith
      | close _ hclose => grind -linarith [hclose.spec]
  | staleRecv _ _ => exact hvacant
  | staleWrite _ _ => exact hvacant
  | onCloseReturns _ hclose =>
      cases hclose with
      | skip _ => exact hvacant
      | close _ hclose => grind -linarith [hclose.spec]
  | onWriteReturns _ hrun => grind -linarith [Balanced, hrun.balanced]
  | submit hnotify => grind -linarith [Balanced, hnotify.balanced]
  | close hclose => grind -linarith [hclose.spec]

/-- A channel prepares no accept. -/
theorem IoRing.Prepares.outstanding_accept {c : ℕ} {fd : Int} {r r' : IoRing}
    (h : Prepares c fd r r') :
  r'.outstanding .accept = r.outstanding .accept
  := by
  obtain ⟨l, hsq, hnames⟩ := h.sq
  have hnone : (l.map Sqe.data).count .accept = 0 := by
    apply List.count_eq_zero.mpr
    intro hmem
    obtain ⟨sqe, hsqe, hdata⟩ := List.mem_map.mp hmem
    rcases hnames sqe hsqe with rfl | ⟨nr, rfl⟩ <;> cases hdata
  simp only [outstanding, h.inflight, hsq, List.map_append, List.count_append, hnone,
    Nat.add_zero]

namespace Worker

variable {w w' : Worker} {e : Event} {ok : Bool} {c : ℕ} {fd : Int}

/-! ### The accept coroutine -/

/-- The event completes the accept. -/
def CompletesAccept (w : Worker) (i : ℕ) : Prop :=
  w.thread.ioRing.inflight[i]?.map Sqe.data = some .accept

instance (w : Worker) (i : ℕ) : Decidable (w.CompletesAccept i) :=
  inferInstanceAs (Decidable (_ = _))

/-- The descriptor that the kernel hands over. -/
def gives (w : Worker) : Event → Option Int
  | .complete i res _ _ _ => if w.CompletesAccept i ∧ 0 ≤ res then some res else none
  | _ => none

/-- The accept fails. -/
def refuses (w : Worker) : Event → Bool
  | .complete i res _ _ _ => w.CompletesAccept i && decide (res < 0)
  | _ => false

/-- What the kernel promises of the multishot accept: it ends when it fails. -/
def EndsAccept (w : Worker) (e : Event) : Prop :=
  match e with
  | .complete _ _ more _ _ => w.refuses e = true → more = false
  | _ => True

instance (w : Worker) (e : Event) : Decidable (w.EndsAccept e) :=
  match e with
  | .complete .. => inferInstanceAs (Decidable (_ → _))
  | .submit | .batchDone | .ret | .app _ _ => inferInstanceAs (Decidable True)

/-- One accept is outstanding as long as the accept coroutine waits for it. -/
def Listens (w : Worker) : Prop := w.thread.ioRing.outstanding .accept = w.accepting.toNat

theorem outstanding_rearmAccept {r r' : IoRing} {i : ℕ} {more : Bool} {op : SqeOp}
    (hsqe : r.inflight[i]? = some ⟨op, .accept⟩)
    (hrearm : rearmAccept (r.reap i more) more = some r') :
  r'.outstanding .accept = r.outstanding .accept
  := by
  have hreap := IoRing.outstanding_reap .accept more hsqe
  cases more with
  | true =>
      cases hrearm
      rfl
  | false =>
      rw [IoRing.outstanding_prep .accept hrearm, hreap]
      simp

/-- What is not a completion of the accept leaves the accept outstanding. -/
theorem outstanding_reap_of_ne {r : IoRing} {i : ℕ} {more : Bool} {op : SqeOp} {u : UserData}
    (hsqe : r.inflight[i]? = some ⟨op, u⟩) (hu : u ≠ .accept) :
  (r.reap i more).outstanding .accept = r.outstanding .accept
  := by
  rw [IoRing.outstanding_reap .accept more hsqe, if_neg (fun h => hu h.2), Nat.add_zero]

/-- An outstanding accept has a coroutine that waits for it. -/
theorem Listens.accepting_of_mem (h : Listens w) {i : ℕ} {op : SqeOp}
    (hsqe : w.thread.ioRing.inflight[i]? = some ⟨op, .accept⟩) :
  w.accepting = true
  := by
  have hmem := List.mem_append_right w.thread.ioRing.sq (List.mem_of_getElem? hsqe)
  have hpos : 0 < w.thread.ioRing.outstanding .accept := IoRing.outstanding_pos hmem
  rw [show _ = _ from h] at hpos
  cases haccepting : w.accepting with
  | true => rfl
  | false => simp [haccepting] at hpos

/-- Every step keeps the accept armed, until it fails. -/
theorem Listens.step (h : Listens w) (hends : w.EndsAccept e) (hsteps : Steps w e ok w') :
  Listens w' ∧ w'.accepting = (w.accepting && !w.refuses e)
  := by
  have hsame : ∀ {w' : Worker}, w'.thread.ioRing.outstanding .accept
      = w.thread.ioRing.outstanding .accept → w'.accepting = w.accepting → w.refuses e = false →
      Listens w' ∧ w'.accepting = (w.accepting && !w.refuses e) := by
    intro w' hring haccepting hrefuses
    refine ⟨?_, ?_⟩
    · rw [Listens, hring, haccepting]
      exact h
    · rw [haccepting, hrefuses]
      simp
  cases hsteps with
  | submit => exact hsame (IoRing.outstanding_submit _) rfl rfl
  | @ignored i idx res more data op u _ hsqe hignores =>
      have hu : u ≠ .accept := by
        rintro rfl
        cases (h.accepting_of_mem hsqe).symm.trans hignores
      refine hsame ?_ rfl ?_
      · change (kernel w.thread i u res more idx data).ioRing.outstanding .accept = _
        rw [(kernel_spec w.thread i u res more idx data).1]
        exact outstanding_reap_of_ne hsqe hu
      · simp [refuses, CompletesAccept, hsqe, hu]
  | @refused i idx res more data op _ hsqe hres =>
      have hrefuses : w.refuses (.complete i res more idx data) = true := by
        simp [refuses, CompletesAccept, hsqe, hres]
      obtain rfl : more = false := hends hrefuses
      have haccepting := h.accepting_of_mem hsqe
      have hreap := IoRing.outstanding_reap .accept false hsqe
      rw [show _ = _ from h, haccepting] at hreap
      refine ⟨?_, by simp [hrefuses]⟩
      change (w.thread.ioRing.reap i false).outstanding .accept = 0
      simpa using hreap.symm
  | @exhausted i idx res more data op ioRing _ hsqe hres hrearm =>
      refine hsame (outstanding_rearmAccept hsqe hrearm) rfl ?_
      simp [refuses, show ¬ res < 0 by omega]
  | @accepted i idx c res more data op ioRing pool ch th _ hsqe _ hres hrearm _ hassign =>
      refine hsame ?_ rfl ?_
      · change th.ioRing.outstanding .accept = _
        rw [(TcpChannel.assign_prepares hassign).1.outstanding_accept]
        exact outstanding_rearmAccept hsqe hrearm
      · simp [refuses, show ¬ res < 0 by omega]
  | @received i idx c res more _ data op ch th _ hsqe _ hresume =>
      refine hsame ?_ rfl (by simp [refuses, CompletesAccept, hsqe])
      change th.ioRing.outstanding .accept = _
      rw [(TcpChannel.resumeRead_prepares hresume).1.outstanding_accept,
        (kernel_spec w.thread i (.read c) res more idx data).1]
      exact outstanding_reap_of_ne hsqe (by simp)
  | @written i idx c _ res more _ data op ch th _ hsqe _ hresume =>
      refine hsame ?_ rfl (by simp [refuses, CompletesAccept, hsqe])
      change th.ioRing.outstanding .accept = _
      rw [(TcpChannel.resumeWrite_prepares hresume).1.outstanding_accept]
      exact outstanding_reap_of_ne hsqe (by simp)
  | batchDone =>
      refine hsame (by rw [ioRing_serveReads]) ?_ rfl
      cases w.thread.pendingReads <;> rfl
  | onAcceptReturns => exact hsame rfl rfl rfl
  | onCloseReturns _ hafter =>
      exact hsame (TcpChannel.afterOnClose_prepares hafter).1.outstanding_accept rfl rfl
  | onWriteReturns _ hafter =>
      exact hsame (TcpChannel.writeLoop_outcome hafter).prepares.1.outstanding_accept rfl rfl
  | @onReadReturns c rest =>
      refine hsame (by rw [ioRing_serveReads]) ?_ rfl
      cases rest <;> rfl
  | call hcall => exact hsame (call_prepares hcall).1.outstanding_accept rfl rfl

/-! ### Where a descriptor goes -/

/-- The descriptors that a channel has. -/
def sockets (w : Worker) (c : ℕ) : List Int :=
  if (w.channels c).fd = -1 then [] else [(w.channels c).fd]

theorem sockets_congr (h : (w'.channels c).fd = (w.channels c).fd) :
  w'.sockets c = w.sockets c
  := by
  rw [sockets, sockets, h]

theorem sockets_of_eq (h : (w.channels c).fd = -1) :
  w.sockets c = []
  := if_pos h

/-- The accept coroutine waits for every descriptor that the kernel hands over. -/
theorem Listens.accepts_eq (h : Listens w) (e : Event) :
  w.accepts e = w.gives e
  := by
  cases e with
  | complete i res more idx data =>
      rw [accepts, gives]
      cases hsqe : w.thread.ioRing.inflight[i]? with
      | none => simp [CompletesAccept, hsqe]
      | some sqe =>
          obtain ⟨op, u⟩ := sqe
          cases u with
          | accept => simp [CompletesAccept, hsqe, h.accepting_of_mem hsqe]
          | _ => simp [CompletesAccept, hsqe]
  | _ => rfl

/-- A descriptor that is handed over goes to the channel that is acquired; without a free channel
it is closed. -/
theorem Steps.handover (h : Steps w e ok w') (hlistens : Listens w) (hgives : w.gives e = some fd) :
  (w.releases e = some fd ∧ w'.channels = w.channels)
    ∨ ∃ c, w.releases e = none ∧ w.Assigns c e ∧ (w'.channels c).fd = fd
      ∧ ∀ d, d ≠ c → (w'.channels d).fd = (w.channels d).fd
  := by
  cases h with
  | @ignored i idx res more data op u _ hsqe hignores =>
      have hu : u ≠ .accept := by
        rintro rfl
        cases (hlistens.accepting_of_mem hsqe).symm.trans hignores
      simp [gives, CompletesAccept, hsqe, hu] at hgives
  | refused _ _ hres => simp [gives, show ¬ (0 : Int) ≤ _ from not_le.mpr hres] at hgives
  | @exhausted i idx res more data op ioRing _ hsqe hres hrearm hacquire =>
      left
      have haccepts := (hlistens.accepts_eq (.complete i res more idx data)).trans hgives
      simp [releases, closes, hsqe, hacquire, haccepts]
  | @accepted i idx c res more data op ioRing pool ch th _ hsqe haccepting hres hrearm hacquire
      hassign =>
      right
      have hassigns : w.Assigns c (.complete i res more idx data) := by
        simp [Assigns, hsqe, haccepting, hres, hacquire]
      obtain ⟨hopens, hreleases, -⟩ := Sockets.opens_of_assigns hassigns
      have hfd : res = fd := by
        simpa [gives, CompletesAccept, hsqe, hres] using hgives
      refine ⟨c, hreleases, hassigns, ?_, ?_⟩
      · rw [fd_update_self, ← hfd]
        exact (TcpChannel.assign_prepares hassign).2
      · intro d hd
        change (Function.update w.channels c ch d).fd = _
        rw [Function.update_of_ne hd]
  | received _ hsqe => simp [gives, CompletesAccept, hsqe] at hgives
  | written _ hsqe => simp [gives, CompletesAccept, hsqe] at hgives
  | _ => cases hgives

/-- Only channels of the pool are closed. -/
theorem Inv.lt_size_of_closes {P : Conn → Prop} (h : Inv P w) (hadmits : w.Admits e)
    (hcloses : w.closes e = some c) :
  c < w.size
  := by
  cases e with
  | complete i res more idx data =>
      rw [closes] at hcloses
      split at hcloses
      case h_1 op d hsqe =>
        split at hcloses
        case isTrue =>
          cases hcloses
          exact h.lt_size_of_mem (List.mem_append_right _ (List.mem_of_getElem? hsqe)) rfl
        case isFalse => cases hcloses
      case h_2 => cases hcloses
  | ret =>
      rw [closes] at hcloses
      split at hcloses
      case h_1 d hctl =>
        split at hcloses
        case isTrue => cases hcloses
        case isFalse =>
          cases hcloses
          by_contra hc
          have hread := (h.unused c (Nat.le_of_not_lt hc)).read
          cases hread.symm.trans ((h.located.read c).mpr hctl)
      case h_2 => cases hcloses
  | app d op =>
      cases op with
      | close =>
          cases hcloses
          exact hadmits
      | _ => cases hcloses
  | _ => cases hcloses

/-- A channel that is neither closed nor assigned keeps its descriptor. -/
theorem Steps.fd_eq (h : Steps w e ok w') (haccepts : w.accepts e = none)
    (hcloses : w.closes e ≠ some c) :
  (w'.channels c).fd = (w.channels c).fd
  := by
  cases h.descriptors with
  | submit _ hchannels => rw [hchannels]
  | keeps d hgrows hfd =>
      by_cases hc : c = d
      · rw [hc, hfd]
      · exact hgrows.others c hc
  | closes hd hgrows =>
      apply hgrows.others c
      rintro rfl
      exact hcloses hd
  | assigns hassigns =>
      obtain ⟨hdata, haccepting, hres, -⟩ := hassigns
      rw [accepts, if_pos ⟨hdata, haccepting, hres⟩] at haccepts
      cases haccepts

/-- If no descriptor is handed over, then the one that is closed is that of a channel, which
gives it up. -/
theorem Steps.closing (h : Steps w e ok w') (hlistens : Listens w) (hgives : w.gives e = none) :
  (w.releases e = none ∧ ∀ c, (w'.channels c).fd = (w.channels c).fd)
    ∨ ∃ c, w.closes e = some c ∧ w.releases e = some (w.channels c).fd ∧ (w.channels c).fd ≠ -1
      ∧ (w'.channels c).fd = -1 ∧ ∀ d, d ≠ c → (w'.channels d).fd = (w.channels d).fd
  := by
  have haccepts := (hlistens.accepts_eq e).trans hgives
  cases hcloses : w.closes e with
  | none =>
      left
      refine ⟨by simp [releases, hcloses, haccepts], ?_⟩
      intro c
      exact h.fd_eq haccepts (by simp [hcloses])
  | some c =>
      have hfd := h.fd_of_closes hcloses
      have hothers : ∀ d, d ≠ c → (w'.channels d).fd = (w.channels d).fd := by
        intro d hd
        exact h.fd_eq haccepts (by simp [hcloses, hd.symm])
      by_cases hopen : (w.channels c).fd = -1
      · left
        refine ⟨by simp [releases, hcloses, hopen], ?_⟩
        intro d
        by_cases hd : d = c
        · rw [hd, hfd, hopen]
        · exact hothers d hd
      · right
        exact ⟨c, rfl, by simp [releases, hcloses, hopen], hopen, hfd, hothers⟩

end Worker

/-! ### The monitor -/

/-- What the monitor keeps. -/
structure ConnectionRecord where
  /-- The descriptors that the kernel handed over. -/
  given : List Int
  /-- The descriptors that were closed. -/
  closed : List Int
  /-- An accept failed. -/
  failed : Bool

/-- A worker with its monitor. -/
abbrev Connecting := Monitored Worker ConnectionRecord

namespace Connecting

open Worker

/-- The record after an event. -/
def observe (w : Worker) (g : ConnectionRecord) (e : Event) (_ : Bool) (_ : Worker) :
    ConnectionRecord where
  given := (w.gives e).toList ++ g.given
  closed := (w.releases e).toList ++ g.closed
  failed := g.failed || w.refuses e

/-- A step of the worker and its monitor. -/
def step (m : Connecting) (e : Event) : Option Connecting := Monitored.step stepResult observe m e

/-- No descriptor was handed over. -/
def start (w : Worker) : Connecting := ⟨w, [], [], false⟩

/-- The events of a run: the multishot accept ends when it fails. -/
def Runs (m : Connecting) (e : Event) : Prop := m.state.Runs Conn.Settled e ∧ m.state.EndsAccept e

instance (m : Connecting) (e : Event) : Decidable (m.Runs e) := inferInstanceAs (Decidable (_ ∧ _))

variable {m m' : Connecting} {e : Event} {c : ℕ} {fd : Int}

/-- What was handed over is closed or held by one channel. -/
structure Inv (m : Connecting) : Prop where
  vacant : Worker.Inv Conn.Vacant m.state
  listens : Listens m.state
  accepting : m.state.accepting = !m.record.failed
  conserved : (Ownership.holdings m.record.closed m.state.size m.state.sockets).Perm m.record.given

/-- A free channel has no descriptor. -/
theorem Inv.fd_of_assigns (h : m.Inv) (hassigns : m.state.Assigns c e) :
  c < m.state.size ∧ (m.state.channels c).fd = -1
  := by
  have hfree := free_pos_of_assigns hassigns
  have hc : c < m.state.size := by
    by_contra hc
    exact hfree.ne' (h.vacant.unused c (Nat.le_of_not_lt hc)).free
  refine ⟨hc, ?_⟩
  have hclosed := (h.vacant.holds c hc).vacant hfree
  simpa [view, TcpChannel.view] using hclosed

/-- The holdings after a step, if the number of channels is the same. -/
theorem Inv.exchange {w' : Worker} {ok : Bool} (h : m.Inv) (hadmits : m.state.Admits e)
    (hsteps : Steps m.state e ok w') (hsize : w'.size = m.state.size) :
  (Ownership.holdings ((m.state.releases e).toList ++ m.record.closed) w'.size w'.sockets).Perm
    ((m.state.gives e).toList ++ m.record.given)
  := by
  rw [hsize]
  cases hgives : m.state.gives e with
  | none =>
      refine List.Perm.trans ?_ h.conserved
      rcases hsteps.closing h.listens hgives with ⟨hreleases, hfd⟩ |
        ⟨c, hcloses, hreleases, hopen, hfd, hothers⟩
      · rw [hreleases, show w'.sockets = m.state.sockets from
          funext (fun c => sockets_congr (hfd c))]
        exact List.Perm.refl _
      · apply Ownership.holdings_exchange (h.vacant.lt_size_of_closes hadmits hcloses)
        · intro d hd
          exact sockets_congr (hothers d hd)
        · rw [hreleases, sockets_of_eq hfd, sockets, if_neg hopen, List.append_nil]
          exact List.perm_append_comm
  | some fd =>
      have hgiven : (fd :: Ownership.holdings m.record.closed m.state.size m.state.sockets).Perm
          (fd :: m.record.given) := h.conserved.cons fd
      refine List.Perm.trans ?_ hgiven
      rcases hsteps.handover h.listens hgives with ⟨hreleases, hchannels⟩ |
        ⟨c, hreleases, hassigns, hfd, hothers⟩
      · rw [hreleases, show w'.sockets = m.state.sockets from
          funext (fun c => sockets_congr (by rw [hchannels]))]
        exact List.Perm.refl _
      · obtain ⟨hc, hclosed⟩ := h.fd_of_assigns hassigns
        change (Ownership.holdings _ _ _).Perm
          (Ownership.holdings (fd :: m.record.closed) m.state.size m.state.sockets)
        apply Ownership.holdings_exchange hc
        · intro d hd
          exact sockets_congr (hothers d hd)
        · have hopen : fd ≠ -1 := Sockets.ne_of_accepts ((h.listens.accepts_eq e).trans hgives)
          rw [hreleases, sockets_of_eq hclosed, sockets, hfd, if_neg hopen, List.append_nil]
          exact List.perm_append_singleton fd m.record.closed

theorem Inv.step (h : m.Inv) (hruns : m.Runs e) (hstep : m.step e = some m') :
  m'.Inv
  := by
  obtain ⟨⟨hadmits, hsettled⟩, hends⟩ := hruns
  obtain ⟨ok, hresult, hrecord⟩ := Monitored.step_eq_some hstep
  have hstep' : m.state.step e = some m'.state := congrArg (Option.map Prod.snd) hresult
  have hsteps := step_cases hresult
  obtain ⟨hlistens, haccepting⟩ := h.listens.step hends hsteps
  have hsafe : ∀ k, Conn.Vacant k → Conn.Safe k := fun _ hk => hk.toSafe
  constructor
  · exact h.vacant.step hsafe (fun _ _ _ hk hok hstep => hk.step hok hstep) hadmits hsettled hstep'
  · exact hlistens
  · rw [haccepting, h.accepting, hrecord, observe, Bool.not_or]
  · rw [hrecord]
    exact h.exchange hadmits hsteps (h.vacant.size_step hsafe hadmits hstep')

variable (depth : ℕ) (bufRing : BufRing) (bufPool : BufPool) (poolBits capBits : Fin 31)

theorem inv_start :
  (start (Worker.start depth bufRing bufPool poolBits capBits)).Inv
  := by
  constructor
  · apply start_inv
    exact ⟨⟨by constructor <;> decide, by decide⟩, by decide⟩
  · rfl
  · rfl
  · have hnone : (Worker.start depth bufRing bufPool poolBits capBits).sockets = fun _ => [] := by
      funext c
      exact sockets_of_eq rfl
    rw [start, hnone, Ownership.holdings]
    simp

end Connecting

namespace Worker

section

variable {depth : ℕ} {bufRing : BufRing} {bufPool : BufPool} {poolBits capBits : Fin 31}

/-- No connection is lost and none is closed twice.  In every run whose actions are settled, the
descriptors that the kernel handed to the accept coroutine are those that were closed and those
that the channels have now, each once; and as long as no accept has failed, the coroutine waits
with exactly one accept outstanding. -/
theorem connections_kept_or_closed {m : Connecting}
    (h : Reaches Connecting.step Connecting.Runs
      (Connecting.start (start depth bufRing bufPool poolBits capBits)) m) :
  (m.record.closed ++ (List.range m.state.size).flatMap m.state.sockets).Perm m.record.given
    ∧ m.state.accepting = !m.record.failed
    ∧ m.state.thread.ioRing.outstanding .accept = if m.record.failed then 0 else 1
  := by
  have hinv : m.Inv := by
    apply h.invariant (Connecting.inv_start depth bufRing bufPool poolBits capBits)
    intro m m' e hinv hruns hstep
    exact hinv.step hruns hstep
  refine ⟨hinv.conserved, hinv.accepting, ?_⟩
  rw [show _ = _ from hinv.listens, hinv.accepting]
  cases m.record.failed <;> rfl

end

/-- With one channel, a second connection is closed at once.  The first one is closed by the
application, its channel is released, and a third connection gets the number and the channel. -/
theorem connections_kept_or_closed_three :
  ∃ m, Reaches Connecting.step Connecting.Runs (Connecting.start tiny) m
    ∧ m.record.given = [5, 6, 5] ∧ m.record.closed = [5, 6] ∧ m.state.sockets 0 = [5]
    ∧ (m.record.closed ++ m.state.sockets 0).Perm m.record.given
  := by
  have hrun : (Reaches.follow Connecting.step Connecting.Runs
      [.submit, .complete 0 5 true 0 [], .ret, .complete 0 6 true 0 [], .batchDone, .submit,
        .app 0 .close, .complete 2 0 false 0 [], .ret, .complete 0 5 true 0 [], .ret]
      (Connecting.start tiny)).map (fun m =>
        decide (m.record.given = [5, 6, 5] ∧ m.record.closed = [5, 6] ∧ m.state.sockets 0 = [5]
          ∧ m.state.size = 1)) = some true := by
    decide +kernel
  obtain ⟨m, hreach, hm⟩ := Reaches.of_follow _ hrun
  obtain ⟨hgiven, hclosed, hsockets, hsize⟩ := of_decide_eq_true hm
  have hkept := (connections_kept_or_closed hreach).1
  rw [hsize] at hkept
  refine ⟨m, hreach, hgiven, hclosed, hsockets, ?_⟩
  simpa using hkept

end Worker

end Proactor
