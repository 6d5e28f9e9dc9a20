import UringProactor.Core.Quiet
import UringProactor.Core.RunLoop
import UringProactor.Core.StopTokens
import UringProactor.Prelude.Monitor

/-!
# Operations act on their own socket

An SQE names a descriptor by its number, and the kernel looks the number up at the next submit.
If the number is closed in between, it may denote another connection by then.  A monitor counts
how often each number was closed, and stamps every SQE with this count when it is prepared.  The
stamps are up to date in every run in which a channel is closed only if no event since the last
submit could prepare something for it.  The server does not see to that: a connection that is
closed in `on_accept` has its `recv` in the submission queue.
-/

namespace Proactor

/-- The number of the descriptor that a `recv` or a `writev` names. -/
def SqeOp.fd : SqeOp → Option Int
  | .multishotRecv fd => some fd
  | .writev fd _ => some fd
  | _ => none

namespace Sqe

variable {sqe : Sqe} {c d : ℕ} {fd fd' : Int}

theorem Names.fd_eq (h : sqe.Names c fd) :
  sqe.op.fd = some fd
  := by
  rcases h with rfl | ⟨nr, rfl⟩ <;> rfl

theorem Names.channel_eq (h : sqe.Names c fd) (h' : sqe.Names d fd') :
  c = d
  := by
  rcases h with rfl | ⟨nr, rfl⟩ <;> rcases h' with h' | ⟨nr', h'⟩ <;> cases h' <;> rfl

theorem Names.data_eq (h : sqe.Names c fd) :
  sqe.data = .read c ∨ sqe.data = .write c
  := by
  rcases h with rfl | ⟨nr, rfl⟩
  · exact .inl rfl
  · exact .inr rfl

/-- Of the SQEs of a worker, those of channels name a descriptor. -/
theorem names_of_fd (h : sqe.OfCoroutine ∨ sqe = ⟨.readWakeup, .wakeup⟩) (hfd : sqe.op.fd = some fd) :
  ∃ c, sqe.Names c fd
  := by
  rcases h with (rfl | ⟨c, fd', hnames⟩) | rfl
  · cases hfd
  · cases hnames.fd_eq.symm.trans hfd
    exact ⟨c, hnames⟩
  · cases hfd

end Sqe

/-- The SQEs that a channel prepares are its own. -/
theorem IoRing.Prepares.channel_eq {c d : ℕ} {fd fd' : Int} {r r' : IoRing} {sqe : Sqe}
    (h : Prepares c fd r r') (hmem : sqe ∈ r'.sq) (hnames : sqe.Names d fd') :
  sqe ∈ r.sq ∨ c = d
  := by
  obtain ⟨l, hsq, hl⟩ := h.sq
  rw [hsq] at hmem
  rcases List.mem_append.mp hmem with hold | hnew
  · exact .inl hold
  · exact .inr ((hl sqe hnew).channel_eq hnames)

namespace Worker

variable {w w' : Worker} {e : Event} {ok : Bool} {c : ℕ} {fd : Int} {sqe : Sqe}

/-! ### Numbers that are given out and closed -/

/-- The number of the connection that an event hands to the accept coroutine. -/
def accepts (w : Worker) : Event → Option Int
  | .complete i res _ _ _ =>
      if w.thread.ioRing.inflight[i]?.map Sqe.data = some .accept ∧ w.accepting = true ∧ 0 ≤ res then
        some res
      else
        none
  | _ => none

/-- The number that is assigned to a channel. -/
def opens (w : Worker) (e : Event) : Option Int :=
  if w.thread.channelPool.acquire.isSome then w.accepts e else none

/-- The number that is closed: that of a channel that is closed, unless it is closed already, or
that of a connection that finds no free channel. -/
def releases (w : Worker) (e : Event) : Option Int :=
  match w.closes e with
  | some c => if (w.channels c).fd = -1 then none else some (w.channels c).fd
  | none => if w.thread.channelPool.acquire.isSome then none else w.accepts e

/-- The channel for which an event may prepare SQEs. -/
def arms (w : Worker) : Event → Option ℕ
  | .complete i res more idx data =>
      match w.thread.ioRing.inflight[i]? with
      | some ⟨_, .accept⟩ =>
          (w.accepts (.complete i res more idx data)).bind (fun _ =>
            w.thread.channelPool.acquire.map Prod.fst)
      | some ⟨_, .read c⟩ => if 0 < res ∧ more = false then some c else none
      | _ => none
  | .ret =>
      match w.ctl with
      | .onWrite c => if (w.channels c).writeBuf.hasSendData then some c else none
      | _ => none
  | .app c .submit => some c
  | _ => none

/-- An event that closes a channel prepares nothing. -/
theorem quiet_of_closes (h : w.closes e = some c) :
  w.Quiet e
  := by
  cases e with
  | submit => cases h
  | batchDone => trivial
  | complete i res more idx data =>
      intro sqe hsqe
      rw [closes, show w.thread.ioRing.inflight[i]? = some sqe from hsqe] at h
      obtain ⟨op, u⟩ := sqe
      cases u with
      | write d => trivial
      | _ => cases h
  | ret =>
      rw [closes] at h
      rw [Quiet]
      cases hctl : w.ctl with
      | onWrite d =>
          rw [hctl] at h
          cases h
      | _ => trivial
  | app d op =>
      cases op with
      | submit => cases h
      | _ => trivial

/-- An event that closes a channel leaves it without a descriptor. -/
theorem Steps.fd_of_closes (h : Steps w e ok w') (hcloses : w.closes e = some c) :
  (w'.channels c).fd = -1
  := by
  cases h with
  | submit => cases hcloses
  | batchDone => cases hcloses
  | @ignored _ _ _ _ _ _ u _ hsqe hignores =>
      rw [closes, hsqe] at hcloses
      cases u with
      | write d =>
          have hnone : (w.channels d).writeCo.tokens = 0 := WriteCo.tokens_of_ne hignores
          simp [hnone] at hcloses
      | _ => cases hcloses
  | refused _ hsqe =>
      rw [closes, hsqe] at hcloses
      cases hcloses
  | exhausted _ hsqe =>
      rw [closes, hsqe] at hcloses
      cases hcloses
  | accepted _ hsqe =>
      rw [closes, hsqe] at hcloses
      cases hcloses
  | received _ hsqe =>
      rw [closes, hsqe] at hcloses
      cases hcloses
  | @written _ _ d _ res _ _ _ _ ch th _ hsqe _ hresume =>
      obtain ⟨-, hfd⟩ := TcpChannel.resumeWrite_prepares hresume
      rw [closes, hsqe] at hcloses
      dsimp only at hcloses
      split at hcloses
      case isTrue hif =>
        cases hcloses
        rw [if_pos hif.2] at hfd
        rw [fd_update_self]
        exact hfd
      case isFalse => cases hcloses
  | onAcceptReturns hctl =>
      rw [closes, hctl] at hcloses
      cases hcloses
  | @onCloseReturns d ch th hctl hafter =>
      obtain ⟨-, hfd⟩ := TcpChannel.afterOnClose_prepares hafter
      rw [closes, hctl] at hcloses
      dsimp only at hcloses
      split at hcloses
      case isTrue => cases hcloses
      case isFalse hclosing =>
        cases hcloses
        rw [if_neg hclosing] at hfd
        rw [fd_update_self]
        exact hfd
  | onWriteReturns hctl =>
      rw [closes, hctl] at hcloses
      cases hcloses
  | onReadReturns hctl =>
      rw [closes, hctl] at hcloses
      cases hcloses
  | @call d op _ ch th hcall =>
      cases op with
      | close =>
          cases hcloses
          obtain ⟨⟨ch₁, th₁⟩, hclose, heq⟩ := Option.map_eq_some_iff.mp hcall
          cases heq
          change (Function.update w.channels c ch c).fd = -1
          rw [Function.update_self]
          exact (TcpChannel.close_prepares hclose).2
      | _ => cases hcloses

/-- SQEs of a channel are prepared by events that arm it. -/
theorem Steps.armed_of_new (h : Steps w e ok w') (hidles : Idles w) (hsubmit : e ≠ .submit)
    (hmem : sqe ∈ w'.thread.ioRing.sq) (hnames : sqe.Names c fd) :
  sqe ∈ w.thread.ioRing.sq ∨ w.arms e = some c
  := by
  have hsame : w.Quiet e → sqe ∈ w.thread.ioRing.sq := by
    intro hquiet
    rw [h.sq_eq hidles hquiet] at hmem
    exact hmem
  have haccept : ∀ l : List Sqe, (∀ sqe ∈ l, sqe = ⟨.multishotAccept, .accept⟩) → sqe ∉ l := by
    intro l hl hsqe
    rw [hl sqe hsqe] at hnames
    cases hnames.fd_eq
  cases h with
  | submit => exact absurd rfl hsubmit
  | ignored _ _ _ => exact .inl (kernel_sq ▸ hmem)
  | refused _ _ _ => exact .inl (kernel_sq ▸ hmem)
  | @exhausted _ _ _ _ _ _ ioRing _ _ _ hrearm =>
      obtain ⟨-, -, l, hsq, haccepts⟩ := rearmAccept_sq hrearm
      change sqe ∈ ioRing.sq at hmem
      rw [hsq, IoRing.sq_reap.1] at hmem
      exact .inl ((List.mem_append.mp hmem).resolve_right (haccept l haccepts))
  | @accepted i idx d res more _ _ ioRing _ ch th _ hsqe haccepting hres hrearm hacquire hassign =>
      obtain ⟨-, -, l, hsq, haccepts⟩ := rearmAccept_sq hrearm
      rcases (TcpChannel.assign_prepares hassign).1.channel_eq hmem hnames with hold | rfl
      · change sqe ∈ ioRing.sq at hold
        rw [hsq, IoRing.sq_reap.1] at hold
        exact .inl ((List.mem_append.mp hold).resolve_right (haccept l haccepts))
      · right
        simp [arms, accepts, hsqe, haccepting, hres, hacquire]
  | @received i idx d res more _ _ _ ch th _ hsqe _ hresume =>
      by_cases harm : 0 < res ∧ more = false
      · rcases (TcpChannel.resumeRead_prepares hresume).1.channel_eq hmem hnames with hold | rfl
        · exact .inl (kernel_sq ▸ hold)
        · right
          simp [arms, hsqe, harm]
      · left
        apply hsame
        intro sqe' hsqe'
        cases hsqe.symm.trans hsqe'
        intro hres
        simpa [hres] using harm
  | written _ hsqe =>
      left
      apply hsame
      intro sqe' hsqe'
      cases hsqe.symm.trans hsqe'
      trivial
  | batchDone => exact .inl (hsame trivial)
  | onAcceptReturns hctl => exact .inl (hsame (by rw [Quiet, hctl]; trivial))
  | onCloseReturns hctl => exact .inl (hsame (by rw [Quiet, hctl]; trivial))
  | @onWriteReturns d _ _ hctl hafter =>
      cases hdata : (w.channels d).writeBuf.hasSendData with
      | true =>
          rcases (TcpChannel.writeLoop_outcome hafter).prepares.1.channel_eq hmem hnames with hold | rfl
          · exact .inl hold
          · right
            simp [arms, hctl, hdata]
      | false =>
          left
          apply hsame
          rw [Quiet, hctl]
          exact hdata
  | onReadReturns hctl => exact .inl (hsame (by rw [Quiet, hctl]; trivial))
  | @call d op _ _ _ hcall =>
      cases op with
      | submit =>
          rcases (call_prepares hcall).1.channel_eq hmem hnames with hold | rfl
          · exact .inl hold
          · exact .inr rfl
      | _ => exact .inl (hsame trivial)

end Worker

/-! ### The monitor -/

/-- What the monitor keeps. -/
structure SocketRecord where
  /-- The numbers of the connections that are assigned and not closed. -/
  opened : List Int
  /-- How often each number was closed. -/
  closed : Int → ℕ
  /-- The SQEs in the submission queue, each with how often its number had been closed when it was
  prepared. -/
  stamped : List (Sqe × ℕ)
  /-- The channels for which an event since the last submit may have prepared SQEs. -/
  armed : ℕ → Bool

/-- A worker with its monitor. -/
abbrev Sockets := Monitored Worker SocketRecord

namespace Sockets

open Worker

/-- An SQE with how often its number was closed up to now. -/
def stamp (closed : Int → ℕ) (sqe : Sqe) : Sqe × ℕ := (sqe, sqe.op.fd.elim 0 closed)

/-- The record after an event. -/
def observe (w : Worker) (g : SocketRecord) (e : Event) (_ : Bool) (w' : Worker) : SocketRecord where
  opened := (w.opens e).toList ++ g.opened.filter (fun fd => some fd ≠ w.releases e)
  closed fd := if some fd = w.releases e then g.closed fd + 1 else g.closed fd
  stamped :=
    match e with
    | .submit => []
    | _ => g.stamped ++ (w'.thread.ioRing.sq.drop w.thread.ioRing.sq.length).map (stamp g.closed)
  armed c :=
    match e with
    | .submit => false
    | _ => g.armed c || w.arms e = some c

/-- A step of the worker and its monitor. -/
def step (m : Sockets) (e : Event) : Option Sockets := Monitored.step stepResult observe m e

/-- No connection is open and no number was closed. -/
def start (w : Worker) : Sockets :=
  ⟨w, [], fun _ => 0, w.thread.ioRing.sq.map (stamp fun _ => 0), fun _ => false⟩

/-- The kernel gives a new connection a number that is not in use. -/
def Fresh (m : Sockets) (e : Event) : Prop := ∀ fd ∈ m.state.accepts e, fd ∉ m.record.opened

/-- A channel that is open is closed only if no event since the last submit could prepare SQEs
for it, and no channel is assigned that is open. -/
def Timely (m : Sockets) (e : Event) : Prop :=
  (∀ c ∈ m.state.closes e, m.record.armed c = true → (m.state.channels c).fd = -1)
    ∧ ∀ c ∈ m.state.arms e, m.state.Assigns c e → (m.state.channels c).fd = -1

instance (m : Sockets) (e : Event) : Decidable (m.Fresh e) :=
  inferInstanceAs (Decidable (∀ fd ∈ _, _))

instance (m : Sockets) (e : Event) : Decidable (m.Timely e) :=
  inferInstanceAs (Decidable ((∀ c ∈ _, _ → _) ∧ ∀ c ∈ _, _ → _))

variable {m m' : Sockets} {e : Event} {c : ℕ} {fd : Int}

/-- The stamps are up to date, and every SQE of a channel names the number the channel has. -/
structure Inv (m : Sockets) : Prop where
  idles : Idles m.state
  typed : Typed m.state
  stamped : m.record.stamped.map Prod.fst = m.state.thread.ioRing.sq
  current : ∀ p ∈ m.record.stamped, ∀ c fd, p.1.Names c fd → fd ≠ -1 →
    (m.state.channels c).fd = fd ∧ p.2 = m.record.closed fd
  armed : ∀ sqe ∈ m.state.thread.ioRing.sq, ∀ c fd, sqe.Names c fd → m.record.armed c = true
  opened : ∀ c, (m.state.channels c).fd ≠ -1 → (m.state.channels c).fd ∈ m.record.opened
  apart : ∀ c d, (m.state.channels c).fd = (m.state.channels d).fd →
    (m.state.channels c).fd ≠ -1 → c = d

/-- What an event does to the number of a channel: the channel keeps it and it stays open, the
channel closes it, or the channel gets a new one. -/
inductive Holds (w : Worker) (e : Event) (w' : Worker) (c : ℕ) : Prop where
  | keeps (hfd : (w'.channels c).fd = (w.channels c).fd)
      (hopen : (w.channels c).fd ≠ -1 → w.releases e ≠ some (w.channels c).fd)
  | closes (hcloses : w.closes e = some c) (hfd : (w'.channels c).fd = -1)
  | assigns (hassigns : w.Assigns c e) (hopens : w.opens e = some (w'.channels c).fd)

/-- The event that starts a connection opens its number and closes none. -/
theorem opens_of_assigns {w : Worker} {i idx : ℕ} {more : Bool} {data : List UInt8}
    (h : w.Assigns c (.complete i fd more idx data)) :
  w.opens (.complete i fd more idx data) = some fd
    ∧ w.releases (.complete i fd more idx data) = none
    ∧ w.arms (.complete i fd more idx data) = some c
  := by
  obtain ⟨hdata, haccepting, hres, hacquire⟩ := h
  obtain ⟨⟨op, u⟩, hsqe, rfl⟩ := Option.map_eq_some_iff.mp hdata
  obtain ⟨⟨d, pool⟩, hpool, rfl⟩ := Option.map_eq_some_iff.mp hacquire
  simp [opens, releases, arms, accepts, Worker.closes, hsqe, haccepting, hres, hpool]

theorem ne_of_accepts {w : Worker} (h : w.accepts e = some fd) :
  fd ≠ -1
  := by
  cases e with
  | complete i res more idx data =>
      rw [accepts] at h
      split at h
      case isTrue hif =>
        cases h
        omega
      case isFalse => cases h
  | _ => cases h

/-- A number is closed by a channel that has it, or by the accept coroutine. -/
theorem releases_cases {w : Worker} (h : w.releases e = some fd) :
  fd ≠ -1 ∧ ((∃ c, w.closes e = some c ∧ (w.channels c).fd = fd) ∨ w.accepts e = some fd)
  := by
  rw [releases] at h
  split at h
  case h_1 c hcloses =>
    split at h
    case isTrue => cases h
    case isFalse hne =>
      cases h
      exact ⟨hne, .inl ⟨c, hcloses, rfl⟩⟩
  case h_2 =>
    split at h
    case isTrue => cases h
    case isFalse => exact ⟨ne_of_accepts h, .inr h⟩

/-- What an event does to the numbers of the channels. -/
theorem Inv.holds {w' : Worker} {ok : Bool} (h : m.Inv) (hfresh : m.Fresh e)
    (hsteps : Steps m.state e ok w') (c : ℕ) :
  Holds m.state e w' c
  := by
  have hdescriptors := hsteps.descriptors
  cases hdescriptors with
  | submit _ hchannels =>
      refine .keeps (congrArg (fun f => (f c).fd) hchannels) ?_
      intro _ hreleases
      rcases (releases_cases hreleases).2 with ⟨_, hcloses, -⟩ | haccepts
      · cases hcloses
      · cases haccepts
  | keeps d hgrows hfd =>
      have hsame : ∀ c, (w'.channels c).fd = (m.state.channels c).fd := by
        intro c
        by_cases hc : c = d
        · rw [hc]
          exact hfd
        · exact hgrows.others c hc
      refine .keeps (hsame c) ?_
      intro hne hreleases
      rcases (releases_cases hreleases).2 with ⟨c', hcloses, heq⟩ | haccepts
      · -- the channel that is closed would have kept its number
        have hclosed := (hsame c').symm.trans (hsteps.fd_of_closes hcloses)
        exact hne (heq.symm.trans hclosed)
      · exact hfresh _ haccepts (h.opened c hne)
  | @closes _ _ d hcloses hgrows hfd =>
      by_cases hc : c = d
      · subst hc
        exact .closes hcloses hfd
      · refine .keeps (hgrows.others c hc) ?_
        intro hne hreleases
        rcases (releases_cases hreleases).2 with ⟨c', hcloses', heq⟩ | haccepts
        · cases hcloses.symm.trans hcloses'
          exact hc (h.apart c d heq.symm hne)
        · exact hfresh _ haccepts (h.opened c hne)
  | @assigns _ _ d _ _ _ _ hassigns hgrows hfd =>
      obtain ⟨hopens, hreleases, -⟩ := opens_of_assigns hassigns
      by_cases hc : c = d
      · subst hc
        refine .assigns hassigns ?_
        rw [hopens, hfd]
      · refine .keeps (hgrows.others c hc) (fun _ => ?_)
        rw [hreleases]
        nofun

/-- No channel has a number that was closed. -/
theorem Holds.ne_of_releases {w w' : Worker} (h : Holds w e w' c) (hreleases : w.releases e = some fd) :
  (w'.channels c).fd ≠ fd
  := by
  obtain ⟨hne, -⟩ := releases_cases hreleases
  cases h with
  | keeps hfd hopen =>
      rw [hfd]
      rintro rfl
      exact hopen hne hreleases
  | closes _ hfd =>
      rw [hfd]
      exact hne.symm
  | assigns hassigns _ =>
      cases e with
      | complete i res more idx data =>
          obtain ⟨-, hnone, -⟩ := opens_of_assigns hassigns
          cases hnone.symm.trans hreleases
      | _ => cases hassigns

/-- The numbers that the channels have are open, and different. -/
theorem Inv.numbers {w' : Worker} {ok : Bool} (h : m.Inv) (hfresh : m.Fresh e)
    (hsteps : Steps m.state e ok w') :
  (∀ c, (w'.channels c).fd ≠ -1 →
      (w'.channels c).fd ∈ (observe m.state m.record e ok w').opened)
    ∧ ∀ c d, (w'.channels c).fd = (w'.channels d).fd → (w'.channels c).fd ≠ -1 → c = d
  := by
  have hopens : ∀ fd, m.state.opens e = some fd → fd ∉ m.record.opened := by
    intro fd hopens
    rw [opens] at hopens
    split at hopens
    case isTrue => exact hfresh fd hopens
    case isFalse => cases hopens
  constructor
  · intro c hne
    cases h.holds hfresh hsteps c with
    | keeps hfd hopen =>
        rw [hfd] at hne ⊢
        apply List.mem_append_right
        apply List.mem_filter.mpr
        exact ⟨h.opened c hne, decide_eq_true (hopen hne).symm⟩
    | closes _ hfd => exact absurd hfd hne
    | assigns _ hnew =>
        apply List.mem_append_left
        rw [hnew]
        exact List.mem_singleton.mpr rfl
  · intro c d heq hne
    cases h.holds hfresh hsteps c with
    | closes _ hfd => exact absurd hfd hne
    | keeps hfd _ =>
        rw [hfd] at hne heq
        cases h.holds hfresh hsteps d with
        | keeps hfd' _ => exact h.apart c d (heq.trans hfd') hne
        | closes _ hfd' => exact absurd (heq.trans hfd') hne
        | assigns _ hnew =>
            rw [← heq] at hnew
            exact absurd (h.opened c hne) (hopens _ hnew)
    | assigns hassigns hnew =>
        rw [heq] at hnew hne
        cases h.holds hfresh hsteps d with
        | keeps hfd' _ =>
            rw [hfd'] at hnew hne
            exact absurd (h.opened d hne) (hopens _ hnew)
        | closes _ hfd' => exact absurd hfd' hne
        | assigns hassigns' _ =>
            cases e with
            | complete i res more idx data =>
                exact Option.some.inj (hassigns.2.2.2.symm.trans hassigns'.2.2.2)
            | _ => cases hassigns

/-- An SQE that was prepared before names the number its channel goes on having. -/
theorem Inv.names_old {w' : Worker} {ok : Bool} (h : m.Inv) (hfresh : m.Fresh e) (htimely : m.Timely e)
    (hsteps : Steps m.state e ok w') {sqe : Sqe} (hnames : sqe.Names c fd) (hne : fd ≠ -1)
    (hmem : sqe ∈ m.state.thread.ioRing.sq) (hfd : (m.state.channels c).fd = fd) :
  (w'.channels c).fd = fd ∧ m.state.releases e ≠ some fd
  := by
  have harmed := h.armed sqe hmem c fd hnames
  cases h.holds hfresh hsteps c with
  | keeps hkept hopen =>
      rw [hfd] at hkept hopen
      exact ⟨hkept, hopen hne⟩
  | closes hcloses _ => exact absurd (hfd.symm.trans (htimely.1 c hcloses harmed)) hne
  | assigns hassigns _ =>
      cases e with
      | complete i res more idx data =>
          obtain ⟨-, -, harms⟩ := opens_of_assigns hassigns
          exact absurd (hfd.symm.trans (htimely.2 c harms hassigns)) hne
      | _ => cases hassigns

/-- An SQE that an event prepares names the number its channel has then. -/
theorem Inv.names_new {w' : Worker} {ok : Bool} (h : m.Inv) (hfresh : m.Fresh e)
    (htimely : m.Timely e) (hsteps : Steps m.state e ok w') {sqe : Sqe} {l : List Sqe}
    (hsubmit : e ≠ .submit) (hsq : w'.thread.ioRing.sq = m.state.thread.ioRing.sq ++ l)
    (hmem : sqe ∈ l) (hnames : sqe.Names c fd) (hne : fd ≠ -1) :
  (w'.channels c).fd = fd ∧ m.state.releases e ≠ some fd
  := by
  have hgrown : ∀ d fd', Grows d fd' m.state w' → d = c ∧ fd' = fd := by
    intro d fd' hgrows
    obtain ⟨l', hsq', hl'⟩ := hgrows.sq
    rw [hsq] at hsq'
    rcases hl' sqe (List.append_cancel_left hsq' ▸ hmem) with rfl | hnames'
    · cases hnames.fd_eq
    · exact ⟨hnames'.channel_eq hnames, Option.some.inj (hnames'.fd_eq.symm.trans hnames.fd_eq)⟩
  have hdescriptors := hsteps.descriptors
  cases hdescriptors with
  | submit => exact absurd rfl hsubmit
  | keeps d hgrows hfd =>
      obtain ⟨rfl, rfl⟩ := hgrown _ _ hgrows
      cases h.holds hfresh hsteps d with
      | keeps _ hopen => exact ⟨hfd, hopen hne⟩
      | closes _ hclosed => exact absurd (hfd.symm.trans hclosed) hne
      | assigns hassigns _ =>
          cases e with
          | complete i res more idx data =>
              obtain ⟨-, -, harms⟩ := opens_of_assigns hassigns
              exact absurd (htimely.2 d harms hassigns) hne
          | _ => cases hassigns
  | closes hcloses =>
      -- an event that closes a channel prepares nothing
      rw [hsteps.sq_eq h.idles (quiet_of_closes hcloses)] at hsq
      rw [List.self_eq_append_right.mp hsq] at hmem
      cases hmem
  | assigns hassigns hgrows hfd =>
      obtain ⟨rfl, rfl⟩ := hgrown _ _ hgrows
      obtain ⟨-, hreleases, -⟩ := opens_of_assigns hassigns
      refine ⟨hfd, ?_⟩
      rw [hreleases]
      nofun

/-- The record after an event other than a submit, by the SQEs that the event prepares. -/
theorem observe_of_ne {w w' : Worker} (g : SocketRecord) (ok : Bool) (hsubmit : e ≠ .submit)
    {l : List Sqe} (hsq : w'.thread.ioRing.sq = w.thread.ioRing.sq ++ l) :
  (observe w g e ok w').stamped = g.stamped ++ l.map (stamp g.closed)
    ∧ ∀ c, (observe w g e ok w').armed c = (g.armed c || w.arms e = some c)
  := by
  have hnew : g.stamped ++ (w'.thread.ioRing.sq.drop w.thread.ioRing.sq.length).map (stamp g.closed)
      = g.stamped ++ l.map (stamp g.closed) := by
    rw [hsq, List.drop_left]
  cases e with
  | submit => exact absurd rfl hsubmit
  | _ => exact ⟨hnew, fun _ => rfl⟩

theorem Inv.step (h : m.Inv) (hadmits : m.state.Admits e) (hfresh : m.Fresh e)
    (htimely : m.Timely e) (hstep : m.step e = some m') :
  m'.Inv
  := by
  obtain ⟨ok, hresult, hrecord⟩ := Monitored.step_eq_some hstep
  obtain ⟨w', g'⟩ := m'
  dsimp only at hresult hrecord
  subst hrecord
  have hsteps := step_cases hresult
  obtain ⟨hopened, hapart⟩ := h.numbers hfresh hsteps
  have hidles := h.idles.step hadmits hresult
  have htyped := h.typed.step hsteps.descriptors
  by_cases hsubmit : e = .submit
  · subst hsubmit
    cases hsteps
    exact ⟨hidles, htyped, rfl, nofun, nofun, hopened, hapart⟩
  obtain ⟨l, hsq⟩ := hsteps.descriptors.sq_append hsubmit
  obtain ⟨hstamped, harmed⟩ := observe_of_ne m.record ok hsubmit hsq
  refine ⟨hidles, htyped, ?_, ?_, ?_, hopened, hapart⟩
  · rw [hstamped, hsq, List.map_append, h.stamped, List.map_map]
    exact congrArg _ (List.map_id l)
  · intro p hp c fd hnames hne
    have hclosed : m.state.releases e ≠ some fd →
        (observe m.state m.record e ok w').closed fd = m.record.closed fd :=
      fun hopen => if_neg hopen.symm
    rw [hstamped] at hp
    rcases List.mem_append.mp hp with hold | hnew
    · obtain ⟨hfd, hstamp⟩ := h.current p hold c fd hnames hne
      have hmem : p.1 ∈ m.state.thread.ioRing.sq := h.stamped ▸ List.mem_map_of_mem hold
      obtain ⟨hfd', hopen⟩ := h.names_old hfresh htimely hsteps hnames hne hmem hfd
      exact ⟨hfd', hstamp.trans (hclosed hopen).symm⟩
    · obtain ⟨sqe, hmem, rfl⟩ := List.mem_map.mp hnew
      obtain ⟨hfd', hopen⟩ := h.names_new hfresh htimely hsteps hsubmit hsq hmem hnames hne
      refine ⟨hfd', ?_⟩
      rw [hclosed hopen, stamp, show sqe.op.fd = some fd from hnames.fd_eq]
      rfl
  · intro sqe hsqe c fd hnames
    rw [harmed]
    rcases hsteps.armed_of_new h.idles hsubmit hsqe hnames with hold | harms
    · rw [h.armed sqe hold c fd hnames]
      rfl
    · rw [decide_eq_true harms, Bool.or_true]

theorem inv_start (depth : ℕ) (bufRing : BufRing) (bufPool : BufPool) (poolBits capBits : Fin 31) :
  (start (Worker.start depth bufRing bufPool poolBits capBits)).Inv
  := by
  have hnames : ∀ sqe ∈ (Worker.start depth bufRing bufPool poolBits capBits).thread.ioRing.sq,
      ∀ c fd, ¬ sqe.Names c fd := by
    intro sqe hsqe c fd hnames
    rcases List.mem_pair.mp hsqe with rfl | rfl <;> cases hnames.fd_eq
  constructor
  · exact idles_start depth bufRing bufPool poolBits capBits
  · intro sqe hmem
    rcases List.mem_pair.mp hmem with rfl | rfl
    · exact .inl (.inl rfl)
    · exact .inr rfl
  · rfl
  · intro p hp c fd hname
    obtain ⟨sqe, hmem, rfl⟩ := List.mem_map.mp hp
    exact absurd hname (hnames sqe hmem c fd)
  · intro sqe hsqe c fd hname
    exact absurd hname (hnames sqe hsqe c fd)
  · intro c hne
    exact absurd rfl hne
  · intro c d _ hne
    exact absurd rfl hne

end Sockets

section

variable (depth : ℕ) (bufRing : BufRing) (bufPool : BufPool) (poolBits capBits : Fin 31)

/-- In every run in which an open channel is closed only if no event since the last submit could
prepare SQEs for it, and in which no open channel is assigned: a number that is in the submission
queue was not closed since the SQE was prepared and is the number of the channel of the SQE, and
when a number is closed no SQE in the submission queue names it. -/
theorem operations_on_own_socket {m : Sockets}
    (h : Reaches Sockets.step (fun m e => m.state.Admits e ∧ m.Fresh e ∧ m.Timely e)
      (.start (Worker.start depth bufRing bufPool poolBits capBits)) m) :
  m.record.stamped.map Prod.fst = m.state.thread.ioRing.sq
    ∧ (∀ p ∈ m.record.stamped, ∀ fd, p.1.op.fd = some fd → fd ≠ -1 →
        p.2 = m.record.closed fd
          ∧ ∃ c, (p.1.data = .read c ∨ p.1.data = .write c) ∧ (m.state.channels c).fd = fd)
    ∧ ∀ e m' fd, m.state.Admits e → m.Fresh e → m.Timely e → m.step e = some m' →
        m.state.releases e = some fd → ∀ sqe ∈ m'.state.thread.ioRing.sq, sqe.op.fd ≠ some fd
  := by
  have hinv : m.Inv := by
    apply h.invariant (Sockets.inv_start depth bufRing bufPool poolBits capBits)
    rintro m m' e hinv ⟨hadmits, hfresh, htimely⟩ hstep
    apply hinv.step hadmits hfresh htimely hstep
  have hsockets : ∀ m : Sockets, m.Inv → ∀ p ∈ m.record.stamped, ∀ fd, p.1.op.fd = some fd →
      fd ≠ -1 → p.2 = m.record.closed fd
        ∧ ∃ c, (p.1.data = .read c ∨ p.1.data = .write c) ∧ (m.state.channels c).fd = fd := by
    intro m hinv p hp fd hfd hne
    have hmem : p.1 ∈ m.state.thread.ioRing.sq := hinv.stamped ▸ List.mem_map_of_mem hp
    obtain ⟨c, hnames⟩ := Sqe.names_of_fd (hinv.typed p.1 (List.mem_append_left _ hmem)) hfd
    obtain ⟨hheld, hstamp⟩ := hinv.current p hp c fd hnames hne
    exact ⟨hstamp, c, hnames.data_eq, hheld⟩
  refine ⟨hinv.stamped, hsockets m hinv, ?_⟩
  intro e m' fd hadmits hfresh htimely hstep hreleases sqe hsqe hfd
  have hinv' := hinv.step hadmits hfresh htimely hstep
  obtain ⟨ok, hresult, -⟩ := Monitored.step_eq_some hstep
  rw [← hinv'.stamped] at hsqe
  obtain ⟨p, hp, rfl⟩ := List.mem_map.mp hsqe
  obtain ⟨-, c, -, hheld⟩ := hsockets m' hinv' p hp fd hfd (Sockets.releases_cases hreleases).1
  exact (hinv.holds hfresh (Worker.step_cases hresult) c).ne_of_releases hreleases hheld

end

theorem Worker.pair_poolBits_lt :
  1 < 31
  := by
  decide

theorem Worker.pair_capBits_lt :
  0 < 31
  := by
  decide

/-- A worker with two channels, one provided buffer and one write block of one byte each. -/
def Worker.pair : Worker :=
  start 8 (BufRing.new 0 1 Nat.one_pos tiny_alloc_lt)
    ⟨0, tiny_bits_le, 1, Nat.one_pos, tiny_bufSize_lt, fun _ => 0, fun _ => 0, ⟨fun _ => 0, 0, 1⟩⟩
    ⟨1, pair_poolBits_lt⟩ ⟨0, pair_capBits_lt⟩

/-- A connection is accepted; in the next batch its peer ends the stream and a second connection
is accepted, so that the first one is closed while the `recv` of the second one is in the
submission queue. -/
theorem operations_on_own_socket_two_connections :
  ∃ m m' : Sockets,
    Reaches Sockets.step (fun m e => m.state.Admits e ∧ m.Fresh e ∧ m.Timely e) (.start Worker.pair) m
      ∧ m.step .ret = some m' ∧ m.state.releases .ret = some 5
      ∧ m'.state.thread.ioRing.sq = [⟨.multishotRecv 6, .read 1⟩]
      ∧ ∀ sqe ∈ m'.state.thread.ioRing.sq, sqe.op.fd ≠ some 5
  := by
  obtain ⟨m, hreach, htimely, hreleases, m', hstep, hsq⟩ :
      ∃ m : Sockets, Reaches Sockets.step (fun m e => m.state.Admits e ∧ m.Fresh e ∧ m.Timely e)
          (.start Worker.pair) m
        ∧ m.Timely .ret ∧ m.state.releases .ret = some 5
        ∧ ∃ m' ∈ m.step .ret, m'.state.thread.ioRing.sq = [⟨.multishotRecv 6, .read 1⟩] := by
    apply Reaches.exists_of_follow [.submit, .complete 0 5 true 0 [], .ret, .batchDone, .submit,
      .complete 0 6 true 0 [], .ret, .complete 2 0 false 0 []]
    decide +kernel
  obtain ⟨-, -, hclosed⟩ := operations_on_own_socket _ _ _ _ _ hreach
  exact ⟨m, m', hreach, hstep, hreleases, hsq, hclosed .ret m' 5 trivial nofun htimely hstep hreleases⟩

/-- A connection is closed in `on_accept`, while its `recv` is in the submission queue.  The kernel
accepts the next connection before the batch is over and gives it the number: when the batch is over
the loop submits the `recv` of the closed channel, which is then performed on the connection that
the other channel gets in the next batch. -/
theorem recv_on_other_socket :
  ∃ s s' t t' : RunLoop, Reaches RunLoop.step RunLoop.Runs (.start Worker.pair) s
    ∧ s.worker.releases (.app 0 .close) = some 5 ∧ s.step (.app 0 .close) = some s'
    ∧ ⟨.multishotRecv 5, .read 0⟩ ∈ s'.worker.thread.ioRing.sq
    ∧ (∀ c < s'.worker.size, (s'.worker.channels c).fd ≠ 5)
    ∧ Reaches RunLoop.step RunLoop.Runs s' t
    ∧ t.unhandled.map (fun q => (q.sqe.data, q.res)) = [(.accept, 5)] ∧ t.worker.ctl = .poll
    ∧ ⟨.multishotRecv 5, .read 0⟩ ∈ t.worker.thread.ioRing.sq
    ∧ Reaches RunLoop.step RunLoop.Runs t t'
    ∧ ⟨.multishotRecv 5, .read 0⟩ ∈ t'.worker.thread.ioRing.inflight
    ∧ (t'.worker.channels 0).fd = -1 ∧ (t'.worker.channels 1).fd = 5
  := by
  obtain ⟨s, hs, hreleases, s', hclose, hsq, hclosed, hrest⟩ :
      ∃ s : RunLoop, Reaches RunLoop.step RunLoop.Runs (.start Worker.pair) s
        ∧ s.worker.releases (.app 0 .close) = some 5
        ∧ ∃ s' ∈ s.step (.app 0 .close), ⟨.multishotRecv 5, .read 0⟩ ∈ s'.worker.thread.ioRing.sq
          ∧ (∀ c < s'.worker.size, (s'.worker.channels c).fd ≠ 5)
          ∧ (Reaches.follow RunLoop.step RunLoop.Runs [.post 0 5 true [], .ret, .batchDone] s').map
            (fun t => decide (t.unhandled.map (fun q => (q.sqe.data, q.res)) = [(.accept, 5)]
              ∧ t.worker.ctl = .poll ∧ ⟨.multishotRecv 5, .read 0⟩ ∈ t.worker.thread.ioRing.sq
              ∧ (Reaches.follow RunLoop.step RunLoop.Runs [.submit, .peek, .handle] t).map
                (fun t' => decide (⟨.multishotRecv 5, .read 0⟩ ∈ t'.worker.thread.ioRing.inflight
                  ∧ (t'.worker.channels 0).fd = -1 ∧ (t'.worker.channels 1).fd = 5)) = some true))
            = some true := by
    apply Reaches.exists_of_follow [.submit, .post 0 5 true [], .peek, .handle]
    decide +kernel
  obtain ⟨t, ht, hposted, hctl, hsq', hsubmit⟩ := Reaches.exists_of_follow _ hrest
  obtain ⟨t', ht', hinflight⟩ := Reaches.exists_of_follow _ hsubmit
  exact ⟨s, s', t, t', hs, hreleases, hclose, hsq, hclosed, ht, hposted, hctl, hsq', ht', hinflight⟩

end Proactor
