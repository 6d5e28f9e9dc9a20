import UringProactor.Core.WriteSteps
import UringProactor.Net.Descriptors

/-!
# What a step of the worker does to descriptors

A step adds SQEs to the submission queue that name the descriptor of at most one channel, and
changes no other descriptor.  The channel keeps its descriptor, closes it, or gets that of a
new connection.
-/

namespace Proactor

namespace Worker

open IoRing

variable {w w' : Worker} {e : Event} {ok : Bool} {c : ℕ} {fd : Int}

/-- The channel whose `close` an event calls. -/
def closes (w : Worker) : Event → Option ℕ
  | .complete i res _ _ _ =>
      match w.thread.ioRing.inflight[i]? with
      | some ⟨_, .write c⟩ =>
          if (w.channels c).writeCo.tokens = 1 ∧ res ≤ 0 ∧ (w.channels c).isClosing = false then
            some c
          else
            none
      | _ => none
  | .ret =>
      match w.ctl with
      | .onClose c => if (w.channels c).isClosing then none else some c
      | _ => none
  | .app c .close => some c
  | _ => none

/-- The SQEs that are prepared are of the accept coroutine, or of the channel `c` on the
descriptor `fd`, and the other channels keep their descriptors. -/
structure Grows (c : ℕ) (fd : Int) (w w' : Worker) : Prop where
  depth : w'.thread.ioRing.depth = w.thread.ioRing.depth
  inflight : w'.thread.ioRing.inflight.Sublist w.thread.ioRing.inflight
  sq : ∃ l, w'.thread.ioRing.sq = w.thread.ioRing.sq ++ l
    ∧ ∀ sqe ∈ l, sqe = ⟨.multishotAccept, .accept⟩ ∨ sqe.Names c fd
  others : ∀ d, d ≠ c → (w'.channels d).fd = (w.channels d).fd

/-- What an event does to the SQEs and the descriptors. -/
inductive Descriptors (w : Worker) : Event → Worker → Prop where
  | submit {w' : Worker} (hring : w'.thread.ioRing = w.thread.ioRing.submit)
      (hchannels : w'.channels = w.channels) : Descriptors w .submit w'
  | keeps {e : Event} {w' : Worker} (c : ℕ) (hgrows : Grows c (w.channels c).fd w w')
      (hfd : (w'.channels c).fd = (w.channels c).fd) : Descriptors w e w'
  | closes {e : Event} {w' : Worker} {c : ℕ} (hcloses : w.closes e = some c)
      (hgrows : Grows c (w.channels c).fd w w') (hfd : (w'.channels c).fd = -1) :
      Descriptors w e w'
  | assigns {i idx c : ℕ} {fd : Int} {more : Bool} {data : List UInt8} {w' : Worker}
      (hassigns : w.Assigns c (.complete i fd more idx data)) (hgrows : Grows c fd w w')
      (hfd : (w'.channels c).fd = fd) : Descriptors w (.complete i fd more idx data) w'

/-- Only a submit empties the submission queue. -/
theorem Descriptors.sq_append (h : Descriptors w e w') (hsubmit : e ≠ .submit) :
  ∃ l, w'.thread.ioRing.sq = w.thread.ioRing.sq ++ l
  := by
  have hgrows : ∀ c fd, Grows c fd w w' → ∃ l, w'.thread.ioRing.sq = w.thread.ioRing.sq ++ l := by
    intro c fd hgrows
    obtain ⟨l, hsq, -⟩ := hgrows.sq
    exact ⟨l, hsq⟩
  cases h with
  | submit => apply absurd rfl hsubmit
  | keeps _ h => apply hgrows _ _ h
  | closes _ h => apply hgrows _ _ h
  | assigns _ h => apply hgrows _ _ h

/-- Only a submit puts SQEs in flight. -/
theorem Descriptors.inflight_sublist (h : Descriptors w e w') (hsubmit : e ≠ .submit) :
  w'.thread.ioRing.inflight.Sublist w.thread.ioRing.inflight
  := by
  cases h with
  | submit => apply absurd rfl hsubmit
  | keeps _ hgrows => apply hgrows.inflight
  | closes _ hgrows => apply hgrows.inflight
  | assigns _ hgrows => apply hgrows.inflight

/-- A step that leaves the SQEs and the descriptors alone, besides finishing an SQE. -/
theorem Grows.of_eq (hdepth : w'.thread.ioRing.depth = w.thread.ioRing.depth)
    (hinflight : w'.thread.ioRing.inflight.Sublist w.thread.ioRing.inflight)
    (hsq : w'.thread.ioRing.sq = w.thread.ioRing.sq)
    (hfd : ∀ d, d ≠ c → (w'.channels d).fd = (w.channels d).fd) :
  Grows c fd w w'
  := by
  refine ⟨hdepth, hinflight, ⟨[], ?_, nofun⟩, hfd⟩
  rw [hsq, List.append_nil]

theorem sublist_reap {r : IoRing} (i : ℕ) (more : Bool) :
  (r.reap i more).inflight.Sublist r.inflight
  := by
  cases more with
  | true => apply List.Sublist.refl _
  | false => apply List.eraseIdx_sublist ..

/-- A function of the channel `c`, after the kernel may have finished an SQE. -/
theorem Grows.of_prepares {ch : TcpChannel} {th : TcpThread} {ctl : Ctl} {r : IoRing}
    (hdepth : r.depth = w.thread.ioRing.depth)
    (hinflight : r.inflight.Sublist w.thread.ioRing.inflight)
    (hsq : ∃ l, r.sq = w.thread.ioRing.sq ++ l
      ∧ ∀ sqe ∈ l, sqe = ⟨.multishotAccept, .accept⟩)
    (hprepares : Prepares c fd r th.ioRing) :
  Grows c fd w { w.update c ch th with ctl := ctl }
  := by
  obtain ⟨l, hsq, haccepts⟩ := hsq
  obtain ⟨l', hsq', hnames⟩ := hprepares.sq
  refine ⟨hprepares.depth.trans hdepth, ?_, ⟨l ++ l', ?_, ?_⟩, ?_⟩
  · change th.ioRing.inflight.Sublist _
    rw [hprepares.inflight]
    apply hinflight
  · change th.ioRing.sq = _
    rw [hsq', hsq, List.append_assoc]
  · intro sqe hsqe
    rcases List.mem_append.mp hsqe with hsqe | hsqe
    · exact .inl (haccepts sqe hsqe)
    · exact .inr (hnames sqe hsqe)
  · intro d hd
    change (Function.update w.channels c ch d).fd = _
    rw [Function.update_of_ne hd]

theorem Grows.of_reap {ch : TcpChannel} {th : TcpThread} {ctl : Ctl} {i : ℕ} {more : Bool}
    (hprepares : Prepares c fd (w.thread.ioRing.reap i more) th.ioRing) :
  Grows c fd w { w.update c ch th with ctl := ctl }
  := by
  apply Grows.of_prepares sq_reap.2 (sublist_reap i more) _ hprepares
  exact ⟨[], by rw [sq_reap.1, List.append_nil], nofun⟩

theorem Grows.of_update {ch : TcpChannel} {th : TcpThread} {ctl : Ctl}
    (hprepares : Prepares c fd w.thread.ioRing th.ioRing) :
  Grows c fd w { w.update c ch th with ctl := ctl }
  := by
  apply Grows.of_prepares rfl (List.Sublist.refl _) _ hprepares
  exact ⟨[], (List.append_nil _).symm, nofun⟩

theorem fd_update_self {ch : TcpChannel} {th : TcpThread} {ctl : Ctl} :
  ({ w.update c ch th with ctl := ctl } : Worker).channels c = ch
  := Function.update_self ..

/-- The ring after the accept may have been armed again. -/
theorem rearmAccept_sq {r r' : IoRing} {more : Bool} (h : rearmAccept r more = some r') :
  r'.depth = r.depth ∧ r'.inflight = r.inflight
    ∧ ∃ l, r'.sq = r.sq ++ l ∧ ∀ sqe ∈ l, sqe = ⟨.multishotAccept, .accept⟩
  := by
  rw [rearmAccept] at h
  split at h
  case isTrue =>
    cases h
    exact ⟨rfl, rfl, [], (List.append_nil _).symm, by simp⟩
  case isFalse =>
    rw [prep_eq_some h]
    exact ⟨rfl, rfl, [_], rfl, fun sqe => List.mem_singleton.mp⟩

theorem channels_serveReads_fd (rest : List ℕ) (d : ℕ) :
  ((w.serveReads rest).channels d).fd = (w.channels d).fd
  := by
  cases rest with
  | nil => rfl
  | cons c rest =>
      change (Function.update w.channels c _ d).fd = _
      rcases eq_or_ne d c with rfl | hne
      · rw [Function.update_self]
      · rw [Function.update_of_ne hne]

/-- A call of the application; only `close` gives the descriptor up. -/
theorem call_prepares {ch ch' : TcpChannel} {th th' : TcpThread} {op : AppOp}
    (h : ch.call c th op = some (ok, ch', th')) :
  Prepares c ch.fd th.ioRing th'.ioRing ∧ (ch'.fd = ch.fd ∨ op = .close ∧ ch'.fd = -1)
  := by
  cases op with
  | append data =>
      obtain ⟨_, -, heq⟩ := Option.map_eq_some_iff.mp h
      cases heq
      exact ⟨.refl, .inl rfl⟩
  | prepend data =>
      obtain ⟨_, -, heq⟩ := Option.map_eq_some_iff.mp h
      cases heq
      exact ⟨.refl, .inl rfl⟩
  | submit =>
      rw [TcpChannel.call] at h
      dsimp only at h
      split at h
      case isTrue =>
        obtain ⟨⟨ch₁, th₁⟩, hnotify, heq⟩ := Option.map_eq_some_iff.mp h
        cases heq
        obtain ⟨hprepares, hfd⟩ := TcpChannel.notify_prepares hnotify
        exact ⟨hprepares, .inl hfd⟩
      case isFalse =>
        cases h
        exact ⟨.refl, .inl rfl⟩
  | peek size =>
      cases h
      exact ⟨.refl, .inl rfl⟩
  | consume size =>
      obtain ⟨_, -, heq⟩ := Option.map_eq_some_iff.mp h
      cases heq
      exact ⟨.refl, .inl rfl⟩
  | close =>
      obtain ⟨⟨ch₁, th₁⟩, hclose, heq⟩ := Option.map_eq_some_iff.mp h
      cases heq
      obtain ⟨hprepares, hfd⟩ := TcpChannel.close_prepares hclose
      exact ⟨hprepares, .inr ⟨rfl, hfd⟩⟩

/-! ### The steps -/

/-- The acting channel keeps its descriptor. -/
theorem Descriptors.keeps_update {ch : TcpChannel} {th : TcpThread} {ctl : Ctl}
    (hgrows : Grows c (w.channels c).fd w { w.update c ch th with ctl := ctl })
    (hfd : ch.fd = (w.channels c).fd) :
  Descriptors w e { w.update c ch th with ctl := ctl }
  := by
  apply Descriptors.keeps c hgrows
  rw [fd_update_self]
  apply hfd

/-- The acting channel closes its descriptor. -/
theorem Descriptors.closes_update {ch : TcpChannel} {th : TcpThread} {ctl : Ctl}
    (hcloses : w.closes e = some c)
    (hgrows : Grows c (w.channels c).fd w { w.update c ch th with ctl := ctl })
    (hfd : ch.fd = -1) :
  Descriptors w e { w.update c ch th with ctl := ctl }
  := by
  apply Descriptors.closes hcloses hgrows
  rw [fd_update_self]
  apply hfd

/-- A step that serves the channels with received data. -/
theorem descriptors_serveReads (rest : List ℕ) :
  Descriptors w e (w.serveReads rest)
  := by
  refine .keeps 0 (.of_eq ?_ ?_ ?_ (fun d _ => channels_serveReads_fd _ d))
    (channels_serveReads_fd _ 0)
  all_goals rw [ioRing_serveReads]

/-- A completion for nobody. -/
theorem descriptors_ignored (i : ℕ) (u : UserData) (res : Int) (more : Bool) (idx : ℕ)
    (data : List UInt8) :
  Descriptors w e { w with thread := kernel w.thread i u res more idx data }
  := by
  have hring := (kernel_spec w.thread i u res more idx data).1
  refine .keeps 0 (.of_eq ?_ ?_ ?_ (fun _ _ => rfl)) rfl
  · apply (congrArg IoRing.depth hring).trans sq_reap.2
  · change (kernel w.thread i u res more idx data).ioRing.inflight.Sublist _
    rw [hring]
    apply sublist_reap i more
  · apply (congrArg IoRing.sq hring).trans sq_reap.1

/-- A new connection, with the pool exhausted. -/
theorem descriptors_exhausted {i : ℕ} {more : Bool} {ioRing : IoRing}
    (hrearm : rearmAccept (w.thread.ioRing.reap i more) more = some ioRing) :
  Descriptors w e { w with thread := { w.thread with ioRing := ioRing } }
  := by
  obtain ⟨hdepth, hinflight, l, hsq, haccepts⟩ := rearmAccept_sq hrearm
  refine .keeps 0 ⟨hdepth.trans sq_reap.2, ?_, ⟨l, ?_, ?_⟩, fun _ _ => rfl⟩ rfl
  · change ioRing.inflight.Sublist _
    rw [hinflight]
    apply sublist_reap i more
  · change ioRing.sq = _
    rw [hsq, sq_reap.1]
  · intro sqe hsqe
    exact .inl (haccepts sqe hsqe)

/-- A new connection, on the channel `c`. -/
theorem descriptors_accepted {i idx : ℕ} {res : Int} {more : Bool} {data : List UInt8}
    {ioRing : IoRing} {pool : TcpChannelPool} {ch : TcpChannel} {th : TcpThread} {ctl : Ctl}
    (hassigns : w.Assigns c (.complete i res more idx data))
    (hrearm : rearmAccept (w.thread.ioRing.reap i more) more = some ioRing)
    (hassign : (w.channels c).assign c { w.thread with ioRing := ioRing, channelPool := pool } res
      = some (ch, th)) :
  Descriptors w (.complete i res more idx data) { w.update c ch th with ctl := ctl }
  := by
  obtain ⟨hdepth, hinflight, l, hsq, haccepts⟩ := rearmAccept_sq hrearm
  obtain ⟨hprepares, hfd⟩ := TcpChannel.assign_prepares hassign
  refine .assigns hassigns (.of_prepares (hdepth.trans sq_reap.2) ?_ ?_ hprepares) ?_
  · rw [hinflight]
    apply sublist_reap i more
  · rw [hsq, sq_reap.1]
    exact ⟨l, rfl, haccepts⟩
  · rw [fd_update_self]
    apply hfd

/-- A completion of a `writev`; an error closes the channel. -/
theorem descriptors_written {i idx submittedBytes : ℕ} {res : Int} {more callback : Bool}
    {data : List UInt8} {op : SqeOp} {ch : TcpChannel} {th : TcpThread} {ctl : Ctl}
    (hsqe : w.thread.ioRing.inflight[i]? = some ⟨op, .write c⟩)
    (hwrite : (w.channels c).writeCo = .onToken submittedBytes)
    (hresume : (w.channels c).resumeWrite c
      { w.thread with ioRing := w.thread.ioRing.reap i more } submittedBytes res
        = some (ch, th, callback)) :
  Descriptors w (.complete i res more idx data) { w.update c ch th with ctl := ctl }
  := by
  obtain ⟨hprepares, hfd⟩ := TcpChannel.resumeWrite_prepares hresume
  split at hfd
  case isTrue hcloses =>
    apply Descriptors.closes_update _ (.of_reap hprepares) hfd
    simp only [closes, hsqe, hwrite, WriteCo.tokens_onToken, true_and, if_pos hcloses]
  case isFalse => exact .keeps_update (.of_reap hprepares) hfd

/-- The return from `on_close`, behind which the channel is closed if it is not closing. -/
theorem descriptors_onCloseReturns {ch : TcpChannel} {th : TcpThread} {ctl : Ctl}
    (hctl : w.ctl = .onClose c)
    (hafter : (w.channels c).afterOnClose c w.thread = some (ch, th)) :
  Descriptors w .ret { w.update c ch th with ctl := ctl }
  := by
  obtain ⟨hprepares, hfd⟩ := TcpChannel.afterOnClose_prepares hafter
  split at hfd
  case isTrue => exact .keeps_update (.of_update hprepares) hfd
  case isFalse hclosing =>
    apply Descriptors.closes_update _ (.of_update hprepares) hfd
    simp only [closes, hctl, hclosing, Bool.false_eq_true, if_false]

/-- Every step does to the SQEs and the descriptors what is listed. -/
theorem Steps.descriptors (h : Steps w e ok w') :
  Descriptors w e w'
  := by
  cases h with
  | submit => exact .submit rfl rfl
  | ignored => apply descriptors_ignored ..
  | @refused i _ _ more =>
      exact .keeps 0 (.of_eq sq_reap.2 (sublist_reap i more) sq_reap.1 (fun _ _ => rfl)) rfl
  | exhausted _ _ _ hrearm => apply descriptors_exhausted hrearm
  | accepted _ hsqe haccepting hres hrearm hacquire hassign =>
      apply descriptors_accepted _ hrearm hassign
      exact ⟨by rw [hsqe]; rfl, haccepting, hres, by rw [hacquire]; rfl⟩
  | @received i idx c res more _ data _ _ _ _ _ _ hresume =>
      obtain ⟨hprepares, hfd⟩ := TcpChannel.resumeRead_prepares hresume
      rw [(kernel_spec w.thread i (.read c) res more idx data).1] at hprepares
      exact .keeps_update (.of_reap hprepares) hfd
  | written _ hsqe hwrite hresume => apply descriptors_written hsqe hwrite hresume
  | batchDone => apply descriptors_serveReads _
  | onAcceptReturns => exact .keeps 0 (.of_eq rfl (.refl _) rfl (fun _ _ => rfl)) rfl
  | onCloseReturns hctl hafter => apply descriptors_onCloseReturns hctl hafter
  | onWriteReturns _ hafter =>
      obtain ⟨hprepares, hfd⟩ := (TcpChannel.writeLoop_outcome hafter).prepares
      exact .keeps_update (.of_update hprepares) hfd
  | onReadReturns => apply descriptors_serveReads _
  | @call c op _ ch th hcall =>
      change Descriptors w _ { w.update c ch th with ctl := w.ctl }
      obtain ⟨hprepares, hfd | ⟨rfl, hfd⟩⟩ := call_prepares hcall
      · exact .keeps_update (.of_update hprepares) hfd
      · exact .closes_update rfl (.of_update hprepares) hfd

end Worker

end Proactor
