import UringProactor.Core.Steps
import UringProactor.Net.Lifecycle
import UringProactor.Net.WriteSide

/-!
# What a step of the worker does on the write sides

Every event of a worker acts on the write side of at most one channel, as its label says.  The
other channels only see that the pool changes and that `io_uring_get_sqe` may have failed.
-/

namespace Proactor

/-- The labels of calls of the application. -/
def WriteLabel.IsCall : WriteLabel → Prop
  | .quiet => True
  | .append _ _ => True
  | .prepend _ _ => True
  | .submit => True
  | _ => False

namespace Worker

open WriteSide

/-- The write side of the channel `c`. -/
def writeSide (w : Worker) (c : ℕ) : WriteSide := (w.channels c).writeSide c w.thread

/-- The channel whose write side an event acts on, and how; `ok` is the result of the event. -/
def writeLabel (w : Worker) (ok : Bool) : Event → Option (ℕ × WriteLabel)
  | .complete i res _ _ _ =>
      match w.thread.ioRing.inflight[i]? with
      | some ⟨_, .accept⟩ =>
          if w.accepting = true ∧ 0 ≤ res then
            w.thread.channelPool.acquire.map (fun (c, _) => (c, .assign))
          else
            none
      | some ⟨_, .read c⟩ => some (c, .quiet)
      | some ⟨_, .write c⟩ =>
          some (c, if (w.channels c).writeCo.tokens = 1 then TcpChannel.writtenLabel res
            else .stale)
      | _ => none
  | .ret =>
      match w.ctl with
      | .onClose c => some (c, .quiet)
      | .onWrite c => some (c, .returned)
      | _ => none
  | .app c (.append data) => some (c, .append data ok)
  | .app c (.prepend data) => some (c, .prepend data ok)
  | .app c .submit => some (c, if ok then .submit else .quiet)
  | .app c _ => some (c, .quiet)
  | _ => none

/-- Control is in `on_write` from a successful write until the callback returns. -/
structure OnWrite (w w' : Worker) (x : Option (ℕ × WriteLabel)) : Prop where
  ctl_iff : ∀ c, w'.ctl = .onWrite c ↔
    (∃ bytes, x = some (c, .written bytes)) ∨ w.ctl = .onWrite c ∧ x ≠ some (c, .returned)
  returned : ∀ c, x = some (c, .returned) → w.ctl = .onWrite c

/-- What an event with the given label does on the write sides. -/
inductive Writes (w w' : Worker) : Option (ℕ × WriteLabel) → Prop where
  | none (hctl : OnWrite w w' none) (h : ∀ d, w'.writeSide d = w.writeSide d) :
      Writes w w' none
  | acts {c : ℕ} {l : WriteLabel} (hctl : OnWrite w w' (some (c, l)))
      (hstep : Step (w.writeSide c) l (w'.writeSide c))
      (hother : ∀ d, d ≠ c → w'.writeSide d = { w.writeSide d with
        pool := w'.thread.bufPool, failed := w'.thread.ioRing.failed }) :
      Writes w w' (some (c, l))

variable {w w' : Worker} {e : Event} {ok : Bool}

theorem Writes.onWrite {x : Option (ℕ × WriteLabel)} (h : Writes w w' x) :
  OnWrite w w' x
  := by
  cases h with
  | none hctl => apply hctl
  | acts hctl => apply hctl

/-- An event outside of `on_write`. -/
theorem OnWrite.out {x : Option (ℕ × WriteLabel)} (hctl : ∀ c, w.ctl ≠ .onWrite c)
    (hctl' : ∀ c, w'.ctl ≠ .onWrite c) (hwritten : ∀ c bytes, x ≠ some (c, .written bytes))
    (hreturned : ∀ c, x ≠ some (c, .returned)) :
  OnWrite w w' x
  := by
  constructor
  · intro c
    apply iff_of_false (hctl' c)
    rintro (⟨bytes, hlabel⟩ | ⟨hbefore, -⟩)
    · apply hwritten c bytes hlabel
    · apply hctl c hbefore
  · intro c hlabel
    apply absurd hlabel (hreturned c)

/-- An event of no write side, outside of `on_write`. -/
theorem OnWrite.out_none (hctl : ∀ c, w.ctl ≠ .onWrite c) (hctl' : ∀ c, w'.ctl ≠ .onWrite c) :
  OnWrite w w' none
  := by
  apply OnWrite.out hctl hctl' <;> simp

theorem ctl_ne {ctl : Ctl} (h : w.ctl = ctl) (hne : ∀ c, ctl ≠ .onWrite c) (c : ℕ) :
  w.ctl ≠ .onWrite c
  := by
  rw [h]
  apply hne c

/-- A call of the application leaves control where it is. -/
theorem OnWrite.of_call {c : ℕ} {l : WriteLabel} (hl : l.IsCall) (hctl : w'.ctl = w.ctl) :
  OnWrite w w' (some (c, l))
  := by
  have hreturned : ∀ d, some (c, l) ≠ some (d, .returned) := by
    rintro d ⟨⟩
    apply hl
  constructor
  · intro d
    rw [hctl]
    constructor
    · exact fun h => .inr ⟨h, hreturned d⟩
    · rintro (⟨bytes, ⟨⟩⟩ | ⟨h, -⟩)
      · apply hl.elim
      · apply h
  · intro d hlabel
    apply absurd hlabel (hreturned d)

/-! ### One channel acts -/

theorem writeSide_update_self {c : ℕ} {ch : TcpChannel} {th : TcpThread} (ctl : Ctl) :
  writeSide { w.update c ch th with ctl := ctl } c = ch.writeSide c th
  := by
  change TcpChannel.writeSide c (Function.update w.channels c ch c) th = _
  rw [Function.update_self]

theorem writeSide_update_of_ne {c d : ℕ} (hd : d ≠ c) {ch : TcpChannel} {th : TcpThread}
    (ctl : Ctl) :
  writeSide { w.update c ch th with ctl := ctl } d = (w.channels d).writeSide d th
  := by
  change TcpChannel.writeSide d (Function.update w.channels c ch d) th = _
  rw [Function.update_of_ne hd]

/-- What leaves the write side of a channel as it is changes neither the pool nor whether
`io_uring_get_sqe` has failed. -/
theorem writeSide_eq_with {d : ℕ} (h : w'.writeSide d = w.writeSide d) :
  w'.writeSide d = { w.writeSide d with
    pool := w'.thread.bufPool, failed := w'.thread.ioRing.failed }
  := by
  rw [← h]
  rfl

/-- A function of the channel `c` that starts with the ring `r`, in which the other channels
have the `writev` SQEs they had. -/
theorem writes_update {c k : ℕ} {l : WriteLabel} {ch : TcpChannel} {th : TcpThread} {r : IoRing}
    {ctl : Ctl} (hctl : OnWrite w { w.update c ch th with ctl := ctl } (some (c, l)))
    (hr : ∀ d, d ≠ c → r.writevs d = w.thread.ioRing.writevs d)
    (hextends : r.Extends c k th.ioRing) (hstep : Step (w.writeSide c) l (ch.writeSide c th)) :
  Writes w { w.update c ch th with ctl := ctl } (some (c, l))
  := by
  apply Writes.acts hctl
  · rw [writeSide_update_self]
    apply hstep
  · intro d hd
    rw [writeSide_update_of_ne hd, TcpChannel.writeSide, hextends.writevs_eq hd, hr d hd]
    rfl

/-- `TcpThread::on_batch_done` is about the read sides. -/
theorem writes_serveReads (hctl : ∀ c, w.ctl ≠ .onWrite c) (rest : List ℕ) :
  Writes w (w.serveReads rest) none
  := by
  cases rest with
  | nil => exact .none (.out_none hctl (by simp [serveReads])) (fun _ => rfl)
  | cons c rest =>
      refine .none (.out_none hctl (by simp [serveReads])) ?_
      intro d
      by_cases hd : d = c
      · rw [hd]
        apply writeSide_update_self (.onRead c rest)
      · apply writeSide_update_of_ne hd (.onRead c rest)

/-- A call of the application. -/
theorem call_step {c : ℕ} {ch ch' : TcpChannel} {th th' : TcpThread} {op : AppOp}
    (hcall : ch.call c th op = some (ok, ch', th')) :
  ∃ l, w.writeLabel ok (.app c op) = some (c, l) ∧ l.IsCall
    ∧ Step (ch.writeSide c th) l (ch'.writeSide c th') ∧ th.ioRing.Extends c 1 th'.ioRing
  := by
  cases op with
  | append data =>
      obtain ⟨⟨ok', b, p⟩, happend, heq⟩ := Option.map_eq_some_iff.mp hcall
      cases heq
      exact ⟨_, rfl, trivial, .append happend, .refl⟩
  | prepend data =>
      obtain ⟨⟨ok', b, p⟩, hprepend, heq⟩ := Option.map_eq_some_iff.mp hcall
      cases heq
      exact ⟨_, rfl, trivial, .prepend hprepend, .refl⟩
  | submit =>
      rw [TcpChannel.call] at hcall
      obtain ⟨ok', writeBuf, hsubmit⟩ : ∃ ok' writeBuf, ch.writeBuf.submit = (ok', writeBuf) :=
        ⟨_, _, rfl⟩
      simp only [hsubmit] at hcall
      cases ok' with
      | true =>
          obtain ⟨⟨ch₁, th₁⟩, hnotify, heq⟩ := Option.map_eq_some_iff.mp hcall
          cases heq
          obtain ⟨hnotifies, hextends⟩ := TcpChannel.notify_notifies hnotify
          exact ⟨_, rfl, trivial, .submit hsubmit hnotifies, hextends⟩
      | false =>
          cases hcall
          exact ⟨_, rfl, trivial, .quiet .refl, .refl⟩
  | peek size =>
      cases hcall
      exact ⟨_, rfl, trivial, .quiet .refl, .refl⟩
  | consume size =>
      obtain ⟨⟨ok', readBuf, bufRing⟩, -, heq⟩ := Option.map_eq_some_iff.mp hcall
      cases heq
      exact ⟨_, rfl, trivial, .quiet .refl, .refl⟩
  | close =>
      obtain ⟨⟨ch₁, th₁⟩, hclose, heq⟩ := Option.map_eq_some_iff.mp hcall
      cases heq
      obtain ⟨hstirs, hextends, -⟩ := TcpChannel.close_stirs hclose
      exact ⟨_, rfl, trivial, .quiet hstirs, hextends⟩

/-! ### Completions -/

/-- What the kernel does besides finishing the SQE is not about the write sides. -/
theorem kernel_spec (th : TcpThread) (i : ℕ) (u : UserData) (res : Int) (more : Bool) (idx : ℕ)
    (data : List UInt8) :
  (kernel th i u res more idx data).ioRing = th.ioRing.reap i more
    ∧ (kernel th i u res more idx data).bufPool = th.bufPool
  := by
  cases u with
  | read d =>
      rw [kernel]
      dsimp only
      split <;> exact ⟨rfl, rfl⟩
  | _ => exact ⟨rfl, rfl⟩

/-- Finishing an SQE that is not a `writev` of the channel is not about its write side. -/
theorem writeSide_kernel {c i : ℕ} {op : SqeOp} {u : UserData}
    (hsqe : w.thread.ioRing.inflight[i]? = some ⟨op, u⟩) (hne : u ≠ .write c) (res : Int)
    (more : Bool) (idx : ℕ) (data : List UInt8) (ch : TcpChannel) :
  ch.writeSide c (kernel w.thread i u res more idx data) = ch.writeSide c w.thread
  := by
  obtain ⟨hring, hpool⟩ := kernel_spec w.thread i u res more idx data
  apply TcpChannel.writeSide_congr
  · rw [hring]
    apply IoRing.writevs_reap_of_ne more hsqe hne
  · rw [hring]
    apply IoRing.failed_reap
  · apply hpool

/-- Arming the accept again is not about the write sides. -/
theorem rearmAccept_spec {r r' : IoRing} {more : Bool} (h : rearmAccept r more = some r') :
  (∀ c, r'.writevs c = r.writevs c) ∧ r'.failed = r.failed ∧ r'.depth = r.depth
    ∧ r'.sq.length ≤ r.sq.length + 1
  := by
  rw [rearmAccept] at h
  split at h
  case isTrue =>
    cases h
    exact ⟨fun _ => rfl, rfl, rfl, Nat.le_succ _⟩
  case isFalse =>
    refine ⟨fun c => IoRing.writevs_prep_of_ne h nofun, ?_⟩
    rw [IoRing.prep_eq_some h]
    exact ⟨rfl, rfl, List.length_append.le⟩

/-- The ring after a completion of the accept, which was armed again. -/
theorem accept_spec {i : ℕ} {op : SqeOp} {more : Bool} {r r' : IoRing}
    (hsqe : r.inflight[i]? = some ⟨op, .accept⟩)
    (hrearm : rearmAccept (r.reap i more) more = some r') :
  (∀ c, r'.writevs c = r.writevs c) ∧ r'.failed = r.failed
  := by
  obtain ⟨hwritevs, hfailed, -⟩ := rearmAccept_spec hrearm
  constructor
  · intro c
    rw [hwritevs]
    apply IoRing.writevs_reap_of_ne more hsqe nofun
  · rw [hfailed]
    apply IoRing.failed_reap

/-- The label of a completion, by its SQE. -/
theorem writeLabel_read {i idx c : ℕ} {res : Int} {more : Bool} {data : List UInt8} {op : SqeOp}
    (hsqe : w.thread.ioRing.inflight[i]? = some ⟨op, .read c⟩) :
  w.writeLabel ok (.complete i res more idx data) = some (c, .quiet)
  := by
  simp only [writeLabel, hsqe]

theorem writeLabel_write {i idx c : ℕ} {res : Int} {more : Bool} {data : List UInt8} {op : SqeOp}
    (hsqe : w.thread.ioRing.inflight[i]? = some ⟨op, .write c⟩) :
  w.writeLabel ok (.complete i res more idx data)
    = some (c, if (w.channels c).writeCo.tokens = 1 then TcpChannel.writtenLabel res else .stale)
  := by
  simp only [writeLabel, hsqe]

theorem writeLabel_accept {i idx : ℕ} {res : Int} {more : Bool} {data : List UInt8} {op : SqeOp}
    (hsqe : w.thread.ioRing.inflight[i]? = some ⟨op, .accept⟩) :
  w.writeLabel ok (.complete i res more idx data)
    = if w.accepting = true ∧ 0 ≤ res then
        w.thread.channelPool.acquire.map (fun (c, _) => (c, .assign))
      else
        none
  := by
  simp only [writeLabel, hsqe]

/-- A completion that no coroutine waits for. -/
theorem writes_ignored {i idx : ℕ} {res : Int} {more : Bool} {data : List UInt8} {op : SqeOp}
    {u : UserData} (hctl : ∀ c, w.ctl ≠ .onWrite c)
    (hsqe : w.thread.ioRing.inflight[i]? = some ⟨op, u⟩) (hignores : w.Ignores u)
    (hdelivers : w.Delivers ⟨op, u⟩ res more idx data) :
  Writes w { w with thread := kernel w.thread i u res more idx data }
    (w.writeLabel ok (.complete i res more idx data))
  := by
  have hside : ∀ d, u ≠ .write d →
      writeSide { w with thread := kernel w.thread i u res more idx data } d = w.writeSide d := by
    intro d hd
    apply writeSide_kernel hsqe hd res more idx data _
  cases u with
  | wakeup =>
      simp only [writeLabel, hsqe]
      exact .none (.out_none hctl hctl) (fun d => hside d (by simp))
  | accept =>
      rw [writeLabel_accept hsqe, if_neg (fun h => Bool.false_ne_true (hignores.symm.trans h.1))]
      exact .none (.out_none hctl hctl) (fun d => hside d (by simp))
  | read c =>
      rw [writeLabel_read hsqe]
      refine .acts (.out hctl hctl nofun nofun) ?_ ?_
      · rw [hside c nofun]
        exact .quiet .refl
      · intro d _
        apply writeSide_eq_with (hside d nofun)
  | write c =>
      obtain ⟨rfl, -⟩ := hdelivers
      rw [writeLabel_write hsqe, WriteCo.tokens_of_ne hignores, if_neg Nat.zero_ne_one]
      refine .acts (.out hctl hctl nofun nofun) ?_ ?_
      · exact .stale hignores (IoRing.writevs_reap hsqe)
      · intro d hd
        apply writeSide_eq_with
        apply hside
        rw [Ne, UserData.write.injEq]
        apply hd.symm

/-- After the completion of a `writev` control is in `on_write` if data was written. -/
theorem onWrite_written {c : ℕ} {res : Int} (hctl : ∀ c, w.ctl ≠ .onWrite c)
    (hctl' : w'.ctl = if (0 < res : Bool) then .onWrite c else .batch) :
  OnWrite w w' (some (c, TcpChannel.writtenLabel res))
  := by
  rw [TcpChannel.writtenLabel]
  by_cases hres : 0 < res
  · have hpos : ¬ res ≤ 0 := by omega
    constructor
    · intro d
      simp [hctl', hres, hpos, hctl d]
    · simp [hpos]
  · have hneg : res ≤ 0 := by omega
    constructor
    · intro d
      simp [hctl', hres, hneg, hctl d]
    · simp [hneg]

/-! ### Every step -/

/-- A completion of the accept that assigns no channel. -/
theorem writes_exhausted {i idx : ℕ} {res : Int} {more : Bool} {data : List UInt8} {op : SqeOp}
    {ioRing : IoRing} (hctl : w.ctl = .batch)
    (hsqe : w.thread.ioRing.inflight[i]? = some ⟨op, .accept⟩)
    (hrearm : rearmAccept (w.thread.ioRing.reap i more) more = some ioRing)
    (hacquire : w.thread.channelPool.acquire = none) :
  Writes w { w with thread := { w.thread with ioRing := ioRing } }
    (w.writeLabel ok (.complete i res more idx data))
  := by
  rw [writeLabel_accept hsqe, hacquire, Option.map_none, ite_self]
  obtain ⟨hwritevs, hfailed⟩ := accept_spec hsqe hrearm
  have hout := ctl_ne hctl (by simp)
  refine .none (.out_none hout hout) ?_
  intro d
  exact TcpChannel.writeSide_congr (hwritevs d) hfailed rfl

/-- A completion of the accept that assigns the channel `c`. -/
theorem writes_accepted {i idx c : ℕ} {res : Int} {more : Bool} {data : List UInt8} {op : SqeOp}
    {ioRing : IoRing} {pool : TcpChannelPool} {ch : TcpChannel} {th : TcpThread}
    (hctl : w.ctl = .batch) (hsqe : w.thread.ioRing.inflight[i]? = some ⟨op, .accept⟩)
    (haccepting : w.accepting = true) (hres : 0 ≤ res)
    (hrearm : rearmAccept (w.thread.ioRing.reap i more) more = some ioRing)
    (hacquire : w.thread.channelPool.acquire = some (c, pool))
    (hassign : (w.channels c).assign c { w.thread with ioRing := ioRing, channelPool := pool } res
      = some (ch, th)) :
  Writes w { w.update c ch th with ctl := .onAccept c }
    (w.writeLabel ok (.complete i res more idx data))
  := by
  rw [writeLabel_accept hsqe, hacquire, if_pos ⟨haccepting, hres⟩, Option.map_some]
  obtain ⟨hwritevs, hfailed⟩ := accept_spec hsqe hrearm
  have hside : (w.channels c).writeSide c
      { w.thread with ioRing := ioRing, channelPool := pool } = w.writeSide c :=
    TcpChannel.writeSide_congr (hwritevs c) hfailed rfl
  obtain ⟨hstep, hextends⟩ := TcpChannel.assign_step hassign
  rw [hside] at hstep
  apply writes_update _ (fun d _ => hwritevs d) hextends hstep
  apply OnWrite.out (ctl_ne hctl (by simp)) <;> simp

/-- A completion of the `recv` of the channel `c`. -/
theorem writes_received {i idx c : ℕ} {res : Int} {more callback : Bool} {data : List UInt8}
    {op : SqeOp} {ch : TcpChannel} {th : TcpThread} (hctl : w.ctl = .batch)
    (hsqe : w.thread.ioRing.inflight[i]? = some ⟨op, .read c⟩)
    (hresume : (w.channels c).resumeRead c (kernel w.thread i (.read c) res more idx data) res
      more idx = some (ch, th, callback)) :
  Writes w { w.update c ch th with ctl := if callback then .onClose c else .batch }
    (w.writeLabel ok (.complete i res more idx data))
  := by
  rw [writeLabel_read hsqe]
  obtain ⟨hstirs, hextends⟩ := TcpChannel.resumeRead_stirs hresume
  have hside : ∀ d (ch : TcpChannel),
      ch.writeSide d (kernel w.thread i (.read c) res more idx data) = ch.writeSide d w.thread := by
    intro d ch
    apply writeSide_kernel hsqe (by simp) res more idx data ch
  rw [hside] at hstirs
  apply writes_update _ _ hextends (.quiet hstirs)
  · cases callback <;> apply OnWrite.out (ctl_ne hctl (by simp)) <;> simp
  · intro d _
    apply congrArg WriteSide.writevs (hside d (w.channels d))

/-- The last completion of the `writev` of the channel `c`. -/
theorem writes_written {i idx c submittedBytes : ℕ} {res : Int} {callback : Bool}
    {data : List UInt8} {op : SqeOp} {ch : TcpChannel} {th : TcpThread} (hctl : w.ctl = .batch)
    (hsqe : w.thread.ioRing.inflight[i]? = some ⟨op, .write c⟩)
    (hwrite : (w.channels c).writeCo = .onToken submittedBytes)
    (hresume : (w.channels c).resumeWrite c
      { w.thread with ioRing := w.thread.ioRing.reap i false } submittedBytes res
        = some (ch, th, callback)) :
  Writes w { w.update c ch th with ctl := if callback then .onWrite c else .batch }
    (w.writeLabel ok (.complete i res false idx data))
  := by
  have htokens : (w.channels c).writeCo.tokens = 1 := by
    rw [hwrite]
    rfl
  have hwritevs : (w.writeSide c).writevs = op.nr ::ₘ (w.thread.ioRing.reap i false).writevs c :=
    IoRing.writevs_reap hsqe
  rw [writeLabel_write hsqe, if_pos htokens]
  obtain ⟨hstep, rfl⟩ := TcpChannel.resumeWrite_step hresume hwrite hwritevs rfl
  apply writes_update (onWrite_written (ctl_ne hctl (by simp)) rfl) _
    (TcpChannel.resumeWrite_extends hresume) hstep
  intro d hd
  apply IoRing.writevs_reap_of_ne false hsqe
  rw [Ne, UserData.write.injEq]
  apply hd.symm

/-- A step acts on the write sides as its label says. -/
theorem Steps.writes (h : Steps w e ok w') (hadmits : w.Admits e) :
  Writes w w' (w.writeLabel ok e)
  := by
  cases h with
  | submit hctl =>
      refine .none (.out_none (ctl_ne hctl (by simp)) (by simp)) ?_
      intro d
      rw [writeSide, TcpChannel.writeSide, IoRing.writevs_submit]
      rfl
  | ignored hctl hsqe hignores =>
      apply writes_ignored (ctl_ne hctl (by simp)) hsqe hignores (hadmits _ hsqe)
  | @refused i idx res more data op hctl hsqe hres =>
      rw [writeLabel_accept hsqe, if_neg (fun h => absurd h.2 (by omega))]
      have hout := ctl_ne hctl (by simp)
      refine .none (.out_none hout hout) ?_
      intro d
      apply writeSide_kernel hsqe (by simp) res more idx data _
  | exhausted hctl hsqe _ hrearm hacquire => apply writes_exhausted hctl hsqe hrearm hacquire
  | accepted hctl hsqe haccepting hres hrearm hacquire hassign =>
      apply writes_accepted hctl hsqe haccepting hres hrearm hacquire hassign
  | received hctl hsqe _ hresume => apply writes_received hctl hsqe hresume
  | written hctl hsqe hwrite hresume =>
      obtain ⟨rfl, -⟩ := hadmits _ hsqe
      apply writes_written hctl hsqe hwrite hresume
  | batchDone hctl => apply writes_serveReads (ctl_ne hctl (by simp)) _
  | onAcceptReturns hctl =>
      rw [writeLabel, hctl]
      exact .none (.out_none (ctl_ne hctl (by simp)) (by simp)) (fun _ => rfl)
  | onCloseReturns hctl hafter =>
      rw [writeLabel, hctl]
      obtain ⟨hstirs, hextends⟩ := TcpChannel.afterOnClose_stirs hafter
      apply writes_update _ (fun _ _ => rfl) hextends (.quiet hstirs)
      apply OnWrite.out (ctl_ne hctl (by simp)) <;> simp
  | @onWriteReturns c ch th hctl hafter =>
      rw [writeLabel, hctl]
      obtain ⟨hstep, hextends⟩ := TcpChannel.writeLoop_step hafter
      apply writes_update _ (fun _ _ => rfl) hextends hstep
      constructor
      · intro d
        simp [hctl]
      · rintro d ⟨⟩
        apply hctl
  | onReadReturns hctl =>
      rw [writeLabel, hctl]
      apply writes_serveReads (ctl_ne hctl (by simp)) _
  | call hcall =>
      obtain ⟨l, hlabel, hl, hstep, hextends⟩ := call_step (w := w) hcall
      rw [hlabel]
      apply writes_update (.of_call hl rfl) (fun _ _ => rfl) hextends hstep

/-! ### The start of a connection -/

/-- The event is a completion of the accept that starts a connection on the channel `c`. -/
def Assigns (w : Worker) (c : ℕ) : Event → Prop
  | .complete i res _ _ _ =>
      w.thread.ioRing.inflight[i]?.map Sqe.data = some .accept ∧ w.accepting = true ∧ 0 ≤ res
        ∧ w.thread.channelPool.acquire.map Prod.fst = some c
  | _ => False

instance (w : Worker) (c : ℕ) (e : Event) : Decidable (w.Assigns c e) :=
  match e with
  | .submit => inferInstanceAs (Decidable False)
  | .complete .. => inferInstanceAs (Decidable (_ ∧ _ ∧ _ ∧ _))
  | .batchDone => inferInstanceAs (Decidable False)
  | .ret => inferInstanceAs (Decidable False)
  | .app .. => inferInstanceAs (Decidable False)

theorem ctl_of_complete {i idx : ℕ} {res : Int} {more : Bool} {data : List UInt8}
    (hresult : w.stepResult (.complete i res more idx data) = some (ok, w')) :
  w.ctl = .batch
  := by
  rw [stepResult] at hresult
  split at hresult
  case isTrue hctl => apply hctl
  case isFalse => cases hresult

/-- Connections start while the completions of a batch are handled. -/
theorem ctl_of_assigns {c : ℕ} (h : w.Assigns c e) (hresult : w.stepResult e = some (ok, w')) :
  w.ctl = .batch
  := by
  cases e with
  | complete i res more idx data => apply ctl_of_complete hresult
  | _ => cases h

theorem writeLabel_of_assigns {c : ℕ} (h : w.Assigns c e) (ok : Bool) :
  w.writeLabel ok e = some (c, .assign)
  := by
  cases e with
  | complete i res more idx data =>
      obtain ⟨hdata, haccepting, hres, hacquire⟩ := h
      obtain ⟨⟨op, u⟩, hsqe, rfl⟩ := Option.map_eq_some_iff.mp hdata
      obtain ⟨⟨d, pool⟩, hacquired, rfl⟩ := Option.map_eq_some_iff.mp hacquire
      rw [writeLabel_accept hsqe, if_pos ⟨haccepting, hres⟩, hacquired]
      rfl
  | _ => cases h

/-! ### Events by their labels -/

/-- The events that act on the write side of the channel `c` with a given label. -/
inductive Labels (w : Worker) (ok : Bool) (c : ℕ) : Event → WriteLabel → Prop where
  | assign {e : Event} (h : w.Assigns c e) : Labels w ok c e .assign
  | received {i idx : ℕ} {res : Int} {more : Bool} {data : List UInt8} {op : SqeOp}
      (hsqe : w.thread.ioRing.inflight[i]? = some ⟨op, .read c⟩) :
      Labels w ok c (.complete i res more idx data) .quiet
  | written {i idx : ℕ} {res : Int} {more : Bool} {data : List UInt8} {op : SqeOp}
      (hsqe : w.thread.ioRing.inflight[i]? = some ⟨op, .write c⟩) (hres : 0 < res) :
      Labels w ok c (.complete i res more idx data) (.written res.toNat)
  | failed {i idx : ℕ} {res : Int} {more : Bool} {data : List UInt8} {op : SqeOp}
      (hsqe : w.thread.ioRing.inflight[i]? = some ⟨op, .write c⟩) :
      Labels w ok c (.complete i res more idx data) .failed
  | stale {i idx : ℕ} {res : Int} {more : Bool} {data : List UInt8} {op : SqeOp}
      (hsqe : w.thread.ioRing.inflight[i]? = some ⟨op, .write c⟩) :
      Labels w ok c (.complete i res more idx data) .stale
  | onCloseReturns (hctl : w.ctl = .onClose c) : Labels w ok c .ret .quiet
  | onWriteReturns (hctl : w.ctl = .onWrite c) : Labels w ok c .ret .returned
  | append {data : List UInt8} : Labels w ok c (.app c (.append data)) (.append data ok)
  | prepend {data : List UInt8} : Labels w ok c (.app c (.prepend data)) (.prepend data ok)
  | submit (hok : ok = true) : Labels w ok c (.app c .submit) .submit
  | call {op : AppOp} : Labels w ok c (.app c op) .quiet

theorem labels_of_writeLabel {c : ℕ} {l : WriteLabel} (h : w.writeLabel ok e = some (c, l)) :
  Labels w ok c e l
  := by
  cases e with
  | submit => cases h
  | batchDone => cases h
  | ret =>
      rw [writeLabel] at h
      split at h
      case h_1 hctl =>
        cases h
        exact .onCloseReturns hctl
      case h_2 hctl =>
        cases h
        exact .onWriteReturns hctl
      case h_3 => cases h
  | app d op =>
      cases op with
      | append => cases h; exact .append
      | prepend => cases h; exact .prepend
      | submit =>
          obtain ⟨rfl, rfl⟩ := Prod.mk.inj (Option.some.inj h)
          cases hok : ok with
          | true => exact .submit rfl
          | false => exact .call
      | _ => cases h; exact .call
  | complete i res more idx data =>
      rw [writeLabel] at h
      split at h
      case h_1 op hsqe =>
        split at h
        case isTrue hif =>
          obtain ⟨⟨d, pool⟩, hacquire, heq⟩ := Option.map_eq_some_iff.mp h
          cases heq
          exact .assign ⟨congrArg (Option.map Sqe.data) hsqe, hif.1, hif.2,
            congrArg (Option.map Prod.fst) hacquire⟩
        case isFalse => cases h
      case h_2 hsqe =>
        cases h
        exact .received hsqe
      case h_3 hsqe =>
        obtain ⟨rfl, rfl⟩ := Prod.mk.inj (Option.some.inj h)
        rw [TcpChannel.writtenLabel]
        split
        · split
          · exact .failed hsqe
          · exact .written hsqe (by omega)
        · exact .stale hsqe
      case h_4 => cases h

theorem assigns_of_writeLabel {c : ℕ} (h : w.writeLabel ok e = some (c, .assign)) :
  w.Assigns c e
  := by
  cases labels_of_writeLabel h with
  | assign hassigns => apply hassigns

/-! ### Room in the submission queue -/

/-- The number of SQEs an event may prepare. -/
def demand : Event → ℕ
  | .complete .. => 3
  | .ret => 1
  | .app .. => 1
  | _ => 0

/-- The submission queue has room for the SQEs the event may prepare. -/
def Roomy (w : Worker) (e : Event) : Prop :=
  w.thread.ioRing.sq.length + demand e ≤ w.thread.ioRing.depth

instance (w : Worker) (e : Event) : Decidable (w.Roomy e) :=
  inferInstanceAs (Decidable (_ ≤ _))

theorem ioRing_serveReads (rest : List ℕ) :
  (w.serveReads rest).thread.ioRing = w.thread.ioRing
  := by
  cases rest <;> rfl

/-- With room in the submission queue, `io_uring_get_sqe` does not fail. -/
theorem Steps.failed_eq (h : Steps w e ok w') (hroomy : w.Roomy e)
    (hfailed : w.thread.ioRing.failed = false) :
  w'.thread.ioRing.failed = false
  := by
  have hreap : ∀ i more, (w.thread.ioRing.reap i more).failed = false :=
    fun i more => IoRing.failed_reap.trans hfailed
  have hroom : ∀ i more, w.thread.ioRing.sq.length + 3 ≤ w.thread.ioRing.depth →
      (w.thread.ioRing.reap i more).sq.length + 3 ≤ (w.thread.ioRing.reap i more).depth := by
    intro i more hle
    rw [IoRing.sq_reap.1, IoRing.sq_reap.2]
    apply hle
  cases h with
  | submit => apply hfailed
  | ignored => apply (congrArg IoRing.failed (kernel_spec ..).1).trans (hreap _ _)
  | refused => apply hreap _ _
  | exhausted _ _ _ hrearm => apply (rearmAccept_spec hrearm).2.1.trans (hreap _ _)
  | @accepted i _ _ _ more _ _ ioRing _ _ _ _ _ _ _ hrearm _ hassign =>
      obtain ⟨-, hfailed', hdepth, hlength⟩ := rearmAccept_spec hrearm
      apply (TcpChannel.assign_step hassign).2.failed_eq (hfailed'.trans (hreap _ _))
      have hle := hroom i more hroomy
      change ioRing.sq.length + 2 ≤ ioRing.depth
      omega
  | @received i idx c res more _ data _ _ _ _ _ _ hresume =>
      obtain ⟨hring, -⟩ := kernel_spec w.thread i (.read c) res more idx data
      apply (TcpChannel.resumeRead_stirs hresume).2.failed_eq
      · rw [hring]
        apply hreap i more
      · rw [hring]
        have hle := hroom i more hroomy
        omega
  | @written i _ _ _ _ more _ _ _ _ _ _ _ _ hresume =>
      apply (TcpChannel.resumeWrite_extends hresume).failed_eq (hreap i more)
      have hle := hroom i more hroomy
      change (w.thread.ioRing.reap i more).sq.length + 1 ≤ (w.thread.ioRing.reap i more).depth
      omega
  | batchDone =>
      rw [ioRing_serveReads]
      apply hfailed
  | onAcceptReturns => apply hfailed
  | onCloseReturns _ hafter =>
      apply (TcpChannel.afterOnClose_stirs hafter).2.failed_eq hfailed hroomy
  | onWriteReturns _ hafter => apply (TcpChannel.writeLoop_step hafter).2.failed_eq hfailed hroomy
  | onReadReturns =>
      rw [ioRing_serveReads]
      apply hfailed
  | call hcall =>
      obtain ⟨-, -, -, -, hextends⟩ := call_step (w := w) hcall
      apply hextends.failed_eq hfailed hroomy

end Worker

end Proactor
