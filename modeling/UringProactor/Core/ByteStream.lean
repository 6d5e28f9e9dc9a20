import UringProactor.Core.Release
import UringProactor.Core.WriteStreams
import UringProactor.Prelude.Monitor

/-!
# The write path is an ordered byte stream

A monitor records what the application builds and submits on each channel since its last
assignment, and the bytes the kernel acknowledges.  The bytes that are acknowledged, followed by
those in the send queue, are the bytes that were submitted.
-/

namespace Proactor

/-- What a monitor records of the connection on a channel: whether the write buffer was empty
when it was assigned, the bytes that were accepted and not submitted, the bytes that were
submitted, and the bytes that were acknowledged. -/
structure StreamRecord where
  tracked : Bool := false
  built : List UInt8 := []
  submitted : List UInt8 := []
  acked : List UInt8 := []

/-- The record of a channel after an event on its write side `s`; `taken` is what `prepend` takes
of its data, and `covered` what the completed `writev` covers. -/
def StreamRecord.next (taken : List UInt8 → List UInt8) (covered : List UInt8) (s : WriteSide)
    (g : StreamRecord) : WriteLabel → StreamRecord
  | .append data true => { g with built := g.built ++ data }
  | .prepend data true => { g with built := taken data ++ g.built }
  | .submit => { g with built := [], submitted := g.submitted ++ g.built }
  | .written bytes => { g with acked := g.acked ++ covered.take bytes }
  | .assign => { tracked := s.buf.pendingList = [] ∧ s.buf.sendList = [] }
  | _ => g

namespace StreamRecord

open WriteSide

variable {g : StreamRecord} {s s' : WriteSide} {l : WriteLabel}

/-- The record describes the bytes on the write side. -/
structure Describes (g : StreamRecord) (s : WriteSide) : Prop where
  built : s.built = g.built
  unsent : g.acked ++ s.unsent = g.submitted

theorem tracked_next {taken : List UInt8 → List UInt8} {covered : List UInt8}
    (hl : l ≠ .assign) :
  (g.next taken covered s l).tracked = g.tracked
  := by
  cases l with
  | append _ ok => cases ok <;> rfl
  | prepend _ ok => cases ok <;> rfl
  | assign => cases hl rfl
  | _ => rfl

/-- The record goes on to describe the bytes, if a completion acknowledges the first of the
unsent bytes. -/
theorem Describes.next {taken : List UInt8 → List UInt8} {covered : List UInt8}
    (h : l ≠ .assign → g.Describes s) (hflows : Flows s s' l)
    (htaken : ∀ data, l = .prepend data true → taken data = WriteBufBase.taken s.pool data)
    (hcovered : ∀ bytes, l = .written bytes → covered.take bytes = s.unsent.take bytes)
    (htracked : (g.next taken covered s l).tracked = true) :
  (g.next taken covered s l).Describes s'
  := by
  cases l with
  | append data ok =>
      obtain ⟨hbuilt, hunsent⟩ := h (by simp)
      cases ok with
      | true =>
          constructor
          · rw [hflows.1, hbuilt]
            rfl
          · rw [hflows.2]
            exact hunsent
      | false => exact ⟨hflows.1.trans hbuilt, hflows.2 ▸ hunsent⟩
  | prepend data ok =>
      obtain ⟨hbuilt, hunsent⟩ := h (by simp)
      cases ok with
      | true =>
          constructor
          · rw [hflows.1, hbuilt, ← htaken data rfl]
            rfl
          · rw [hflows.2]
            exact hunsent
      | false => exact ⟨hflows.1.trans hbuilt, hflows.2 ▸ hunsent⟩
  | submit =>
      obtain ⟨hbuilt, hunsent⟩ := h (by simp)
      constructor
      · exact hflows.1
      · rw [hflows.2, ← List.append_assoc]
        change (g.acked ++ s.unsent) ++ s.built = g.submitted ++ g.built
        rw [hunsent, hbuilt]
  | written bytes =>
      obtain ⟨hbuilt, hunsent⟩ := h (by simp)
      constructor
      · exact hflows.1.trans hbuilt
      · change (g.acked ++ covered.take bytes) ++ s'.unsent = g.submitted
        rw [hflows.2, hcovered bytes rfl, List.append_assoc, List.take_append_drop, hunsent]
  | assign =>
      obtain ⟨hpending, hsend⟩ := of_decide_eq_true htracked
      constructor
      · rw [hflows.1, WriteSide.built, hpending]
        rfl
      · rw [hflows.2, WriteSide.unsent, WriteBufStream.unsent, hsend]
        exact List.drop_nil
  | _ =>
      obtain ⟨hbuilt, hunsent⟩ := h (by simp)
      exact ⟨hflows.1.trans hbuilt, hflows.2 ▸ hunsent⟩

end StreamRecord

namespace Worker

open WriteSide

variable {w w' : Worker} {e : Event} {ok : Bool} {c : ℕ}

/-- The bytes that the iovecs of an SQE cover. -/
def covered (w : Worker) (sqe : Sqe) : List UInt8 :=
  match sqe.data with
  | .write c => (w.writeSide c).covered sqe.op.nr
  | _ => []

/-- The bytes that the iovecs of the SQE cover that an event completes. -/
def completed (w : Worker) : Event → List UInt8
  | .complete i _ _ _ _ => (w.thread.ioRing.inflight[i]?.map w.covered).getD []
  | _ => []

/-- A completion acknowledges the first of the unsent bytes. -/
theorem Posts.completed_take (h : Posts w) (hc : c < w.size) (hadmits : w.Admits e) {bytes : ℕ}
    (hlabel : w.writeLabel ok e = some (c, .written bytes)) :
  (w.completed e).take bytes = (w.writeSide c).unsent.take bytes
  := by
  cases labels_of_writeLabel hlabel with
  | @written i _ res _ _ op hsqe hres =>
      obtain ⟨-, hle⟩ := hadmits _ hsqe
      have hmem : op.nr ∈ (w.writeSide c).writevs :=
        IoRing.mem_writevs (List.mem_append_right _ (List.mem_of_getElem? hsqe)) rfl
      obtain ⟨_, -, hcovers⟩ := (h.posted c hc).onToken hmem
      rw [completed, hsqe]
      change ((w.writeSide c).covered op.nr).take _ = _
      rw [WriteSide.covered, hcovers.gather_eq (h.sound hc), List.take_take, Nat.min_eq_left]
      · rfl
      · change res ≤ (((w.writeSide c).buf.iovec.take op.nr).map IoVec.len).sum at hle
        omega

/-! ### The monitored worker -/

/-- A worker with the records of its channels. -/
abbrev Streaming := Monitored Worker (ℕ → StreamRecord)

namespace Streaming

/-- The records after an event. -/
def observe (taken : BufPool → List UInt8 → List UInt8) (w : Worker) (g : ℕ → StreamRecord)
    (e : Event) (ok : Bool) (_ : Worker) : ℕ → StreamRecord :=
  fun d => (g d).next (taken w.thread.bufPool) (w.completed e) (w.writeSide d)
    (labelAt (w.writeLabel ok e) d)

/-- A step of the worker and its monitor. -/
def step (taken : BufPool → List UInt8 → List UInt8) (m : Streaming) (e : Event) :
    Option Streaming :=
  Monitored.step stepResult (observe taken) m e

/-- No connection has been assigned. -/
def start (w : Worker) : Streaming := ⟨w, fun _ => {}⟩

/-- The worker is safe, its write coroutines wait for what they have posted, and the records
describe the bytes on the write sides that were empty when they were assigned. -/
structure Inv (m : Streaming) : Prop where
  safe : Worker.Inv Conn.Safe m.state
  posts : Posts m.state
  addressable : m.state.thread.bufPool.Addressable
  describes : ∀ d < m.state.size, (m.record d).tracked = true → (m.state.writeSide d).Lasting →
    (m.record d).Describes (m.state.writeSide d)

variable {taken : BufPool → List UInt8 → List UInt8} {m m' : Streaming}

/-- The monitor records of the data of a `prepend` what it takes. -/
def Takes (taken : BufPool → List UInt8 → List UInt8) (w : Worker) (e : Event) : Prop :=
  ∀ c data, e = .app c (.prepend data) →
    taken w.thread.bufPool data = WriteBufBase.taken w.thread.bufPool data

/-- A settled step keeps the invariant. -/
theorem Inv.step (h : m.Inv) (hadmits : m.state.Admits e) (hsettled : m.state.Meets Conn.Settled e)
    (htakes : Takes taken m.state e) (hstep : m.step taken e = some m') :
  m'.Inv
  := by
  obtain ⟨ok, hresult, hrecord⟩ := Monitored.step_eq_some hstep
  have hstate : m.state.step e = some m'.state := congrArg (Option.map Prod.snd) hresult
  have hsize := h.safe.size_step (fun _ hk => hk) hadmits hstate
  obtain ⟨hposts, hstreams⟩ := h.posts.step h.safe hadmits hresult
  constructor
  · apply h.safe.step (fun _ hk => hk) _ hadmits hsettled hstate
    intro k k' a hk hok hstep
    apply hk.step hok hstep
  · apply hposts
  · apply hstreams.addressable h.addressable
  · intro d hd htracked hlasting
    rw [hsize] at hd
    rw [hrecord] at htracked ⊢
    apply StreamRecord.Describes.next _ (hstreams.flows h.addressable d hd hlasting) _ _ htracked
    · intro hne
      rw [observe, StreamRecord.tracked_next hne] at htracked
      apply h.describes d hd htracked (hstreams.lasting d hd hne hlasting)
    · intro data hlabel
      cases labels_of_writeLabel (eq_some_of_labelAt hlabel nofun) with
      | prepend => exact htakes d data rfl
    · intro bytes hlabel
      apply h.posts.completed_take hd hadmits (eq_some_of_labelAt hlabel nofun)

/-- At the start no write side has bytes. -/
theorem inv_start (depth : ℕ) (bufRing : BufRing) (poolBits capBits : Fin 31) {bits bufSize : ℕ}
    {hbits : bits ≤ 30} {hpos : 0 < bufSize} {hlt : bufSize < 2 ^ 31} {pool : BufPool}
    (hpool : BufPool.new bits bufSize hbits hpos hlt = some pool)
    (hsmall : 2 ^ bits * bufSize < 2 ^ 31) :
  (start (Worker.start depth bufRing pool poolBits capBits)).Inv
  := by
  constructor
  · apply start_inv
    constructor <;> decide
  · apply posts_start depth bufRing poolBits capBits hpool
  · apply BufPool.addressable_of_new hpool hsmall
  · nofun

end Streaming

/-- What callers of `prepend` promise of the size of the data. -/
def Fits (w : Worker) : Event → Prop
  | .app _ (.prepend data) => data.length + w.thread.bufPool.bufSize - 1 < 2 ^ 32
  | _ => True

instance (w : Worker) (e : Event) : Decidable (w.Fits e) :=
  match e with
  | .app _ (.prepend _) => inferInstanceAs (Decidable (_ < _))
  | .app _ (.append _) | .app _ .submit | .app _ (.peek _) | .app _ (.consume _) | .app _ .close
  | .submit | .complete .. | .batchDone | .ret => inferInstanceAs (Decidable True)

/-- No event changes what the iovecs of an outstanding SQE cover. -/
theorem Posts.covered_step (h : Posts w) (hinv : Inv Conn.Safe w)
    (ha : w.thread.bufPool.Addressable) (hadmits : w.Admits e) (hstep : w.step e = some w')
    {sqe : Sqe} (hmem : sqe ∈ w.thread.ioRing.sq ++ w.thread.ioRing.inflight)
    (hmem' : sqe ∈ w'.thread.ioRing.sq ++ w'.thread.ioRing.inflight) :
  w'.covered sqe = w.covered sqe
  := by
  obtain ⟨⟨ok, w₁⟩, hresult, rfl⟩ := Option.map_eq_some_iff.mp hstep
  obtain ⟨-, hstreams⟩ := h.step hinv hadmits hresult
  rw [covered, covered]
  split
  case h_1 c hdata =>
    apply hstreams.covered ha c (hinv.lt_size_of_mem hmem hdata) _ (IoRing.mem_writevs hmem hdata)
      (IoRing.mem_writevs hmem' hdata)
  case h_2 => rfl

section

variable (depth : ℕ) (bufRing : BufRing) (poolBits capBits : Fin 31) {bits bufSize : ℕ}
  {hbits : bits ≤ 30} {hpos : 0 < bufSize} {hlt : bufSize < 2 ^ 31} {pool : BufPool}

/-- The write path refines an ordered byte stream.  On every channel that is open, and whose write
buffer was empty when it was assigned, at most one `writev` is outstanding, the pending content is
what the application has built, and the acknowledged bytes followed by those in the send queue are
the submitted bytes.  No event changes the bytes that the iovecs of an outstanding SQE cover. -/
theorem ordered_byte_stream (hpool : BufPool.new bits bufSize hbits hpos hlt = some pool)
    (hsmall : 2 ^ bits * bufSize < 2 ^ 31) {m : Streaming}
    (h : Reaches (Streaming.step (fun _ data => data))
      (fun m e => m.state.Runs Conn.Settled e ∧ m.state.Fits e)
      (Streaming.start (start depth bufRing pool poolBits capBits)) m) :
  (∀ c < m.state.size, (m.record c).tracked = true → (m.state.channels c).isClosing = false →
      m.state.thread.ioRing.outstanding (.write c) ≤ 1
        ∧ m.state.thread.bufPool.content (m.state.channels c).writeBuf.pendingList
          = (m.record c).built
        ∧ (m.record c).acked ++ (m.state.channels c).writeBuf.unsent m.state.thread.bufPool
          = (m.record c).submitted)
    ∧ ∀ e w', m.state.Admits e → m.state.step e = some w' →
      ∀ sqe ∈ m.state.thread.ioRing.sq ++ m.state.thread.ioRing.inflight,
        sqe ∈ w'.thread.ioRing.sq ++ w'.thread.ioRing.inflight →
          w'.covered sqe = m.state.covered sqe
  := by
  have hinv : m.Inv := by
    apply h.invariant (Streaming.inv_start depth bufRing poolBits capBits hpool hsmall)
    rintro m m' e hinv ⟨⟨hadmits, hsettled⟩, hfits⟩ hstep
    apply hinv.step hadmits hsettled _ hstep
    rintro c data rfl
    symm
    apply WriteBufBase.taken_eq_self hfits
  constructor
  · intro c hc htracked hopen
    obtain ⟨hbuilt, hunsent⟩ := hinv.describes c hc htracked (fun _ => hopen)
    refine ⟨?_, hbuilt, hunsent⟩
    rw [show m.state.thread.ioRing.outstanding (.write c) = _ from
      (hinv.safe.holds c hc).writes_eq]
    apply WriteCo.tokens_le
  · intro e w' hadmits hstep sqe hmem hmem'
    apply hinv.posts.covered_step hinv.safe hinv.addressable hadmits hstep hmem hmem'

end

/-- Two connections share four blocks of two bytes.  The first sends a prepended byte and three
appended ones, of which two are acknowledged; the second builds one byte. -/
theorem ordered_byte_stream_two_channels :
  ∃ pool m, BufPool.new 2 2 (by decide) (by decide) (by decide) = some pool
    ∧ Reaches (Streaming.step (fun _ data => data))
      (fun m e => m.state.Runs Conn.Settled e ∧ m.state.Fits e)
      (Streaming.start (start 8 (BufRing.new 0 1 (by decide) (by decide)) pool 1 2)) m
    ∧ (m.record 0).acked = [7, 1] ∧ (m.record 0).submitted = [7, 1, 2, 3]
    ∧ (m.record 0).acked ++ (m.state.channels 0).writeBuf.unsent m.state.thread.bufPool
      = (m.record 0).submitted
  := by
  have hrun : (BufPool.new 2 2 (by decide) (by decide) (by decide)).bind (fun pool =>
      (Reaches.follow (Streaming.step (fun _ data => data))
        (fun m e => m.state.Runs Conn.Settled e ∧ m.state.Fits e)
        [.submit, .complete 0 5 true 0 [], .app 0 (.append [1, 2, 3]), .app 0 (.prepend [7]),
          .app 0 .submit, .ret, .complete 0 6 true 0 [], .app 1 (.append [9]), .ret, .batchDone,
          .submit, .complete 3 2 false 0 []]
        (Streaming.start (start 8 (BufRing.new 0 1 (by decide) (by decide)) pool 1 2))).map
          (fun m => (m.state.size, (m.record 0).tracked, (m.state.channels 0).isClosing,
            (m.record 0).acked, (m.record 0).submitted)))
      = some (2, true, false, [7, 1], [7, 1, 2, 3]) := by
    decide +kernel
  obtain ⟨pool, hpool, hfollow⟩ := Option.bind_eq_some_iff.mp hrun
  obtain ⟨m, hreach, hfinal⟩ := Reaches.of_follow _ hfollow
  obtain ⟨hsize, htracked, hopen, hacked, hsubmitted⟩ := by
    simpa only [Prod.mk.injEq] using hfinal
  have h := (ordered_byte_stream 8 _ 1 2 hpool (by decide) hreach).1 0 (by omega) htracked hopen
  exact ⟨pool, m, hpool, hreach, hacked, hsubmitted, h.2.2⟩

end Worker

end Proactor
