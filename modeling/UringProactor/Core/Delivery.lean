import UringProactor.Buffer.ReadSystem
import UringProactor.Core.ReadSteps
import UringProactor.Prelude.Monitor

/-!
# Received data is offered to the application

A monitor records, for every channel, the buffers that `tcp_read_loop` has pushed and that were
not yet in the read buffer during a call of `on_read`.  A channel with such a buffer is in
`pending_reads_`, so `on_read` is called on it before the next submit, unless the read buffer is
reset or consumed before.  That happens when the stream ends in the batch in which data arrived.
-/

namespace Proactor

namespace ReadSide

variable {c : ℕ} {s s' : ReadSide} {l : ReadLabel}

/-- The buffer that `tcp_read_loop` pushes. -/
def pushed (s : ReadSide) (l : ReadLabel) (s' : ReadSide) : Option ℕ :=
  match l with
  | .recv res idx _ =>
      if s.co = .awaiting ∧ 0 < res ∧ s'.co = .awaiting then some idx else none
  | _ => none

/-- What the kernel promises of a completion of a `recv`. -/
def Promised (s : ReadSide) (l : ReadLabel) : Prop :=
  ∀ res idx data, l = .recv res idx data → 0 < res →
    idx ∈ s.ring.ring ∧ data.length = res.toNat ∧ data.length ≤ s.ring.bufSize

/-- The labels with which the read buffer keeps what it holds. -/
def Keeps (l : ReadLabel) : Prop := l ≠ .closed ∧ l ≠ .consume

/-- What a step does with the ring and the read buffer of the channel. -/
structure Exchanges (q : ℕ → ReadBufStream) (c : ℕ) (s : ReadSide) (l : ReadLabel)
    (s' : ReadSide) : Prop where
  apart : ReadsApart s'.ring (Function.update q c s'.buf)
  queueList : Keeps l → s'.buf.queueList = s.buf.queueList ++ (pushed s l s').toList

variable {q : ℕ → ReadBufStream}

/-- The ring and the read buffer are as before. -/
theorem Exchanges.of_eq (h : ReadsApart s.ring q) (hq : q c = s.buf) (hbuf : s'.buf = s.buf)
    (hring : s'.ring = s.ring) (hpushed : pushed s l s' = none) :
  Exchanges q c s l s'
  := by
  constructor
  · rw [hring, hbuf, ← hq, Function.update_eq_self]
    exact h
  · intro _
    rw [hbuf, hpushed]
    exact (List.append_nil _).symm

/-- A buffer that the kernel took from the ring is not pushed. -/
theorem Exchanges.of_filled (h : ReadsApart s.ring q) (hq : q c = s.buf) {res : Int} {idx : ℕ}
    {data : List UInt8} (hbuf : s'.buf = s.buf) (hring : s'.ring = (s.filled res idx data).ring)
    (hpushed : pushed s l s' = none) :
  Exchanges q c s l s'
  := by
  rw [filled] at hring
  split at hring
  case isTrue =>
    constructor
    · rw [hring, hbuf, ← hq, Function.update_eq_self]
      exact h.fill idx data
    · intro _
      rw [hbuf, hpushed]
      exact (List.append_nil _).symm
  case isFalse => exact .of_eq h hq hbuf hring hpushed

/-- A pass of `tcp_read_loop`. -/
theorem Receives.exchanges {res : Int} {idx : ℕ} {data : List UInt8} (h : ReadsApart s.ring q)
    (hq : q c = s.buf) (hpromised : Promised s (.recv res idx data)) (hco : s.co = .awaiting)
    (hreceives : Receives c (s.filled res idx data) res idx s') :
  Exchanges q c s (.recv res idx data) s'
  := by
  have hfilled : (s.filled res idx data).buf = s.buf := by
    rw [filled_eq_with]
  cases hreceives with
  | @received s₁ hres hrests =>
      obtain ⟨hidx, hlength, hfit⟩ := hpromised res idx data rfl hres
      have hring : s₁.ring = s.ring.fill idx data := by
        rw [hrests.ring, filled, if_pos hres]
      have hbuf : s₁.buf = s.buf := hrests.buf.trans hfilled
      have hsound : s.buf.Sound s.ring := hq ▸ h.sound c
      obtain ⟨b, hpush, -, -, -, he, hs, -⟩ := hsound.receive hidx (by omega) hfit
      obtain ⟨b', hpush', -, -, -, hqueue, -⟩ := hsound.toReads.toSound.pushBuf_eq hidx
        ((s.ring.fill idx data).setDataSize idx data.length)
      rw [hpush] at hpush'
      cases hpush'
      rw [hlength] at hpush he hs
      have hqueued : s₁.queued c idx res.toNat = { s₁.queued c idx res.toNat with
          buf := { s.buf with toReadBufBase := b }
          ring := (s.ring.fill idx data).setDataSize idx res.toNat } := by
        rw [queued, hbuf, hring, hpush]
      have hpushed : pushed s (.recv res idx data) (s₁.queued c idx res.toNat) = some idx :=
        if_pos ⟨hco, hres, rfl⟩
      constructor
      · rw [hqueued]
        rw [← hq] at he
        exact h.update he hs
      · intro _
        rw [hpushed, hqueued]
        exact hqueue
  | ended hres hrests =>
      apply Exchanges.of_filled h hq (hrests.buf.trans hfilled) hrests.ring
      exact if_neg (fun hif => absurd hif.2.1 (by omega))
  | threw hres hrests =>
      apply Exchanges.of_filled h hq
      · exact hrests.buf.trans hfilled
      · exact hrests.ring
      · exact if_neg (fun hif => absurd hif.2.2 (by simp))

/-- Every step exchanges buffers with the ring. -/
theorem Step.exchanges (h : ReadsApart s.ring q) (hq : q c = s.buf) (hpromised : Promised s l)
    (hstep : Step c s l s') :
  Exchanges q c s l s'
  := by
  cases hstep with
  | quiet hrests => exact .of_eq h hq hrests.buf hrests.ring rfl
  | assign _ _ _ _ hrests => exact .of_eq h hq hrests.buf hrests.ring rfl
  | @stale res idx data hco =>
      apply Exchanges.of_filled h hq _ rfl
      · exact if_neg (fun hif => hco hif.1)
      · rw [filled_eq_with]
  | recv hco hreceives => exact hreceives.exchanges h hq hpromised hco
  | @closed s₁ buf ring hrests hclosing hreset =>
      have hsound : s.buf.Sound s.ring := hq ▸ h.sound c
      obtain ⟨b, r, hrun, -, hqueue, hreleased, hs⟩ := ReadBufStream.reset_spec hsound
      rw [hrests.buf, hrests.ring, hrun] at hreset
      cases hreset
      constructor
      · apply h.update _ hs
        apply RingExchange.of_released hreleased _ hsound.size_le
        rw [hqueue, List.append_nil, hq]
      · exact fun hkeeps => absurd rfl hkeeps.1
  | peek size =>
      have hsound : s.buf.Sound s.ring := hq ▸ h.sound c
      obtain ⟨hs, -, hqueue⟩ := ReadBuf.peek_sound hsound size
      constructor
      · apply h.update _ hs
        apply RingExchange.of_released (.refl _) _ hsound.size_le
        rw [List.nil_append, hqueue, hq]
      · exact fun _ => hqueue.trans (List.append_nil _).symm
  | @consume size ok buf ring hconsume =>
      have hsound : s.buf.Sound s.ring := hq ▸ h.sound c
      constructor
      · rcases Nat.lt_or_ge s.buf.readableBytes size with hgt | hle
        · rw [ReadBufStream.consume_of_gt hgt] at hconsume
          cases hconsume
          rw [← hq, Function.update_eq_self]
          exact h
        · obtain ⟨b, r, R, hrun, -, -, hqueue, hreleased, hs, -⟩ :=
            ReadBufStream.consume_of_le hsound hle
          rw [hrun] at hconsume
          cases hconsume
          apply h.update _ hs
          apply RingExchange.of_released hreleased _ hsound.size_le
          rw [hq, hqueue]
      · exact fun hkeeps => absurd rfl hkeeps.2
  | serve => exact .of_eq h hq rfl rfl rfl

/-- A channel to which a buffer is pushed is marked. -/
theorem Step.marked_of_pushed (hstep : Step c s l s') {idx : ℕ} (h : pushed s l s' = some idx) :
  s'.marked = true
  := by
  cases hstep with
  | stale hco => exact absurd h (by rw [pushed, if_neg (fun hif => hco hif.1)]; nofun)
  | @recv _ res _ _ _ hreceives =>
      cases hreceives with
      | received => rfl
      | ended hres =>
          rw [pushed, if_neg (fun hif => absurd hif.2.1 (by omega))] at h
          cases h
      | threw =>
          rw [pushed, if_neg (fun hif => absurd hif.2.2 nofun)] at h
          cases h
  | _ => cases h

/-- Only `on_read` unmarks a channel. -/
theorem Step.marked_of_marked (hstep : Step c s l s') (hl : l ≠ .serve) (h : s.marked = true) :
  s'.marked = true
  := by
  rcases hstep.pending with ⟨hmarked, -⟩ | ⟨-, hmarked, -⟩ | ⟨rfl, -⟩
  · rw [hmarked, h]
  · exact hmarked
  · exact absurd rfl hl

end ReadSide

/-- What the monitor keeps of a channel: whether the application has closed the connection, and
the buffers that were pushed before that and not yet offered to `on_read`. -/
structure ReadRecord where
  closed : Bool := false
  unseen : List ℕ := []

namespace ReadRecord

open ReadSide

/-- The record of a channel to which a buffer may have been pushed. -/
def push (g : ReadRecord) (idx : Option ℕ) : ReadRecord :=
  if g.closed then g else { g with unseen := g.unseen ++ idx.toList }

/-- The record of a channel after a step of its read side. -/
def next (g : ReadRecord) (s : ReadSide) (l : ReadLabel) (s' : ReadSide) : ReadRecord :=
  match l with
  | .assign => { g with closed := false }
  | .serve => { g with unseen := [] }
  | _ => g.push (s.pushed l s')

/-- The unseen buffers are in the read buffer, and the channel waits for `on_read`. -/
structure Owes (g : ReadRecord) (s : ReadSide) : Prop where
  queued : ∀ i ∈ g.unseen, i ∈ s.buf.queueList
  marked : g.unseen ≠ [] → s.marked = true
  closed : g.closed = true → g.unseen = []

variable {g : ReadRecord} {c : ℕ} {s s' : ReadSide} {l : ReadLabel}

theorem push_none :
  g.push none = g
  := by
  rw [push]
  split
  · rfl
  · rw [Option.toList_none, List.append_nil]

/-- A read side of which nothing is unseen. -/
theorem Owes.of_nil (h : g.unseen = []) :
  g.Owes s
  := by
  constructor
  · rw [h]
    nofun
  · exact fun hne => absurd h hne
  · exact fun _ => h

theorem Owes.congr (h : g.Owes s) (hbuf : s'.buf = s.buf) (hmarked : s'.marked = s.marked) :
  g.Owes s'
  := by
  constructor
  · rw [hbuf]
    exact h.queued
  · rw [hmarked]
    exact h.marked
  · exact h.closed

/-- What is pushed is unseen, unless the application has closed the connection. -/
theorem Owes.push (h : g.Owes s) (hstep : Step c s l s') (hl : l ≠ .serve)
    (hqueue : s'.buf.queueList = s.buf.queueList ++ (pushed s l s').toList) :
  (g.push (pushed s l s')).Owes s'
  := by
  rw [ReadRecord.push]
  split
  case isTrue hclosed => exact .of_nil (h.closed hclosed)
  case isFalse hopen =>
    constructor
    · intro i hi
      rw [hqueue]
      rcases List.mem_append.mp hi with hi | hi
      · exact List.mem_append_left _ (h.queued i hi)
      · exact List.mem_append_right _ hi
    · intro hne
      cases hpushed : pushed s l s' with
      | none =>
          rw [hpushed] at hne
          apply hstep.marked_of_marked hl (h.marked _)
          rwa [Option.toList_none, List.append_nil] at hne
      | some idx => exact hstep.marked_of_pushed hpushed
    · exact fun hclosed => absurd hclosed hopen

/-- A step that neither resets nor consumes buffers that were not offered. -/
theorem Owes.step (h : g.Owes s) (hstep : Step c s l s')
    (hqueue : Keeps l → s'.buf.queueList = s.buf.queueList ++ (pushed s l s').toList)
    (hoffered : ¬ Keeps l → g.unseen = []) :
  (g.next s l s').Owes s'
  := by
  cases l with
  | assign =>
      have hsame := hqueue ⟨nofun, nofun⟩
      constructor
      · intro i hi
        rw [hsame]
        exact List.mem_append_left _ (h.queued i hi)
      · exact fun hne => hstep.marked_of_marked nofun (h.marked hne)
      · nofun
  | serve => exact .of_nil rfl
  | closed =>
      have hnil := hoffered (fun hkeeps => hkeeps.1 rfl)
      change (g.push none).Owes s'
      rw [push_none]
      exact .of_nil hnil
  | consume =>
      have hnil := hoffered (fun hkeeps => hkeeps.2 rfl)
      change (g.push none).Owes s'
      rw [push_none]
      exact .of_nil hnil
  | quiet => exact h.push hstep nofun (hqueue ⟨nofun, nofun⟩)
  | peek => exact h.push hstep nofun (hqueue ⟨nofun, nofun⟩)
  | recv => exact h.push hstep nofun (hqueue ⟨nofun, nofun⟩)

end ReadRecord

namespace Worker

open ReadSide

variable {w w' : Worker} {e : Event} {ok : Bool} {c : ℕ}

/-- What an event does on the read side of the channel `d`. -/
def readLabelAt (x : Option (ℕ × ReadLabel)) (d : ℕ) : ReadLabel :=
  match x with
  | none => .quiet
  | some (c, l) => if d = c then l else .quiet

/-- The read buffers of the channels hold different buffers of the ring. -/
def Apart (w : Worker) : Prop :=
  ReadsApart w.thread.bufRing (fun c => (w.channels c).readBuf)

/-- A completion of a `recv` is as the kernel promises. -/
theorem promised_of_admits (hadmits : w.Admits e) {l : ReadLabel}
    (hlabel : w.readLabel e = some (c, l)) :
  Promised (w.readSide c) l
  := by
  rintro res idx data rfl hres
  cases labels_of_readLabel hlabel with
  | received hsqe => exact hadmits _ hsqe hres

/-- Buffers leave a read buffer at the return from `on_close` and by `consume`. -/
theorem reset_or_consume {l : ReadLabel} (hlabel : w.readLabel e = some (c, l))
    (hkeeps : ¬ Keeps l) :
  e = .ret ∧ w.ctl = .onClose c ∨ ∃ n, e = .app c (.consume n)
  := by
  cases labels_of_readLabel hlabel with
  | onCloseReturns hctl => exact .inl ⟨rfl, hctl⟩
  | consume => exact .inr ⟨_, rfl⟩
  | _ => exact absurd ⟨nofun, nofun⟩ hkeeps

/-- A step keeps the records right, unless buffers that were not offered leave a read buffer. -/
theorem Reads.owes {x : Option (ℕ × ReadLabel)} (h : Reads w w' x) (hapart : w.Apart)
    (hpromised : ∀ c l, x = some (c, l) → Promised (w.readSide c) l) {g : ℕ → ReadRecord}
    (howes : ∀ d, (g d).Owes (w.readSide d))
    (hoffered : ∀ c l, x = some (c, l) → ¬ Keeps l → (g c).unseen = []) :
  w'.Apart
    ∧ ∀ d, ((g d).next (w.readSide d) (readLabelAt x d) (w'.readSide d)).Owes (w'.readSide d)
  := by
  cases h with
  | none h =>
      constructor
      · have hbufs : (fun d => (w'.channels d).readBuf) = fun d => (w.channels d).readBuf := by
          funext d
          exact congrArg ReadSide.buf (h d)
        rw [Apart, hbufs, show w'.thread.bufRing = _ from congrArg ReadSide.ring (h 0)]
        exact hapart
      · intro d
        change ((g d).push Option.none).Owes _
        rw [ReadRecord.push_none]
        apply (howes d).congr <;> rw [h d]
  | @acts c l hstep hother =>
      have hexchanges : Exchanges (fun c => (w.channels c).readBuf) c (w.readSide c) l
          (w'.readSide c) := hstep.exchanges hapart rfl (hpromised c l rfl)
      constructor
      · have hbufs : (fun d => (w'.channels d).readBuf)
            = Function.update (fun d => (w.channels d).readBuf) c (w'.readSide c).buf := by
          funext d
          by_cases hd : d = c
          · rw [hd, Function.update_self]
            rfl
          · rw [Function.update_of_ne hd]
            exact congrArg ReadSide.buf (hother d hd)
        rw [Apart, hbufs]
        exact hexchanges.apart
      · intro d
        rw [readLabelAt]
        by_cases hd : d = c
        · rw [if_pos hd, hd]
          exact (howes c).step hstep hexchanges.queueList (hoffered c l rfl)
        · rw [if_neg hd]
          change ((g d).push Option.none).Owes _
          rw [ReadRecord.push_none]
          apply (howes d).congr <;> rw [hother d hd]

/-- `on_read` is called on the next channel, with the read buffers as they are. -/
theorem serveReads_of_head {rest : List ℕ} (hnext : rest.head? = some c) :
  (w.serveReads rest).ctl = .onRead c (w.serveReads rest).scheduled
    ∧ ((w.serveReads rest).channels c).readBuf = (w.channels c).readBuf
  := by
  cases rest with
  | nil => cases hnext
  | cons d rest =>
      cases hnext
      constructor
      · rfl
      · change (Function.update w.channels c _ c).readBuf = _
        rw [Function.update_self]

theorem onRead_of_serve (hstep : w.step e = some w') (hlabel : w.readLabel e = some (c, .serve)) :
  w'.ctl = .onRead c w'.scheduled ∧ (w'.channels c).readBuf = (w.channels c).readBuf
  := by
  obtain ⟨⟨ok, w₁⟩, hresult, rfl⟩ := Option.map_eq_some_iff.mp hstep
  cases labels_of_readLabel hlabel with
  | batchDone hnext =>
      cases step_cases hresult with
      | batchDone => exact serveReads_of_head hnext
  | onReadReturns hctl hnext =>
      rw [stepResult, afterCallback, hctl] at hresult
      cases hresult
      exact serveReads_of_head hnext

/-! ### The monitored worker -/

/-- The application closes the connection of the channel `c`. -/
def Closes (c : ℕ) : Event → Prop
  | .app d .close => d = c
  | _ => False

instance (c : ℕ) (e : Event) : Decidable (Closes c e) :=
  match e with
  | .app _ .close => inferInstanceAs (Decidable (_ = _))
  | .app _ (.append _) | .app _ (.prepend _) | .app _ .submit | .app _ (.peek _)
  | .app _ (.consume _) | .submit | .complete .. | .batchDone | .ret =>
      inferInstanceAs (Decidable False)

/-- A worker with the records of its channels. -/
abbrev Offering := Monitored Worker (ℕ → ReadRecord)

namespace Offering

/-- The records after an event. -/
def observe (w : Worker) (g : ℕ → ReadRecord) (e : Event) (_ : Bool) (w' : Worker) :
    ℕ → ReadRecord :=
  fun d =>
    if Closes d e then ⟨true, []⟩
    else (g d).next (w.readSide d) (readLabelAt (w.readLabel e) d) (w'.readSide d)

/-- A step of the worker and its monitor. -/
def step (m : Offering) (e : Event) : Option Offering := Monitored.step stepResult observe m e

/-- No connection has been assigned. -/
def start (w : Worker) : Offering := ⟨w, fun _ => {}⟩

/-- Nothing that was received on the channel `c` waits to be offered, or the application has
closed the connection. -/
def Offered (m : Offering) (c : ℕ) : Prop :=
  (m.state.channels c).inPendingReads = false ∨ (m.state.channels c).readBuf.queueList = []
    ∨ (m.record c).closed = true

/-- The return from the callback resets no read buffer, or only when all that was received has been
offered. -/
def OffersAtReturn (m : Offering) : Ctl → Prop
  | .onClose c => m.Offered c
  | _ => True

/-- The read buffer of a channel is reset at the return from `on_close`, and consumed, only when
all that was received has been offered. -/
def OffersFirst (m : Offering) : Event → Prop
  | .ret => m.OffersAtReturn m.state.ctl
  | .app c (.consume _) => m.Offered c
  | _ => True

instance (m : Offering) (c : ℕ) : Decidable (m.Offered c) :=
  inferInstanceAs (Decidable (_ ∨ _ ∨ _))

instance (m : Offering) (ctl : Ctl) : Decidable (m.OffersAtReturn ctl) :=
  match ctl with
  | .onClose c => inferInstanceAs (Decidable (m.Offered c))
  | .poll | .batch | .onAccept _ | .onWrite _ | .onRead _ _ => inferInstanceAs (Decidable True)

instance (m : Offering) (e : Event) : Decidable (m.OffersFirst e) :=
  match e with
  | .ret => inferInstanceAs (Decidable (m.OffersAtReturn m.state.ctl))
  | .app _ (.consume _) => inferInstanceAs (Decidable (m.Offered _))
  | .app _ (.append _) | .app _ (.prepend _) | .app _ .submit | .app _ (.peek _) | .app _ .close
  | .submit | .complete .. | .batchDone => inferInstanceAs (Decidable True)

/-- The channels to be served are the marked ones, the read buffers hold different buffers, and the
unseen buffers are in the read buffers of marked channels. -/
structure Inv (m : Offering) : Prop where
  deferred : Deferred m.state
  apart : m.state.Apart
  owes : ∀ c, (m.record c).Owes (m.state.readSide c)

variable {m m' : Offering}

/-- Nothing is unseen where all that was received has been offered. -/
theorem Inv.unseen_eq_nil (h : m.Inv) (hoffered : m.Offered c) :
  (m.record c).unseen = []
  := by
  by_contra hne
  rcases hoffered with hmark | hempty | hclosed
  · exact absurd ((h.owes c).marked hne) (Bool.eq_false_iff.mp hmark)
  · obtain ⟨i, hi⟩ := List.exists_mem_of_ne_nil _ hne
    have hmem : i ∈ (m.state.channels c).readBuf.queueList := (h.owes c).queued i hi
    rw [hempty] at hmem
    cases hmem
  · exact hne ((h.owes c).closed hclosed)

/-- A step that offers first keeps the invariant. -/
theorem Inv.step (h : m.Inv) (hadmits : m.state.Admits e) (hoffers : m.OffersFirst e)
    (hstep : m.step e = some m') :
  m'.Inv
  := by
  obtain ⟨ok, hresult, hrecord⟩ := Monitored.step_eq_some hstep
  have hsteps := step_cases hresult
  have hoffered : ∀ c l, m.state.readLabel e = some (c, l) → ¬ Keeps l →
      (m.record c).unseen = [] := by
    intro c l hlabel hkeeps
    apply h.unseen_eq_nil
    rcases reset_or_consume hlabel hkeeps with ⟨rfl, hctl⟩ | ⟨n, rfl⟩
    · rw [OffersFirst, hctl] at hoffers
      exact hoffers
    · exact hoffers
  obtain ⟨hapart, howes⟩ := hsteps.reads.owes h.apart (fun _ _ => promised_of_admits hadmits)
    h.owes hoffered
  constructor
  · exact h.deferred.step hsteps
  · exact hapart
  · intro d
    rw [hrecord, observe]
    split
    · exact .of_nil rfl
    · exact howes d

/-- At the start nothing has been received. -/
theorem inv_start (depth : ℕ) {ringBits ringBufSize : ℕ} {hpos : 0 < ringBufSize}
    {halloc : 2 ^ ringBits * ringBufSize < 2 ^ 31} (bufPool : BufPool) (poolBits capBits : Fin 31) :
  (start (Worker.start depth (BufRing.new ringBits ringBufSize hpos halloc) bufPool poolBits
    capBits)).Inv
  := by
  constructor
  · constructor
    · exact List.nodup_nil
    · intro c
      exact iff_of_false nofun nofun
    · exact fun _ => rfl
  · constructor
    · intro c
      exact (ReadSystem.new_inv 1 ringBits ringBufSize hpos halloc (fun _ => true)).sound Nat.one_pos
    · intro c d _ i hi
      have hnil : (newChannel (BufRing.new ringBits ringBufSize hpos halloc) capBits).readBuf.queueList
          = [] := (Circular.toList_eq_nil_iff _).mpr rfl
      change i ∈ (newChannel _ capBits).readBuf.queueList at hi
      rw [hnil] at hi
      cases hi
  · intro c
    exact .of_nil rfl

end Offering

section

variable (depth : ℕ) {ringBits ringBufSize : ℕ} {hpos : 0 < ringBufSize}
  {halloc : 2 ^ ringBits * ringBufSize < 2 ^ 31} (bufPool : BufPool) (poolBits capBits : Fin 31)

/-- No buffer is discarded unseen in a run in which all that was received is offered before a read
buffer is reset or consumed.  Every buffer that was pushed on a connection the application has not
closed, and not yet offered, is in the read buffer and not in the ring; `on_read` will be called on
the channel before the next submit, and the buffer is in the read buffer then. -/
theorem received_data_offered {m : Offering}
    (h : Reaches Offering.step (fun m e => m.state.Admits e ∧ m.OffersFirst e)
      (Offering.start (start depth (BufRing.new ringBits ringBufSize hpos halloc) bufPool poolBits
        capBits)) m) (c : ℕ) :
  (∀ i ∈ (m.record c).unseen,
      i ∈ (m.state.channels c).readBuf.queueList ∧ i ∉ m.state.thread.bufRing.ring
        ∧ c ∈ m.state.scheduled)
    ∧ (m.state.ctl = .poll → (m.record c).unseen = [])
    ∧ ∀ e w', m.state.step e = some w' → m.state.readLabel e = some (c, .serve) →
      w'.ctl = .onRead c w'.scheduled
        ∧ ∀ i ∈ (m.record c).unseen, i ∈ (w'.channels c).readBuf.queueList
  := by
  have hinv : m.Inv := by
    apply h.invariant (Offering.inv_start depth bufPool poolBits capBits)
    rintro m m' e hinv ⟨hadmits, hoffers⟩ hstep
    exact hinv.step hadmits hoffers hstep
  have howes := hinv.owes c
  have hscheduled : (m.record c).unseen ≠ [] → c ∈ m.state.scheduled :=
    fun hne => (hinv.deferred.mem_iff c).mpr (howes.marked hne)
  refine ⟨?_, ?_, ?_⟩
  · intro i hi
    have hmem := howes.queued i hi
    exact ⟨hmem, ((hinv.apart.sound c).toReads.toSound.of_mem hmem).2,
      hscheduled (List.ne_nil_of_mem hi)⟩
  · intro hctl
    by_contra hne
    have hmem := hscheduled hne
    rw [scheduled, hctl] at hmem
    cases hmem
  · intro e w' hstep hlabel
    obtain ⟨hctl, hbuf⟩ := onRead_of_serve hstep hlabel
    use hctl
    rw [hbuf]
    exact howes.queued

/-- A byte arrives, is offered and consumed, and another byte arrives. -/
theorem received_data_offered_two_bytes :
  ∃ pool m, BufPool.new 0 1 (by decide) (by decide) (by decide) = some pool
    ∧ Reaches Offering.step (fun m e => m.state.Admits e ∧ m.OffersFirst e)
      (Offering.start (start 8 (BufRing.new 1 1 (by decide) (by decide)) pool 0 0)) m
    ∧ (m.record 0).unseen = [1] ∧ 1 ∈ (m.state.channels 0).readBuf.queueList
    ∧ 0 ∈ m.state.scheduled
  := by
  have hrun : (BufPool.new 0 1 (by decide) (by decide) (by decide)).bind (fun pool =>
      (Reaches.follow Offering.step (fun m e => m.state.Admits e ∧ m.OffersFirst e)
        [.submit, .complete 0 5 true 0 [], .ret, .batchDone, .submit, .complete 2 1 true 0 [7],
          .batchDone, .app 0 (.consume 1), .ret, .submit, .complete 2 1 true 1 [8]]
        (Offering.start (start 8 (BufRing.new 1 1 (by decide) (by decide)) pool 0 0))).map
          (fun m => (m.record 0).unseen))
      = some [1] := by
    decide +kernel
  obtain ⟨pool, hpool, hfollow⟩ := Option.bind_eq_some_iff.mp hrun
  obtain ⟨m, hreach, hunseen⟩ := Reaches.of_follow _ hfollow
  obtain ⟨hmem, -, hscheduled⟩ := (received_data_offered 8 pool 0 0 hreach 0).1 1 (by
    rw [hunseen]
    exact List.mem_singleton_self 1)
  exact ⟨pool, m, hpool, hreach, hunseen, hmem, hscheduled⟩

/-- A byte arrives, and the stream ends in the same batch.  When `on_close` returns, the buffer is
back in the ring, and `on_read` was not called since it was pushed. -/
theorem received_data_discarded :
  ∃ pool m, BufPool.new 0 1 (by decide) (by decide) (by decide) = some pool
    ∧ Reaches Offering.step (fun m e => m.state.Admits e)
      (Offering.start (start 8 (BufRing.new 0 1 (by decide) (by decide)) pool 0 0)) m
    ∧ (m.record 0).closed = false ∧ (m.record 0).unseen = [0]
    ∧ (m.state.channels 0).readBuf.queueList = [] ∧ m.state.thread.bufRing.ring = [0]
  := by
  have hrun : (BufPool.new 0 1 (by decide) (by decide) (by decide)).bind (fun pool =>
      (Reaches.follow Offering.step (fun m e => m.state.Admits e)
        [.submit, .complete 0 5 true 0 [], .ret, .batchDone, .submit, .complete 2 1 true 0 [7],
          .complete 2 0 false 0 [], .ret]
        (Offering.start (start 8 (BufRing.new 0 1 (by decide) (by decide)) pool 0 0))).map
          (fun m => ((m.record 0).closed, (m.record 0).unseen,
            (m.state.channels 0).readBuf.queueList, m.state.thread.bufRing.ring)))
      = some (false, [0], [], [0]) := by
    decide +kernel
  obtain ⟨pool, hpool, hfollow⟩ := Option.bind_eq_some_iff.mp hrun
  obtain ⟨m, hreach, hfinal⟩ := Reaches.of_follow _ hfollow
  obtain ⟨hclosed, hunseen, hqueue, hring⟩ := by
    simpa only [Prod.mk.injEq] using hfinal
  exact ⟨pool, m, hpool, hreach, hclosed, hunseen, hqueue, hring⟩

end

end Worker

end Proactor
