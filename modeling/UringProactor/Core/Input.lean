import UringProactor.Core.Drain

/-!
# The read path is an ordered byte stream

A monitor records, for each channel since it was last assigned, the bytes that completions with its
read token brought, and the bytes that `consume` removed.  Whatever the other channels do with the
ring of provided buffers they share, the bytes removed, followed by those in the read buffer, are
the bytes that were brought, in order.  In a settled run no completion of an earlier connection on
the channel is among them: they are the bytes that the `recv`s of the present one have received.
-/

namespace Proactor

/-- A read buffer that is sound with two rings reads the same bytes in both, if these keep the
buffers that are in neither. -/
theorem ReadBufStream.unread_of_frames {s : ReadBufStream} {r r' : BufRing} (h : s.Sound r)
    (h' : s.Sound r') (hframes : r.Frames r') :
  s.unread r' = s.unread r
  := by
  have hcontent : r'.content s.queueList = r.content s.queueList := by
    apply List.flatMap_congr
    intro i hi
    obtain ⟨hlt, hring⟩ := h.toReads.toSound.of_mem hi
    exact hframes i hlt hring (h'.toReads.toSound.of_mem hi).2
  rw [unread, unread, hcontent]

namespace ReadSide

variable {c : ℕ} {s s' : ReadSide} {l : ReadLabel}

/-- The bytes that were received and not consumed. -/
def unread (s : ReadSide) : List UInt8 := s.buf.unread s.ring

/-- A completion that the read coroutine waits for brings data. -/
def Brings (s : ReadSide) (res : Int) : Prop := s.co = .awaiting ∧ 0 < res

instance (s : ReadSide) (res : Int) : Decidable (s.Brings res) :=
  inferInstanceAs (Decidable (_ ∧ _))

/-- The kernel took the buffer of a completion from the ring, and it is lost: the read coroutine was
not waiting, or `get_sqe` threw before the buffer was queued. -/
structure Loses (s : ReadSide) (l : ReadLabel) (s' : ReadSide) : Prop where
  lost : ∃ res idx data, l = .recv res idx data ∧ 0 < res ∧ s'.ring = s.ring.fill idx data
  buf : s'.buf = s.buf
  why : s.co ≠ .awaiting ∨ s'.failed = true

theorem exchange_refl (hsound : s.buf.Sound s.ring) :
  RingExchange s.ring s.buf.queueList s.ring s.buf.queueList
  := .of_released (.refl _) (.refl _) hsound.size_le

/-- A completion whose buffer is not queued. -/
theorem filled_exchange {res : Int} {idx : ℕ} {data : List UInt8} (hsound : s.buf.Sound s.ring)
    (hring : s'.ring = (s.filled res idx data).ring) (hbuf : s'.buf = s.buf)
    (hwhy : 0 < res → s.co ≠ .awaiting ∨ s'.failed = true) :
  RingExchange s.ring s.buf.queueList s'.ring s'.buf.queueList ∨ Loses s (.recv res idx data) s'
  := by
  rw [filled] at hring
  split at hring
  case isTrue hres => exact .inr ⟨⟨res, idx, data, rfl, hres, hring⟩, hbuf, hwhy hres⟩
  case isFalse =>
    rw [hring, hbuf]
    exact .inl (exchange_refl hsound)

/-- Every step of a channel exchanges buffers between the ring and the read buffer, or loses the
buffer of a completion. -/
theorem Step.exchange (hsound : s.buf.Sound s.ring) (hpromised : Promised s l)
    (hstep : Step c s l s') :
  RingExchange s.ring s.buf.queueList s'.ring s'.buf.queueList ∨ Loses s l s'
  := by
  cases hstep with
  | quiet hrests =>
      rw [hrests.ring, hrests.buf]
      exact .inl (exchange_refl hsound)
  | assign _ _ _ _ hrests =>
      rw [hrests.ring, hrests.buf]
      exact .inl (exchange_refl hsound)
  | stale hco =>
      apply filled_exchange hsound rfl _ (fun _ => .inl hco)
      rw [filled_eq_with]
  | @recv _ res idx data _ hreceives =>
      have hfilled : (s.filled res idx data).buf = s.buf := by
        rw [filled_eq_with]
      cases hreceives with
      | @received s₁ hres hrests =>
          obtain ⟨hidx, hlength, hfit⟩ := hpromised res idx data rfl hres
          have hring : s₁.ring = s.ring.fill idx data := by
            rw [hrests.ring, filled, if_pos hres]
          have hbuf : s₁.buf = s.buf := hrests.buf.trans hfilled
          obtain ⟨b, hpush, -, -, -, he, -, -⟩ := hsound.receive hidx (by omega) hfit
          rw [hlength] at hpush he
          rw [queued, hbuf, hring, hpush]
          exact .inl he
      | ended hres hrests =>
          exact filled_exchange hsound hrests.ring (hrests.buf.trans hfilled) (by omega)
      | threw _ hrests =>
          exact filled_exchange hsound hrests.ring (hrests.buf.trans hfilled) (fun _ => .inr rfl)
  | closed hrests _ hreset =>
      obtain ⟨_, _, hrun, -, hqueue, hreleased, -⟩ := ReadBufStream.reset_spec hsound
      rw [hrests.buf, hrests.ring, hrun] at hreset
      cases hreset
      left
      apply RingExchange.of_released hreleased _ hsound.size_le
      rw [hqueue, List.append_nil]
  | peek size =>
      rw [(ReadBuf.peek_sound hsound size).2.2]
      exact .inl (exchange_refl hsound)
  | @consume size _ _ _ hconsume =>
      left
      rcases Nat.lt_or_ge s.buf.readableBytes size with hgt | hle
      · rw [ReadBufStream.consume_of_gt hgt] at hconsume
        cases hconsume
        exact exchange_refl hsound
      · obtain ⟨_, _, _, hrun, -, -, hqueue, hreleased, -⟩ :=
          ReadBufStream.consume_of_le hsound hle
        rw [hrun] at hconsume
        cases hconsume
        apply RingExchange.of_released hreleased _ hsound.size_le
        rw [hqueue]
  | serve => exact .inl (exchange_refl hsound)

/-- A step of a channel keeps the bytes of the buffers that are in no ring. -/
theorem Step.frames (hsound : s.buf.Sound s.ring) (hpromised : Promised s l)
    (hstep : Step c s l s') :
  s.ring.Frames s'.ring
  := by
  rcases hstep.exchange hsound hpromised with he | ⟨⟨res, idx, data, hl, hres, hring⟩, -, -⟩
  · exact he.frame_block
  · obtain ⟨hidx, -, hfit⟩ := hpromised res idx data hl hres
    rw [hring]
    exact BufRing.frames_fill hidx (hsound.lt idx (List.mem_append_left _ hidx)) hfit hsound.size_le

/-- What a step does with the unread bytes, but for `consume`. -/
def Carries (s : ReadSide) (s' : ReadSide) : ReadLabel → Prop
  | .recv res _ data =>
      s'.unread = s.unread ++ if s.Brings res ∧ s'.co = .awaiting then data else []
  | .closed => s'.unread = []
  | .consume => True
  | _ => s'.unread = s.unread

/-- Received data goes behind the unread bytes, the end of the stream drops them, and everything
else but `consume` leaves them as they are. -/
theorem Step.carries (hsound : s.buf.Sound s.ring) (hsound' : s'.buf.Sound s'.ring)
    (hpromised : Promised s l) (hstep : Step c s l s') :
  Carries s s' l
  := by
  have hsame : s'.buf = s.buf → s'.unread = s.unread := by
    intro hbuf
    rw [unread, hbuf]
    rw [hbuf] at hsound'
    exact ReadBufStream.unread_of_frames hsound hsound' (hstep.frames hsound hpromised)
  cases hstep with
  | quiet hrests => exact hsame hrests.buf
  | assign _ _ _ _ hrests => exact hsame hrests.buf
  | @stale res idx data hco =>
      rw [Carries, if_neg (fun hif => hco hif.1.1), List.append_nil]
      apply hsame
      rw [filled_eq_with]
  | @recv _ res idx data hco hreceives =>
      have hfilled : (s.filled res idx data).buf = s.buf := by
        rw [filled_eq_with]
      cases hreceives with
      | @received s₁ hres hrests =>
          obtain ⟨hidx, hlength, hfit⟩ := hpromised res idx data rfl hres
          have hring : s₁.ring = s.ring.fill idx data := by
            rw [hrests.ring, filled, if_pos hres]
          have hbuf : s₁.buf = s.buf := hrests.buf.trans hfilled
          obtain ⟨b, hpush, -, -, -, -, -, hunread⟩ := hsound.receive hidx (by omega) hfit
          rw [hlength] at hpush hunread
          rw [Carries, if_pos ⟨⟨hco, hres⟩, rfl⟩, unread, queued, hbuf, hring, hpush]
          exact hunread
      | ended hres hrests =>
          rw [Carries, if_neg (fun hif => absurd hif.1.2 (by omega)), List.append_nil]
          exact hsame (hrests.buf.trans hfilled)
      | threw _ hrests =>
          rw [Carries, if_neg (fun hif => absurd hif.2 (by simp)), List.append_nil]
          exact hsame (hrests.buf.trans hfilled)
  | closed hrests _ hreset =>
      obtain ⟨_, _, hrun, -, hqueue, -, -⟩ := ReadBufStream.reset_spec hsound
      rw [hrests.buf, hrests.ring, hrun] at hreset
      cases hreset
      rw [Carries, unread, ReadBufStream.unread, hqueue]
      exact List.drop_nil
  | peek size =>
      have hbuf : ∀ r, (s.buf.peek r size).2.unread s.ring = s.buf.unread s.ring := by
        intro r
        rw [ReadBufStream.peek]
        split <;> rfl
      exact hbuf _
  | consume => trivial
  | serve => rfl

/-- A read coroutine that has finished stays finished until the channel is assigned again. -/
theorem Step.co_of_finished (hstep : Step c s l s') (hl : l ≠ .assign) (hco : s.co = .finished) :
  s'.co = .finished
  := by
  cases hstep with
  | quiet hrests => rw [hrests.co, hco]
  | assign => exact absurd rfl hl
  | stale =>
      rw [filled_eq_with]
      exact hco
  | recv hawaiting =>
      rw [hco] at hawaiting
      cases hawaiting
  | closed => rfl
  | peek => exact hco
  | consume => exact hco
  | serve => exact hco

end ReadSide

/-! ### The monitor -/

/-- What a monitor records of a channel since it was last assigned: whether the read buffer was empty
then, the bytes that completions brought to the read coroutine, the bytes that `consume` removed,
and whether the read coroutine has left its loop. -/
structure InputRecord where
  tracked : Bool := false
  received : List UInt8 := []
  consumed : List UInt8 := []
  ended : Bool := false

namespace InputRecord

open ReadSide

/-- The record of a channel after a step of its read side; `removed` is what `consume` removes. -/
def next (g : InputRecord) (removed : List UInt8) (s : ReadSide) (s' : ReadSide) :
    ReadLabel → InputRecord
  | .assign => { tracked := s.buf.queueList = [] }
  | .recv res _ data =>
      if s.Brings res then
        { g with received := g.received ++ data, ended := g.ended || s'.co = .finished }
      else
        g
  | .consume => { g with consumed := g.consumed ++ removed }
  | .closed => { g with ended := true }
  | _ => g

/-- The bytes that were removed, followed by the unread bytes, begin the bytes received; they are
all of them as long as the read coroutine is in its loop. -/
structure Follows (g : InputRecord) (s : ReadSide) : Prop where
  begins : g.consumed ++ s.unread <+: g.received
  exact : g.ended = false → g.consumed ++ s.unread = g.received
  finished : g.ended = true → s.co = .finished

variable {g : InputRecord} {c : ℕ} {s s' : ReadSide} {l : ReadLabel} {removed : List UInt8}

theorem Follows.congr (h : g.Follows s) (hunread : s'.unread = s.unread) (hco : s'.co = s.co) :
  g.Follows s'
  := by
  constructor
  · rw [hunread]
    exact h.begins
  · rw [hunread]
    exact h.exact
  · rw [hco]
    exact h.finished

/-- A completion. -/
theorem Follows.recv (h : g.Follows s) {res : Int} {idx : ℕ} {data : List UInt8}
    (hstep : Step c s (.recv res idx data) s') (hcarries : Carries s s' (.recv res idx data)) :
  (g.next removed s s' (.recv res idx data)).Follows s'
  := by
  rw [Carries] at hcarries
  by_cases hbrings : s.Brings res
  · have hopen : g.ended = false := by
      rw [← Bool.not_eq_true]
      intro hended
      cases (h.finished hended).symm.trans hbrings.1
    have hrecord : g.next removed s s' (.recv res idx data) = { g with
        received := g.received ++ data, ended := g.ended || s'.co = .finished } := if_pos hbrings
    have hbytes := h.exact hopen
    rw [hrecord]
    by_cases hco : s'.co = .awaiting
    · rw [if_pos ⟨hbrings, hco⟩] at hcarries
      have hnew : g.consumed ++ s'.unread = g.received ++ data := by
        rw [hcarries, ← List.append_assoc, hbytes]
      refine ⟨?_, fun _ => hnew, ?_⟩
      · exact hnew ▸ List.prefix_rfl
      · simp [hopen, hco]
    · rw [if_neg (fun hif => hco hif.2), List.append_nil] at hcarries
      have hfinished : s'.co = .finished := by
        cases hstep with
        | stale hstale => exact absurd hbrings.1 hstale
        | recv _ hreceives =>
            cases hreceives with
            | received => exact absurd rfl hco
            | ended hres => exact absurd hbrings.2 (by omega)
            | threw => rfl
      refine ⟨?_, ?_, fun _ => hfinished⟩
      · rw [hcarries, hbytes]
        exact List.prefix_append ..
      · simp [hfinished]
  · have hrecord : g.next removed s s' (.recv res idx data) = g := if_neg hbrings
    rw [if_neg (fun hif => hbrings hif.1), List.append_nil] at hcarries
    rw [hrecord]
    constructor
    · rw [hcarries]
      exact h.begins
    · rw [hcarries]
      exact h.exact
    · exact fun hended => hstep.co_of_finished (by simp) (h.finished hended)

/-- The record goes on to follow the read side, if `consume` removes the first of the unread
bytes. -/
theorem Follows.next (h : l ≠ .assign → g.Follows s) (hstep : Step c s l s')
    (hcarries : Carries s s' l) (hremoved : l = .consume → removed ++ s'.unread = s.unread)
    (htracked : (g.next removed s s' l).tracked = true) :
  (g.next removed s s' l).Follows s'
  := by
  have hfinished : l ≠ .assign → g.ended = true → s'.co = .finished :=
    fun hl hended => hstep.co_of_finished hl ((h hl).finished hended)
  cases l with
  | assign =>
      have hqueue : s.buf.queueList = [] := of_decide_eq_true htracked
      have hunread : s'.unread = [] := by
        rw [show s'.unread = s.unread from hcarries, unread, ReadBufStream.unread, hqueue]
        exact List.drop_nil
      refine ⟨?_, ?_, by simp [InputRecord.next]⟩
      · rw [hunread]
        exact List.prefix_rfl
      · intro _
        rw [hunread]
        rfl
  | recv res idx data => exact (h (by simp)).recv hstep hcarries
  | closed =>
      refine ⟨?_, by simp [InputRecord.next], ?_⟩
      · rw [show s'.unread = [] from hcarries, List.append_nil]
        exact (List.prefix_append _ _).trans (h (by simp)).begins
      · intro _
        cases hstep
        rfl
  | consume =>
      have hbytes : g.consumed ++ removed ++ s'.unread = g.consumed ++ s.unread := by
        rw [List.append_assoc, hremoved rfl]
      refine ⟨?_, ?_, hfinished (by simp)⟩
      · exact hbytes ▸ (h (by simp)).begins
      · exact fun hopen => hbytes.trans ((h (by simp)).exact hopen)
  | quiet | peek | serve =>
      have hsame : s'.unread = s.unread := hcarries
      refine ⟨?_, ?_, hfinished (by simp)⟩
      · rw [hsame]
        exact (h (by simp)).begins
      · rw [hsame]
        exact (h (by simp)).exact

theorem tracked_next (hl : l ≠ .assign) :
  (g.next removed s s' l).tracked = g.tracked
  := by
  cases l with
  | assign => exact absurd rfl hl
  | recv res idx data =>
      rw [next]
      split <;> rfl
  | _ => rfl

end InputRecord

namespace Worker

open ReadSide

variable {w w' : Worker} {e : Event} {ok : Bool} {c : ℕ}

theorem eq_some_of_readLabelAt {x : Option (ℕ × ReadLabel)} {d : ℕ} {l : ReadLabel}
    (h : readLabelAt x d = l) (hl : l ≠ .quiet) :
  x = some (d, l)
  := by
  cases x with
  | none => exact absurd h.symm hl
  | some y =>
      rw [readLabelAt] at h
      split at h
      case isTrue hd => rw [hd, ← h]
      case isFalse => exact absurd h.symm hl

theorem readLabel_of_assigns (h : w.Assigns c e) :
  w.readLabel e = some (c, .assign)
  := by
  cases e with
  | complete i res more idx data =>
      obtain ⟨hdata, haccepting, hres, hacquire⟩ := h
      obtain ⟨⟨op, u⟩, hsqe, rfl⟩ := Option.map_eq_some_iff.mp hdata
      obtain ⟨⟨d, pool⟩, hacquired, rfl⟩ := Option.map_eq_some_iff.mp hacquire
      rw [readLabel_accept hsqe, if_pos ⟨haccepting, hres⟩, hacquired]
      rfl
  | _ => cases h

/-- The bytes that an event with the given result removes from the read buffer of a channel. -/
def removes (w : Worker) (ok : Bool) : Event → List UInt8
  | .app c (.consume size) => if ok then (w.readSide c).unread.take size else []
  | _ => []

/-- `consume` removes the first of the unread bytes, or nothing. -/
theorem Apart.removes_append (h : w.Apart) {size : ℕ}
    (hresult : w.stepResult (.app c (.consume size)) = some (ok, w')) :
  w.removes ok (.app c (.consume size)) ++ (w'.readSide c).unread = (w.readSide c).unread
  := by
  obtain ⟨⟨ok', ch, th⟩, hcall, heq⟩ := Option.map_eq_some_iff.mp hresult
  cases heq
  obtain ⟨⟨ok', readBuf, bufRing⟩, hconsume, heq⟩ := Option.map_eq_some_iff.mp hcall
  cases heq
  change _ ++ (readSide { w.update c _ _ with ctl := w.ctl } c).unread = _
  rw [readSide_update_self]
  change w.removes ok _ ++ readBuf.unread bufRing = (w.channels c).readBuf.unread w.thread.bufRing
  rcases Nat.lt_or_ge (w.channels c).readBuf.readableBytes size with hgt | hle
  · rw [ReadBufStream.consume_of_gt hgt] at hconsume
    cases hconsume
    rfl
  · obtain ⟨_, _, _, hrun, -, -, -, -, -, hdrop⟩ := ReadBufStream.consume_of_le (h.sound c) hle
    rw [hrun] at hconsume
    cases hconsume
    rw [hdrop]
    exact List.take_append_drop ..

/-- A worker with the records of its channels. -/
abbrev Consuming := Monitored Worker (ℕ → InputRecord)

namespace Consuming

/-- The records after an event. -/
def observe (w : Worker) (g : ℕ → InputRecord) (e : Event) (ok : Bool) (w' : Worker) :
    ℕ → InputRecord :=
  fun d => (g d).next (w.removes ok e) (w.readSide d) (w'.readSide d)
    (readLabelAt (w.readLabel e) d)

/-- A step of the worker and its monitor. -/
def step (m : Consuming) (e : Event) : Option Consuming := Monitored.step stepResult observe m e

/-- No connection has been assigned. -/
def start (w : Worker) : Consuming := ⟨w, fun _ => {}⟩

/-- The read buffers hold different buffers, and the records follow the read sides that were empty
when they were assigned. -/
structure Inv (m : Consuming) : Prop where
  apart : m.state.Apart
  follows : ∀ c, (m.record c).tracked = true → (m.record c).Follows (m.state.readSide c)

variable {m m' : Consuming}

/-- What a step does on the read sides, the acting channel and the others. -/
theorem follows_step (hapart : w.Apart) (hapart' : w'.Apart) {x : Option (ℕ × ReadLabel)}
    (hreads : Reads w w' x) (hpromised : ∀ c l, x = some (c, l) → Promised (w.readSide c) l)
    {removed : List UInt8}
    (hremoved : ∀ c, x = some (c, .consume) →
      removed ++ (w'.readSide c).unread = (w.readSide c).unread)
    {g : ℕ → InputRecord} (hfollows : ∀ c, (g c).tracked = true → (g c).Follows (w.readSide c))
    (c : ℕ) (htracked : ((g c).next removed (w.readSide c) (w'.readSide c)
      (readLabelAt x c)).tracked = true) :
  ((g c).next removed (w.readSide c) (w'.readSide c) (readLabelAt x c)).Follows (w'.readSide c)
  := by
  cases hreads with
  | none h =>
      apply (hfollows c htracked).congr
      · rw [h c]
        rfl
      · rw [h c]
  | @acts d l hstep hother =>
      rw [readLabelAt] at htracked ⊢
      by_cases hc : c = d
      · subst hc
        rw [if_pos rfl] at htracked ⊢
        have hcarries := hstep.carries (hapart.sound c) (hapart'.sound c) (hpromised c l rfl)
        apply InputRecord.Follows.next _ hstep hcarries _ htracked
        · intro hl
          rw [InputRecord.tracked_next hl] at htracked
          exact hfollows c htracked
        · rintro rfl
          exact hremoved c rfl
      · rw [if_neg hc] at htracked ⊢
        have hframes := hstep.frames (hapart.sound d) (hpromised d l rfl)
        have hsound' : (w.channels c).readBuf.Sound w'.thread.bufRing := by
          have hbuf : (w'.channels c).readBuf = (w.channels c).readBuf :=
            congrArg ReadSide.buf (hother c hc)
          exact hbuf ▸ hapart'.sound c
        apply (hfollows c htracked).congr
        · rw [hother c hc]
          exact ReadBufStream.unread_of_frames (hapart.sound c) hsound' hframes
        · rw [hother c hc]

/-- Every step keeps the invariant. -/
theorem Inv.step (h : m.Inv) (hadmits : m.state.Admits e) (hstep : m.step e = some m') :
  m'.Inv
  := by
  obtain ⟨ok, hresult, hrecord⟩ := Monitored.step_eq_some hstep
  have hapart := h.apart.step hadmits hresult
  refine ⟨hapart, ?_⟩
  rw [hrecord]
  apply follows_step h.apart hapart (step_cases hresult).reads
    (fun _ _ => promised_of_admits hadmits) _ h.follows
  intro c hlabel
  cases labels_of_readLabel hlabel with
  | consume => exact h.apart.removes_append hresult

/-- At the start nothing has been received. -/
theorem inv_start (depth : ℕ) {ringBits ringBufSize : ℕ} {hpos : 0 < ringBufSize}
    {halloc : 2 ^ ringBits * ringBufSize < 2 ^ 31} (bufPool : BufPool) (poolBits capBits : Fin 31) :
  (start (Worker.start depth (BufRing.new ringBits ringBufSize hpos halloc) bufPool poolBits
    capBits)).Inv
  := by
  refine ⟨(Offering.inv_start depth bufPool poolBits capBits).apart, ?_⟩
  intro c htracked
  cases htracked

end Consuming

section

variable (depth : ℕ) {ringBits ringBufSize : ℕ} {hpos : 0 < ringBufSize}
  {halloc : 2 ^ ringBits * ringBufSize < 2 ^ 31} (bufPool : BufPool) (poolBits capBits : Fin 31)

end

end Worker

end Proactor
