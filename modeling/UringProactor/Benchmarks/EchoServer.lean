import UringProactor.Buffer.Peek
import UringProactor.Core.ByteStream
import UringProactor.Core.Armed
import UringProactor.Prelude.Program

/-!
# The TCP echo server

`TcpEchoServer` is a worker whose application runs `on_read` statement by statement: it peeks at
all readable bytes, appends the segments that `peek` describes to the write buffer, consumes the
bytes and submits.  It ignores the result of `append`.  In every settled run, what a connection is
sent is what it has received, in order and with nothing added; bytes are missing only if the write
buffer had no room for a segment, or if the counters of the read buffer have wrapped.
-/

namespace Proactor

namespace TcpEchoServer

/-- Where control is in `on_read`: at its start, in the loop over the segments that `peek`
described, before `consume`, before `submit`, or at its end. -/
inductive Pc where
  | enter
  | append (segments : List Segment) (avail : ℕ)
  | consume (avail : ℕ)
  | submit
  | done

end TcpEchoServer

/-- A TCP echo server with one worker.  Outside `on_read` the place of control is its start. -/
abbrev TcpEchoServer := Program.State Worker TcpEchoServer.Pc

namespace TcpEchoServer

/-- A move of the server: an event of the loop of its worker, or a statement of `on_read`. -/
abbrev Move := Program.Move Event

/-- The next statement of `on_read` on the channel `c`: the call it makes, if any, and the place of
control after it.  The segments are read when they are appended. -/
def statement (w : Worker) (c : ℕ) : Pc → Option (Option AppOp × Pc)
  | .enter =>
      let avail := (w.channels c).readBuf.readableBytes
      if avail = 0 then
        some (none, .done)
      else
        match ((w.channels c).readBuf.peek w.thread.bufRing avail).1 with
        | none => some (some (.peek avail), .done)
        | some segments => some (some (.peek avail), .append segments avail)
  | .append [] avail => some (none, .consume avail)
  | .append (g :: segments) avail =>
      some (some (.append (Store.read w.thread.bufRing.bufs g.data g.size)),
        .append segments avail)
  | .consume avail => some (some (.consume avail), .submit)
  | .submit => some (some .submit, .done)
  | .done => none

/-- `on_read` has returned, or control is not in it. -/
def returns (w : Worker) (pc : Pc) : Bool :=
  match w.ctl, pc with
  | .onRead _ _, .done => true
  | .onRead _ _, _ => false
  | _, _ => true

/-- The events of the loop that the application lets happen: it makes no calls but those of
`on_read`; `on_accept`, `on_write` and `on_close` return at once. -/
def lets (w : Worker) (pc : Pc) : Event → Bool
  | .app _ _ => false
  | .ret => returns w pc
  | _ => true

/-- `TcpEchoServer`: `on_read` as a program on a worker. -/
def program : Program Worker Event Pc where
  machine := Worker.stepResult
  entry := .enter
  lets := lets
  statement w pc :=
    match w.ctl with
    | .onRead c _ => (statement w c pc).map (fun (op, pc) => (op.map (Event.app c), fun _ => pc))
    | _ => none

/-- The moves of a run: completions are as the kernel promises, and the actions of the loop meet the
condition `ok`. -/
def Runs (ok : Conn → Action → Prop) (s : TcpEchoServer) : Move → Prop
  | .loop e => s.machine.Runs ok e
  | .run => True

instance (ok : Conn → Action → Prop) [∀ k a, Decidable (ok k a)] (s : TcpEchoServer) (x : Move) :
    Decidable (s.Runs ok x) :=
  match x with
  | .loop e => inferInstanceAs (Decidable (s.machine.Runs ok e))
  | .run => inferInstanceAs (Decidable True)

/-! ### What a move does -/

/-- The statements of `on_read`. -/
inductive Executes (w : Worker) (c : ℕ) : Pc → Option AppOp → Pc → Prop where
  | empty : Executes w c .enter none .done
  | refused {avail : ℕ} : Executes w c .enter (some (.peek avail)) .done
  | peeked {avail : ℕ} {segments : List Segment}
      (havail : avail = (w.channels c).readBuf.readableBytes)
      (hpeek : ((w.channels c).readBuf.peek w.thread.bufRing avail).1 = some segments) :
      Executes w c .enter (some (.peek avail)) (.append segments avail)
  | looped {avail : ℕ} : Executes w c (.append [] avail) none (.consume avail)
  | append {g : Segment} {segments : List Segment} {avail : ℕ} :
      Executes w c (.append (g :: segments) avail)
        (some (.append (Store.read w.thread.bufRing.bufs g.data g.size))) (.append segments avail)
  | consume {avail : ℕ} : Executes w c (.consume avail) (some (.consume avail)) .submit
  | submit : Executes w c .submit (some .submit) .done

theorem executes_of_statement {w : Worker} {c : ℕ} {pc pc' : Pc} {op : Option AppOp}
    (h : statement w c pc = some (op, pc')) :
  Executes w c pc op pc'
  := by
  cases pc with
  | enter =>
      rw [statement] at h
      split at h
      case isTrue =>
        cases h
        exact .empty
      case isFalse =>
        split at h
        case h_1 =>
          cases h
          exact .refused
        case h_2 segments hpeek =>
          cases h
          exact .peeked rfl hpeek
  | append segments avail =>
      cases segments with
      | nil =>
          cases h
          exact .looped
      | cons g segments =>
          cases h
          exact .append
  | consume avail =>
      cases h
      exact .consume
  | submit =>
      cases h
      exact .submit
  | done => cases h

/-- The statements of the program are those of `on_read` on the channel it was called on. -/
theorem executes_of_program {w : Worker} {pc : Pc} {call : Option Event} {next : Bool → Pc}
    (h : program.statement w pc = some (call, next)) :
  ∃ c rest op, w.ctl = .onRead c rest ∧ call = op.map (Event.app c)
    ∧ ∀ ok, Executes w c pc op (next ok)
  := by
  dsimp only [program] at h
  split at h
  case h_1 c rest hctl =>
    obtain ⟨⟨op, pc'⟩, hstatement, heq⟩ := Option.map_eq_some_iff.mp h
    cases heq
    exact ⟨c, rest, op, hctl, rfl, fun _ => executes_of_statement hstatement⟩
  case h_2 => cases h

/-! ### The monitor -/

/-- What a monitor records of the connections: the bytes on the way out, the bytes on the way in,
and whether `on_read` failed to echo some of them. -/
structure EchoRecord where
  output : ℕ → StreamRecord := fun _ => {}
  input : ℕ → InputRecord := fun _ => {}
  lossy : ℕ → Bool := fun _ => false

/-- `peek` describes the bytes it should describe. -/
def describes (w : Worker) (c size : ℕ) : Bool :=
  ((w.channels c).readBuf.peek w.thread.bufRing size).1.map
    (ReadBufStream.gather w.thread.bufRing) = some ((w.readSide c).unread.take size)

/-- An event with the given result loses bytes that are to be echoed on the channel `c`: `append`
has no room for them, or `peek` does not describe them. -/
def loses (w : Worker) (c : ℕ) (ok : Bool) : Event → Bool
  | .app d (.append _) => d = c && !ok
  | .app d (.peek size) => d = c && !(describes w c size)
  | _ => false

/-- The record after a move. -/
def observe (s : TcpEchoServer) (g : EchoRecord) (_ : Move) (y : Option (Event × Bool))
    (s' : TcpEchoServer) : EchoRecord :=
  match y with
  | none => g
  | some (e, ok) => {
      output := Worker.Streaming.observe (fun _ data => data) s.machine g.output e ok s'.machine
      input := Worker.Consuming.observe s.machine g.input e ok s'.machine
      lossy := fun c =>
        if s.machine.Assigns c e then false else g.lossy c || loses s.machine c ok e }

/-- A server with the record of its connections. -/
abbrev Echoing := Monitored TcpEchoServer EchoRecord

/-- A move of the server and its monitor. -/
def Echoing.step (m : Echoing) (x : Move) : Option Echoing :=
  Monitored.step program.stepResult observe m x

/-- The server when its worker enters the loop. -/
def Echoing.start (w : Worker) : Echoing := ⟨⟨w, .enter⟩, {}⟩

/-- What `on_read` has handed to the write buffer of the channel `c`, submitted or not. -/
def EchoRecord.echoed (g : EchoRecord) (c : ℕ) : List UInt8 :=
  (g.output c).submitted ++ (g.output c).built

/-- What holds of the bytes echoed on the channel `c`, by the place of control in `on_read`: in the
loop, of the unread bytes those before the remaining segments have been relayed; after the loop all
of them; before the loop and after `consume` none of them. -/
def Progress (w : Worker) (c : ℕ) (lossy : Bool) (echoed consumed : List UInt8) : Pc → Prop
  | .append segments avail =>
      avail = (w.readSide c).unread.length
        ∧ ∃ handled, Relays lossy echoed (consumed ++ handled)
          ∧ handled ++ ReadBufStream.gather w.thread.bufRing segments <+: (w.readSide c).unread
          ∧ (lossy = false →
            handled ++ ReadBufStream.gather w.thread.bufRing segments = (w.readSide c).unread)
  | .consume avail =>
      avail = (w.readSide c).unread.length
        ∧ Relays lossy echoed (consumed ++ (w.readSide c).unread)
  | _ => Relays lossy echoed consumed

/-- What the record of the channel `c` says about it. -/
def Progresses (s : TcpEchoServer) (g : EchoRecord) (c : ℕ) : Pc → Prop :=
  Progress s.machine c (g.lossy c) (g.echoed c) (g.input c).consumed

/-- The records of both directions are right, `on_read` is called on channels of the pool, and all
consumed bytes have been relayed but for those that `on_read` is at. -/
structure Inv (m : Echoing) : Prop where
  output : Worker.Streaming.Inv ⟨m.state.machine, m.record.output⟩
  input : Worker.Consuming.Inv ⟨m.state.machine, m.record.input⟩
  served : m.state.machine.Served
  inside : ∀ c rest, m.state.machine.ctl = .onRead c rest →
    Progresses m.state m.record c m.state.pc
  outside : ∀ c, (∀ rest, m.state.machine.ctl ≠ .onRead c rest) →
    Progresses m.state m.record c .enter

variable {m m' : Echoing} {s s' : TcpEchoServer} {g : EchoRecord} {w w' : Worker} {c d : ℕ}
  {e : Event} {ok : Bool}

/-! ### Events of the worker -/

/-- The part of the invariant that is about the worker goes on to hold. -/
theorem Inv.worker_step (h : Inv m) (hruns : m.state.machine.Runs Conn.Settled e)
    (hfits : ∀ c data, e ≠ .app c (.prepend data))
    (hresult : m.state.machine.stepResult e = some (ok, w')) {pc : Pc} {g : EchoRecord}
    (hrecord : g = observe m.state m.record .run (some (e, ok)) ⟨w', pc⟩) :
  Worker.Streaming.Inv ⟨w', g.output⟩ ∧ Worker.Consuming.Inv ⟨w', g.input⟩ ∧ w'.Served
  := by
  obtain ⟨hadmits, hsettled⟩ := hruns
  have hstep : m.state.machine.step e = some w' := congrArg (Option.map Prod.snd) hresult
  subst hrecord
  refine ⟨?_, ?_, ?_⟩
  · have htakes : Worker.Streaming.Takes (fun _ data => data) m.state.machine e :=
      fun c data heq => absurd heq (hfits c data)
    apply h.output.step hadmits hsettled htakes
    change Option.map _ (m.state.machine.stepResult e) = _
    rw [hresult]
    rfl
  · apply h.input.step hadmits
    change Option.map _ (m.state.machine.stepResult e) = _
    rw [hresult]
    rfl
  · have hsize := h.output.safe.size_step (fun _ hk => hk) hadmits hstep
    exact h.served.step h.output.safe hadmits hsize (Worker.step_cases hresult)

/-- Only `append`, `prepend` and a new connection change the bytes that were handed to the write
buffer. -/
theorem echoed_next {taken : List UInt8 → List UInt8} {covered : List UInt8} {side : WriteSide}
    {g : StreamRecord} {l : WriteLabel} (hassign : l ≠ .assign)
    (happend : ∀ data, l ≠ .append data true) (hprepend : ∀ data, l ≠ .prepend data true) :
  (g.next taken covered side l).submitted ++ (g.next taken covered side l).built
    = g.submitted ++ g.built
  := by
  cases l with
  | append data ok =>
      cases ok with
      | true => exact absurd rfl (happend data)
      | false => rfl
  | prepend data ok =>
      cases ok with
      | true => exact absurd rfl (hprepend data)
      | false => rfl
  | submit => exact List.append_nil _
  | assign => exact absurd rfl hassign
  | _ => rfl

/-- Only `consume` and a new connection change the bytes that were consumed. -/
theorem consumed_next {removed : List UInt8} {side side' : ReadSide} {g : InputRecord}
    {l : ReadLabel} (hassign : l ≠ .assign) (hconsume : l ≠ .consume) :
  (g.next removed side side' l).consumed = g.consumed
  := by
  cases l with
  | assign => exact absurd rfl hassign
  | recv res idx data =>
      rw [InputRecord.next]
      split <;> rfl
  | consume => exact absurd rfl hconsume
  | _ => rfl

/-- An event that neither starts the connection on the channel `d` nor is a call on it leaves what
was relayed there. -/
theorem progresses_of_ne {x : Move} {pc : Pc} (hassigns : ¬ s.machine.Assigns d e)
    (hcall : ∀ op, e ≠ .app d op) (h : Progresses s g d .enter) :
  Progresses ⟨w', pc⟩ (observe s g x (some (e, ok)) ⟨w', pc⟩) d .enter
  := by
  have hlossy : (observe s g x (some (e, ok)) ⟨w', pc⟩).lossy d = g.lossy d := by
    change (if _ then _ else _) = _
    rw [if_neg hassigns, show loses s.machine d ok e = false from ?_, Bool.or_false]
    cases e with
    | app c op =>
        have hc : c ≠ d := fun heq => hcall op (heq ▸ rfl)
        cases op with
        | _ => simp [loses, hc]
    | _ => rfl
  have hechoed : (observe s g x (some (e, ok)) ⟨w', pc⟩).echoed d = g.echoed d := by
    apply echoed_next
    · intro hlabel
      exact hassigns (Worker.assigns_of_writeLabel (Worker.eq_some_of_labelAt hlabel (by simp)))
    · intro data hlabel
      cases Worker.labels_of_writeLabel (Worker.eq_some_of_labelAt hlabel (by simp)) with
      | append => exact hcall _ rfl
    · intro data hlabel
      cases Worker.labels_of_writeLabel (Worker.eq_some_of_labelAt hlabel (by simp)) with
      | prepend => exact hcall _ rfl
  have hconsumed : ((observe s g x (some (e, ok)) ⟨w', pc⟩).input d).consumed
      = (g.input d).consumed := by
    apply consumed_next
    · intro hlabel
      cases Worker.labels_of_readLabel (Worker.eq_some_of_readLabelAt hlabel (by simp)) with
      | assign h => exact hassigns h
    · intro hlabel
      cases Worker.labels_of_readLabel (Worker.eq_some_of_readLabelAt hlabel (by simp)) with
      | consume => exact hcall _ rfl
  rw [Progresses, hlossy, hechoed, hconsumed]
  exact h

/-- An event of the loop leaves what was relayed, or starts the connection anew. -/
theorem progresses_loop (hlets : lets s.machine s.pc e = true) (h : Progresses s g d .enter) :
  Progresses ⟨w', .enter⟩ (observe s g (.loop e) (some (e, ok)) ⟨w', .enter⟩) d .enter
  := by
  by_cases hassigns : s.machine.Assigns d e
  · have hwrite := Worker.writeLabel_of_assigns hassigns ok
    have hread := Worker.readLabel_of_assigns hassigns
    change Relays (if _ then _ else _) (StreamRecord.submitted (StreamRecord.next _ _ _ _
      (Worker.labelAt _ d)) ++ StreamRecord.built (StreamRecord.next _ _ _ _
      (Worker.labelAt _ d))) (InputRecord.consumed (InputRecord.next _ _ _ _
      (Worker.readLabelAt _ d)))
    rw [hwrite, hread, Worker.labelAt, Worker.readLabelAt, if_pos rfl, if_pos rfl]
    exact .nil _
  · apply progresses_of_ne hassigns _ h
    rintro op rfl
    cases hlets

/-! ### Calls of `on_read` -/

/-- The bytes that a call with the given result hands to the write buffer. -/
def hands (ok : Bool) : AppOp → List UInt8
  | .append data => if ok then data else []
  | _ => []

/-- What a call of `on_read` changes in the record of its channel. -/
theorem observe_call {op : AppOp} {pc : Pc} {g' : EchoRecord} (hop : ∀ data, op ≠ .prepend data)
    (hg : g' = observe s g .run (some (.app c op, ok)) ⟨w', pc⟩) :
  g'.lossy c = (g.lossy c || loses s.machine c ok (.app c op))
    ∧ g'.echoed c = g.echoed c ++ hands ok op
    ∧ (g'.input c).consumed = (g.input c).consumed ++ s.machine.removes ok (.app c op)
  := by
  have hwrite : ∀ l, Worker.labelAt (some (c, l)) c = l := fun _ => if_pos rfl
  have hread : ∀ l, Worker.readLabelAt (some (c, l)) c = l := fun _ => if_pos rfl
  subst hg
  refine ⟨?_, ?_, ?_⟩
  · change (if False then false else _) = _
    exact if_neg id
  · change StreamRecord.submitted (StreamRecord.next _ _ _ _ (Worker.labelAt _ c))
      ++ StreamRecord.built (StreamRecord.next _ _ _ _ (Worker.labelAt _ c)) = _
    cases op with
    | append data =>
        rw [Worker.writeLabel, hwrite]
        cases ok with
        | true => exact (List.append_assoc ..).symm
        | false => exact (List.append_nil _).symm
    | prepend data => exact absurd rfl (hop data)
    | submit =>
        rw [Worker.writeLabel, hwrite]
        cases ok with
        | true => rfl
        | false => exact (List.append_nil _).symm
    | _ =>
        rw [show s.machine.writeLabel ok _ = some (c, .quiet) from rfl, hwrite]
        exact (List.append_nil _).symm
  · change InputRecord.consumed (InputRecord.next _ _ _ _ (Worker.readLabelAt _ c)) = _
    cases op with
    | consume size =>
        rw [Worker.readLabel, hread]
        rfl
    | peek size =>
        rw [Worker.readLabel, hread]
        exact (List.append_nil _).symm
    | _ =>
        rw [show s.machine.readLabel _ = some (c, .quiet) from rfl, hread]
        exact (List.append_nil _).symm

/-- `peek` describes first bytes of the unread ones, or nothing if its counters have wrapped. -/
theorem gather_peek_prefix {b : ReadBufStream} {r : BufRing} (h : b.Sound r) {size : ℕ}
    {segments : List Segment} (hpeek : (b.peek r size).1 = some segments) :
  ReadBufStream.gather r segments <+: b.unread r
  := by
  rcases Nat.lt_or_ge b.readableBytes size with hgt | hle
  · rw [ReadBufStream.peek_of_gt hgt] at hpeek
    cases hpeek
  · rw [ReadBufStream.peek_of_le hle] at hpeek
    cases hpeek
    by_cases hwrap : b.queue.head ≤ b.queue.tail
    · rw [(h.segments_of_head_le hle hwrap).1]
      exact List.take_prefix ..
    · have hstop : b.peekLoop r b.queue.head size = [] := by
        rw [ReadBufStream.peekLoop, if_neg]
        exact fun hif => hwrap (BitVec.le_of_lt hif.1)
      rw [hstop]
      exact List.nil_prefix

/-- `append` and `peek` leave the ring and the unread bytes. -/
theorem read_of_call {op : AppOp}
    (hop : (∃ data, op = .append data) ∨ ∃ size, op = .peek size)
    (hresult : w.stepResult (.app c op) = some (ok, w')) :
  w'.thread.bufRing = w.thread.bufRing ∧ (w'.readSide c).unread = (w.readSide c).unread
  := by
  obtain ⟨⟨ok', ch, th⟩, hcall, heq⟩ := Option.map_eq_some_iff.mp hresult
  cases heq
  have hunread : (Worker.readSide (w.update c ch th) c).unread = ch.readBuf.unread th.bufRing :=
    congrArg ReadSide.unread (Worker.readSide_update_self w.ctl)
  rw [hunread]
  rcases hop with ⟨data, rfl⟩ | ⟨size, rfl⟩
  · obtain ⟨⟨ok, b, p⟩, -, heq⟩ := Option.map_eq_some_iff.mp hcall
    cases heq
    exact ⟨rfl, rfl⟩
  · cases hcall
    refine ⟨rfl, ?_⟩
    change ((w.channels c).readBuf.peek w.thread.bufRing size).2.unread w.thread.bufRing
      = (w.channels c).readBuf.unread w.thread.bufRing
    rw [ReadBufStream.peek]
    split <;> rfl

/-- A call of `on_read` keeps the account of the bytes. -/
theorem Progresses.call (h : Progresses s g c s.pc) (hapart : s.machine.Apart) {op : AppOp}
    {pc : Pc} (hexec : Executes s.machine c s.pc (some op) pc)
    (hresult : s.machine.stepResult (.app c op) = some (ok, w')) :
  Progresses ⟨w', pc⟩ (observe s g .run (some (.app c op, ok)) ⟨w', pc⟩) c pc
  := by
  generalize hg : observe s g .run (some (.app c op, ok)) ⟨w', pc⟩ = g'
  have hop : ∀ data, op ≠ .prepend data := by
    rintro data rfl
    generalize s.pc = pc₀ at hexec
    cases hexec
  obtain ⟨hlossy, hechoed, hconsumed⟩ := observe_call hop hg.symm
  have hlength : (s.machine.readSide c).unread.length
      = (s.machine.channels c).readBuf.readableBytes := (hapart.sound c).readable.symm
  rw [Progresses, hlossy, hechoed, hconsumed]
  obtain ⟨w, pc₀⟩ := s
  dsimp only at *
  cases hexec with
  | refused =>
      rw [show hands ok _ = [] from rfl, show w.removes ok _ = [] from rfl, List.append_nil,
        List.append_nil]
      exact Relays.or h _
  | @peeked avail segments havail hpeek =>
      obtain ⟨hring, hunread⟩ := read_of_call (.inr ⟨avail, rfl⟩) hresult
      rw [show hands ok _ = [] from rfl, show w.removes ok _ = [] from rfl, List.append_nil,
        List.append_nil]
      refine ⟨?_, [], ?_, ?_, ?_⟩
      · rw [hunread, hlength, havail]
      · rw [List.append_nil]
        exact Relays.or h _
      · rw [List.nil_append, hring, hunread]
        exact gather_peek_prefix (hapart.sound c) hpeek
      · intro hexact
        have hdescribes : describes w c avail = true := by
          have := (Bool.or_eq_false_iff.mp hexact).2
          simpa [loses] using this
        rw [describes, hpeek, havail, ← hlength, List.take_length] at hdescribes
        rw [List.nil_append, hring, hunread]
        simpa using hdescribes
  | @append seg segments avail =>
      obtain ⟨havail, handled, hrelays, hbegins, hexact⟩ := h
      obtain ⟨hring, hunread⟩ := read_of_call (.inl ⟨_, rfl⟩) hresult
      have hassoc : handled ++ ReadBufStream.gather w.thread.bufRing (seg :: segments)
          = handled ++ Store.read w.thread.bufRing.bufs seg.data seg.size
            ++ ReadBufStream.gather w.thread.bufRing segments := by
        rw [ReadBufStream.gather_cons, List.append_assoc]
      rw [hassoc] at hbegins hexact
      rw [show w.removes ok _ = [] from rfl, List.append_nil]
      refine ⟨?_, handled ++ Store.read w.thread.bufRing.bufs seg.data seg.size, ?_, ?_, ?_⟩
      · rw [hunread]
        exact havail
      · have happend := hrelays.append (Store.read w.thread.bufRing.bufs seg.data seg.size) ok
        rw [List.append_assoc] at happend
        simpa [loses, hands] using happend
      · rw [hring, hunread]
        exact hbegins
      · rw [hring, hunread]
        exact fun hlossy => hexact (Bool.or_eq_false_iff.mp hlossy).1
  | @consume avail =>
      obtain ⟨havail, hrelays⟩ := h
      have hremoves : w.removes ok (.app c (.consume avail)) = (w.readSide c).unread := by
        have hle : avail ≤ (w.channels c).readBuf.readableBytes := (havail.trans hlength).le
        obtain ⟨_, _, _, hrun, -⟩ := ReadBufStream.consume_of_le (hapart.sound c) hle
        obtain ⟨⟨_, _, _⟩, hcall, heq⟩ := Option.map_eq_some_iff.mp hresult
        cases heq
        rw [TcpChannel.call, hrun] at hcall
        cases hcall
        rw [Worker.removes, if_pos rfl, havail]
        exact List.take_length
      rw [hremoves, show hands ok _ = [] from rfl, List.append_nil,
        show loses w c ok _ = false from rfl, Bool.or_false]
      exact hrelays
  | submit =>
      rw [show hands ok _ = [] from rfl, show w.removes ok _ = [] from rfl, List.append_nil,
        List.append_nil]
      exact Relays.or h _

/-- A statement without a call. -/
theorem Progresses.quiet (h : Progresses s g c s.pc) {pc : Pc}
    (hexec : Executes s.machine c s.pc none pc) :
  Progresses ⟨s.machine, pc⟩ g c pc
  := by
  obtain ⟨w, pc₀⟩ := s
  cases hexec with
  | empty => exact h
  | looped =>
      obtain ⟨havail, handled, hrelays, hbegins, hexact⟩ := h
      rw [show ReadBufStream.gather _ [] = [] from rfl, List.append_nil] at hbegins hexact
      refine ⟨havail, ?_, ?_⟩
      · exact hrelays.sublist.trans ((List.Sublist.refl _).append hbegins.sublist)
      · intro hlossy
        rw [hrelays.exact hlossy, hexact hlossy]

/-- The loop goes on from `on_read` when it has returned. -/
theorem pc_of_lets {rest : List ℕ} (hctl : s.machine.ctl = .onRead c rest)
    (hlets : lets s.machine s.pc e = true)
    (hresult : s.machine.stepResult e = some (ok, w')) :
  s.pc = .done
  := by
  cases e with
  | submit =>
      rw [Worker.stepResult, if_neg (by simp [hctl])] at hresult
      cases hresult
  | complete =>
      cases hctl.symm.trans (Worker.ctl_of_complete hresult)
  | batchDone =>
      rw [Worker.stepResult, if_neg (by simp [hctl])] at hresult
      cases hresult
  | ret =>
      cases hpc : s.pc with
      | done => rfl
      | _ => simp [lets, returns, hctl, hpc] at hlets
  | app => cases hlets

/-- Every move of a run keeps the invariant. -/
theorem Inv.step (h : Inv m) {x : Move} (hruns : m.state.Runs Conn.Settled x)
    (hstep : m.step x = some m') :
  Inv m'
  := by
  obtain ⟨y, hresult, hrecord⟩ := Monitored.step_eq_some hstep
  obtain ⟨⟨w, pc⟩, g⟩ := m
  obtain ⟨⟨w', pc'⟩, g'⟩ := m'
  change g' = _ at hrecord
  cases Program.moves_of_stepResult hresult with
  | @loop e ok _ hlets hworker =>
      have hfits : ∀ c data, e ≠ .app c (.prepend data) := by
        rintro c data rfl
        cases hlets
      obtain ⟨houtput, hinput, hserved⟩ := h.worker_step hruns hfits hworker hrecord
      have hrelayed : ∀ c, Progresses ⟨w', .enter⟩ g' c .enter := by
        intro c
        have hbefore : Progresses ⟨w, pc⟩ g c .enter := by
          by_cases hread : ∃ rest, w.ctl = .onRead c rest
          · obtain ⟨rest, hctl⟩ := hread
            have hpc : pc = .done := pc_of_lets hctl hlets hworker
            subst hpc
            exact h.inside c rest hctl
          · exact h.outside c (fun rest hctl => hread ⟨rest, hctl⟩)
        rw [hrecord]
        exact progresses_loop hlets hbefore
      exact ⟨houtput, hinput, hserved, fun c _ _ => hrelayed c, fun c _ => hrelayed c⟩
  | quiet hstatement =>
      obtain ⟨c, rest, op, hctl, hcall, hexec⟩ := executes_of_program hstatement
      cases op with
      | some op => cases hcall
      | none =>
          subst hrecord
          refine ⟨h.output, h.input, h.served, ?_, h.outside⟩
          intro d rest' hctl'
          cases hctl.symm.trans hctl'
          exact (h.inside c rest hctl).quiet (hexec true)
  | @call e next ok _ hstatement hworker =>
      obtain ⟨c, rest, op, hctl, hcall, hexec⟩ := executes_of_program hstatement
      cases op with
      | none => cases hcall
      | some op =>
      cases hcall
      have hexec := hexec ok
      have hfits : ∀ d data, Event.app c op ≠ .app d (.prepend data) := by
        rintro d data ⟨⟩
        cases hexec
      have hruns : w.Runs Conn.Settled (.app c op) :=
        ⟨h.served.onRead_lt c rest hctl, Worker.meets_settled (by simp)⟩
      obtain ⟨houtput, hinput, hserved⟩ := h.worker_step hruns hfits hworker hrecord
      have hctl' : w'.ctl = .onRead c rest := by
        obtain ⟨⟨_, _, _⟩, -, heq⟩ := Option.map_eq_some_iff.mp hworker
        cases heq
        exact hctl
      refine ⟨houtput, hinput, hserved, ?_, ?_⟩
      · intro d rest' hread
        cases hctl'.symm.trans hread
        have hcall := (h.inside c rest hctl).call h.input.apart hexec hworker
        rw [← hrecord] at hcall
        exact hcall
      · intro d hread
        have hd : d ≠ c := fun heq => hread rest (heq ▸ hctl')
        have hother : Progresses ⟨w, pc⟩ g d .enter := by
          apply h.outside d
          intro rest' hread'
          cases hctl.symm.trans hread'
          exact hd rfl
        change Progresses ⟨w', next ok⟩ g' d .enter
        rw [hrecord]
        apply progresses_of_ne id _ hother
        rintro op' ⟨⟩
        exact hd rfl

/-- Everything that was echoed was received, also in the middle of `on_read`. -/
theorem Inv.relayed (h : Inv m) (c : ℕ) :
  (m.record.echoed c).Sublist ((m.record.input c).consumed ++ (m.state.machine.readSide c).unread)
    ∧ (m.record.lossy c = false →
      m.record.echoed c <+: (m.record.input c).consumed ++ (m.state.machine.readSide c).unread)
  := by
  have hpart : ∀ handled, Relays (m.record.lossy c) (m.record.echoed c)
      ((m.record.input c).consumed ++ handled) → handled <+: (m.state.machine.readSide c).unread →
      (m.record.echoed c).Sublist ((m.record.input c).consumed
        ++ (m.state.machine.readSide c).unread)
      ∧ (m.record.lossy c = false →
        m.record.echoed c <+: (m.record.input c).consumed
          ++ (m.state.machine.readSide c).unread) := by
    intro handled hrelays hbegins
    have hbegins' := (List.prefix_append_right_inj (m.record.input c).consumed).mpr hbegins
    refine ⟨hrelays.sublist.trans hbegins'.sublist, ?_⟩
    intro hlossless
    rw [hrelays.exact hlossless]
    exact hbegins'
  have hnone : Relays (m.record.lossy c) (m.record.echoed c) (m.record.input c).consumed →
      Relays (m.record.lossy c) (m.record.echoed c) ((m.record.input c).consumed ++ []) := by
    rw [List.append_nil]
    exact id
  by_cases hread : ∃ rest, m.state.machine.ctl = .onRead c rest
  · obtain ⟨rest, hctl⟩ := hread
    have hprogress := h.inside c rest hctl
    cases hpc : m.state.pc with
    | append segments avail =>
        rw [hpc] at hprogress
        obtain ⟨-, handled, hrelays, hbegins, -⟩ := hprogress
        exact hpart handled hrelays ((List.prefix_append _ _).trans hbegins)
    | consume avail =>
        rw [hpc] at hprogress
        exact hpart _ hprogress.2 List.prefix_rfl
    | _ =>
        rw [hpc] at hprogress
        exact hpart [] (hnone hprogress) List.nil_prefix
  · exact hpart [] (hnone (h.outside c (fun rest hctl => hread ⟨rest, hctl⟩))) List.nil_prefix

section

variable (depth : ℕ) {ringBits ringBufSize : ℕ} {hringPos : 0 < ringBufSize}
  {halloc : 2 ^ ringBits * ringBufSize < 2 ^ 31} (poolBits capBits : Fin 31) {bits bufSize : ℕ}
  {hbits : bits ≤ 30} {hpos : 0 < bufSize} {hlt : bufSize < 2 ^ 31} {pool : BufPool}

/-- At the start nothing has been received or echoed. -/
theorem inv_start (hpool : BufPool.new bits bufSize hbits hpos hlt = some pool)
    (hsmall : 2 ^ bits * bufSize < 2 ^ 31) :
  Inv (Echoing.start (Worker.start depth (BufRing.new ringBits ringBufSize hringPos halloc) pool
    poolBits capBits))
  := by
  constructor
  · exact Worker.Streaming.inv_start depth _ poolBits capBits hpool hsmall
  · exact Worker.Consuming.inv_start depth pool poolBits capBits
  · exact Worker.served_start ..
  · intro c rest hctl
    cases hctl
  · intro c _
    exact .nil _

/-- The echo server echoes.  In every run whose actions are settled, on every open channel whose
buffers were empty when it was assigned: the bytes that were acknowledged, that wait in the send
queue and that are not submitted yet are received bytes, in order and each at most once.  As long as
`append` had room for every segment, and `peek` described all of them, they are the first of the
received bytes; and then, outside `on_read` and until the stream ends, they and the unread bytes are
all of the received bytes. -/
theorem echoes_received_bytes (hpool : BufPool.new bits bufSize hbits hpos hlt = some pool)
    (hsmall : 2 ^ bits * bufSize < 2 ^ 31) {m : Echoing}
    (h : Reaches Echoing.step (fun m x => m.state.Runs Conn.Settled x)
      (Echoing.start (Worker.start depth (BufRing.new ringBits ringBufSize hringPos halloc) pool
        poolBits capBits)) m)
    {c : ℕ} (hc : c < m.state.machine.size) (hout : (m.record.output c).tracked = true)
    (hin : (m.record.input c).tracked = true)
    (hopen : (m.state.machine.channels c).isClosing = false) :
  let w := m.state.machine
  let echoed := (m.record.output c).acked ++ (w.channels c).writeBuf.unsent w.thread.bufPool
    ++ w.thread.bufPool.content (w.channels c).writeBuf.pendingList
  let received := (m.record.input c).received
  echoed.Sublist received
    ∧ (m.record.lossy c = false → echoed <+: received)
    ∧ (m.record.lossy c = false → (m.record.input c).ended = false →
        (∀ rest, w.ctl ≠ .onRead c rest) →
          echoed ++ (w.channels c).readBuf.unread w.thread.bufRing = received)
  := by
  have hinv : Inv m := by
    apply h.invariant (inv_start depth poolBits capBits hpool hsmall)
    exact fun _ _ _ hinv hruns hstep => hinv.step hruns hstep
  obtain ⟨hbuilt, hunsent⟩ := hinv.output.describes c hc hout (fun _ => hopen)
  have hfollows := hinv.input.follows c hin
  have hbytes : (m.record.output c).acked
      ++ (m.state.machine.channels c).writeBuf.unsent m.state.machine.thread.bufPool
      ++ m.state.machine.thread.bufPool.content (m.state.machine.channels c).writeBuf.pendingList
      = m.record.echoed c := congrArg₂ (· ++ ·) hunsent hbuilt
  obtain ⟨hsublist, hfirst⟩ := hinv.relayed c
  intro w echoed received
  rw [show echoed = m.record.echoed c from hbytes]
  refine ⟨?_, ?_, ?_⟩
  · exact hsublist.trans hfollows.begins.sublist
  · exact fun hlossless => (hfirst hlossless).trans hfollows.begins
  · intro hlossless hended hread
    have hrelays : Relays _ _ _ := hinv.outside c hread
    rw [hrelays.exact hlossless]
    exact hfollows.exact hended

end

/-- Three bytes arrive in two buffers and are echoed, and a fourth arrives while the kernel has
written two of them. -/
theorem echoes_received_bytes_three :
  ∃ pool m, BufPool.new 2 2 (by decide) (by decide) (by decide) = some pool
    ∧ Reaches Echoing.step (fun m x => m.state.Runs Conn.Settled x)
      (Echoing.start (Worker.start 8 (BufRing.new 2 2 (by decide) (by decide)) pool 0 2)) m
    ∧ (m.record.output 0).acked = [7, 8] ∧ (m.record.input 0).received = [7, 8, 9, 5]
    ∧ (m.record.output 0).acked
        ++ (m.state.machine.channels 0).writeBuf.unsent m.state.machine.thread.bufPool
        ++ m.state.machine.thread.bufPool.content (m.state.machine.channels 0).writeBuf.pendingList
        ++ (m.state.machine.channels 0).readBuf.unread m.state.machine.thread.bufRing
      = (m.record.input 0).received
  := by
  have hrun : (BufPool.new 2 2 (by decide) (by decide) (by decide)).bind (fun pool =>
      (Reaches.follow Echoing.step (fun m x => m.state.Runs Conn.Settled x)
        [.loop .submit, .loop (.complete 0 5 true 0 []), .loop .ret, .loop .batchDone,
          .loop .submit, .loop (.complete 2 2 true 0 [7, 8]), .loop (.complete 2 1 true 1 [9]),
          .loop .batchDone, .run, .run, .run, .run, .run, .run, .loop .ret, .loop .submit,
          .loop (.complete 3 2 false 0 []), .loop .ret, .loop (.complete 2 1 true 2 [5])]
        (Echoing.start (Worker.start 8 (BufRing.new 2 2 (by decide) (by decide)) pool 0 2))).map
          (fun m => (m.state.machine.size, m.state.machine.ctl,
            [(m.record.output 0).tracked, (m.record.input 0).tracked,
              (m.state.machine.channels 0).isClosing, m.record.lossy 0, (m.record.input 0).ended],
            (m.record.output 0).acked, (m.record.input 0).received)))
      = some (1, .batch, [true, true, false, false, false], [7, 8], [7, 8, 9, 5]) := by
    decide +kernel
  obtain ⟨pool, hpool, hfollow⟩ := Option.bind_eq_some_iff.mp hrun
  obtain ⟨m, hreach, hfinal⟩ := Reaches.of_follow _ hfollow
  obtain ⟨hsize, hctl, ⟨hout, hin, hopen, hlossless, hended, -⟩, hacked, hreceived⟩ := by
    simpa only [Prod.mk.injEq, List.cons.injEq] using hfinal
  have h := (echoes_received_bytes 8 0 2 hpool (by decide) hreach (by omega) hout hin hopen).2.2
    hlossless hended (by simp [hctl])
  exact ⟨pool, m, hpool, hreach, hacked, hreceived, h⟩

end TcpEchoServer

end Proactor
