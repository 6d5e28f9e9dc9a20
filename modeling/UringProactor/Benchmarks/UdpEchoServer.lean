import UringProactor.Core.Inbox
import UringProactor.Core.Outbox
import UringProactor.Prelude.Program

/-!
# The UDP echo server

`UdpEchoServer` is a worker whose application runs `on_read` statement by statement: as long as
there is a packet, it appends the payload to the write buffer, submits it to the address the packet
came from, and consumes the packet.  If the kernel writes packets as `liburing` reads them, the
datagrams that are sent are the payloads of received packets, sent back to where they came from, in
order and each at most once; a packet is not answered only if `append` or `submit` failed, or if
`io_uring_get_sqe` has failed.
-/

namespace Proactor

namespace UdpEchoServer

/-- Where control is in `on_read`: at the head of the loop, before the three calls on a packet, or
after the loop. -/
inductive Pc where
  | loop
  | append (msg : DgramMsg)
  | submit (msg : DgramMsg)
  | consume
  | done
deriving DecidableEq

end UdpEchoServer

/-- A UDP echo server with one worker.  Outside `on_read` the place of control is its start. -/
abbrev UdpEchoServer := Program.State UdpWorker UdpEchoServer.Pc

namespace UdpEchoServer

/-- A move of the server: an event of the loop of its worker, or a statement of `on_read`. -/
abbrev Move := Program.Move UdpEvent

/-- The next statement of `on_read`.  The payload and the address are read when they are passed to
`append` and `submit`. -/
def statement (ops : RecvmsgOps) (w : UdpWorker) : Pc → Option (Option UdpEvent × (Bool → Pc))
  | .loop =>
      (w.channel.readBuf.peek ops w.thread.bufRing).map (fun msg =>
        (none, fun _ => msg.elim .done .append))
  | .append msg =>
      some (some (.app (.append (msg.packet ops w.thread.bufRing.bufs).payload)),
        fun ok => if ok then .submit msg else .consume)
  | .submit msg =>
      some (some (.app (.submit (msg.packet ops w.thread.bufRing.bufs).name)), fun _ => .consume)
  | .consume => some (some (.app .consume), fun _ => .loop)
  | .done => none

/-- The events of the loop that the application lets happen: it makes no calls but those of
`on_read`, which returns at its end; `on_write` returns at once. -/
def lets (w : UdpWorker) (pc : Pc) : UdpEvent → Bool
  | .app _ => false
  | .ret => w.ctl ≠ .onRead || pc = .done
  | _ => true

/-- `UdpEchoServer`: `on_read` as a program on a worker. -/
def program (ops : RecvmsgOps) : Program UdpWorker UdpEvent Pc where
  machine := UdpWorker.stepResult
  entry := .loop
  lets := lets
  statement w pc := if w.ctl = .onRead then statement ops w pc else none

variable {ops : RecvmsgOps} {parse : List UInt8 → Option Packet}

/-- `on_read` runs when the loop has called it. -/
theorem statement_of_program {w : UdpWorker} {pc : Pc} {x : Option UdpEvent × (Bool → Pc)}
    (h : (program ops).statement w pc = some x) :
  w.ctl = .onRead ∧ statement ops w pc = some x
  := Option.ite_none_right_eq_some.mp h

/-- The moves of a run: completions are as the kernel promises. -/
def Runs (parse : List UInt8 → Option Packet) (s : UdpEchoServer) : Move → Prop
  | .loop e => s.machine.Admits e ∧ s.machine.Packs parse e
  | .run => True

instance (s : UdpEchoServer) (x : Move) : Decidable (s.Runs parse x) :=
  match x with
  | .loop e => inferInstanceAs (Decidable (s.machine.Admits e ∧ s.machine.Packs parse e))
  | .run => inferInstanceAs (Decidable True)

/-! ### The monitor -/

/-- What a monitor records: the datagrams on the way out, the packets on the way in, and whether
`on_read` failed to answer one of them. -/
structure EchoRecord where
  outbox : UdpWorker.OutboxRecord := {}
  inbox : UdpWorker.InboxRecord := {}
  lossy : Bool := false

/-- An event with the given result loses a packet that is to be echoed. -/
def loses (ok : Bool) : UdpEvent → Bool
  | .app (.append _) => !ok
  | .app (.submit _) => !ok
  | _ => false

/-- The record after a move. -/
def observe (s : UdpEchoServer) (g : EchoRecord) (_ : Move) (y : Option (UdpEvent × Bool))
    (s' : UdpEchoServer) : EchoRecord :=
  match y with
  | none => g
  | some (e, ok) => {
      outbox := UdpWorker.OutboxRecord.observe s.machine g.outbox e ok s'.machine
      inbox := UdpWorker.InboxRecord.observe s.machine g.inbox e ok s'.machine
      lossy := g.lossy || loses ok e }

/-- A server with the record of its packets. -/
abbrev Echoing := Monitored UdpEchoServer EchoRecord

/-- A move of the server and its monitor. -/
def Echoing.step (ops : RecvmsgOps) (m : Echoing) (x : Move) : Option Echoing :=
  Monitored.step (program ops).stepResult observe m x

/-- The server when its worker enters the loop. -/
def Echoing.start (w : UdpWorker) : Echoing := ⟨⟨w, .loop⟩, {}⟩

/-- The datagram that answers a packet: its payload, to the address it came from. -/
def reply (parse : List UInt8 → Option Packet) (data : List UInt8) :
    Option (List UInt8 × List UInt8) :=
  (parse data).map (fun p => (p.name, p.payload))

/-- The submitted datagrams answer the packets with the given bytes. -/
def Answers (parse : List UInt8 → Option Packet) (g : EchoRecord) (packets : List (List UInt8)) :
    Prop :=
  Relays g.lossy (g.outbox.submitted.map some) (packets.map (reply parse))

/-- The message shows the first packet in the read buffer. -/
def Shows (ops : RecvmsgOps) (parse : List UInt8 → Option Packet) (w : UdpWorker)
    (msg : DgramMsg) : Prop :=
  ∃ data rest, w.unreadPackets = data :: rest
    ∧ parse data = some (msg.packet ops w.thread.bufRing.bufs)

/-- What holds at a place of control in `on_read`: what is built, which packets have been answered,
and which packet the message shows. -/
def Progress (ops : RecvmsgOps) (parse : List UInt8 → Option Packet) (w : UdpWorker)
    (g : EchoRecord) : Pc → Prop
  | .loop => g.outbox.built = [] ∧ Answers parse g g.inbox.taken
  | .append msg => g.outbox.built = [] ∧ Answers parse g g.inbox.taken ∧ Shows ops parse w msg
  | .submit msg =>
      g.outbox.built = (msg.packet ops w.thread.bufRing.bufs).payload
        ∧ Answers parse g g.inbox.taken ∧ Shows ops parse w msg
  | .consume =>
      g.outbox.built = [] ∧ ∃ data rest, w.unreadPackets = data :: rest
        ∧ Answers parse g (g.inbox.taken ++ [data])
  | .done => g.outbox.built = [] ∧ Answers parse g g.inbox.taken ∧ w.unreadPackets = []

/-- The records of both directions are right, `on_read` has answered the packets before the one it
is at, and outside `on_read` there is no packet left to answer. -/
structure Inv (ops : RecvmsgOps) (parse : List UInt8 → Option Packet) (m : Echoing) : Prop where
  outbox : UdpWorker.Mailing.Inv ⟨m.state.machine, m.record.outbox⟩
  inbox : UdpWorker.Receiving.Inv ⟨m.state.machine, m.record.inbox⟩
  packed : m.state.machine.Packed parse
  inside : m.state.machine.ctl = .onRead →
    Progress ops parse m.state.machine m.record m.state.pc
  outside : m.state.machine.ctl ≠ .onRead → Progress ops parse m.state.machine m.record .done

variable {m m' : Echoing} {s s' : UdpEchoServer} {g : EchoRecord} {w w' : UdpWorker} {e : UdpEvent}
  {ok : Bool}

/-- The part of the invariant that is about the worker goes on to hold. -/
theorem Inv.machine_step (h : Inv ops parse m) (hadmits : m.state.machine.Admits e)
    (hpacks : m.state.machine.Packs parse e) (hbounded : m.state.machine.Bounded e)
    (hresult : m.state.machine.stepResult e = some (ok, w')) {x : Move} {pc : Pc} {g : EchoRecord}
    (hrecord : g = observe m.state m.record x (some (e, ok)) ⟨w', pc⟩) :
  UdpWorker.Mailing.Inv ⟨w', g.outbox⟩ ∧ UdpWorker.Receiving.Inv ⟨w', g.inbox⟩ ∧ w'.Packed parse
  := by
  subst hrecord
  have hinbox : UdpWorker.Receiving.step ⟨m.state.machine, m.record.inbox⟩ e
      = some ⟨w', UdpWorker.InboxRecord.observe m.state.machine m.record.inbox e ok w'⟩ := by
    change Option.map _ (m.state.machine.stepResult e) = _
    rw [hresult]
    rfl
  obtain ⟨hinv, ok', kept, hcarries⟩ := h.inbox.step hadmits hinbox
  refine ⟨?_, hinv, h.packed.step hpacks hcarries⟩
  apply h.outbox.step hadmits hbounded
  change Option.map _ (m.state.machine.stepResult e) = _
  rw [hresult]
  rfl

/-! ### Events of the loop -/

/-- An event that is not a call leaves what is built, submitted and taken. -/
theorem progress_of_not_call {x : Move} (he : ∀ op, e ≠ .app op)
    (h : Progress ops parse s.machine g .loop) :
  Progress ops parse s'.machine (observe s g x (some (e, ok)) s') .loop
  := by
  have htakes : s.machine.takes ok e = none := UdpWorker.takes_of_ne (he .consume)
  have hquiet : DatagramRecord.accept g.outbox.built e ok = g.outbox.built
      ∧ e.recipient? ok = none ∧ loses ok e = false := by
    cases e with
    | app op => exact absurd rfl (he op)
    | _ => exact ⟨rfl, rfl, rfl⟩
  obtain ⟨hbuilt, hrecipient, hloses⟩ := hquiet
  simpa [Progress, Answers, observe, UdpWorker.OutboxRecord.observe, UdpWorker.InboxRecord.observe,
    hbuilt, hrecipient, hloses, htakes] using h

/-- An event that is not a call brings a packet and calls `on_read`, or leaves the read buffer. -/
theorem unread_of_not_call (hreads : UdpWorker.Reads w e ok w') (he : ∀ op, e ≠ .app op)
    (hctl : w'.ctl ≠ .onRead) (h : w.unreadPackets = []) :
  w'.unreadPackets = []
  := by
  have hqueue : w.channel.readBuf.queueList = [] := List.map_eq_nil_iff.mp h
  apply List.map_eq_nil_iff.mpr
  cases hreads with
  | rests _ _ hreadBuf => rw [hreadBuf, hqueue]
  | received _ _ hread => exact absurd hread hctl
  | lost _ _ hreadBuf => rw [hreadBuf, hqueue]
  | consumed => exact absurd rfl (he _)

/-- The loop goes on from `on_read` when it has returned. -/
theorem pc_of_lets {pc : Pc} (hctl : w.ctl = .onRead) (hlets : lets w pc e = true)
    (hresult : w.stepResult e = some (ok, w')) :
  pc = .done
  := by
  cases e with
  | ret => simpa [lets, hctl] using hlets
  | app => cases hlets
  | _ => simp [UdpWorker.stepResult, hctl] at hresult

/-! ### Statements of `on_read` -/

/-- `peek` shows the next packet, or there is none. -/
theorem Progress.peek (h : Progress ops parse w g .loop) (hops : ops.Reads parse)
    (hsound : w.channel.readBuf.toReadBufBase.Sound w.thread.bufRing) (hpacked : w.Packed parse)
    {next : Bool → Pc} (hstatement : statement ops w .loop = some (none, next)) :
  Progress ops parse w g (next true)
  := by
  obtain ⟨hbuilt, hanswers⟩ := h
  obtain ⟨result, hpeek, hpacket⟩ := hpacked.peek hops hsound
  rw [statement, hpeek] at hstatement
  cases hstatement
  cases hunread : w.unreadPackets with
  | nil =>
      rw [hunread] at hpacket
      obtain rfl : result = none := Option.map_eq_none_iff.mp hpacket
      exact ⟨hbuilt, hanswers, hunread⟩
  | cons data rest =>
      obtain ⟨p, hp, -⟩ := hpacked data (by rw [hunread]; exact List.mem_cons_self)
      rw [hunread, List.head?_cons, Option.bind_some] at hpacket
      obtain ⟨msg, rfl, hmsg⟩ := Option.map_eq_some_iff.mp (hpacket.trans hp)
      refine ⟨hbuilt, hanswers, data, rest, hunread, ?_⟩
      rw [hmsg]
      exact hp

/-- A call that leaves the read side leaves the packets in the read buffer. -/
theorem unread_of_rests {op : UdpOp} (hop : op ≠ .consume)
    (hreads : UdpWorker.Reads w (.app op) ok w') :
  w'.unreadPackets = w.unreadPackets ∧ w'.thread.bufRing = w.thread.bufRing
  := by
  cases hreads with
  | rests _ _ hreadBuf hring =>
      refine ⟨UdpWorker.unreadPackets_congr hreadBuf ?_, hring⟩
      rw [hring]
      exact fun _ _ => rfl
  | consumed => exact absurd rfl hop

/-- A call of `on_read` answers the packet it is at, or is recorded as a loss. -/
theorem Progress.call {pc : Pc} (h : Progress ops parse w g pc)
    (hsound : w.channel.readBuf.toReadBufBase.Sound w.thread.bufRing)
    {next : Bool → Pc} (hstatement : statement ops w pc = some (some e, next))
    (hreads : UdpWorker.Reads w e ok w') {x : Move} :
  Progress ops parse w' (observe ⟨w, pc⟩ g x (some (e, ok)) ⟨w', next ok⟩) (next ok)
  := by
  cases pc with
  | loop =>
      obtain ⟨msg, -, heq⟩ := Option.map_eq_some_iff.mp hstatement
      cases heq
  | append msg =>
      cases hstatement
      obtain ⟨hbuilt, hanswers, data, rest, hunread, hpacket⟩ := h
      obtain ⟨hpackets, hring⟩ := unread_of_rests (by simp) hreads
      rw [← hpackets] at hunread
      cases ok with
      | true =>
          refine ⟨?_, ?_, data, rest, hunread, ?_⟩
          · simp [observe, UdpWorker.OutboxRecord.observe, DatagramRecord.accept, hbuilt, hring]
          · simpa [Answers, observe, UdpWorker.OutboxRecord.observe, UdpWorker.InboxRecord.observe,
              UdpEvent.recipient?, loses, UdpWorker.takes] using hanswers
          · rw [hring]
            exact hpacket
      | false =>
          refine ⟨?_, data, rest, hunread, ?_⟩
          · simp [observe, UdpWorker.OutboxRecord.observe, DatagramRecord.accept, hbuilt]
          · simpa [Answers, observe, UdpWorker.OutboxRecord.observe, UdpWorker.InboxRecord.observe,
              UdpEvent.recipient?, loses, UdpWorker.takes]
              using Relays.append hanswers [reply parse data] false
  | submit msg =>
      cases hstatement
      obtain ⟨hbuilt, hanswers, data, rest, hunread, hpacket⟩ := h
      obtain ⟨hpackets, -⟩ := unread_of_rests (by simp) hreads
      rw [← hpackets] at hunread
      refine ⟨rfl, data, rest, hunread, ?_⟩
      have hreply : reply parse data
          = some ((msg.packet ops w.thread.bufRing.bufs).name, g.outbox.built) := by
        rw [reply, hpacket, hbuilt]
        rfl
      have happend := Relays.append hanswers [reply parse data] ok
      cases ok <;>
      simpa [Answers, observe, UdpWorker.OutboxRecord.observe, UdpWorker.InboxRecord.observe,
        UdpEvent.recipient?, loses, UdpWorker.takes, hreply] using happend
  | consume =>
      cases hstatement
      obtain ⟨hbuilt, data, rest, hunread, hanswers⟩ := h
      cases hreads with
      | rests he => exact absurd rfl he
      | consumed hconsume =>
          obtain ⟨hpackets, hok⟩ := UdpWorker.unread_consumed hsound hconsume
          obtain rfl : ok = true := hok (by simp [hunread])
          have htakes : w.takes true (.app .consume) = some data := by
            rw [UdpWorker.takes, if_pos rfl, ← List.head?_map]
            change w.unreadPackets.head? = _
            rw [hunread]
            rfl
          refine ⟨hbuilt, ?_⟩
          simpa [Answers, observe, UdpWorker.OutboxRecord.observe, UdpWorker.InboxRecord.observe,
            UdpEvent.recipient?, loses, htakes] using hanswers
  | done => cases hstatement

/-- The calls of `on_read` can happen: the address of a packet fits in `sockaddr_storage`. -/
theorem Progress.admits {pc : Pc} (h : Progress ops parse w g pc) (hpacked : w.Packed parse)
    {next : Bool → Pc} (hstatement : statement ops w pc = some (some e, next)) :
  w.Admits e ∧ w.Packs parse e ∧ w.Bounded e ∧ ∃ op, e = .app op
  := by
  have hpacks : ∀ op, w.Packs parse (.app op) := by
    intro op data hmem
    cases hmem
  cases pc with
  | loop =>
      obtain ⟨msg, -, heq⟩ := Option.map_eq_some_iff.mp hstatement
      cases heq
  | append msg =>
      cases hstatement
      exact ⟨trivial, hpacks _, trivial, _, rfl⟩
  | submit msg =>
      cases hstatement
      refine ⟨?_, hpacks _, trivial, _, rfl⟩
      obtain ⟨-, -, data, rest, hunread, hpacket⟩ := h
      obtain ⟨p, hp, hfits⟩ := hpacked data (by simp [hunread])
      obtain rfl : msg.packet ops w.thread.bufRing.bufs = p :=
        Option.some.inj (hpacket.symm.trans hp)
      exact hfits
  | consume =>
      cases hstatement
      exact ⟨trivial, hpacks _, trivial, _, rfl⟩
  | done => cases hstatement

/-- Every move of a run keeps the invariant. -/
theorem Inv.step (hops : ops.Reads parse) (h : Inv ops parse m) {x : Move}
    (hruns : m.state.Runs parse x) (hstep : m.step ops x = some m') :
  Inv ops parse m'
  := by
  obtain ⟨y, hresult, hrecord⟩ := Monitored.step_eq_some hstep
  obtain ⟨⟨w, pc⟩, g⟩ := m
  obtain ⟨⟨w', pc'⟩, g'⟩ := m'
  change g' = _ at hrecord
  have hsound : w.channel.readBuf.toReadBufBase.Sound w.thread.bufRing := h.inbox.receives.sound
  have hpacked : w.Packed parse := h.packed
  cases Program.moves_of_stepResult hresult with
  | @loop e ok _ hlets hmachine =>
      obtain ⟨hadmits, hpacks⟩ := hruns
      have he : ∀ op, e ≠ .app op := by
        rintro op rfl
        cases hlets
      have hbounded : w.Bounded e := by
        cases e with
        | app op => exact absurd rfl (he op)
        | _ => trivial
      obtain ⟨houtbox, hinbox, hpacked'⟩ := h.machine_step hadmits hpacks hbounded hmachine hrecord
      have hdone : Progress ops parse w g .done := by
        by_cases hctl : w.ctl = .onRead
        · have hpc : pc = .done := pc_of_lets hctl hlets hmachine
          subst hpc
          exact h.inside hctl
        · exact h.outside hctl
      obtain ⟨hbuilt, hanswers, hunread⟩ := hdone
      have hprogress : Progress ops parse w' g' .loop := by
        rw [hrecord]
        exact progress_of_not_call he ⟨hbuilt, hanswers⟩
      refine ⟨houtbox, hinbox, hpacked', fun _ => hprogress, ?_⟩
      intro hctl
      obtain ⟨hreads, -⟩ := h.inbox.inv.reads h.inbox.awake hadmits hmachine
      exact ⟨hprogress.1, hprogress.2, unread_of_not_call hreads he hctl hunread⟩
  | @quiet next hstatement =>
      obtain rfl : g' = g := hrecord
      obtain ⟨hctl, hstatement⟩ := statement_of_program hstatement
      refine ⟨h.outbox, h.inbox, h.packed, fun _ => ?_, h.outside⟩
      have hprogress : Progress ops parse w g' pc := h.inside hctl
      cases pc with
      | loop => exact hprogress.peek hops hsound hpacked hstatement
      | _ => cases hstatement
  | @call e next ok _ hstatement hmachine =>
      obtain ⟨hctl, hstatement⟩ := statement_of_program hstatement
      have hprogress : Progress ops parse w g pc := h.inside hctl
      obtain ⟨hadmits, hpacks, hbounded, op, rfl⟩ := hprogress.admits hpacked hstatement
      obtain ⟨houtbox, hinbox, hpacked'⟩ := h.machine_step hadmits hpacks hbounded hmachine hrecord
      have hctl' : w'.ctl = .onRead := by
        obtain ⟨⟨_, _, _⟩, -, heq⟩ := Option.map_eq_some_iff.mp hmachine
        cases heq
        exact hctl
      refine ⟨houtbox, hinbox, hpacked', fun _ => ?_, fun hne => absurd hctl' hne⟩
      obtain ⟨hreads, -⟩ := h.inbox.inv.reads h.inbox.awake hadmits hmachine
      change Progress ops parse w' g' (next ok)
      rw [hrecord]
      exact hprogress.call hsound hstatement hreads

/-- Everything that was submitted answers a packet, also in the middle of `on_read`. -/
theorem Inv.answered (h : Inv ops parse m) :
  (m.record.outbox.submitted.map some).Sublist (m.record.inbox.received.map (reply parse))
  := by
  -- The packets that were answered, and those in the read buffer that were not.
  obtain ⟨packets, rest, hpackets, hanswers⟩ : ∃ packets rest,
      m.record.inbox.taken ++ m.state.machine.unreadPackets = packets ++ rest
      ∧ Answers parse m.record packets := by
    by_cases hctl : m.state.machine.ctl = .onRead
    · have hprogress := h.inside hctl
      cases hpc : m.state.pc with
      | consume =>
          rw [hpc] at hprogress
          obtain ⟨-, data, rest, hunread, hanswers⟩ := hprogress
          refine ⟨_, rest, ?_, hanswers⟩
          rw [hunread, List.append_assoc]
          rfl
      | loop =>
          rw [hpc] at hprogress
          exact ⟨_, _, rfl, hprogress.2⟩
      | _ =>
          rw [hpc] at hprogress
          exact ⟨_, _, rfl, hprogress.2.1⟩
    · exact ⟨_, _, rfl, (h.outside hctl).2.1⟩
  have hqueued : (packets ++ rest).Sublist m.record.inbox.received := by
    rw [← hpackets]
    exact h.inbox.receives.queued
  apply hanswers.sublist.trans
  exact ((List.sublist_append_left _ rest).trans hqueued).map _

section

variable {depth : ℕ} {fd : Int} {ringBits ringBufSize : ℕ} {hringPos : 0 < ringBufSize}
  {halloc : 2 ^ ringBits * ringBufSize < 2 ^ 31} {bits bufSize : ℕ} {hbits : bits ≤ 30}
  {hpos : 0 < bufSize} {hlt : bufSize < 2 ^ 31} {pool : BufPool} {slotBits maxIov : ℕ}
  {hslot : slotBits ≤ 30} {hmax : 0 < maxIov} {capBits : Fin 31}

/-- At the start nothing has been received or echoed. -/
theorem inv_start (ops : RecvmsgOps) (parse : List UInt8 → Option Packet)
    (hpool : BufPool.new bits bufSize hbits hpos hlt = some pool)
    (hbytes : 2 ^ bits * bufSize < 2 ^ 31) :
  Inv ops parse (Echoing.start (UdpWorker.start depth fd
    (BufRing.new ringBits ringBufSize hringPos halloc) pool (.new slotBits maxIov hslot hmax)
    capBits))
  := by
  refine ⟨UdpWorker.Mailing.inv_start hpool hbytes, UdpWorker.Receiving.inv_start hpool hbytes,
    UdpWorker.packed_start parse _ _, ?_, ?_⟩
  · intro hctl
    cases hctl
  · intro _
    exact ⟨rfl, .nil _, List.map_eq_nil_iff.mpr ((Circular.toList_eq_nil_iff _).mpr rfl)⟩

/-- The echo server echoes.  Let `ops` be the functions of `liburing`, which read the packets that
`parse` finds (`RecvmsgOps.Reads`).  In every run in which the kernel writes such packets, the
datagrams that were submitted are answers to packets received, in order and each at most once: an
answer has the payload of the packet and goes to the address the packet came from.  Each of them is
carried by one outstanding `sendmsg`, or queued, or its `sendmsg` has completed.  Outside `on_read`,
as long as `append`, `submit` and `io_uring_get_sqe` have succeeded, every packet received has been
answered. -/
theorem answers_received_packets (hops : ops.Reads parse)
    (hpool : BufPool.new bits bufSize hbits hpos hlt = some pool)
    (hbytes : 2 ^ bits * bufSize < 2 ^ 31) {m : Echoing}
    (h : Reaches (Echoing.step ops) (fun m x => m.state.Runs parse x)
      (Echoing.start (UdpWorker.start depth fd (BufRing.new ringBits ringBufSize hringPos halloc)
        pool (.new slotBits maxIov hslot hmax) capBits)) m) :
  let w := m.state.machine
  let submitted := m.record.outbox.submitted
  let answers := m.record.inbox.received.map (reply parse)
  (submitted.map some).Sublist answers
    ∧ ((w.channel.writeBuf.slotList ++ w.thread.ioRing.outbox).map w.datagram
      ++ m.record.outbox.completed).Perm submitted
    ∧ (m.record.lossy = false → w.thread.ioRing.failed = false → w.ctl ≠ .onRead →
      submitted.map some = answers)
  := by
  have hinv : Inv ops parse m := by
    apply h.invariant (inv_start ops parse hpool hbytes)
    exact fun _ _ _ hinv hruns hstep => hinv.step hops hruns hstep
  refine ⟨hinv.answered, hinv.outbox.all, ?_⟩
  intro hlossless hsucceeded hctl
  obtain ⟨-, hanswers, hunread⟩ := hinv.outside hctl
  have hexact : m.record.inbox.taken ++ m.state.machine.unreadPackets = m.record.inbox.received :=
    hinv.inbox.receives.exact hsucceeded
  rw [hunread, List.append_nil] at hexact
  rw [← hexact]
  exact hanswers.exact hlossless

end

/-- A packet of three bytes and an empty one arrive, and both are answered. -/
theorem answers_received_packets_two :
  ∃ pool m, BufPool.new 2 2 (by decide) (by decide) (by decide) = some pool
    ∧ Reaches (Echoing.step Packet.ops) (fun m x => m.state.Runs Packet.parse x)
      (Echoing.start (UdpWorker.start 8 5 (BufRing.new 1 40 (by decide) (by decide)) pool
        (.new 2 2 (by decide) (by decide)) 2)) m
    ∧ m.record.inbox.received = [Packet.encode ⟨[2, 0], [1, 2, 3]⟩, Packet.encode ⟨[2, 1], []⟩]
    ∧ m.record.outbox.submitted = [([2, 0], [1, 2, 3]), ([2, 1], [])]
    ∧ m.record.outbox.submitted.map some = m.record.inbox.received.map (reply Packet.parse)
  := by
  have hrun : (BufPool.new 2 2 (by decide) (by decide) (by decide)).bind (fun pool =>
      (Reaches.follow (Echoing.step Packet.ops) (fun m x => m.state.Runs Packet.parse x)
        [.loop .submit, .loop (.complete 0 35 true 0 (Packet.encode ⟨[2, 0], [1, 2, 3]⟩)), .run,
          .run, .run, .run, .run, .loop .ret,
          .loop (.complete 0 32 true 1 (Packet.encode ⟨[2, 1], []⟩)), .run, .run, .run, .run, .run,
          .loop .ret]
        (Echoing.start (UdpWorker.start 8 5 (BufRing.new 1 40 (by decide) (by decide)) pool
          (.new 2 2 (by decide) (by decide)) 2))).map
        (fun m => (m.record.inbox.received, m.record.outbox.submitted, m.state.machine.ctl,
          [m.record.lossy, m.state.machine.thread.ioRing.failed])))
      = some ([Packet.encode ⟨[2, 0], [1, 2, 3]⟩, Packet.encode ⟨[2, 1], []⟩],
        [([2, 0], [1, 2, 3]), ([2, 1], [])], .batch, [false, false]) := by
    decide +kernel
  obtain ⟨pool, hpool, hfollow⟩ := Option.bind_eq_some_iff.mp hrun
  obtain ⟨m, hreach, hfinal⟩ := Reaches.of_follow _ hfollow
  obtain ⟨hreceived, hsubmitted, hctl, hlossless, hsucceeded, -⟩ := by
    simpa only [Prod.mk.injEq, List.cons.injEq] using hfinal
  have hexact := (answers_received_packets Packet.ops_reads hpool (by decide) hreach).2.2 hlossless
    hsucceeded (by rw [hctl]; decide)
  exact ⟨pool, m, hpool, hreach, hreceived, hsubmitted, hexact⟩

end UdpEchoServer

end Proactor
