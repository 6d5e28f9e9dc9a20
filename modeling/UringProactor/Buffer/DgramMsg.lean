import UringProactor.Buffer.Receive

/-!
# Received datagrams

A multishot `recvmsg` fills a provided buffer with a header, the address of the sender and the
payload, and `DgramMsg` finds the parts in the buffer again, with functions of `liburing`.  These
functions are a parameter here, and so is the way in which a packet is laid out in a buffer; what is
assumed is that the functions find the parts of every packet that is laid out in this way.  What
`peek` gives the application is then the packet that the kernel put into the first queued buffer.
-/

namespace Proactor

/-- The fields of a `msghdr` that a received packet is laid out by. -/
structure RecvMsghdr where
  /-- `msg_namelen`. -/
  namelen : ℕ
  /-- `msg_controllen`. -/
  controllen : ℕ
deriving DecidableEq

/-- `recv_msghdr_` of a `ReadBufDgram`, with `sizeof(sockaddr_in)`. -/
def recvMsghdr : RecvMsghdr := ⟨16, 0⟩

/-- What `liburing` has for received packets.  Pointers are offsets from `BufRing::bufs_`, and the
first argument is the memory there. -/
structure RecvmsgOps where
  /-- `io_uring_recvmsg_validate(buf, size, msghdr)`, with `none` for the null pointer. -/
  validate : (ℕ → UInt8) → ℕ → ℕ → RecvMsghdr → Option ℕ
  /-- `io_uring_recvmsg_name(out)`. -/
  name : (ℕ → UInt8) → ℕ → ℕ
  /-- `out->namelen`. -/
  namelen : (ℕ → UInt8) → ℕ → ℕ
  /-- `io_uring_recvmsg_payload(out, msghdr)`. -/
  payload : (ℕ → UInt8) → ℕ → RecvMsghdr → ℕ
  /-- `io_uring_recvmsg_payload_length(out, size, msghdr)`. -/
  payloadLength : (ℕ → UInt8) → ℕ → ℕ → RecvMsghdr → ℕ

/-- `DgramMsg`, with pointers as offsets from `BufRing::bufs_`. -/
structure DgramMsg where
  /-- `buf_`. -/
  buf : ℕ
  /-- `size_`. -/
  size : ℕ
  /-- `out_`. -/
  out : ℕ
  /-- `msghdr_`. -/
  msghdr : RecvMsghdr
deriving DecidableEq

section

variable (ops : RecvmsgOps) (bufs : ℕ → UInt8)

namespace DgramMsg

/-- `DgramMsg::DgramMsg`; `none` stands for the failed assertion. -/
def new (buf size : ℕ) (msghdr : RecvMsghdr) : Option DgramMsg :=
  (ops.validate bufs buf size msghdr).map (fun out => ⟨buf, size, out, msghdr⟩)

/-- `DgramMsg::peer_addr`. -/
def peerAddr (m : DgramMsg) : ℕ := ops.name bufs m.out

/-- `DgramMsg::peer_namelen`. -/
def peerNamelen (m : DgramMsg) : ℕ := ops.namelen bufs m.out

/-- `DgramMsg::payload`. -/
def payload (m : DgramMsg) : ℕ := ops.payload bufs m.out m.msghdr

/-- `DgramMsg::payload_length`. -/
def payloadLength (m : DgramMsg) : ℕ := ops.payloadLength bufs m.out m.size m.msghdr

end DgramMsg

/-- `ReadBufDgram::peek`; the outer `none` stands for the failed assertion of `DgramMsg`, the inner
one for the null pointer. -/
def ReadBufDgram.peek (s : ReadBufDgram) (r : BufRing) : Option (Option DgramMsg) :=
  if s.queue.head = s.queue.tail then
    some none
  else
    let idx := s.queue.front s.bits
    (DgramMsg.new ops r.bufs (r.bufAddr idx) (r.dataSize idx) recvMsghdr).map some

/-! ### Packets -/

/-- What a received packet tells: the address of the sender, and the payload. -/
structure Packet where
  name : List UInt8
  payload : List UInt8
deriving DecidableEq

/-- The packet as the application reads it through the accessors. -/
def DgramMsg.packet (m : DgramMsg) : Packet where
  name := Store.read bufs (m.peerAddr ops bufs) (m.peerNamelen ops bufs)
  payload := Store.read bufs (m.payload ops bufs) (m.payloadLength ops bufs)

/-- What is assumed of `liburing`, where `parse` is the packet that the bytes of a buffer hold, if
they hold one: the bytes of a packet, if an `int` can count them, are valid, and the accessors read
the packet. -/
structure RecvmsgOps.Reads (parse : List UInt8 → Option Packet) : Prop where
  valid : ∀ {bufs : ℕ → UInt8} {buf size : ℕ} {p : Packet}, size < 2 ^ 31 →
    parse (Store.read bufs buf size) = some p →
      ∃ m, DgramMsg.new ops bufs buf size recvMsghdr = some m ∧ m.packet ops bufs = p

end

namespace ReadBufDgram

variable {ops : RecvmsgOps} {parse : List UInt8 → Option Packet} {s : ReadBufDgram} {r : BufRing}

/-- `peek` shows the packet in the first queued buffer. -/
theorem peek_spec (hops : ops.Reads parse) (hsound : s.toReadBufBase.Sound r)
    (hparse : ∀ i ∈ s.queueList, (parse (r.block i)).isSome) :
  ∃ result, s.peek ops r = some result
    ∧ result.map (DgramMsg.packet ops r.bufs) = s.queueList.head?.bind (fun i => parse (r.block i))
  := by
  rw [peek]
  split
  case isTrue hempty =>
    have hnil : s.queueList = [] := (Circular.toList_eq_nil_iff _).mpr hempty
    rw [hnil]
    exact ⟨none, rfl, rfl⟩
  case isFalse hne =>
    have hlist : s.queueList = s.queue.front s.bits :: s.queue.pop.toList s.bits :=
      Circular.toList_of_ne hne
    generalize s.queue.front s.bits = idx at hlist
    have hmem : idx ∈ s.queueList := by
      rw [hlist]
      exact List.mem_cons_self
    have hsize : r.dataSize idx < 2 ^ 31 := by
      have hone : 1 * r.bufSize ≤ 2 ^ r.bits * r.bufSize :=
        Nat.mul_le_mul_right _ (Nat.one_le_two_pow)
      have := hsound.size_le idx
      have := r.alloc_lt
      omega
    obtain ⟨p, hp⟩ := Option.isSome_iff_exists.mp (hparse idx hmem)
    obtain ⟨m, hnew, hpacket⟩ := hops.valid hsize hp
    use some m
    constructor
    · dsimp only
      rw [hnew]
      rfl
    · rw [hlist, List.head?_cons, Option.bind_some, hp, ← hpacket]
      rfl

end ReadBufDgram

/-! ### A layout -/

namespace Packet

/-- The layout of a packet with a header of 16 bytes, of which the first four are the length of the
address, room for the address that the message header asks for, and the payload. -/
def parse (data : List UInt8) : Option Packet :=
  let namelen := Nat.ofDigits 256 ((data.take 4).map UInt8.toNat)
  if 16 + recvMsghdr.namelen ≤ data.length ∧ namelen ≤ recvMsghdr.namelen then
    some ⟨(data.drop 16).take namelen, data.drop (16 + recvMsghdr.namelen)⟩
  else
    none

/-- The bytes of a packet in this layout, with zeros in the fields and the room that are not used. -/
def encode (p : Packet) : List UInt8 :=
  UInt8.ofNat p.name.length :: List.replicate 15 0
    ++ (p.name ++ List.replicate (recvMsghdr.namelen - p.name.length) 0) ++ p.payload

/-- Functions that find the parts of a packet in this layout. -/
def ops : RecvmsgOps where
  validate _ buf size msghdr := if 16 + msghdr.namelen ≤ size then some buf else none
  name _ out := out + 16
  namelen bufs out := Nat.ofDigits 256 ((Store.read bufs out 4).map UInt8.toNat)
  payload _ out msghdr := out + (16 + msghdr.namelen)
  payloadLength _ _ size msghdr := size - (16 + msghdr.namelen)

/-- The assumptions can be met. -/
theorem ops_reads :
  ops.Reads parse
  := by
  constructor
  intro bufs buf size p _ hparse
  rw [parse, Store.length_read] at hparse
  obtain ⟨⟨hheader, hname⟩, hp⟩ := Option.ite_none_right_eq_some.mp hparse
  cases hp
  have hfour : 4 ≤ size := le_trans (by decide) hheader
  rw [Store.take_read _ hfour] at hname ⊢
  have hfits : Nat.ofDigits 256 ((Store.read bufs buf 4).map UInt8.toNat) ≤ size - 16 := by omega
  refine ⟨⟨buf, size, buf, recvMsghdr⟩, ?_, ?_⟩
  · rw [DgramMsg.new, show ops.validate bufs buf size recvMsghdr = some buf from if_pos hheader]
    rfl
  · rw [Store.drop_read, Store.drop_read, Store.take_read _ hfits]
    rfl

end Packet

end Proactor
