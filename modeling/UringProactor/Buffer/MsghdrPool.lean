import UringProactor.Buffer.WriteBuf

/-!
# Message headers

`MsghdrPool` owns the message headers of the datagrams a worker has in flight.  A
`MsghdrSlot` is a header with room for the address and for `max_iov` iovecs.  Every use of a
slot ends with `release`, which wipes it, so a slot in the free queue names no block.
-/

namespace Proactor

/-- `sizeof(sockaddr_storage)`. -/
def sockaddrStorage : ℕ := 128

/-- `MsghdrSlot`.  `msg_name` always points to `addr`, and `msg_iov` to `iov` from `submit` on,
so the two pointers are left out. -/
structure MsghdrSlot where
  /-- Whether `token_.channel_` is set. -/
  channel : Bool
  /-- `hdr.msg_namelen`. -/
  namelen : ℕ
  /-- `hdr.msg_iovlen`. -/
  iovlen : ℕ
  /-- The bytes of `addr`. -/
  addr : List UInt8
  /-- The array `iov`. -/
  iov : List IoVec

/-- `MsghdrPool`.  `capacity_` is `2 ^ bits`, and a slot is given by its index in `slots_`. -/
structure MsghdrPool where
  /-- `capacity_` is `2 ^ bits`, a positive `int`, and `mask_` is `2 ^ bits - 1`. -/
  bits : ℕ
  bits_le : bits ≤ 30
  /-- `max_iov_`. -/
  maxIov : ℕ
  maxIov_pos : 0 < maxIov
  /-- `slots_`. -/
  slots : ℕ → MsghdrSlot
  /-- `pool_` with `head_` and `tail_`. -/
  pool : Circular 32 ℕ

namespace MsghdrSlot

/-- The slot after its header, its address and its iovecs were overwritten with zeros and
`msg_namelen` was set. -/
def wipe (slot : MsghdrSlot) (maxIov : ℕ) : MsghdrSlot :=
  { slot with
    namelen := sockaddrStorage
    iovlen := 0
    addr := List.replicate sockaddrStorage 0
    iov := List.replicate maxIov ⟨0, 0⟩ }

/-- The slot after the address was copied to it. -/
def setAddr (slot : MsghdrSlot) (addr : List UInt8) : MsghdrSlot :=
  { slot with addr := addr ++ slot.addr.drop addr.length, namelen := addr.length }

/-- The iovecs of the header. -/
def msgIov (slot : MsghdrSlot) : List IoVec := slot.iov.take slot.iovlen

/-- The address of the header. -/
def msgName (slot : MsghdrSlot) : List UInt8 := slot.addr.take slot.namelen

/-- The arrays of a slot have their sizes. -/
structure Shaped (maxIov : ℕ) (slot : MsghdrSlot) : Prop where
  iov : slot.iov.length = maxIov
  addr : slot.addr.length = sockaddrStorage

theorem shaped_wipe (slot : MsghdrSlot) (maxIov : ℕ) :
  Shaped maxIov (slot.wipe maxIov)
  := ⟨List.length_replicate, List.length_replicate⟩

/-- An address that fits is the address of the header. -/
theorem Shaped.setAddr {maxIov : ℕ} {slot : MsghdrSlot} (h : Shaped maxIov slot)
    {addr : List UInt8} (haddr : addr.length ≤ sockaddrStorage) :
  Shaped maxIov (slot.setAddr addr) ∧ (slot.setAddr addr).msgName = addr
  := by
  refine ⟨⟨h.iov, ?_⟩, List.take_left ..⟩
  rw [MsghdrSlot.setAddr, List.length_append, List.length_drop, h.addr]
  omega

end MsghdrSlot

namespace MsghdrPool

/-- `capacity_`. -/
def capacity (m : MsghdrPool) : ℕ := 2 ^ m.bits

/-- The slots in the free queue, in the order in which they will be acquired. -/
def freeList (m : MsghdrPool) : List ℕ := m.pool.toList m.bits

/-- Replace a slot. -/
def set (m : MsghdrPool) (i : ℕ) (slot : MsghdrSlot) : MsghdrPool :=
  { m with slots := Function.update m.slots i slot }

/-- `MsghdrPool::MsghdrPool`. -/
def new (bits maxIov : ℕ) (hbits : bits ≤ 30) (hpos : 0 < maxIov) : MsghdrPool where
  bits := bits
  bits_le := hbits
  maxIov := maxIov
  maxIov_pos := hpos
  slots _ := MsghdrSlot.wipe ⟨false, 0, 0, [], []⟩ maxIov
  pool := (List.range (2 ^ bits)).foldl (fun q i => q.push bits i) ⟨fun _ => 0, 0, 0⟩

/-- `MsghdrPool::acquire`; `none` stands for the null pointer. -/
def acquire (m : MsghdrPool) : Option (ℕ × MsghdrPool) :=
  if m.pool.head = m.pool.tail then
    none
  else
    some (m.pool.front m.bits, { m with pool := m.pool.pop })

/-- `MsghdrPool::release`; `none` stands for the failed assertion. -/
def release (m : MsghdrPool) (i : ℕ) : Option MsghdrPool :=
  if m.pool.size < m.capacity then
    some { m.set i ((m.slots i).wipe m.maxIov) with pool := m.pool.push m.bits i }
  else
    none

theorem bits_lt (m : MsghdrPool) :
  m.bits < 32
  := by
  have := m.bits_le
  omega

theorem length_freeList (m : MsghdrPool) :
  m.freeList.length = m.pool.size
  := Circular.length_toList _

@[simp]
theorem set_slots_self (m : MsghdrPool) (i : ℕ) (slot : MsghdrSlot) :
  (m.set i slot).slots i = slot
  := Function.update_self ..

theorem set_slots_of_ne (m : MsghdrPool) {i j : ℕ} (slot : MsghdrSlot) (h : j ≠ i) :
  (m.set i slot).slots j = m.slots j
  := Function.update_of_ne h ..

/-- What holds of every slot holds of every slot after one is replaced. -/
theorem forall_set {P : MsghdrSlot → Prop} {m : MsghdrPool} (i : ℕ) {slot : MsghdrSlot}
    (h : ∀ j, P (m.slots j)) (hslot : P slot) (j : ℕ) :
  P ((m.set i slot).slots j)
  := by
  by_cases hj : j = i
  · rwa [hj, set_slots_self]
  · rw [set_slots_of_ne m slot hj]
    apply h j

/-- All slots of a new pool are free. -/
theorem freeList_new (bits maxIov : ℕ) (hbits : bits ≤ 30) (hpos : 0 < maxIov) :
  (new bits maxIov hbits hpos).freeList = List.range (2 ^ bits)
  := by
  change Circular.toList (List.foldl _ _ _) bits = _
  rw [Circular.toList_foldl_push (by omega)]
  · rw [(Circular.toList_eq_nil_iff _).mpr rfl, List.nil_append]
  · simp [Circular.size]

/-- Acquiring takes the first free slot, and fails when there is none. -/
theorem acquire_cases (m : MsghdrPool) :
  (m.freeList = [] ∧ m.acquire = none)
    ∨ ∃ i l, m.freeList = i :: l ∧ m.acquire = some (i, { m with pool := m.pool.pop })
      ∧ ({ m with pool := m.pool.pop } : MsghdrPool).freeList = l
  := by
  by_cases h : m.pool.head = m.pool.tail
  · left
    exact ⟨(Circular.toList_eq_nil_iff _).mpr h, if_pos h⟩
  · right
    exact ⟨_, _, Circular.toList_of_ne h, if_neg h, rfl⟩

/-- Releasing wipes the slot and puts it behind the free ones. -/
theorem release_of_lt {m : MsghdrPool} (i : ℕ) (h : m.freeList.length < m.capacity) :
  ∃ m', m.release i = some m' ∧ m'.bits = m.bits ∧ m'.maxIov = m.maxIov
    ∧ m'.slots = (m.set i ((m.slots i).wipe m.maxIov)).slots ∧ m'.freeList = m.freeList ++ [i]
  := by
  rw [length_freeList] at h
  refine ⟨_, if_pos h, rfl, rfl, rfl, ?_⟩
  apply Circular.toList_push m.bits_lt i h

end MsghdrPool

end Proactor
