import UringProactor.Core.BufRing
import UringProactor.Prelude.Circular

/-!
# The ring of entries

`BufRing` provides its buffers in `uring_ring_`, a ring of entries that the worker shares with the
kernel.  `add_buf` writes an entry behind those that are provided, `advance_ring` provides what was
written, and the kernel takes the entry that was provided first.

What the memory of the ring looks like is the matter of liburing and of the kernel.  Their functions
are the fields of `BufRingOps`, and what is assumed of them is `BufRingOps.Laws`; the functions of
`BufRing` call them.
-/

namespace Proactor

/-- `io_uring_buf`, an entry of the ring.  The address is an offset from `bufs_`. -/
structure UringBuf where
  addr : ℕ
  len : ℕ
  bid : BitVec 16
deriving DecidableEq

/-- The functions of liburing on the memory of a ring, and the kernel's on the same memory. -/
structure BufRingOps (Mem : Type) where
  /-- `io_uring_setup_buf_ring`, with the number of entries. -/
  setup : ℕ → Mem
  /-- `io_uring_buf_ring_add`, with the entry, the mask and the offset. -/
  add : Mem → UringBuf → ℕ → ℕ → Mem
  /-- `io_uring_buf_ring_advance`, with the number of entries. -/
  advance : Mem → ℕ → Mem
  /-- The kernel takes an entry, if there is one. -/
  take : Mem → Option (UringBuf × Mem)

/-- What is assumed of the functions on a ring of `2 ^ bits` entries, where `provided m` are the
entries that the kernel can take, in order, and `written m i` is the entry at the offset `i` behind
them.  Nothing is assumed of a call that the ring has no room for. -/
structure BufRingOps.Laws {Mem : Type} (ops : BufRingOps Mem) (bits : ℕ)
    (provided : Mem → List UringBuf) (written : Mem → ℕ → UringBuf) : Prop where
  /-- A new ring provides nothing. -/
  setup : provided (ops.setup (2 ^ bits)) = []
  /-- An entry that was written is not provided yet. -/
  provided_add : ∀ m b i, (provided m).length + i < 2 ^ bits →
    provided (ops.add m b (2 ^ bits - 1) i) = provided m
  /-- An entry is written at its offset, and the entries at other offsets stay. -/
  written_add : ∀ m b i j, (provided m).length + i < 2 ^ bits →
    (provided m).length + j < 2 ^ bits →
    written (ops.add m b (2 ^ bits - 1) i) j = if j = i then b else written m j
  /-- Advancing provides the first of the written entries. -/
  provided_advance : ∀ m n, (provided m).length + n ≤ 2 ^ bits →
    provided (ops.advance m n) = provided m ++ (List.range n).map (written m)
  /-- The kernel takes nothing from a ring that provides nothing. -/
  take_nil : ∀ m, provided m = [] → ops.take m = none
  /-- The kernel takes the entry that was provided first. -/
  take_cons : ∀ m b l, provided m = b :: l → ∃ m', ops.take m = some (b, m') ∧ provided m' = l

/-! ### The functions of `BufRing` -/

namespace BufRing

/-- The entry that `add_buf` passes for a buffer: the index is an `unsigned short`. -/
def bufEntry (r : BufRing) (buf : ℕ) : UringBuf :=
  ⟨buf, r.bufSize, BitVec.ofNat 16 (r.bufIndex buf)⟩

/-- `mask_`. -/
def mask (r : BufRing) : ℕ := r.bufNum - 1

/-- The entry of the buffer `i`. -/
def entry (r : BufRing) (i : ℕ) : UringBuf := ⟨i * r.bufSize, r.bufSize, BitVec.ofNat 16 i⟩

theorem bufEntry_mul (r : BufRing) (i : ℕ) :
  r.bufEntry (i * r.bufSize) = r.entry i
  := by
  rw [bufEntry, bufIndex, Nat.mul_div_cancel _ r.bufSize_pos]
  rfl

theorem bufEntry_bufAddr {r : BufRing} {i : ℕ} (hi : i < r.bufNum) :
  r.bufEntry (r.bufAddr i) = r.entry i
  := by
  rw [bufAddr_eq hi, bufEntry_mul]

/-- What the kernel reads from an entry. -/
theorem entry_spec {r : BufRing} {i : ℕ} (hi : i < r.bufNum) (hbits : r.bits ≤ 15) :
  (r.entry i).addr = r.bufAddr i ∧ (r.entry i).len = r.bufSize ∧ (r.entry i).bid.toNat = i
  := by
  have hlt : i < 2 ^ 15 := hi.trans_le (Nat.pow_le_pow_right (by decide) hbits)
  use (bufAddr_eq hi).symm, rfl
  rw [entry, BitVec.toNat_ofNat, Nat.mod_eq_of_lt (by omega)]

end BufRing

namespace BufRingOps

variable {Mem : Type}

/-- `BufRing::add_buf`. -/
def addBuf (ops : BufRingOps Mem) (r : BufRing) (m : Mem) (buf offset : ℕ) : Mem :=
  ops.add m (r.bufEntry buf) r.mask offset

/-- `BufRing::advance_ring`. -/
def advanceRing (ops : BufRingOps Mem) (m : Mem) (nr : ℕ) : Mem := ops.advance m nr

/-- `BufRing::release`, without `data_size_`. -/
def release (ops : BufRingOps Mem) (r : BufRing) (m : Mem) (idx : ℕ) : Mem :=
  ops.advanceRing (ops.addBuf r m (r.bufAddr idx) 0) 1

/-- `BufRing::BufRing`: all entries are written, and then the ring is advanced once. -/
def new (ops : BufRingOps Mem) (r : BufRing) : Mem :=
  ops.advanceRing ((List.range r.bufNum).foldl (fun m i => ops.addBuf r m (i * r.bufSize) i)
    (ops.setup r.bufNum)) r.bufNum

end BufRingOps

/-! ### The entries of the buffers -/

namespace BufRing

variable {Mem : Type} {ops : BufRingOps Mem} {provided : Mem → List UringBuf}
  {written : Mem → ℕ → UringBuf} {r : BufRing} {m : Mem} {i : ℕ} {l : List ℕ}

/-- The entries of the buffers in the list are provided, in order. -/
def Provides (provided : Mem → List UringBuf) (r : BufRing) (m : Mem) : Prop :=
  provided m = r.ring.map r.entry

/-- The constructor has written the first `n` entries. -/
theorem written_new (hlaws : ops.Laws r.bits provided written) {n : ℕ} (hn : n ≤ r.bufNum) :
  provided ((List.range n).foldl (fun m i => ops.addBuf r m (i * r.bufSize) i)
      (ops.setup r.bufNum)) = []
    ∧ ∀ i < n, written ((List.range n).foldl (fun m i => ops.addBuf r m (i * r.bufSize) i)
      (ops.setup r.bufNum)) i = r.entry i
  := by
  induction n with
  | zero =>
      use hlaws.setup
      intro i hi
      cases hi
  | succ n ih =>
      obtain ⟨hprovided, hwritten⟩ := ih (by omega)
      rw [List.range_succ, List.foldl_append, List.foldl_cons, List.foldl_nil]
      generalize (List.range n).foldl (fun m i => ops.addBuf r m (i * r.bufSize) i)
        (ops.setup r.bufNum) = m at hprovided hwritten ⊢
      have hroom : ∀ j ≤ n, (provided m).length + j < 2 ^ r.bits := by
        intro j hj
        rw [hprovided, List.length_nil]
        change n + 1 ≤ 2 ^ r.bits at hn
        omega
      rw [BufRingOps.addBuf, bufEntry_mul]
      constructor
      · apply (hlaws.provided_add m _ n (hroom n le_rfl)).trans hprovided
      · intro i hi
        apply (hlaws.written_add m _ n i (hroom n le_rfl) (hroom i (by omega))).trans
        split
        case isTrue heq => rw [heq]
        case isFalse hne => apply hwritten i (by omega)

/-- The constructor provides all buffers. -/
theorem provides_new (hlaws : ops.Laws r.bits provided written)
    (hring : r.ring = List.range r.bufNum) :
  r.Provides provided (ops.new r)
  := by
  obtain ⟨hprovided, hwritten⟩ := written_new hlaws le_rfl
  rw [Provides, BufRingOps.new, BufRingOps.advanceRing, hlaws.provided_advance, hprovided, hring,
    List.nil_append]
  · apply List.map_congr_left
    intro i hi
    apply hwritten i (List.mem_range.mp hi)
  · rw [hprovided, List.length_nil, Nat.zero_add]
    rfl

/-- A released buffer is provided behind the others, as long as there is room for it. -/
theorem Provides.release (h : r.Provides provided m) (hlaws : ops.Laws r.bits provided written)
    (hi : i < r.bufNum) (hroom : r.ring.length < r.bufNum) :
  provided (ops.release r m i) = (r.ring ++ [i]).map r.entry
  := by
  have hlength : (provided m).length + 0 < 2 ^ r.bits := by
    rw [h, List.length_map]
    apply hroom
  have hadd : provided (ops.addBuf r m (r.bufAddr i) 0) = provided m :=
    hlaws.provided_add m _ 0 hlength
  have hwritten : written (ops.addBuf r m (r.bufAddr i) 0) 0 = r.entry i := by
    rw [← bufEntry_bufAddr hi]
    apply (hlaws.written_add m _ 0 0 hlength hlength).trans (if_pos rfl)
  rw [BufRingOps.release, BufRingOps.advanceRing, hlaws.provided_advance _ _ (hadd ▸ hlength), hadd,
    h, List.map_append, List.map_singleton, List.range_one, List.map_singleton, hwritten]

/-- The buffers that are released one after the other. -/
theorem Provides.foldl_release (h : r.Provides provided m)
    (hlaws : ops.Laws r.bits provided written) (hl : ∀ i ∈ l, i < r.bufNum)
    (hroom : r.ring.length + l.length ≤ r.bufNum) :
  provided (l.foldl (ops.release r) m) = (r.ring ++ l).map r.entry
  := by
  induction l generalizing r m with
  | nil =>
      rw [List.append_nil]
      apply h
  | cons i l ih =>
      rw [List.length_cons] at hroom
      have hstep : BufRing.Provides provided { r with ring := r.ring ++ [i] } (ops.release r m i) :=
        h.release hlaws (hl i List.mem_cons_self) (by omega)
      have hrest := ih hstep hlaws (fun j hj => hl j (List.mem_cons_of_mem _ hj)) (by
        rw [List.length_append, List.length_singleton]
        change r.ring.length + 1 + l.length ≤ r.bufNum
        omega)
      rw [List.append_cons]
      apply hrest

/-- What the kernel takes is the entry of the first buffer of the list. -/
theorem Provides.take {b : UringBuf} {m' : Mem} (h : r.Provides provided m)
    (hlaws : ops.Laws r.bits provided written) (htake : ops.take m = some (b, m')) :
  ∃ i l, r.ring = i :: l ∧ b = r.entry i ∧ provided m' = l.map r.entry
  := by
  cases hring : r.ring with
  | nil =>
      rw [Provides, hring] at h
      rw [hlaws.take_nil m h] at htake
      cases htake
  | cons i l =>
      rw [Provides, hring] at h
      obtain ⟨m₁, htake', hrest⟩ := hlaws.take_cons m _ _ h
      cases htake.symm.trans htake'
      use i, l, rfl, rfl, hrest

end BufRing

/-! ### A ring that meets the laws -/

/-- A ring with a head and a tail of 16 bits, where the mask selects the place of an entry. -/
def BufRingOps.circular (bits : ℕ) : BufRingOps (Circular 16 UringBuf) where
  setup _ := ⟨fun _ => ⟨0, 0, 0⟩, 0, 0⟩
  add u b mask i :=
    { u with slots :=
      Function.update u.slots ((u.tail + BitVec.ofNat 16 i) &&& BitVec.ofNat 16 mask).toNat b }
  advance u n := { u with tail := u.tail + BitVec.ofNat 16 n }
  take u := if u.head = u.tail then none else some (u.front bits, u.pop)

/-- Up to `2 ^ 15` entries it meets the laws, however often the counters have wrapped. -/
theorem BufRingOps.circular_laws {bits : ℕ} (hbits : bits ≤ 15) :
  (circular bits).Laws bits (·.toList bits) (fun u i => u.get bits (u.tail + BitVec.ofNat 16 i))
  := by
  have hwidth : bits < 16 := by omega
  have hpow : 2 ^ bits < 2 ^ 16 := Circular.pow_lt_pow hwidth
  constructor
  case setup => apply (Circular.toList_eq_nil_iff _).mpr rfl
  case provided_add =>
    intro u b i hroom
    rw [Circular.length_toList] at hroom
    apply Circular.toList_set_tail_add hwidth b hroom
  case written_add =>
    intro u b i j hi hj
    apply Circular.get_set_tail_add hwidth u b (by omega) (by omega)
  case provided_advance =>
    intro u n hroom
    rw [Circular.length_toList] at hroom
    apply Circular.toList_advance (by omega)
  case take_nil =>
    intro u hnil
    apply if_pos ((Circular.toList_eq_nil_iff u).mp hnil)
  case take_cons =>
    intro u b l hcons
    have hne : u.head ≠ u.tail := by
      intro heq
      rw [(Circular.toList_eq_nil_iff u).mpr heq] at hcons
      cases hcons
    rw [Circular.toList_of_ne hne] at hcons
    obtain ⟨rfl, hrest⟩ := List.cons.inj hcons
    use u.pop, if_neg hne, hrest

end Proactor
