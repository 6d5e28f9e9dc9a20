import UringProactor.Prelude.Machine
import UringProactor.Prelude.Ownership

/-!
# The ring of receive buffers

`BufRing` owns `buf_num` buffers of `buf_size` bytes in one allocation and provides them to
the kernel.  The kernel takes a buffer from the provided ring when it completes a receive
and fills it; `release` provides the buffer again.
-/

namespace Proactor

/-- `BufRing`.  The number of buffers is `2 ^ bits`, and the size of the allocation is the
`int` product of `buf_num` and `buf_size_`. -/
structure BufRing where
  /-- `buf_num_` is `2 ^ bits`. -/
  bits : ℕ
  /-- `buf_size_`. -/
  bufSize : ℕ
  bufSize_pos : 0 < bufSize
  alloc_lt : 2 ^ bits * bufSize < 2 ^ 31
  /-- The bytes at the offsets from `bufs_`. -/
  bufs : ℕ → UInt8
  /-- `data_size_`. -/
  dataSize : ℕ → ℕ
  /-- The indices of the buffers in `uring_ring_` that the kernel has not taken. -/
  ring : List ℕ

namespace BufRing

/-- `buf_num_`. -/
def bufNum (r : BufRing) : ℕ := 2 ^ r.bits

/-- `BufRing::buf_addr`, as an offset from `bufs_`: the product is unsigned. -/
def bufAddr (r : BufRing) (idx : ℕ) : ℕ := u32 (idx * r.bufSize)

/-- `BufRing::buf_index` of an offset from `bufs_`. -/
def bufIndex (r : BufRing) (buf : ℕ) : ℕ := buf / r.bufSize

/-- `BufRing::set_data_size`. -/
def setDataSize (r : BufRing) (idx size : ℕ) : BufRing :=
  { r with dataSize := Function.update r.dataSize idx size }

/-- `BufRing::add_buf` followed by `advance_ring`. -/
def addBuf (r : BufRing) (buf : ℕ) : BufRing :=
  { r with ring := r.ring ++ [r.bufIndex buf] }

/-- `BufRing::release`. -/
def release (r : BufRing) (idx : ℕ) : BufRing :=
  (r.addBuf (r.bufAddr idx)).setDataSize idx 0

/-- `BufRing::BufRing`: every buffer is added to the ring. -/
def new (bits bufSize : ℕ) (hpos : 0 < bufSize) (halloc : 2 ^ bits * bufSize < 2 ^ 31) :
    BufRing :=
  (List.range (2 ^ bits)).foldl (fun r i => r.addBuf (i * r.bufSize))
    ⟨bits, bufSize, hpos, halloc, fun _ => 0, fun _ => 0, []⟩

/-- The kernel takes the buffer `idx` from the ring and fills it. -/
def fill (r : BufRing) (idx : ℕ) (data : List UInt8) : BufRing :=
  { r with ring := r.ring.erase idx, bufs := Store.write r.bufs (r.bufAddr idx) data }

/-- The data bytes of a buffer. -/
def block (r : BufRing) (idx : ℕ) : List UInt8 :=
  Store.read r.bufs (r.bufAddr idx) (r.dataSize idx)

/-- The data bytes of a list of buffers, in order. -/
def content (r : BufRing) (idxs : List ℕ) : List UInt8 :=
  idxs.flatMap r.block

theorem bits_le (r : BufRing) :
  r.bits ≤ 30
  := by
  have hlt : 2 ^ r.bits < 2 ^ 31 :=
    Nat.lt_of_le_of_lt (Nat.le_mul_of_pos_right _ r.bufSize_pos) r.alloc_lt
  have := (Nat.pow_lt_pow_iff_right (by decide)).mp hlt
  omega

theorem bufAddr_eq {r : BufRing} {i : ℕ} (hi : i < r.bufNum) :
  r.bufAddr i = i * r.bufSize
  := by
  have hle : i * r.bufSize ≤ r.bufNum * r.bufSize := Nat.mul_le_mul_right _ (Nat.le_of_lt hi)
  have halloc : r.bufNum * r.bufSize < 2 ^ 31 := r.alloc_lt
  apply u32_of_lt
  omega

/-- The index of a buffer is recovered from its address. -/
theorem bufIndex_bufAddr {r : BufRing} {i : ℕ} (hi : i < r.bufNum) :
  r.bufIndex (r.bufAddr i) = i
  := by
  rw [bufIndex, bufAddr_eq hi, Nat.mul_div_cancel _ r.bufSize_pos]

/-- Releasing a buffer adds its index to the ring. -/
theorem ring_release {r : BufRing} {i : ℕ} (hi : i < r.bufNum) :
  (r.release i).ring = r.ring ++ [i]
  := by
  change r.ring ++ [r.bufIndex (r.bufAddr i)] = _
  rw [bufIndex_bufAddr hi]

/-- Adding buffers one after the other. -/
theorem foldl_addBuf (l : List ℕ) (r : BufRing) :
  l.foldl (fun r i => r.addBuf (i * r.bufSize)) r = { r with ring := r.ring ++ l }
  := by
  induction l generalizing r with
  | nil =>
      rw [List.append_nil]
      rfl
  | cons i l ih =>
      rw [List.foldl_cons, ih]
      simp [addBuf, bufIndex, Nat.mul_div_cancel _ r.bufSize_pos]

/-- A new ring provides all buffers. -/
theorem new_eq (bits bufSize : ℕ) (hpos : 0 < bufSize)
    (halloc : 2 ^ bits * bufSize < 2 ^ 31) :
  new bits bufSize hpos halloc
    = ⟨bits, bufSize, hpos, halloc, fun _ => 0, fun _ => 0, List.range (2 ^ bits)⟩
  := by
  rw [new, foldl_addBuf, List.nil_append]

/-! ### Filling and reading buffers -/

@[simp]
theorem length_block (r : BufRing) (i : ℕ) :
  (r.block i).length = r.dataSize i
  := Store.length_read ..

@[simp]
theorem content_cons (r : BufRing) (i : ℕ) (l : List ℕ) :
  r.content (i :: l) = r.block i ++ r.content l
  := List.flatMap_cons ..

@[simp]
theorem content_append (r : BufRing) (l l' : List ℕ) :
  r.content (l ++ l') = r.content l ++ r.content l'
  := List.flatMap_append ..

/-- A buffer holds the data the kernel filled it with. -/
theorem block_fill_self (r : BufRing) (i : ℕ) (data : List UInt8) :
  ((r.fill i data).setDataSize i data.length).block i = data
  := by
  simp only [block, fill, setDataSize, Function.update_self]
  apply Store.read_write_self

/-- Filling a buffer leaves the others as they are. -/
theorem block_fill_of_ne {r : BufRing} {i j size : ℕ} {data : List UInt8} (hi : i < r.bufNum)
    (hj : j < r.bufNum) (hij : j ≠ i) (hfit : data.length ≤ r.bufSize)
    (hsize : r.dataSize j ≤ r.bufSize) :
  ((r.fill i data).setDataSize i size).block j = r.block j
  := by
  simp only [block, fill, setDataSize, Function.update_of_ne hij]
  apply Store.read_write_of_disjoint
  change r.bufAddr j + _ ≤ r.bufAddr i ∨ _ ≤ r.bufAddr j
  rw [bufAddr_eq hi, bufAddr_eq hj]
  rcases Store.block_disjoint r.bufSize hij with hd | hd
  · left
    omega
  · right
    omega

/-! ### Released buffers -/

/-- `Released r r' l`: the ring `r'` is `r` after the buffers `l` were released to it, in
this order. -/
structure Released (r r' : BufRing) (l : List ℕ) : Prop where
  bits : r'.bits = r.bits
  bufSize : r'.bufSize = r.bufSize
  bufs : r'.bufs = r.bufs
  dataSize : ∀ i, r'.dataSize i = if i ∈ l then 0 else r.dataSize i
  ring : r'.ring = r.ring ++ l

theorem Released.refl (r : BufRing) :
  Released r r []
  := ⟨rfl, rfl, rfl, fun _ => rfl, by simp⟩

theorem Released.trans {r r' r'' : BufRing} {l l' : List ℕ} (h : Released r r' l)
    (h' : Released r' r'' l') :
  Released r r'' (l ++ l')
  := by
  constructor
  · rw [h'.bits, h.bits]
  · rw [h'.bufSize, h.bufSize]
  · rw [h'.bufs, h.bufs]
  · intro i
    rw [h'.dataSize, h.dataSize]
    by_cases hi : i ∈ l <;> by_cases hi' : i ∈ l' <;> simp [hi, hi']
  · rw [h'.ring, h.ring, List.append_assoc]

/-- Releasing one buffer. -/
theorem released {r : BufRing} {i : ℕ} (hi : i < r.bufNum) :
  Released r (r.release i) [i]
  := by
  constructor
  · rfl
  · rfl
  · rfl
  · intro j
    simp [release, setDataSize, addBuf, Function.update_apply]
  · apply ring_release hi

/-- A buffer that is not released keeps its bytes. -/
theorem Released.block_eq {r r' : BufRing} {l : List ℕ} (h : Released r r' l) {i : ℕ}
    (hi : i ∉ l) :
  r'.block i = r.block i
  := by
  rw [block, bufAddr, h.dataSize, if_neg hi, h.bufs, h.bufSize]
  rfl

/-- A buffer that is in neither ring keeps its bytes. -/
def Frames (r r' : BufRing) : Prop :=
  ∀ i < r.bufNum, i ∉ r.ring → i ∉ r'.ring → r'.block i = r.block i

/-- The kernel fills a buffer of the ring. -/
theorem frames_fill {r : BufRing} {idx : ℕ} {data : List UInt8} (hidx : idx ∈ r.ring)
    (hlt : idx < r.bufNum) (hfit : data.length ≤ r.bufSize)
    (hsize : ∀ i, r.dataSize i ≤ r.bufSize) :
  Frames r (r.fill idx data)
  := by
  intro i hi hring _
  have hne : i ≠ idx := by
    rintro rfl
    exact hring hidx
  have hblock : ((r.fill idx data).setDataSize idx (r.dataSize idx)).block i = r.block i :=
    block_fill_of_ne hlt hi hne hfit (hsize i)
  rw [setDataSize, show (r.fill idx data).dataSize = r.dataSize from rfl,
    Function.update_eq_self] at hblock
  exact hblock

end BufRing

end Proactor
