import UringProactor.Prelude.Circular
import UringProactor.Prelude.Machine
import UringProactor.Prelude.Ownership

/-!
# The pool of write blocks

`BufPool` owns `buf_num` blocks of `buf_size` bytes in one allocation, the number of data
bytes in each block, and the queue of free block indices.  An assertion of the source that
fails ends the program; `none` stands for that.
-/

namespace Proactor

/-- `BufPool`.  The number of blocks is `2 ^ bits`, a positive `int`. -/
structure BufPool where
  /-- `buf_num_` is `2 ^ bits`, and `mask_` is `2 ^ bits - 1`. -/
  bits : ℕ
  bits_le : bits ≤ 30
  /-- `buf_size_`, a positive `int`. -/
  bufSize : ℕ
  bufSize_pos : 0 < bufSize
  bufSize_lt : bufSize < 2 ^ 31
  /-- The bytes at the offsets from `bufs_`. -/
  bufs : ℕ → UInt8
  /-- `data_size_`. -/
  dataSize : ℕ → ℕ
  /-- `free_idx_queue_` with `head_` and `tail_`. -/
  free : Circular 32 ℕ

namespace BufPool

/-- `buf_num_`. -/
def bufNum (p : BufPool) : ℕ := 2 ^ p.bits

/-- `BufPool::buf_addr`, as an offset from `bufs_`: the product is unsigned. -/
def bufAddr (p : BufPool) (idx : ℕ) : ℕ := u32 (idx * p.bufSize)

/-- `BufPool::buf_index` of an offset from `bufs_`. -/
def bufIndex (p : BufPool) (buf : ℕ) : ℕ := u32 (buf / p.bufSize)

/-- `BufPool::set_data_size`. -/
def setDataSize (p : BufPool) (idx size : ℕ) : BufPool :=
  { p with dataSize := Function.update p.dataSize idx size }

/-- `std::copy` of `data` to the offset `addr` from `bufs_`. -/
def copy (p : BufPool) (addr : ℕ) (data : List UInt8) : BufPool :=
  { p with bufs := Store.write p.bufs addr data }

/-- `BufPool::acquire`; `none` stands for `invalid_idx`. -/
def acquire (p : BufPool) : Option (ℕ × BufPool) :=
  if p.free.head = p.free.tail then
    none
  else
    some (p.free.front p.bits, { p with free := p.free.pop })

/-- `BufPool::release`. -/
def release (p : BufPool) (idx : ℕ) : Option BufPool :=
  if p.free.size < p.bufNum then
    some { p with
      free := p.free.push p.bits idx
      dataSize := Function.update p.dataSize idx 0 }
  else
    none

/-- `BufPool::BufPool`: every block is empty and is released to the free queue. -/
def new (bits bufSize : ℕ) (hbits : bits ≤ 30) (hpos : 0 < bufSize) (hlt : bufSize < 2 ^ 31) :
    Option BufPool :=
  (List.range (2 ^ bits)).foldlM release
    ⟨bits, hbits, bufSize, hpos, hlt, fun _ => 0, fun _ => 0, ⟨fun _ => 0, 0, 0⟩⟩

/-- The free block indices, in the order in which they will be acquired. -/
def freeList (p : BufPool) : List ℕ := p.free.toList p.bits

/-- The data bytes of a block. -/
def block (p : BufPool) (idx : ℕ) : List UInt8 :=
  Store.read p.bufs (p.bufAddr idx) (p.dataSize idx)

/-- The data bytes of a list of blocks, in order. -/
def content (p : BufPool) (idxs : List ℕ) : List UInt8 :=
  idxs.flatMap p.block

/-! ### The free queue -/

theorem bits_lt (p : BufPool) :
  p.bits < 32
  := by
  have := p.bits_le
  omega

theorem length_freeList (p : BufPool) :
  p.freeList.length = p.free.size
  := Circular.length_toList _

/-- Acquiring fails exactly when no block is free. -/
theorem acquire_of_nil {p : BufPool} (h : p.freeList = []) :
  p.acquire = none
  := if_pos ((Circular.toList_eq_nil_iff _).mp h)

/-- Acquiring takes the first free block. -/
theorem acquire_of_cons {p : BufPool} {i : ℕ} {l : List ℕ} (h : p.freeList = i :: l) :
  p.acquire = some (i, { p with free := p.free.pop })
    ∧ ({ p with free := p.free.pop } : BufPool).freeList = l
  := by
  have hne : p.free.head ≠ p.free.tail := by
    intro heq
    rw [freeList, (Circular.toList_eq_nil_iff _).mpr heq] at h
    cases h
  have hcons := Circular.toList_of_ne (k := p.bits) hne
  rw [freeList, hcons] at h
  obtain ⟨hfront, hrest⟩ := List.cons.inj h
  constructor
  · rw [acquire, if_neg hne, hfront]
  · exact hrest

/-- What is acquired was the first free block. -/
theorem acquire_eq_some {p p' : BufPool} {i : ℕ} (h : p.acquire = some (i, p')) :
  ∃ l, p.freeList = i :: l ∧ p' = { p with free := p.free.pop }
  := by
  cases hfree : p.freeList with
  | nil =>
      rw [acquire_of_nil hfree] at h
      cases h
  | cons j l =>
      rw [(acquire_of_cons hfree).1] at h
      cases h
      use l

/-- `Returned p p' l`: the pool `p'` is `p` after the blocks `l` were released to it, in
this order. -/
structure Returned (p p' : BufPool) (l : List ℕ) : Prop where
  bits : p'.bits = p.bits
  bufSize : p'.bufSize = p.bufSize
  bufs : p'.bufs = p.bufs
  dataSize : ∀ i, p'.dataSize i = if i ∈ l then 0 else p.dataSize i
  freeList : p'.freeList = p.freeList ++ l

/-- Empty blocks are returned, and the others have the sizes they have in `q`. -/
theorem Returned.dataSize_eq {p p' q : BufPool} {l : List ℕ} (h : Returned p p' l)
    (hzero : ∀ i ∈ l, q.dataSize i = 0) (hother : ∀ i, i ∉ l → p.dataSize i = q.dataSize i)
    (i : ℕ) :
  p'.dataSize i = q.dataSize i
  := by
  rw [h.dataSize]
  split
  case isTrue hi => exact (hzero i hi).symm
  case isFalse hi => exact hother i hi

/-- Releasing a block appends it to the free queue and empties it. -/
theorem release_of_lt {p : BufPool} (i : ℕ) (h : p.freeList.length < p.bufNum) :
  ∃ p', p.release i = some p' ∧ Returned p p' [i]
  := by
  rw [length_freeList] at h
  use { p with
    free := p.free.push p.bits i
    dataSize := Function.update p.dataSize i 0 }
  constructor
  · rw [release, if_pos h]
  · constructor
    · rfl
    · rfl
    · rfl
    · intro j
      simp [Function.update_apply]
    · apply Circular.toList_push p.bits_lt i h

theorem Returned.refl (p : BufPool) :
  Returned p p []
  := ⟨rfl, rfl, rfl, fun _ => rfl, by simp⟩

theorem Returned.trans {p p' p'' : BufPool} {l l' : List ℕ} (h : Returned p p' l)
    (h' : Returned p' p'' l') :
  Returned p p'' (l ++ l')
  := by
  constructor
  · rw [h'.bits, h.bits]
  · rw [h'.bufSize, h.bufSize]
  · rw [h'.bufs, h.bufs]
  · intro i
    rw [h'.dataSize, h.dataSize]
    by_cases hi : i ∈ l <;> by_cases hi' : i ∈ l' <;> simp [hi, hi']
  · rw [h'.freeList, h.freeList, List.append_assoc]

/-- Releasing blocks one after the other succeeds as long as the pool has room for
them. -/
theorem release_all (l : List ℕ) {p : BufPool} (h : p.freeList.length + l.length ≤ p.bufNum) :
  ∃ p', l.foldlM release p = some p' ∧ Returned p p' l
  := by
  induction l generalizing p with
  | nil =>
      use p
      constructor
      · rfl
      · apply Returned.refl
  | cons i l ih =>
      rw [List.length_cons] at h
      obtain ⟨p₁, hp₁, hr₁⟩ := release_of_lt (p := p) i (by omega)
      have hroom : p₁.freeList.length + l.length ≤ p₁.bufNum := by
        rw [hr₁.freeList, bufNum, hr₁.bits, List.length_append]
        unfold bufNum at h
        simp only [List.length_cons, List.length_nil]
        omega
      obtain ⟨p₂, hp₂, hr₂⟩ := ih hroom
      use p₂
      constructor
      · rw [List.foldlM_cons, hp₁]
        apply hp₂
      · apply hr₁.trans hr₂

/-- A new pool exists, its blocks are empty, and they are all free. -/
theorem new_spec (bits bufSize : ℕ) (hbits : bits ≤ 30) (hpos : 0 < bufSize)
    (hlt : bufSize < 2 ^ 31) :
  ∃ p, new bits bufSize hbits hpos hlt = some p ∧ p.bits = bits ∧ p.bufSize = bufSize
    ∧ p.freeList = List.range (2 ^ bits) ∧ ∀ i, p.dataSize i = 0
  := by
  have h := release_all (List.range (2 ^ bits))
    (p := ⟨bits, hbits, bufSize, hpos, hlt, fun _ => 0, fun _ => 0, ⟨fun _ => 0, 0, 0⟩⟩)
    (by simp [freeList, Circular.size, bufNum])
  obtain ⟨p, hp, hr⟩ := h
  use p, hp, hr.bits, hr.bufSize
  constructor
  · rw [hr.freeList]
    simp [freeList, Circular.toList, Circular.size]
  · intro i
    rw [hr.dataSize]
    split <;> rfl

/-- The blocks of a new pool are empty, and they are all free. -/
theorem of_new {bits bufSize : ℕ} {hbits : bits ≤ 30} {hpos : 0 < bufSize}
    {hlt : bufSize < 2 ^ 31} {p : BufPool} (h : new bits bufSize hbits hpos hlt = some p) :
  p.bits = bits ∧ p.bufSize = bufSize ∧ p.freeList = List.range (2 ^ bits)
    ∧ ∀ i, p.dataSize i = 0
  := by
  obtain ⟨p', hp', hspec⟩ := new_spec bits bufSize hbits hpos hlt
  rw [h] at hp'
  cases hp'
  exact hspec

/-! ### Addresses and blocks -/

/-- The offsets of all blocks are below `2 ^ 32`. -/
def Addressable (p : BufPool) : Prop := p.bufNum * p.bufSize < 2 ^ 31

theorem addressable_of_new {bits bufSize : ℕ} {hbits : bits ≤ 30} {hpos : 0 < bufSize}
    {hlt : bufSize < 2 ^ 31} {p : BufPool} (h : new bits bufSize hbits hpos hlt = some p)
    (halloc : 2 ^ bits * bufSize < 2 ^ 31) :
  p.Addressable
  := by
  obtain ⟨hbits', hsize, -⟩ := of_new h
  rw [Addressable, bufNum, hbits', hsize]
  exact halloc

theorem bufAddr_eq {p : BufPool} (h : p.Addressable) {i : ℕ} (hi : i < p.bufNum) :
  p.bufAddr i = i * p.bufSize
  := by
  apply u32_of_lt
  have : i * p.bufSize ≤ p.bufNum * p.bufSize := Nat.mul_le_mul_right _ hi.le
  unfold Addressable at h
  omega

/-- The index of a block is recovered from its address. -/
theorem bufIndex_bufAddr {p : BufPool} (h : p.Addressable) {i : ℕ} (hi : i < p.bufNum) :
  p.bufIndex (p.bufAddr i) = i
  := by
  rw [bufAddr_eq h hi, bufIndex, Nat.mul_div_cancel _ p.bufSize_pos]
  apply u32_of_lt
  have hle : p.bufNum ≤ p.bufNum * p.bufSize := Nat.le_mul_of_pos_right _ p.bufSize_pos
  unfold Addressable at h
  omega

/-- Blocks do not overlap. -/
theorem bufAddr_disjoint {p : BufPool} (h : p.Addressable) {i j : ℕ} (hi : i < p.bufNum)
    (hj : j < p.bufNum) (hij : i ≠ j) :
  p.bufAddr i + p.bufSize ≤ p.bufAddr j ∨ p.bufAddr j + p.bufSize ≤ p.bufAddr i
  := by
  rw [bufAddr_eq h hi, bufAddr_eq h hj]
  apply Store.block_disjoint _ hij

@[simp]
theorem length_block (p : BufPool) (i : ℕ) :
  (p.block i).length = p.dataSize i
  := Store.length_read ..

@[simp]
theorem content_cons (p : BufPool) (i : ℕ) (l : List ℕ) :
  p.content (i :: l) = p.block i ++ p.content l
  := List.flatMap_cons ..

@[simp]
theorem content_append (p : BufPool) (l l' : List ℕ) :
  p.content (l ++ l') = p.content l ++ p.content l'
  := List.flatMap_append ..

/-- Releasing blocks leaves the content of the other blocks as it is. -/
theorem Returned.content_eq {p p' : BufPool} {R l : List ℕ} (h : Returned p p' R)
    (hl : ∀ i ∈ l, i ∉ R) :
  p'.content l = p.content l
  := by
  apply List.flatMap_congr
  intro i hi
  rw [block, bufAddr, h.dataSize, if_neg (hl i hi), h.bufs, h.bufSize]
  rfl

/-- Copying into the block `i` behind its data and raising its size appends to the block. -/
theorem block_copy_self {p : BufPool} (i : ℕ) (data : List UInt8) :
  ((p.copy (p.bufAddr i + p.dataSize i) data).setDataSize i
      (p.dataSize i + data.length)).block i
    = p.block i ++ data
  := by
  simp only [block, copy, setDataSize, Function.update_self]
  apply Store.read_write_after

/-- Copying to the start of the block `i` and setting its size replaces the block. -/
theorem block_copy_start {p : BufPool} (i : ℕ) (data : List UInt8) :
  ((p.copy (p.bufAddr i) data).setDataSize i data.length).block i = data
  := by
  simp only [block, copy, setDataSize, Function.update_self]
  apply Store.read_write_self

/-- Copying into the block `i` within its size leaves every other block as it is. -/
theorem block_copy_of_ne {p : BufPool} (h : p.Addressable) {i j off size : ℕ}
    {data : List UInt8} (hi : i < p.bufNum) (hj : j < p.bufNum) (hij : j ≠ i)
    (hfit : off + data.length ≤ p.bufSize) (hsize : p.dataSize j ≤ p.bufSize) :
  ((p.copy (p.bufAddr i + off) data).setDataSize i size).block j = p.block j
  := by
  simp only [block, copy, setDataSize, Function.update_of_ne hij]
  apply Store.read_write_of_disjoint
  change p.bufAddr j + _ ≤ _ ∨ _ ≤ p.bufAddr j
  rcases bufAddr_disjoint h hj hi hij with hd | hd
  · left
    omega
  · right
    omega

/-- Copying to the start of the block `i` leaves every other block as it is. -/
theorem block_copy_start_of_ne {p : BufPool} (h : p.Addressable) {i j size : ℕ}
    {data : List UInt8} (hi : i < p.bufNum) (hj : j < p.bufNum) (hij : j ≠ i)
    (hfit : data.length ≤ p.bufSize) (hsize : p.dataSize j ≤ p.bufSize) :
  ((p.copy (p.bufAddr i) data).setDataSize i size).block j = p.block j
  := by
  rw [← Nat.zero_add data.length] at hfit
  apply block_copy_of_ne h hi hj hij hfit hsize

end BufPool

end Proactor
