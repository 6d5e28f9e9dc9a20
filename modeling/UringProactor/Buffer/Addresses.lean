import UringProactor.Buffer.BufPool
import UringProactor.Prelude.Layout

/-!
# The address arithmetic of a pool

`BufPool` computes the size of its allocation as an `int` product, the offset of a block as an
unsigned product, and the index of a block as a quotient.  The first two wrap.  The blocks
partition the allocation exactly when the product of the arguments is an `int`; past that the
allocation may succeed with fewer bytes than the blocks have.
-/

namespace Proactor

/-- The `int` arguments of `BufPool::BufPool` that its assertion admits. -/
structure PoolArgs where
  bufNum : BitVec 32
  bufSize : BitVec 32
  asserted : 0 < bufNum.toInt ∧ bufNum &&& (bufNum - 1) = 0
  bufSize_pos : 0 < bufSize.toInt

/-- The blocks of the pool `p` are disjoint ranges of an allocation of `size` bytes, and every
address in a block leads to its index. -/
structure BufPool.Partitions (p : BufPool) (size : ℕ) : Prop where
  inside : ∀ i < p.bufNum, p.bufAddr i + p.bufSize ≤ size
  disjoint : ∀ i < p.bufNum, ∀ j < p.bufNum, i ≠ j →
    p.bufAddr i + p.bufSize ≤ p.bufAddr j ∨ p.bufAddr j + p.bufSize ≤ p.bufAddr i
  index : ∀ i < p.bufNum, ∀ k < p.bufSize, p.bufIndex (p.bufAddr i + k) = i

namespace BufPool

variable {p : BufPool} {i k : ℕ}

theorem bufAddr_add_le (h : p.Addressable) (hi : i < p.bufNum) :
  p.bufAddr i + p.bufSize ≤ p.bufNum * p.bufSize
  := by
  rw [bufAddr_eq h hi, ← Nat.succ_mul]
  apply Nat.mul_le_mul_right _ hi

/-- The index of a block is recovered from every address in it. -/
theorem bufIndex_bufAddr_add (h : p.Addressable) (hi : i < p.bufNum) (hk : k < p.bufSize) :
  p.bufIndex (p.bufAddr i + k) = i
  := by
  have hdiv : (p.bufAddr i + k) / p.bufSize = p.bufAddr i / p.bufSize := by
    rw [bufAddr_eq h hi, Nat.mul_comm, Nat.mul_add_div p.bufSize_pos, Nat.div_eq_of_lt hk,
      Nat.mul_div_cancel_left _ p.bufSize_pos, Nat.add_zero]
  rw [bufIndex, hdiv]
  apply bufIndex_bufAddr h hi

theorem Addressable.partitions (h : p.Addressable) :
  p.Partitions (p.bufNum * p.bufSize)
  := by
  constructor
  case inside => exact fun i hi => bufAddr_add_le h hi
  case disjoint => exact fun i hi j hj hij => bufAddr_disjoint h hi hj hij
  case index => exact fun i hi k hk => bufIndex_bufAddr_add h hi hk

/-- An allocation that the blocks partition has room for all of them. -/
theorem Partitions.mul_le {size : ℕ} (h : p.Partitions size) :
  p.bufNum * p.bufSize ≤ size
  := mul_le_of_disjoint h.inside h.disjoint

end BufPool

/-- A word that is not negative as an `int` is the same number unsigned. -/
theorem toNat_of_nonneg {x : BitVec 32} (h : 0 ≤ x.toInt) :
  x.toNat < 2 ^ 31 ∧ x.toInt = x.toNat
  := by
  have hlt : 2 * x.toNat < 2 ^ 32 := BitVec.toInt_pos_iff.mp h
  constructor
  · omega
  · apply BitVec.toInt_eq_toNat_of_lt hlt

namespace PoolArgs

variable (a : PoolArgs)

/-- The size of the allocation of `bufs_`, as the `int` that is computed. -/
def allocSize : Int := (a.bufNum * a.bufSize).toInt

/-- The number of blocks is `2 ^ bits`. -/
def bits : ℕ := Nat.log2 a.bufNum.toNat

/-- The assertion of the constructor admits the powers of two. -/
theorem two_pow_bits :
  2 ^ a.bits = a.bufNum.toNat
  := by
  obtain ⟨hpos, hand⟩ := a.asserted
  have hne : a.bufNum.toNat ≠ 0 := by
    intro hzero
    rw [(toNat_of_nonneg hpos.le).2, hzero] at hpos
    exact absurd hpos (Int.lt_irrefl 0)
  have hpred : (a.bufNum - 1).toNat = a.bufNum.toNat - 1 := by
    apply BitVec.toNat_sub_of_le
    rw [BitVec.le_def]
    exact Nat.one_le_iff_ne_zero.mpr hne
  have hand : a.bufNum.toNat &&& (a.bufNum.toNat - 1) = 0 := by
    rw [← hpred, ← BitVec.toNat_and, hand]
    rfl
  obtain ⟨k, hk⟩ := (Nat.and_sub_one_eq_zero_iff_isPowerOfTwo hne).mp hand
  rw [bits, hk, Nat.log2_two_pow]

theorem bits_le :
  a.bits ≤ 30
  := by
  have hlt := (toNat_of_nonneg a.asserted.1.le).1
  rw [← a.two_pow_bits] at hlt
  exact Nat.le_of_lt_succ ((Nat.pow_lt_pow_iff_right (by decide)).mp hlt)

theorem bufSize_toNat_pos :
  0 < a.bufSize.toNat
  := by
  have hpos := a.bufSize_pos
  rw [(toNat_of_nonneg hpos.le).2] at hpos
  exact Int.natCast_pos.mp hpos

/-- The pool that the constructor makes. -/
def pool : Option BufPool :=
  BufPool.new a.bits a.bufSize.toNat a.bits_le a.bufSize_toNat_pos
    (toNat_of_nonneg a.bufSize_pos.le).1

theorem pool_spec :
  ∃ p, a.pool = some p ∧ p.bufNum = a.bufNum.toNat ∧ p.bufSize = a.bufSize.toNat
  := by
  obtain ⟨p, hp, hbits, hsize, -⟩ := BufPool.new_spec a.bits a.bufSize.toNat a.bits_le
    a.bufSize_toNat_pos (toNat_of_nonneg a.bufSize_pos.le).1
  use p, hp
  constructor
  · rw [BufPool.bufNum, hbits, a.two_pow_bits]
  · exact hsize

/-- An allocation of the computed size has at most as many bytes as the blocks. -/
theorem allocSize_toNat (halloc : 0 ≤ a.allocSize) :
  a.allocSize.toNat < 2 ^ 31
    ∧ a.allocSize.toNat = a.bufNum.toNat * a.bufSize.toNat % 2 ^ 32
  := by
  obtain ⟨hlt, heq⟩ := toNat_of_nonneg halloc
  rw [allocSize, heq, Int.toNat_natCast]
  exact ⟨hlt, BitVec.toNat_mul ..⟩

/-- When the `int` product of the arguments is not negative, so that the allocation succeeds:
the constructor makes a pool, and its blocks partition the allocation exactly when the product
has not wrapped. -/
theorem partitions_iff (halloc : 0 ≤ a.allocSize) :
  ∃ p, a.pool = some p
    ∧ (p.Partitions a.allocSize.toNat ↔ a.bufNum.toNat * a.bufSize.toNat < 2 ^ 31)
  := by
  obtain ⟨p, hp, hnum, hsize⟩ := a.pool_spec
  obtain ⟨hlt, hmod⟩ := a.allocSize_toNat halloc
  use p, hp
  rw [← hnum, ← hsize] at hmod ⊢
  constructor
  · intro hpartitions
    apply Nat.lt_of_le_of_lt hpartitions.mul_le hlt
  · intro haddressable
    have hfits : a.allocSize.toNat = p.bufNum * p.bufSize := by
      rw [hmod]
      apply Nat.mod_eq_of_lt
      omega
    rw [hfits]
    apply BufPool.Addressable.partitions haddressable

/-- Eight blocks of the default size. -/
theorem partitions_eight_blocks :
  ∃ p, pool ⟨8, 4096, by decide, by decide⟩ = some p ∧ p.Partitions 32768
  := by
  obtain ⟨p, hp, hiff⟩ := partitions_iff ⟨8, 4096, by decide, by decide⟩ (by decide)
  use p, hp
  apply hiff.mpr
  decide

/-- With `2 ^ 20` blocks of the default size the `int` product is zero: the allocation of no
bytes succeeds, and the first block already lies outside. -/
theorem empty_allocation :
  ∃ a : PoolArgs, a.bufNum = 1048576 ∧ a.bufSize = 4096 ∧ a.allocSize = 0
    ∧ ∃ p, a.pool = some p ∧ ¬ p.Partitions a.allocSize.toNat
  := by
  have hzero : allocSize ⟨1048576, 4096, by decide, by decide⟩ = 0 := by decide
  refine ⟨⟨1048576, 4096, by decide, by decide⟩, rfl, rfl, hzero, ?_⟩
  obtain ⟨p, hp, hnum, hsize⟩ := pool_spec ⟨1048576, 4096, by decide, by decide⟩
  use p, hp
  intro hpartitions
  have hinside := hpartitions.inside 0 (by rw [hnum]; decide)
  rw [hzero, hsize] at hinside
  exact absurd (Nat.le_trans (Nat.le_add_left ..) hinside) (by decide)

end PoolArgs

end Proactor
