import UringProactor.Buffer.Prepend

/-!
# When `append` and `prepend` succeed

`append` first fills the last pending block and then takes one block after the other; `prepend`
takes its blocks at once.  Both succeed when the pending window and the pool have room for the
blocks they need.
-/

namespace Proactor

namespace WriteBufBase

section

variable {b b' : WriteBufBase} {p p' : BufPool} {F : List ℕ} {done : List UInt8}

/-- The number of bytes that fit in the last pending block. -/
def tailRoom (b : WriteBufBase) (p : BufPool) : ℕ :=
  match b.pendingList.getLast? with
  | none => 0
  | some t => p.bufSize - p.dataSize t

/-- The number of blocks that `append` takes when blocks are pending. -/
def blocksToAppend (b : WriteBufBase) (p : BufPool) (data : List UInt8) : ℕ :=
  (data.length - b.tailRoom p + p.bufSize - 1) / p.bufSize

/-- The pending window and the pool have room for `n` blocks. -/
def HasRoom (b : WriteBufBase) (p : BufPool) (n : ℕ) : Prop :=
  b.pendingList.length + n ≤ b.capacity ∧ n ≤ p.freeList.length

instance (b : WriteBufBase) (p : BufPool) (n : ℕ) : Decidable (b.HasRoom p n) :=
  inferInstanceAs (Decidable (_ ∧ _))

theorem tailRoom_eq {L : List ℕ} {t : ℕ} (h : b.pendingList = L ++ [t]) (p : BufPool) :
  b.tailRoom p = p.bufSize - p.dataSize t
  := by
  rw [tailRoom, h, List.getLast?_concat]

/-! ### `append` -/

/-- `fillTail` copies what fits, and takes no block. -/
theorem fillTail_spec (hle : ∀ i, p.dataSize i ≤ p.bufSize) (hne : b.pendingList ≠ [])
    {data : List UInt8} {toCopy : ℕ} (hfill : b.fillTail p data = (toCopy, p')) :
  toCopy = min (b.tailRoom p) data.length ∧ p'.freeList = p.freeList
  := by
  obtain ⟨L, t, hlast⟩ := (List.eq_nil_or_concat' b.pendingList).resolve_left hne
  rw [fillTail_eq hlast (hle t)] at hfill
  rw [tailRoom_eq hlast]
  split at hfill
  · obtain ⟨rfl, rfl⟩ := Prod.mk.inj hfill
    exact ⟨rfl, rfl⟩
  · obtain ⟨rfl, rfl⟩ := Prod.mk.inj hfill
    exact ⟨rfl, rfl⟩

/-- When the last pending block does not take all the data, a block is needed. -/
theorem blocks_pos (hg : Grown b p F done b' p') (hne : b'.pendingList ≠ []) {n : ℕ}
    {data : List UInt8} {toCopy : ℕ} {p₁ : BufPool}
    (hfill : b'.fillTail p' data = (toCopy, p₁)) (hrest : data.drop toCopy ≠ [])
    (hdata : data.length ≤ b'.tailRoom p' + n * p'.bufSize) :
  0 < n
  := by
  obtain ⟨hcopy, -⟩ := fillTail_spec (hg.bufSize ▸ hg.size_le) hne hfill
  rw [Ne, List.drop_eq_nil_iff] at hrest
  apply Nat.pos_of_ne_zero
  rintro rfl
  omega

/-- The block that a pass of `append` pushes is the new tail, and all of it is room. -/
theorem Grown.tailRoom_push (hg : Grown b p F done b' p') (h : Sound b p) {idx : ℕ} {l : List ℕ}
    (hlist : p'.freeList = idx :: l) (hsize : ¬ b'.capacity ≤ b'.pending.size) :
  ({ b' with pending := b'.pending.push b'.bits idx } : WriteBufBase).pendingList
      = b'.pendingList ++ [idx]
    ∧ tailRoom { b' with pending := b'.pending.push b'.bits idx }
        { p' with free := p'.free.pop } = p'.bufSize
  := by
  have hzero : p'.dataSize idx = 0 := hg.free_zero h (by simp [hlist])
  have hpush : ({ b' with pending := b'.pending.push b'.bits idx } : WriteBufBase).pendingList
      = b'.pendingList ++ [idx] :=
    Circular.toList_push b'.bits_lt idx (Nat.lt_of_not_le hsize)
  refine ⟨hpush, ?_⟩
  rw [tailRoom_eq hpush]
  change p'.bufSize - p'.dataSize idx = _
  rw [hzero, Nat.sub_zero]

/-- The loop of `append` succeeds when there is room for the blocks it needs. -/
theorem appendLoop_true (h : Sound b p) (hg : Grown b p F done b' p')
    (hne : b'.pendingList ≠ []) {wasEmpty : Bool} {originalTailSize n : ℕ} {data : List UInt8}
    (hdata : data.length ≤ b'.tailRoom p' + n * p'.bufSize) (hroom : b'.HasRoom p' n) :
  ∃ b'' p'', appendLoop b.pending.tail wasEmpty originalTailSize b' p' data
    = some (true, b'', p'')
  := by
  fun_induction appendLoop b.pending.tail wasEmpty originalTailSize b' p' data
    generalizing F done n with
  | case1 b' p' => exact ⟨b', p', rfl⟩
  | case2 b' p' data _ toCopy p₁ hfill => exact ⟨b', p₁, rfl⟩
  | case3 b' p' data _ toCopy p₁ hfill rest hrest =>
      rename_i hfull
      have hn := blocks_pos hg hne hfill hrest hdata
      have hsize := hroom.1
      rw [length_pendingList] at hsize
      omega
  | case4 b' p' data _ toCopy p₁ hfill rest hrest =>
      rename_i _ hacq
      have hn := blocks_pos hg hne hfill hrest hdata
      obtain ⟨-, hfree⟩ := fillTail_spec (hg.bufSize ▸ hg.size_le) hne hfill
      have hlen := hroom.2
      rw [← hfree] at hlen
      cases hlist : p₁.freeList with
      | nil =>
          rw [hlist, List.length_nil] at hlen
          omega
      | cons i l =>
          rw [(BufPool.acquire_of_cons hlist).1] at hacq
          cases hacq
  | case5 b' p' data _ toCopy p₁ hfill rest hrest hsize idx p₂ hacq =>
      rename_i ih
      have hn := blocks_pos hg hne hfill hrest hdata
      obtain ⟨hcopy, hfree⟩ := fillTail_spec (hg.bufSize ▸ hg.size_le) hne hfill
      obtain ⟨l, hlist, rfl⟩ := BufPool.acquire_eq_some hacq
      have hg₁ := hg.fill h hne hfill
      obtain ⟨hpush, htail⟩ := hg₁.tailRoom_push h hlist hsize
      apply ih (n := n - 1) (hg₁.push h hlist (Nat.lt_of_not_le hsize))
      · rw [hpush]
        simp
      · rw [htail]
        change rest.length ≤ p₁.bufSize + (n - 1) * p₁.bufSize
        have hmul : n * p'.bufSize = (n - 1) * p'.bufSize + p'.bufSize := by
          rw [← Nat.succ_mul, Nat.succ_eq_add_one, Nat.sub_add_cancel hn]
        rw [hg₁.bufSize, ← hg.bufSize, List.length_drop]
        omega
      · constructor
        · rw [hpush, List.length_append, List.length_singleton]
          have := hroom.1
          change _ ≤ b'.capacity
          omega
        · rw [(BufPool.acquire_of_cons hlist).2]
          have := hroom.2
          rw [← hfree, hlist, List.length_cons] at this
          omega

/-- The last pending block and the blocks that `append` takes hold the data. -/
theorem length_le_blocksToAppend (b : WriteBufBase) (p : BufPool) (data : List UInt8) :
  data.length ≤ b.tailRoom p + b.blocksToAppend p data * p.bufSize
  := by
  have hpos := p.bufSize_pos
  have hdiv := Nat.div_add_mod (data.length - b.tailRoom p + p.bufSize - 1) p.bufSize
  have hmod := Nat.mod_lt (data.length - b.tailRoom p + p.bufSize - 1) hpos
  rw [blocksToAppend, Nat.mul_comm]
  omega

/-- `append` succeeds when blocks are pending and there is room for the blocks it needs. -/
theorem append_true (h : Sound b p) (hne : b.pendingList ≠ []) {data : List UInt8}
    (hroom : b.HasRoom p (b.blocksToAppend p data)) :
  ∃ b' p', b.append p data = some (true, b', p')
  := by
  rw [append, if_neg (mt (Circular.toList_eq_nil_iff _).mpr hne)]
  exact appendLoop_true h (.refl h) hne (length_le_blocksToAppend b p data) hroom

/-- The blocks for some bytes, by the first of them. -/
theorem blocks_succ {size n : ℕ} (hsize : 0 < size) (hn : 0 < n) :
  (n + size - 1) / size = (n - size + size - 1) / size + 1
  := by
  rw [← Nat.add_div_right _ hsize]
  rcases Nat.le_total size n with hle | hle
  · congr 1
    omega
  · have hlt : n + size - 1 < 2 * size := by omega
    rw [Nat.sub_eq_zero_of_le hle, Nat.div_eq_of_lt_le (k := 1), Nat.div_eq_of_lt_le (k := 1)]
    all_goals omega

/-- What fits in the last pending block needs no block. -/
theorem blocksToAppend_eq_zero {data : List UInt8} (h : data.length ≤ b.tailRoom p) :
  b.blocksToAppend p data = 0
  := by
  rw [blocksToAppend, Nat.sub_eq_zero_of_le h, Nat.zero_add]
  apply Nat.div_eq_of_lt
  apply Nat.sub_lt p.bufSize_pos Nat.one_pos

/-- When the loop of `append` succeeds, it has taken the blocks it needed, and no more. -/
theorem length_of_appendLoop {b'' : WriteBufBase} {p'' : BufPool} (h : Sound b p)
    (hg : Grown b p F done b' p') (hne : b'.pendingList ≠ []) {wasEmpty : Bool}
    {originalTailSize : ℕ} {data : List UInt8}
    (hloop : appendLoop b.pending.tail wasEmpty originalTailSize b' p' data
      = some (true, b'', p'')) :
  b''.pendingList.length = b'.pendingList.length + b'.blocksToAppend p' data
  := by
  fun_induction appendLoop b.pending.tail wasEmpty originalTailSize b' p' data
    generalizing F done with
  | case1 b' p' =>
      cases hloop
      rw [blocksToAppend_eq_zero (Nat.zero_le _)]
      rfl
  | case2 b' p' data _ toCopy p₁ hfill rest =>
      rename_i hrest
      obtain ⟨hcopy, -⟩ := fillTail_spec (hg.bufSize ▸ hg.size_le) hne hfill
      have hle := List.drop_eq_nil_iff.mp hrest
      cases hloop
      rw [blocksToAppend_eq_zero (by omega)]
      rfl
  | case3 b' p' data _ toCopy p₁ hfill =>
      obtain ⟨_, -, heq⟩ := Option.bind_eq_some_iff.mp hloop
      cases heq
  | case4 b' p' data _ toCopy p₁ hfill =>
      obtain ⟨_, -, heq⟩ := Option.bind_eq_some_iff.mp hloop
      cases heq
  | case5 b' p' data _ toCopy p₁ hfill rest hrest hsize idx p₂ hacq =>
      rename_i ih
      obtain ⟨hcopy, -⟩ := fillTail_spec (hg.bufSize ▸ hg.size_le) hne hfill
      obtain ⟨l, hlist, rfl⟩ := BufPool.acquire_eq_some hacq
      have hg₁ := hg.fill h hne hfill
      obtain ⟨hpush, htail⟩ := hg₁.tailRoom_push h hlist hsize
      have hlen := ih (hg₁.push h hlist (Nat.lt_of_not_le hsize)) (by simp [hpush]) hloop
      rw [hpush, List.length_append, List.length_singleton, blocksToAppend, htail] at hlen
      change _ = _ + 1 + (rest.length - p₁.bufSize + p₁.bufSize - 1) / p₁.bufSize at hlen
      rw [hg₁.bufSize, ← hg.bufSize] at hlen
      have hrest' : rest.length = data.length - b'.tailRoom p' := by
        have hlt := mt List.drop_eq_nil_iff.mpr hrest
        rw [List.length_drop]
        omega
      have hpos : 0 < rest.length := List.length_pos_iff.mpr hrest
      rw [hlen, blocksToAppend, ← hrest', blocks_succ p'.bufSize_pos hpos]
      omega

/-- The number of blocks that `append` takes. -/
def blocksNeeded (b : WriteBufBase) (p : BufPool) (data : List UInt8) : ℕ :=
  if b.pendingList = [] then
    max 1 ((data.length + p.bufSize - 1) / p.bufSize)
  else
    b.blocksToAppend p data

/-- The loop of `append` runs on the buffer it is called with, or on the buffer with a first
block. -/
theorem append_eq_loop (h : Sound b p) (data : List UInt8) :
  (b.pendingList = [] ∧ p.freeList = [] ∧ b.append p data = some (false, b, p))
    ∨ ∃ F b' p' wasEmpty originalTailSize, Grown b p F [] b' p' ∧ b'.pendingList ≠ []
      ∧ b.append p data = appendLoop b.pending.tail wasEmpty originalTailSize b' p' data
      ∧ b.blocksNeeded p data = F.length + b'.blocksToAppend p' data
  := by
  by_cases hempty : b.pendingList = []
  · rw [append, if_pos ((Circular.toList_eq_nil_iff _).mp hempty)]
    cases hfree : p.freeList with
    | nil =>
        rw [BufPool.acquire_of_nil hfree]
        exact .inl ⟨hempty, rfl, rfl⟩
    | cons idx l =>
        have hroom : b.pending.size < b.capacity := by
          rw [← length_pendingList, hempty]
          apply Nat.two_pow_pos
        have hpush : ({ b with pending := b.pending.push b.bits idx } : WriteBufBase).pendingList
            = [] ++ [idx] :=
          (Circular.toList_push b.bits_lt idx hroom).trans (congrArg (· ++ [idx]) hempty)
        rw [(BufPool.acquire_of_cons hfree).1]
        refine .inr ⟨_, _, _, _, _, (Grown.refl h).push h hfree hroom, ?_, rfl, ?_⟩
        · simp [hpush]
        · rw [blocksNeeded, if_pos hempty, blocksToAppend, tailRoom_eq hpush]
          change _ = 1 + (data.length - (p.bufSize - p.dataSize idx) + p.bufSize - 1) / p.bufSize
          rw [h.free_zero idx (by simp [hfree]), Nat.sub_zero]
          rcases Nat.eq_zero_or_pos data.length with hzero | hpos
          · rw [hzero, Nat.zero_sub, Nat.zero_add]
            rw [Nat.div_eq_of_lt (Nat.sub_lt p.bufSize_pos Nat.one_pos)]
            rfl
          · rw [blocks_succ p.bufSize_pos hpos, Nat.max_eq_right (Nat.le_add_left 1 _), Nat.add_comm]
  · rw [append, if_neg (mt (Circular.toList_eq_nil_iff _).mpr hempty)]
    refine .inr ⟨[], b, p, false, _, .refl h, hempty, rfl, ?_⟩
    rw [blocksNeeded, if_neg hempty, List.length_nil, Nat.zero_add]

/-- When `append` succeeds, it has taken the blocks it needed. -/
theorem length_of_append (h : Sound b p) {data : List UInt8}
    (happend : b.append p data = some (true, b', p')) :
  b'.pendingList.length = b.pendingList.length + b.blocksNeeded p data
  := by
  obtain ⟨-, -, hfalse⟩ | ⟨F, b₁, p₁, _, _, hg, hne, heq, hneeded⟩ := append_eq_loop h data
  · rw [happend] at hfalse
    cases hfalse
  · rw [happend] at heq
    rw [length_of_appendLoop h hg hne heq.symm, hg.pending, List.length_append, hneeded,
      Nat.add_assoc]

/-- `append` succeeds exactly when the pending window and the pool have room for the blocks it
needs. -/
theorem append_true_iff (h : Sound b p) {data : List UInt8} {ok : Bool}
    (happend : b.append p data = some (ok, b', p')) :
  ok = true ↔ b.HasRoom p (b.blocksNeeded p data)
  := by
  constructor
  · rintro rfl
    obtain ⟨_, _, _, heq, hspec⟩ := append_spec h data
    rw [happend] at heq
    cases heq
    obtain ⟨-, F, hg⟩ := hspec
    have hlen := length_of_append h happend
    have hcap : b'.pendingList.length ≤ b.capacity := by
      rw [length_pendingList, capacity, ← hg.bits]
      apply hg.pending_le
    have hF : F.length = b.blocksNeeded p data := by
      rw [hg.pending, List.length_append] at hlen
      omega
    constructor
    · omega
    · rw [hg.free, List.length_append, hF]
      apply Nat.le_add_right
  · rintro ⟨hsize, hfree⟩
    obtain ⟨hempty, hnil, -⟩ | ⟨F, b₁, p₁, _, _, hg, hne, heq, hneeded⟩ := append_eq_loop h data
    · rw [hnil, blocksNeeded, if_pos hempty] at hfree
      have hone := Nat.le_max_left 1 ((data.length + p.bufSize - 1) / p.bufSize)
      cases hone.trans hfree
    · have hroom : b₁.HasRoom p₁ (b₁.blocksToAppend p₁ data) := by
        constructor
        · rw [capacity, hg.bits, hg.pending, List.length_append, Nat.add_assoc, ← hneeded]
          apply hsize
        · rw [hneeded, hg.free, List.length_append] at hfree
          omega
      obtain ⟨b₂, p₂, hloop⟩ := appendLoop_true h hg hne (length_le_blocksToAppend b₁ p₁ data) hroom
      rw [heq, hloop] at happend
      cases happend
      rfl

/-! ### `prepend` -/

/-- The loop of `prepend` succeeds when the pool has the blocks it still needs. -/
theorem prependLoop_true {n : ℕ} (h : Sound b p) (hroom : n + b.pending.size ≤ b.capacity)
    {data : List UInt8} {i : BitVec 64} (hs : Staged b p n F done b' p') (hF : F.length ≤ n)
    (hi : i = b.pending.head - BitVec.ofNat 64 n + BitVec.ofNat 64 F.length)
    (hfree : n ≤ F.length + p'.freeList.length) :
  ∃ b'' p'', prependLoop (b.pending.head - BitVec.ofNat 64 n) b' i p' data
    = some (true, b'', p'')
  := by
  fun_induction prependLoop (b.pending.head - BitVec.ofNat 64 n) b' i p' data
    generalizing F done with
  | case1 b' p' data => exact ⟨_, p', rfl⟩
  | case2 b' i p' data hne hacq =>
      have hlt := hs.length_lt hF hi hne
      cases hlist : p'.freeList with
      | nil =>
          rw [hlist, List.length_nil] at hfree
          omega
      | cons j l =>
          rw [(BufPool.acquire_of_cons hlist).1] at hacq
          cases hacq
  | case3 b' i p' data hne idx p₁ hacq toCopy =>
      rename_i ih
      obtain ⟨l, hlist, rfl⟩ := BufPool.acquire_eq_some hacq
      have hlt := hs.length_lt hF hi hne
      apply ih (F := F ++ [idx]) (hi ▸ hs.push h hlt hroom hlist data)
      · rw [List.length_append, List.length_singleton]
        exact hlt
      · rw [hi, List.length_append, List.length_singleton, BitVec.ofNat_add, BitVec.add_assoc]
        rfl
      · change n ≤ _ + ({ p' with free := p'.free.pop } : BufPool).freeList.length
        rw [(BufPool.acquire_of_cons hlist).2, List.length_append, List.length_singleton]
        rw [hlist, List.length_cons] at hfree
        omega

/-- `prepend` succeeds when there is room for the blocks it needs. -/
theorem prepend_true (h : Sound b p) {data : List UInt8}
    (hroom : b.HasRoom p (blockToWrite p data)) :
  ∃ b' p', b.prepend p data = some (true, b', p')
  := by
  obtain ⟨hsize, hfree⟩ := hroom
  rw [length_pendingList] at hsize
  rw [prepend]
  dsimp only
  rw [if_neg (by unfold blockToWrite at hsize; omega)]
  apply prependLoop_true (n := blockToWrite p data) (F := []) h (by omega) (.refl h _)
  · apply Nat.zero_le
  · exact (BitVec.add_zero _).symm
  · simpa using hfree

/-- `prepend` succeeds exactly when there is room for the blocks it computes, and takes these. -/
theorem prepend_true_iff (h : Sound b p) {data : List UInt8} {ok : Bool}
    (hprepend : b.prepend p data = some (ok, b', p')) :
  ok = true ↔ b.HasRoom p (blockToWrite p data)
  := by
  constructor
  · rintro rfl
    obtain ⟨_, _, _, heq, hspec⟩ := prepend_spec h data
    rw [hprepend] at heq
    cases heq
    obtain ⟨F, hF, hfronted⟩ := hspec
    constructor
    · rw [length_pendingList, ← hF, Nat.add_comm]
      apply hfronted.room
    · rw [hfronted.free, List.length_append, hF]
      apply Nat.le_add_right
  · intro hroom
    obtain ⟨_, _, htrue⟩ := prepend_true h hroom
    rw [hprepend] at htrue
    cases htrue
    rfl

end

end WriteBufBase

end Proactor
