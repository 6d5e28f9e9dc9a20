import UringProactor.Buffer.Stream
import UringProactor.Prelude.Ownership
import UringProactor.Prelude.Run

/-!
# Conservation of write blocks

Any number of write buffers share one pool.  In every state reached from new buffers over a
new pool, every block is in exactly one of the free queue, the pending windows and the send
queues, at one position; free blocks are empty, the windows fit their arrays, and no
operation runs into the assertion of `BufPool::release`.  Resetting all buffers makes all
blocks free.
-/

open scoped List

namespace Proactor

/-- The blocks a write buffer holds. -/
def WriteBufBase.own (b : WriteBufBase) : List ℕ :=
  b.pendingList ++ b.sendList

/-- The pool `p` and the buffers `w 0`, ..., `w (n - 1)` hold every block exactly once, free
blocks are empty, no block is overfull, the windows fit their arrays, and the offsets lie in
the head blocks of the send queues. -/
structure Conserved (p : BufPool) (n : ℕ) (w : ℕ → WriteBufStream) : Prop where
  perm : Ownership.holdings p.freeList n (fun c => (w c).own) ~ List.range p.bufNum
  free_zero : ∀ i ∈ p.freeList, p.dataSize i = 0
  size_le : ∀ i, p.dataSize i ≤ p.bufSize
  pending_le : ∀ c < n, (w c).pending.size ≤ (w c).capacity
  send_le : ∀ c < n, (w c).send.size ≤ (w c).capacity
  offset_le : ∀ c < n,
    (w c).sendHeadOffset ≤ ((w c).sendList.head?.map p.dataSize).getD 0

namespace Conserved

variable {p p' : BufPool} {n c d : ℕ} {w : ℕ → WriteBufStream} {s' : WriteBufStream}

/-- Each buffer is sound with the pool. -/
theorem sound (h : Conserved p n w) (hc : c < n) :
  (w c).Sound p
  := by
  obtain ⟨hnodup, hlt⟩ := Ownership.nodup_of_perm h.perm hc
  exact ⟨⟨hnodup, hlt, h.free_zero, h.size_le, h.pending_le c hc, h.send_le c hc⟩,
    h.offset_le c hc⟩

/-- An exchange of the buffer `c` with the pool does not touch the blocks of another
buffer. -/
theorem frame (h : Conserved p n w) (hc : c < n) (hd : d < n) (hdc : d ≠ c)
    (he : WriteBufBase.Exchange (w c).toWriteBufBase p s'.toWriteBufBase p') {i : ℕ}
    (hi : i ∈ (w d).own) :
  i < p.bufNum ∧ i ∉ p.freeList ∧ i ∉ (w c).pendingList ∧ i ∉ p'.freeList
  := by
  obtain ⟨hlt, hmem⟩ := Ownership.not_mem_of_mem h.perm hc hd hdc hi
  rw [WriteBufBase.own] at hmem
  refine ⟨hlt, ?_, ?_, ?_⟩
  · intro hfree
    apply hmem (List.mem_append_left _ hfree)
  · intro hpending
    apply hmem (List.mem_append_right _ (List.mem_append_left _ hpending))
  · intro hfree
    apply hmem (he.perm.mem_iff.mp (List.mem_append_left _ hfree))

/-- An exchange of one buffer with the pool keeps all blocks conserved. -/
theorem update (h : Conserved p n w) (hc : c < n)
    (he : WriteBufBase.Exchange (w c).toWriteBufBase p s'.toWriteBufBase p')
    (hs : s'.Sound p') :
  Conserved p' n (Function.update w c s')
  := by
  constructor
  · rw [he.bufNum_eq]
    apply List.Perm.trans _ h.perm
    apply Ownership.holdings_exchange hc
    · intro d hd
      simp only [Function.update_of_ne hd]
    · simp only [Function.update_self]
      apply he.perm
  · apply he.free_zero
  · intro i
    rw [he.bufSize]
    apply he.size_le
  · intro d hd
    by_cases hdc : d = c
    · subst hdc
      rw [Function.update_self]
      apply he.pending_le
    · rw [Function.update_of_ne hdc]
      apply h.pending_le d hd
  · intro d hd
    by_cases hdc : d = c
    · subst hdc
      rw [Function.update_self]
      apply he.send_le
    · rw [Function.update_of_ne hdc]
      apply h.send_le d hd
  · intro d hd
    by_cases hdc : d = c
    · subst hdc
      rw [Function.update_self]
      apply hs.offset_le
    · rw [Function.update_of_ne hdc]
      apply (h.offset_le d hd).trans_eq
      cases hl : (w d).sendList with
      | nil => rfl
      | cons i l =>
          have hi : i ∈ (w d).own := by
            rw [WriteBufBase.own, hl]
            apply List.mem_append_right _ List.mem_cons_self
          obtain ⟨_, hfree, hpending, hfree'⟩ := h.frame hc hd hdc he hi
          apply (he.frame_size i hfree hpending hfree').symm

/-- An exchange of one buffer with the pool leaves the content of the others as it is. -/
theorem content_frame (h : Conserved p n w) (ha : p.Addressable) (hc : c < n) (hd : d < n)
    (hdc : d ≠ c) (he : WriteBufBase.Exchange (w c).toWriteBufBase p s'.toWriteBufBase p') :
  p'.content (w d).pendingList = p.content (w d).pendingList
    ∧ (w d).unsent p' = (w d).unsent p
  := by
  constructor
  · apply he.content_eq ha
    intro i hi
    apply h.frame hc hd hdc he (List.mem_append_left _ hi)
  · rw [WriteBufStream.unsent, he.content_eq ha]
    · rfl
    · intro i hi
      apply h.frame hc hd hdc he (List.mem_append_right _ hi)

/-- A pool whose blocks are all free and empty, and buffers that hold nothing. -/
theorem of_empty (hfree : p.freeList = List.range p.bufNum) (hzero : ∀ i, p.dataSize i = 0)
    (hpending : ∀ c, (w c).pendingList = []) (hsend : ∀ c, (w c).sendList = [])
    (hoffset : ∀ c, (w c).sendHeadOffset = 0) :
  Conserved p n w
  := by
  constructor
  · have hown : (List.range n).flatMap (fun c => (w c).own) = [] := by
      rw [List.flatMap_eq_nil_iff]
      intro c _
      rw [WriteBufBase.own, hpending, hsend, List.append_nil]
    rw [Ownership.holdings, hown, List.append_nil, hfree]
  · intro i _
    apply hzero
  · intro i
    rw [hzero]
    apply Nat.zero_le
  · intro c _
    rw [← WriteBufBase.length_pendingList, hpending]
    apply Nat.zero_le
  · intro c _
    rw [← WriteBufBase.length_sendList, hsend]
    apply Nat.zero_le
  · intro c _
    rw [hoffset]
    apply Nat.zero_le

end Conserved

/-! ### Operations on one buffer -/

/-- The operations of a stream's write buffer. -/
inductive WriteOp where
  | append (data : List UInt8)
  | prepend (data : List UInt8)
  | submit
  | discardPending
  | peekIovec
  | consumeWritten (bytes : ℕ)
  | reset

namespace WriteBufStream

/-- Run an operation, forgetting what it returns. -/
def run (s : WriteBufStream) (p : BufPool) : WriteOp → Option (WriteBufStream × BufPool)
  | .append data =>
      (s.append p data).map (fun (_, b, p) => ({ s with toWriteBufBase := b }, p))
  | .prepend data =>
      (s.prepend p data).map (fun (_, b, p) => ({ s with toWriteBufBase := b }, p))
  | .submit => some (s.submit.2, p)
  | .discardPending =>
      (s.discardPending p).map (fun (b, p) => ({ s with toWriteBufBase := b }, p))
  | .peekIovec => some ((s.peekIovec p).2.2, p)
  | .consumeWritten bytes => s.consumeWritten p bytes
  | .reset => s.reset p

/-- What callers promise: no more is acknowledged than is in the send queue. -/
def Admits (s : WriteBufStream) (p : BufPool) : WriteOp → Prop
  | .consumeWritten bytes => bytes ≤ (s.unsent p).length
  | _ => True

instance (s : WriteBufStream) (p : BufPool) (op : WriteOp) : Decidable (s.Admits p op) :=
  match op with
  | .consumeWritten bytes => inferInstanceAs (Decidable (bytes ≤ (s.unsent p).length))
  | .append _ | .prepend _ | .submit | .discardPending | .peekIovec | .reset => .isTrue trivial

variable {s : WriteBufStream} {p : BufPool}

/-- `peek_iovec` changes nothing but the array of iovecs. -/
theorem peekIovec_sound (h : s.Sound p) :
  WriteBufBase.Exchange s.toWriteBufBase p (s.peekIovec p).2.2.toWriteBufBase p
    ∧ (s.peekIovec p).2.2.Sound p
  := by
  have he := WriteBufBase.Exchange.refl h.toSound
  by_cases hnil : s.sendList = []
  · rw [peekIovec_of_nil hnil]
    exact ⟨he, h⟩
  · rw [peekIovec_of_ne h hnil]
    exact ⟨he, h.toSound, h.offset_le⟩

/-- Every operation returns, is an exchange with the pool and keeps the buffer sound. -/
theorem run_spec (h : s.Sound p) {op : WriteOp} (hop : s.Admits p op) :
  ∃ s' p', s.run p op = some (s', p')
    ∧ WriteBufBase.Exchange s.toWriteBufBase p s'.toWriteBufBase p' ∧ s'.Sound p'
  := by
  cases op with
  | append data =>
      obtain ⟨ok, b', p', happ, -⟩ := WriteBufBase.append_spec h.toSound data
      obtain ⟨he, hsend, -⟩ := WriteBufBase.append_exchange h.toSound happ
      refine ⟨{ s with toWriteBufBase := b' }, p', ?_, he, ?_⟩
      · rw [run, happ]
        rfl
      · apply (h.exchange_pending he hsend).1
  | prepend data =>
      obtain ⟨ok, b', p', hpre, -⟩ := WriteBufBase.prepend_spec h.toSound data
      obtain ⟨he, hsend, -⟩ := WriteBufBase.prepend_exchange h.toSound hpre
      refine ⟨{ s with toWriteBufBase := b' }, p', ?_, he, ?_⟩
      · rw [run, hpre]
        rfl
      · apply (h.exchange_pending he hsend).1
  | submit =>
      obtain ⟨hs, he, -⟩ := submit_spec h (rfl : s.submit = (s.submit.1, s.submit.2))
      exact ⟨s.submit.2, p, rfl, he, hs⟩
  | discardPending =>
      obtain ⟨b', p', hdiscard, he, hsend, -⟩ := WriteBufBase.discardPending_spec h.toSound
      refine ⟨{ s with toWriteBufBase := b' }, p', ?_, he, ?_⟩
      · rw [run, hdiscard]
        rfl
      · apply (h.exchange_pending he hsend).1
  | peekIovec =>
      obtain ⟨he, hs⟩ := peekIovec_sound h
      exact ⟨_, p, rfl, he, hs⟩
  | consumeWritten bytes =>
      obtain ⟨s', p', R, hrun, hc, hs, -⟩ := consumeWritten_spec h hop
      exact ⟨s', p', hrun, hc.exchange h.toSound, hs⟩
  | reset =>
      obtain ⟨s', p', hrun, he, hs, -⟩ := reset_spec h.toSound
      exact ⟨s', p', hrun, he, hs⟩

end WriteBufStream

/-! ### Runs of many buffers over one pool -/

/-- Write buffers over one pool. -/
structure WriteSystem where
  /-- The number of buffers. -/
  num : ℕ
  pool : BufPool
  bufs : ℕ → WriteBufStream

namespace WriteSystem

/-- New buffers of capacities `2 ^ (bits c)` over the pool. -/
def new (num : ℕ) (pool : BufPool) (bits : ℕ → Fin 31) : WriteSystem where
  num := num
  pool := pool
  bufs c :=
    { bits := bits c
      bits_le := Nat.le_of_lt_succ (bits c).isLt
      pending := ⟨fun _ => 0, 0, 0⟩
      send := ⟨fun _ => 0, 0, 0⟩
      sendHeadOffset := 0
      iovec := [] }

/-- One operation on one buffer; `none` stands for a failed assertion. -/
def step (σ : WriteSystem) (e : ℕ × WriteOp) : Option WriteSystem :=
  ((σ.bufs e.1).run σ.pool e.2).map (fun (s, p) =>
    { σ with pool := p, bufs := Function.update σ.bufs e.1 s })

/-- The operation is on one of the buffers, and within what callers promise. -/
def Admits (σ : WriteSystem) (e : ℕ × WriteOp) : Prop :=
  e.1 < σ.num ∧ (σ.bufs e.1).Admits σ.pool e.2

instance (σ : WriteSystem) (e : ℕ × WriteOp) : Decidable (σ.Admits e) :=
  inferInstanceAs (Decidable (_ ∧ _))

/-- The blocks are conserved. -/
def Inv (σ : WriteSystem) : Prop :=
  Conserved σ.pool σ.num σ.bufs

variable {σ σ' : WriteSystem}

/-- A step returns and conserves the blocks. -/
theorem step_spec (h : σ.Inv) {e : ℕ × WriteOp} (he : σ.Admits e) :
  ∃ s' p', σ.step e = some { σ with pool := p', bufs := Function.update σ.bufs e.1 s' }
    ∧ (σ.bufs e.1).run σ.pool e.2 = some (s', p')
    ∧ Conserved p' σ.num (Function.update σ.bufs e.1 s') ∧ p'.bits = σ.pool.bits
    ∧ s'.bits = (σ.bufs e.1).bits
  := by
  obtain ⟨hc, hop⟩ := he
  obtain ⟨s', p', hrun, hex, hs⟩ := WriteBufStream.run_spec (h.sound hc) hop
  refine ⟨s', p', ?_, hrun, h.update hc hex hs, hex.poolBits, hex.bits⟩
  rw [step, hrun]
  rfl

/-- New buffers over a new pool conserve the blocks. -/
theorem new_inv (num : ℕ) {bits bufSize : ℕ} {hbits : bits ≤ 30} {hpos : 0 < bufSize}
    {hlt : bufSize < 2 ^ 31} {pool : BufPool}
    (hpool : BufPool.new bits bufSize hbits hpos hlt = some pool) (caps : ℕ → Fin 31) :
  (new num pool caps).Inv
  := by
  obtain ⟨hpbits, -, hfree, hzero⟩ := BufPool.of_new hpool
  have hnil : ∀ k, (⟨fun _ => 0, 0, 0⟩ : Circular 64 ℕ).toList k = [] :=
    fun _ => (Circular.toList_eq_nil_iff _).mpr rfl
  apply Conserved.of_empty
  · change pool.freeList = List.range (2 ^ pool.bits)
    rw [hfree, hpbits]
  · apply hzero
  · intro c
    apply hnil
  · intro c
    apply hnil
  · intro c
    rfl

/-- In every state reached, the blocks are conserved, and the sizes are those of the
start. -/
theorem reaches_inv (h : Reaches step Admits σ σ') (hinv : σ.Inv) :
  σ'.Inv ∧ σ'.num = σ.num ∧ σ'.pool.bits = σ.pool.bits
    ∧ ∀ c, (σ'.bufs c).bits = (σ.bufs c).bits
  := by
  apply h.invariant ⟨hinv, rfl, rfl, fun _ => rfl⟩
  rintro t u e ⟨hinv, hnum, hpool, hcaps⟩ he hstep
  obtain ⟨s', p', hspec, -, hcons, hbits, hcap⟩ := step_spec hinv he
  rw [hspec] at hstep
  cases hstep
  refine ⟨hcons, hnum, hbits.trans hpool, ?_⟩
  intro c
  rw [← hcaps]
  change (Function.update t.bufs e.1 s' c).bits = _
  rw [Function.update_apply]
  split
  case isTrue hc => rw [hc, hcap]
  case isFalse => rfl

/-- No operation changes the size of the pool. -/
theorem reaches_addressable (h : Reaches step Admits σ σ') (hinv : σ.Inv)
    (ha : σ.pool.Addressable) :
  σ'.Inv ∧ σ'.pool.Addressable
  := by
  apply h.invariant ⟨hinv, ha⟩
  rintro t u e ⟨hinv, ha⟩ ⟨hc, hop⟩ hstep
  obtain ⟨s', p', hrun, hex, hs⟩ := WriteBufStream.run_spec (hinv.sound hc) hop
  rw [step, hrun] at hstep
  cases hstep
  exact ⟨hinv.update hc hex hs, hex.addressable ha⟩

/-- Resetting buffers one after the other leaves them without blocks. -/
theorem resetAll_spec (cs : List ℕ) (h : σ.Inv) (hcs : ∀ c ∈ cs, c < σ.num) :
  ∃ σ', cs.foldlM (fun σ c => σ.step (c, .reset)) σ = some σ' ∧ σ'.Inv ∧ σ'.num = σ.num
    ∧ σ'.pool.bits = σ.pool.bits
    ∧ ∀ c, c ∈ cs ∨ (σ.bufs c).own = [] → (σ'.bufs c).own = []
  := by
  induction cs generalizing σ with
  | nil =>
      refine ⟨σ, rfl, h, rfl, rfl, ?_⟩
      rintro c (hc | hc)
      · cases hc
      · apply hc
  | cons c cs ih =>
      have hc : c < σ.num := hcs c List.mem_cons_self
      obtain ⟨s', p', hstep, hrun, hcons, hbits, -⟩ :=
        step_spec h (e := (c, .reset)) ⟨hc, trivial⟩
      obtain ⟨s'', p'', hreset, -, -, hpending, hsend⟩ :=
        WriteBufStream.reset_spec (h.sound hc).toSound
      obtain ⟨rfl, rfl⟩ : s'' = s' ∧ p'' = p' := by
        have := hreset.symm.trans hrun
        cases this
        exact ⟨rfl, rfl⟩
      obtain ⟨σ', hfold, hinv, hnum, hbits', hown⟩ :=
        ih (σ := { σ with pool := p'', bufs := Function.update σ.bufs c s'' }) hcons
          (fun d hd => hcs d (List.mem_cons_of_mem _ hd))
      refine ⟨σ', ?_, hinv, hnum, hbits'.trans hbits, ?_⟩
      · rw [List.foldlM_cons, hstep]
        apply hfold
      · intro d hd
        apply hown
        by_cases hdc : d = c
        · right
          subst hdc
          change (Function.update σ.bufs d s'' d).own = []
          rw [Function.update_self, WriteBufBase.own, hpending, hsend, List.append_nil]
        · rcases hd with hd | hd
          · left
            exact (List.mem_cons.mp hd).resolve_left hdc
          · right
            change (Function.update σ.bufs c s'' d).own = []
            rw [Function.update_of_ne hdc]
            apply hd

/-- Write-block conservation: in every state reached from new buffers over a new pool, every
block index is held exactly once, free blocks are empty, the windows hold at most their
capacity, every further operation returns, and resetting all buffers frees all blocks. -/
theorem write_blocks_conserved (num : ℕ) {bits bufSize : ℕ} {hbits : bits ≤ 30}
    {hpos : 0 < bufSize} {hlt : bufSize < 2 ^ 31} {pool : BufPool}
    (hpool : BufPool.new bits bufSize hbits hpos hlt = some pool) (caps : ℕ → Fin 31)
    (h : Reaches step Admits (new num pool caps) σ) :
  Ownership.holdings σ.pool.freeList σ.num (fun c => (σ.bufs c).pendingList ++ (σ.bufs c).sendList)
      ~ List.range (2 ^ bits)
    ∧ (∀ i ∈ σ.pool.freeList, σ.pool.dataSize i = 0)
    ∧ (∀ c < num, (σ.bufs c).pendingList.length ≤ 2 ^ (caps c : ℕ)
        ∧ (σ.bufs c).sendList.length ≤ 2 ^ (caps c : ℕ))
    ∧ (∀ e, σ.Admits e → ∃ σ', σ.step e = some σ')
    ∧ ∃ σ', (List.range num).foldlM (fun σ c => σ.step (c, .reset)) σ = some σ'
        ∧ σ'.pool.freeList ~ List.range (2 ^ bits)
  := by
  obtain ⟨hinv, hnum, hpoolbits, hcaps⟩ := reaches_inv h (new_inv num hpool caps)
  obtain ⟨hnewbits, -⟩ := BufPool.of_new hpool
  have hbufNum : σ.pool.bufNum = 2 ^ bits := by
    rw [BufPool.bufNum, hpoolbits, ← hnewbits]
    rfl
  have hcap : ∀ c, (σ.bufs c).capacity = 2 ^ (caps c : ℕ) := by
    intro c
    rw [WriteBufBase.capacity, hcaps]
    rfl
  refine ⟨?_, hinv.free_zero, ?_, ?_, ?_⟩
  · rw [← hbufNum]
    apply hinv.perm
  · intro c hc
    change c < (new num pool caps).num at hc
    rw [← hnum] at hc
    rw [WriteBufBase.length_pendingList, WriteBufBase.length_sendList, ← hcap]
    exact ⟨hinv.pending_le c hc, hinv.send_le c hc⟩
  · intro e he
    obtain ⟨s', p', hstep, -⟩ := step_spec hinv he
    exact ⟨_, hstep⟩
  · obtain ⟨σ', hfold, hinv', hnum', hbits', hown⟩ := resetAll_spec (List.range num) hinv (by
      intro c hc
      rw [hnum]
      apply List.mem_range.mp hc)
    refine ⟨σ', hfold, ?_⟩
    have hnil : (List.range σ'.num).flatMap (fun c => (σ'.bufs c).own) = [] := by
      rw [List.flatMap_eq_nil_iff]
      intro c hc
      apply hown c
      left
      rw [hnum', hnum] at hc
      apply hc
    have hperm := hinv'.perm
    rw [Ownership.holdings, hnil, List.append_nil, BufPool.bufNum, hbits'] at hperm
    rw [← hbufNum]
    apply hperm

/-- A run of two buffers over a pool of four blocks of two bytes: the first sends five bytes,
of which three are acknowledged, and the second fails to append as the pool runs out. -/
theorem write_blocks_conserved_two_buffers :
  ∃ pool σ, BufPool.new 2 2 (by decide) (by decide) (by decide) = some pool
    ∧ Reaches step Admits (new 2 pool (fun _ => 2)) σ
    ∧ Ownership.holdings σ.pool.freeList σ.num
        (fun c => (σ.bufs c).pendingList ++ (σ.bufs c).sendList) ~ List.range (2 ^ 2)
    ∧ (σ.pool.freeList, (σ.bufs 0).sendList) = ([3, 2], [0, 1])
  := by
  have hrun : (BufPool.new 2 2 (by decide) (by decide) (by decide)).bind (fun pool =>
      (Reaches.follow step Admits
        [(0, .append [1, 2, 3]), (0, .prepend [7, 8]), (1, .append [5, 6, 7]), (0, .submit),
          (0, .peekIovec), (0, .consumeWritten 3)]
        (new 2 pool (fun _ => 2))).map (fun σ => (σ.pool.freeList, (σ.bufs 0).sendList)))
      = some ([3, 2], [0, 1]) := by
    decide +kernel
  obtain ⟨pool, hpool, hfollow⟩ := Option.bind_eq_some_iff.mp hrun
  obtain ⟨σ, hreach, hfinal⟩ := Reaches.of_follow _ hfollow
  use pool, σ, hpool, hreach, (write_blocks_conserved 2 hpool _ hreach).1

end WriteSystem

end Proactor
