import UringProactor.Buffer.Conservation
import UringProactor.Buffer.Room

/-!
# Blocks without data

`append` takes a first block even when it is called with no data, and `submit` moves it to the
send queue like any other.  No other operation lets an empty block into a window.  So, unless
`append` is called with no data while nothing is pending, every block of a write buffer holds
data, and the head block of the send queue has a byte that is not acknowledged.
-/

namespace Proactor

namespace WriteBufBase

variable {b b' : WriteBufBase} {p p' : BufPool} {F : List ℕ} {data : List UInt8}

/-- Among blocks that hold more than one block less could hold, none is empty. -/
theorem pos_of_lt_length_content {l : List ℕ} (hle : ∀ i, p.dataSize i ≤ p.bufSize)
    (hlt : (l.length - 1) * p.bufSize < (p.content l).length) {i : ℕ} (hi : i ∈ l) :
  0 < p.dataSize i
  := by
  obtain ⟨l₁, l₂, rfl⟩ := List.append_of_mem hi
  have hrest : (p.content (l₁ ++ l₂)).length ≤ (l₁ ++ l₂).length * p.bufSize := by
    apply Ownership.length_flatMap_le
    intro j _
    rw [BufPool.length_block]
    apply hle
  rw [BufPool.content_append, List.length_append, List.length_append] at hrest
  simp only [BufPool.content_append, BufPool.content_cons, List.length_append,
    BufPool.length_block, List.length_cons, ← Nat.add_assoc, Nat.add_sub_cancel] at hlt
  omega

/-- One block less does not hold the bytes that some blocks are for. -/
theorem blocks_mul_lt {size n : ℕ} (hsize : 0 < size) (hn : 0 < n) :
  ((n + size - 1) / size - 1) * size < n
  := by
  have hle := Nat.div_mul_le_self (n + size - 1) size
  rw [Nat.sub_mul, Nat.one_mul]
  omega

/-- The last pending block, if it holds data, and the blocks that `append` takes are needed for
the data. -/
theorem blocksToAppend_mul_lt {L : List ℕ} {t : ℕ} (hlast : b.pendingList = L ++ [t])
    (hpos : 0 < p.dataSize t) (hle : p.dataSize t ≤ p.bufSize) (data : List UInt8) :
  b.blocksToAppend p data * p.bufSize < p.dataSize t + data.length
  := by
  rcases Nat.le_total data.length (b.tailRoom p) with hroom | hroom
  · rw [blocksToAppend_eq_zero hroom, Nat.zero_mul]
    apply Nat.add_pos_left hpos
  · have hmul := Nat.div_mul_le_self (data.length - b.tailRoom p + p.bufSize - 1) p.bufSize
    rw [tailRoom_eq hlast] at hroom
    rw [blocksToAppend]
    rw [tailRoom_eq hlast] at hmul ⊢
    omega

/-- After a successful `append` all pending blocks hold data. -/
theorem Grown.pos (hg : Grown b p F data b' p') (h : Sound b p) (ha : p.Addressable)
    (hlen : F.length = b.blocksNeeded p data) (hpos : ∀ i ∈ b.pendingList, 0 < p.dataSize i)
    (hdata : data = [] → b.pendingList ≠ []) :
  ∀ i ∈ b'.pendingList, 0 < p'.dataSize i
  := by
  have hcontent := hg.content ha
  have hle : ∀ i, p'.dataSize i ≤ p'.bufSize := by
    rw [hg.bufSize]
    apply hg.size_le
  rcases List.eq_nil_or_concat' b.pendingList with hnil | ⟨L, t, hlast⟩
  · -- All pending blocks are new.
    have hne : 0 < data.length := List.length_pos_iff.mpr (fun hd => hdata hd hnil)
    have hlt := blocks_mul_lt p.bufSize_pos hne
    have hone := Nat.div_pos (Nat.le_sub_one_of_lt (Nat.lt_add_of_pos_left hne)) p.bufSize_pos
    rw [blocksNeeded, if_pos hnil, Nat.max_eq_right hone] at hlen
    rw [hg.pending, hnil, List.nil_append] at hcontent ⊢
    intro i hi
    apply pos_of_lt_length_content hle _ hi
    rw [hcontent, hlen, hg.bufSize]
    apply hlt
  · -- The last pending block was filled, and the blocks before it are as they were.
    obtain ⟨hnodup, hbufNum⟩ := hg.pending_nodup h
    rw [hg.pending, hlast, List.append_assoc, List.singleton_append] at hnodup hbufNum hcontent ⊢
    have hblock : ∀ i ∈ L, p'.block i = p.block i := by
      intro i hi
      have hnot : i ∉ t :: F := fun hmem => List.disjoint_of_nodup_append hnodup hi hmem
      apply hg.block_other ha i (hbufNum i (List.mem_append_left _ hi))
      · exact fun hF => hnot (List.mem_cons_of_mem _ hF)
      · rw [hlast, List.getLast?_concat]
        rintro ⟨⟩
        exact hnot List.mem_cons_self
    rw [BufPool.content_append, BufPool.content_append, List.append_assoc,
      show p'.content L = p.content L from List.flatMap_congr hblock] at hcontent
    have hfilled := congrArg List.length (List.append_cancel_left hcontent)
    intro i hi
    rcases List.mem_append.mp hi with hL | hF
    · rw [← BufPool.length_block, hblock i hL, BufPool.length_block]
      apply hpos
      rw [hlast]
      apply List.mem_append_left _ hL
    · apply pos_of_lt_length_content hle _ hF
      have hlt := blocksToAppend_mul_lt hlast (hpos t (by simp [hlast])) (h.size_le t) data
      rw [blocksNeeded, if_neg (by simp [hlast])] at hlen
      rw [hfilled, List.length_cons, Nat.add_sub_cancel, hlen, hg.bufSize, List.length_append]
      simpa [BufPool.content] using hlt

/-- The blocks that `prepend` computes are needed for the data, also when the rounding wraps. -/
theorem blockToWrite_mul_lt (hpos : 0 < blockToWrite p data) :
  (blockToWrite p data - 1) * p.bufSize < min (blockToWrite p data * p.bufSize) data.length
  := by
  have hmul : blockToWrite p data * p.bufSize ≤ data.length + p.bufSize - 1 :=
    (Nat.div_mul_le_self _ _).trans (Nat.mod_le _ _)
  have hone : p.bufSize ≤ blockToWrite p data * p.bufSize := Nat.le_mul_of_pos_left _ hpos
  have hsize := p.bufSize_pos
  rw [Nat.sub_mul, Nat.one_mul]
  omega

/-- After a successful `prepend` all pending blocks hold data. -/
theorem Fronted.pos (hf : Fronted b p F (taken p data) b' p') (h : Sound b p)
    (ha : p.Addressable) (hlen : F.length = blockToWrite p data)
    (hpos : ∀ i ∈ b.pendingList, 0 < p.dataSize i) :
  ∀ i ∈ b'.pendingList, 0 < p'.dataSize i
  := by
  intro i hi
  rw [hf.pending] at hi
  rcases List.mem_append.mp hi with hF | hb
  · apply pos_of_lt_length_content (hf.bufSize ▸ hf.size_le) _ hF
    rw [hf.content ha, hlen, hf.bufSize, taken, List.length_take]
    apply blockToWrite_mul_lt
    rw [← hlen]
    apply List.length_pos_of_mem hF
  · rw [hf.size_other i]
    · apply hpos i hb
    · intro hF
      apply (h.of_mem_pending hb).2
      rw [hf.free]
      apply List.mem_append_left _ hF

end WriteBufBase

namespace WriteBufStream

variable {s s' : WriteBufStream} {p p' : BufPool}

/-- Every block of the buffer holds data, and the head block of the send queue has a byte that is
not acknowledged. -/
structure Filled (s : WriteBufStream) (p : BufPool) : Prop where
  pos : ∀ i ∈ s.own, 0 < p.dataSize i
  offset_lt : s.sendHeadOffset < (s.sendList.head?.map p.dataSize).getD 1

/-- What concerns neither the blocks nor the offset keeps a buffer filled. -/
theorem Filled.congr (h : Filled s p) (hown : s'.own = s.own) (hsend : s'.sendList = s.sendList)
    (hoffset : s'.sendHeadOffset = s.sendHeadOffset)
    (hsize : ∀ i ∈ s.own, p'.dataSize i = p.dataSize i) :
  Filled s' p'
  := by
  constructor
  · intro i hi
    rw [hown] at hi
    rw [hsize i hi]
    apply h.pos i hi
  · rw [hoffset, hsend]
    apply h.offset_lt.trans_eq
    cases hl : s.sendList with
    | nil => rfl
    | cons i l =>
        symm
        apply hsize
        rw [WriteBufBase.own, hl]
        apply List.mem_append_right _ List.mem_cons_self

/-- Without blocks a buffer is filled. -/
theorem Filled.of_nil (h : Sound s p) (hown : s.own = []) :
  Filled s p
  := by
  obtain ⟨-, hsend⟩ := List.append_eq_nil_iff.mp hown
  have hle := h.offset_le
  constructor
  · intro i hi
    rw [hown] at hi
    cases hi
  · rw [hsend] at hle ⊢
    exact Nat.lt_succ_of_le hle

/-- An operation on the pending window, after which the pending blocks hold data. -/
theorem Filled.exchange_pending (h : Filled s p) (hs : Sound s p) {b' : WriteBufBase}
    (he : WriteBufBase.Exchange s.toWriteBufBase p b' p') (hsend : b'.send = s.send)
    (hpos : ∀ i ∈ b'.pendingList, 0 < p'.dataSize i) :
  Filled { s with toWriteBufBase := b' } p'
  := by
  have hlist : b'.sendList = s.sendList := by
    rw [WriteBufBase.sendList, hsend, he.bits]
    rfl
  have hsize : ∀ i ∈ s.sendList, p'.dataSize i = p.dataSize i := by
    intro i hi
    obtain ⟨-, hfree, hpending⟩ := hs.of_mem_send hi
    rw [← hlist] at hi
    apply he.frame_size i hfree hpending ((he.sound hs.toSound).of_mem_send hi).2.1
  constructor
  · intro i hi
    rcases List.mem_append.mp hi with hp | hq
    · apply hpos i hp
    · change i ∈ b'.sendList at hq
      rw [hlist] at hq
      rw [hsize i hq]
      apply h.pos i (List.mem_append_right _ hq)
  · change s.sendHeadOffset < (b'.sendList.head?.map p'.dataSize).getD 1
    rw [hlist]
    apply h.offset_lt.trans_eq
    cases hl : s.sendList with
    | nil => rfl
    | cons i l =>
        symm
        apply hsize
        rw [hl]
        apply List.mem_cons_self

/-- `submit` keeps a buffer filled. -/
theorem Filled.submit {ok : Bool} (h : Filled s p) (hs : Sound s p)
    (hsubmit : s.submit = (ok, s')) :
  Filled s' p
  := by
  obtain ⟨-, -, -, hoffset, hsend, hpending⟩ := submit_spec hs hsubmit
  have hown : s'.own.Perm s.own := by
    rw [WriteBufBase.own, WriteBufBase.own, hsend, hpending]
    split
    · rw [List.nil_append]
      apply List.perm_append_comm
    · rw [List.append_nil]
  constructor
  · intro i hi
    apply h.pos i (hown.mem_iff.mp hi)
  · have hlt := h.offset_lt
    rw [hoffset]
    cases hl : s.sendList with
    | cons i l =>
        rw [hl] at hlt hsend
        rw [hsend]
        exact hlt
    | nil =>
        -- The offset is zero, and the head block, if there is one, was pending.
        rw [hl] at hlt
        apply Nat.lt_of_lt_of_le hlt
        cases hl' : s'.sendList with
        | nil => exact le_rfl
        | cons i l =>
            apply h.pos i (hown.mem_iff.mp _)
            rw [WriteBufBase.own, hl']
            apply List.mem_append_right _ List.mem_cons_self

/-- `consume_written` keeps a buffer filled. -/
theorem Filled.consumeWritten {bytes : ℕ} (h : Filled s p) (hs : Sound s p)
    (hconsume : s.consumeWritten p bytes = some (s', p')) :
  Filled s' p'
  := by
  fun_induction WriteBufStream.consumeWritten s p bytes with
  | case1 s p =>
      cases hconsume
      exact h
  | case2 => cases hconsume
  | case3 s p bytes hpos hne idx remaining hlt =>
      have hl : s.sendList = idx :: s.send.pop.toList s.bits := Circular.toList_of_ne hne
      have hoff : s.sendHeadOffset < p.dataSize idx := by
        have := h.offset_lt
        rwa [hl] at this
      have hrem : remaining = p.dataSize idx - s.sendHeadOffset := u32Sub_of_le hoff.le
      have hlt' : u32 (s.sendHeadOffset + bytes) < p.dataSize idx := by
        apply Nat.lt_of_le_of_lt (Nat.mod_le _ _)
        omega
      cases hconsume
      refine ⟨h.pos, ?_⟩
      change u32 (s.sendHeadOffset + bytes) < (s.sendList.head?.map p'.dataSize).getD 1
      rw [hl]
      exact hlt'
  | case4 s p bytes hpos hne idx remaining hge =>
      rename_i ih
      have hl : s.sendList = idx :: s.send.pop.toList s.bits := Circular.toList_of_ne hne
      obtain ⟨p₁, hrel, hc, hs₁, -⟩ := hs.release_head hl
      rw [hrel, Option.bind_some] at hconsume
      apply ih p₁ _ hs₁ hconsume
      have hpos₁ : ∀ i ∈ s.pendingList ++ s.send.pop.toList s.bits, 0 < p₁.dataSize i := by
        intro i hi
        have hnodup := List.Nodup.of_append_right hs.nodup
        rw [hl] at hnodup
        have hne : i ∉ [idx] := by
          rw [List.mem_singleton]
          rintro rfl
          apply (List.nodup_middle.mp hnodup).notMem hi
        rw [hc.returned.dataSize, if_neg hne]
        apply h.pos
        rw [WriteBufBase.own, hl]
        apply List.perm_middle.mem_iff.mpr (List.mem_cons_of_mem _ hi)
      refine ⟨hpos₁, ?_⟩
      change 0 < ((s.send.pop.toList s.bits).head?.map p₁.dataSize).getD 1
      cases hl₁ : s.send.pop.toList s.bits with
      | nil => exact Nat.one_pos
      | cons i l =>
          apply hpos₁
          rw [hl₁]
          apply List.mem_append_right _ List.mem_cons_self

/-- Nothing is appended to an empty window but data. -/
def Sensible (s : WriteBufStream) : WriteOp → Prop
  | .append data => data = [] → s.pendingList ≠ []
  | _ => True

instance (s : WriteBufStream) (op : WriteOp) : Decidable (s.Sensible op) :=
  match op with
  | .append _ => inferInstanceAs (Decidable (_ → _))
  | .prepend _ | .submit | .discardPending | .peekIovec | .consumeWritten _ | .reset =>
      .isTrue trivial

/-- Every operation keeps a buffer filled, unless it appends no data to an empty window. -/
theorem Filled.run {op : WriteOp} (h : Filled s p) (hs : Sound s p) (ha : p.Addressable)
    (hop : s.Sensible op) (hrun : s.run p op = some (s', p')) :
  Filled s' p'
  := by
  cases op with
  | append data =>
      obtain ⟨⟨ok, b', _⟩, happend, heq⟩ := Option.map_eq_some_iff.mp hrun
      cases heq
      obtain ⟨he, hsend, -⟩ := WriteBufBase.append_exchange hs.toSound happend
      apply h.exchange_pending hs he hsend
      obtain ⟨_, _, _, heq, hspec⟩ := WriteBufBase.append_spec hs.toSound data
      rw [happend] at heq
      cases heq
      have hpos : ∀ i ∈ s.pendingList, 0 < p.dataSize i :=
        fun i hi => h.pos i (List.mem_append_left _ hi)
      cases ok with
      | true =>
          obtain ⟨-, F, hg⟩ := hspec
          have hlen := WriteBufBase.length_of_append hs.toSound happend
          rw [hg.pending, List.length_append, Nat.add_left_cancel_iff] at hlen
          apply hg.pos hs.toSound ha hlen hpos hop
      | false =>
          intro i hi
          rw [hspec.pending] at hi
          rw [hspec.dataSize]
          apply hpos i hi
  | prepend data =>
      obtain ⟨⟨ok, b', _⟩, hprepend, heq⟩ := Option.map_eq_some_iff.mp hrun
      cases heq
      obtain ⟨he, hsend, -⟩ := WriteBufBase.prepend_exchange hs.toSound hprepend
      apply h.exchange_pending hs he hsend
      obtain ⟨_, _, _, heq, hspec⟩ := WriteBufBase.prepend_spec hs.toSound data
      rw [hprepend] at heq
      cases heq
      have hpos : ∀ i ∈ s.pendingList, 0 < p.dataSize i :=
        fun i hi => h.pos i (List.mem_append_left _ hi)
      cases ok with
      | true =>
          obtain ⟨F, hlen, hf⟩ := hspec
          apply hf.pos hs.toSound ha hlen hpos
      | false =>
          intro i hi
          rw [hspec.pending] at hi
          rw [hspec.dataSize]
          apply hpos i hi
  | submit =>
      cases hrun
      apply h.submit hs (rfl : s.submit = (s.submit.1, s.submit.2))
  | discardPending =>
      obtain ⟨⟨b', _⟩, hdiscard, heq⟩ := Option.map_eq_some_iff.mp hrun
      cases heq
      obtain ⟨_, _, heq, he, hsend, hnil⟩ := WriteBufBase.discardPending_spec hs.toSound
      rw [hdiscard] at heq
      cases heq
      apply h.exchange_pending hs he hsend
      rw [hnil]
      nofun
  | peekIovec =>
      cases hrun
      by_cases hnil : s.sendList = []
      · rw [peekIovec_of_nil hnil]
        exact h
      · rw [peekIovec_of_ne hs hnil]
        exact h.congr rfl rfl rfl (fun _ _ => rfl)
  | consumeWritten bytes => exact h.consumeWritten hs hrun
  | reset =>
      obtain ⟨_, _, heq, -, hs', hpending, hsend⟩ := reset_spec hs.toSound
      rw [show s.reset p = _ from hrun] at heq
      cases heq
      apply Filled.of_nil hs'
      rw [WriteBufBase.own, hpending, hsend, List.append_nil]

/-- The send queue holds fewer than `2 ^ 31` bytes. -/
theorem Sound.length_unsent_lt (hs : Sound s p) (ha : p.Addressable) :
  (s.unsent p).length < 2 ^ 31
  := by
  have hnum : s.sendList.length ≤ p.bufNum := by
    apply Ownership.length_le_of_nodup
    · apply List.Nodup.of_append_right (List.Nodup.of_append_right hs.nodup)
    · intro i hi
      apply (hs.of_mem_send hi).1
  calc (s.unsent p).length
      _ ≤ (p.content s.sendList).length := by
        rw [unsent, List.length_drop]
        apply Nat.sub_le
      _ ≤ s.sendList.length * p.bufSize := by
        apply Ownership.length_flatMap_le
        intro i _
        rw [BufPool.length_block]
        apply hs.size_le
      _ ≤ p.bufNum * p.bufSize := Nat.mul_le_mul_right _ hnum
      _ < 2 ^ 31 := ha

/-- In a filled buffer, `peek_iovec` reports no iovec, or at least one byte. -/
theorem Filled.peekIovec_pos (h : Filled s p) (hs : Sound s p) (ha : p.Addressable)
    {count bytes : ℕ} (hcount : count ≠ 0) (hpeek : s.peekIovec p = (count, bytes, s')) :
  0 < bytes
  := by
  have hne : s.sendList ≠ [] := by
    intro hnil
    rw [peekIovec_of_nil hnil] at hpeek
    cases hpeek
    exact hcount rfl
  rw [peekIovec_of_ne hs hne] at hpeek
  cases hpeek
  have hlt := hs.length_unsent_lt ha
  rw [u32_of_lt (by omega)]
  obtain ⟨i, l, hl⟩ := List.exists_cons_of_ne_nil hne
  have hoffset := h.offset_lt
  rw [hl] at hoffset
  change s.sendHeadOffset < p.dataSize i at hoffset
  rw [unsent_of_cons hl hoffset.le, List.length_append, List.length_drop, BufPool.length_block]
  omega

end WriteBufStream

namespace WriteSystem

variable {σ σ' : WriteSystem}

/-- Besides what callers promise, nothing is appended to an empty window but data. -/
def Sensible (σ : WriteSystem) (e : ℕ × WriteOp) : Prop :=
  σ.Admits e ∧ (σ.bufs e.1).Sensible e.2

instance (σ : WriteSystem) (e : ℕ × WriteOp) : Decidable (σ.Sensible e) :=
  inferInstanceAs (Decidable (_ ∧ _))

/-- The blocks are conserved, and all buffers are filled. -/
structure Packed (σ : WriteSystem) : Prop where
  inv : σ.Inv
  addressable : σ.pool.Addressable
  filled : ∀ c < σ.num, (σ.bufs c).Filled σ.pool

theorem Packed.step (h : σ.Packed) {e : ℕ × WriteOp} (he : σ.Sensible e)
    (hstep : σ.step e = some σ') :
  σ'.Packed
  := by
  obtain ⟨⟨hc, hop⟩, hsensible⟩ := he
  have hs := h.inv.sound hc
  obtain ⟨s', p', hrun, hex, hs'⟩ := WriteBufStream.run_spec hs hop
  rw [WriteSystem.step, hrun] at hstep
  cases hstep
  refine ⟨h.inv.update hc hex hs', hex.addressable h.addressable, ?_⟩
  intro d hd
  by_cases hdc : d = e.1
  · subst hdc
    change (Function.update σ.bufs e.1 s' e.1).Filled p'
    rw [Function.update_self]
    apply (h.filled e.1 hc).run hs h.addressable hsensible hrun
  · change (Function.update σ.bufs e.1 s' d).Filled p'
    rw [Function.update_of_ne hdc]
    apply (h.filled d hd).congr rfl rfl rfl
    intro i hi
    obtain ⟨-, hfree, hpending, hfree'⟩ := Conserved.frame h.inv hc hd hdc hex hi
    apply hex.frame_size i hfree hpending hfree'

/-- New buffers over a new pool are filled, and stay so. -/
theorem packed_of_reaches {num bits bufSize : ℕ} {hbits : bits ≤ 30} {hpos : 0 < bufSize}
    {hlt : bufSize < 2 ^ 31} {pool : BufPool} {caps : ℕ → Fin 31}
    (hpool : BufPool.new bits bufSize hbits hpos hlt = some pool)
    (halloc : 2 ^ bits * bufSize < 2 ^ 31) (h : Reaches step Sensible (new num pool caps) σ) :
  σ.Packed
  := by
  have hinv := new_inv num hpool caps
  apply h.invariant
  · refine ⟨hinv, BufPool.addressable_of_new hpool halloc, ?_⟩
    intro c hc
    apply WriteBufStream.Filled.of_nil (hinv.sound hc)
    apply List.append_eq_nil_iff.mpr
    constructor
    · exact (Circular.toList_eq_nil_iff _).mpr rfl
    · exact (Circular.toList_eq_nil_iff _).mpr rfl
  · intro σ σ' e hpacked he hstep
    apply hpacked.step he hstep

end WriteSystem

end Proactor
