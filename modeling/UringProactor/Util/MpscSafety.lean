import UringProactor.Util.MpscQueue

/-!
# Safety of the queue

`Inv` relates the memory of the queue to its tickets.  The tickets taken but not consumed, and
the free slots after them, are the numbers from `consumed` on, `Capacity` many; each has a
slot of its own, whose sequence is the ticket, or one more once the ticket is published.  A
producer between its compare-exchange and its store of the sequence holds an unpublished
ticket of its own.  Every step keeps this, and is a step of the bounded queue by tickets.
-/

namespace Proactor

namespace QueueSystem

variable {P T : Type*}

/-- The producer `p` holds the ticket `pos`, which it has not published. -/
structure Holds (t : TicketQueue (P × T)) (p : P) (item : T) (pos : BitVec 64) : Prop where
  taken : t.taken[pos.toNat]? = some (p, item)
  unpublished : pos.toNat ∉ t.published

/-- What holds of the local variables of the producer `p`. -/
def ProducerOk (q : MPSCQueue T) (t : TicketQueue (P × T)) (p : P) : EnqueuePc T → Prop
  | .loadSequence _ pos => pos.toNat ≤ t.taken.length
  | .compareExchange _ pos =>
      pos.toNat ≤ t.taken.length ∧ pos.toNat < t.consumed + q.capacity
  | .storeData item pos => Holds t p item pos
  | .storeSequence item pos => Holds t p item pos ∧ q.data (q.index pos) = item
  | _ => True

/-- What holds of the local variables of the consumer, when `dequeue` has returned `n`
items. -/
def ConsumerOk (t : TicketQueue (P × T)) (n : ℕ) : DequeuePc T → Prop
  | .readData => t.consumed = n ∧ t.consumed ∈ t.published
  | .storeSequence item =>
      t.consumed = n ∧ t.consumed ∈ t.published ∧ t.taken[n]?.map Prod.snd = some item
  | .advance item => t.consumed = n + 1 ∧ t.taken[n]?.map Prod.snd = some item
  | _ => t.consumed = n

/-- The invariant of the system. -/
structure Inv (s : QueueSystem P T) : Prop where
  tickets : s.tickets.Sound s.queue.capacity
  tail : s.queue.tail.toNat = s.tickets.taken.length
  head : s.queue.head.toNat = s.returned.length
  sequence : ∀ k, s.tickets.consumed ≤ k → k < s.tickets.consumed + s.queue.capacity →
    (s.queue.sequence (k % s.queue.capacity)).toNat = if k ∈ s.tickets.published then k + 1 else k
  data : ∀ k ∈ s.tickets.published, s.tickets.consumed ≤ k →
    s.tickets.taken[k]?.map Prod.snd = some (s.queue.data (k % s.queue.capacity))
  producers : ∀ p, ProducerOk s.queue s.tickets p (s.producers p)
  consumer : ConsumerOk s.tickets s.returned.length s.consumer
  returned : s.returned = (s.tickets.taken.take s.returned.length).map Prod.snd

/-- The tickets and the slots after them fit into the counters. -/
def Fits (s : QueueSystem P T) : Prop := s.tickets.taken.length + s.queue.capacity < 2 ^ 64

variable {s s' : QueueSystem P T} {t t' : TicketQueue (P × T)} {q q' : MPSCQueue T} {p : P}
  {item : T} {pos : BitVec 64} {n k : ℕ}

/-! ### Slots -/

theorem capacity_pos (q : MPSCQueue T) :
  0 < q.capacity
  := Nat.two_pow_pos q.bits

/-- A slot has the remainder of its counter as index. -/
theorem index_eq (h : q.capacity < 2 ^ 64) (pos : BitVec 64) :
  q.index pos = pos.toNat % q.capacity
  := Circular.slot_eq_mod ((Nat.pow_lt_pow_iff_right (by decide)).mp h) pos

/-- Among as many numbers in a row as there are slots, one has a given slot. -/
theorem exists_mod_eq (a n : ℕ) {c : ℕ} (hc : 0 < c) :
  ∃ k, a ≤ k ∧ k < a + c ∧ k % c = n % c
  := by
  have hdiv := Nat.div_add_mod a c
  have hmod := Nat.mod_lt a hc
  have hn := Nat.mod_lt n hc
  rcases Nat.lt_or_ge (c * (a / c) + n % c) a with hlt | hge
  · use c * (a / c) + n % c + c
    refine ⟨by omega, by omega, ?_⟩
    rw [Nat.add_mod_right, Nat.mul_add_mod, Nat.mod_mod]
  · use c * (a / c) + n % c
    refine ⟨hge, by omega, ?_⟩
    rw [Nat.mul_add_mod, Nat.mod_mod]

/-- Numbers less than the number of slots apart have different slots. -/
theorem mod_ne {a b j c : ℕ} (ha : j ≤ a) (ha' : a < j + c) (hb : j ≤ b) (hb' : b < j + c)
    (hab : a ≠ b) :
  a % c ≠ b % c
  := by
  intro heq
  rcases Nat.lt_or_gt_of_ne hab with hlt | hlt
  · have := Nat.le_of_dvd (by omega) ((Nat.modEq_iff_dvd' hlt.le).mp heq)
    omega
  · have := Nat.le_of_dvd (by omega) ((Nat.modEq_iff_dvd' hlt.le).mp heq.symm)
    omega

/-! ### The tickets of the producers -/

theorem Holds.lt (h : Holds t p item pos) :
  pos.toNat < t.taken.length
  := (List.getElem?_eq_some_iff.mp h.taken).1

/-- A ticket that is not published is not consumed. -/
theorem Holds.consumed_le {c : ℕ} (h : Holds t p item pos) (hsound : t.Sound c) :
  t.consumed ≤ pos.toNat
  := by
  by_contra hlt
  apply h.unpublished
  apply hsound.consumed_published
  omega

/-- Different producers hold different tickets. -/
theorem Holds.ne {p' : P} {item' : T} {pos' : BitVec 64} (h : Holds t p item pos)
    (h' : Holds t p' item' pos') (hne : p ≠ p') :
  pos.toNat ≠ pos'.toNat
  := by
  intro heq
  have hget := h.taken
  rw [heq, h'.taken] at hget
  cases hget
  exact hne rfl

/-- What holds of a producer goes on to hold while its ticket and its slot are left alone. -/
theorem ProducerOk.frame {pc : EnqueuePc T} (h : ProducerOk q t p pc) (hbits : q'.bits = q.bits)
    (htaken : t.taken <+: t'.taken) (hconsumed : t.consumed ≤ t'.consumed)
    (hheld : ∀ item pos, Holds t p item pos →
      pos.toNat ∉ t'.published ∧ q'.data (q.index pos) = q.data (q.index pos)) :
  ProducerOk q' t' p pc
  := by
  have hlen := htaken.length_le
  have hcap : q'.capacity = q.capacity := congrArg (2 ^ ·) hbits
  have hholds : ∀ item pos, Holds t p item pos → Holds t' p item pos := by
    intro item pos hh
    refine ⟨?_, (hheld item pos hh).1⟩
    obtain ⟨rest, hrest⟩ := htaken
    rw [← hrest, List.getElem?_append_left hh.lt]
    exact hh.taken
  cases pc with
  | loadSequence item pos => exact Nat.le_trans h hlen
  | compareExchange item pos =>
      refine ⟨Nat.le_trans h.1 hlen, ?_⟩
      rw [hcap]
      exact Nat.lt_of_lt_of_le h.2 (by omega)
  | storeData item pos => exact hholds item pos h
  | storeSequence item pos =>
      refine ⟨hholds item pos h.1, ?_⟩
      rw [show q'.index pos = q.index pos from congrArg (Circular.slot · pos) hbits,
        (hheld item pos h.1).2]
      exact h.2
  | _ => trivial

/-- No more items are returned than tickets were taken. -/
theorem Inv.length_returned_le (h : Inv s) :
  s.returned.length ≤ s.tickets.taken.length
  := by
  have := congrArg List.length h.returned
  rw [List.length_map, List.length_take] at this
  omega

/-! ### What the loads find -/

/-- The sequence of a slot is that of the ticket among the current ones that has the slot. -/
theorem Inv.sequence_index (h : Inv s) (hfits : s.Fits) (pos : BitVec 64) :
  ∃ k, s.tickets.consumed ≤ k ∧ k < s.tickets.consumed + s.queue.capacity
    ∧ k % s.queue.capacity = pos.toNat % s.queue.capacity
    ∧ (s.queue.sequence (s.queue.index pos)).toNat
      = if k ∈ s.tickets.published then k + 1 else k
  := by
  have hlt : s.queue.capacity < 2 ^ 64 := lt_of_le_of_lt (Nat.le_add_left _ _) hfits
  obtain ⟨k, hle, hk, hmod⟩ := exists_mod_eq s.tickets.consumed pos.toNat (capacity_pos s.queue)
  use k, hle, hk, hmod
  rw [index_eq hlt, ← hmod]
  apply h.sequence k hle hk

theorem diff_eq_zero_iff (a b : BitVec 64) :
  MPSCQueue.diff a b = 0 ↔ a.toNat = b.toNat
  := by
  rw [MPSCQueue.diff, Int.sub_eq_zero, BitVec.toInt_inj, BitVec.toNat_inj]

/-- A slot whose sequence is the position is free at the position. -/
theorem Inv.lt_of_free (h : Inv s) (hfits : s.Fits) (hbits : 1 ≤ s.queue.bits)
    (hdiff : MPSCQueue.diff (s.queue.sequence (s.queue.index pos)) pos = 0) :
  pos.toNat < s.tickets.consumed + s.queue.capacity
  := by
  obtain ⟨k, hle, hk, hmod, hseq⟩ := h.sequence_index hfits pos
  rw [(diff_eq_zero_iff _ _).mp hdiff] at hseq
  split at hseq
  case isFalse => omega
  case isTrue =>
    -- With two slots or more, a ticket and the next one have different slots.
    have hcap : 2 ^ 1 ≤ s.queue.capacity := Nat.pow_le_pow_right (by decide) hbits
    rw [hseq] at hmod
    have := mod_ne (j := k) le_rfl (by omega) (by omega) (by omega) (by omega) hmod
    contradiction

/-- A sequence below the position means that the slot still has an older ticket. -/
theorem Inv.full_of_diff_neg (h : Inv s)
    (hfits : s.tickets.taken.length + s.queue.capacity ≤ 2 ^ 63)
    (hpos : pos.toNat ≤ s.tickets.taken.length)
    (hdiff : MPSCQueue.diff (s.queue.sequence (s.queue.index pos)) pos < 0) :
  s.tickets.Full s.queue.capacity
  := by
  have hcap := capacity_pos s.queue
  have hle' := h.tickets.consumed_le
  obtain ⟨k, hle, hk, hmod, hseq⟩ := h.sequence_index (by rw [Fits]; omega) pos
  have hseqle : k ≤ (s.queue.sequence (s.queue.index pos)).toNat := by
    rw [hseq]
    split <;> omega
  have hseqlt : (s.queue.sequence (s.queue.index pos)).toNat < 2 ^ 63 := by
    rw [hseq]
    split
    case isTrue hmem =>
      have := h.tickets.published_lt k hmem
      omega
    case isFalse => omega
  rw [MPSCQueue.diff, BitVec.toInt_eq_toNat_of_lt (by omega),
    BitVec.toInt_eq_toNat_of_lt (by omega)] at hdiff
  have hdvd := (Nat.modEq_iff_dvd' (by omega : k ≤ pos.toNat)).mp hmod
  have := Nat.le_of_dvd (by omega) hdvd
  rw [TicketQueue.Full]
  omega

/-- The consumer finds a published slot exactly when the oldest ticket left is published. -/
theorem Inv.found_iff (h : Inv s) (hfits : s.Fits) (hconsumed : s.tickets.consumed = s.returned.length) :
  MPSCQueue.diff (s.queue.sequence (s.queue.index s.queue.head)) (s.queue.head + 1) = 0
    ↔ s.tickets.consumed ∈ s.tickets.published
  := by
  have hcap := capacity_pos s.queue
  have hle := h.tickets.consumed_le
  have hfits' : s.tickets.taken.length + s.queue.capacity < 2 ^ 64 := hfits
  have hhead : s.queue.head.toNat = s.tickets.consumed := by rw [h.head, hconsumed]
  have hseq := h.sequence s.tickets.consumed le_rfl (by omega)
  rw [diff_eq_zero_iff, index_eq (by omega), hhead, hseq, BitVec.toNat_add, hhead]
  change _ = (_ + 1) % _ ↔ _
  rw [Nat.mod_eq_of_lt (by omega)]
  split
  case isTrue hmem => simp [hmem]
  case isFalse hmem => simp [hmem]

/-- Two of the current tickets that differ have different slots. -/
theorem Inv.mod_ne (h : Inv s) {a b : ℕ} (ha : s.tickets.consumed ≤ a)
    (ha' : a < s.tickets.taken.length) (hb : s.tickets.consumed ≤ b)
    (hb' : b < s.tickets.taken.length) (hab : a ≠ b) :
  a % s.queue.capacity ≠ b % s.queue.capacity
  := by
  have := h.tickets.length_le
  apply QueueSystem.mod_ne ha (by omega) hb (by omega) hab

/-- No producer stores into a slot that is published and not consumed. -/
theorem Inv.index_ne_of_published (h : Inv s) (hfits : s.Fits) (hholds : Holds s.tickets p item pos)
    (hk : k ∈ s.tickets.published) (hle : s.tickets.consumed ≤ k) :
  s.queue.index pos ≠ k % s.queue.capacity
  := by
  rw [index_eq (lt_of_le_of_lt (Nat.le_add_left _ _) hfits)]
  apply h.mod_ne (hholds.consumed_le h.tickets) hholds.lt hle (h.tickets.published_lt k hk)
  rintro rfl
  exact hholds.unpublished hk

/-- Storing the data of a ticket touches the slot of no other one. -/
theorem Inv.index_ne_of_holds (h : Inv s) (hfits : s.Fits) {p' : P} {item' : T} {pos' : BitVec 64}
    (hholds : Holds s.tickets p item pos) (hholds' : Holds s.tickets p' item' pos')
    (hne : p' ≠ p) :
  s.queue.index pos' ≠ s.queue.index pos
  := by
  have hlt : s.queue.capacity < 2 ^ 64 := lt_of_le_of_lt (Nat.le_add_left _ _) hfits
  rw [index_eq hlt, index_eq hlt]
  apply h.mod_ne (hholds'.consumed_le h.tickets) hholds'.lt (hholds.consumed_le h.tickets)
    hholds.lt (hholds'.ne hholds hne)

/-- A producer whose compare-exchange succeeds finds a free slot. -/
theorem Inv.room (h : Inv s) (hpc : s.producers p = .compareExchange item pos)
    (htail : s.queue.tail = pos) :
  ¬ s.tickets.Full s.queue.capacity
  := by
  have hok := h.producers p
  rw [hpc] at hok
  rw [TicketQueue.Full, ← h.tail, htail]
  exact Nat.not_le.mpr hok.2

/-- The consumer gives back the slot of a published ticket. -/
theorem Inv.front (h : Inv s) (hpc : s.consumer = .storeSequence item) :
  ∃ a, s.tickets.front = some a
  := by
  have hok := h.consumer
  rw [hpc] at hok
  have hlt := h.tickets.published_lt _ hok.2.1
  use s.tickets.taken[s.tickets.consumed]
  rw [TicketQueue.front, if_pos hok.2.1, List.getElem?_eq_getElem hlt]

/-! ### Steps of the consumer -/

/-- The consumer gives the slot of the oldest ticket back. -/
theorem Inv.giveBack (h : Inv s) (hfits : s.Fits) (hpc : s.consumer = .storeSequence item) :
  Inv { s with
    consumer := .advance item
    queue := s.queue.storeSequence s.queue.head
      (s.queue.head + BitVec.ofNat 64 s.queue.capacity)
    tickets := s.tickets.consume }
  := by
  obtain ⟨hconsumed, hmem, hitem⟩ : s.tickets.consumed = s.returned.length
      ∧ s.tickets.consumed ∈ s.tickets.published
      ∧ s.tickets.taken[s.returned.length]?.map Prod.snd = some item := by
    have hok := h.consumer
    rwa [hpc] at hok
  have hfits' : s.tickets.taken.length + s.queue.capacity < 2 ^ 64 := hfits
  have hcap : s.queue.capacity < 2 ^ 64 := by omega
  have hlt := h.tickets.published_lt _ hmem
  have hle := h.tickets.length_le
  have hhead : s.queue.head.toNat = s.tickets.consumed := by rw [h.head, hconsumed]
  have hindex : s.queue.index s.queue.head = s.tickets.consumed % s.queue.capacity := by
    rw [index_eq hcap, hhead]
  obtain ⟨a, hfront⟩ := h.front hpc
  constructor
  case tickets => exact (TicketQueue.Step.consume hfront).sound h.tickets
  case tail => exact h.tail
  case head => exact h.head
  case sequence =>
    intro k hkle hk
    have hkle : s.tickets.consumed + 1 ≤ k := hkle
    have hk : k < s.tickets.consumed + 1 + s.queue.capacity := hk
    change (Function.update s.queue.sequence (s.queue.index s.queue.head) _
      (k % s.queue.capacity)).toNat = if k ∈ s.tickets.published then k + 1 else k
    rcases eq_or_ne k (s.tickets.consumed + s.queue.capacity) with rfl | hne
    · -- The slot given back waits for the ticket `Capacity` further on.
      have hnot : s.tickets.consumed + s.queue.capacity ∉ s.tickets.published := by
        intro hpub
        have := h.tickets.published_lt _ hpub
        omega
      rw [Nat.add_mod_right, hindex, Function.update_self, if_neg hnot, BitVec.toNat_add, hhead,
        BitVec.toNat_ofNat, Nat.mod_eq_of_lt hcap, Nat.mod_eq_of_lt (by omega)]
    · have hmod : k % s.queue.capacity ≠ s.queue.index s.queue.head := by
        rw [hindex]
        apply QueueSystem.mod_ne (j := s.tickets.consumed) <;> omega
      rw [Function.update_of_ne hmod]
      apply h.sequence k (by omega) (by omega)
  case data =>
    intro k hk hkle
    apply h.data k hk (Nat.le_of_succ_le hkle)
  case producers =>
    intro p
    refine (h.producers p).frame ?_ List.prefix_rfl (Nat.le_succ _) ?_
    · rfl
    · intro item' pos' hholds
      exact ⟨hholds.unpublished, rfl⟩
  case consumer => exact ⟨congrArg (· + 1) hconsumed, hitem⟩
  case returned => exact h.returned

/-- The consumer advances the head and returns its item. -/
theorem Inv.advance (h : Inv s) (hfits : s.Fits) (hpc : s.consumer = .advance item) :
  Inv { s with
    consumer := .returned true
    queue := { s.queue with head := s.queue.head + 1 }
    returned := s.returned ++ [item] }
  := by
  obtain ⟨hconsumed, hitem⟩ : s.tickets.consumed = s.returned.length + 1
      ∧ s.tickets.taken[s.returned.length]?.map Prod.snd = some item := by
    have hok := h.consumer
    rwa [hpc] at hok
  have hfits : s.tickets.taken.length + s.queue.capacity < 2 ^ 64 := hfits
  have hle := h.tickets.consumed_le
  constructor
  case tickets => exact h.tickets
  case tail => exact h.tail
  case head =>
    rw [List.length_append, ← h.head]
    change (s.queue.head + 1).toNat = _
    rw [BitVec.toNat_add]
    apply Nat.mod_eq_of_lt
    rw [h.head]
    change _ + 1 < _
    omega
  case sequence => exact h.sequence
  case data => exact h.data
  case producers => exact h.producers
  case consumer =>
    change s.tickets.consumed = _
    rw [List.length_append, hconsumed]
    rfl
  case returned =>
    change s.returned ++ [item] = (s.tickets.taken.take (s.returned ++ [item]).length).map Prod.snd
    rw [List.length_append, List.length_singleton, List.take_add_one, List.map_append,
      ← h.returned]
    obtain ⟨b, hb, rfl⟩ := Option.map_eq_some_iff.mp hitem
    rw [hb]
    rfl

/-- A step of the consumer that changes no memory. -/
theorem Inv.consumer_moves {pc : DequeuePc T} (h : Inv s)
    (hmoved : ConsumerOk s.tickets s.returned.length pc) :
  Inv { s with consumer := pc }
  := { h with consumer := hmoved }

/-! ### Steps of the producers -/

section

variable [DecidableEq P]

/-- What holds of all producers after one of them moved. -/
theorem producersOk_goto {pc : EnqueuePc T} (hmoved : ProducerOk q t p pc)
    (hothers : ∀ p', p' ≠ p → ProducerOk q t p' (s.producers p')) (p' : P) :
  ProducerOk q t p' ((s.goto p pc).producers p')
  := by
  change ProducerOk q t p' (Function.update s.producers p pc p')
  rcases eq_or_ne p' p with rfl | hne
  · rw [Function.update_self]
    apply hmoved
  · rw [Function.update_of_ne hne]
    apply hothers p' hne

/-- A step of a producer that changes no memory. -/
theorem Inv.goto {pc : EnqueuePc T} (h : Inv s) (hmoved : ProducerOk s.queue s.tickets p pc) :
  Inv (s.goto p pc)
  := { h with producers := producersOk_goto hmoved (fun p' _ => h.producers p') }

/-- A successful compare-exchange takes the next ticket. -/
theorem Inv.reserve (h : Inv s) (hfits : s.Fits)
    (hpc : s.producers p = .compareExchange item pos) (htail : s.queue.tail = pos) :
  Inv { s.goto p (.storeData item pos) with
    queue := { s.queue with tail := pos + 1 }
    tickets := s.tickets.reserve (p, item) }
  := by
  have hpos : pos.toNat = s.tickets.taken.length := by rw [← htail, h.tail]
  have hfits : s.tickets.taken.length + s.queue.capacity < 2 ^ 64 := hfits
  have hprefix : s.tickets.taken <+: (s.tickets.reserve (p, item)).taken :=
    List.prefix_append _ _
  constructor
  case tickets => exact (TicketQueue.Step.reserve (p, item) (h.room hpc htail)).sound h.tickets
  case tail =>
    rw [TicketQueue.length_taken_reserve, ← hpos]
    change (pos + 1).toNat = _
    rw [BitVec.toNat_add]
    apply Nat.mod_eq_of_lt
    have := capacity_pos s.queue
    change _ + 1 < _
    omega
  case head => exact h.head
  case sequence => exact h.sequence
  case data =>
    intro k hk hle
    rw [TicketQueue.reserve, List.getElem?_append_left (h.tickets.published_lt k hk)]
    apply h.data k hk hle
  case producers =>
    apply producersOk_goto
    · constructor
      · rw [TicketQueue.reserve, hpos, List.getElem?_concat_length]
      · intro hmem
        have := h.tickets.published_lt _ hmem
        omega
    · intro p' _
      refine (h.producers p').frame ?_ hprefix le_rfl ?_
      · rfl
      · intro item' pos' hholds
        exact ⟨hholds.unpublished, rfl⟩
  case consumer =>
    have hconsumer := h.consumer
    have hget : ∀ {n : ℕ} {a : T}, s.tickets.taken[n]?.map Prod.snd = some a →
        (s.tickets.reserve (p, item)).taken[n]?.map Prod.snd = some a := by
      intro n a hn
      obtain ⟨b, hb, hba⟩ := Option.map_eq_some_iff.mp hn
      rw [TicketQueue.reserve, List.getElem?_append_left (List.getElem?_eq_some_iff.mp hb).1]
      exact hn
    revert hconsumer
    change ConsumerOk _ _ s.consumer → ConsumerOk _ _ s.consumer
    cases s.consumer with
    | storeSequence a => exact fun hc => ⟨hc.1, hc.2.1, hget hc.2.2⟩
    | advance a => exact fun hc => ⟨hc.1, hget hc.2⟩
    | _ => exact id
  case returned =>
    change s.returned = ((s.tickets.taken ++ [(p, item)]).take s.returned.length).map Prod.snd
    rw [List.take_append_of_le_length h.length_returned_le]
    exact h.returned

/-- A producer stores the data of its ticket. -/
theorem Inv.storeData (h : Inv s) (hfits : s.Fits) (hpc : s.producers p = .storeData item pos) :
  Inv { s.goto p (.storeSequence item pos) with queue := s.queue.storeData pos item }
  := by
  have hholds := h.producers p
  rw [hpc] at hholds
  constructor
  case tickets => exact h.tickets
  case tail => exact h.tail
  case head => exact h.head
  case sequence => exact h.sequence
  case data =>
    intro k hk hle
    change s.tickets.taken[k]?.map Prod.snd
      = some (Function.update s.queue.data (s.queue.index pos) item (k % s.queue.capacity))
    rw [Function.update_of_ne (h.index_ne_of_published hfits hholds hk hle).symm]
    exact h.data k hk hle
  case producers =>
    apply producersOk_goto
    · refine ⟨hholds, ?_⟩
      exact Function.update_self ..
    · intro p' hne
      refine (h.producers p').frame ?_ List.prefix_rfl le_rfl ?_
      · rfl
      · intro item' pos' hholds'
        refine ⟨hholds'.unpublished, ?_⟩
        exact Function.update_of_ne (h.index_ne_of_holds hfits hholds hholds' hne) _ _
  case consumer => exact h.consumer
  case returned => exact h.returned

/-- A producer publishes its ticket. -/
theorem Inv.publish (h : Inv s) (hfits : s.Fits)
    (hpc : s.producers p = .storeSequence item pos) :
  Inv { s.goto p (.returned true) with
    queue := s.queue.storeSequence pos (pos + 1)
    tickets := s.tickets.publish pos.toNat }
  := by
  obtain ⟨hholds, hdata⟩ : Holds s.tickets p item pos ∧ s.queue.data (s.queue.index pos) = item := by
    have hok := h.producers p
    rwa [hpc] at hok
  have hlt : s.queue.capacity < 2 ^ 64 := lt_of_le_of_lt (Nat.le_add_left _ _) hfits
  have hindex := index_eq hlt pos
  constructor
  case tickets =>
    exact (TicketQueue.Step.publish hholds.lt hholds.unpublished).sound h.tickets
  case tail => exact h.tail
  case head => exact h.head
  case sequence =>
    intro k hle hk
    have hle : s.tickets.consumed ≤ k := hle
    have hk : k < s.tickets.consumed + s.queue.capacity := hk
    change (Function.update s.queue.sequence (s.queue.index pos) (pos + 1)
      (k % s.queue.capacity)).toNat = if k ∈ pos.toNat :: s.tickets.published then k + 1 else k
    rcases eq_or_ne k pos.toNat with rfl | hne
    · rw [← hindex, Function.update_self, if_pos List.mem_cons_self, BitVec.toNat_add]
      apply Nat.mod_eq_of_lt
      have := h.tickets.length_le
      have hfits : s.tickets.taken.length + s.queue.capacity < 2 ^ 64 := hfits
      have := hholds.lt
      change _ + 1 < _
      omega
    · have hmod : k % s.queue.capacity ≠ s.queue.index pos := by
        rw [hindex]
        have := hholds.lt
        have := h.tickets.length_le
        exact QueueSystem.mod_ne hle hk (hholds.consumed_le h.tickets) (by omega) hne
      rw [Function.update_of_ne hmod, h.sequence k hle hk]
      simp only [List.mem_cons, hne, false_or]
  case data =>
    intro k hk hle
    rcases List.mem_cons.mp hk with rfl | hk
    · change s.tickets.taken[pos.toNat]?.map Prod.snd = some (s.queue.data (pos.toNat % _))
      rw [hholds.taken, ← hdata, hindex]
      rfl
    · exact h.data k hk hle
  case producers =>
    apply producersOk_goto
    · trivial
    · intro p' hne
      refine (h.producers p').frame ?_ List.prefix_rfl le_rfl ?_
      · rfl
      · intro item' pos' hholds'
        refine ⟨?_, rfl⟩
        intro hmem
        rcases List.mem_cons.mp hmem with heq | hmem
        · exact hholds'.ne hholds hne heq
        · exact hholds'.unpublished hmem
  case consumer =>
    have hconsumer := h.consumer
    revert hconsumer
    change ConsumerOk _ _ s.consumer → ConsumerOk _ _ s.consumer
    cases s.consumer with
    | readData => exact fun hc => ⟨hc.1, List.mem_cons_of_mem _ hc.2⟩
    | storeSequence a => exact fun hc => ⟨hc.1, List.mem_cons_of_mem _ hc.2.1, hc.2.2⟩
    | _ => exact id
  case returned => exact h.returned

/-- Every step keeps the invariant, as long as the counters do not wrap. -/
theorem Inv.step (h : Inv s) (hfits : s.Fits) (hbits : 1 ≤ s.queue.bits) {e : QueueEvent P T}
    (hstep : Steps s e s') :
  Inv s'
  := by
  cases hstep with
  | enqueue p item => exact h.goto trivial
  | loadTail spurious hpc => exact h.goto (le_of_eq h.tail)
  | @free p item pos spurious hpc hdiff =>
      have hok := h.producers p
      rw [hpc] at hok
      exact h.goto ⟨hok, h.lt_of_free hfits hbits hdiff⟩
  | full spurious hpc hdiff => exact h.goto trivial
  | retry spurious => exact h.goto trivial
  | reserve spurious hpc htail => exact h.reserve hfits hpc htail
  | storeData spurious hpc => exact h.storeData hfits hpc
  | publish spurious hpc => exact h.publish hfits hpc
  | dequeue hpc =>
      apply h.consumer_moves
      have hok := h.consumer
      obtain hpc | ⟨ok, hpc⟩ := hpc
      · rwa [hpc] at hok
      · rwa [hpc] at hok
  | found hpc hdiff =>
      have hok := h.consumer
      rw [hpc] at hok
      exact h.consumer_moves ⟨hok, (h.found_iff hfits hok).mp hdiff⟩
  | missed hpc hdiff =>
      have hok := h.consumer
      rw [hpc] at hok
      exact h.consumer_moves hok
  | readData hpc =>
      have hok := h.consumer
      rw [hpc] at hok
      obtain ⟨hconsumed, hmem⟩ := hok
      apply h.consumer_moves
      refine ⟨hconsumed, hmem, ?_⟩
      rw [index_eq (lt_of_le_of_lt (Nat.le_add_left _ _) hfits), h.head, ← hconsumed]
      exact h.data _ hmem le_rfl
  | giveBack hpc => exact h.giveBack hfits hpc
  | advance hpc => exact h.advance hfits hpc

/-- Every step is a step of the bounded queue by tickets, or none. -/
theorem Inv.refines (h : Inv s) {e : QueueEvent P T} (hstep : Steps s e s') :
  s'.tickets = s.tickets ∨ TicketQueue.Step s.queue.capacity s.tickets s'.tickets
  := by
  cases hstep with
  | reserve spurious hpc htail => exact .inr (.reserve _ (h.room hpc htail))
  | @publish p item pos spurious hpc =>
      have hok := h.producers p
      rw [hpc] at hok
      exact .inr (.publish hok.1.lt hok.1.unpublished)
  | giveBack hpc =>
      obtain ⟨a, hfront⟩ := h.front hpc
      exact .inr (.consume hfront)
  | _ => exact .inl rfl

theorem Steps.bits_eq {e : QueueEvent P T} (hstep : Steps s e s') :
  s'.queue.bits = s.queue.bits
  := by
  cases hstep <;> rfl

/-- Tickets are only ever added. -/
theorem Steps.taken_prefix {e : QueueEvent P T} (hstep : Steps s e s') :
  s.tickets.taken <+: s'.tickets.taken
  := by
  cases hstep with
  | reserve spurious hpc htail => exact List.prefix_append _ _
  | _ => exact List.prefix_rfl

end

end QueueSystem

end Proactor
