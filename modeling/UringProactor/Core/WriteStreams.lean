import UringProactor.Core.Invariant
import UringProactor.Core.WriteSteps
import UringProactor.Net.WriteStream

/-!
# The bytes on the write sides of a worker

The write buffers of all channels share one pool.  As long as the worker is safe, a step
exchanges blocks of one channel with the pool, and changes the bytes of that channel as its
label says.  The bytes of the other channels, and what outstanding `writev` SQEs cover, stay as
they are.
-/

namespace Proactor

namespace Worker

open WriteSide

variable {w w' : Worker} {e : Event} {ok : Bool} {c : ℕ} {P : Conn → Prop}

/-! ### The channel that acts -/

/-- A channel that is assigned is free. -/
theorem free_pos_of_assigns (h : w.Assigns c e) :
  0 < (w.view c).free
  := by
  cases e with
  | complete i res more idx data =>
      obtain ⟨⟨d, pool⟩, hacquire, rfl⟩ := Option.map_eq_some_iff.mp h.2.2.2
      apply List.count_pos_iff.mpr
      rw [(TcpChannelPool.freeList_acquire hacquire).2]
      apply List.mem_cons_self
  | _ => cases h

/-- Only channels of the pool act. -/
theorem Inv.lt_size_of_writeLabel (h : Inv P w) (hadmits : w.Admits e) {l : WriteLabel}
    (hlabel : w.writeLabel ok e = some (c, l)) :
  c < w.size
  := by
  by_contra hc
  have hunused := h.unused c (Nat.le_of_not_lt hc)
  have hsqes : ∀ (i : ℕ) (op : SqeOp) (u : UserData),
      w.thread.ioRing.inflight[i]? = some ⟨op, u⟩ →
      0 < w.thread.ioRing.outstanding u := by
    intro i op u hsqe
    have hmem := List.mem_append_right w.thread.ioRing.sq (List.mem_of_getElem? hsqe)
    apply IoRing.outstanding_pos hmem
  cases labels_of_writeLabel hlabel with
  | assign hassigns => exact (free_pos_of_assigns hassigns).ne' hunused.free
  | received hsqe => exact (hsqes _ _ _ hsqe).ne' hunused.recvs
  | written hsqe => exact (hsqes _ _ _ hsqe).ne' hunused.writes
  | failed hsqe => exact (hsqes _ _ _ hsqe).ne' hunused.writes
  | stale hsqe => exact (hsqes _ _ _ hsqe).ne' hunused.writes
  | onCloseReturns hctl => cases hunused.read.symm.trans ((h.located.read c).mpr hctl)
  | onWriteReturns hctl => cases hunused.write.symm.trans ((h.located.write c).mpr hctl)
  | _ => exact hc hadmits

/-- Only channels of the pool have `writev` SQEs outstanding. -/
theorem Inv.lt_size_of_mem (h : Inv P w) {sqe : Sqe}
    (hmem : sqe ∈ w.thread.ioRing.sq ++ w.thread.ioRing.inflight) (hdata : sqe.data = .write c) :
  c < w.size
  := by
  by_contra hc
  have hpos := IoRing.outstanding_pos hmem
  rw [hdata] at hpos
  apply hpos.ne' (h.unused c (Nat.le_of_not_lt hc)).writes

/-- The number of channels never changes. -/
theorem Inv.size_step (h : Inv P w) (hsafe : ∀ k, P k → Conn.Safe k) (hadmits : w.Admits e)
    (hstep : w.step e = some w') :
  w'.size = w.size
  := by
  have hsim := step_simulates h.located hadmits (fun c => h.room hsafe) hstep
  rw [Simulates] at hsim
  apply size_eq_of_bits
  split at hsim
  · exact hsim.bits
  · exact hsim.keeps.bits

/-! ### All write sides -/

/-- The channels and the pool hold every block once, and every write coroutine waits for what it
has posted. -/
structure Posts (w : Worker) : Prop where
  conserved : Conserved w.thread.bufPool w.size (fun c => (w.channels c).writeBuf)
  posted : ∀ c < w.size, (w.writeSide c).Posted

theorem Posts.sound (h : Posts w) (hc : c < w.size) :
  (w.writeSide c).buf.Sound (w.writeSide c).pool
  := h.conserved.sound hc

/-- What an event does on the write side of the channel `d`. -/
def labelAt (x : Option (ℕ × WriteLabel)) (d : ℕ) : WriteLabel :=
  match x with
  | none => .quiet
  | some (c, l) => if d = c then l else .quiet

theorem eq_some_of_labelAt {x : Option (ℕ × WriteLabel)} {d : ℕ} {l : WriteLabel}
    (h : labelAt x d = l) (hl : l ≠ .quiet) :
  x = some (d, l)
  := by
  cases x with
  | none => exact absurd h.symm hl
  | some y =>
      rw [labelAt] at h
      split at h
      case isTrue hd => rw [hd, ← h]
      case isFalse => exact absurd h.symm hl

/-- What a step does with the bytes on the write sides. -/
structure Streams (w w' : Worker) (x : Option (ℕ × WriteLabel)) : Prop where
  addressable : w.thread.bufPool.Addressable → w'.thread.bufPool.Addressable
  flows : w.thread.bufPool.Addressable → ∀ d < w.size, (w'.writeSide d).Lasting →
    Flows (w.writeSide d) (w'.writeSide d) (labelAt x d)
  lasting : ∀ d < w.size, labelAt x d ≠ .assign → (w'.writeSide d).Lasting →
    (w.writeSide d).Lasting
  covered : w.thread.bufPool.Addressable → ∀ d < w.size, ∀ nr ∈ (w.writeSide d).writevs,
    nr ∈ (w'.writeSide d).writevs → (w'.writeSide d).covered nr = (w.writeSide d).covered nr
  dead : ∀ d < w.size, labelAt x d ≠ .assign → (w.channels d).writeCo.Dead →
    (w'.channels d).writeCo = (w.channels d).writeCo
  vacates : w'.thread.ioRing.failed = false → ∀ d < w.size, (w'.channels d).writeCo.Dead →
    Vacates (w.writeSide d) (labelAt x d) (w'.writeSide d)

/-- A step that acts on no write side. -/
theorem Posts.of_eq (h : Posts w) (hsize : w'.size = w.size)
    (hside : ∀ d, w'.writeSide d = w.writeSide d) :
  Posts w' ∧ Streams w w' none
  := by
  have hbufs : (fun c => (w'.channels c).writeBuf) = fun c => (w.channels c).writeBuf := by
    funext d
    apply congrArg WriteSide.buf (hside d)
  have hpool : w'.thread.bufPool = w.thread.bufPool := congrArg WriteSide.pool (hside 0)
  constructor
  · constructor
    · rw [hbufs, hpool, hsize]
      apply h.conserved
    · intro d hd
      rw [hside]
      apply h.posted d (hsize ▸ hd)
  · constructor
    · rw [hpool]
      apply id
    · intro _ d _ _
      rw [hside]
      exact ⟨rfl, rfl⟩
    · intro d _ _
      rw [hside]
      apply id
    · intro _ d _ nr _ _
      rw [hside]
    · intro d _ _ _
      apply congrArg WriteSide.co (hside d)
    · intro _ d _ hdead
      rw [show (w'.channels d).writeCo = _ from congrArg WriteSide.co (hside d)] at hdead
      rw [hside]
      exact .inr ⟨hdead, .inl rfl⟩

/-- The write side of a channel that does not act. -/
theorem Posts.posted_of_ne (h : Posts w) (hc : c < w.size) {d : ℕ} (hd : d < w.size) (hdc : d ≠ c)
    (he : WriteBufBase.Exchange (w.channels c).writeBuf.toWriteBufBase w.thread.bufPool
      (w'.channels c).writeBuf.toWriteBufBase w'.thread.bufPool)
    (hside : w'.writeSide d = { w.writeSide d with
      pool := w'.thread.bufPool, failed := w'.thread.ioRing.failed }) :
  (w'.writeSide d).Posted
  := by
  obtain ⟨hhandle, hcard, hcovers⟩ := h.posted d hd
  rw [hside]
  refine ⟨hhandle, hcard, ?_⟩
  intro submittedBytes hco nr hnr
  apply (hcovers submittedBytes hco nr hnr).frame he.bufSize
  intro i hi
  obtain ⟨-, hfree, hpending, hfree'⟩ :=
    h.conserved.frame hc hd hdc he (List.mem_append_right _ hi)
  apply he.frame_size i hfree hpending hfree'

/-- A step that acts on the channel `c`. -/
theorem Posts.of_step (h : Posts w) (hsize : w'.size = w.size) (hc : c < w.size) {l : WriteLabel}
    (hassign : l = .assign → (w.writeSide c).writevs = 0)
    (hreturned : l = .returned → (w.writeSide c).co = .running)
    (hstep : Step (w.writeSide c) l (w'.writeSide c))
    (hother : ∀ d, d ≠ c → w'.writeSide d = { w.writeSide d with
      pool := w'.thread.bufPool, failed := w'.thread.ioRing.failed }) :
  Posts w' ∧ Streams w w' (some (c, l))
  := by
  have hposted := h.posted c hc
  have heffect := hstep.effect (h.sound hc) hposted hassign hreturned
  obtain ⟨he, hsound', hposted', hflows⟩ := heffect
  have hbufs : (fun d => (w'.channels d).writeBuf)
      = Function.update (fun d => (w.channels d).writeBuf) c (w'.channels c).writeBuf := by
    funext d
    by_cases hdc : d = c
    · rw [hdc, Function.update_self]
    · rw [Function.update_of_ne hdc]
      apply congrArg WriteSide.buf (hother d hdc)
  have hposts : Posts w' := by
    constructor
    · rw [hbufs, hsize]
      apply h.conserved.update hc he hsound'
    · intro d hd
      rw [hsize] at hd
      by_cases hdc : d = c
      · rw [hdc]
        apply hposted'
      · apply h.posted_of_ne hc hd hdc he (hother d hdc)
  refine ⟨hposts, he.addressable, ?_, ?_, ?_, ?_, ?_⟩
  · intro ha d hd hlasting
    by_cases hdc : d = c
    · rw [hdc] at hlasting ⊢
      rw [labelAt, if_pos rfl]
      apply hflows ha hlasting
    · rw [labelAt, if_neg hdc, hother d hdc]
      apply h.conserved.content_frame ha hc hd hdc he
  · intro d hd hne hlasting
    by_cases hdc : d = c
    · rw [hdc] at hlasting ⊢
      rw [labelAt, if_pos hdc] at hne
      apply hstep.lasting hposted hne hreturned hlasting
    · rw [hother d hdc] at hlasting
      apply hlasting
  · intro ha d hd nr hnr hnr'
    by_cases hdc : d = c
    · rw [hdc] at hnr hnr' ⊢
      apply hstep.covered_eq (h.sound hc) hposted ⟨he, hsound', hposted', hflows⟩ ha hassign hreturned
        hnr hnr'
    · obtain ⟨_, -, hcovers⟩ := (h.posted d hd).onToken hnr
      obtain ⟨_, -, hcovers'⟩ := (hposts.posted d (hsize ▸ hd)).onToken hnr'
      apply covered_eq (h.sound hd) (hposts.sound (hsize ▸ hd)) hcovers hcovers'
      · rw [hother d hdc]
      · rw [hother d hdc, List.append_nil]
        apply (h.conserved.content_frame ha hc hd hdc he).2
  · intro d hd hne hdead
    by_cases hdc : d = c
    · rw [hdc] at hdead ⊢
      rw [labelAt, if_pos hdc] at hne
      apply hstep.co_of_dead hposted hne hreturned hdead
    · apply congrArg WriteSide.co (hother d hdc)
  · intro hsqe d hd hdead
    by_cases hdc : d = c
    · rw [hdc] at hdead ⊢
      rw [labelAt, if_pos rfl]
      apply hstep.vacates (h.sound hc) hposted hsqe hdead
    · rw [show (w'.channels d).writeCo = _ from congrArg WriteSide.co (hother d hdc)] at hdead
      rw [hother d hdc]
      exact .inr ⟨hdead, .inl rfl⟩

/-- Every step of a safe worker. -/
theorem Posts.step (h : Posts w) (hinv : Inv Conn.Safe w) (hadmits : w.Admits e)
    (hresult : w.stepResult e = some (ok, w')) :
  Posts w' ∧ Streams w w' (w.writeLabel ok e)
  := by
  have hsize : w'.size = w.size :=
    hinv.size_step (fun _ hk => hk) hadmits (congrArg (Option.map Prod.snd) hresult)
  have hwrites := (step_cases hresult).writes hadmits
  generalize hlabel : w.writeLabel ok e = x at hwrites
  cases hwrites with
  | none _ hside => exact h.of_eq hsize hside
  | @acts c l hctl hstep hother =>
      have hc := hinv.lt_size_of_writeLabel hadmits hlabel
      apply h.of_step hsize hc _ _ hstep hother
      · rintro rfl
        have hfree := free_pos_of_assigns (assigns_of_writeLabel hlabel)
        apply Multiset.card_eq_zero.mp
        apply (IoRing.card_writevs _ c).trans ((hinv.holds c hc).idle hfree).2.1
      · rintro rfl
        apply (hinv.located.write c).mpr (hctl.returned c rfl)

/-- At the start all blocks are free and no write coroutine has started. -/
theorem posts_start (depth : ℕ) (bufRing : BufRing) (poolBits capBits : Fin 31) {bits bufSize : ℕ}
    {hbits : bits ≤ 30} {hpos : 0 < bufSize} {hlt : bufSize < 2 ^ 31} {pool : BufPool}
    (hpool : BufPool.new bits bufSize hbits hpos hlt = some pool) :
  Posts (start depth bufRing pool poolBits capBits)
  := by
  obtain ⟨hpbits, -, hfree, hzero⟩ := BufPool.of_new hpool
  have hnil : (⟨fun _ => 0, 0, 0⟩ : Circular 64 ℕ).toList capBits = [] :=
    (Circular.toList_eq_nil_iff _).mpr rfl
  constructor
  · apply Conserved.of_empty
    · change pool.freeList = List.range (2 ^ pool.bits)
      rw [hfree, hpbits]
    · apply hzero
    · intro c
      apply hnil
    · intro c
      apply hnil
    · intro c
      rfl
  · intro c _
    apply posted_of_ne
    · exact iff_of_false nofun nofun
    · rfl
    · nofun

end Worker

end Proactor
