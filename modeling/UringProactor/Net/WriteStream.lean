import UringProactor.Buffer.Conservation
import UringProactor.Net.Lifecycle
import UringProactor.Net.WriteSide

/-!
# The bytes on the write side of a channel

The write side of a channel holds the bytes that are being built, in the pending window, and the
bytes that are unsent, in the send queue.  Each step exchanges blocks with the pool and changes
these bytes as its label says: `append` and `prepend` put data behind and in front of what is
being built, `submit` moves it behind the unsent bytes, and a completion takes the bytes that
were written from their front.  Only the end of the write coroutine on a closing channel forgets
them.  An outstanding `writev` covers the first of the unsent bytes until it completes.
-/

namespace Proactor

namespace WriteSide

/-- The bytes in the pending window. -/
def built (s : WriteSide) : List UInt8 := s.pool.content s.buf.pendingList

/-- The bytes in the send queue that have not been acknowledged. -/
def unsent (s : WriteSide) : List UInt8 := s.buf.unsent s.pool

/-- The bytes that the first `nr` iovecs cover. -/
def covered (s : WriteSide) (nr : ℕ) : List UInt8 :=
  WriteBufStream.gather s.pool (s.buf.iovec.take nr)

/-- The write coroutine waits for what `handle` and the outstanding SQEs say, and the `writev` it
waits for covers the head of the send queue. -/
structure Posted (s : WriteSide) : Prop where
  handle_iff : s.handle = true ↔ s.co = .onNotify
  card_writevs : s.writevs.card = s.co.tokens
  covers : ∀ submittedBytes, s.co = .onToken submittedBytes → ∀ nr ∈ s.writevs,
    s.buf.Covers s.pool nr submittedBytes

/-- The write buffer has not been reset. -/
def Lasting (s : WriteSide) : Prop := s.co = .finished → s.closing = false

/-- What a step does with the bytes. -/
def Flows (s s' : WriteSide) : WriteLabel → Prop
  | .append data true => s'.built = s.built ++ data ∧ s'.unsent = s.unsent
  | .prepend data true => s'.built = WriteBufBase.taken s.pool data ++ s.built ∧ s'.unsent = s.unsent
  | .submit => s'.built = [] ∧ s'.unsent = s.unsent ++ s.built
  | .written bytes => s'.built = s.built ∧ s'.unsent = s.unsent.drop bytes
  | _ => s'.built = s.built ∧ s'.unsent = s.unsent

/-- What a step does with blocks and bytes: it exchanges blocks with the pool, keeps the buffer
sound, and unless it resets the buffer, the bytes are as its label says. -/
structure Effect (s : WriteSide) (l : WriteLabel) (s' : WriteSide) : Prop where
  exchange : WriteBufBase.Exchange s.buf.toWriteBufBase s.pool s'.buf.toWriteBufBase s'.pool
  sound : s'.buf.Sound s'.pool
  posted : Posted s'
  flows : s.pool.Addressable → Lasting s' → Flows s s' l

variable {s s' : WriteSide} {l : WriteLabel}

/-! ### A run of the write coroutine -/

/-- A write side whose coroutine waits for no SQE. -/
theorem posted_of_ne (hhandle : s.handle = true ↔ s.co = .onNotify) (hwritevs : s.writevs = 0)
    (hco : ∀ submittedBytes, s.co ≠ .onToken submittedBytes) :
  Posted s
  := by
  refine ⟨hhandle, ?_, fun submittedBytes htoken => absurd htoken (hco submittedBytes)⟩
  rw [hwritevs, WriteCo.tokens_of_ne hco]
  rfl

/-- `peek_iovec` leaves the bytes as they are. -/
theorem flows_of_peekIovec {count submittedBytes : ℕ} {buf : WriteBufStream}
    (hpeek : s.buf.peekIovec s.pool = (count, submittedBytes, buf)) :
  s.pool.content buf.pendingList = s.built ∧ buf.unsent s.pool = s.unsent
  := by
  obtain ⟨hbase, hoffset⟩ := peekIovec_base hpeek
  constructor
  · rw [hbase]
    rfl
  · rw [WriteBufStream.unsent, hbase, hoffset]
    rfl

/-- A run of the write coroutine, which waited for no SQE. -/
theorem Runs.effect (h : Runs s s') (hsound : s.buf.Sound s.pool) (hhandle : s.handle = false)
    (hwritevs : s.writevs = 0) :
  Effect s .quiet s'
  := by
  have hfalse : ¬ s.handle = true := Bool.eq_false_iff.mp hhandle
  cases h with
  | finish hclosing hreset =>
      obtain ⟨buf, pool, hspec, he, hsound', -⟩ := WriteBufStream.reset_spec hsound.toSound
      cases hreset.symm.trans hspec
      refine ⟨he, hsound', ?_, ?_⟩
      · apply posted_of_ne
        · exact iff_of_false hfalse nofun
        · exact hwritevs
        · nofun
      · intro _ hlasting
        cases hclosing.symm.trans (hlasting rfl)
  | suspend =>
      refine ⟨.refl hsound.toSound, hsound, ?_, fun _ _ => ⟨rfl, rfl⟩⟩
      apply posted_of_ne
      · exact iff_of_true rfl rfl
      · exact hwritevs
      · nofun
  | @prepare count submittedBytes buf hcount hpeek =>
      obtain ⟨he, hsound'⟩ := WriteBufStream.peekIovec_sound hsound
      rw [hpeek] at he hsound'
      refine ⟨he, hsound', ⟨iff_of_false hfalse nofun, ?_, ?_⟩, fun _ _ => flows_of_peekIovec hpeek⟩
      · apply (Multiset.card_cons _ _).trans (congrArg (Multiset.card · + 1) hwritevs)
      · rintro _ ⟨⟩ nr hnr
        change nr ∈ count ::ₘ s.writevs at hnr
        rw [hwritevs, Multiset.mem_cons, or_iff_left (Multiset.notMem_zero nr)] at hnr
        rw [hnr]
        apply WriteBufStream.peekIovec_covers hsound hcount hpeek
  | throw _ hpeek =>
      obtain ⟨he, hsound'⟩ := WriteBufStream.peekIovec_sound hsound
      rw [hpeek] at he hsound'
      refine ⟨he, hsound', ?_, fun _ _ => flows_of_peekIovec hpeek⟩
      apply posted_of_ne
      · exact iff_of_false hfalse nofun
      · exact hwritevs
      · nofun

/-! ### What the write coroutine waits for -/

theorem Posted.handle_eq_false (h : Posted s) (hco : s.co ≠ .onNotify) :
  s.handle = false
  := WriteSide.handle_eq_false h.handle_iff hco

/-- A coroutine that does not wait for an SQE has none outstanding. -/
theorem Posted.writevs_eq_zero (h : Posted s)
    (hco : ∀ submittedBytes, s.co ≠ .onToken submittedBytes) :
  s.writevs = 0
  := by
  apply Multiset.card_eq_zero.mp
  rw [h.card_writevs, WriteCo.tokens_of_ne hco]

/-- The coroutine waits for the `writev` that is outstanding. -/
theorem Posted.onToken (h : Posted s) {nr : ℕ} (hnr : nr ∈ s.writevs) :
  ∃ submittedBytes, s.co = .onToken submittedBytes ∧ s.buf.Covers s.pool nr submittedBytes
  := by
  by_cases hco : ∃ submittedBytes, s.co = .onToken submittedBytes
  · obtain ⟨submittedBytes, hco⟩ := hco
    exact ⟨submittedBytes, hco, h.covers submittedBytes hco nr hnr⟩
  · rw [h.writevs_eq_zero (not_exists.mp hco)] at hnr
    cases Multiset.notMem_zero nr hnr

/-- Only one `writev` is outstanding. -/
theorem Posted.rest_eq_zero (h : Posted s) {submittedBytes nr : ℕ} {rest : Multiset ℕ}
    (hco : s.co = .onToken submittedBytes) (hwritevs : s.writevs = nr ::ₘ rest) :
  rest = 0
  := by
  have hcard := h.card_writevs
  rw [hwritevs, Multiset.card_cons, hco, WriteCo.tokens_onToken] at hcard
  apply Multiset.card_eq_zero.mp
  omega

/-! ### Steps -/

/-- A notification. -/
theorem Notifies.effect (h : Notifies s s') (hsound : s.buf.Sound s.pool) (hposted : Posted s) :
  Effect s .quiet s'
  := by
  cases h with
  | resume hhandle hrun =>
      have hco := hposted.handle_iff.mp hhandle
      have hwritevs : s.writevs = 0 := by
        apply hposted.writevs_eq_zero
        rw [hco]
        nofun
      obtain ⟨he, hsound', hposted', hflows⟩ := hrun.effect hsound rfl hwritevs
      exact ⟨he, hsound', hposted', hflows⟩
  | mark => exact ⟨.refl hsound.toSound, hsound, hposted, fun _ _ => ⟨rfl, rfl⟩⟩

/-- Closing and notifying. -/
theorem Stirs.effect (h : Stirs s s') (hsound : s.buf.Sound s.pool) (hposted : Posted s) :
  Effect s .quiet s'
  := by
  cases h with
  | rest =>
      obtain ⟨hhandle, hcard, hcovers⟩ := hposted
      exact ⟨.refl hsound.toSound, hsound, ⟨hhandle, hcard, hcovers⟩, fun _ _ => ⟨rfl, rfl⟩⟩
  | notify s₁ closing failed _ _ hnotify =>
      obtain ⟨hhandle, hcard, hcovers⟩ := hposted
      obtain ⟨he, hsound', hposted', hflows⟩ := hnotify.effect hsound ⟨hhandle, hcard, hcovers⟩
      obtain ⟨hhandle', hcard', hcovers'⟩ := hposted'
      exact ⟨he, hsound', ⟨hhandle', hcard', hcovers'⟩, hflows⟩

/-- An operation on the pending window. -/
theorem effect_of_pending {b : WriteBufBase} {p : BufPool} (hsound : s.buf.Sound s.pool)
    (hposted : Posted s)
    (he : WriteBufBase.Exchange s.buf.toWriteBufBase s.pool b p) (hsend : b.send = s.buf.send)
    (hflows : s.pool.Addressable → ∀ s', s'.built = p.content b.pendingList →
      s'.unsent = s.unsent → Flows s s' l) :
  Effect s l { s with buf := { s.buf with toWriteBufBase := b }, pool := p }
  := by
  obtain ⟨hsound', hunsent⟩ := hsound.exchange_pending he hsend
  have hlist : b.sendList = s.buf.sendList := by
    rw [WriteBufBase.sendList, hsend, he.bits]
    rfl
  refine ⟨he, hsound', ⟨hposted.handle_iff, hposted.card_writevs, ?_⟩, ?_⟩
  · intro submittedBytes hco nr hnr
    have hcovers := hposted.covers submittedBytes hco nr hnr
    have hframe : s.buf.Covers p nr submittedBytes := by
      apply hcovers.frame he.bufSize
      intro i hi
      obtain ⟨-, hfree, hpending⟩ := hsound.of_mem_send hi
      apply he.frame_size i hfree hpending
      rw [← hlist] at hi
      apply (hsound'.of_mem_send hi).2.1
    exact hframe.congr rfl rfl (hlist.trans (List.append_nil _).symm)
  · intro ha _
    exact hflows ha { s with buf := { s.buf with toWriteBufBase := b }, pool := p } rfl (hunsent ha)

/-- What each step does with blocks and bytes. -/
theorem Step.effect (h : Step s l s') (hsound : s.buf.Sound s.pool) (hposted : Posted s)
    (hassign : l = .assign → s.writevs = 0) (hreturned : l = .returned → s.co = .running) :
  Effect s l s'
  := by
  cases h with
  | quiet hstirs => exact hstirs.effect hsound hposted
  | @append data ok b p happend =>
      obtain ⟨he, hsend, hcontent⟩ := WriteBufBase.append_exchange hsound.toSound happend
      apply effect_of_pending hsound hposted he hsend
      intro ha s' hbuilt hunsent
      rw [hcontent ha] at hbuilt
      cases ok <;> exact ⟨hbuilt, hunsent⟩
  | @prepend data ok b p hprepend =>
      obtain ⟨he, hsend, hcontent⟩ := WriteBufBase.prepend_exchange hsound.toSound hprepend
      apply effect_of_pending hsound hposted he hsend
      intro ha s' hbuilt hunsent
      rw [hcontent ha] at hbuilt
      cases ok <;> exact ⟨hbuilt, hunsent⟩
  | @submit buf _ hsubmit hnotify =>
      obtain ⟨hsound₁, he₁, hiovec, hoffset, hsend, hpending⟩ :=
        WriteBufStream.submit_spec hsound hsubmit
      have hposted₁ : Posted { s with buf := buf } := by
        refine ⟨hposted.handle_iff, hposted.card_writevs, ?_⟩
        intro submittedBytes hco nr hnr
        apply (hposted.covers submittedBytes hco nr hnr).congr hiovec hoffset hsend
      obtain ⟨he, hsound', hposted', hflows⟩ := hnotify.effect hsound₁ hposted₁
      refine ⟨he₁.trans_of_subset ?_ he, hsound', hposted', ?_⟩
      · rw [hpending]
        apply List.nil_subset
      · intro ha hlasting
        obtain ⟨hbuilt, hunsent⟩ := hflows ha hlasting
        constructor
        · rw [hbuilt]
          change s.pool.content buf.pendingList = []
          rw [hpending]
          rfl
        · rw [hunsent]
          apply WriteBufStream.unsent_submit hsound hsubmit
  | @written submittedBytes bytes nr rest s₁ buf pool hco hwritevs _ hle hdrain hconsume =>
      have hhandle : s.handle = false := hposted.handle_eq_false (by rw [hco]; nofun)
      have hrest := hposted.rest_eq_zero hco hwritevs
      have hcovers := hposted.covers submittedBytes hco nr (by rw [hwritevs]; simp)
      obtain ⟨buf', pool', R, hrun, hconsumed, hsound', hunsent⟩ :=
        WriteBufStream.consumeWritten_spec hsound (hle.trans (hcovers.bytes_le.trans (hcovers.sum_le_unsent hsound)))
      obtain ⟨closing, failed, rfl⟩ := hdrain.eq_of_handle hhandle
      cases hconsume.symm.trans hrun
      refine ⟨hconsumed.exchange hsound.toSound, hsound', ?_, ?_⟩
      · apply posted_of_ne
        · exact iff_of_false (Bool.eq_false_iff.mp hhandle) nofun
        · exact hrest
        · nofun
      · intro _ _
        exact ⟨hconsumed.content_pending hsound.toSound, hunsent⟩
  | @failed submittedBytes nr rest s₁ s₂ buf pool hco hwritevs hdrain hclose hclosing hreset =>
      have hhandle : s.handle = false := hposted.handle_eq_false (by rw [hco]; nofun)
      have hrest := hposted.rest_eq_zero hco hwritevs
      obtain ⟨buf', pool', hspec, he, hsound', -⟩ := WriteBufStream.reset_spec hsound.toSound
      obtain ⟨_, _, rfl⟩ := hdrain.eq_of_handle hhandle
      obtain ⟨_, _, rfl⟩ := hclose.eq_of_handle hhandle
      cases hreset.symm.trans hspec
      refine ⟨he, hsound', ?_, ?_⟩
      · apply posted_of_ne
        · exact iff_of_false (Bool.eq_false_iff.mp hhandle) nofun
        · exact hrest
        · nofun
      · intro _ hlasting
        cases hclosing.symm.trans (hlasting rfl)
  | stale hco hwritevs =>
      rw [hposted.writevs_eq_zero hco] at hwritevs
      cases Multiset.zero_ne_cons hwritevs
  | returned hrun =>
      have hco := hreturned rfl
      have hhandle : s.handle = false := hposted.handle_eq_false (by rw [hco]; nofun)
      have hwritevs : s.writevs = 0 := hposted.writevs_eq_zero (by rw [hco]; nofun)
      obtain ⟨he, hsound', hposted', hflows⟩ := hrun.effect hsound hhandle hwritevs
      exact ⟨he, hsound', hposted', hflows⟩
  | assign failed _ hrun =>
      obtain ⟨he, hsound', hposted', hflows⟩ := hrun.effect hsound rfl (hassign rfl)
      exact ⟨he, hsound', hposted', hflows⟩

/-! ### How long the bytes last -/

/-- A write coroutine that is not alive stays so until the next connection. -/
theorem Step.co_of_dead (h : Step s l s') (hposted : Posted s) (hassign : l ≠ .assign)
    (hreturned : l = .returned → s.co = .running) (hdead : s.co.Dead) :
  s'.co = s.co
  := by
  have hhandle : s.handle = false := by
    apply hposted.handle_eq_false
    intro hco
    rw [hco] at hdead
    cases hdead <;> contradiction
  have htoken : ∀ submittedBytes, s.co ≠ .onToken submittedBytes := by
    intro submittedBytes hco
    rw [hco] at hdead
    cases hdead <;> contradiction
  cases h with
  | quiet hstirs =>
      obtain ⟨_, _, rfl⟩ := hstirs.eq_of_handle hhandle
      rfl
  | append => rfl
  | prepend => rfl
  | submit _ hnotify => rw [hnotify.eq_of_handle hhandle]
  | written hco => cases htoken _ hco
  | failed hco => cases htoken _ hco
  | stale => rfl
  | returned =>
      rw [hreturned rfl] at hdead
      cases hdead <;> contradiction
  | assign => cases hassign rfl

/-- A buffer that has not been reset during a connection was not before. -/
theorem Step.lasting (h : Step s l s') (hposted : Posted s) (hassign : l ≠ .assign)
    (hreturned : l = .returned → s.co = .running) (hlasting : Lasting s') :
  Lasting s
  := by
  intro hco
  have hopen := hlasting ((h.co_of_dead hposted hassign hreturned (.inr hco)).trans hco)
  rw [← Bool.not_eq_true] at hopen ⊢
  apply mt (h.closing_mono hassign) hopen

/-- Without a failure of `io_uring_get_sqe`, a run ends the write coroutine with an empty buffer. -/
theorem Runs.own_of_dead (h : Runs s s') (hsound : s.buf.Sound s.pool) (hsqe : s'.failed = false)
    (hdead : s'.co.Dead) :
  s'.buf.pendingList = [] ∧ s'.buf.sendList = []
  := by
  cases h with
  | finish _ hreset =>
      obtain ⟨_, _, hspec, -, -, hpending, hsend⟩ := WriteBufStream.reset_spec hsound.toSound
      cases hreset.symm.trans hspec
      exact ⟨hpending, hsend⟩
  | suspend => cases hdead <;> contradiction
  | prepare => cases hdead <;> contradiction
  | throw => cases hsqe

theorem Notifies.own_of_dead (h : Notifies s s') (hsound : s.buf.Sound s.pool)
    (hsqe : s'.failed = false) (hdead : s'.co.Dead) :
  (s'.buf.pendingList = [] ∧ s'.buf.sendList = []) ∨ s' = s
  := by
  cases h with
  | resume _ hrun => exact .inl (hrun.own_of_dead hsound hsqe hdead)
  | mark => exact .inr rfl

/-- How a step can leave a write coroutine that is not alive: with an empty buffer, or, if it was
not alive before, with the buffer as it was or as the application changed it. -/
def Vacates (s : WriteSide) (l : WriteLabel) (s' : WriteSide) : Prop :=
  (s'.buf.pendingList = [] ∧ s'.buf.sendList = [])
    ∨ s.co.Dead ∧ (s'.buf = s.buf
      ∨ ((∃ data ok, l = .append data ok ∨ l = .prepend data ok)
        ∧ s'.buf.sendList = s.buf.sendList)
      ∨ l = .submit ∧ s.buf.pendingList ≠ [])

/-- Without a failure of `io_uring_get_sqe`, the write coroutine resets the buffer when it ends. -/
theorem Step.vacates (h : Step s l s') (hsound : s.buf.Sound s.pool) (hposted : Posted s)
    (hsqe : s'.failed = false) (hdead : s'.co.Dead) :
  Vacates s l s'
  := by
  cases h with
  | quiet hstirs =>
      cases hstirs with
      | rest => exact .inr ⟨hdead, .inl rfl⟩
      | notify s₁ closing failed _ hfailed hnotify =>
          have hsqe₁ : s₁.failed = false := by
            rw [← Bool.not_eq_true] at hsqe ⊢
            apply mt hfailed hsqe
          obtain hown | rfl := hnotify.own_of_dead hsound hsqe₁ hdead
          · exact .inl hown
          · exact .inr ⟨hdead, .inl rfl⟩
  | @append data ok _ _ happend =>
      refine .inr ⟨hdead, .inr (.inl ⟨⟨data, ok, .inl rfl⟩, ?_⟩)⟩
      apply WriteBufBase.sendList_append happend
  | @prepend data ok _ _ hprepend =>
      refine .inr ⟨hdead, .inr (.inl ⟨⟨data, ok, .inr rfl⟩, ?_⟩)⟩
      apply WriteBufBase.sendList_prepend hprepend
  | submit hsubmit hnotify =>
      obtain hown | rfl := hnotify.own_of_dead (WriteBufStream.submit_spec hsound hsubmit).1 hsqe hdead
      · exact .inl hown
      · exact .inr ⟨hdead, .inr (.inr ⟨rfl, (WriteBufStream.sendList_submit hsubmit).2⟩)⟩
  | written hco _ _ _ hdrain =>
      obtain ⟨_, _, rfl⟩ := hdrain.eq_of_handle (hposted.handle_eq_false (by rw [hco]; nofun))
      cases hdead <;> contradiction
  | failed hco _ hdrain hclose _ hreset =>
      have hhandle : s.handle = false := hposted.handle_eq_false (by rw [hco]; nofun)
      obtain ⟨_, _, rfl⟩ := hdrain.eq_of_handle hhandle
      obtain ⟨_, _, rfl⟩ := hclose.eq_of_handle hhandle
      obtain ⟨_, _, hspec, -, -, hpending, hsend⟩ := WriteBufStream.reset_spec hsound.toSound
      cases hreset.symm.trans hspec
      exact .inl ⟨hpending, hsend⟩
  | stale => exact .inr ⟨hdead, .inl rfl⟩
  | returned hrun => exact .inl (hrun.own_of_dead hsound hsqe hdead)
  | assign _ _ hrun => exact .inl (hrun.own_of_dead hsound hsqe hdead)

/-! ### What an outstanding `writev` covers -/

/-- A `writev` covers the same bytes as long as bytes are only put behind the unsent ones. -/
theorem covered_eq {nr submittedBytes submittedBytes' : ℕ} {data : List UInt8}
    (hsound : s.buf.Sound s.pool) (hsound' : s'.buf.Sound s'.pool)
    (hcovers : s.buf.Covers s.pool nr submittedBytes)
    (hcovers' : s'.buf.Covers s'.pool nr submittedBytes') (hiovec : s'.buf.iovec = s.buf.iovec)
    (hunsent : s'.unsent = s.unsent ++ data) :
  s'.covered nr = s.covered nr
  := by
  rw [unsent, unsent] at hunsent
  rw [covered, hcovers'.gather_eq hsound', hiovec, hunsent,
    List.take_append_of_le_length (hcovers.sum_le_unsent hsound)]
  symm
  apply hcovers.gather_eq hsound

/-- No step changes what a `writev` covers that is outstanding before and after it. -/
theorem Step.covered_eq (h : Step s l s') (hsound : s.buf.Sound s.pool) (hposted : Posted s)
    (heffect : Effect s l s') (ha : s.pool.Addressable) (hassign : l = .assign → s.writevs = 0)
    (hreturned : l = .returned → s.co = .running) {nr : ℕ} (hnr : nr ∈ s.writevs)
    (hnr' : nr ∈ s'.writevs) :
  s'.covered nr = s.covered nr
  := by
  obtain ⟨submittedBytes, hco, hcovers⟩ := hposted.onToken hnr
  obtain ⟨submittedBytes', hco', hcovers'⟩ := heffect.posted.onToken hnr'
  have hhandle : s.handle = false := hposted.handle_eq_false (by rw [hco]; nofun)
  have hflows := heffect.flows ha (by intro hfinished; cases hco'.symm.trans hfinished)
  cases h with
  | quiet hstirs =>
      obtain ⟨_, _, rfl⟩ := hstirs.eq_of_handle hhandle
      rfl
  | @append data ok =>
      apply WriteSide.covered_eq hsound heffect.sound hcovers hcovers' rfl 
      rw [List.append_nil]
      cases ok <;> exact hflows.2
  | @prepend data ok =>
      apply WriteSide.covered_eq hsound heffect.sound hcovers hcovers' rfl 
      rw [List.append_nil]
      cases ok <;> exact hflows.2
  | submit hsubmit hnotify =>
      obtain rfl := hnotify.eq_of_handle hhandle
      apply WriteSide.covered_eq hsound heffect.sound hcovers hcovers' _ hflows.2
      apply (WriteBufStream.submit_spec hsound hsubmit).2.2.1
  | written _ _ _ _ hdrain =>
      obtain ⟨_, _, rfl⟩ := hdrain.eq_of_handle hhandle
      cases hco'
  | failed => cases hco'
  | stale hne => cases hne _ hco
  | returned => cases hco.symm.trans (hreturned rfl)
  | assign =>
      rw [hassign rfl] at hnr
      cases Multiset.notMem_zero nr hnr

end WriteSide

end Proactor
