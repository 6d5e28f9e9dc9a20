import UringProactor.Net.WriteSide

/-!
# The descriptors that SQEs name

An SQE captures the number of a descriptor when it is prepared.  Every function of a channel
prepares only SQEs that name the descriptor the channel has at that moment, and `close` gives
the descriptor up behind everything it prepares.
-/

namespace Proactor

/-- The SQE is a `recv` or a `writev` of the channel `c` on the descriptor `fd`. -/
def Sqe.Names (c : ℕ) (fd : Int) (sqe : Sqe) : Prop :=
  sqe = ⟨.multishotRecv fd, .read c⟩ ∨ ∃ nr, sqe = ⟨.writev fd nr, .write c⟩

/-- Between `r` and `r'` the channel `c` prepared SQEs on the descriptor `fd`. -/
structure IoRing.Prepares (c : ℕ) (fd : Int) (r r' : IoRing) : Prop where
  depth : r'.depth = r.depth
  inflight : r'.inflight = r.inflight
  sq : ∃ l, r'.sq = r.sq ++ l ∧ ∀ sqe ∈ l, sqe.Names c fd

namespace IoRing.Prepares

variable {c : ℕ} {fd : Int} {r r' r'' : IoRing} {sqe : Sqe}

theorem of_sq_eq (hdepth : r'.depth = r.depth) (hinflight : r'.inflight = r.inflight)
    (hsq : r'.sq = r.sq) :
  Prepares c fd r r'
  := by
  refine ⟨hdepth, hinflight, [], ?_, nofun⟩
  rw [hsq, List.append_nil]

theorem refl :
  Prepares c fd r r
  := .of_sq_eq rfl rfl rfl

theorem trans (h : Prepares c fd r r') (h' : Prepares c fd r' r'') :
  Prepares c fd r r''
  := by
  obtain ⟨l, hsq, hnames⟩ := h.sq
  obtain ⟨l', hsq', hnames'⟩ := h'.sq
  refine ⟨h'.depth.trans h.depth, h'.inflight.trans h.inflight, l ++ l', ?_, ?_⟩
  · rw [hsq', hsq, List.append_assoc]
  · intro sqe hsqe
    rcases List.mem_append.mp hsqe with hsqe | hsqe
    · apply hnames sqe hsqe
    · apply hnames' sqe hsqe

theorem of_prep (hprep : r.prep sqe = some r') (hnames : sqe.Names c fd) :
  Prepares c fd r r'
  := by
  rw [prep_eq_some hprep]
  refine ⟨rfl, rfl, [sqe], rfl, ?_⟩
  intro sqe' hsqe
  rw [List.mem_singleton.mp hsqe]
  exact hnames

/-- A failure of `io_uring_get_sqe`. -/
theorem fail :
  Prepares c fd r r.fail
  := .of_sq_eq rfl rfl rfl

end IoRing.Prepares

namespace TcpChannel

open IoRing

variable {c : ℕ} {ch ch' : TcpChannel} {th th' : TcpThread}

/-! ### What is prepared, and the descriptor afterwards -/

theorem WriteOutcome.prepares {woken : Bool} (h : WriteOutcome c woken ch th ch' th') :
  Prepares c ch.fd th.ioRing th'.ioRing ∧ ch'.fd = ch.fd
  := by
  cases h with
  | finish => exact ⟨.refl, rfl⟩
  | suspend => exact ⟨.refl, rfl⟩
  | @prepare count _ _ _ _ _ _ hprep => exact ⟨.of_prep hprep (.inr ⟨count, rfl⟩), rfl⟩
  | throw => exact ⟨.fail, rfl⟩

theorem notify_prepares (h : ch.notify c th = some (ch', th')) :
  Prepares c ch.fd th.ioRing th'.ioRing ∧ ch'.fd = ch.fd
  := by
  rw [notify] at h
  split at h
  case isTrue => exact (resumeNotified_outcome h).prepares
  case isFalse =>
    cases h
    exact ⟨.refl, rfl⟩

/-- `TcpChannel::in_flight_dec` leaves the channel open or closing as it was. -/
theorem inFlightDec_fd (h : ch.inFlightDec c th = some (ch', th')) :
  ch'.fd = ch.fd ∧ ch'.isClosing = ch.isClosing
  := by
  cases inFlightDec_cases h with
  | keep => exact ⟨rfl, rfl⟩
  | drain _ _ hnotify _ =>
      exact ⟨(notify_prepares hnotify).2, (notify_notifies hnotify).1.closing_eq⟩

theorem close_prepares (h : ch.close c th = some (ch', th')) :
  Prepares c ch.fd th.ioRing th'.ioRing ∧ ch'.fd = -1
  := by
  obtain ⟨⟨ch₁, th₁⟩, hnotify, heq⟩ := Option.map_eq_some_iff.mp h
  cases heq
  exact ⟨(notify_prepares hnotify).1, rfl⟩

theorem closeOnce_prepares (h : ch.closeOnce c th = some (ch', th')) :
  Prepares c ch.fd th.ioRing th'.ioRing ∧ ch'.fd = if ch.isClosing then ch.fd else -1
  := by
  rw [closeOnce] at h
  split at h
  case isTrue hclosing =>
    cases h
    rw [if_pos hclosing]
    exact ⟨.refl, rfl⟩
  case isFalse hclosing =>
    rw [if_neg hclosing]
    apply close_prepares h

theorem pushReceived_fd {idx size : ℕ} (h : ch.pushReceived c th idx size = (ch', th')) :
  ch'.fd = ch.fd ∧ th'.ioRing = th.ioRing
  := by
  rw [pushReceived, markPendingRead] at h
  split at h
  · cases h
    exact ⟨rfl, rfl⟩
  · cases h
    exact ⟨rfl, rfl⟩

theorem resumeRead_prepares {idx : ℕ} {res : Int} {more callback : Bool}
    (h : ch.resumeRead c th res more idx = some (ch', th', callback)) :
  Prepares c ch.fd th.ioRing th'.ioRing ∧ ch'.fd = ch.fd
  := by
  obtain ⟨ch₁, th₁, hdec, hrest⟩ := resumeRead_cases h
  obtain ⟨-, hring⟩ := inFlightDec_stirs hdec
  obtain ⟨hfd, -⟩ := inFlightDec_fd hdec
  change ch₁.fd = ch.fd at hfd
  rw [← hring, ← hfd]
  cases hrest with
  | ended => exact ⟨.refl, rfl⟩
  | pushed _ hpush =>
      obtain ⟨hfd', hring'⟩ := pushReceived_fd hpush
      rw [hfd', hring']
      exact ⟨.refl, rfl⟩
  | threw => exact ⟨.fail, rfl⟩
  | rearmed _ hprep hpush =>
      obtain ⟨hfd', hring'⟩ := pushReceived_fd hpush
      rw [hfd', hring']
      exact ⟨.of_prep hprep (.inl rfl), rfl⟩

theorem afterOnClose_prepares (h : ch.afterOnClose c th = some (ch', th')) :
  Prepares c ch.fd th.ioRing th'.ioRing ∧ ch'.fd = if ch.isClosing then ch.fd else -1
  := by
  obtain ⟨⟨ch₁, th₁⟩, hclose, hrest⟩ := Option.bind_eq_some_iff.mp h
  obtain ⟨⟨readBuf, bufRing⟩, -, heq⟩ := Option.bind_eq_some_iff.mp hrest
  cases heq
  have hprepares := closeOnce_prepares hclose
  exact hprepares

theorem resumeWrite_prepares {submittedBytes : ℕ} {res : Int} {callback : Bool}
    (h : ch.resumeWrite c th submittedBytes res = some (ch', th', callback)) :
  Prepares c ch.fd th.ioRing th'.ioRing
    ∧ ch'.fd = if res ≤ 0 ∧ ch.isClosing = false then -1 else ch.fd
  := by
  obtain ⟨ch₁, th₁, hdec, hrest⟩ := resumeWrite_cases h
  obtain ⟨-, hring⟩ := inFlightDec_stirs hdec
  obtain ⟨hfd, hclosing⟩ := inFlightDec_fd hdec
  change ch₁.fd = ch.fd at hfd
  change ch₁.isClosing = ch.isClosing at hclosing
  rw [← hring, ← hfd]
  cases hrest with
  | @failed ch₂ th₂ _ _ hres hclose _ =>
      obtain ⟨hprepares, hfd'⟩ := closeOnce_prepares hclose
      refine ⟨hprepares, ?_⟩
      change ch₂.fd = _
      rw [hfd', hclosing]
      cases ch.isClosing <;> simp [hres]
  | consumed hres _ _ =>
      rw [if_neg (fun h => absurd h.1 (Int.not_le.mpr hres))]
      exact ⟨.refl, rfl⟩

theorem assign_prepares {fd : Int} (h : ch.assign c th fd = some (ch', th')) :
  Prepares c fd th.ioRing th'.ioRing ∧ ch'.fd = fd
  := by
  rw [assign, startRead] at h
  split at h
  case h_1 ch₁ th₁ hstart =>
    split at hstart
    case h_1 =>
      cases hstart
      obtain ⟨hprepares, hfd⟩ := (writeLoop_outcome h).prepares
      exact ⟨IoRing.Prepares.fail.trans hprepares, hfd⟩
    case h_2 ioRing hprep =>
      cases hstart
      obtain ⟨hprepares, hfd⟩ := (writeLoop_outcome h).prepares
      exact ⟨(IoRing.Prepares.of_prep hprep (.inl rfl)).trans hprepares, hfd⟩

end TcpChannel

end Proactor
