import UringProactor.Buffer.Stream
import UringProactor.Core.WriteSteps

/-!
# No write is stranded

A connection starts without an outstanding `writev`.  As long as it is not closed, its write
coroutine waits for the completion of a `writev` exactly when the send queue has blocks, and for
a notification otherwise, except while `on_write` runs.  So no submitted block is left without a
`writev` to take it along, and no notification is lost.
-/

namespace Proactor

namespace WriteSide

variable {s s' : WriteSide} {l : WriteLabel}

/-- The write coroutine is alive, waits for what `handle` and the outstanding SQEs say, and has
a `writev` outstanding when it does not run and there is something to send. -/
structure Attentive (s : WriteSide) : Prop where
  handle_iff : s.handle = true ↔ s.co = .onNotify
  writevs : s.writevs.card = s.co.tokens
  idle : s.co = .onNotify → s.buf.sendList = []
  busy : s.co.tokens = 1 → s.buf.sendList ≠ []
  started : s.co ≠ .unstarted
  alive : s.co ≠ .finished

/-- What `Attentive` depends on. -/
theorem Attentive.congr (h : Attentive s) (hhandle : s'.handle = s.handle) (hco : s'.co = s.co)
    (hwritevs : s'.writevs = s.writevs) (hsend : s'.buf.sendList = s.buf.sendList) :
  Attentive s'
  := by
  constructor
  · rw [hhandle, hco]
    exact h.handle_iff
  · rw [hwritevs, hco]
    exact h.writevs
  · rw [hco, hsend]
    exact h.idle
  · rw [hco, hsend]
    exact h.busy
  · rw [hco]
    exact h.started
  · rw [hco]
    exact h.alive

/-- A run of the write coroutine of an open channel ends at one of its `co_await`s. -/
theorem Runs.attentive (h : Runs s s') (hhandle : s.handle = false) (hwritevs : s.writevs = 0)
    (hopen : s'.closing = false) (hsqe : s'.failed = false) :
  Attentive s' ∧ s'.co ≠ .running
  := by
  cases h with
  | finish hclosing =>
      rw [hclosing] at hopen
      cases hopen
  | suspend hidle =>
      refine ⟨⟨?_, ?_, fun _ => hidle, nofun, nofun, nofun⟩, nofun⟩
      · exact iff_of_true rfl rfl
      · exact congrArg Multiset.card hwritevs
  | prepare hcount hpeek =>
      refine ⟨⟨?_, ?_, nofun, fun _ => sendList_of_peekIovec hpeek hcount, nofun, nofun⟩, nofun⟩
      · exact iff_of_false (Bool.eq_false_iff.mp hhandle) nofun
      · exact (Multiset.card_cons _ _).trans (congrArg (Multiset.card · + 1) hwritevs)
  | throw => cases hsqe

/-- A notification keeps an open channel attentive; it is only asked what holds of a coroutine
that is not resumed. -/
theorem Notifies.attentive (h : Notifies s s') (hhandle : s.handle = true → s.writevs = 0)
    (hattentive : s.handle = false → Attentive s) (hopen : s'.closing = false)
    (hsqe : s'.failed = false) :
  Attentive s' ∧ (s'.co = .running ↔ s.handle = false ∧ s.co = .running)
  := by
  cases h with
  | resume htrue hrun =>
      obtain ⟨hattentive', hrunning⟩ := hrun.attentive rfl (hhandle htrue) hopen hsqe
      refine ⟨hattentive', iff_of_false hrunning ?_⟩
      rw [htrue]
      rintro ⟨⟨⟩, -⟩
  | mark hfalse => exact ⟨hattentive hfalse, (and_iff_right hfalse).symm⟩

/-- A coroutine that waits for a notification has no `writev` outstanding. -/
theorem Attentive.writevs_eq_zero (h : Attentive s) (hhandle : s.handle = true) :
  s.writevs = 0
  := by
  apply Multiset.card_eq_zero.mp
  rw [h.writevs, h.handle_iff.mp hhandle]
  rfl

theorem Attentive.handle_of_running (h : Attentive s) (hrunning : s.co = .running) :
  s.handle = false
  := by
  apply handle_eq_false h.handle_iff
  rw [hrunning]
  nofun

theorem Attentive.handle_of_onToken (h : Attentive s) {submittedBytes : ℕ}
    (hco : s.co = .onToken submittedBytes) :
  s.handle = false
  := by
  apply handle_eq_false h.handle_iff
  rw [hco]
  nofun

theorem Attentive.running_iff (h : Attentive s) :
  s.handle = false ∧ s.co = .running ↔ s.co = .running
  := and_iff_right_of_imp h.handle_of_running

/-- Closing and notifying. -/
theorem Attentive.stirs (h : Attentive s) (hstirs : Stirs s s') (hopen : s'.closing = false)
    (hsqe : s'.failed = false) :
  Attentive s' ∧ (s'.co = .running ↔ s.co = .running)
  := by
  cases hstirs with
  | rest => exact ⟨h.congr rfl rfl rfl rfl, Iff.rfl⟩
  | notify s₁ closing failed _ hfailed hnotify =>
      have hsqe₁ : s₁.failed = false := by
        rw [← Bool.not_eq_true]
        intro htrue
        rw [hfailed htrue] at hsqe
        cases hsqe
      obtain ⟨hattentive, hrunning⟩ := hnotify.attentive h.writevs_eq_zero
        (fun _ => h.congr rfl rfl rfl rfl) hopen hsqe₁
      exact ⟨hattentive.congr rfl rfl rfl rfl, hrunning.trans h.running_iff⟩

/-- The steps of an open connection. -/
theorem Attentive.step (h : Attentive s) (hstep : Step s l s') (hassign : l ≠ .assign)
    (hreturned : l = .returned → s.co = .running) (hopen : s'.closing = false)
    (hsqe : s'.failed = false) :
  Attentive s' ∧ (s'.co = .running ↔ (∃ bytes, l = .written bytes)
    ∨ s.co = .running ∧ l ≠ .returned)
  := by
  cases hstep with
  | quiet hstirs =>
      obtain ⟨hattentive, hrunning⟩ := h.stirs hstirs hopen hsqe
      exact ⟨hattentive, by simpa using hrunning⟩
  | append happend =>
      exact ⟨h.congr rfl rfl rfl (WriteBufBase.sendList_append happend), by simp⟩
  | prepend hprepend =>
      exact ⟨h.congr rfl rfl rfl (WriteBufBase.sendList_prepend hprepend), by simp⟩
  | @submit buf _ hsubmit hnotify =>
      have hmarked : s.handle = false → Attentive { s with buf := buf } := by
        intro hhandle
        refine { h with idle := ?_, busy := ?_ }
        · intro hco
          have htrue := h.handle_iff.mpr hco
          rw [hhandle] at htrue
          cases htrue
        · intro _
          obtain ⟨hlist, hne⟩ := WriteBufStream.sendList_submit hsubmit
          rw [hlist]
          exact List.append_ne_nil_of_right_ne_nil _ hne
      obtain ⟨hattentive, hrunning⟩ := hnotify.attentive h.writevs_eq_zero hmarked hopen hsqe
      exact ⟨hattentive, by simpa using hrunning.trans h.running_iff⟩
  | @written submittedBytes bytes nr rest s₁ _ _ hco hwritevs _ _ hdrain _ =>
      obtain ⟨closing, failed, rfl⟩ := hdrain.eq_of_handle (h.handle_of_onToken hco)
      have hcard := h.writevs
      rw [hwritevs, Multiset.card_cons, hco] at hcard
      refine ⟨⟨?_, ?_, nofun, nofun, nofun, nofun⟩, by simp⟩
      · exact iff_of_false (Bool.eq_false_iff.mp (h.handle_of_onToken hco)) nofun
      · exact Nat.succ.inj hcard
  | failed _ _ _ _ hclosing =>
      rw [show _ = false from hopen] at hclosing
      cases hclosing
  | stale hco hwritevs =>
      have hcard := h.writevs
      rw [hwritevs, Multiset.card_cons, WriteCo.tokens_of_ne hco] at hcard
      cases hcard
  | returned hrun =>
      have hrunning := hreturned rfl
      have hzero : s.writevs = 0 := by
        apply Multiset.card_eq_zero.mp
        rw [h.writevs, hrunning]
        rfl
      obtain ⟨hattentive, hne⟩ := hrun.attentive (h.handle_of_running hrunning) hzero hopen hsqe
      exact ⟨hattentive, by simpa using hne⟩
  | assign => cases hassign rfl

/-- The start of a connection. -/
theorem Step.attentive_of_assign (h : Step s .assign s') (hwritevs : s.writevs = 0)
    (hsqe : s'.failed = false) :
  Attentive s' ∧ s'.co ≠ .running
  := by
  cases h with
  | assign failed _ hrun => exact hrun.attentive rfl hwritevs hrun.closing_eq hsqe

end WriteSide

namespace Worker

open WriteSide

variable {w w' : Worker} {c : ℕ}

/-- What holds of a connection until it closes or `io_uring_get_sqe` fails: the write coroutine
is attentive, and it runs while control is in `on_write`. -/
def Attends (c : ℕ) (w : Worker) : Prop :=
  (w.writeSide c).failed = false → (w.writeSide c).closing = false →
    Attentive (w.writeSide c) ∧ (w.ctl = .onWrite c ↔ (w.writeSide c).co = .running)

/-- An event that does not start another connection on the channel. -/
theorem Attends.step (h : Attends c w) {e : Event} (hadmits : w.Admits e)
    (hassigns : ¬ w.Assigns c e) (hstep : w.step e = some w') :
  Attends c w'
  := by
  obtain ⟨⟨ok, w₁⟩, hresult, rfl⟩ := Option.map_eq_some_iff.mp hstep
  have hwrites := (step_cases hresult).writes hadmits
  intro hsqe hopen
  generalize hlabel : w.writeLabel ok e = label at hwrites
  cases hwrites with
  | none hctl hside =>
      rw [hside] at hsqe hopen ⊢
      obtain ⟨hattentive, hrunning⟩ := h hsqe hopen
      refine ⟨hattentive, ?_⟩
      rw [hctl.ctl_iff]
      simpa using hrunning
  | @acts d l hctl hact hother =>
      have hsqe₀ : (w.writeSide d).failed = false :=
        Bool.eq_false_iff.mpr (fun htrue => Bool.false_ne_true
          (hsqe.symm.trans (hact.failed_mono htrue)))
      by_cases hd : c = d
      · subst hd
        have hne : l ≠ .assign := by
          rintro rfl
          exact hassigns (assigns_of_writeLabel hlabel)
        have hopen₀ : (w.writeSide c).closing = false :=
          Bool.eq_false_iff.mpr (fun htrue => Bool.false_ne_true
            (hopen.symm.trans (hact.closing_mono hne htrue)))
        obtain ⟨hattentive, hrunning⟩ := h hsqe₀ hopen₀
        have hreturned : l = .returned → (w.writeSide c).co = .running := by
          rintro rfl
          exact hrunning.mp (hctl.returned c rfl)
        obtain ⟨hattentive', hrunning'⟩ := hattentive.step hact hne hreturned hopen hsqe
        refine ⟨hattentive', ?_⟩
        rw [hctl.ctl_iff, hrunning]
        simpa using hrunning'.symm
      · rw [hother c hd] at hopen ⊢
        obtain ⟨hattentive, hrunning⟩ := h hsqe₀ hopen
        refine ⟨hattentive.congr rfl rfl rfl rfl, ?_⟩
        rw [hctl.ctl_iff]
        simpa [Ne.symm hd] using hrunning

/-- The start of a connection without a `writev` that is outstanding. -/
theorem attends_of_assigns {e : Event} (hassigns : w.Assigns c e) (hadmits : w.Admits e)
    (hwritev : w.thread.ioRing.outstanding (.write c) = 0) (hstep : w.step e = some w') :
  Attends c w'
  := by
  obtain ⟨⟨ok, w₁⟩, hresult, rfl⟩ := Option.map_eq_some_iff.mp hstep
  have hwrites := (step_cases hresult).writes hadmits
  have hlabel := writeLabel_of_assigns hassigns ok
  rw [hlabel] at hwrites
  intro hsqe _
  cases hwrites with
  | acts hctl hact =>
      rw [← IoRing.card_writevs] at hwritev
      obtain ⟨hattentive, hne⟩ := hact.attentive_of_assign (Multiset.card_eq_zero.mp hwritev) hsqe
      refine ⟨hattentive, iff_of_false ?_ hne⟩
      rw [hctl.ctl_iff, ctl_of_assigns hassigns hresult]
      simp

/-- No write is stranded and no notification is lost.  A connection starts on the channel `c`,
which has no `writev` outstanding.  Whatever events follow, until the next connection starts on
the channel: when control is in the loop, `io_uring_get_sqe` has not failed and the channel is
not closing, one `writev` is outstanding if the send queue has blocks and none if it is empty,
and if none is outstanding then the write coroutine is suspended on `notify_token_`. -/
theorem no_stranded_write {w₀ w₁ : Worker} {e₀ : Event} (hassigns : w₀.Assigns c e₀)
    (hadmits : w₀.Admits e₀) (hwritev : w₀.thread.ioRing.outstanding (.write c) = 0)
    (hstart : w₀.step e₀ = some w₁)
    (h : Reaches step (fun w e => w.Admits e ∧ ¬ w.Assigns c e) w₁ w)
    (hsqe : w.thread.ioRing.failed = false) (hctl : w.ctl = .poll ∨ w.ctl = .batch)
    (hopen : (w.channels c).isClosing = false) :
  w.thread.ioRing.outstanding (.write c) ≤ 1
    ∧ (w.thread.ioRing.outstanding (.write c) = 1 ↔ (w.channels c).writeBuf.sendList ≠ [])
    ∧ (w.thread.ioRing.outstanding (.write c) = 0 →
      (w.channels c).writeCo = .onNotify ∧ (w.channels c).notifyToken.handle = true)
  := by
  have hattends : Attends c w := by
    apply h.invariant (attends_of_assigns hassigns hadmits hwritev hstart)
    intro w w' e hattends hok hstep
    exact hattends.step hok.1 hok.2 hstep
  obtain ⟨hattentive, hrunning⟩ := hattends hsqe hopen
  have hcard : w.thread.ioRing.outstanding (.write c) = (w.channels c).writeCo.tokens :=
    (IoRing.card_writevs _ c).symm.trans hattentive.writevs
  have hidle := hattentive.idle
  have hbusy := hattentive.busy
  rw [hcard]
  cases hco : (w.channels c).writeCo with
  | unstarted => exact absurd hco hattentive.started
  | finished => exact absurd hco hattentive.alive
  | running =>
      exfalso
      have honWrite := hrunning.mpr hco
      obtain hctl | hctl := hctl
      · cases hctl.symm.trans honWrite
      · cases hctl.symm.trans honWrite
  | onNotify =>
      refine ⟨Nat.zero_le _, iff_of_false nofun ?_, fun _ => ⟨rfl, ?_⟩⟩
      · exact not_not_intro (hidle hco)
      · exact hattentive.handle_iff.mpr hco
  | onToken submittedBytes =>
      refine ⟨le_rfl, iff_of_true rfl ?_, nofun⟩
      apply hbusy
      change (w.channels c).writeCo.tokens = 1
      rw [hco]
      rfl

/-- A connection sends a byte from `on_accept`; its `writev` is outstanding when control is back
in the loop. -/
theorem no_stranded_write_one_byte :
  ∃ w₀ w₁ w : Worker, w₀.Assigns 0 (.complete 0 5 true 0 [])
    ∧ Reaches step (fun w e => w.Admits e ∧ ¬ w.Assigns 0 e) w₁ w
    ∧ w.thread.ioRing.outstanding (.write 0) = 1
    ∧ (w.channels 0).writeBuf.sendList ≠ []
  := by
  have hrun : (BufPool.new 1 2 (by decide) (by decide) (by decide)).bind (fun pool =>
      ((start 8 (BufRing.new 0 1 (by decide) (by decide)) pool 0 1).step .submit).bind (fun w₀ =>
        (w₀.step (.complete 0 5 true 0 [])).bind (fun w₁ =>
          (Reaches.follow step (fun w e => w.Admits e ∧ ¬ w.Assigns 0 e)
            [.app 0 (.append [1]), .app 0 .submit, .ret] w₁).map (fun w =>
              (decide (w₀.Assigns 0 (.complete 0 5 true 0 [])
                  ∧ w₀.Admits (.complete 0 5 true 0 [])),
                w₀.thread.ioRing.outstanding (.write 0), w.thread.ioRing.failed, w.ctl,
                (w.channels 0).isClosing, w.thread.ioRing.outstanding (.write 0))))))
      = some (true, 0, false, .batch, false, 1) := by
    decide +kernel
  obtain ⟨pool, -, hrun⟩ := Option.bind_eq_some_iff.mp hrun
  obtain ⟨w₀, -, hrun⟩ := Option.bind_eq_some_iff.mp hrun
  obtain ⟨w₁, hstart, hfollow⟩ := Option.bind_eq_some_iff.mp hrun
  obtain ⟨w, hreach, hfinal⟩ := Reaches.of_follow _ hfollow
  obtain ⟨hbefore, hwritev, hsqe, hctl, hopen, hwritev'⟩ := by
    simpa only [Prod.mk.injEq, decide_eq_true_eq] using hfinal
  have h := no_stranded_write hbefore.1 hbefore.2 hwritev hstart hreach hsqe (.inr hctl) hopen
  exact ⟨w₀, w₁, w, hbefore.1, hreach, hwritev', h.2.1.mp hwritev'⟩

end Worker

end Proactor
