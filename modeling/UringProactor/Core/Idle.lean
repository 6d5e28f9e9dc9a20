import UringProactor.Buffer.Stream
import UringProactor.Core.WriteSteps

/-!
# Waiting for a notification

Whatever happens to a channel: while its write coroutine waits for a notification, the send
queue is empty.  So a notification that comes with no new data, as `close` makes it, finds
nothing to send, and the coroutine prepares no `writev`.
-/

namespace Proactor

namespace WriteSide

variable {s s' : WriteSide} {l : WriteLabel}

/-- A write coroutine that waits for a notification has nothing to send. -/
structure Idle (s : WriteSide) : Prop where
  handle_iff : s.handle = true ↔ s.co = .onNotify
  nothing : s.handle = true → s.buf.sendList = []

/-- What `Idle` depends on. -/
theorem Idle.congr (h : Idle s) (hhandle : s'.handle = s.handle) (hco : s'.co = s.co)
    (hsend : s'.buf.sendList = s.buf.sendList) :
  Idle s'
  := by
  constructor
  · rw [hhandle, hco]
    exact h.handle_iff
  · rw [hhandle, hsend]
    exact h.nothing

theorem idle_of_ne (hhandle : s.handle = false) (hco : s.co ≠ .onNotify) :
  Idle s
  := by
  have hne := Bool.eq_false_iff.mp hhandle
  exact ⟨iff_of_false hne hco, fun htrue => absurd htrue hne⟩

theorem Idle.handle_eq_false (h : Idle s) (hco : s.co ≠ .onNotify) :
  s.handle = false
  := WriteSide.handle_eq_false h.handle_iff hco

theorem Runs.idle (h : Runs s s') (hhandle : s.handle = false) :
  Idle s' ∧ s'.co ≠ .running
  := by
  cases h with
  | finish => exact ⟨idle_of_ne hhandle nofun, nofun⟩
  | suspend hidle => exact ⟨⟨iff_of_true rfl rfl, fun _ => hidle⟩, nofun⟩
  | prepare => exact ⟨idle_of_ne hhandle nofun, nofun⟩
  | throw => exact ⟨idle_of_ne hhandle nofun, nofun⟩

/-- A notification; it is only asked what holds of a coroutine that is not resumed. -/
theorem Notifies.idle (h : Notifies s s') (hidle : s.handle = false → Idle s) :
  Idle s' ∧ (s'.co = .running → s.handle = false ∧ s.co = .running)
  := by
  cases h with
  | resume _ hrun =>
      obtain ⟨hidle', hne⟩ := hrun.idle rfl
      exact ⟨hidle', fun hrunning => absurd hrunning hne⟩
  | mark hfalse => exact ⟨hidle hfalse, fun hrunning => ⟨hfalse, hrunning⟩⟩

theorem Stirs.idle (h : Stirs s s') (hidle : Idle s) :
  Idle s'
  := by
  cases h with
  | rest => exact hidle.congr rfl rfl rfl
  | notify s₁ closing failed _ _ hnotify =>
      obtain ⟨hidle', -⟩ := hnotify.idle (fun _ => hidle.congr rfl rfl rfl)
      exact hidle'.congr rfl rfl rfl

/-- All steps keep the write side idle; a coroutine that runs goes on running until `on_write`
returns. -/
theorem Idle.step (h : Idle s) (hstep : Step s l s')
    (hreturned : l = .returned → s.co = .running) :
  Idle s' ∧ ((∃ bytes, l = .written bytes) → s'.co = .running)
    ∧ (l ≠ .returned → l ≠ .assign → s.co = .running → s'.co = .running)
  := by
  have hrunning : s.co = .running → s.handle = false := by
    intro hco
    apply h.handle_eq_false
    rw [hco]
    nofun
  cases hstep with
  | quiet hstirs =>
      refine ⟨hstirs.idle h, nofun, ?_⟩
      intro _ _ hco
      obtain ⟨closing, failed, rfl⟩ := hstirs.eq_of_handle (hrunning hco)
      exact hco
  | append happend =>
      exact ⟨h.congr rfl rfl (WriteBufBase.sendList_append happend), nofun, fun _ _ => id⟩
  | prepend hprepend =>
      exact ⟨h.congr rfl rfl (WriteBufBase.sendList_prepend hprepend), nofun, fun _ _ => id⟩
  | submit _ hnotify =>
      refine ⟨?_, nofun, ?_⟩
      · apply (hnotify.idle _).1
        intro hfalse
        apply idle_of_ne hfalse
        intro hco
        have htrue := h.handle_iff.mpr hco
        rw [show s.handle = false from hfalse] at htrue
        cases htrue
      · intro _ _ hco
        rw [hnotify.eq_of_handle (hrunning hco)]
        exact hco
  | written hco _ _ _ hdrain =>
      have hfalse : s.handle = false := by
        apply h.handle_eq_false
        rw [hco]
        nofun
      obtain ⟨closing, failed, rfl⟩ := hdrain.eq_of_handle hfalse
      exact ⟨idle_of_ne hfalse nofun, fun _ => rfl, fun _ _ _ => rfl⟩
  | failed hco _ hdrain hclose =>
      have hfalse : s.handle = false := by
        apply h.handle_eq_false
        rw [hco]
        nofun
      obtain ⟨closing, failed, rfl⟩ := hdrain.eq_of_handle hfalse
      obtain ⟨closing', failed', rfl⟩ := hclose.eq_of_handle hfalse
      refine ⟨idle_of_ne hfalse nofun, nofun, ?_⟩
      intro _ _ hrun
      rw [hco] at hrun
      cases hrun
  | stale => exact ⟨h.congr rfl rfl rfl, nofun, fun _ _ => id⟩
  | returned hrun =>
      exact ⟨(hrun.idle (hrunning (hreturned rfl))).1, nofun, fun hne => absurd rfl hne⟩
  | assign _ _ hrun => exact ⟨(hrun.idle rfl).1, nofun, fun _ hne => absurd rfl hne⟩

end WriteSide

namespace Worker

open WriteSide

variable {w w' : Worker} {e : Event} {ok : Bool} {c : ℕ}

/-- Every write side is idle, and the write coroutine of a channel runs while control is in its
`on_write`. -/
structure Idles (w : Worker) : Prop where
  idle : ∀ c, (w.writeSide c).Idle
  running : ∀ c, w.ctl = .onWrite c → (w.writeSide c).co = .running

theorem Idles.step (h : Idles w) (hadmits : w.Admits e) (hresult : w.stepResult e = some (ok, w')) :
  Idles w'
  := by
  have hwrites := (step_cases hresult).writes hadmits
  generalize hlabel : w.writeLabel ok e = label at hwrites
  cases hwrites with
  | none hctl hside =>
      constructor
      · intro d
        rw [hside]
        exact h.idle d
      · intro d hd
        rw [hside]
        rcases (hctl.ctl_iff d).mp hd with ⟨bytes, ⟨⟩⟩ | ⟨hbefore, -⟩
        exact h.running d hbefore
  | @acts c l hctl hact hother =>
      have hreturned : l = .returned → (w.writeSide c).co = .running := by
        rintro rfl
        exact h.running c (hctl.returned c rfl)
      obtain ⟨hidle, hwritten, hkept⟩ := (h.idle c).step hact hreturned
      constructor
      · intro d
        by_cases hd : d = c
        · rw [hd]
          exact hidle
        · rw [hother d hd]
          exact (h.idle d).congr rfl rfl rfl
      · intro d hctl'
        rcases (hctl.ctl_iff d).mp hctl' with ⟨bytes, heq⟩ | ⟨hbefore, hne⟩
        · cases heq
          exact hwritten ⟨bytes, rfl⟩
        · by_cases hd : d = c
          · subst hd
            apply hkept _ _ (h.running d hbefore)
            · rintro rfl
              exact hne rfl
            · -- connections start outside of callbacks
              rintro rfl
              rw [ctl_of_assigns (assigns_of_writeLabel hlabel) hresult] at hbefore
              cases hbefore
          · rw [hother d hd]
            exact h.running d hbefore

theorem idles_start (depth : ℕ) (bufRing : BufRing) (bufPool : BufPool)
    (poolBits capBits : Fin 31) :
  Idles (start depth bufRing bufPool poolBits capBits)
  := ⟨fun _ => idle_of_ne rfl nofun, nofun⟩

end Worker

end Proactor
