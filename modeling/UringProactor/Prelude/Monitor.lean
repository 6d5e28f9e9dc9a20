import UringProactor.Prelude.Run

/-!
# Monitored machines

A monitor watches the runs of a machine and keeps a record of them.  `run` is a partial step
function that also returns an outcome, and `observe s g e b s'` is the record after a step from
`s` to `s'` with event `e` and outcome `b`, when it was `g` before.  The monitor never
influences the machine.
-/

/-- A state of the machine with the record of the run that led to it. -/
structure Monitored (σ γ : Type*) where
  state : σ
  record : γ

namespace Monitored

variable {σ ε β γ : Type*}

/-- A step of the machine and its monitor. -/
def step (run : σ → ε → Option (β × σ)) (observe : σ → γ → ε → β → σ → γ) (m : Monitored σ γ)
    (e : ε) : Option (Monitored σ γ) :=
  (run m.state e).map (fun (b, s) => ⟨s, observe m.state m.record e b s⟩)

variable {run : σ → ε → Option (β × σ)} {observe : σ → γ → ε → β → σ → γ}

/-- The steps of a monitored machine are the steps of the machine. -/
theorem step_eq_some {m m' : Monitored σ γ} {e : ε} (h : m.step run observe e = some m') :
  ∃ b, run m.state e = some (b, m'.state) ∧ m'.record = observe m.state m.record e b m'.state
  := by
  obtain ⟨⟨b, s⟩, hrun, rfl⟩ := Option.map_eq_some_iff.mp h
  use b

end Monitored
