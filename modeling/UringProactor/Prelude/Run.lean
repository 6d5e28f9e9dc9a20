import Mathlib

/-!
# Runs of a state machine

A machine is a partial step function on states and events.  `Reaches step ok s t` says
that some run from `s`, all of whose steps meet the condition `ok`, ends in `t`; every
state of such a run is itself reached.  `Reaches.invariant` is the induction rule: what
holds at the start and is kept by every step that meets the condition holds in every
state reached.
-/

variable {σ ε : Type*}

/-- The states reached from `s` by steps that meet the condition `ok`. -/
inductive Reaches (step : σ → ε → Option σ) (ok : σ → ε → Prop) (s : σ) : σ → Prop where
  | start : Reaches step ok s s
  | next {t u : σ} {e : ε} (h : Reaches step ok s t) (hok : ok t e)
      (hstep : step t e = some u) : Reaches step ok s u

namespace Reaches

variable {step : σ → ε → Option σ} {ok : σ → ε → Prop} {s t : σ}

/-- A property of the start that every step keeps holds in every state reached. -/
theorem invariant {I : σ → Prop} (h : Reaches step ok s t) (hstart : I s)
    (hstep : ∀ t u e, I t → ok t e → step t e = some u → I u) :
  I t
  := by
  induction h with
  | start => exact hstart
  | next _ hok he ih => exact hstep _ _ _ ih hok he

/-- Follow a list of events as long as every step meets the condition. -/
def follow (step : σ → ε → Option σ) (ok : σ → ε → Prop) [∀ s e, Decidable (ok s e)] :
    List ε → σ → Option σ
  | [], s => some s
  | e :: es, s => if ok s e then (step s e).bind (follow step ok es) else none

/-- A list of events that can be followed ends in a state that is reached. -/
theorem of_follow [∀ s e, Decidable (ok s e)] {β : Type*} {f : σ → β} {b : β} (es : List ε)
    (h : (follow step ok es s).map f = some b) :
  ∃ t, Reaches step ok s t ∧ f t = b
  := by
  obtain ⟨t, ht, hb⟩ := Option.map_eq_some_iff.mp h
  use t
  constructor
  · clear h hb
    suffices hgen : ∀ u, Reaches step ok s u → follow step ok es u = some t → Reaches step ok s t by
      apply hgen s .start ht
    clear ht
    induction es with
    | nil =>
        intro u hu hut
        cases hut
        apply hu
    | cons e es ih =>
        intro u hu hut
        rw [follow] at hut
        split at hut
        case isTrue hok =>
          obtain ⟨v, hstep, hv⟩ := Option.bind_eq_some_iff.mp hut
          apply ih v (.next hu hok hstep) hv
        case isFalse => cases hut
  · apply hb

/-- A list of events that can be followed to a state with a decidable property. -/
theorem exists_of_follow [∀ s e, Decidable (ok s e)] {p : σ → Prop} [DecidablePred p]
    (es : List ε) (h : (follow step ok es s).map (fun t => decide (p t)) = some true) :
  ∃ t, Reaches step ok s t ∧ p t
  := by
  obtain ⟨t, hreach, ht⟩ := of_follow es h
  use t, hreach, of_decide_eq_true ht

/-- Forward simulation: if a relation between two machines holds at the start, and every step of
the first is matched by a step of the second or by none, then every state the first reaches is
related to a state the second reaches. -/
theorem simulation {τ φ : Type*} {step' : τ → φ → Option τ} {ok' : τ → φ → Prop} {s' : τ}
    {R : σ → τ → Prop} (h : Reaches step ok s t) (hstart : R s s')
    (hstep : ∀ t u e t', R t t' → ok t e → step t e = some u →
      R u t' ∨ ∃ f u', ok' t' f ∧ step' t' f = some u' ∧ R u u') :
  ∃ t', Reaches step' ok' s' t' ∧ R t t'
  := by
  induction h with
  | start => use s', .start, hstart
  | next _ hok he ih =>
      obtain ⟨t', hreach, hrelated⟩ := ih
      rcases hstep _ _ _ _ hrelated hok he with hu | ⟨f, u', hok', hstep', hu⟩
      · use t', hreach, hu
      · use u', .next hreach hok' hstep', hu

end Reaches
