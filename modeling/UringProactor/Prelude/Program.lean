import UringProactor.Prelude.Monitor

/-!
# Programs on a machine

A program makes calls on a machine.  At each place of control it has at most one next statement: a
step of its own, or a call, which is an event of the machine.  Where control goes on may depend on
the outcome of the call.  Between the calls the machine takes the steps that the program lets
happen, and after each of them control is at the entry of the program.  `Relays` says what a program
makes of a sequence that it passes on item by item.
-/

/-- A program for a machine with states `σ`, events `ε` and outcomes in `Bool`; its places of
control are `π`. -/
structure Program (σ ε π : Type*) where
  /-- The machine. -/
  machine : σ → ε → Option (Bool × σ)
  entry : π
  /-- The steps of the machine that the program lets happen. -/
  lets : σ → π → ε → Bool
  /-- The next statement: the call it makes, if any, and the place of control after it. -/
  statement : σ → π → Option (Option ε × (Bool → π))

namespace Program

/-- A state of the machine, and the place of control. -/
structure State (σ π : Type*) where
  machine : σ
  pc : π

/-- A move: a step of the machine, or a statement of the program. -/
inductive Move (ε : Type*) where
  | loop (e : ε)
  | run

variable {σ ε π : Type*}

/-- A move, with the event of the machine that it is, if any, and its outcome. -/
def stepResult (P : Program σ ε π) (s : State σ π) :
    Move ε → Option (Option (ε × Bool) × State σ π)
  | .loop e =>
      if P.lets s.machine s.pc e then
        (P.machine s.machine e).map (fun (ok, t) => (some (e, ok), ⟨t, P.entry⟩))
      else
        none
  | .run =>
      (P.statement s.machine s.pc).bind (fun (call, next) =>
        match call with
        | none => some (none, ⟨s.machine, next true⟩)
        | some e =>
            (P.machine s.machine e).map (fun (ok, t) => (some (e, ok), ⟨t, next ok⟩)))

/-- The moves of a program. -/
inductive Moves (P : Program σ ε π) (s : State σ π) :
    Move ε → Option (ε × Bool) → State σ π → Prop where
  | loop {e : ε} {ok : Bool} {t : σ} (hlets : P.lets s.machine s.pc e = true)
      (hresult : P.machine s.machine e = some (ok, t)) :
      Moves P s (.loop e) (some (e, ok)) ⟨t, P.entry⟩
  | quiet {next : Bool → π} (hstatement : P.statement s.machine s.pc = some (none, next)) :
      Moves P s .run none ⟨s.machine, next true⟩
  | call {e : ε} {next : Bool → π} {ok : Bool} {t : σ}
      (hstatement : P.statement s.machine s.pc = some (some e, next))
      (hresult : P.machine s.machine e = some (ok, t)) :
      Moves P s .run (some (e, ok)) ⟨t, next ok⟩

/-- Every move is one of these. -/
theorem moves_of_stepResult {P : Program σ ε π} {s s' : State σ π} {x : Move ε}
    {y : Option (ε × Bool)} (h : P.stepResult s x = some (y, s')) :
  P.Moves s x y s'
  := by
  cases x with
  | loop e =>
      rw [stepResult] at h
      split at h
      case isTrue hlets =>
        obtain ⟨⟨ok, t⟩, hresult, heq⟩ := Option.map_eq_some_iff.mp h
        cases heq
        exact .loop hlets hresult
      case isFalse => cases h
  | run =>
      obtain ⟨⟨call, next⟩, hstatement, hrest⟩ := Option.bind_eq_some_iff.mp h
      cases call with
      | none =>
          cases hrest
          exact .quiet hstatement
      | some e =>
          obtain ⟨⟨ok, t⟩, hresult, heq⟩ := Option.map_eq_some_iff.mp hrest
          cases heq
          exact .call hstatement hresult

end Program

/-- The items of `whole` were relayed as `sent`: in order, with nothing added, and with nothing
missing unless `lossy`. -/
structure Relays {α : Type*} (lossy : Bool) (sent whole : List α) : Prop where
  sublist : sent.Sublist whole
  exact : lossy = false → sent = whole

namespace Relays

variable {α : Type*} {lossy : Bool} {sent whole : List α}

theorem nil (lossy : Bool) :
  Relays lossy ([] : List α) []
  := ⟨List.Sublist.refl _, fun _ => rfl⟩

/-- More may be lost. -/
theorem or (h : Relays lossy sent whole) (b : Bool) :
  Relays (lossy || b) sent whole
  := ⟨h.sublist, fun hlossy => h.exact (Bool.or_eq_false_iff.mp hlossy).1⟩

/-- More items are relayed, or lost. -/
theorem append (h : Relays lossy sent whole) (items : List α) (ok : Bool) :
  Relays (lossy || !ok) (sent ++ if ok then items else []) (whole ++ items)
  := by
  cases ok with
  | true =>
      constructor
      · exact h.sublist.append (List.Sublist.refl items)
      · intro hlossy
        rw [h.exact (by simpa using hlossy)]
        rfl
  | false =>
      constructor
      · exact h.sublist.append (List.nil_sublist items)
      · simp

end Relays
