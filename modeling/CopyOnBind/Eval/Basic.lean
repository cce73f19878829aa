import CopyOnBind.Signal
/-!
# Evaluation

An evaluation acts on a state and ends in a value or a signal, or does not end
within the steps it was given. In the last case the state is the one that was
reached, so what happened on the way can still be seen.

The constructs here are built from evaluations of their parts and of nothing
else, so they serve every language and every state.
-/

namespace CopyOnBind

/-- Evaluations that act on a state `σ`. -/
abbrev Eval (σ : Type) (α : Type) := ExceptT Signal (OptionT (StateM σ)) α

namespace Eval

variable {σ τ α : Type}

/-- The steps ran out. -/
def unfinished : Eval σ α := ExceptT.lift failure

/-- Ends with a fault. -/
def fault (f : Fault) : Eval σ α := throw (.error f)

/-- Ends as the outcome does. -/
def ofExcept (r : Except Signal α) : Eval σ α := ExceptT.mk (pure r)

/-- Ends with the fault, if it is one. -/
def orFault (r : Except Fault α) : Eval σ α := ofExcept (r.mapError .error)

/-- Ends with the value, unless a walk over the store did not end. -/
def ofOption : Option α → Eval σ α
  | some a => pure a
  | none => unfinished

/-- The outcome as a value: no signal leaves. -/
def outcome (x : Eval σ α) : Eval σ (Except Signal α) := ExceptT.lift x.run

/-- An evaluation as a function of the state. -/
def runOn (x : Eval σ α) (s : σ) : Option (Except Signal α) × σ := x.run.run.run s

/-- Acts on a part of a larger state. -/
def focus (get : τ → σ) (set : τ → σ → τ) (x : Eval σ α) : Eval τ α :=
  fun t =>
    let (r, s) := x.runOn (get t)
    (r, set t s)

/-! ## Constructs -/

/-- The parts in order; the value is that of the last one. -/
def block (run : α → Eval σ Value) (parts : List α) : Eval σ Value :=
  parts.foldlM (fun _ part => run part) .void

/-- A loop of at most `n` rounds. It has no value, unless the body leaves it
with one. -/
def loop (cond : Eval σ Bool) (body : Eval σ Value) : Nat → Eval σ Value
  | 0 => unfinished
  | n + 1 => do
    if ← cond then
      match Outcome.afterRound (← body.outcome) with
      | .again => loop cond body n
      | .leave v => return v
      | .pass s => throw s
    else return .void

/-- A block where an out gives the value. -/
def bareBlock (body : Eval σ Value) : Eval σ Value := do
  ofExcept (Outcome.closeBlock (← body.outcome))

/-! ## What an evaluation does to a state -/

variable {β : Type}

@[simp] theorem runOn_pure (a : α) (s : σ) : (pure a : Eval σ α).runOn s = (some (.ok a), s) := rfl

@[simp] theorem runOn_throw (e : Signal) (s : σ) :
    (throw e : Eval σ α).runOn s = (some (.error e), s) := rfl

@[simp] theorem runOn_unfinished (s : σ) : (unfinished : Eval σ α).runOn s = (none, s) := rfl

@[simp] theorem runOn_ofExcept (r : Except Signal α) (s : σ) :
    (ofExcept r : Eval σ α).runOn s = (some r, s) := rfl

@[simp] theorem runOn_get (s : σ) : (get : Eval σ σ).runOn s = (some (.ok s), s) := rfl

@[simp] theorem runOn_modify (f : σ → σ) (s : σ) :
    (modify f : Eval σ Unit).runOn s = (some (.ok ()), f s) := rfl

theorem runOn_bind (x : Eval σ α) (f : α → Eval σ β) (s : σ) :
    (x >>= f).runOn s =
      match x.runOn s with
      | (some (.ok a), t) => (f a).runOn t
      | (some (.error e), t) => (some (.error e), t)
      | (none, t) => (none, t) := by
  simp only [runOn, bind, ExceptT.bind, ExceptT.run, OptionT.run, ExceptT.mk, OptionT.bind,
    OptionT.mk, StateT.run, StateT.bind]
  generalize x s = y
  rcases y with ⟨_ | _ | _, t⟩ <;> rfl

@[simp] theorem runOn_outcome (x : Eval σ α) (s : σ) :
    x.outcome.runOn s = ((x.runOn s).1.map .ok, (x.runOn s).2) := by
  simp only [outcome, ExceptT.lift, runOn, ExceptT.run, ExceptT.mk, OptionT.run, StateT.run,
    Functor.map, OptionT.bind, OptionT.mk, StateT.bind, bind]
  generalize x s = y
  rcases y with ⟨_ | _, t⟩ <;> rfl

@[simp] theorem runOn_focus (get : τ → σ) (set : τ → σ → τ) (x : Eval σ α) (t : τ) :
    (x.focus get set).runOn t = ((x.runOn (get t)).1, set t (x.runOn (get t)).2) := rfl

theorem runOn_loop_succ (cond : Eval σ Bool) (body : Eval σ Value) (n : Nat) (s : σ) :
    (loop cond body (n + 1)).runOn s =
      match cond.runOn s with
      | (some (.ok true), t) =>
        match body.runOn t with
        | (some r, u) =>
          match Outcome.afterRound r with
          | .again => (loop cond body n).runOn u
          | .leave v => (some (.ok v), u)
          | .pass e => (some (.error e), u)
        | (none, u) => (none, u)
      | (some (.ok false), t) => (some (.ok .void), t)
      | (some (.error e), t) => (some (.error e), t)
      | (none, t) => (none, t) := by
  simp only [loop, runOn_bind]
  rcases cond.runOn s with ⟨_ | _ | b, t⟩
  · rfl
  · rfl
  · cases b
    · rfl
    · simp only [↓reduceIte, runOn_bind, runOn_outcome]
      rcases body.runOn t with ⟨_ | r, u⟩
      · rfl
      · simp only [Option.map_some]
        split <;> simp_all

end Eval

end CopyOnBind
