import CopyOnBind.Kernel.Run
/-!
# What evaluations do to a world

An evaluation is run on a world and gives a result and the next world. The
lemmas here say what the operations give, so that nothing else has to look into
the monad: a copy first, and then one change of the store. A loop is one round
and what comes after it (`whileLoop_succ`), a closure's scope is bound parameter
by parameter (`callScope_eq`), and a run that ends came to an outcome or was broken
off (`run_eq_some`).
-/

namespace CopyOnBind

open Store

namespace Eval

variable {ω α β : Type} {w : World ω}

theorem runOn_ofWalk (x : StateT Store Option α) (s : Store) : (ofWalk x).runOn s =
    match x s with
    | some (a, t) => (some (.ok a), t)
    | none => (none, s) := by
  simp only [ofWalk, runOn, ExceptT.lift, ExceptT.run, ExceptT.mk, OptionT.run, StateT.run, Functor.map, OptionT.bind,
    OptionT.mk, StateT.bind, bind]
  cases x s <;> rfl

@[simp] theorem runOn_walk (x : StateT Store Option α) : (walk x).runOn w =
    match x w.store with
    | some (a, s) => (some (.ok a), { w with store := s })
    | none => (none, w) := by
  unfold walk onStore
  rw [runOn_focus, runOn_ofWalk]
  cases x w.store <;> rfl

@[simp] theorem runOn_change (f : Store → α × Store) :
    (change f : Eval (World ω) α).runOn w = (some (.ok (f w.store).1), { w with store := (f w.store).2 }) := rfl

theorem runOn_get_bind (f : World ω → Eval (World ω) β) : (get >>= f).runOn w = (f w).runOn w := by
  rw [runOn_bind, runOn_get]

theorem runOn_examine (f : Store → Option α) :
    (examine f : Eval (World ω) α).runOn w = ((f w.store).map .ok, w) := by
  unfold examine
  rw [runOn_get_bind]
  cases f w.store <;> rfl

@[simp] theorem runOn_breakOff : (breakOff : Eval (World ω) α).runOn w = (none, { w with broken := true }) := rfl

theorem runOn_bound (v : Value) : (bound v).runOn w =
    match w.store.copy v with
    | some (c, s) => (some (.ok c), { w with store := s })
    | none => (none, w) := by
  unfold bound
  rw [runOn_get_bind, runOn_walk, Machine.bound]
  cases w.store.copy v <;> rfl

theorem orFault_ok (a : α) : (orFault (.ok a) : Eval (World ω) α) = pure a := rfl

theorem runOn_calling (body : Eval (World ω) Value) : (calling body).runOn w =
    match w.machine.enter with
    | .error f => (some (.error (.error f)), w)
    | .ok m =>
      ((body.runOn { w with machine := m }).1.map .ok, match body.runOn { w with machine := m } with
        | (some _, u) => { u with machine := u.machine.leave }
        | (none, u) => u) := by
  unfold calling
  rw [runOn_get_bind, runOn_bind]
  cases w.machine.enter with
  | error f => rfl
  | ok m =>
    simp only [orFault_ok, runOn_pure, runOn_bind, runOn_modify, runOn_outcome]
    rcases body.runOn { w with machine := m } with ⟨_ | r, u⟩ <;> rfl

end Eval

namespace Kernel

/-- All moments of a run with the store at each. -/
abbrev Trace := List (Moment × Store)

def record : Watcher Trace := fun m w => w.notes ++ [(m, w.store)]

variable {s : Store} {w : World Trace} {v : Value}

/-! ## Operations -/

theorem runOn_define {e : ScopeId} {x : String} : (define e x v).runOn w =
    match w.store.copy v with
    | some (c, s) => (some (.ok .void), { w with store := s.define e x c true })
    | none => (none, w) := by
  unfold define
  rw [Eval.runOn_bind, Eval.runOn_bound]
  cases w.store.copy v <;> rfl

theorem runOn_assign {e : ScopeId} {x : String} : (assign e x v).runOn w =
    match w.store.copy v with
    | some (c, s) =>
      (match (s.assign e x c).1 with
        | .ok () => some (.ok .void)
        | .error err => some (.error (.error (.custom err.message))), { w with store := (s.assign e x c).2 })
    | none => (none, w) := by
  unfold assign
  rw [Eval.runOn_bind, Eval.runOn_bound]
  cases w.store.copy v with
  | none => rfl
  | some p =>
    simp only [Eval.runOn_bind, Eval.runOn_change]
    cases (p.2.assign e x p.1).1 <;> rfl

theorem runOn_push {e : ScopeId} {x : String} : (push e x v).runOn w =
    match w.store.lookup e x with
    | none => (some (.error (.error (.custom "undefined"))), w)
    | some (.array a) =>
      match w.store.copyReads v a with
      | some true => (none, { w with broken := true })
      | some false =>
        match w.store.copy v with
        | some (c, s) => (some (.ok .void), { w with store := s.push a c })
        | none => (none, w)
      | none => (none, w)
    | some _ => (some (.error (.error (.custom "not an array"))), w) := by
  unfold push
  rw [Eval.runOn_get_bind]
  cases w.store.lookup e x with
  | none => rfl
  | some target =>
    cases target with
    | array a =>
      simp only [wantArray, Value.array?, Eval.runOn_bind, Eval.runOn_pure, Eval.runOn_examine]
      rcases w.store.copyReads v a with _ | _ | _
      · rfl
      · simp only [Option.map_some, Bool.false_eq_true, ↓reduceIte, Eval.runOn_bind, Eval.runOn_bound]
        cases w.store.copy v <;> rfl
      · rfl
    | _ => rfl

theorem handBack_eq {m : Machine} : m.handBack v s =
    if m.policy.copyElision then (s.copy v).map fun p => (p.1, p.2.mark p.1) else some (v, s) := by
  unfold Machine.handBack
  by_cases hp : m.policy.copyElision
  · rw [if_pos hp, if_pos hp]
    change (copy v s).bind _ = _
    cases copy v s <;> rfl
  · rw [if_neg hp, if_neg hp]
    rfl

theorem runOn_handBack : (Eval.handBack v).runOn w =
    if w.machine.policy.copyElision then
      match w.store.copy v with
      | some (c, s) => (some (.ok c), { w with store := s.mark c })
      | none => (none, w)
    else (some (.ok v), w) := by
  unfold Eval.handBack
  rw [Eval.runOn_get_bind, Eval.runOn_walk, handBack_eq]
  by_cases hp : w.machine.policy.copyElision
  · rw [if_pos hp, if_pos hp]
    cases w.store.copy v <;> rfl
  · rw [if_neg hp, if_neg hp]

/-! ## Scopes of calls -/

/-- Binds names in a scope to copies of values. -/
def bindAll (m : Machine) (e : ScopeId) (l : List (String × Value)) : StateT Store Option PUnit :=
  l.forM fun p => do
    let value ← m.bound p.2
    modify (·.define e p.1 value true)

theorem bindAll_cons {m : Machine} {e : ScopeId} {p : String × Value} {l : List (String × Value)} {s : Store} :
    bindAll m e (p :: l) s = (s.copy p.2).bind fun q => bindAll m e l (q.2.define e p.1 q.1 true) := by
  unfold bindAll
  rw [List.forM]
  change ((s.copy p.2).bind _).bind _ = _
  cases s.copy p.2 <;> rfl

theorem callScope_eq {m : Machine} {f : Closure} {args : List Value} {s : Store} : m.callScope f args s =
    (bindAll m (s.newScope (some f.scope)).1 (f.params.zip args) (s.newScope (some f.scope)).2).map fun q =>
      ((s.newScope (some f.scope)).1, q.2) := by
  change (bindAll m (s.newScope (some f.scope)).1 (f.params.zip args) (s.newScope (some f.scope)).2).bind _ = _
  cases bindAll m (s.newScope (some f.scope)).1 (f.params.zip args) (s.newScope (some f.scope)).2 <;> rfl

/-! ## Loops -/

/-- What a loop does after a round. -/
def nextRound (again : Run Trace Value) (r : Outcome) : Run Trace Value :=
  match r.afterRound with
  | .again => again
  | .leave v => return v
  | .pass e => throw e

theorem whileLoop_succ {cond : Run Trace Bool} {body : Run Trace Value} {n : Nat} : whileLoop cond body (n + 1) = do
    if ← cond then nextRound (whileLoop cond body n) (← body.outcome) else return .void := by
  rw [whileLoop]
  refine bind_congr fun b => ?_
  cases b <;> rfl

/-! ## Endings -/

section

variable {ω : Type} {p : Program} {watch : Watcher ω} {n : Nat} {e : ScopeId} {code : List Stmt} {w u : World ω}

theorem run_of_outcome {q : Outcome} (h : (execBlock p watch n e code).runOn { w with broken := false } = (some q, u)) :
    run p watch n e code w = (some (.ofResult q.closeProgram), u) := by
  unfold run
  rw [h]
  rfl

theorem run_of_broken (h : (execBlock p watch n e code).runOn { w with broken := false } = (none, u))
    (hu : u.broken = true) : run p watch n e code w = (some .conflict, u) := by
  unfold run
  rw [h]
  simp [Ending.of, hu]

/-- A run that ends came to an outcome, or was broken off. -/
theorem run_eq_some {r : Ending} (h : run p watch n e code w = (some r, u)) :
    (∃ q : Outcome, (execBlock p watch n e code).runOn { w with broken := false } = (some q, u) ∧ r = .ofResult q.closeProgram) ∨
      (execBlock p watch n e code).runOn { w with broken := false } = (none, u) ∧ u.broken = true ∧ r = .conflict := by
  unfold run at h
  rcases hx : (execBlock p watch n e code).runOn { w with broken := false } with ⟨_ | q, v⟩ <;> rw [hx] at h
  · cases hb : v.broken <;> simp only [Ending.of, hb] at h <;> cases h
    exact .inr ⟨rfl, hb, rfl⟩
  · cases h
    exact .inl ⟨q, rfl, rfl⟩

end

end Kernel

end CopyOnBind
