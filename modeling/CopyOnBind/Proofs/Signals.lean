import CopyOnBind.Proofs.Worlds
/-!
# Where signals land

A signal leaves one construct after another until it meets one that stops it.
`Frame.meets` is the table of what each construct makes of each signal, and
`Part.meets` says that the constructs keep to it. `signals_routed` follows a
signal through any nesting (`Inside`): it ends in the world in which it was
raised, whatever would have come next in the blocks and loops that it leaves.
Only the calls that it leaves are no longer counted (`left`).

The call of a function is such a nesting: `inside_applyClosure`.
-/

namespace CopyOnBind

/-- The signals that no program and no function lets through. -/
def Signal.isLocal : Signal → Bool
  | .out _ | .jump => true
  | _ => false

theorem Outcome.closeProgram_of_isLocal {e : Signal} (h : e.isLocal = true) :
    closeProgram (.error e) = .error (.signalOutsideBoundary e.kind "program") := by
  cases e with
  | out v => rfl
  | jump => rfl
  | _ => cases h

namespace Eval

variable {ω : Type}

/-! ## Calls and programs -/

/-- A function call as far as signals are concerned. -/
def closedCall (body : Eval (World ω) Value) : Eval (World ω) Value := do
  ofExcept (Outcome.closeCall (← body.outcome))

/-- A part of the run that counts as an active call, and ends as the part does. -/
def counted (body : Eval (World ω) Value) : Eval (World ω) Value := do
  ofExcept (← calling body)

/-- What a whole program ends with. -/
def program (x : Eval (World ω) Value) (w : World ω) : Option (Except Fault Value) × World ω :=
  ((x.runOn w).1.map Outcome.closeProgram, (x.runOn w).2)

/-! ## Nesting -/

/-- What is around a part of an evaluation. -/
inductive Frame (ω : Type) where
  | block
  /-- The part is the body of a loop, which goes on like this after a round. -/
  | loop (again : Eval (World ω) Value)
  /-- The part is in the condition of a loop. -/
  | condition
  | bareBlock
  | call
  | counted
  /-- The part is a step of an operation. -/
  | operation

/-- A loop with `n` rounds left from `s` has `k` left from `t`, after rounds that did not leave it. -/
inductive Rounds (cond : Eval (World ω) Bool) (body : Eval (World ω) Value) : Nat → World ω → Nat → World ω → Prop
  | refl (n : Nat) (s : World ω) : Rounds cond body n s n s
  | round {n k : Nat} {s t u v : World ω} {r : Outcome} : cond.runOn s = (some (.ok true), t) →
    body.runOn t = (some r, u) → r.afterRound = .again → Rounds cond body n u k v →
    Rounds cond body (n + 1) s k v

/-- Evaluating `y` from `s` comes to evaluating `x` from `t`, a part of `y` inside the construct `f`. -/
inductive Part : Eval (World ω) Value → World ω → Frame ω → Eval (World ω) Value → World ω → Prop
  | block {α : Type} (run : α → Eval (World ω) Value) (before after : List α) (p : α) (v : Value) (s t : World ω) :
    (block run before).runOn s = (some (.ok v), t) → Part (block run (before ++ p :: after)) s .block (run p) t
  | loop (cond : Eval (World ω) Bool) (body : Eval (World ω) Value) (n k : Nat) (s t u : World ω) :
    Rounds cond body n s (k + 1) t → cond.runOn t = (some (.ok true), u) →
    Part (loop cond body n) s (.loop (loop cond body k)) body u
  | condition (c : Eval (World ω) Value) (test : Value → Eval (World ω) Bool) (body : Eval (World ω) Value) (n k : Nat)
    (s t : World ω) : Rounds (c >>= test) body n s (k + 1) t → Part (loop (c >>= test) body n) s .condition c t
  | bareBlock (body : Eval (World ω) Value) (s : World ω) : Part (bareBlock body) s .bareBlock body s
  | call (body : Eval (World ω) Value) (s : World ω) : Part (closedCall body) s .call body s
  | counted (body : Eval (World ω) Value) (s : World ω) (m : Machine) : s.machine.enter = .ok m →
    Part (counted body) s .counted body { s with machine := m }
  | first (x : Eval (World ω) Value) (f : Value → Eval (World ω) Value) (s : World ω) : Part (x >>= f) s .operation x s
  | next {α : Type} (x : Eval (World ω) α) (f : α → Eval (World ω) Value) (a : α) (s t : World ω) :
    x.runOn s = (some (.ok a), t) → Part (x >>= f) s .operation (f a) t

/-- Evaluating `y` from `s` comes to evaluating `x` from `t`, inside the constructs `fs`, innermost first. -/
inductive Inside (y : Eval (World ω) Value) (s : World ω) : List (Frame ω) → Eval (World ω) Value → World ω → Prop
  | here : Inside y s [] y s
  | part {fs : List (Frame ω)} {f : Frame ω} {z x : Eval (World ω) Value} {r t : World ω} :
    Inside y s fs z r → Part z r f x t → Inside y s (f :: fs) x t

/-! ## What each construct makes of a signal -/

namespace Frame

/-- Whether a signal goes no further. -/
def stops : Frame ω → Signal → Bool
  | call, .ret _ | call, .out _ | call, .jump => true
  | loop _, .out _ | loop _, .jump => true
  | bareBlock, .out _ => true
  | _, _ => false

/-- The world after the construct is left in the world `u`. -/
def leave : Frame ω → World ω → World ω
  | counted, u => { u with machine := u.machine.leave }
  | _, u => u

/-- What a construct ends with, and where, when a signal is raised inside in the world `u`. -/
def meets : Frame ω → Signal → World ω → Option Outcome × World ω
  | call, .ret v, u => (some (.ok v), u)
  | call, .out v, u => (some (.error (.error (.signalOutsideBoundary (Signal.out v).kind "function"))), u)
  | call, .jump, u => (some (.error (.error (.signalOutsideBoundary Signal.jump.kind "function"))), u)
  | loop _, .out v, u | bareBlock, .out v, u => (some (.ok v), u)
  | loop again, .jump, u => again.runOn u
  | f, e, u => (some (.error e), f.leave u)

theorem stops_error (f : Frame ω) (x : Fault) : f.stops (.error x) = false := by
  cases f <;> rfl

theorem stops_ret {f : Frame ω} {v : Value} (h : f ≠ .call) : f.stops (.ret v) = false := by
  cases f with
  | call => exact absurd rfl h
  | _ => rfl

theorem meets_of_not_stops {f : Frame ω} {e : Signal} (h : f.stops e = false) (u : World ω) :
    f.meets e u = (some (.error e), f.leave u) := by
  cases f with
  | call =>
    cases e with
    | error x => rfl
    | _ => cases h
  | loop again =>
    cases e with
    | out v => cases h
    | jump => cases h
    | _ => rfl
  | bareBlock =>
    cases e with
    | out v => cases h
    | _ => rfl
  | _ => rfl

theorem call_meets {e : Signal} (h : e.isLocal = true) (u : World ω) :
    call.meets e u = (some (.error (.error (.signalOutsideBoundary e.kind "function"))), u) := by
  cases e with
  | out v => rfl
  | jump => rfl
  | _ => cases h

@[simp] theorem leave_store (f : Frame ω) (u : World ω) : (f.leave u).store = u.store := by
  cases f <;> rfl

@[simp] theorem leave_notes (f : Frame ω) (u : World ω) : (f.leave u).notes = u.notes := by
  cases f <;> rfl

end Frame

/-- The world after constructs are left in the world `u`, innermost first. -/
def left (fs : List (Frame ω)) (u : World ω) : World ω := fs.foldl (fun u f => f.leave u) u

variable {α : Type} {x y z : Eval (World ω) Value} {r s t u : World ω} {e : Signal} {f : Frame ω} {fs gs : List (Frame ω)}

theorem left_eq (fs : List (Frame ω)) (u : World ω) : (left fs u).store = u.store ∧ (left fs u).notes = u.notes := by
  induction fs generalizing u with
  | nil => exact ⟨rfl, rfl⟩
  | cons f fs ih =>
    have h := ih (f.leave u)
    rw [f.leave_store, f.leave_notes] at h
    exact h

theorem left_append : left (fs ++ gs) u = left gs (left fs u) := List.foldl_append

theorem runOn_closedCall (body : Eval (World ω) Value) (s : World ω) : (closedCall body).runOn s =
    ((body.runOn s).1.map Outcome.closeCall, (body.runOn s).2) := by
  simp only [closedCall, runOn_bind, runOn_outcome]
  rcases body.runOn s with ⟨_ | r, u⟩ <;> rfl

theorem runOn_bareBlock (body : Eval (World ω) Value) (s : World ω) : (bareBlock body).runOn s =
    ((body.runOn s).1.map Outcome.closeBlock, (body.runOn s).2) := by
  simp only [bareBlock, runOn_bind, runOn_outcome]
  rcases body.runOn s with ⟨_ | r, u⟩ <;> rfl

theorem runOn_counted (body : Eval (World ω) Value) (s : World ω) : (counted body).runOn s =
    match s.machine.enter with
    | .error f => (some (.error (.error f)), s)
    | .ok m =>
      match body.runOn { s with machine := m } with
      | (some r, u) => (some r, { u with machine := u.machine.leave })
      | (none, u) => (none, u) := by
  unfold counted
  rw [runOn_bind, runOn_calling]
  cases s.machine.enter with
  | error f => rfl
  | ok m =>
    simp only
    rcases body.runOn { s with machine := m } with ⟨_ | r, u⟩ <;> rfl

/-- The first signal ends a block. -/
theorem runOn_block_of_error {run : α → Eval (World ω) Value} {before : List α} {p : α} {v : Value}
    (hbefore : (block run before).runOn s = (some (.ok v), t)) (hp : (run p).runOn t = (some (.error e), u))
    (after : List α) : (block run (before ++ p :: after)).runOn s = (some (.error e), u) := by
  unfold block at hbefore ⊢
  simp only [List.foldlM_append, List.foldlM_cons, runOn_bind, hbefore, hp]

theorem Rounds.runOn_eq {cond : Eval (World ω) Bool} {body : Eval (World ω) Value} {n k : Nat}
    (h : Rounds cond body n s k t) : (loop cond body n).runOn s = (loop cond body k).runOn t := by
  induction h with
  | refl => rfl
  | round hc hb hr _ ih =>
    rw [runOn_loop_succ]
    simp only [hc, hb, hr, ih]

/-- The constructs keep to the table. -/
theorem Part.meets (h : Part y s f x t) (hx : x.runOn t = (some (.error e), u)) : y.runOn s = f.meets e u := by
  cases h with
  | block run before after p v s t hbefore => exact runOn_block_of_error hbefore hx after
  | loop cond body n k s r t hrounds hcond =>
    rw [hrounds.runOn_eq, runOn_loop_succ]
    simp only [hcond, hx]
    cases e <;> rfl
  | condition c test body n k s t hrounds =>
    rw [hrounds.runOn_eq, runOn_loop_succ]
    simp only [runOn_bind, hx]
    rfl
  | bareBlock body s =>
    rw [runOn_bareBlock, hx]
    cases e <;> rfl
  | call body s =>
    rw [runOn_closedCall, hx]
    cases e <;> rfl
  | counted body s m hm =>
    rw [runOn_counted, hm]
    simp only [hx]
    rfl
  | first x f s =>
    rw [runOn_bind, hx]
    rfl
  | next y f a s t hy =>
    rw [runOn_bind, hy]
    exact hx

/-! ## Calls of closures -/

theorem Inside.next {x : Eval (World ω) α} {g : α → Eval (World ω) Value} {a : α} (h : Inside y s fs (x >>= g) r)
    (hx : x.runOn r = (some (.ok a), t)) : Inside y s (.operation :: fs) (g a) t :=
  h.part (.next x g a r t hx)

theorem Inside.trans (h : Inside y s fs z r) (hx : Inside z r gs x t) : Inside y s (gs ++ fs) x t := by
  induction hx with
  | here => exact h
  | part _ hpart ih => exact ih.part hpart

section

variable {host : Host ω} {args : List Value} {w : World ω} {m : Machine}

theorem closedCall_counted (body : Eval (World ω) Value) :
    closedCall (counted body) = calling body >>= fun r => ofExcept r.closeCall := by
  funext w
  change (closedCall (counted body)).runOn w = (calling body >>= fun r => ofExcept r.closeCall).runOn w
  rw [runOn_closedCall, runOn_counted, runOn_bind, runOn_calling]
  cases w.machine.enter with
  | error f => rfl
  | ok m =>
    simp only
    rcases body.runOn { w with machine := m } with ⟨_ | r, u⟩ <;> rfl

/-- A function is a closed call of its body. -/
theorem applyClosure_eq (host : Host ω) (f : Closure) (args : List Value) : applyClosure host f args = (do
    orFault (f.checkArity args)
    let e ← walk ((← get).machine.callScope f args)
    handBack (← closedCall (counted (host.runBody f.body e)))) := by
  simp only [applyClosure, closedCall_counted, bind_assoc]

/-- The body of a function that is called. -/
theorem inside_applyClosure {f : Closure} {e : ScopeId} {t : Store} (hargs : f.checkArity args = .ok ())
    (hscope : w.machine.callScope f args w.store = some (e, t)) (hm : w.machine.enter = .ok m) :
    Inside (applyClosure host f args) w [.counted, .call, .operation, .operation, .operation, .operation]
      (host.runBody f.body e) { w with store := t, machine := m } := by
  have hwalk : (walk (w.machine.callScope f args)).runOn w = (some (.ok e), { w with store := t }) := by
    rw [runOn_walk, hscope]
  have hcheck : (orFault (f.checkArity args)).runOn w = (some (.ok ()), w) := by
    rw [hargs]
    rfl
  have hhere : Inside (applyClosure host f args) w [] (applyClosure host f args) w := .here
  rw [applyClosure_eq] at hhere ⊢
  have hclosed := ((hhere.next hcheck).next (runOn_get w)).next hwalk
  exact ((hclosed.part (.first _ _ _)).part (.call _ _)).part (.counted _ _ m hm)

end

/-! ## Routes -/

/-- A signal that nothing stops is what the whole evaluation ends with. -/
theorem Inside.passes (h : Inside y s fs x t) (hx : x.runOn t = (some (.error e), u))
    (hfs : ∀ f ∈ fs, f.stops e = false) : y.runOn s = (some (.error e), left fs u) := by
  induction h generalizing u with
  | here => exact hx
  | @part fs f z x r t _ hpart ih =>
    obtain ⟨hf, hfs⟩ := List.forall_mem_cons.1 hfs
    exact ih ((hpart.meets hx).trans (Frame.meets_of_not_stops hf u)) hfs

/-- Each of the constructs around a part has its place in the whole. -/
theorem Inside.split {inner outer : List (Frame ω)} (h : Inside y s (inner ++ f :: outer) x t) :
    ∃ z r w v, Inside y s outer z r ∧ Part z r f w v ∧ Inside w v inner x t := by
  induction inner generalizing x t with
  | nil =>
    cases h with
    | part hz hpart => exact ⟨_, _, _, _, hz, hpart, .here⟩
  | cons g inner ih =>
    cases h with
    | part hz hpart =>
      obtain ⟨z, r, w, v, houter, hf, hinner⟩ := ih hz
      exact ⟨z, r, w, v, houter, hf, .part hinner hpart⟩

/-- Somewhere in `y` there is the construct `f`, inside `outer`, and its result is this one. -/
def Lands (y : Eval (World ω) Value) (s : World ω) (outer : List (Frame ω)) (f : Frame ω)
    (result : Option Outcome × World ω) : Prop :=
  ∃ z r x t, Inside y s outer z r ∧ Part z r f x t ∧ z.runOn r = result

/-- A signal that passes the inner constructs ends in the first that stops it. -/
theorem Inside.lands {inner outer : List (Frame ω)} (h : Inside y s (inner ++ f :: outer) x t)
    (hx : x.runOn t = (some (.error e), u)) (hinner : ∀ g ∈ inner, g.stops e = false) :
    Lands y s outer f (f.meets e (left inner u)) := by
  obtain ⟨z, r, w, v, houter, hpart, hin⟩ := h.split
  exact ⟨z, r, w, v, houter, hpart, hpart.meets (hin.passes hx hinner)⟩

/-- Where a signal `e` goes that is raised in the world `u` inside the constructs `fs` of `y`. -/
structure Routed (y : Eval (World ω) Value) (s : World ω) (fs : List (Frame ω)) (e : Signal) (u : World ω) : Prop where
  fault : ∀ f, e = .error f → y.runOn s = (some (.error e), left fs u) ∧ y.program s = (some (.error f), left fs u)
  ret_call : ∀ v inner outer, e = .ret v → fs = inner ++ .call :: outer → .call ∉ inner →
    Lands y s outer .call (some (.ok v), left inner u)
  ret_program : ∀ v, e = .ret v → .call ∉ fs → y.program s = (some (.ok v), left fs u)
  out_loop : ∀ v inner again outer, e = .out v → fs = inner ++ .loop again :: outer →
    (∀ f ∈ inner, f.stops e = false) → Lands y s outer (.loop again) (some (.ok v), left inner u)
  out_bareBlock : ∀ v inner outer, e = .out v → fs = inner ++ .bareBlock :: outer →
    (∀ f ∈ inner, f.stops e = false) → Lands y s outer .bareBlock (some (.ok v), left inner u)
  /-- The loop goes on in the world in which the jump was raised. -/
  jump_loop : ∀ inner again outer, e = .jump → fs = inner ++ .loop again :: outer →
    (∀ f ∈ inner, f.stops e = false) → Lands y s outer (.loop again) (again.runOn (left inner u))
  /-- An out or a jump that meets a call first is a fault from there on. -/
  boundary_call : ∀ inner outer, e.isLocal = true → fs = inner ++ .call :: outer →
    (∀ f ∈ inner, f.stops e = false) →
      y.runOn s = (some (.error (.error (.signalOutsideBoundary e.kind "function"))), left fs u) ∧
        y.program s = (some (.error (.signalOutsideBoundary e.kind "function")), left fs u)
  boundary_program : e.isLocal = true → (∀ f ∈ fs, f.stops e = false) →
    y.program s = (some (.error (.signalOutsideBoundary e.kind "program")), left fs u)
  /-- Nothing is evaluated on the way. -/
  quiet : ∀ gs : List (Frame ω), (left gs u).store = u.store ∧ (left gs u).notes = u.notes

theorem signals_routed (h : Inside y s fs x t) (hx : x.runOn t = (some (.error e), u)) : Routed y s fs e u where
  fault := by
    rintro f rfl
    have hy := h.passes hx fun g _ => g.stops_error f
    exact ⟨hy, by rw [program, hy]; rfl⟩
  ret_call := by
    rintro v inner outer rfl rfl hcall
    exact h.lands hx fun g hg => Frame.stops_ret (ne_of_mem_of_not_mem hg hcall)
  ret_program := by
    rintro v rfl hcall
    rw [program, h.passes hx fun g hg => Frame.stops_ret (ne_of_mem_of_not_mem hg hcall)]
    rfl
  out_loop := by
    rintro v inner again outer rfl rfl hinner
    exact h.lands hx hinner
  out_bareBlock := by
    rintro v inner outer rfl rfl hinner
    exact h.lands hx hinner
  jump_loop := by
    rintro inner again outer rfl rfl hinner
    exact h.lands hx hinner
  boundary_call := by
    rintro inner outer hlocal rfl hinner
    obtain ⟨z, r, w, v, houter, -, hz⟩ := h.lands hx hinner
    -- from the call on the fault is routed like any other
    have hy := houter.passes (hz.trans (Frame.call_meets hlocal _)) fun g _ => g.stops_error _
    rw [left_append]
    exact ⟨hy, by rw [program, hy]; rfl⟩
  boundary_program := by
    intro hlocal hfs
    rw [program, h.passes hx hfs, Option.map_some, Outcome.closeProgram_of_isLocal hlocal]
  quiet gs := left_eq gs u

/-- A jump in a function does not find the loop that the function is called in:
the round is not finished, and there is no other. -/
theorem signals_routed_jump :
    let note (text : String) : Eval (World (List String)) Value := do
      modify fun w => { w with notes := w.notes ++ [text] }
      return .void
    let cond : Eval (World (List String)) Bool := do
      let _ ← note "test"
      return true
    let body := applyClosure
      { runBody := fun _ _ => block id [note "first", throw .jump, note "last"], runNative := fun _ _ _ => return .void }
      ⟨[], ⟨0, 3⟩, ⟨0⟩⟩ []
    let start : World (List String) := { notes := [] }
    (∃ fs u, Routed (loop cond body 3) start (.block :: .counted :: .call :: fs) .jump u) ∧
      ((loop cond body 3).program start).1 = some (.error (.signalOutsideBoundary .jump "function")) ∧
        ((loop cond body 3).program start).2.notes = ["test", "first"] := by
  intro note cond body start
  have hloop : Part (loop cond body 3) start (.loop (loop cond body 2)) body { start with notes := ["test"] } :=
    .loop _ _ 3 2 _ _ _ (.refl 3 start) rfl
  have hbody := (Inside.here.part hloop).trans (inside_applyClosure rfl rfl rfl)
  have hblock := hbody.part (.block id [note "first"] [note "last"] (throw Signal.jump : Eval (World (List String)) Value)
    .void _ _ rfl)
  have hrouted := signals_routed hblock (runOn_throw .jump _)
  have hcall := (hrouted.boundary_call [.block, .counted] _ rfl rfl (by simp [Frame.stops])).2
  refine ⟨⟨_, _, hrouted⟩, congrArg Prod.fst hcall, ?_⟩
  rw [hcall]
  exact (hrouted.quiet _).2

end Eval

namespace Kernel

theorem whileLoop_eq {ω : Type} (cond : Run ω Bool) (body : Run ω Value) (n : Nat) :
    whileLoop cond body n = Eval.loop cond body n := by
  induction n with
  | zero => rfl
  | succ n ih =>
    unfold whileLoop Eval.loop
    refine bind_congr fun b => ?_
    cases b with
    | false => rfl
    | true =>
      refine bind_congr fun r => ?_
      cases Outcome.afterRound r with
      | again => exact ih
      | leave v => rfl
      | pass e => rfl

end Kernel

end CopyOnBind
