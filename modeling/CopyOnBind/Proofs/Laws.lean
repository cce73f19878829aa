import CopyOnBind.Proofs.Worlds
/-!
# Laws of code

A `Law` says what all code does to the machine and to the notes of a run, whether
it ends, is broken off or runs out of steps. Every operation but a call leaves the
machine as it is, so code obeys a law as soon as the law allows for changes of the
store and for what a call does before and after its body (`Law.apply`, `code_obeys`).
-/

namespace CopyOnBind

variable {ω α β : Type}

/-- What may become of a world when code ends, and when its steps run out or it is broken off. -/
structure Law (ω : Type) where
  finished : World ω → World ω → Prop
  cutOff : World ω → World ω → Prop
  store : ∀ w s, finished w { w with store := s }
  trans : ∀ {u v w}, finished u v → finished v w → finished u w
  stop : ∀ w b, cutOff w { w with broken := b }
  late : ∀ {u v w}, finished u v → cutOff v w → cutOff u w
  /-- A call is counted while its body runs, and not afterwards. -/
  leave : ∀ {w m u}, w.machine.enter = .ok m → finished { w with machine := m } u →
    finished w { u with machine := u.machine.leave }
  inside : ∀ {w m u}, w.machine.enter = .ok m → cutOff { w with machine := m } u → cutOff w u

namespace Law

variable (L : Law ω)

structure Ended (w : World ω) (p : Option (Except Signal α) × World ω) : Prop where
  finished : ∀ r, p.1 = some r → L.finished w p.2
  cutOff : p.1 = none → L.cutOff w p.2

/-- Code that obeys the law wherever it is run. -/
def Obeys (x : Eval (World ω) α) : Prop := ∀ w, L.Ended w (x.runOn w)

variable {L} {x : Eval (World ω) α} {f : α → Eval (World ω) β} {w u : World ω}

theorem Ended.some {r : Except Signal α} (h : L.finished w u) : L.Ended w (some r, u) := ⟨fun _ _ => h, nofun⟩

theorem Ended.none (h : L.cutOff w u) : L.Ended w ((none : Option (Except Signal α)), u) := ⟨nofun, fun _ => h⟩

theorem Ended.late {p : Option (Except Signal α) × World ω} (h : L.finished w u) (hp : L.Ended u p) : L.Ended w p :=
  ⟨fun r hr => L.trans h (hp.finished r hr), fun hr => L.late h (hp.cutOff hr)⟩

namespace Obeys

theorem finished {r : Except Signal α} (hx : L.Obeys x) (hrun : x.runOn w = (some r, u)) : L.finished w u := by
  have hend := hx w
  rw [hrun] at hend
  exact hend.finished r rfl

theorem ofExcept {r : Except Signal α} : L.Obeys (Eval.ofExcept r) := fun w => .some (L.store w w.store)

theorem pure {a : α} : L.Obeys (pure a) := ofExcept (r := .ok a)

theorem throw {e : Signal} : L.Obeys (throw e : Eval (World ω) α) := ofExcept (r := .error e)

theorem fault {g : Fault} : L.Obeys (Eval.fault g : Eval (World ω) α) := throw

theorem orFault {r : Except Fault α} : L.Obeys (Eval.orFault r) := ofExcept

theorem unfinished : L.Obeys (Eval.unfinished : Eval (World ω) α) := fun w => .none (L.stop w w.broken)

theorem breakOff : L.Obeys (Eval.breakOff : Eval (World ω) α) := fun w => .none (L.stop w true)

theorem bind (hx : L.Obeys x) (hf : ∀ a, L.Obeys (f a)) : L.Obeys (x >>= f) := by
  intro w
  have hx := hx w
  rw [Eval.runOn_bind]
  rcases hrun : x.runOn w with ⟨_ | e | a, u⟩ <;> rw [hrun] at hx
  · exact .none (hx.cutOff rfl)
  · exact .some (hx.finished _ rfl)
  · exact (hf a u).late (hx.finished _ rfl)

theorem get_bind {f : World ω → Eval (World ω) β} (hf : ∀ w, L.Obeys (f w)) : L.Obeys (get >>= f) := by
  intro w
  rw [Eval.runOn_get_bind]
  exact hf w w

theorem outcome (hx : L.Obeys x) : L.Obeys x.outcome := by
  intro w
  rw [Eval.runOn_outcome]
  refine ⟨fun r hr => ?_, fun hr => (hx w).cutOff (by simpa using hr)⟩
  obtain ⟨r, hr, -⟩ := Option.map_eq_some_iff.1 hr
  exact (hx w).finished r hr

theorem modify_store {g : World ω → Store} : L.Obeys (modify fun w => { w with store := g w }) :=
  fun w => .some (r := .ok ()) (L.store w (g w))

theorem change {g : Store → α × Store} : L.Obeys (Eval.change g : Eval (World ω) α) :=
  fun w => .some (r := .ok (g w.store).1) (L.store w (g w.store).2)

theorem onStore {x : Eval Store α} : L.Obeys (Eval.onStore x : Eval (World ω) α) := by
  intro w
  unfold Eval.onStore
  rw [Eval.runOn_focus]
  have hstore := L.store w (x.runOn w.store).2
  exact ⟨fun _ _ => hstore, fun _ => L.late hstore (L.stop _ w.broken)⟩

theorem walk {g : StateT Store Option α} : L.Obeys (Eval.walk g : Eval (World ω) α) := onStore

theorem examine {g : Store → Option α} : L.Obeys (Eval.examine g : Eval (World ω) α) := by
  refine get_bind fun w => ?_
  cases g w.store with
  | none => exact unfinished
  | some a => exact pure

theorem mapM {γ : Type} {g : γ → Eval (World ω) α} {l : List γ} (hg : ∀ a, L.Obeys (g a)) : L.Obeys (l.mapM g) := by
  induction l with
  | nil => exact pure
  | cons a l ih =>
    rw [List.mapM_cons]
    exact (hg a).bind fun _ => ih.bind fun _ => pure

theorem bound {v : Value} : L.Obeys (Eval.bound v : Eval (World ω) Value) := get_bind fun _ => walk

theorem handBack {v : Value} : L.Obeys (Eval.handBack v : Eval (World ω) Value) := get_bind fun _ => walk

theorem bareBlock {x : Eval (World ω) Value} (hx : L.Obeys x) : L.Obeys (Eval.bareBlock x) :=
  hx.outcome.bind fun _ => ofExcept

theorem calling {body : Eval (World ω) Value} (hbody : L.Obeys body) : L.Obeys (Eval.calling body) := by
  intro w
  rw [Eval.runOn_calling]
  cases hm : w.machine.enter with
  | error g => exact .some (L.store w w.store)
  | ok m =>
    have hbody := hbody { w with machine := m }
    simp only
    rcases hrun : body.runOn { w with machine := m } with ⟨_ | r, u⟩ <;> rw [hrun] at hbody
    · exact .none (L.inside hm (hbody.cutOff rfl))
    · exact .some (L.leave hm (hbody.finished r rfl))

end Obeys

/-! ## Calls -/

section

variable {host : Host ω} {args : List Value} {caller : ScopeId} {callee : Value}

/-- A call obeys what the bodies obey that it may run. -/
theorem apply (hbody : ∀ b e, L.Obeys (host.runBody b e)) : L.Obeys (Eval.apply host callee caller args) := by
  refine .get_bind fun w => ?_
  split
  · next g _ =>
    refine Obeys.orFault.bind fun _ => .get_bind fun _ => Obeys.walk.bind fun e => ?_
    exact (hbody g.body e).calling.bind fun _ => Obeys.ofExcept.bind fun _ => .handBack
  · next g _ =>
    have hrun : L.Obeys (do
        let e ← Eval.change (·.newScope (some g.scope))
        Eval.ofExcept (← Eval.calling (Eval.bareBlock (host.runBody g.body e)))) :=
      Obeys.change.bind fun e => (hbody g.body e).bareBlock.calling.bind fun _ => .ofExcept
    unfold Eval.applyUnderline
    by_cases hargs : args ≠ []
    · rw [if_pos hargs]
      exact Obeys.fault.bind fun _ => hrun
    · rw [if_neg hargs]
      exact hrun
  · exact (Obeys.mapM fun _ => .bound).bind fun _ =>
      Obeys.onStore.calling.bind fun _ => Obeys.ofExcept.bind fun _ => .handBack
  · exact .fault

end

end Law

/-! ## Programs -/

namespace Kernel

variable {L : Law ω} {p : Program} {watch : Watcher ω} {n : Nat}

theorem obeys_wantInt {v : Value} : L.Obeys (wantInt v : Run ω Int64) := by
  unfold wantInt
  split
  · exact .pure
  · exact .fault

theorem obeys_wantBool {v : Value} : L.Obeys (wantBool v : Run ω Bool) := by
  unfold wantBool
  split
  · exact .pure
  · exact .fault

theorem obeys_wantArray {v : Value} : L.Obeys (wantArray v : Run ω ArrayId) := by
  unfold wantArray
  split
  · exact .pure
  · exact .fault

section Parts

variable {eval : Expr → Run ω Value} (heval : ∀ a, L.Obeys (eval a))

include heval

theorem obeys_twoInts {a b : Expr} {f : Int64 → Int64 → Value} : L.Obeys (do
    let k ← wantInt (← eval a)
    return f k (← wantInt (← eval b))) :=
  (heval a).bind fun _ => obeys_wantInt.bind fun _ => (heval b).bind fun _ => obeys_wantInt.bind fun _ => .pure

theorem obeys_operand (a : Expr) : L.Obeys (operand eval a) := (heval a).bind fun _ => .get_bind fun _ => .pure

theorem obeys_cond (c : Expr) : L.Obeys (do wantBool (← eval c)) := (heval c).bind fun _ => obeys_wantBool

end Parts

theorem obeys_define {e : ScopeId} {x : String} {v : Value} : L.Obeys (define e x v : Run ω Value) :=
  Law.Obeys.bound.bind fun _ => Law.Obeys.modify_store.bind fun _ => .pure

theorem obeys_assign {e : ScopeId} {x : String} {v : Value} : L.Obeys (assign e x v : Run ω Value) := by
  refine Law.Obeys.bound.bind fun c => Law.Obeys.change.bind fun r => ?_
  cases r with
  | ok _ => exact .pure
  | error _ => exact .fault

theorem obeys_push {e : ScopeId} {x : String} {v : Value} : L.Obeys (push e x v : Run ω Value) := by
  refine .get_bind fun w => ?_
  split
  · exact .fault
  · refine obeys_wantArray.bind fun _ => Law.Obeys.examine.bind fun b => ?_
    cases b with
    | true => exact .breakOff
    | false => exact Law.Obeys.bound.bind fun _ => Law.Obeys.modify_store.bind fun _ => .pure

theorem obeys_whileLoop {cond : Run ω Bool} {body : Run ω Value} (hcond : L.Obeys cond) (hbody : L.Obeys body) (n : Nat) :
    L.Obeys (whileLoop cond body n) := by
  induction n with
  | zero => exact .unfinished
  | succ n ih =>
    unfold whileLoop
    refine hcond.bind fun b => ?_
    cases b with
    | false => exact .pure
    | true =>
      refine hbody.outcome.bind fun r => ?_
      split
      · exact ih
      · exact .pure
      · exact .throw

theorem obeys_block {run : Stmt → Run ω Value} (hrun : ∀ a, L.Obeys (run a)) (stmts : List Stmt) :
    L.Obeys (Eval.block run stmts) := by
  have fold : ∀ v, L.Obeys (stmts.foldlM (fun _ a => run a) v) := by
    induction stmts with
    | nil => exact fun _ => .pure
    | cons a stmts ih =>
      intro v
      rw [List.foldlM_cons]
      exact (hrun a).bind ih
  exact fold .void

/-- All code of a program obeys the law for `n` steps. -/
structure CodeObeys (L : Law ω) (p : Program) (watch : Watcher ω) (n : Nat) : Prop where
  expr : ∀ e a, L.Obeys (evalExpr p watch n e a)
  stmt : ∀ e a, L.Obeys (execStmt p watch n e a)
  block : ∀ e code, L.Obeys (execBlock p watch n e code)

section

variable (hwatch : ∀ m w, L.finished w { w with notes := watch m w })

include hwatch

theorem obeys_observe (m : Moment) : L.Obeys (observe watch m) := fun w => .some (r := .ok ()) (hwatch m w)

theorem obeys_expr (h : CodeObeys L p watch n) (e : ScopeId) (a : Expr) : L.Obeys (evalExpr p watch (n + 1) e a) := by
  have heval : ∀ a, L.Obeys (evalExpr p watch n e a) := h.expr e
  unfold evalExpr
  cases a with
  | int k => exact .pure
  | name x =>
    refine .get_bind fun w => ?_
    split
    · exact .pure
    · exact .fault
  | add a b => exact obeys_twoInts heval (f := fun k l => .int (k + l))
  | less a b => exact obeys_twoInts heval (f := fun k l => .bool (k < l))
  | equal a b =>
    refine (obeys_operand heval a).bind fun _ => (obeys_operand heval b).bind fun _ => ?_
    exact (obeys_observe hwatch _).bind fun _ => Law.Obeys.examine.bind fun _ => .pure
  | call f args =>
    refine (obeys_operand heval f).bind fun _ => (Law.Obeys.mapM (obeys_operand heval)).bind fun _ => ?_
    exact (obeys_observe hwatch _).bind fun _ => Law.apply fun b s => h.block s (p.code b)
  | function params body => exact .pure
  | underline body => exact .pure
  | array items =>
    exact (Law.Obeys.mapM fun a => (heval a).bind fun _ => .bound).bind fun _ => Law.Obeys.change.bind fun _ => .pure
  | length a => exact (heval a).bind fun _ => obeys_wantArray.bind fun _ => .get_bind fun _ => .pure

theorem obeys_stmt (h : CodeObeys L p watch n) (e : ScopeId) (a : Stmt) : L.Obeys (execStmt p watch (n + 1) e a) := by
  have heval : ∀ a, L.Obeys (evalExpr p watch n e a) := h.expr e
  unfold execStmt
  refine (obeys_observe hwatch _).bind fun _ => Law.Obeys.bind (.outcome ?_) fun r =>
    (obeys_observe hwatch _).bind fun _ => .ofExcept
  cases a with
  | expr a => exact heval a
  | define x a => exact (heval a).bind fun _ => obeys_define
  | assign x a => exact (heval a).bind fun _ => obeys_assign
  | push x a => exact (heval a).bind fun _ => obeys_push
  | cond c yes =>
    refine (obeys_cond heval c).bind fun b => ?_
    cases b with
    | true => exact h.block e yes
    | false => exact .pure
  | «while» c body => exact obeys_whileLoop (obeys_cond heval c) (h.block e body) n
  | ret a => exact (heval a).bind fun _ => .throw
  | out a => exact (heval a).bind fun _ => .throw
  | jump => exact .throw
  | fail text => exact .fault

theorem code_obeys (p : Program) (n : Nat) : CodeObeys L p watch n := by
  induction n with
  | zero => exact ⟨fun _ _ => .unfinished, fun _ _ => .unfinished, fun _ _ => .unfinished⟩
  | succ n ih =>
    exact ⟨fun e a => obeys_expr hwatch ih e a, fun e a => obeys_stmt hwatch ih e a,
      fun e code => obeys_block (ih.stmt e) code⟩

end

end Kernel

end CopyOnBind
