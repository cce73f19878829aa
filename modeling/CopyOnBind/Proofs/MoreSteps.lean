import CopyOnBind.Proofs.Laws
/-!
# More steps

The number of steps says when an evaluation is cut off, and nothing else: what a
program gives within some steps it gives within more, and where it is broken off
within some steps it is broken off within more (`run_of_le`). So what it comes to
at all is one ending and one world.
-/

namespace CopyOnBind

/-- What ends has not broken the run off. -/
def brokenLaw (ω : Type) : Law ω where
  finished w u := u.broken = w.broken
  cutOff _ _ := True
  store _ _ := rfl
  trans huv hvw := hvw.trans huv
  stop _ _ := trivial
  late _ _ := trivial
  leave _ hu := hu
  inside _ _ := trivial

namespace Eval

variable {ω α β γ : Type}

/-- The first evaluation is the second, maybe cut off: where it ends or breaks the
run off, they do alike. -/
structure CutOf (x y : Eval (World ω) α) : Prop where
  ends : ∀ w r u, x.runOn w = (some r, u) → y.runOn w = (some r, u)
  breaks : ∀ w u, w.broken = false → x.runOn w = (none, u) → u.broken = true → y.runOn w = (none, u)
  keeps : (brokenLaw ω).Obeys x

namespace CutOf

variable {x y : Eval (World ω) α} {f g : α → Eval (World ω) β}

theorem refl (hx : (brokenLaw ω).Obeys x) : CutOf x x := ⟨fun _ _ _ h => h, fun _ _ _ h _ => h, hx⟩

theorem unfinished : CutOf unfinished y where
  ends w r u hrun := by cases hrun
  breaks w u hw hrun hu := by
    -- nothing was done, so the run was broken off before
    cases hrun
    rw [hw] at hu
    cases hu
  keeps := .unfinished

theorem bind (hx : CutOf x y) (hf : ∀ a, CutOf (f a) (g a)) : CutOf (x >>= f) (y >>= g) where
  ends w r u hrun := by
    rw [runOn_bind] at hrun ⊢
    rcases hxw : x.runOn w with ⟨_ | e | a, t⟩ <;> rw [hxw] at hrun
    · cases hrun
    · rw [hx.ends w _ t hxw]
      exact hrun
    · rw [hx.ends w _ t hxw]
      exact (hf a).ends t r u hrun
  breaks w u hw hrun hu := by
    rw [runOn_bind] at hrun ⊢
    rcases hxw : x.runOn w with ⟨_ | e | a, t⟩ <;> rw [hxw] at hrun
    · cases hrun
      rw [hx.breaks w u hw hxw hu]
    · cases hrun
    · rw [hx.ends w _ t hxw]
      exact (hf a).breaks t u ((hx.keeps.finished hxw).trans hw) hrun hu
  keeps := hx.keeps.bind fun a => (hf a).keeps

theorem get_bind {f g : World ω → Eval (World ω) β} (hf : ∀ w, CutOf (f w) (g w)) : CutOf (get >>= f) (get >>= g) where
  ends w r u hrun := by
    rw [runOn_get_bind] at hrun ⊢
    exact (hf w).ends w r u hrun
  breaks w u hw hrun hu := by
    rw [runOn_get_bind] at hrun ⊢
    exact (hf w).breaks w u hw hrun hu
  keeps := .get_bind fun w => (hf w).keeps

theorem outcome (hx : CutOf x y) : CutOf x.outcome y.outcome where
  ends w r u hrun := by
    rw [runOn_outcome] at hrun ⊢
    rcases hxw : x.runOn w with ⟨_ | q, t⟩ <;> rw [hxw] at hrun
    · cases hrun
    · rw [hx.ends w q t hxw]
      exact hrun
  breaks w u hw hrun hu := by
    rw [runOn_outcome] at hrun ⊢
    rcases hxw : x.runOn w with ⟨_ | q, t⟩ <;> rw [hxw] at hrun
    · cases hrun
      rw [hx.breaks w t hw hxw hu]
      rfl
    · cases hrun
  keeps := hx.keeps.outcome

theorem mapM {f g : γ → Eval (World ω) α} (h : ∀ a, CutOf (f a) (g a)) (l : List γ) : CutOf (l.mapM f) (l.mapM g) := by
  induction l with
  | nil => exact refl .pure
  | cons a l ih =>
    rw [List.mapM_cons, List.mapM_cons]
    exact (h a).bind fun _ => ih.bind fun _ => refl .pure

theorem block {f g : α → Eval (World ω) Value} (h : ∀ a, CutOf (f a) (g a)) (parts : List α) :
    CutOf (Eval.block f parts) (Eval.block g parts) := by
  have fold : ∀ v, CutOf (parts.foldlM (fun _ a => f a) v) (parts.foldlM (fun _ a => g a) v) := by
    induction parts with
    | nil => exact fun _ => refl .pure
    | cons a parts ih =>
      intro v
      rw [List.foldlM_cons, List.foldlM_cons]
      exact (h a).bind ih
  exact fold .void

theorem bareBlock {x y : Eval (World ω) Value} (h : CutOf x y) : CutOf (Eval.bareBlock x) (Eval.bareBlock y) :=
  h.outcome.bind fun _ => refl .ofExcept

theorem calling {x y : Eval (World ω) Value} (h : CutOf x y) : CutOf (Eval.calling x) (Eval.calling y) where
  ends w r u hrun := by
    rw [runOn_calling] at hrun ⊢
    cases hm : w.machine.enter with
    | error f =>
      rw [hm] at hrun
      exact hrun
    | ok m =>
      rw [hm] at hrun
      rcases hxw : x.runOn { w with machine := m } with ⟨_ | q, t⟩ <;> simp only [hxw] at hrun
      · cases hrun
      · simp only [h.ends _ _ _ hxw]
        exact hrun
  breaks w u hw hrun hu := by
    rw [runOn_calling] at hrun ⊢
    cases hm : w.machine.enter with
    | error f =>
      rw [hm] at hrun
      cases hrun
    | ok m =>
      rw [hm] at hrun
      rcases hxw : x.runOn { w with machine := m } with ⟨_ | q, t⟩ <;> simp only [hxw] at hrun
      · cases hrun
        dsimp only
        rw [h.breaks { w with machine := m } u hw hxw hu]
        rfl
      · cases hrun
  keeps := h.keeps.calling

/-- A call of code that is cut off. -/
theorem apply {host host' : Host ω} (hbody : ∀ b e, CutOf (host.runBody b e) (host'.runBody b e))
    (hnative : host'.runNative = host.runNative) (callee : Value) (caller : ScopeId) (args : List Value) :
    CutOf (Eval.apply host callee caller args) (Eval.apply host' callee caller args) := by
  refine get_bind fun w => ?_
  split
  · next f _ =>
    refine (refl .orFault).bind fun _ => get_bind fun w => (refl .walk).bind fun e => ?_
    exact (hbody f.body e).calling.bind fun _ => refl (Law.Obeys.ofExcept.bind fun _ => .handBack)
  · next u _ =>
    have hrun : CutOf (change (·.newScope (some u.scope)) >>= fun e => do
          ofExcept (← Eval.calling (Eval.bareBlock (host.runBody u.body e))))
        (change (·.newScope (some u.scope)) >>= fun e => do
          ofExcept (← Eval.calling (Eval.bareBlock (host'.runBody u.body e)))) :=
      (refl .change).bind fun e => (hbody u.body e).bareBlock.calling.bind fun _ => refl .ofExcept
    unfold applyUnderline
    by_cases hargs : args ≠ []
    · rw [if_pos hargs, if_pos hargs]
      exact (refl .fault).bind fun _ => hrun
    · rw [if_neg hargs, if_neg hargs]
      exact hrun
  · unfold applyNative
    rw [hnative]
    refine refl ((Law.Obeys.mapM fun _ => .bound).bind fun _ => ?_)
    exact Law.Obeys.onStore.calling.bind fun _ => Law.Obeys.ofExcept.bind fun _ => .handBack
  · exact refl .fault

end CutOf

end Eval

namespace Kernel

open Eval

variable {ω : Type} {p : Program} {watch : Watcher ω} {m n : Nat} {e : ScopeId}

theorem cutOf_whileLoop {cond cond' : Run ω Bool} {body body' : Run ω Value} (hcond : CutOf cond cond')
    (hbody : CutOf body body') (hmn : m ≤ n) : CutOf (whileLoop cond body m) (whileLoop cond' body' n) := by
  induction m generalizing n with
  | zero => exact .unfinished
  | succ m ih =>
    obtain ⟨n, rfl⟩ : ∃ k, n = k + 1 := ⟨n - 1, by omega⟩
    unfold whileLoop
    refine hcond.bind fun b => ?_
    cases b with
    | false => exact .refl .pure
    | true =>
      refine hbody.outcome.bind fun r => ?_
      split
      · exact ih (by omega)
      · exact .refl .pure
      · exact .refl .throw

/-- All code with `m` steps is the code with `n` steps, cut off. -/
structure CodeCut (p : Program) (watch : Watcher ω) (m n : Nat) : Prop where
  expr : ∀ e a, CutOf (evalExpr p watch m e a) (evalExpr p watch n e a)
  stmt : ∀ e a, CutOf (execStmt p watch m e a) (execStmt p watch n e a)
  block : ∀ e code, CutOf (execBlock p watch m e code) (execBlock p watch n e code)

theorem cutOf_observe (moment : Moment) : CutOf (observe watch moment) (observe watch moment) :=
  .refl (obeys_observe (fun _ _ => rfl) moment)

theorem cutOf_expr (h : CodeCut p watch m n) (a : Expr) : CutOf (evalExpr p watch (m + 1) e a) (evalExpr p watch (n + 1) e a) := by
  have hoperand : ∀ a, CutOf (operand (evalExpr p watch m e) a) (operand (evalExpr p watch n e) a) :=
    fun a => (h.expr e a).bind fun _ => .get_bind fun _ => .refl .pure
  have htwo : ∀ (f : Int64 → Int64 → Value) a b, CutOf (do
        let k ← wantInt (← evalExpr p watch m e a)
        return f k (← wantInt (← evalExpr p watch m e b)))
      (do
        let k ← wantInt (← evalExpr p watch n e a)
        return f k (← wantInt (← evalExpr p watch n e b))) := fun f a b =>
    (h.expr e a).bind fun _ => (CutOf.refl obeys_wantInt).bind fun _ => (h.expr e b).bind fun _ =>
      (CutOf.refl obeys_wantInt).bind fun _ => .refl .pure
  unfold evalExpr
  cases a with
  | int k => exact .refl .pure
  | name x =>
    refine .get_bind fun w => ?_
    split
    · exact .refl .pure
    · exact .refl .fault
  | add a b => exact htwo (fun k l => .int (k + l)) a b
  | less a b => exact htwo (fun k l => .bool (k < l)) a b
  | equal a b =>
    refine (hoperand a).bind fun _ => (hoperand b).bind fun _ => (cutOf_observe _).bind fun _ => ?_
    exact (CutOf.refl .examine).bind fun _ => .refl .pure
  | call f args =>
    have hbody : ∀ b s, CutOf ((p.host (execBlock p watch m)).runBody b s) ((p.host (execBlock p watch n)).runBody b s) :=
      fun b s => h.block s (p.code b)
    refine (hoperand f).bind fun pf => (CutOf.mapM hoperand args).bind fun ps => (cutOf_observe _).bind fun _ => ?_
    exact .apply hbody rfl pf.1 e (ps.map Prod.fst)
  | function params body => exact .refl .pure
  | underline body => exact .refl .pure
  | array items =>
    refine (CutOf.mapM (fun a => (h.expr e a).bind fun _ => .refl .bound) items).bind fun _ => ?_
    exact .refl (Law.Obeys.change.bind fun _ => .pure)
  | length a => exact (h.expr e a).bind fun _ => .refl (obeys_wantArray.bind fun _ => .get_bind fun _ => .pure)

theorem cutOf_stmt (h : CodeCut p watch m n) (hmn : m ≤ n) (a : Stmt) :
    CutOf (execStmt p watch (m + 1) e a) (execStmt p watch (n + 1) e a) := by
  have hcond : ∀ c, CutOf (do wantBool (← evalExpr p watch m e c)) (do wantBool (← evalExpr p watch n e c)) :=
    fun c => (h.expr e c).bind fun _ => .refl obeys_wantBool
  unfold execStmt
  refine (cutOf_observe _).bind fun _ => CutOf.bind (.outcome ?_) fun _ => (cutOf_observe _).bind fun _ => .refl .ofExcept
  cases a with
  | expr a => exact h.expr e a
  | define x a => exact (h.expr e a).bind fun _ => .refl obeys_define
  | assign x a => exact (h.expr e a).bind fun _ => .refl obeys_assign
  | push x a => exact (h.expr e a).bind fun _ => .refl obeys_push
  | cond c yes =>
    refine (hcond c).bind fun b => ?_
    cases b with
    | true => exact h.block e yes
    | false => exact .refl .pure
  | «while» c body => exact cutOf_whileLoop (hcond c) (h.block e body) hmn
  | ret a | out a => exact (h.expr e a).bind fun _ => .refl .throw
  | jump => exact .refl .throw
  | fail text => exact .refl .fault

theorem code_cut (p : Program) (watch : Watcher ω) (hmn : m ≤ n) : CodeCut p watch m n := by
  induction m generalizing n with
  | zero => exact ⟨fun _ _ => .unfinished, fun _ _ => .unfinished, fun _ _ => .unfinished⟩
  | succ m ih =>
    obtain ⟨n, rfl⟩ : ∃ k, n = k + 1 := ⟨n - 1, by omega⟩
    have h : CodeCut p watch m n := ih (by omega)
    exact ⟨fun e a => cutOf_expr h a, fun e a => cutOf_stmt h (by omega) a, fun e code => .block (h.stmt e) code⟩

/-- What a program comes to within some steps, it comes to within more. -/
theorem run_of_le (hmn : m ≤ n) {code : List Stmt} {w u : World ω} {r : Ending}
    (h : run p watch m e code w = (some r, u)) : run p watch n e code w = (some r, u) := by
  have hcut := (code_cut p watch hmn).block e code
  rcases run_eq_some h with ⟨q, hrun, rfl⟩ | ⟨hrun, hbroken, rfl⟩
  · exact run_of_outcome (hcut.ends _ q u hrun)
  · exact run_of_broken (hcut.breaks _ u rfl hrun hbroken) hbroken

end Kernel

end CopyOnBind
