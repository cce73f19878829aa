import CopyOnBind.Proofs.MoreSteps
import CopyOnBind.Proofs.Signals
/-!
# What loops do

A loop is some complete rounds and then one that leaves it. `endsIn_loop_iff` counts the
rounds against the bound of the loop, which decides nothing but whether the loop is cut off.
`endsIn_while_iff` is the same for the loop statement of the kernel language, whose condition
and body are given steps as well: what they end with does not depend on the steps, so one
number of steps is enough for all rounds (`EndsAfter.gather`).

`loops_by_rounds` puts the two together.
-/

namespace CopyOnBind

namespace Eval

variable {σ α : Type}

/-- Run on `s`, the evaluation ends with `r` in the state `t`. -/
def EndsIn (x : Eval σ α) (s : σ) (r : Except Signal α) (t : σ) : Prop := x.runOn s = (some r, t)

/-! ## Rounds -/

section

variable (cond : σ → Except Signal Bool → σ → Prop) (body : σ → Outcome → σ → Prop)

/-- From `s`, so many rounds are completed, and then the state is the one given last. In each
the condition holds, and the body ends with a value or a jump. -/
inductive Completes : Nat → σ → σ → Prop
  | none (s : σ) : Completes 0 s s
  | value {n : Nat} {s t u w : σ} {v : Value} : cond s (.ok true) t → body t (.ok v) u → Completes n u w →
    Completes (n + 1) s w
  | jump {n : Nat} {s t u w : σ} : cond s (.ok true) t → body t (.error .jump) u → Completes n u w →
    Completes (n + 1) s w

/-- From `s`, the next round leaves the loop with this result, in the state given last. -/
inductive Leaves (s : σ) : Outcome → σ → Prop
  | finish {t : σ} : cond s (.ok false) t → Leaves s (.ok .void) t
  | condition {t : σ} {e : Signal} : cond s (.error e) t → Leaves s (.error e) t
  | out {t u : σ} {v : Value} : cond s (.ok true) t → body t (.error (.out v)) u → Leaves s (.ok v) u
  | ret {t u : σ} {v : Value} : cond s (.ok true) t → body t (.error (.ret v)) u → Leaves s (.error (.ret v)) u
  | fault {t u : σ} {f : Fault} : cond s (.ok true) t → body t (.error (.error f)) u →
    Leaves s (.error (.error f)) u

/-- From `s`, `n` rounds are completed, and the next leaves the loop with `r` in the state `t`. -/
def EndsAfter (n : Nat) (s : σ) (r : Outcome) (t : σ) : Prop := ∃ u, Completes cond body n s u ∧ Leaves cond body u r t

end

namespace EndsAfter

variable {cond cond' : σ → Except Signal Bool → σ → Prop} {body body' : σ → Outcome → σ → Prop} {n : Nat} {s t u w : σ}
  {r q : Outcome} {v : Value} {e : Signal}

theorem finish (hc : cond s (.ok false) t) : EndsAfter cond body 0 s (.ok .void) t := ⟨s, .none s, .finish hc⟩

theorem condition (hc : cond s (.error e) t) : EndsAfter cond body 0 s (.error e) t := ⟨s, .none s, .condition hc⟩

theorem again (hc : cond s (.ok true) t) (hb : body t q u) (hq : Outcome.afterRound q = .again)
    (h : EndsAfter cond body n u r w) : EndsAfter cond body (n + 1) s r w := by
  obtain ⟨x, hrounds, hleaves⟩ := h
  refine ⟨x, ?_, hleaves⟩
  cases q with
  | ok v => exact .value hc hb hrounds
  | error e =>
    cases e with
    | jump => exact .jump hc hb hrounds
    | _ => cases hq

theorem leave (hc : cond s (.ok true) t) (hb : body t q u) (hq : Outcome.afterRound q = .leave v) :
    EndsAfter cond body 0 s (.ok v) u := by
  cases q with
  | ok v => cases hq
  | error e =>
    cases e with
    | out v =>
      cases hq
      exact ⟨s, .none s, .out hc hb⟩
    | _ => cases hq

theorem pass (hc : cond s (.ok true) t) (hb : body t q u) (hq : Outcome.afterRound q = .pass e) :
    EndsAfter cond body 0 s (.error e) u := by
  cases q with
  | ok v => cases hq
  | error e =>
    cases e with
    | ret v =>
      cases hq
      exact ⟨s, .none s, .ret hc hb⟩
    | error f =>
      cases hq
      exact ⟨s, .none s, .fault hc hb⟩
    | _ => cases hq

theorem mono (hcond : ∀ s b t, cond s b t → cond' s b t) (hbody : ∀ s r t, body s r t → body' s r t)
    (h : EndsAfter cond body n s r t) : EndsAfter cond' body' n s r t := by
  obtain ⟨u, hrounds, hleaves⟩ := h
  refine ⟨u, ?_, ?_⟩
  · clear hleaves
    induction hrounds with
    | none s => exact .none s
    | value hc hb _ ih => exact .value (hcond _ _ _ hc) (hbody _ _ _ hb) ih
    | jump hc hb _ ih => exact .jump (hcond _ _ _ hc) (hbody _ _ _ hb) ih
  · cases hleaves with
    | finish hc => exact .finish (hcond _ _ _ hc)
    | condition hc => exact .condition (hcond _ _ _ hc)
    | out hc hb => exact .out (hcond _ _ _ hc) (hbody _ _ _ hb)
    | ret hc hb => exact .ret (hcond _ _ _ hc) (hbody _ _ _ hb)
    | fault hc hb => exact .fault (hcond _ _ _ hc) (hbody _ _ _ hb)

/-- The rounds have numbers of steps of their own, and the greatest is enough for all. -/
theorem gather {cond : Nat → σ → Except Signal Bool → σ → Prop} {body : Nat → σ → Outcome → σ → Prop}
    (hcond : ∀ {m n}, m ≤ n → ∀ s b t, cond m s b t → cond n s b t)
    (hbody : ∀ {m n}, m ≤ n → ∀ s r t, body m s r t → body n s r t)
    (h : EndsAfter (fun s b t => ∃ m, cond m s b t) (fun s r t => ∃ m, body m s r t) n s r t) :
    ∃ m, EndsAfter (cond m) (body m) n s r t := by
  obtain ⟨u, hrounds, hleaves⟩ := h
  -- one more round, with the steps of its condition, of its body and of what comes after it
  have more {m n s t u q r w} (hc : ∃ i, cond i s (.ok true) t) (hb : ∃ j, body j t q u) (hq : Outcome.afterRound q = .again)
      (h : EndsAfter (cond m) (body m) n u r w) : ∃ m, EndsAfter (cond m) (body m) (n + 1) s r w := by
    obtain ⟨i, hc⟩ := hc
    obtain ⟨j, hb⟩ := hb
    exact ⟨i + j + m, .again (hcond (by omega) _ _ _ hc) (hbody (by omega) _ _ _ hb) hq
      (h.mono (hcond (by omega)) (hbody (by omega)))⟩
  have last {s t u q} (hc : ∃ i, cond i s (.ok true) t) (hb : ∃ j, body j t q u) :
      ∃ m, cond m s (.ok true) t ∧ body m t q u := by
    obtain ⟨i, hc⟩ := hc
    obtain ⟨j, hb⟩ := hb
    exact ⟨i + j, hcond (by omega) _ _ _ hc, hbody (by omega) _ _ _ hb⟩
  induction hrounds with
  | none s =>
    cases hleaves with
    | finish hc =>
      obtain ⟨m, hc⟩ := hc
      exact ⟨m, .finish hc⟩
    | condition hc =>
      obtain ⟨m, hc⟩ := hc
      exact ⟨m, .condition hc⟩
    | out hc hb =>
      obtain ⟨m, hc, hb⟩ := last hc hb
      exact ⟨m, .leave hc hb rfl⟩
    | ret hc hb | fault hc hb =>
      obtain ⟨m, hc, hb⟩ := last hc hb
      exact ⟨m, .pass hc hb rfl⟩
  | value hc hb _ ih | jump hc hb _ ih =>
    obtain ⟨m, h⟩ := ih hleaves
    exact more hc hb rfl h

end EndsAfter

/-! ## Loops -/

variable {cond : Eval σ Bool} {body : Eval σ Value} {s t : σ} {r : Outcome}

/-- A loop of at most `k` rounds ends as its rounds say, unless it is cut off before. -/
theorem endsIn_loop_iff (k : Nat) :
    (loop cond body k).EndsIn s r t ↔ ∃ n < k, EndsAfter cond.EndsIn body.EndsIn n s r t := by
  constructor
  · induction k generalizing s with
    | zero => exact nofun
    | succ k ih =>
      intro h
      unfold EndsIn at h
      rw [runOn_loop_succ] at h
      rcases hc : cond.runOn s with ⟨_ | e | _ | _, x⟩ <;> simp only [hc] at h
      · cases h
      · cases h
        exact ⟨0, Nat.succ_pos k, .condition hc⟩
      · cases h
        exact ⟨0, Nat.succ_pos k, .finish hc⟩
      · rcases hb : body.runOn x with ⟨_ | q, u⟩ <;> simp only [hb] at h
        · cases h
        · cases hq : Outcome.afterRound q with
          | again =>
            rw [hq] at h
            obtain ⟨n, hn, hends⟩ := ih h
            exact ⟨n + 1, Nat.succ_lt_succ hn, .again hc hb hq hends⟩
          | leave v =>
            rw [hq] at h
            cases h
            exact ⟨0, Nat.succ_pos k, .leave hc hb hq⟩
          | pass e =>
            rw [hq] at h
            cases h
            exact ⟨0, Nat.succ_pos k, .pass hc hb hq⟩
  · rintro ⟨n, hn, u, hrounds, hleaves⟩
    unfold EndsIn
    induction hrounds generalizing k with
    | none s =>
      obtain ⟨k, rfl⟩ : ∃ j, k = j + 1 := ⟨k - 1, by omega⟩
      rw [runOn_loop_succ]
      cases hleaves with
      | finish hc | condition hc => rw [hc]
      | out hc hb | ret hc hb | fault hc hb =>
        rw [hc]
        simp only
        rw [hb]
        rfl
    | value hc hb _ ih | jump hc hb _ ih =>
      obtain ⟨k, rfl⟩ : ∃ j, k = j + 1 := ⟨k - 1, by omega⟩
      rw [runOn_loop_succ, hc]
      simp only
      rw [hb]
      exact ih k (by omega) hleaves

end Eval

namespace Kernel

open Eval

variable {ω : Type} {p : Program} {watch : Watcher ω} {m n : Nat} {e : ScopeId} {c : Expr} {code : List Stmt}
  {s t u w : World ω} {r : Outcome}

/-- The condition of a statement. -/
def test (p : Program) (watch : Watcher ω) (n : Nat) (e : ScopeId) (c : Expr) : Run ω Bool := do
  wantBool (← evalExpr p watch n e c)

theorem cutOf_test (hmn : m ≤ n) : CutOf (test p watch m e c) (test p watch n e c) :=
  ((code_cut p watch hmn).expr e c).bind fun _ => .refl obeys_wantBool

/-- The loop statement is the loop of its condition and its body, with a note before it and one after it. -/
theorem runOn_while : (execStmt p watch (n + 1) e (.while c code)).runOn w =
    match (loop (test p watch n e c) (execBlock p watch n e code) n).runOn { w with notes := watch .started w } with
    | (some r, u) => (some r, { u with notes := watch .finished u })
    | (none, u) => (none, u) := by
  have hloop := whileLoop_eq (test p watch n e c) (execBlock p watch n e code) n
  unfold execStmt
  simp only [observe, runOn_bind, runOn_modify, runOn_outcome]
  unfold test at hloop ⊢
  rw [hloop]
  rcases (loop _ (execBlock p watch n e code) n).runOn { w with notes := watch .started w } with ⟨_ | r, u⟩ <;> rfl

/-- What the loop statement ends with at all, by the rounds of its condition and its body. -/
theorem endsIn_while_iff : (∃ m, (execStmt p watch m e (.while c code)).EndsIn w r u) ↔
    ∃ n t, EndsAfter (fun s b t => ∃ m, (test p watch m e c).EndsIn s b t)
      (fun s r t => ∃ m, (execBlock p watch m e code).EndsIn s r t) n { w with notes := watch .started w } r t ∧
      u = { t with notes := watch .finished t } := by
  constructor
  · rintro ⟨m, h⟩
    cases m with
    | zero => cases h
    | succ m =>
      unfold EndsIn at h
      rw [runOn_while] at h
      rcases hloop : (loop (test p watch m e c) (execBlock p watch m e code) m).runOn
        { w with notes := watch .started w } with ⟨_ | q, t⟩ <;> rw [hloop] at h <;> cases h
      obtain ⟨n, -, hends⟩ := (endsIn_loop_iff m).1 hloop
      exact ⟨n, t, hends.mono (fun _ _ _ h => ⟨m, h⟩) (fun _ _ _ h => ⟨m, h⟩), rfl⟩
  · rintro ⟨n, t, hends, rfl⟩
    have hbody {i j : Nat} (hij : i ≤ j) := ((code_cut p watch hij).block e code).ends
    obtain ⟨m, hends⟩ := hends.gather (fun hij => (cutOf_test hij).ends) hbody
    -- the loop counts its rounds by the same number of steps
    have hends := hends.mono (cutOf_test (Nat.le_max_left m (n + 1))).ends (hbody (Nat.le_max_left m (n + 1)))
    have hloop := (endsIn_loop_iff (max m (n + 1))).2 ⟨n, by omega, hends⟩
    refine ⟨max m (n + 1) + 1, ?_⟩
    unfold EndsIn at hloop ⊢
    rw [runOn_while, hloop]

end Kernel

namespace Eval

/-- A loop ends exactly as its rounds say, whatever its condition and its body do to the state.
The loop that is written out is the same loop at every bound, and so the loop statement ends as
the rounds of its condition and its body say. -/
theorem loops_by_rounds :
    (∀ (σ : Type) (cond : Eval σ Bool) (body : Eval σ Value) (s : σ) (r : Outcome) (t : σ),
      (∃ k, (loop cond body k).EndsIn s r t) ↔ ∃ n, EndsAfter cond.EndsIn body.EndsIn n s r t) ∧
    (∀ (ω : Type) (cond : Kernel.Run ω Bool) (body : Kernel.Run ω Value) (k : Nat),
      Kernel.whileLoop cond body k = loop cond body k) ∧
    ∀ (ω : Type) (p : Kernel.Program) (watch : Kernel.Watcher ω) (e : ScopeId) (c : Kernel.Expr) (code : List Kernel.Stmt)
      (w : World ω) (r : Outcome) (u : World ω),
      (∃ m, (Kernel.execStmt p watch m e (.while c code)).EndsIn w r u) ↔
        ∃ n t, EndsAfter (fun s b t => ∃ m, (Kernel.test p watch m e c).EndsIn s b t)
          (fun s r t => ∃ m, (Kernel.execBlock p watch m e code).EndsIn s r t) n { w with notes := watch .started w } r t ∧
          u = { t with notes := watch .finished t } := by
  refine ⟨fun σ cond body s r t => ?_, fun ω => Kernel.whileLoop_eq, fun _ _ _ _ _ _ _ _ _ => Kernel.endsIn_while_iff⟩
  constructor
  · rintro ⟨k, h⟩
    obtain ⟨n, -, hends⟩ := (endsIn_loop_iff k).1 h
    exact ⟨n, hends⟩
  · rintro ⟨n, hends⟩
    exact ⟨n + 1, (endsIn_loop_iff (n + 1)).2 ⟨n, Nat.lt_succ_self n, hends⟩⟩

end Eval

end CopyOnBind
