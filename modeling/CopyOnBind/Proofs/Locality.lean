import CopyOnBind.Proofs.Alike
import CopyOnBind.Proofs.Worlds
/-!
# Runs in step

Code that runs in a scope of a region gives the same result in stores that are
alike on the region, whoever watches (`run_alike`). Both runs meet the same values,
which lead into the region, and change their stores in the same way, so the stores
stay alike; what the watchers note may differ. No native is met, since the host is
not in the region.
-/

namespace CopyOnBind

open Store

namespace Kernel

variable {ω ω' α β γ δ : Type} {s₀ s : Store} {R : Cell → Prop} {e : ScopeId} {v : Value} {n : Nat}

/-! ## Evaluations in step -/

/-- The worlds differ outside the region and in their notes only. -/
structure Level (s₀ : Store) (R : Cell → Prop) (w : World ω) (w' : World ω') : Prop where
  store : s₀.AlikeOn R w.store w'.store
  machine : w'.machine = w.machine
  broken : w'.broken = w.broken

/-- Values that go together, or one signal whose value leads into the domain. -/
inductive SameEnd (s₀ : Store) (R : Cell → Prop) (Q : α → β → Prop) : Except Signal α → Except Signal β → Prop
  | ok {a : α} {b : β} : Q a b → SameEnd s₀ R Q (.ok a) (.ok b)
  | error {e : Signal} : (∀ v, e.value? = some v → s₀.Local R v) → SameEnd s₀ R Q (.error e) (.error e)

structure EndedLevel (s₀ : Store) (R : Cell → Prop) (Q : α → β → Prop) (p : Option (Except Signal α) × World ω)
    (q : Option (Except Signal β) × World ω') : Prop where
  level : Level s₀ R p.2 q.2
  result : Option.Rel (SameEnd s₀ R Q) p.1 q.1

/-- From worlds on a level, the evaluations end together, with values that go together. -/
def InStep (s₀ : Store) (R : Cell → Prop) (x : Run ω α) (y : Run ω' β) (Q : α → β → Prop) : Prop :=
  ∀ w w', Level s₀ R w w' → EndedLevel s₀ R Q (x.runOn w) (y.runOn w')

/-- The values are one, which leads into the domain. -/
def Common (s₀ : Store) (R : Cell → Prop) (v v' : Value) : Prop := v' = v ∧ s₀.Local R v

theorem common_flat (hv : v.cell? = none) : Common s₀ R v v := ⟨rfl, local_of_cell?_none hv⟩

theorem SameEnd.eq {r r' : Outcome} (h : SameEnd s₀ R (Common s₀ R) r r') : r' = r := by
  cases h with
  | ok hv => rw [hv.1]
  | error _ => rfl

theorem forall₂_common {vs vs' : List Value} (h : List.Forall₂ (Common s₀ R) vs vs') :
    vs' = vs ∧ ∀ v ∈ vs, s₀.Local R v := by
  induction h with
  | nil => exact ⟨rfl, nofun⟩
  | cons hv _ ih => exact ⟨by rw [hv.1, ih.1], List.forall_mem_cons.2 ⟨hv.2, ih.2⟩⟩

theorem Level.of_store {w : World ω} {w' : World ω'} {t : Store} (h : Level s₀ R w w') (hst : s₀.AlikeOn R s t) :
    Level s₀ R { w with store := s } { w' with store := t } := ⟨hst, h.machine, h.broken⟩

namespace InStep

variable {x : Run ω α} {y : Run ω' β} {f : α → Run ω γ} {g : β → Run ω' δ} {P Q : α → β → Prop} {Q' : γ → δ → Prop}

theorem ofExcept {r : Except Signal α} {r' : Except Signal β} (h : SameEnd s₀ R Q r r') :
    InStep s₀ R (Eval.ofExcept r : Run ω α) (Eval.ofExcept r' : Run ω' β) Q := fun _ _ hw => ⟨hw, .some h⟩

theorem pure {a : α} {b : β} (h : Q a b) : InStep s₀ R (pure a : Run ω α) (pure b : Run ω' β) Q := ofExcept (.ok h)

theorem throw {e : Signal} (he : ∀ v, e.value? = some v → s₀.Local R v) :
    InStep s₀ R (throw e : Run ω α) (throw e : Run ω' β) Q := ofExcept (.error he)

theorem fault {f : Fault} : InStep s₀ R (Eval.fault f : Run ω α) (Eval.fault f : Run ω' β) Q :=
  throw (by simp [Signal.value?])

theorem orFault {r : Except Fault α} : InStep s₀ R (Eval.orFault r : Run ω α) (Eval.orFault r : Run ω' α) Eq := by
  cases r with
  | ok a => exact pure rfl
  | error f => exact fault

theorem unfinished : InStep s₀ R (Eval.unfinished : Run ω α) (Eval.unfinished : Run ω' β) Q := fun _ _ hw => ⟨hw, .none⟩

theorem breakOff : InStep s₀ R (Eval.breakOff : Run ω α) (Eval.breakOff : Run ω' β) Q :=
  fun _ _ hw => ⟨⟨hw.store, hw.machine, rfl⟩, .none⟩

theorem bind (hx : InStep s₀ R x y P) (hf : ∀ a b, P a b → InStep s₀ R (f a) (g b) Q') :
    InStep s₀ R (x >>= f) (y >>= g) Q' := by
  intro w w' hw
  have hend := hx w w' hw
  rw [Eval.runOn_bind, Eval.runOn_bind]
  generalize x.runOn w = p at hend ⊢
  generalize y.runOn w' = q at hend ⊢
  obtain ⟨o, u⟩ := p
  obtain ⟨o', u'⟩ := q
  obtain ⟨hlevel, hrel⟩ := hend
  dsimp only at hlevel hrel
  cases hrel with
  | none => exact ⟨hlevel, .none⟩
  | some hr =>
    cases hr with
    | ok hP => exact hf _ _ hP u u' hlevel
    | error he => exact ⟨hlevel, .some (.error he)⟩

theorem get_bind {f : World ω → Run ω γ} {g : World ω' → Run ω' δ}
    (hf : ∀ w w', Level s₀ R w w' → InStep s₀ R (f w) (g w') Q') : InStep s₀ R (get >>= f) (get >>= g) Q' := by
  intro w w' hw
  rw [Eval.runOn_get_bind, Eval.runOn_get_bind]
  exact hf w w' hw w w' hw

theorem outcome (hx : InStep s₀ R x y Q) : InStep s₀ R x.outcome y.outcome (SameEnd s₀ R Q) := by
  intro w w' hw
  obtain ⟨hlevel, hrel⟩ := hx w w' hw
  rw [Eval.runOn_outcome, Eval.runOn_outcome]
  refine ⟨hlevel, ?_⟩
  generalize (x.runOn w).1 = o at hrel
  generalize (y.runOn w').1 = o' at hrel
  cases hrel with
  | none => exact .none
  | some hr => exact .some (.ok hr)

theorem modify {g : World ω → World ω} {g' : World ω' → World ω'} (hg : ∀ w w', Level s₀ R w w' → Level s₀ R (g w) (g' w')) :
    InStep s₀ R (modify g : Run ω Unit) (modify g' : Run ω' Unit) fun _ _ => True :=
  fun w w' hw => ⟨hg w w' hw, .some (.ok trivial)⟩

theorem change {g : Store → α × Store} {P : α → Prop}
    (hg : ∀ s t, s₀.AlikeOn R s t → (g t).1 = (g s).1 ∧ P (g s).1 ∧ s₀.AlikeOn R (g s).2 (g t).2) :
    InStep s₀ R (Eval.change g : Run ω α) (Eval.change g : Run ω' α) fun a b => b = a ∧ P a := by
  intro w w' hw
  obtain ⟨hval, hP, halike⟩ := hg w.store w'.store hw.store
  exact ⟨hw.of_store halike, .some (.ok ⟨hval, hP⟩)⟩

theorem walk {g : StateT Store Option α} {P : α → Prop} (hg : WalksAlike s₀ R g P) :
    InStep s₀ R (Eval.walk g : Run ω α) (Eval.walk g : Run ω' α) fun a b => b = a ∧ P a := by
  intro w w' hw
  have hrel := hg w.store w'.store hw.store
  rw [Eval.runOn_walk, Eval.runOn_walk]
  generalize g w.store = o at hrel ⊢
  generalize g w'.store = o' at hrel ⊢
  cases hrel with
  | none => exact ⟨hw, .none⟩
  | some hpq => exact ⟨hw.of_store hpq.alike, .some (.ok ⟨hpq.value, hpq.holds⟩)⟩

theorem examine {g : Store → Option α} (hg : ∀ s t, s₀.AlikeOn R s t → g t = g s) :
    InStep s₀ R (Eval.examine g : Run ω α) (Eval.examine g : Run ω' α) Eq := by
  refine get_bind fun w w' hw => ?_
  rw [hg w.store w'.store hw.store]
  cases g w.store with
  | none => exact unfinished
  | some a => exact pure rfl

theorem mapM {γ : Type} {f : γ → Run ω α} {g : γ → Run ω' β} {l : List γ} (hf : ∀ a ∈ l, InStep s₀ R (f a) (g a) Q) :
    InStep s₀ R (l.mapM f) (l.mapM g) (List.Forall₂ Q) := by
  induction l with
  | nil => exact pure .nil
  | cons a l ih =>
    rw [List.mapM_cons, List.mapM_cons]
    refine (hf a (by simp)).bind fun b b' hb => (ih fun c hc => hf c (by simp [hc])).bind fun bs bs' hbs => pure ?_
    exact .cons hb hbs

end InStep

/-- Evaluations of one value, which leads into the domain. -/
abbrev SameValue (s₀ : Store) (R : Cell → Prop) (x : Run ω Value) (y : Run ω' Value) : Prop := InStep s₀ R x y (Common s₀ R)

/-! ## Operations -/

theorem inStep_observe {watch : Watcher ω} {watch' : Watcher ω'} {m m' : Moment} :
    InStep s₀ R (observe watch m) (observe watch' m') fun _ _ => True :=
  .modify fun _ _ hw => ⟨hw.store, hw.machine, hw.broken⟩

theorem sameValue_bound (hv : s₀.Local R v) : SameValue s₀ R (Eval.bound v : Run ω Value) (Eval.bound v : Run ω' Value) :=
  .get_bind fun _ _ _ => .walk (walksAlike_copy hv)

theorem sameValue_handBack (hv : s₀.Local R v) :
    SameValue s₀ R (Eval.handBack v : Run ω Value) (Eval.handBack v : Run ω' Value) := by
  refine .get_bind fun w w' hw => ?_
  rw [hw.machine]
  refine .walk ?_
  unfold Machine.handBack
  split
  · refine (walksAlike_copy hv).bind fun c hc => WalksAlike.bind (P := fun _ => True) ?_ fun _ _ => .pure hc
    exact fun s t h => .some ⟨rfl, trivial, h.mark hc⟩
  · exact .pure hv

theorem inStep_wantInt : InStep s₀ R (wantInt v : Run ω Int64) (wantInt v : Run ω' Int64) Eq := by
  unfold wantInt
  split
  · exact .pure rfl
  · exact .fault

theorem inStep_wantBool : InStep s₀ R (wantBool v : Run ω Bool) (wantBool v : Run ω' Bool) Eq := by
  unfold wantBool
  split
  · exact .pure rfl
  · exact .fault

theorem inStep_wantArray (hv : s₀.Local R v) :
    InStep s₀ R (wantArray v : Run ω ArrayId) (wantArray v : Run ω' ArrayId) fun a b => b = a ∧ s₀.Local R (.array a) := by
  unfold wantArray
  cases v with
  | array a => exact .pure ⟨rfl, hv⟩
  | _ => exact .fault

theorem sameValue_define {x : String} (he : s₀.Domain R (.scope e)) (hv : s₀.Local R v) :
    SameValue s₀ R (define e x v : Run ω Value) (define e x v : Run ω' Value) := by
  refine (sameValue_bound hv).bind ?_
  rintro _ c ⟨rfl, hc⟩
  exact (InStep.modify fun _ _ hw => hw.of_store (hw.store.define he hc)).bind fun _ _ _ => .pure (common_flat rfl)

theorem sameValue_assign {x : String} (he : s₀.Domain R (.scope e)) (hv : s₀.Local R v) :
    SameValue s₀ R (assign e x v : Run ω Value) (assign e x v : Run ω' Value) := by
  refine (sameValue_bound hv).bind ?_
  rintro _ c ⟨rfl, hc⟩
  refine (InStep.change (P := fun _ => True) fun s t h => ?_).bind ?_
  · obtain ⟨hresult, halike⟩ := h.assign (x := x) he hc
    exact ⟨hresult, trivial, halike⟩
  · rintro _ r ⟨rfl, -⟩
    cases r with
    | ok _ => exact .pure (common_flat rfl)
    | error _ => exact .fault

theorem sameValue_push {x : String} (he : s₀.Domain R (.scope e)) (hv : s₀.Local R v) :
    SameValue s₀ R (push e x v : Run ω Value) (push e x v : Run ω' Value) := by
  refine .get_bind fun w w' hw => ?_
  rw [hw.store.lookup he]
  cases htarget : w.store.lookup e x with
  | none => exact .fault
  | some target =>
    refine (inStep_wantArray (hw.store.confined.lookup he htarget)).bind ?_
    rintro _ a ⟨rfl, ha⟩
    refine (InStep.examine fun _ _ hst => hst.copyReads hv).bind ?_
    rintro b _ rfl
    cases b with
    | true => exact .breakOff
    | false =>
      refine (sameValue_bound hv).bind ?_
      rintro _ c ⟨rfl, hc⟩
      exact (InStep.modify fun _ _ hw => hw.of_store (hw.store.push ha hc)).bind fun _ _ _ => .pure (common_flat rfl)

/-! ## Calls -/

theorem walksAlike_callScope {m : Machine} {f : Closure} {args : List Value} (hf : s₀.Domain R (.scope f.scope))
    (hargs : ∀ v ∈ args, s₀.Local R v) : WalksAlike s₀ R (m.callScope f args) fun e => s₀.Domain R (.scope e) := by
  have hnew : WalksAlike s₀ R (modifyGet (·.newScope (some f.scope))) fun e => s₀.Domain R (.scope e) := by
    intro s t h
    obtain ⟨hid, halike⟩ := h.newScope hf
    exact .some ⟨hid, (h.confined.newScope hf).2, halike⟩
  have hbind : ∀ e, s₀.Domain R (.scope e) → ∀ l : List (String × Value), (∀ p ∈ l, s₀.Local R p.2) →
      WalksAlike s₀ R (bindAll m e l) fun _ => True := by
    intro e he l hl
    induction l with
    | nil => exact .pure trivial
    | cons p l ih =>
      intro s t h
      rw [bindAll_cons, bindAll_cons]
      have hrel := walksAlike_copy (hl p (by simp)) s t h
      generalize copy p.2 s = o at hrel ⊢
      generalize copy p.2 t = o' at hrel ⊢
      cases hrel with
      | none => exact .none
      | some hpq =>
        rw [Option.bind_some, Option.bind_some, hpq.value]
        exact ih (fun q hq => hl q (by simp [hq])) _ _ (hpq.alike.define he hpq.holds)
  refine hnew.bind fun e he => (hbind e he _ fun p hp => ?_).bind fun _ _ => .pure he
  exact hargs p.2 (List.of_mem_zip hp).2

theorem inStep_calling {body : Run ω Value} {body' : Run ω' Value} (hbody : SameValue s₀ R body body') :
    InStep s₀ R (Eval.calling body) (Eval.calling body') (SameEnd s₀ R (Common s₀ R)) := by
  refine .get_bind fun w w' hw => ?_
  rw [hw.machine]
  refine InStep.orFault.bind ?_
  rintro m _ rfl
  refine (InStep.modify ?_).bind fun _ _ _ => hbody.outcome.bind fun r r' hr => (InStep.modify ?_).bind fun _ _ _ => .pure hr
  · exact fun _ _ hw => ⟨hw.store, rfl, hw.broken⟩
  · exact fun _ _ hw => ⟨hw.store, congrArg Machine.leave hw.machine, hw.broken⟩

theorem SameEnd.closeCall {r r' : Outcome} (h : SameEnd s₀ R (Common s₀ R) r r') :
    SameEnd s₀ R (Common s₀ R) r.closeCall r'.closeCall := by
  cases h with
  | ok hv => exact .ok hv
  | @error e he =>
    cases e with
    | ret v => exact .ok ⟨rfl, he v rfl⟩
    | out v => exact .error nofun
    | jump => exact .error nofun
    | error f => exact .error he

theorem SameEnd.closeBlock {r r' : Outcome} (h : SameEnd s₀ R (Common s₀ R) r r') :
    SameEnd s₀ R (Common s₀ R) r.closeBlock r'.closeBlock := by
  cases h with
  | ok hv => exact .ok hv
  | @error e he =>
    cases e with
    | out v => exact .ok ⟨rfl, he v rfl⟩
    | _ => exact .error he

/-- What a body gives is handed back to the caller, after the signals that end with the call. -/
theorem sameValue_handedBack {body : Run ω Value} {body' : Run ω' Value} (close : Outcome → Outcome)
    (hbody : SameValue s₀ R body body')
    (hclose : ∀ r r', SameEnd s₀ R (Common s₀ R) r r' → SameEnd s₀ R (Common s₀ R) (close r) (close r')) : SameValue s₀ R
    (do
      let r ← Eval.calling body
      Eval.handBack (← Eval.ofExcept (close r)))
    (do
      let r ← Eval.calling body'
      Eval.handBack (← Eval.ofExcept (close r))) := by
  refine (inStep_calling hbody).bind fun r r' hr => (InStep.ofExcept (hclose r r' hr)).bind ?_
  rintro _ v ⟨rfl, hv⟩
  exact sameValue_handBack hv

/-- What a call is promised of the code that it runs. -/
structure HostInStep (s₀ : Store) (R : Cell → Prop) (host : Host ω) (host' : Host ω') : Prop where
  body : ∀ b e, s₀.Domain R (.scope e) → SameValue s₀ R (host.runBody b e) (host'.runBody b e)
  apart : ¬ R .host

section Calls

variable {host : Host ω} {host' : Host ω'} (hhost : HostInStep s₀ R host host') {args : List Value}

include hhost

theorem sameValue_applyClosure {f : Closure} (hf : s₀.Domain R (.scope f.scope)) (hargs : ∀ v ∈ args, s₀.Local R v) :
    SameValue s₀ R (Eval.applyClosure host f args) (Eval.applyClosure host' f args) := by
  refine InStep.orFault.bind fun _ _ _ => .get_bind fun w w' hw => ?_
  rw [hw.machine]
  refine (InStep.walk (walksAlike_callScope hf hargs)).bind ?_
  rintro _ e ⟨rfl, he⟩
  exact sameValue_handedBack Outcome.closeCall (hhost.body f.body e he) fun _ _ => SameEnd.closeCall

theorem sameValue_applyUnderline {u : Underline} (hu : s₀.Domain R (.scope u.scope)) :
    SameValue s₀ R (Eval.applyUnderline host u args) (Eval.applyUnderline host' u args) := by
  unfold Eval.applyUnderline
  by_cases hargs : args ≠ []
  · rw [if_pos hargs, if_pos hargs]
    exact .fault
  · rw [if_neg hargs, if_neg hargs]
    have hscope : InStep s₀ R (Eval.change (·.newScope (some u.scope)) : Run ω ScopeId)
        (Eval.change (·.newScope (some u.scope)) : Run ω' ScopeId) fun e e' => e' = e ∧ s₀.Domain R (.scope e) := by
      refine .change fun s t h => ?_
      obtain ⟨hid, halike⟩ := h.newScope hu
      exact ⟨hid, (h.confined.newScope hu).2, halike⟩
    refine hscope.bind ?_
    rintro _ e ⟨rfl, he⟩
    have hblock : SameValue s₀ R (Eval.bareBlock (host.runBody u.body e)) (Eval.bareBlock (host'.runBody u.body e)) :=
      (hhost.body u.body e he).outcome.bind fun _ _ hr => .ofExcept hr.closeBlock
    exact (inStep_calling hblock).bind fun _ _ hr => .ofExcept hr

theorem sameValue_apply {f : Value} (hf : s₀.Local R f) (hargs : ∀ v ∈ args, s₀.Local R v) :
    SameValue s₀ R (Eval.apply host f e args) (Eval.apply host' f e args) := by
  refine .get_bind fun w w' hw => ?_
  have hcallee : ∀ c, (w.store.callee f).captured? = some c → s₀.Domain R c :=
    fun c => hw.store.confined.callee (.inl hf)
  rw [hw.store.callee hf]
  split
  · next g hg => exact sameValue_applyClosure hhost (hcallee _ (by rw [hg]; rfl)) hargs
  · next u hu => exact sameValue_applyUnderline hhost (hcallee _ (by rw [hu]; rfl))
  · next n hn => exact absurd (domain_host.1 (hcallee _ (by rw [hn]; rfl))) hhost.apart
  · exact .fault

end Calls

/-! ## Programs -/

theorem hostInStep (p : Program) (hR : ¬ R .host) {exec : ScopeId → List Stmt → Run ω Value} {exec' : ScopeId → List Stmt → Run ω' Value}
    (hexec : ∀ e code, s₀.Domain R (.scope e) → SameValue s₀ R (exec e code) (exec' e code)) :
    HostInStep s₀ R (p.host exec) (p.host exec') where
  body b e he := hexec e (p.code b) he
  apart := hR

section Parts

variable {eval : Expr → Run ω Value} {eval' : Expr → Run ω' Value} (heval : ∀ a, SameValue s₀ R (eval a) (eval' a))

include heval

/-- Two integers, each looked at as soon as it is there. -/
theorem sameValue_twoInts {a b : Expr} {f : Int64 → Int64 → Value} (hf : ∀ k l, (f k l).cell? = none) :
    SameValue s₀ R (do
        let k ← wantInt (← eval a)
        return f k (← wantInt (← eval b)))
      (do
        let k ← wantInt (← eval' a)
        return f k (← wantInt (← eval' b))) := by
  refine (heval a).bind ?_
  rintro _ v ⟨rfl, -⟩
  refine inStep_wantInt.bind ?_
  rintro k _ rfl
  refine (heval b).bind ?_
  rintro _ u ⟨rfl, -⟩
  refine inStep_wantInt.bind ?_
  rintro l _ rfl
  exact .pure (common_flat (hf k l))

theorem inStep_operand (a : Expr) : InStep s₀ R (operand eval a) (operand eval' a) fun p q => Common s₀ R p.1 q.1 :=
  (heval a).bind fun _ _ hv => .get_bind fun _ _ _ => .pure hv

theorem inStep_cond (c : Expr) : InStep s₀ R (do wantBool (← eval c)) (do wantBool (← eval' c)) Eq := by
  refine (heval c).bind ?_
  rintro _ v ⟨rfl, -⟩
  exact inStep_wantBool

end Parts

theorem sameValue_whileLoop {cond : Run ω Bool} {cond' : Run ω' Bool} {body : Run ω Value} {body' : Run ω' Value}
    (hcond : InStep s₀ R cond cond' Eq) (hbody : SameValue s₀ R body body') (n : Nat) :
    SameValue s₀ R (whileLoop cond body n) (whileLoop cond' body' n) := by
  induction n with
  | zero => exact .unfinished
  | succ n ih =>
    unfold whileLoop
    refine hcond.bind ?_
    rintro b _ rfl
    cases b with
    | false => exact .pure (common_flat rfl)
    | true =>
      refine hbody.outcome.bind fun r r' hr => ?_
      cases hr with
      | ok _ => exact ih
      | @error e he =>
        cases e with
        | ret v => exact .throw he
        | out v => exact .pure ⟨rfl, he v rfl⟩
        | jump => exact ih
        | error f => exact .fault

theorem sameValue_block {run : Stmt → Run ω Value} {run' : Stmt → Run ω' Value}
    (hrun : ∀ a, SameValue s₀ R (run a) (run' a)) (stmts : List Stmt) :
    SameValue s₀ R (Eval.block run stmts) (Eval.block run' stmts) := by
  have fold : ∀ v v', Common s₀ R v v' →
      SameValue s₀ R (stmts.foldlM (fun _ a => run a) v) (stmts.foldlM (fun _ a => run' a) v') := by
    induction stmts with
    | nil => exact fun v v' hv => .pure hv
    | cons a stmts ih =>
      intro v v' _
      rw [List.foldlM_cons, List.foldlM_cons]
      exact (hrun a).bind ih
  exact fold .void .void (common_flat rfl)

/-- All code that runs in a scope of the domain runs in step, for `n` steps. -/
structure CodeInStep (s₀ : Store) (R : Cell → Prop) (p : Program) (watch : Watcher ω) (watch' : Watcher ω') (n : Nat) :
    Prop where
  expr : ∀ e a, s₀.Domain R (.scope e) → SameValue s₀ R (evalExpr p watch n e a) (evalExpr p watch' n e a)
  stmt : ∀ e a, s₀.Domain R (.scope e) → SameValue s₀ R (execStmt p watch n e a) (execStmt p watch' n e a)
  block : ∀ e code, s₀.Domain R (.scope e) → SameValue s₀ R (execBlock p watch n e code) (execBlock p watch' n e code)

variable {p : Program} {watch : Watcher ω} {watch' : Watcher ω'}

theorem sameValue_expr (hR : ¬ R .host) (h : CodeInStep s₀ R p watch watch' n) (he : s₀.Domain R (.scope e)) (a : Expr) :
    SameValue s₀ R (evalExpr p watch (n + 1) e a) (evalExpr p watch' (n + 1) e a) := by
  have heval : ∀ a, SameValue s₀ R (evalExpr p watch n e a) (evalExpr p watch' n e a) := fun a => h.expr e a he
  unfold evalExpr
  cases a with
  | int k => exact .pure (common_flat rfl)
  | name x =>
    refine .get_bind fun w w' hw => ?_
    rw [hw.store.lookup he]
    cases hx : w.store.lookup e x with
    | none => exact .fault
    | some v => exact .pure ⟨rfl, hw.store.confined.lookup he hx⟩
  | add a b => exact sameValue_twoInts heval (f := fun k l => .int (k + l)) fun _ _ => rfl
  | less a b => exact sameValue_twoInts heval (f := fun k l => .bool (k < l)) fun _ _ => rfl
  | equal a b =>
    refine (inStep_operand heval a).bind fun pa pa' ha => (inStep_operand heval b).bind fun pb pb' hb => ?_
    refine inStep_observe.bind fun _ _ _ => ?_
    rw [ha.1, hb.1]
    refine (InStep.examine fun s t hst => hst.eq ha.2 hb.2).bind ?_
    rintro r _ rfl
    exact .pure (common_flat rfl)
  | call f args =>
    refine (inStep_operand heval f).bind fun pf pf' hf => ?_
    refine (InStep.mapM fun a _ => inStep_operand heval a).bind fun ps ps' hps => ?_
    refine inStep_observe.bind fun _ _ _ => ?_
    have hargs : List.Forall₂ (Common s₀ R) (ps.map Prod.fst) (ps'.map Prod.fst) :=
      List.forall₂_map_left_iff.2 (List.forall₂_map_right_iff.2 hps)
    obtain ⟨heq, hlocal⟩ := forall₂_common hargs
    rw [hf.1, heq]
    exact sameValue_apply (hostInStep p hR h.block) hf.2 hlocal
  | function params body => exact .pure ⟨rfl, fun c hc => by cases hc; exact he⟩
  | underline body => exact .pure ⟨rfl, fun c hc => by cases hc; exact he⟩
  | array items =>
    have hitems : InStep s₀ R (items.mapM fun a => do Eval.bound (← evalExpr p watch n e a))
        (items.mapM fun a => do Eval.bound (← evalExpr p watch' n e a)) (List.Forall₂ (Common s₀ R)) := by
      refine .mapM fun a _ => (heval a).bind ?_
      rintro _ v ⟨rfl, hv⟩
      exact sameValue_bound hv
    refine hitems.bind fun vs vs' hvs => ?_
    obtain ⟨rfl, hlocal⟩ := forall₂_common hvs
    refine (InStep.change (P := fun a => s₀.Local R (.array a)) fun s t hst => ?_).bind ?_
    · obtain ⟨hid, halike⟩ := hst.newArray hlocal
      exact ⟨hid, (hst.confined.newArray hlocal).2, halike⟩
    · rintro _ a ⟨rfl, ha⟩
      exact .pure ⟨rfl, ha⟩
  | length a =>
    refine (heval a).bind ?_
    rintro _ v ⟨rfl, hv⟩
    refine (inStep_wantArray hv).bind ?_
    rintro _ b ⟨rfl, hb⟩
    refine .get_bind fun w w' hw => ?_
    unfold Store.elements
    rw [hw.store.array hb]
    exact .pure (common_flat rfl)

theorem sameValue_stmt (h : CodeInStep s₀ R p watch watch' n) (he : s₀.Domain R (.scope e)) (a : Stmt) :
    SameValue s₀ R (execStmt p watch (n + 1) e a) (execStmt p watch' (n + 1) e a) := by
  have heval : ∀ a, SameValue s₀ R (evalExpr p watch n e a) (evalExpr p watch' n e a) := fun a => h.expr e a he
  -- the value that a statement is about
  have andThen : ∀ {f : Value → Run ω Value} {g : Value → Run ω' Value} a,
      (∀ v, s₀.Local R v → SameValue s₀ R (f v) (g v)) →
      SameValue s₀ R (do f (← evalExpr p watch n e a)) (do g (← evalExpr p watch' n e a)) := by
    intro f g a hf
    refine (heval a).bind ?_
    rintro _ v ⟨rfl, hv⟩
    exact hf v hv
  unfold execStmt
  refine inStep_observe.bind fun _ _ _ => InStep.bind (P := SameEnd s₀ R (Common s₀ R)) (.outcome ?_) fun r r' hr =>
    inStep_observe.bind fun _ _ _ => .ofExcept hr
  cases a with
  | expr a => exact heval a
  | define x a => exact andThen a fun v hv => sameValue_define he hv
  | assign x a => exact andThen a fun v hv => sameValue_assign he hv
  | push x a => exact andThen a fun v hv => sameValue_push he hv
  | cond c yes =>
    refine (inStep_cond heval c).bind ?_
    rintro b _ rfl
    cases b with
    | true => exact h.block e yes he
    | false => exact .pure (common_flat rfl)
  | «while» c body => exact sameValue_whileLoop (inStep_cond heval c) (h.block e body he) n
  | ret a => exact andThen a fun v hv => .throw fun u hu => by cases hu; exact hv
  | out a => exact andThen a fun v hv => .throw fun u hu => by cases hu; exact hv
  | jump => exact .throw (by simp [Signal.value?])
  | fail text => exact .fault

theorem code_inStep (s₀ : Store) (hR : ¬ R .host) (p : Program) (watch : Watcher ω) (watch' : Watcher ω') (n : Nat) :
    CodeInStep s₀ R p watch watch' n := by
  induction n with
  | zero => exact ⟨fun _ _ _ => .unfinished, fun _ _ _ => .unfinished, fun _ _ _ => .unfinished⟩
  | succ n ih =>
    exact ⟨fun _ a he => sameValue_expr hR ih he a, fun _ a he => sameValue_stmt ih he a,
      fun e code he => sameValue_block (fun a => ih.stmt e a he) code⟩

/-- A run in a scope of the domain cannot tell stores that are alike there, nor who watches. -/
theorem run_alike (hR : ¬ R .host) (p : Program) (watch : Watcher ω) (watch' : Watcher ω') (n : Nat) (code : List Stmt) {w : World ω}
    {w' : World ω'} (h : Level s₀ R w w') (he : s₀.Domain R (.scope e)) :
    (run p watch' n e code w').1 = (run p watch n e code w).1 := by
  have hstart : Level s₀ R { w with broken := false } { w' with broken := false } := ⟨h.store, h.machine, rfl⟩
  obtain ⟨hend, hrel⟩ := (code_inStep s₀ hR p watch watch' n).block e code he _ _ hstart
  unfold run
  dsimp only
  rw [hend.broken]
  generalize ((execBlock p watch n e code).runOn { w with broken := false }).1 = o at hrel ⊢
  generalize ((execBlock p watch' n e code).runOn { w' with broken := false }).1 = o' at hrel ⊢
  cases hrel with
  | none => rfl
  | some hr => rw [hr.eq]

end Kernel

end CopyOnBind
