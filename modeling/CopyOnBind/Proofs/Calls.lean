import CopyOnBind.Proofs.Parameters
import CopyOnBind.Proofs.Signals
/-!
# What calls end with

A call of a function ends with a value or a fault, whatever its body ends with; a
bare block that is called lets all signals through but an out; a native's signals
are the call's. A call that is refused ends with the fault of its refusal, and
then it has run nothing: all hosts do the same, and what was there before is as it
was (`World.Spares`). Only at the limit have the arguments been copied, and
have lost their marks. `call_outcomes` says so of every callee and every host.
-/

namespace CopyOnBind

open Store

variable {ω α β : Type} {s t u : Store} {v c : Value} {vs cs args : List Value}

/-! ## What the copies of arguments leave -/

/-- Everything that was in `s` is in `t` as it was, except that these values have lost their marks. -/
structure Store.Spares (s : Store) (vs : List Value) (t : Store) : Prop where
  stays : s.Stays t
  scopes : ∀ e : ScopeId, e.index < s.scopes.size → t.scope e = s.scope e
  marks : ∀ v, t.isMarked v = true ↔ s.isMarked v = true ∧ v ∉ vs

namespace Store.Spares

theorem nil (s : Store) : s.Spares [] s where
  stays := .refl s
  scopes _ _ := rfl
  marks v := by simp

theorem withScopes {g : Array Scope → Array Scope} (h : s.Spares vs t)
    (hg : ∀ e : ScopeId, e.index < s.scopes.size → (t.withScopes g).scope e = s.scope e) : s.Spares vs (t.withScopes g) where
  stays := h.stays.trans (SameContents.withScopes t g).stays
  scopes := hg
  marks v := by rw [isMarked_withScopes, h.marks]

theorem cons (hc : s.copy v = some (c, t)) (h : t.Spares vs u) : s.Spares (v :: vs) u where
  stays := (Stays.of_copy hc).trans h.stays
  scopes e he := by
    have hone : [v].mapM copy s = some ([c], t) := by
      rw [mapM_walk_cons, hc]
      rfl
    have hscopes : t.scopes = s.scopes := scopes_mapM_copy hone
    rw [h.scopes e (hscopes ▸ he), scope, scope, hscopes]
  marks w := by rw [h.marks, isMarked_copy_iff hc, List.mem_cons, not_or, and_assoc]

theorem of_mapM (hcs : vs.mapM copy s = some (cs, t)) : s.Spares vs t := by
  induction vs generalizing s cs with
  | nil =>
    cases hcs
    exact .nil _
  | cons v vs ih =>
    rw [mapM_walk_cons] at hcs
    obtain ⟨⟨c, x⟩, hc, hcs⟩ := Option.bind_eq_some_iff.1 hcs
    obtain ⟨⟨ds, y⟩, hds, hcs⟩ := Option.map_eq_some_iff.1 hcs
    cases hcs
    exact cons hc (ih hds)

/-- A new scope is no scope that was there before. -/
theorem newScope (s : Store) (parent : Option ScopeId) : s.Spares [] (s.newScope parent).2 :=
  (nil s).withScopes (g := (·.push { parent })) fun _ he => scope_newScope_of_lt he

theorem callScope {m : Machine} {f : Closure} {e : ScopeId} (hargs : args.length = f.params.length)
    (h : m.callScope f args s = some (e, t)) : s.Spares args t := by
  rw [callScope_eq_mapM, List.take_of_length_le (l := args) (by omega)] at h
  obtain ⟨⟨cs, x⟩, hcs, h⟩ := Option.map_eq_some_iff.1 h
  obtain ⟨-, ht⟩ := Prod.mk.inj h
  have hx : x.scopes = s.scopes := scopes_mapM_copy hcs
  obtain ⟨g, hg⟩ := defineAll_eq_withScopes (s := (x.newScope (some f.scope)).2) (e := ⟨s.scopes.size⟩)
    (l := (f.params.take (min f.params.length args.length)).zip cs)
  have hscopes : t = x.withScopes fun scopes => g (scopes.push { parent := some f.scope }) := ht.symm.trans hg
  rw [hscopes]
  refine (of_mapM hcs).withScopes fun d hd => ?_
  rw [← hscopes, ← ht, scope_defineAll_of_ne (by rintro rfl; exact Nat.lt_irrefl _ hd), scope_newScope_of_lt (hx ▸ hd),
    scope, scope, hx]

end Store.Spares

/-- The machine and the notes are as they were, and the store is but for these marks. -/
structure World.Spares (w : World ω) (vs : List Value) (u : World ω) : Prop where
  machine : u.machine = w.machine
  notes : u.notes = w.notes
  store : w.store.Spares vs u.store

namespace Eval

variable {w : World ω} {host : Host ω} {caller : ScopeId} {callee : Value}

theorem runOn_mapM_bound (args : List Value) : (∀ cs t, args.mapM copy w.store = some (cs, t) →
    (args.mapM bound).runOn w = (some (.ok cs), { w with store := t })) ∧
      (args.mapM copy w.store = none → ((args.mapM bound).runOn w).1 = none) := by
  induction args generalizing w with
  | nil => exact ⟨fun cs t h => by cases h; rfl, nofun⟩
  | cons v args ih =>
    rw [mapM_walk_cons, List.mapM_cons, runOn_bind, runOn_bound]
    cases hc : w.store.copy v with
    | none => exact ⟨nofun, fun _ => rfl⟩
    | some p =>
      obtain ⟨hsome, hnone⟩ := ih (w := { w with store := p.2 })
      simp only [Option.bind_some, runOn_bind]
      cases hcs : args.mapM copy p.2 with
      | none =>
        refine ⟨nofun, fun _ => ?_⟩
        rcases hrun : (args.mapM bound).runOn { w with store := p.2 } with ⟨r, u⟩
        have hr : r = none := by simpa [hrun] using hnone hcs
        simp [hr]
      | some q =>
        refine ⟨fun cs t h => ?_, nofun⟩
        cases h
        rw [hsome _ _ hcs]
        rfl

/-! ## Signals of calls -/

/-- A walk over the store ends with a value, if it ends. -/
theorem walk_ne_error {g : StateT Store Option α} {e : Signal} : ((Eval.walk g).runOn w).1 ≠ some (.error e) := by
  rw [runOn_walk]
  cases g w.store <;> nofun

theorem handBack_ne_error {e : Signal} : ((Eval.handBack v).runOn w).1 ≠ some (.error e) := by
  unfold Eval.handBack
  rw [runOn_get_bind]
  exact walk_ne_error

/-- Code that raises no signal but faults. -/
def OnlyFaults (x : Eval (World ω) α) : Prop := ∀ w e u, x.runOn w = (some (.error e), u) → ∃ f, e = .error f

namespace OnlyFaults

variable {x : Eval (World ω) α} {k : α → Eval (World ω) β}

theorem orFault {r : Except Fault α} : OnlyFaults (Eval.orFault r : Eval (World ω) α) := by
  intro w e u h
  cases r with
  | ok a => cases h
  | error f =>
    cases h
    exact ⟨f, rfl⟩

theorem closeCall {r : Outcome} : OnlyFaults (ofExcept r.closeCall : Eval (World ω) Value) := by
  intro w e u h
  rcases r with ⟨v | v | _ | f⟩ | v
  all_goals
    cases h
    try exact ⟨_, rfl⟩

theorem walk {g : StateT Store Option α} : OnlyFaults (Eval.walk g : Eval (World ω) α) := by
  intro w e u h
  exact absurd (congrArg Prod.fst h) walk_ne_error

theorem bind (hx : OnlyFaults x) (hk : ∀ a, OnlyFaults (k a)) : OnlyFaults (x >>= k) := by
  intro w e u h
  rw [runOn_bind] at h
  rcases hrun : x.runOn w with ⟨_ | e' | a, t⟩ <;> rw [hrun] at h
  · cases h
  · cases h
    exact hx w e u hrun
  · exact hk a t e u h

theorem get_bind {k : World ω → Eval (World ω) β} (hk : ∀ w, OnlyFaults (k w)) : OnlyFaults (get >>= k) := by
  intro w e u h
  rw [runOn_get_bind] at h
  exact hk w w e u h

theorem handBack {v : Value} : OnlyFaults (Eval.handBack v : Eval (World ω) Value) := .get_bind fun _ => .walk

theorem calling {body : Eval (World ω) Value} : OnlyFaults (Eval.calling body) := by
  intro w e u h
  rw [runOn_calling] at h
  cases hm : w.machine.enter with
  | error f =>
    rw [hm] at h
    cases h
    exact ⟨f, rfl⟩
  | ok m =>
    rw [hm] at h
    simp only at h
    rcases hrun : body.runOn { w with machine := m } with ⟨_ | r, t⟩ <;> rw [hrun] at h <;> cases h

end OnlyFaults

theorem onlyFaults_applyClosure (host : Host ω) (f : Closure) (args : List Value) : OnlyFaults (applyClosure host f args) :=
  OnlyFaults.orFault.bind fun _ => .get_bind fun _ => OnlyFaults.walk.bind fun _ =>
    OnlyFaults.calling.bind fun _ => OnlyFaults.closeCall.bind fun _ => .handBack

section Called

variable {m : Machine} {e : Signal}

theorem applyUnderline_nil (host : Host ω) (g : Underline) : applyUnderline host g [] = (do
    let e ← change (·.newScope (some g.scope))
    counted (bareBlock (host.runBody g.body e))) := rfl

/-- A bare block that is called ends as its body does, with an out as its value. -/
theorem runOn_applyUnderline {g : Underline} (hm : w.machine.enter = .ok m) : ((applyUnderline host g []).runOn w).1 =
    ((host.runBody g.body ⟨w.store.scopes.size⟩).runOn
      { w with store := (w.store.newScope (some g.scope)).2, machine := m }).1.map Outcome.closeBlock := by
  rw [applyUnderline_nil, runOn_bind, runOn_change]
  simp only [runOn_counted, hm, runOn_bareBlock]
  change _ = Option.map _ (((host.runBody g.body (w.store.newScope (some g.scope)).1).runOn _).1)
  rcases (host.runBody g.body (w.store.newScope (some g.scope)).1).runOn
    { w with store := (w.store.newScope (some g.scope)).2, machine := m } with ⟨_ | r, u⟩ <;> rfl

theorem closeBlock_eq_error {r : Outcome} : r.closeBlock = .error e ↔ r = .error e ∧ ∀ v, e ≠ .out v := by
  rcases r with ⟨v | v | _ | f⟩ | v <;> cases e <;> simp [Outcome.closeBlock]

theorem applyUnderline_ne_out {g : Underline} {args : List Value} (v : Value) :
    ((applyUnderline host g args).runOn w).1 ≠ some (.error (.out v)) := by
  by_cases hargs : args = []
  · subst hargs
    cases hm : w.machine.enter with
    | error x =>
      rw [applyUnderline_nil, runOn_bind, runOn_change]
      simp [runOn_counted, hm]
    | ok m =>
      rw [runOn_applyUnderline hm, ne_eq, Option.map_eq_some_iff]
      rintro ⟨r, -, hr⟩
      exact (closeBlock_eq_error.1 hr).2 v rfl
  · unfold applyUnderline
    rw [if_pos hargs]
    nofun

/-- A native that is called raises the signals that it raises. -/
theorem runOn_applyNative_eq_error {n : Native} {t : Store} (hm : w.machine.enter = .ok m)
    (hcs : args.mapM copy w.store = some (cs, t)) : ((applyNative host n caller args).runOn w).1 = some (.error e) ↔
      ((host.runNative n caller cs).runOn t).1 = some (.error e) := by
  unfold applyNative
  rw [runOn_bind, (runOn_mapM_bound args).1 cs t hcs]
  simp only [runOn_bind, runOn_calling, hm]
  have hstore : (onStore (host.runNative n caller cs)).runOn { w with store := t, machine := m } =
      (((host.runNative n caller cs).runOn t).1,
        { w with store := ((host.runNative n caller cs).runOn t).2, machine := m }) := rfl
  rw [hstore]
  rcases (host.runNative n caller cs).runOn t with ⟨_ | e' | v, u⟩
  · simp
  · simp
  · simp only [Option.map_some, runOn_ofExcept, Option.some.injEq, reduceCtorEq, iff_false]
    exact handBack_ne_error

end Called

/-! ## Refused calls -/

section Refused

variable {x : Fault}

theorem refused_applyClosure {f : Closure} {r : Outcome} {u : World ω} (hargs : args.length = f.params.length)
    (hm : w.machine.enter = .error x) (hrun : (applyClosure host f args).runOn w = (some r, u)) :
    r = .error (.error x) ∧ w.Spares args u := by
  unfold applyClosure Closure.checkArity at hrun
  rw [if_pos hargs, orFault_ok, pure_bind, runOn_get_bind, runOn_bind, runOn_walk] at hrun
  cases hscope : w.machine.callScope f args w.store with
  | none =>
    rw [hscope] at hrun
    cases hrun
  | some p =>
    rw [hscope] at hrun
    simp only [runOn_bind, runOn_calling, hm] at hrun
    cases hrun
    exact ⟨rfl, rfl, rfl, .callScope hargs hscope⟩

theorem refused_applyUnderline {g : Underline} {r : Outcome} {u : World ω} (hm : w.machine.enter = .error x)
    (hrun : (applyUnderline host g []).runOn w = (some r, u)) : r = .error (.error x) ∧ w.Spares [] u := by
  rw [applyUnderline_nil, runOn_bind, runOn_change] at hrun
  simp only [runOn_counted, hm] at hrun
  cases hrun
  exact ⟨rfl, rfl, rfl, .newScope w.store _⟩

theorem refused_applyNative {n : Native} {r : Outcome} {u : World ω} (hm : w.machine.enter = .error x)
    (hrun : (applyNative host n caller args).runOn w = (some r, u)) : r = .error (.error x) ∧ w.Spares args u := by
  unfold applyNative at hrun
  rw [runOn_bind] at hrun
  cases hcs : args.mapM copy w.store with
  | none =>
    have hnone := (runOn_mapM_bound args).2 hcs
    rcases hbound : (args.mapM bound).runOn w with ⟨_ | q, t⟩ <;> rw [hbound] at hrun hnone
    · cases hrun
    · cases hnone
  | some p =>
    rw [(runOn_mapM_bound args).1 p.1 p.2 hcs] at hrun
    simp only [runOn_bind, runOn_calling, hm] at hrun
    cases hrun
    exact ⟨rfl, rfl, rfl, .of_mapM hcs⟩

end Refused

end Eval

/-- What a call ends with, and what becomes of the world when it is refused. -/
structure CallOutcome (host : Host ω) (callee : Value) (caller : ScopeId) (args : List Value) (w : World ω) : Prop where
  /-- A function ends with a value or a fault. -/
  function : ∀ f, w.store.callee callee = .function f → ∀ r u, (Eval.apply host callee caller args).runOn w = (some r, u) →
    (∃ v, r = .ok v) ∨ ∃ x, r = .error (.error x)
  underline : ∀ g, w.store.callee callee = .underline g →
    ∀ v, ((Eval.apply host callee caller args).runOn w).1 ≠ some (.error (.out v))
  /-- Any other signal of an underline is that of its body, which is run one call deeper in a new scope. -/
  underlineSignal : ∀ g m, w.store.callee callee = .underline g → args = [] → w.machine.enter = .ok m →
    ∀ e, (∀ v, e ≠ .out v) → (((Eval.apply host callee caller args).runOn w).1 = some (.error e) ↔
      ((host.runBody g.body ⟨w.store.scopes.size⟩).runOn
        { w with store := (w.store.newScope (some g.scope)).2, machine := m }).1 = some (.error e))
  /-- The signals of a native, which is given copies of the arguments, are those of the call. -/
  nativeSignal : ∀ n m cs t, w.store.callee callee = .native n → w.machine.enter = .ok m →
    args.mapM copy w.store = some (cs, t) → ∀ e, ((Eval.apply host callee caller args).runOn w).1 = some (.error e) ↔
      ((host.runNative n caller cs).runOn t).1 = some (.error e)
  /-- Anything else is refused at once. -/
  notCallable : (w.store.callee callee).isCallable = false → (Eval.apply host callee caller args).runOn w =
    (some (.error (.error (.notCallable (w.store.callee callee).kind))), w)
  /-- A reference leads to nothing if its entry has no value or has been removed. -/
  unset : ∀ slot index constant, callee = .ref slot index constant → w.store.slotValue? slot = none →
    (Eval.apply host callee caller args).runOn w = (some (.error (.error (.notCallable .void))), w)
  /-- Of a chain of references only the first is followed. -/
  chain : ∀ slot index constant slot' index' constant', callee = .ref slot index constant →
    w.store.slotValue? slot = some (.ref slot' index' constant') →
      (Eval.apply host callee caller args).runOn w = (some (.error (.error (.notCallable .reference))), w)
  functionArity : ∀ f, w.store.callee callee = .function f → args.length ≠ f.params.length →
    (Eval.apply host callee caller args).runOn w =
      (some (.error (.error (.arityMismatch f.params.length args.length))), w)
  underlineArity : ∀ g, w.store.callee callee = .underline g → args ≠ [] →
    (Eval.apply host callee caller args).runOn w = (some (.error (.error (.arityMismatch 0 args.length))), w)
  /-- At the limit the arguments are copied, if they can be, and nothing is run. -/
  limit : w.store.Accepts callee args → w.machine.policy.maxCallDepth ≤ w.machine.depth →
    (w.store.Binds args → ((Eval.apply host callee caller args).runOn w).1.isSome) ∧
      ∀ r u, (Eval.apply host callee caller args).runOn w = (some r, u) →
        r = .error (.error (.callDepthExceeded w.machine.policy.maxCallDepth)) ∧ w.Spares args u ∧
          ∀ host', (Eval.apply host' callee caller args).runOn w = (some r, u)

section

variable {w : World ω} {host : Host ω} {caller : ScopeId} {callee : Value}

theorem apply_notCallable (h : (w.store.callee callee).isCallable = false) :
    (Eval.apply host callee caller args).runOn w =
      (some (.error (.error (.notCallable (w.store.callee callee).kind))), w) := by
  unfold Eval.apply
  rw [Eval.runOn_get_bind]
  split
  · next f hf => rw [hf] at h; cases h
  · next g hg => rw [hg] at h; cases h
  · next n hn => rw [hn] at h; cases h
  · rfl

theorem apply_functionArity {f : Closure} (hf : w.store.callee callee = .function f) (hargs : args.length ≠ f.params.length) :
    (Eval.apply host callee caller args).runOn w =
      (some (.error (.error (.arityMismatch f.params.length args.length))), w) := by
  unfold Eval.apply
  rw [Eval.runOn_get_bind, hf]
  simp only [Eval.applyClosure, Closure.checkArity, if_neg hargs]
  rfl

theorem apply_underlineArity {g : Underline} (hg : w.store.callee callee = .underline g) (hargs : args ≠ []) :
    (Eval.apply host callee caller args).runOn w = (some (.error (.error (.arityMismatch 0 args.length))), w) := by
  unfold Eval.apply
  rw [Eval.runOn_get_bind, hg]
  simp only [Eval.applyUnderline, if_pos hargs]
  rfl

theorem refused_apply {r : Outcome} {u : World ω} {x : Fault} (h : w.store.Accepts callee args)
    (hm : w.machine.enter = .error x) (hrun : (Eval.apply host callee caller args).runOn w = (some r, u)) :
    r = .error (.error x) ∧ w.Spares args u := by
  unfold Eval.apply at hrun
  rw [Eval.runOn_get_bind] at hrun
  unfold Store.Accepts at h
  cases hf : w.store.callee callee with
  | function f =>
    rw [hf] at h hrun
    exact Eval.refused_applyClosure h hm hrun
  | underline g =>
    rw [hf] at h hrun
    subst h
    exact Eval.refused_applyUnderline hm hrun
  | native n =>
    rw [hf] at hrun
    exact Eval.refused_applyNative hm hrun
  | _ =>
    rw [hf] at h
    exact h.elim

end

/-- What every call ends with, whatever its host does. -/
theorem call_outcomes (host : Host ω) (callee : Value) (caller : ScopeId) (args : List Value) (w : World ω) :
    CallOutcome host callee caller args w where
  function f hf r u hrun := by
    unfold Eval.apply at hrun
    rw [Eval.runOn_get_bind, hf] at hrun
    rcases r with e | v
    · obtain ⟨x, rfl⟩ := Eval.onlyFaults_applyClosure host f args w e u hrun
      exact .inr ⟨x, rfl⟩
    · exact .inl ⟨v, rfl⟩
  underline g hg v := by
    unfold Eval.apply
    rw [Eval.runOn_get_bind, hg]
    exact Eval.applyUnderline_ne_out v
  underlineSignal g m hg hargs hm e he := by
    subst hargs
    unfold Eval.apply
    rw [Eval.runOn_get_bind, hg]
    simp only [Eval.runOn_applyUnderline hm, Option.map_eq_some_iff, Eval.closeBlock_eq_error]
    refine ⟨?_, fun h => ⟨_, h, rfl, he⟩⟩
    rintro ⟨r, hr, rfl, -⟩
    exact hr
  nativeSignal n m cs t hn hm hcs e := by
    unfold Eval.apply
    rw [Eval.runOn_get_bind, hn]
    exact Eval.runOn_applyNative_eq_error hm hcs
  notCallable := apply_notCallable
  unset slot index constant hcallee hnone := by
    have hvoid : w.store.callee callee = .void := by rw [hcallee, Store.callee, hnone]; rfl
    rw [apply_notCallable (by rw [hvoid]; rfl), hvoid]
    rfl
  chain slot index constant slot' index' constant' hcallee hsome := by
    have href : w.store.callee callee = .ref slot' index' constant' := by rw [hcallee, Store.callee, hsome]; rfl
    rw [apply_notCallable (by rw [href]; rfl), href]
    rfl
  functionArity _ := apply_functionArity
  underlineArity _ := apply_underlineArity
  limit haccepts hlimit := by
    have hm : w.machine.enter = .error (.callDepthExceeded w.machine.policy.maxCallDepth) := by
      rw [Machine.enter, if_pos hlimit]
    refine ⟨fun hbinds => ?_, fun r u hrun => ?_⟩
    · obtain ⟨part, rest, u, hu, -, hcall⟩ := exists_calling caller haccepts hbinds
      rw [hcall, Eval.runOn_bind, Eval.runOn_calling, hu, hm]
      rfl
    · obtain ⟨hr, hspares⟩ := refused_apply haccepts hm hrun
      refine ⟨hr, hspares, fun host' => ?_⟩
      rw [← hrun]
      exact apply_congr fun m hm' => by rw [hm] at hm'; cases hm'

/-- A call at the limit takes the mark of its argument, although it is refused. -/
theorem call_outcomes_limit :
    let w : World Unit := {
      store := { arrays := #[{ elements := #[.int 1], marked := true }], scopes := #[{}] }
      machine := { policy := { maxCallDepth := 0 } }
      notes := () }
    let f : Value := .function ⟨["a"], ⟨0, 1⟩, ⟨0⟩⟩
    w.store.Accepts f [.array ⟨0⟩] ∧ w.store.isMarked (.array ⟨0⟩) = true ∧
      ∀ host : Host Unit, ∃ u, (Eval.apply host f ⟨0⟩ [.array ⟨0⟩]).runOn w =
        (some (.error (.error (.callDepthExceeded 0))), u) ∧
          u.store.isMarked (.array ⟨0⟩) = false ∧ (u.store.array ⟨0⟩).elements = #[.int 1] := by
  intro w f
  have haccepts : w.store.Accepts f [.array ⟨0⟩] := by change [_].length = ["a"].length; rfl
  have hs : w.store.WellFormed := by decide +kernel
  have ha : w.store.Acyclic := by decide +kernel
  have hknows : w.store.Knows (.array ⟨0⟩) := by decide
  have hbinds : w.store.Binds [.array ⟨0⟩] :=
    ⟨hs, fun v hv => by rw [List.mem_singleton.1 hv]; exact hknows, fun v _ => ha.grounded v⟩
  refine ⟨haccepts, by decide, fun host => ?_⟩
  obtain ⟨hends, hlimit⟩ := (call_outcomes host f ⟨0⟩ [.array ⟨0⟩] w).limit haccepts (Nat.le_refl 0)
  rcases hrun : (Eval.apply host f ⟨0⟩ [.array ⟨0⟩]).runOn w with ⟨_ | r, u⟩
  · have hends := hends hbinds
    rw [hrun] at hends
    cases hends
  · obtain ⟨rfl, hspares, -⟩ := hlimit r u hrun
    refine ⟨u, rfl, ?_, hspares.store.stays.sameAt _ hknows⟩
    rw [Bool.eq_false_iff, ne_eq, hspares.store.marks]
    simp

end CopyOnBind
