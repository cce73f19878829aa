import CopyOnBind.Proofs.Reads
import CopyOnBind.Proofs.TidyRuns
/-!
# Two runs side by side

`Mirrors` says of two evaluations, the first without copy elision and the
second with it, that the second one follows the first: if the first ends, so
does the second, in the same way, in worlds with linked stores. This is so as
long as no result of a call changes while it waits for other operands; the
moments at which all operands have their values are noted in the first run, and
`Settled` asks these notes.
-/

namespace CopyOnBind.Kernel

open Store

variable {α β γ δ : Type} {s₀ s t : Store} {w w' u u' : World Trace} {v v' : Value}

/-! ## Notes -/

/-- No result of a call changed while it waited for others. -/
def Settled (notes : Trace) : Prop :=
  ∀ results s, (.ready results, s) ∈ notes → ∀ v t, (v, t) ∈ results → s.content v = t.content v

theorem Settled.of_append {l l' : Trace} (h : Settled (l ++ l')) : Settled l :=
  fun results s hm => h results s (List.mem_append_left l' hm)

/-- The evaluation notes more, and forgets nothing. -/
class Grows (x : Run Trace α) : Prop where
  grows : ∀ w, ∃ l, (x.runOn w).2.notes = w.notes ++ l

namespace Grows

theorem of_notes {x : Run Trace α} (h : ∀ w, (x.runOn w).2.notes = w.notes) : Grows x :=
  ⟨fun w => ⟨[], by rw [h, List.append_nil]⟩⟩

theorem of_get {f : World Trace → Run Trace α} (h : ∀ w, Grows (f w)) : Grows (get >>= f) :=
  ⟨fun w => by rw [Eval.runOn_get_bind]; exact (h w).grows w⟩

instance {a : α} : Grows (pure a : Run Trace α) := of_notes fun _ => rfl

instance {e : Signal} : Grows (throw e : Run Trace α) := of_notes fun _ => rfl

instance {f : Fault} : Grows (Eval.fault f : Run Trace α) := of_notes fun _ => rfl

instance {text : String} : Grows (fault text : Run Trace α) := of_notes fun _ => rfl

instance {r : Except Signal α} : Grows (Eval.ofExcept r : Run Trace α) := of_notes fun _ => rfl

instance : Grows (Eval.unfinished : Run Trace α) := of_notes fun _ => rfl

instance : Grows (get : Run Trace (World Trace)) := of_notes fun _ => rfl

instance {m : Moment} : Grows (observe record m) := ⟨fun w => ⟨[(m, w.store)], rfl⟩⟩

instance {f : Store → α × Store} : Grows (Eval.change f : Run Trace α) := of_notes fun _ => rfl

instance {x : StateT Store Option α} : Grows (Eval.walk x : Run Trace α) :=
  of_notes fun w => by rw [Eval.runOn_walk]; split <;> rfl

instance {x : Eval Store α} : Grows (Eval.onStore x : Run Trace α) := of_notes fun _ => rfl

instance bind {x : Run Trace α} {f : α → Run Trace β} [hx : Grows x] [hf : ∀ a, Grows (f a)] : Grows (x >>= f) := by
  refine ⟨fun w => ?_⟩
  obtain ⟨l, hl⟩ := hx.grows w
  rw [Eval.runOn_bind]
  rcases hrun : x.runOn w with ⟨_ | e | a, u⟩ <;> rw [hrun] at hl
  · exact ⟨l, hl⟩
  · exact ⟨l, hl⟩
  · obtain ⟨l', hl'⟩ := (hf a).grows u
    exact ⟨l ++ l', by rw [hl', hl, List.append_assoc]⟩

instance outcome {x : Run Trace α} [hx : Grows x] : Grows x.outcome :=
  ⟨fun w => by rw [Eval.runOn_outcome]; exact hx.grows w⟩

instance mapM {f : α → Run Trace β} [hf : ∀ a, Grows (f a)] (l : List α) : Grows (l.mapM f) := by
  induction l with
  | nil => exact inferInstanceAs (Grows (pure []))
  | cons a l ih =>
    rw [List.mapM_cons]
    infer_instance

instance foldlM {f : β → α → Run Trace β} [hf : ∀ b a, Grows (f b a)] (l : List α) (b : β) : Grows (l.foldlM f b) := by
  induction l generalizing b with
  | nil => exact inferInstanceAs (Grows (pure b))
  | cons a l ih =>
    rw [List.foldlM_cons]
    infer_instance

instance {v : Value} : Grows (wantInt v : Run Trace Int64) := by
  unfold wantInt
  split <;> infer_instance

instance {v : Value} : Grows (wantBool v : Run Trace Bool) := by
  unfold wantBool
  split <;> infer_instance

instance {v : Value} : Grows (wantArray v : Run Trace ArrayId) := by
  unfold wantArray
  split <;> infer_instance

instance {f : Store → Option α} : Grows (Eval.examine f : Run Trace α) :=
  of_get fun w => by
    cases f w.store with
    | none => exact inferInstanceAs (Grows Eval.unfinished)
    | some a => exact inferInstanceAs (Grows (pure a))

instance {v : Value} : Grows (Eval.bound v : Run Trace Value) := of_get fun _ => inferInstance

instance {v : Value} : Grows (Eval.handBack v : Run Trace Value) := of_get fun _ => inferInstance

instance {r : Except Fault α} : Grows (Eval.orFault r : Run Trace α) := of_notes fun _ => rfl

instance {body : Run Trace Value} [hb : Grows body] : Grows (Eval.calling body) := by
  refine ⟨fun w => ?_⟩
  rw [Eval.runOn_calling]
  cases w.machine.enter with
  | error f => exact ⟨[], by simp⟩
  | ok m =>
    obtain ⟨l, hl⟩ := hb.grows { w with machine := m }
    refine ⟨l, ?_⟩
    rcases hrun : body.runOn { w with machine := m } with ⟨_ | r, u⟩ <;> simp only [hrun] at hl ⊢ <;> exact hl

instance {body : Run Trace Value} [Grows body] : Grows (Eval.bareBlock body) :=
  inferInstanceAs (Grows (body.outcome >>= fun r => Eval.ofExcept (Outcome.closeBlock r)))

instance {e : ScopeId} {x : String} {v : Value} : Grows (define e x v : Run Trace Value) :=
  of_notes fun w => by rw [runOn_define]; split <;> rfl

instance {e : ScopeId} {x : String} {v : Value} : Grows (assign e x v : Run Trace Value) :=
  of_notes fun w => by rw [runOn_assign]; split <;> rfl

instance {e : ScopeId} {x : String} {v : Value} : Grows (push e x v : Run Trace Value) := by
  apply of_notes
  intro w
  rw [runOn_push]
  split
  · rfl
  · split
    · rfl
    · split <;> rfl
    · rfl
  · rfl

instance {eval : Expr → Run Trace Value} [∀ a, Grows (eval a)] {a : Expr} : Grows (operand eval a) := by
  unfold operand
  infer_instance

instance ite {c : Prop} [Decidable c] {x y : Run Trace α} [Grows x] [Grows y] : Grows (if c then x else y) := by
  split <;> infer_instance

instance {again : Run Trace Value} [Grows again] {r : Outcome} : Grows (nextRound again r) := by
  unfold nextRound
  split <;> infer_instance

instance whileLoop {cond : Run Trace Bool} {body : Run Trace Value} [Grows cond] [Grows body] (n : Nat) :
    Grows (whileLoop cond body n) := by
  induction n with
  | zero => exact inferInstanceAs (Grows Eval.unfinished)
  | succ n ih =>
    rw [whileLoop_succ]
    infer_instance

/-! ### Calls and programs -/

variable {host : Host Trace} [∀ b e, Grows (host.runBody b e)]

instance {f : Closure} {args : List Value} : Grows (Eval.applyClosure host f args) := by
  unfold Eval.applyClosure
  infer_instance

instance {f : Underline} {args : List Value} : Grows (Eval.applyUnderline host f args) := by
  unfold Eval.applyUnderline
  split <;> infer_instance

instance {n : Native} {e : ScopeId} {args : List Value} : Grows (Eval.applyNative host n e args) := by
  unfold Eval.applyNative
  infer_instance

instance {f : Value} {e : ScopeId} {args : List Value} : Grows (Eval.apply host f e args) := by
  apply of_get
  intro w
  split <;> infer_instance

theorem code (p : Program) (n : Nat) : (∀ e a, Grows (evalExpr p record n e a)) ∧
    (∀ e a, Grows (execStmt p record n e a)) ∧ ∀ e stmts, Grows (execBlock p record n e stmts) := by
  induction n with
  | zero =>
    have h : Grows (Eval.unfinished : Run Trace Value) := inferInstance
    exact ⟨fun _ _ => h, fun _ _ => h, fun _ _ => h⟩
  | succ n ih =>
    obtain ⟨hexpr, hstmt, hblock⟩ := ih
    refine ⟨fun e a => ?_, fun e a => ?_, fun e stmts => ?_⟩
    · -- the other expressions are made of operations that have instances
      cases a with
      | int k => exact inferInstanceAs (Grows (pure (Value.int k)))
      | name x =>
        apply of_get
        intro w
        split <;> infer_instance
      | call f args =>
        have : ∀ b e, Grows ((p.host (execBlock p record n)).runBody b e) := fun b e => hblock e (p.code b)
        unfold evalExpr
        infer_instance
      | length a =>
        unfold evalExpr
        infer_instance
      | _ =>
        unfold evalExpr
        infer_instance
    · cases a with
      | _ =>
        unfold execStmt
        infer_instance
    · unfold execBlock Eval.block
      infer_instance

instance {p : Program} {n : Nat} {e : ScopeId} {a : Expr} : Grows (evalExpr p record n e a) := (code p n).1 e a

instance {p : Program} {n : Nat} {e : ScopeId} {a : Stmt} : Grows (execStmt p record n e a) := (code p n).2.1 e a

instance {p : Program} {n : Nat} {e : ScopeId} {stmts : List Stmt} : Grows (execBlock p record n e stmts) :=
  (code p n).2.2 e stmts

instance {p : Program} {n : Nat} {b : Body} {e : ScopeId} : Grows ((p.host (execBlock p record n)).runBody b e) :=
  (code p n).2.2 e (p.code b)

end Grows

/-! ## Worlds side by side -/

/-- Two worlds of which only the second elides copies. -/
structure Beside (s₀ : Store) (w w' : World Trace) : Prop where
  linked : Linked s₀ w.store w'.store
  off : w.machine.policy.copyElision = false
  on : w'.machine.policy.copyElision = true
  limit : w'.machine.policy.maxCallDepth = w.machine.policy.maxCallDepth
  depth : w'.machine.depth = w.machine.depth

/-- The worlds come after worlds with the stores `s` and `t`: what were twins there are twins. -/
structure Since (s₀ s t : Store) (w w' : World Trace) : Prop extends Beside s₀ w w' where
  twin : ∀ v v', Twin s₀ s t v v' → Twin s₀ w.store w'.store v v'

/-- Signals that carry given values. -/
inductive Signals (s₀ s t : Store) : Signal → Signal → Prop
  | ret (v v' : Value) : Given s₀ s t v v' → Signals s₀ s t (.ret v) (.ret v')
  | out (v v' : Value) : Given s₀ s t v v' → Signals s₀ s t (.out v) (.out v')
  | jump : Signals s₀ s t .jump .jump
  | error (f : Fault) : Signals s₀ s t (.error f) (.error f)

/-- Evaluations end in the same way. -/
inductive Ends (s₀ : Store) (R : α → β → Prop) (s t : Store) : Except Signal α → Except Signal β → Prop
  | ok (a : α) (b : β) : R a b → Ends s₀ R s t (.ok a) (.ok b)
  | signal (e e' : Signal) : Signals s₀ s t e e' → Ends s₀ R s t (.error e) (.error e')

/-- The second evaluation ends as the first does, if the notes of the first are settled. -/
def Mirrors (s₀ s t : Store) (x : Run Trace α) (y : Run Trace β) (w w' : World Trace)
    (R : α → β → World Trace → World Trace → Prop) : Prop :=
  ∀ r u, x.runOn w = (some r, u) → Settled u.notes → ∃ r' u', y.runOn w' = (some r', u') ∧ Since s₀ s t u u' ∧
    Ends s₀ (fun a b => R a b u u') u.store u'.store r r'

/-- The values, too, are of one content. -/
def Gives (s₀ : Store) (v v' : Value) (u u' : World Trace) : Prop := Given s₀ u.store u'.store v v'

theorem given_simple (hv : v.isSimple) (hp : v.eqFlat v = true) : Given s₀ s t v v := .inl (.paired v v (paired_simple hv hp))

namespace Since

theorem start (h : Beside s₀ w w') : Since s₀ w.store w'.store w w' := ⟨h, fun _ _ hv => hv⟩

/-- Later stores of the same machines. -/
theorem next (h : Since s₀ s t w w') (hm : u.machine = w.machine) (hm' : u'.machine = w'.machine)
    (hl : Linked s₀ u.store u'.store)
    (hT : ∀ v v', Twin s₀ w.store w'.store v v' → Twin s₀ u.store u'.store v v') : Since s₀ s t u u' where
  linked := hl
  off := hm ▸ h.off
  on := hm' ▸ h.on
  limit := hm ▸ hm' ▸ h.limit
  depth := hm ▸ hm' ▸ h.depth
  twin v v' hv := hT v v' (h.twin v v' hv)

end Since

namespace Mirrors

variable {x : Run Trace α} {y : Run Trace β} {f : α → Run Trace γ} {g : β → Run Trace δ}
  {P Q : α → β → World Trace → World Trace → Prop} {R : γ → δ → World Trace → World Trace → Prop}

theorem of_ok {a : α} {b : β} (hx : x.runOn w = (some (.ok a), u)) (hy : y.runOn w' = (some (.ok b), u'))
    (h : Since s₀ s t u u') (hP : P a b u u') : Mirrors s₀ s t x y w w' P := by
  intro r v hrun _
  cases hx.symm.trans hrun
  exact ⟨_, u', hy, h, .ok a b hP⟩

theorem of_error {e e' : Signal} (hx : x.runOn w = (some (.error e), u)) (hy : y.runOn w' = (some (.error e'), u'))
    (h : Since s₀ s t u u') (he : Signals s₀ u.store u'.store e e') : Mirrors s₀ s t x y w w' P := by
  intro r v hrun _
  cases hx.symm.trans hrun
  exact ⟨_, u', hy, h, .signal e e' he⟩

theorem of_none (hx : x.runOn w = (none, u)) : Mirrors s₀ s t x y w w' P := by
  intro r v hrun
  cases hx.symm.trans hrun

theorem pure {a : α} {b : β} (h : Since s₀ s t w w') (hP : P a b w w') : Mirrors s₀ s t (pure a) (pure b) w w' P :=
  of_ok (Eval.runOn_pure a w) (Eval.runOn_pure b w') h hP

theorem throw {e e' : Signal} (h : Since s₀ s t w w') (he : Signals s₀ w.store w'.store e e') :
    Mirrors s₀ s t (throw e : Run Trace α) (throw e' : Run Trace β) w w' P :=
  of_error (Eval.runOn_throw e w) (Eval.runOn_throw e' w') h he

theorem fault {f : Fault} (h : Since s₀ s t w w') :
    Mirrors s₀ s t (Eval.fault f : Run Trace α) (Eval.fault f : Run Trace β) w w' P :=
  throw h (.error f)

theorem unfinished : Mirrors s₀ s t (Eval.unfinished : Run Trace α) y w w' P :=
  of_none (Eval.runOn_unfinished w)

theorem congr {x₁ : Run Trace α} {y₁ : Run Trace β} (hx : x.runOn w = x₁.runOn w) (hy : y.runOn w' = y₁.runOn w')
    (h : Mirrors s₀ s t x y w w' P) : Mirrors s₀ s t x₁ y₁ w w' P := by
  simp only [Mirrors, ← hx, ← hy]
  exact h

theorem get_bind {f : World Trace → Run Trace γ} {g : World Trace → Run Trace δ}
    (h : Mirrors s₀ s t (f w) (g w') w w' R) : Mirrors s₀ s t (get >>= f) (get >>= g) w w' R :=
  congr (Eval.runOn_get_bind f).symm (Eval.runOn_get_bind g).symm h

theorem weaken (h : Mirrors s₀ s t x y w w' P) (hPQ : ∀ a b u u', P a b u u' → Q a b u u') :
    Mirrors s₀ s t x y w w' Q := by
  intro r u hrun hset
  obtain ⟨r', u', hrun', hsince, hends⟩ := h r u hrun hset
  refine ⟨r', u', hrun', hsince, ?_⟩
  cases hends with
  | ok a b hP => exact .ok a b (hPQ a b u u' hP)
  | signal e e' he => exact .signal e e' he

theorem bind [∀ a, Grows (f a)] (hx : Mirrors s₀ s t x y w w' P)
    (hf : ∀ a b u u', Since s₀ s t u u' → P a b u u' → Mirrors s₀ s t (f a) (g b) u u' R) :
    Mirrors s₀ s t (x >>= f) (y >>= g) w w' R := by
  intro r v hrun hset
  rw [Eval.runOn_bind] at hrun
  rcases hx₁ : x.runOn w with ⟨_ | e | a, u⟩ <;> rw [hx₁] at hrun
  · cases hrun
  · cases hrun
    obtain ⟨r', u', hrun', hsince, hends⟩ := hx _ _ hx₁ hset
    cases hends with
    | signal _ e' he => exact ⟨_, u', by rw [Eval.runOn_bind, hrun'], hsince, .signal e e' he⟩
  · -- the notes of the first part were settled already
    obtain ⟨l, hl⟩ := Grows.grows (x := f a) u
    simp only at hrun
    rw [hrun] at hl
    have hset' : Settled u.notes := Settled.of_append (hl ▸ hset)
    obtain ⟨r', u', hrun', hsince, hends⟩ := hx _ u hx₁ hset'
    cases hends with
    | ok _ b hP =>
      obtain ⟨r'', v', hrun'', hsince', hends'⟩ := hf a b u u' hsince hP r v hrun hset
      exact ⟨r'', v', by rw [Eval.runOn_bind, hrun']; exact hrun'', hsince', hends'⟩

/-- What holds of evaluations by themselves holds of them after others. -/
theorem since (hw : Since s₀ s t w w') (h : Mirrors s₀ w.store w'.store x y w w' P) : Mirrors s₀ s t x y w w' P := by
  intro r u hrun hset
  obtain ⟨r', u', hrun', hsince, hends⟩ := h r u hrun hset
  exact ⟨r', u', hrun', ⟨hsince.toBeside, fun v v' hv => hsince.twin v v' (hw.twin v v' hv)⟩, hends⟩

theorem outcome (h : Mirrors s₀ s t x y w w' P) : Mirrors s₀ s t x.outcome y.outcome w w' fun r r' u u' =>
    Ends s₀ (fun a b => P a b u u') u.store u'.store r r' := by
  intro r u hrun hset
  rw [Eval.runOn_outcome] at hrun
  rcases hx : x.runOn w with ⟨_ | q, v⟩ <;> rw [hx] at hrun <;> cases hrun
  obtain ⟨q', u', hrun', hsince, hends⟩ := h q _ hx hset
  exact ⟨.ok q', u', by rw [Eval.runOn_outcome, hrun']; rfl, hsince, .ok q q' hends⟩

end Mirrors

/-! ## Operations -/

section Operations

variable {e : ScopeId} {x : String}

theorem mirrors_define (hw : Since s₀ s t w w') (hv : Given s₀ w.store w'.store v v') :
    Mirrors s₀ s t (define e x v) (define e x v') w w' (Gives s₀) := by
  obtain ⟨c, c', s₁, t₁, hc, hc', h⟩ := hw.linked.copied hv
  have hx := runOn_define (v := v) (w := w) (e := e) (x := x)
  have hy := runOn_define (v := v') (w := w') (e := e) (x := x)
  simp only [hc, hc'] at hx hy
  refine .of_ok hx hy (hw.next rfl rfl ?_ fun u u' hu => ?_) (given_simple rfl rfl)
  · exact h.linked.define h.paired true
  · exact (h.twin hw.linked hu).define h.linked h.paired true (h.twin_ne hw.linked hu).1 (h.twin_ne hw.linked hu).2

theorem mirrors_assign (hw : Since s₀ s t w w') (hv : Given s₀ w.store w'.store v v') :
    Mirrors s₀ s t (assign e x v) (assign e x v') w w' (Gives s₀) := by
  obtain ⟨c, c', s₁, t₁, hc, hc', h⟩ := hw.linked.copied hv
  obtain ⟨hresult, hlinked, htwin⟩ := h.linked.assign (e := e) (x := x) h.paired
  have hx := runOn_assign (v := v) (w := w) (e := e) (x := x)
  have hy := runOn_assign (v := v') (w := w') (e := e) (x := x)
  simp only [hc, hc', hresult] at hx hy
  have hsince : Since s₀ s t { w with store := (s₁.assign e x c).2 } { w' with store := (t₁.assign e x c').2 } :=
    hw.next rfl rfl hlinked fun u u' hu =>
      htwin u u' (h.twin hw.linked hu) (h.twin_ne hw.linked hu).1 (h.twin_ne hw.linked hu).2
  cases hr : (s₁.assign e x c).1 <;> rw [hr] at hx hy
  · exact .of_error hx hy hsince (.error _)
  · exact .of_ok hx hy hsince (given_simple rfl rfl)

theorem mirrors_push (hw : Since s₀ s t w w') (hv : Given s₀ w.store w'.store v v') :
    Mirrors s₀ s t (push e x v) (push e x v') w w' (Gives s₀) := by
  have hx := runOn_push (v := v) (w := w) (e := e) (x := x)
  have hy := runOn_push (v := v') (w := w') (e := e) (x := x)
  rcases hw.linked.lookup (e := e) (x := x) with ⟨hnone, hnone'⟩ | ⟨r, z, z', hz, hz', hat, hat'⟩
  · rw [hnone] at hx
    rw [hnone'] at hy
    exact .of_error hx hy hw (.error _)
  · rw [hz] at hx
    rw [hz'] at hy
    -- what the name stands for is an array in both runs or in neither
    rcases (hw.linked.ready (hw.linked.alike_of_named hat hat')).kinds with ⟨rfl, hflat⟩ | ⟨a, a', rfl, rfl⟩ | ⟨i, i', rfl, rfl⟩
    · cases z' with
      | array a => cases hflat
      | _ => exact .of_error hx hy hw (.error _)
    · obtain ⟨c, c', s₁, t₁, hc, hc', h⟩ := hw.linked.copied hv
      have hat₁ := (at?_name_of_scopes h.off.scopes).trans hat
      have hat₁' := (at?_name_of_scopes h.on.scopes).trans hat'
      rcases hreads : w.store.copyReads v a with _ | _ | _ <;> simp only [hreads, hc] at hx
      · exact .of_none hx
      · -- a push that is carried out in the first run is so in the second
        simp only [hw.linked.copyReads hat hat' hv hreads, hc'] at hy
        refine .of_ok hx hy (hw.next rfl rfl ?_ fun u u' hu => ?_) (given_simple rfl rfl)
        · exact h.linked.push hat₁ hat₁' h.paired
        · exact (h.twin hw.linked hu).push h.linked hat₁ hat₁' h.paired (h.twin_ne hw.linked hu).1 (h.twin_ne hw.linked hu).2
      · exact .of_none hx
    · exact .of_error hx hy hw (.error _)

theorem mirrors_handBack (hw : Since s₀ s t w w') (hv : Given s₀ w.store w'.store v v') :
    Mirrors s₀ s t (Eval.handBack v) (Eval.handBack v') w w' (Gives s₀) := by
  obtain ⟨c, t₁, hc, hlinked, hgiven, htwin⟩ := hw.linked.handedBack hv
  have hx := runOn_handBack (v := v) (w := w)
  have hy := runOn_handBack (v := v') (w := w')
  rw [hw.off, if_neg (by simp)] at hx
  simp only [hw.on, if_true, hc] at hy
  exact .of_ok hx hy (hw.next rfl rfl hlinked htwin) hgiven

theorem mirrors_observe {m m' : Moment} (hw : Since s₀ s t w w') :
    Mirrors s₀ s t (observe record m) (observe record m') w w' fun _ _ u u' => u.store = w.store ∧ u'.store = w'.store :=
  .of_ok (Eval.runOn_modify _ w) (Eval.runOn_modify _ w') (hw.next rfl rfl hw.linked fun _ _ hv => hv) ⟨rfl, rfl⟩

theorem mirrors_wantInt (hw : Since s₀ s t w w') (hv : Given s₀ w.store w'.store v v') :
    Mirrors s₀ s t (wantInt v) (wantInt v') w w' fun k l _ _ => l = k := by
  rcases (hw.linked.ready_of_given hv).kinds with ⟨rfl, -⟩ | ⟨a, a', rfl, rfl⟩ | ⟨i, i', rfl, rfl⟩
  · unfold wantInt
    split
    · exact .pure hw rfl
    · exact .fault hw
  · exact .fault hw
  · exact .fault hw

theorem mirrors_wantBool (hw : Since s₀ s t w w') (hv : Given s₀ w.store w'.store v v') :
    Mirrors s₀ s t (wantBool v) (wantBool v') w w' fun a b _ _ => b = a := by
  rcases (hw.linked.ready_of_given hv).kinds with ⟨rfl, -⟩ | ⟨a, a', rfl, rfl⟩ | ⟨i, i', rfl, rfl⟩
  · unfold wantBool
    split
    · exact .pure hw rfl
    · exact .fault hw
  · exact .fault hw
  · exact .fault hw

theorem mirrors_wantArray (hw : Since s₀ s t w w') (hv : Given s₀ w.store w'.store v v') :
    Mirrors s₀ s t (wantArray v) (wantArray v') w w' fun a a' u u' => Ready u.store u'.store (.array a) (.array a') := by
  have hready := hw.linked.ready_of_given hv
  rcases hready.kinds with ⟨rfl, hflat⟩ | ⟨a, a', rfl, rfl⟩ | ⟨i, i', rfl, rfl⟩
  · cases v' with
    | array a => cases hflat
    | _ => exact .fault hw
  · exact .pure hw hready
  · exact .fault hw

end Operations

end CopyOnBind.Kernel
