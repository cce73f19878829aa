import CopyOnBind.Proofs.CallDepth
import CopyOnBind.Proofs.Reads
import CopyOnBind.Proofs.TidyRuns
/-!
# Loop-free programs

A body that is run is one call deeper than the code that called it, and calls are
refused at the limit. So a run of loop-free code takes, besides the steps for its
own parts, those for one body at every depth that is left (`Program.reserve`),
whatever closures it calls. Copies and comparisons end because stores stay tidy,
and tidy stores are acyclic; for the same reason it can be told of every push
whether it is in conflict with its own copy.
-/

namespace CopyOnBind

open Store

namespace Kernel

/-! ## Loop-free code -/

mutual

/-- There is no loop in the statement. -/
def Stmt.loopFree : Stmt → Bool
  | .cond _ yes => loopFree yes
  | .while .. => false
  | _ => true

/-- There is no loop in the statements. -/
def loopFree : List Stmt → Bool
  | [] => true
  | stmt :: stmts => stmt.loopFree && loopFree stmts

end

/-- There is no loop in any body. -/
def Program.loopFree (p : Program) : Bool := p.blocks.toList.all Kernel.loopFree

theorem loopFree_iff {code : List Stmt} : loopFree code ↔ ∀ a ∈ code, a.loopFree := by
  induction code with
  | nil => simp [loopFree]
  | cons a code ih => simp [loopFree, ih]

variable {α β γ : Type} {s₀ : Store} {p : Program} {A : List Value} {w u : World Trace} {n : Nat} {e : ScopeId} {v : Value}

theorem Program.code_eq_nil_or_mem (p : Program) (b : Body) : p.code b = [] ∨ p.code b ∈ p.blocks.toList := by
  unfold Program.code
  rw [Array.getD_eq_getD_getElem?]
  cases hb : p.blocks[b.id]? with
  | none => exact .inl rfl
  | some code => exact .inr (Array.mem_toList_iff.2 (Array.mem_of_getElem? hb))

theorem Program.loopFree_code (hp : p.loopFree) (b : Body) : Kernel.loopFree (p.code b) := by
  rcases p.code_eq_nil_or_mem b with h | h
  · rw [h]
    rfl
  · exact List.all_eq_true.1 hp _ h

/-! ## Steps -/

mutual

/-- The steps that an expression takes for its own parts. -/
def Expr.steps : Expr → Nat
  | .add a b | .less a b | .equal a b => max a.steps b.steps + 1
  | .call f args => max f.steps (stepsOfAll args) + 1
  | .array items => stepsOfAll items + 1
  | .length a => a.steps + 1
  | _ => 1

def stepsOfAll : List Expr → Nat
  | [] => 0
  | a :: l => max a.steps (stepsOfAll l)

end

mutual

/-- The steps that a statement takes for its own parts. -/
def Stmt.steps : Stmt → Nat
  | .expr a | .define _ a | .assign _ a | .push _ a | .ret a | .out a => a.steps + 1
  | .cond c code | .while c code => max c.steps (Kernel.steps code) + 1
  | _ => 1

def steps : List Stmt → Nat
  | [] => 1
  | a :: code => max (a.steps + 1) (Kernel.steps code)

end

/-- Steps that are enough for each of the bodies. -/
def Program.steps (p : Program) : Nat := p.blocks.toList.foldr (fun code n => max (Kernel.steps code) n) 1

/-- The steps to keep for the calls that the limit still allows, one inside the other. -/
def Program.reserve (p : Program) (m : Machine) : Nat := p.steps * (m.policy.maxCallDepth - m.depth)

theorem steps_le_of_mem_args {a : Expr} {l : List Expr} (ha : a ∈ l) : a.steps ≤ stepsOfAll l := by
  induction l with
  | nil => cases ha
  | cons b l ih =>
    rw [stepsOfAll]
    rcases List.mem_cons.1 ha with rfl | ha
    · exact Nat.le_max_left _ _
    · exact Nat.le_trans (ih ha) (Nat.le_max_right _ _)

theorem steps_lt_of_mem {a : Stmt} {code : List Stmt} (ha : a ∈ code) : a.steps < steps code := by
  induction code with
  | nil => cases ha
  | cons b code ih =>
    rw [steps]
    rcases List.mem_cons.1 ha with rfl | ha
    · exact Nat.le_max_left _ _
    · exact Nat.lt_of_lt_of_le (ih ha) (Nat.le_max_right _ _)

theorem Program.steps_code_le (p : Program) (b : Body) : Kernel.steps (p.code b) ≤ p.steps := by
  have hall : ∀ (l : List (List Stmt)) code, code = [] ∨ code ∈ l →
      Kernel.steps code ≤ l.foldr (fun code n => max (Kernel.steps code) n) 1 := by
    intro l
    induction l with
    | nil => exact fun code hcode => hcode.elim (fun h => h ▸ Nat.le_refl 1) nofun
    | cons c l ih =>
      rintro code (rfl | hcode)
      · exact Nat.le_trans (ih [] (.inl rfl)) (Nat.le_max_right _ _)
      · rcases List.mem_cons.1 hcode with rfl | hcode
        · exact Nat.le_max_left _ _
        · exact Nat.le_trans (ih code (.inr hcode)) (Nat.le_max_right _ _)
  exact hall _ _ (p.code_eq_nil_or_mem b)

/-- A call is given the steps for its body. -/
theorem Program.reserve_enter {m m' : Machine} (hm : m.enter = .ok m') (b : Body) :
    Kernel.steps (p.code b) + p.reserve m' ≤ p.reserve m := by
  obtain ⟨hlt, rfl⟩ := Machine.enter_eq_ok.1 hm
  have hroom : m.policy.maxCallDepth - m.depth = (m.policy.maxCallDepth - (m.depth + 1)) + 1 := by omega
  unfold Program.reserve
  rw [hroom, Nat.mul_succ, Nat.add_comm]
  exact Nat.add_le_add_left (p.steps_code_le b) _

/-! ## Code that ends -/

/-- Run in this world, the code ends or is broken off. -/
def Halts (x : Run Trace α) (w : World Trace) : Prop := (x.runOn w).1.isSome ∨ (x.runOn w).2.broken = true

namespace Halts

variable {x : Run Trace α} {f : α → Run Trace β} {P : α → World Trace → Prop}

theorem of_some {r : Except Signal α} (h : x.runOn w = (some r, u)) : Halts x w := by
  rw [Halts, h]
  exact .inl rfl

theorem pure {a : α} : Halts (pure a) w := of_some rfl

theorem throw {s : Signal} : Halts (throw s : Run Trace α) w := of_some rfl

theorem fault {g : Fault} : Halts (Eval.fault g : Run Trace α) w := of_some rfl

theorem ofExcept {r : Except Signal α} : Halts (Eval.ofExcept r) w := of_some rfl

theorem breakOff : Halts (Eval.breakOff : Run Trace α) w := .inr rfl

theorem outcome (h : Halts x w) : Halts x.outcome w := by
  simpa only [Halts, Eval.runOn_outcome, Option.isSome_map] using h

theorem congr {y : Run Trace α} (h : x.runOn w = y.runOn w) (hx : Halts x w) : Halts y w := by
  rw [Halts, ← h]
  exact hx

theorem get_bind {f : World Trace → Run Trace β} (h : Halts (f w) w) : Halts (get >>= f) w :=
  congr (Eval.runOn_get_bind f).symm h

theorem bind_run (hx : Halts x w) (hf : ∀ a u, x.runOn w = (some (.ok a), u) → Halts (f a) u) : Halts (x >>= f) w := by
  unfold Halts at hx ⊢
  rw [Eval.runOn_bind]
  rcases hrun : x.runOn w with ⟨_ | s | a, u⟩ <;> rw [hrun] at hx
  · -- what is broken off stays so
    exact .inr (hx.resolve_left nofun)
  · exact .inl rfl
  · exact hf a u hrun

theorem bind_always (hx : Halts x w) (hf : ∀ a u, Halts (f a) u) : Halts (x >>= f) w := hx.bind_run fun a u _ => hf a u

/-- What comes second is run in a tidy store, and at the same depth. -/
theorem bind (hx : Halts x w) (hs : Safely s₀ A x w P) (hm : (machineLaw Trace).Obeys x)
    (hf : ∀ a u, u.machine = w.machine → Onward s₀ A w u → P a u → Halts (f a) u) : Halts (x >>= f) w := by
  refine hx.bind_run fun a u hrun => ?_
  simp only [Safely, hrun] at hs
  exact hf a u (hm.machine hrun) hs.1 (hs.2.1 a rfl)

end Halts

/-- With the machine `m`, the code ends in every tidy store. -/
def HaltsWith (s₀ : Store) (m : Machine) (x : Run Trace α) : Prop :=
  ∀ w, s₀.Tidy w.store → w.machine = m → Halts x w

theorem halts_mapM {m : Machine} {g : γ → Run Trace α} {l : List γ} (hg : ∀ a ∈ l, HaltsWith s₀ m (g a))
    (hs : ∀ a w, s₀.Tidy w.store → Safely s₀ [] (g a) w fun _ _ => True) (hm : ∀ a, (machineLaw Trace).Obeys (g a)) :
    HaltsWith s₀ m (l.mapM g) := by
  intro w hw hmachine
  induction l generalizing w with
  | nil => exact .pure
  | cons a l ih =>
    rw [List.mapM_cons]
    refine Halts.bind (hg a (by simp) w hw hmachine) (hs a w hw) (hm a) fun b u hu hon _ => ?_
    exact (ih (fun c hc => hg c (by simp [hc])) u hon.tidy (hu.trans hmachine)).bind_always fun _ _ => .pure

/-! ## Operations -/

theorem halts_walk {x : StateT Store Option α} (h : (x w.store).isSome) : Halts (Eval.walk x) w := by
  obtain ⟨p, hp⟩ := Option.isSome_iff_exists.1 h
  exact .of_some (by rw [Eval.runOn_walk, hp])

theorem halts_examine {f : Store → Option α} (h : (f w.store).isSome) : Halts (Eval.examine f) w := by
  obtain ⟨a, ha⟩ := Option.isSome_iff_exists.1 h
  refine Halts.get_bind ?_
  rw [ha]
  exact .pure

theorem halts_wantInt : Halts (wantInt v) w := by
  unfold wantInt
  split
  · exact .pure
  · exact .fault

theorem halts_wantBool : Halts (wantBool v) w := by
  unfold wantBool
  split
  · exact .pure
  · exact .fault

theorem halts_wantArray : Halts (wantArray v) w := by
  unfold wantArray
  split
  · exact .pure
  · exact .fault

theorem halts_observe {m : Moment} : Halts (observe record m) w := .of_some rfl

theorem halts_bound (hw : s₀.Tidy w.store) (hv : w.store.Admits v) : Halts (Eval.bound v) w := by
  obtain ⟨c, t, hc, -⟩ := hw.exists_copy hv
  exact .of_some (by rw [Eval.runOn_bound, hc])

theorem halts_handBack (hw : s₀.Tidy w.store) (hv : w.store.Admits v) : Halts (Eval.handBack v) w := by
  obtain ⟨c, t, hc, -⟩ := hw.exists_copy hv
  rw [Halts, runOn_handBack, hc]
  split <;> exact .inl rfl

theorem halts_define {x : String} (hw : s₀.Tidy w.store) (hv : w.store.Admits v) : Halts (define e x v) w :=
  (halts_bound hw hv).bind_always fun _ _ => .of_some rfl

theorem halts_assign {x : String} (hw : s₀.Tidy w.store) (hv : w.store.Admits v) : Halts (assign e x v) w := by
  refine (halts_bound hw hv).bind_always fun c u => Halts.bind_always (x := Eval.change _) (.of_some rfl) fun r _ => ?_
  cases r with
  | ok _ => exact .pure
  | error _ => exact .fault

theorem halts_push {x : String} (hw : s₀.Tidy w.store) (hv : w.store.Admits v) : Halts (push e x v) w := by
  refine Halts.get_bind ?_
  cases w.store.lookup e x with
  | none => exact .fault
  | some target =>
    refine halts_wantArray.bind (safely_wantArray (A := []) hw) obeys_wantArray fun a u _ hon ⟨_, hu⟩ => ?_
    subst hu
    have hreads := isSome_copyReads (a := a) (hw.acyclic.grounded v)
    refine (halts_examine hreads).bind (safely_examine (A := []) hw) .examine fun b u _ _ hu => ?_
    subst hu
    cases b with
    | true => exact .breakOff
    | false => exact (halts_bound hw hv).bind_always fun _ _ => .of_some rfl

/-! ## Calls -/

theorem halts_calling {body : Run Trace Value} (h : ∀ m, w.machine.enter = .ok m → Halts body { w with machine := m }) :
    Halts (Eval.calling body) w := by
  rw [Halts, Eval.runOn_calling]
  cases hm : w.machine.enter with
  | error f => exact .inl rfl
  | ok m =>
    have hbody := h m hm
    unfold Halts at hbody
    rcases hrun : body.runOn { w with machine := m } with ⟨_ | r, u⟩ <;> simp only [hrun] at hbody ⊢
    · exact .inr (hbody.resolve_left nofun)
    · exact .inl rfl

theorem halts_closeBody {f : Closure} {host : Host Trace} (hhost : SafeHost s₀ host)
    (hcall : Halts (Eval.calling (host.runBody f.body e)) w) (hm : (machineLaw Trace).Obeys (host.runBody f.body e))
    (hw : s₀.Tidy w.store) : Halts (do
      let r ← Eval.calling (host.runBody f.body e)
      Eval.handBack (← Eval.ofExcept r.closeCall)) w := by
  have hsafe := safely_calling (A := []) hw fun w' hw' => hhost.body f.body e w' (hw' ▸ hw)
  refine hcall.bind hsafe hm.calling fun r u _ hu hr => ?_
  have hadmits : ∀ v ∈ held r.closeCall, u.store.Admits v := fun v hv => (hr v (mem_held_closeCall hv)).1
  refine Halts.bind .ofExcept (safely_ofExcept hu.tidy hadmits) .ofExcept fun v u' _ _ ⟨hv, heq⟩ => ?_
  subst heq
  exact halts_handBack hu.tidy (hadmits v (by simp [hv, held]))

/-- What the code that a call runs promises. -/
structure HaltingHost (s₀ : Store) (host : Host Trace) (m : Machine) : Prop extends SafeHost s₀ host where
  machine : ∀ b e, (machineLaw Trace).Obeys (host.runBody b e)
  halts : ∀ m', m.enter = .ok m' → ∀ b e, HaltsWith s₀ m' (host.runBody b e)

section Calls

variable {host : Host Trace} {args : List Value}

theorem HaltingHost.calling (hhost : HaltingHost s₀ host w.machine) (b : Body) (e : ScopeId) (hw : s₀.Tidy u.store)
    (hm : u.machine = w.machine) : Halts (Eval.calling (host.runBody b e)) u := by
  refine halts_calling fun m henter => ?_
  exact hhost.halts m (hm ▸ henter) b e { u with machine := m } hw rfl

theorem halts_applyClosure {f : Closure} (hhost : HaltingHost s₀ host w.machine) (hw : s₀.Tidy w.store)
    (hargs : ∀ v ∈ args, w.store.Admits v) : Halts (Eval.applyClosure host f args) w := by
  unfold Eval.applyClosure
  cases f.checkArity args with
  | error g => exact Halts.congr (x := Eval.fault g) rfl .fault
  | ok _ =>
    refine Halts.congr (x := do
      let e ← Eval.walk ((← get).machine.callScope f args)
      let r ← Eval.calling (host.runBody f.body e)
      Eval.handBack (← Eval.ofExcept r.closeCall)) rfl (Halts.get_bind ?_)
    have hbinds : w.store.Binds args := ⟨hw.wellFormed, fun v hv => (hargs v hv).1, fun v _ => hw.acyclic.grounded v⟩
    have hsafe : Safely s₀ args (Eval.walk (w.machine.callScope f args)) w fun _ _ => True :=
      safely_walk hw fun e s h => ⟨(tidy_callScope hw hargs h).1, (tidy_callScope hw hargs h).2, trivial⟩
    refine Halts.bind (halts_walk hbinds.callScope) hsafe .walk fun e u hu hon _ => ?_
    exact halts_closeBody hhost.toSafeHost (hhost.calling f.body e hon.tidy hu) (hhost.machine f.body e) hon.tidy

theorem halts_applyUnderline {g : Underline} (hhost : HaltingHost s₀ host w.machine) (hw : s₀.Tidy w.store) :
    Halts (Eval.applyUnderline host g args) w := by
  unfold Eval.applyUnderline
  by_cases hargs : args ≠ []
  · rw [if_pos hargs]
    exact .of_some rfl
  · rw [if_neg hargs]
    have hsteady := hw.newScope (some g.scope)
    have hsafe : Safely s₀ [] (Eval.change (·.newScope (some g.scope))) w fun _ _ => True :=
      safely_change hsteady.tidy hsteady.keeps trivial
    refine Halts.bind (x := Eval.change _) (.of_some rfl) hsafe .change fun e u hu hon _ => ?_
    refine Halts.bind_always (halts_calling fun m hm => ?_) fun _ _ => .ofExcept
    have hbody : Halts (host.runBody g.body e) { u with machine := m } := hhost.halts m (hu ▸ hm) g.body e _ hon.tidy rfl
    exact hbody.outcome.bind_always fun _ _ => .ofExcept

theorem halts_apply {f : Value} (hhost : HaltingHost s₀ host w.machine) (hw : s₀.Tidy w.store) (hf : w.store.Admits f)
    (hargs : ∀ v ∈ args, w.store.Admits v) : Halts (Eval.apply host f e args) w := by
  refine Halts.get_bind ?_
  split
  · exact halts_applyClosure hhost hw hargs
  · exact halts_applyUnderline hhost hw
  · next n hn => exact absurd (congrArg Value.kind hn) (callee_kind hw hf)
  · exact .fault

end Calls

/-! ## Programs -/

/-- Loop-free code that has its steps, and those for the calls that are left, ends. -/
structure CodeHalts (s₀ : Store) (p : Program) (n : Nat) : Prop where
  expr : ∀ e a m, a.steps + p.reserve m ≤ n → HaltsWith s₀ m (evalExpr p record n e a)
  stmt : ∀ e a m, a.loopFree → a.steps + p.reserve m ≤ n → HaltsWith s₀ m (execStmt p record n e a)
  block : ∀ e code m, Kernel.loopFree code → Kernel.steps code + p.reserve m ≤ n → HaltsWith s₀ m (execBlock p record n e code)

theorem machineLaw_obeyed (p : Program) (n : Nat) : CodeObeys (machineLaw Trace) p record n := code_obeys (fun _ _ => rfl) p n

/-- The bodies have their steps when a call is made with the steps for one call more. -/
theorem haltingHost (hp : p.loopFree) (h : CodeHalts s₀ p n) {m : Machine} (hn : p.reserve m ≤ n) :
    HaltingHost s₀ (p.host (execBlock p record n)) m where
  toSafeHost := safeHost p (sound s₀ p n).block
  machine b e := (machineLaw_obeyed p n).block e (p.code b)
  halts m' hm b e := h.block e (p.code b) m' (Program.loopFree_code hp b) (Nat.le_trans (Program.reserve_enter hm b) hn)

section Parts

variable {m : Machine}

theorem halts_twoInts {a b : Expr} {f : Int64 → Int64 → Value} (ha : HaltsWith s₀ m (evalExpr p record n e a))
    (hb : HaltsWith s₀ m (evalExpr p record n e b)) : HaltsWith s₀ m (do
      let k ← wantInt (← evalExpr p record n e a)
      return f k (← wantInt (← evalExpr p record n e b))) := by
  intro w hw hm
  have hlaw := machineLaw_obeyed p n
  refine (ha w hw hm).bind ((sound s₀ p n).expr e a w hw) (hlaw.expr e a) fun v u hu hon _ => ?_
  refine Halts.bind (A := []) halts_wantInt (safely_wantInt hon.tidy) obeys_wantInt fun k u' hu' hon' _ => ?_
  exact (hb u' hon'.tidy (hu'.trans (hu.trans hm))).bind_always fun _ _ => halts_wantInt.bind_always fun _ _ => .pure

theorem halts_operand {a : Expr} (ha : HaltsWith s₀ m (evalExpr p record n e a)) :
    HaltsWith s₀ m (operand (evalExpr p record n e) a) :=
  fun w hw hm => (ha w hw hm).bind_always fun _ _ => Halts.get_bind .pure

theorem halts_items {items : List Expr} (h : ∀ a ∈ items, HaltsWith s₀ m (evalExpr p record n e a)) :
    HaltsWith s₀ m (items.mapM fun a => do Eval.bound (← evalExpr p record n e a)) := by
  refine halts_mapM (fun a ha w hw hm => ?_) (fun a w hw => ?_) fun a => ?_
  · refine (h a ha w hw hm).bind ((sound s₀ p n).expr e a w hw) ((machineLaw_obeyed p n).expr e a) fun v u _ hon hv => ?_
    exact halts_bound hon.tidy hv.1
  · refine Safely.bind ((sound s₀ p n).expr e a w hw) fun v u hon hv => ⟨[v], by simpa using hv.2, ?_⟩
    exact (safely_bound hon.tidy hv.1).weaken fun _ _ _ => trivial
  · exact ((machineLaw_obeyed p n).expr e a).bind fun _ => .bound

theorem halts_block {run : Stmt → Run Trace Value} {stmts : List Stmt} (hrun : ∀ a ∈ stmts, HaltsWith s₀ m (run a))
    (hs : ∀ a w, s₀.Tidy w.store → Yields s₀ [] (run a) w) (hm : ∀ a, (machineLaw Trace).Obeys (run a)) :
    HaltsWith s₀ m (Eval.block run stmts) := by
  have fold : ∀ v, HaltsWith s₀ m (stmts.foldlM (fun _ a => run a) v) := by
    induction stmts with
    | nil => exact fun v _ _ _ => .pure
    | cons a stmts ih =>
      intro v w hw hmachine
      rw [List.foldlM_cons]
      refine (hrun a (by simp) w hw hmachine).bind (hs a w hw) (hm a) fun v' u hu hon _ => ?_
      exact ih (fun c hc => hrun c (by simp [hc])) v' u hon.tidy (hu.trans hmachine)
  exact fold .void

end Parts

theorem halts_expr (hp : p.loopFree) (h : CodeHalts s₀ p n) {m : Machine} (a : Expr) (hn : a.steps + p.reserve m ≤ n + 1) :
    HaltsWith s₀ m (evalExpr p record (n + 1) e a) := by
  have hsafe := sound s₀ p n
  have hlaw := machineLaw_obeyed p n
  -- the parts have a step less
  have part : ∀ b : Expr, b.steps < a.steps → HaltsWith s₀ m (evalExpr p record n e b) :=
    fun b hb => h.expr e b m (by omega)
  intro w hw hm
  unfold evalExpr
  cases a with
  | int k => exact .pure
  | name x =>
    refine Halts.get_bind ?_
    split
    · exact .pure
    · exact .fault
  | add a b =>
    simp only [Expr.steps] at part
    have htwo := halts_twoInts (f := fun k l => .int (k + l)) (part a (by omega)) (part b (by omega))
    exact htwo w hw hm
  | less a b =>
    simp only [Expr.steps] at part
    have htwo := halts_twoInts (f := fun k l => .bool (k < l)) (part a (by omega)) (part b (by omega))
    exact htwo w hw hm
  | equal a b =>
    simp only [Expr.steps] at part
    refine (halts_operand (part a (by omega)) w hw hm).bind (safely_operand (hsafe.expr e) hw) (obeys_operand (hlaw.expr e) a)
      fun pa u hu hon _ => ?_
    refine (halts_operand (part b (by omega)) u hon.tidy (hu.trans hm)).bind (safely_operand (hsafe.expr e) hon.tidy)
      (obeys_operand (hlaw.expr e) b) fun pb u _ hon _ => ?_
    refine Halts.bind (A := []) halts_observe (safely_observe hon.tidy) (obeys_observe (fun _ _ => rfl) _) fun _ u _ hon _ => ?_
    exact (halts_examine (isSome_eq (hon.tidy.acyclic.grounded _))).bind_always fun _ _ => .pure
  | call f args =>
    simp only [Expr.steps] at part hn
    refine (halts_operand (part f (by omega)) w hw hm).bind (safely_operand (hsafe.expr e) hw) (obeys_operand (hlaw.expr e) f)
      fun pf u hu hon hf => ?_
    have hargs : HaltsWith s₀ m (args.mapM (operand (evalExpr p record n e))) :=
      halts_mapM (fun b hb => halts_operand (part b (by have := steps_le_of_mem_args hb; omega)))
        (fun b w hw => (safely_operand (hsafe.expr e) hw).weaken fun _ _ _ => trivial) (obeys_operand (hlaw.expr e))
    refine (hargs u hon.tidy (hu.trans hm)).bind (safely_operands (hsafe.expr e) hon.tidy) (.mapM (obeys_operand (hlaw.expr e)))
      fun ps u' hu' hon' hps => ?_
    refine Halts.bind (A := []) halts_observe (safely_observe hon'.tidy) (obeys_observe (fun _ _ => rfl) _)
      fun _ u'' hu'' hon'' hstore => ?_
    have hmachine : u''.machine = m := hu''.trans (hu'.trans (hu.trans hm))
    refine halts_apply (haltingHost hp h (by rw [hmachine]; omega)) hon''.tidy (hstore ▸ hon'.keeps.admits hf.1) fun v hv => ?_
    obtain ⟨q, hq, rfl⟩ := List.mem_map.1 hv
    exact hstore ▸ (hps q hq).1
  | function params body => exact .pure
  | underline body => exact .pure
  | array items =>
    simp only [Expr.steps] at part
    have hitems : ∀ b ∈ items, HaltsWith s₀ m (evalExpr p record n e b) :=
      fun b hb => part b (by have := steps_le_of_mem_args hb; omega)
    exact (halts_items hitems w hw hm).bind_always fun _ _ => Halts.bind_always (x := Eval.change _) (.of_some rfl) fun _ _ => .pure
  | length a =>
    simp only [Expr.steps] at part
    exact (part a (by omega) w hw hm).bind_always fun _ _ => halts_wantArray.bind_always fun _ _ => Halts.get_bind .pure

theorem halts_stmt (h : CodeHalts s₀ p n) {m : Machine} (a : Stmt) (ha : a.loopFree)
    (hn : a.steps + p.reserve m ≤ n + 1) : HaltsWith s₀ m (execStmt p record (n + 1) e a) := by
  have hsafe := sound s₀ p n
  have hlaw := machineLaw_obeyed p n
  intro w hw hm
  unfold execStmt
  refine Halts.bind (A := []) halts_observe (safely_observe hw) (obeys_observe (fun _ _ => rfl) _) fun _ u hu hon _ => ?_
  refine Halts.bind_always (Halts.outcome ?_) fun _ _ => halts_observe.bind_always fun _ _ => .ofExcept
  replace hm := hu.trans hm
  -- the value that a statement is about
  have andThen : ∀ {α : Type} {f : Value → Run Trace α} b, b.steps + p.reserve m ≤ n →
      (∀ v u, s₀.Tidy u.store → u.store.Admits v → Halts (f v) u) → Halts (do f (← evalExpr p record n e b)) u := by
    intro _ f b hb hf
    refine (h.expr e b m hb u hon.tidy hm).bind (hsafe.expr e b u hon.tidy) (hlaw.expr e b) fun v u' _ hon' hv => ?_
    exact hf v u' hon'.tidy hv.1
  cases a with
  | expr a => exact h.expr e a m (by simp only [Stmt.steps] at hn; omega) u hon.tidy hm
  | define x a => exact andThen (f := define e x) a (by simp only [Stmt.steps] at hn; omega) fun _ _ => halts_define
  | assign x a => exact andThen (f := assign e x) a (by simp only [Stmt.steps] at hn; omega) fun _ _ => halts_assign
  | push x a => exact andThen (f := push e x) a (by simp only [Stmt.steps] at hn; omega) fun _ _ => halts_push
  | cond c yes =>
    simp only [Stmt.steps] at hn
    have hcond : Halts (do wantBool (← evalExpr p record n e c)) u := andThen c (by omega) fun _ _ _ _ => halts_wantBool
    have hcondSafe : Safely s₀ [] (do wantBool (← evalExpr p record n e c)) u fun _ _ => True :=
      Safely.bind' (hsafe.expr e c u hon.tidy) fun v u hu _ => (safely_wantBool hu.tidy).weaken fun _ _ _ => trivial
    refine hcond.bind hcondSafe (obeys_cond (hlaw.expr e) c) fun b u' hu' hon' _ => ?_
    cases b with
    | true => exact h.block e yes m ha (by omega) u' hon'.tidy (hu'.trans hm)
    | false => exact .pure
  | «while» c body => cases ha
  | ret a =>
    have hthrow : ∀ v u, Halts (throw (.ret v) : Run Trace Value) u := fun _ _ => .throw
    exact andThen a (by simp only [Stmt.steps] at hn; omega) fun v u _ _ => hthrow v u
  | out a =>
    have hthrow : ∀ v u, Halts (throw (.out v) : Run Trace Value) u := fun _ _ => .throw
    exact andThen a (by simp only [Stmt.steps] at hn; omega) fun v u _ _ => hthrow v u
  | jump => exact .throw
  | fail text => exact .fault

/-- The induction is on the steps: a part has a step less, and a body has the
steps that were kept for it. -/
theorem code_halts (hp : p.loopFree) (s₀ : Store) (n : Nat) : CodeHalts s₀ p n := by
  induction n with
  | zero =>
    refine ⟨fun e a m hn => ?_, fun e a m _ hn => ?_, fun e code m _ hn => ?_⟩
    · cases a <;> simp only [Expr.steps] at hn <;> omega
    · cases a <;> simp only [Stmt.steps] at hn <;> omega
    · cases code <;> simp only [Kernel.steps] at hn <;> omega
  | succ n ih =>
    refine ⟨fun e a m hn => halts_expr hp ih a hn, fun e a m ha hn => halts_stmt ih a ha hn, fun e code m hcode hn => ?_⟩
    refine halts_block (fun a ha => ?_) ((sound s₀ p n).stmt e) ((machineLaw_obeyed p n).stmt e)
    have hlt := steps_lt_of_mem ha
    exact ih.stmt e a m (loopFree_iff.1 hcode a ha) (by omega)

end Kernel

end CopyOnBind
