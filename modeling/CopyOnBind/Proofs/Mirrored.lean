import CopyOnBind.Proofs.TwoRuns
/-!
# The second run follows the first

The evaluations of calls, operands, loops, statements and blocks mirror those
of the run without copy elision, by what their parts do. `mirrored` puts them
together by induction on the steps.
-/

namespace CopyOnBind

namespace Store

variable {s₀ s t : Store} {v v' : Value}

/-! ## Arguments -/

/-- Marked values are all different from the later ones. -/
def Apart (t : Store) (vs : List Value) : Prop := vs.Pairwise fun v w => t.isMarked v = true → w ≠ v

theorem Apart.mono {vs : List Value} (h : s.Apart vs) (hm : ∀ v, t.isMarked v = true → s.isMarked v = true) : t.Apart vs :=
  h.imp fun hvw hv => hvw (hm _ hv)

/-- Parameters are bound side by side. -/
theorem linked_bindAll (m m' : Machine) {e : ScopeId} {l l' : List (String × Value)} (h : Linked s₀ s t)
    (hl : List.Forall₂ (fun p p' => p'.1 = p.1 ∧ Given s₀ s t p.2 p'.2) l l') (hapart : t.Apart (l'.map Prod.snd)) :
    ∃ s₁ t₁, Kernel.bindAll m e l s = some (⟨⟩, s₁) ∧ Kernel.bindAll m' e l' t = some (⟨⟩, t₁) ∧ Linked s₀ s₁ t₁ ∧
      ∀ u u', Twin s₀ s t u u' → Twin s₀ s₁ t₁ u u' := by
  induction l generalizing l' s t with
  | nil =>
    cases hl
    exact ⟨s, t, rfl, rfl, h, fun _ _ hu => hu⟩
  | cons p l ih =>
    cases hl with
    | @cons _ p' _ l' hp hl =>
      obtain ⟨hname, hp⟩ := hp
      obtain ⟨c, c', s₁, t₁, hc, hc', hcopied⟩ := h.copied hp
      rw [List.map_cons, Apart, List.pairwise_cons] at hapart
      obtain ⟨hfirst, hrest⟩ := hapart
      -- binding the first parameter leaves the other arguments as they were given
      have htail : List.Forall₂ (fun q q' => q'.1 = q.1 ∧
          Given s₀ (s₁.define e p.1 c true) (t₁.define e p.1 c' true) q.2 q'.2) l l' := by
        refine forall₂_imp_mem hl fun q _ q' hq' ⟨hname, hq⟩ => ⟨hname, ?_⟩
        have hne := hfirst q'.2 (List.mem_map_of_mem hq')
        obtain ⟨hv, hv'⟩ := hcopied.ne h hq hne
        exact (hcopied.given h hq hne).define hcopied.linked hcopied.paired true hv hv'
      have hapart : (t₁.define e p.1 c' true).Apart (l'.map Prod.snd) :=
        Apart.mono hrest fun u hu => hcopied.on.marks u (isMarked_define ▸ hu)
      obtain ⟨s₂, t₂, hs₂, ht₂, hlinked, htwin⟩ := ih (hcopied.linked.define hcopied.paired true) htail hapart
      refine ⟨s₂, t₂, ?_, ?_, hlinked, fun u u' hu => htwin u u' ?_⟩
      · rw [Kernel.bindAll_cons, hc]
        exact hs₂
      · rw [Kernel.bindAll_cons, hc', hname]
        exact ht₂
      · obtain ⟨hv, hv'⟩ := hcopied.twin_ne h hu
        exact (hcopied.twin h hu).define hcopied.linked hcopied.paired true hv hv'

theorem linked_callScope (m m' : Machine) {f : Closure} {args args' : List Value} (h : Linked s₀ s t)
    (hargs : List.Forall₂ (Given s₀ s t) args args') (hapart : t.Apart args') (hlen : args'.length ≤ f.params.length) :
    ∃ e s₁ t₁, m.callScope f args s = some (e, s₁) ∧ m'.callScope f args' t = some (e, t₁) ∧ Linked s₀ s₁ t₁ ∧
      ∀ u u', Twin s₀ s t u u' → Twin s₀ s₁ t₁ u u' := by
  obtain ⟨hlinked, htwin, hheld⟩ := h.newScope (some f.scope)
  have hm : ∀ v, (t.newScope (some f.scope)).2.isMarked v = true → t.isMarked v = true := fun v hv => isMarked_newScope ▸ hv
  have hzip := forall₂_zip_zip (List.forall₂_same.2 fun x _ => rfl : List.Forall₂ (fun x y : String => y = x) f.params f.params)
    (hargs.imp fun v v' hv => hv.imp (htwin v v') (hheld v v'))
  obtain ⟨s₁, t₁, hs₁, ht₁, hlinked₁, htwin₁⟩ := linked_bindAll m m'
    (e := (s.newScope (some f.scope)).1) hlinked hzip (by rw [List.map_snd_zip hlen]; exact hapart.mono hm)
  refine ⟨_, s₁, t₁, by rw [Kernel.callScope_eq, hs₁]; rfl, ?_, hlinked₁, fun u u' hu => htwin₁ u u' (htwin u u' hu)⟩
  have hsame : (t.newScope (some f.scope)).1 = (s.newScope (some f.scope)).1 := congrArg ScopeId.mk h.frames.size
  rw [Kernel.callScope_eq, hsame, ht₁]
  rfl

end Store

namespace Kernel

open Store

variable {α β : Type} {s₀ s t : Store} {w w' u u' : World Trace} {v v' : Value} {r r' : Outcome}

/-! ## Outcomes -/

theorem mirrors_ofExcept (hw : Since s₀ s t w w') (h : Ends s₀ (Given s₀ w.store w'.store) w.store w'.store r r') :
    Mirrors s₀ s t (Eval.ofExcept r) (Eval.ofExcept r') w w' fun v v' u u' => Gives s₀ v v' u u' := by
  cases h with
  | ok v v' hv => exact .pure hw hv
  | signal e e' he => exact .throw hw he

theorem Ends.closeCall (h : Ends s₀ (Given s₀ s t) s t r r') : Ends s₀ (Given s₀ s t) s t r.closeCall r'.closeCall := by
  cases h with
  | ok v v' hv => exact .ok v v' hv
  | signal e e' he =>
    cases he with
    | ret v v' hv => exact .ok v v' hv
    | out v v' hv => exact .signal _ _ (.error _)
    | jump => exact .signal _ _ (.error _)
    | error f => exact .signal _ _ (.error f)

theorem Ends.closeBlock (h : Ends s₀ (Given s₀ s t) s t r r') : Ends s₀ (Given s₀ s t) s t r.closeBlock r'.closeBlock := by
  cases h with
  | ok v v' hv => exact .ok v v' hv
  | signal e e' he =>
    cases he with
    | ret v v' hv => exact .signal _ _ (.ret v v' hv)
    | out v v' hv => exact .ok v v' hv
    | jump => exact .signal _ _ .jump
    | error f => exact .signal _ _ (.error f)

/-! ## Calls -/

theorem Beside.enter (h : Beside s₀ w w') :
    (∃ f, w.machine.enter = .error f ∧ w'.machine.enter = .error f) ∨
      ∃ m m', w.machine.enter = .ok m ∧ w'.machine.enter = .ok m' ∧
        Beside s₀ { w with machine := m } { w' with machine := m' } := by
  unfold Machine.enter
  rw [h.limit, h.depth]
  by_cases hd : w.machine.policy.maxCallDepth ≤ w.machine.depth
  · rw [if_pos hd, if_pos hd]
    exact .inl ⟨_, rfl, rfl⟩
  · rw [if_neg hd, if_neg hd]
    exact .inr ⟨_, _, rfl, rfl, h.linked, h.off, h.on, h.limit, rfl⟩

theorem Beside.leave (h : Beside s₀ w w') :
    Beside s₀ { w with machine := w.machine.leave } { w' with machine := w'.machine.leave } :=
  ⟨h.linked, h.off, h.on, h.limit, congrArg (· - 1) h.depth⟩

theorem mirrors_calling {body body' : Run Trace Value} (hw : Since s₀ s t w w')
    (hbody : ∀ u u', u.store = w.store → u'.store = w'.store → Beside s₀ u u' →
      Mirrors s₀ u.store u'.store body body' u u' (Gives s₀)) :
    Mirrors s₀ s t (Eval.calling body) (Eval.calling body') w w' fun r r' u u' =>
      Ends s₀ (Given s₀ u.store u'.store) u.store u'.store r r' := by
  have hx := Eval.runOn_calling (w := w) body
  have hy := Eval.runOn_calling (w := w') body'
  rcases hw.toBeside.enter with ⟨f, hf, hf'⟩ | ⟨m, m', hm, hm', hbeside⟩
  · rw [hf] at hx
    rw [hf'] at hy
    exact .of_error hx hy hw (.error f)
  · rw [hm] at hx
    rw [hm'] at hy
    intro r v hrun hset
    rcases hb : body.runOn { w with machine := m } with ⟨_ | q, u⟩ <;> simp only [hb] at hx <;>
      cases hx.symm.trans hrun
    obtain ⟨q', u', hrun', hsince, hends⟩ := hbody { w with machine := m } { w' with machine := m' } rfl rfl hbeside q u hb hset
    simp only [hrun'] at hy
    refine ⟨_, _, hy, ⟨hsince.toBeside.leave, fun v v' hv => hsince.twin v v' (hw.twin v v' hv)⟩, .ok _ _ hends⟩

/-- What a call asks of the code it runs. -/
structure MirrorHost (s₀ : Store) (host : Host Trace) : Prop where
  body : ∀ b e w w', Beside s₀ w w' → Mirrors s₀ w.store w'.store (host.runBody b e) (host.runBody b e) w w' (Gives s₀)

section Apply

variable {host : Host Trace} {args args' : List Value} {e : ScopeId}

theorem mirrors_closeBody (hhost : MirrorHost s₀ host) {f : Closure} (hw : Since s₀ s t w w') :
    Mirrors s₀ s t (do
      let r ← Eval.calling (host.runBody f.body e)
      Eval.handBack (← Eval.ofExcept r.closeCall)) (do
      let r ← Eval.calling (host.runBody f.body e)
      Eval.handBack (← Eval.ofExcept r.closeCall)) w w' (Gives s₀) := by
  have hcall := mirrors_calling hw fun u u' _ _ hu => hhost.body f.body e u u' hu
  apply hcall.bind
  intro r r' u u' hu hr
  exact (mirrors_ofExcept hu hr.closeCall).bind fun v v' _ _ hu hv => mirrors_handBack hu hv

theorem mirrors_applyClosure [∀ b e, Grows (host.runBody b e)] (hhost : MirrorHost s₀ host) {f : Closure} (hw : Since s₀ s t w w')
    (hargs : List.Forall₂ (Given s₀ w.store w'.store) args args') (hapart : w'.store.Apart args') :
    Mirrors s₀ s t (Eval.applyClosure host f args) (Eval.applyClosure host f args') w w' (Gives s₀) := by
  have harity : f.checkArity args' = f.checkArity args := by rw [Closure.checkArity, Closure.checkArity, hargs.length_eq]
  unfold Eval.applyClosure
  rw [harity]
  cases hok : f.checkArity args with
  | error err => exact .congr (x := Eval.fault err) (y := Eval.fault err) rfl rfl (.fault hw)
  | ok _ =>
    have hlen : args'.length ≤ f.params.length := by
      have hargs := hargs.length_eq
      unfold Closure.checkArity at hok
      split at hok
      · omega
      · cases hok
    obtain ⟨e, s₁, t₁, hs₁, ht₁, hlinked, htwin⟩ := linked_callScope w.machine w'.machine hw.linked hargs hapart hlen
    -- the arity fits in both runs, so both bind the parameters in a new scope
    have hscope : Mirrors s₀ s t (Eval.walk (w.machine.callScope f args)) (Eval.walk (w'.machine.callScope f args')) w w'
        fun d d' _ _ => d' = d := by
      have hx := Eval.runOn_walk (w := w) (w.machine.callScope f args)
      have hy := Eval.runOn_walk (w := w') (w'.machine.callScope f args')
      simp only [hs₁] at hx
      simp only [ht₁] at hy
      exact .of_ok hx hy (hw.next rfl rfl hlinked htwin) rfl
    refine .congr (x := do
      let e ← Eval.walk ((← get).machine.callScope f args)
      let r ← Eval.calling (host.runBody f.body e)
      Eval.handBack (← Eval.ofExcept r.closeCall)) (y := do
      let e ← Eval.walk ((← get).machine.callScope f args')
      let r ← Eval.calling (host.runBody f.body e)
      Eval.handBack (← Eval.ofExcept r.closeCall)) rfl rfl (.get_bind ?_)
    apply hscope.bind
    intro d d' u u' hu hd
    subst hd
    exact mirrors_closeBody hhost hu

theorem mirrors_bareBlock {body : Run Trace Value}
    (h : Mirrors s₀ w.store w'.store body body w w' (Gives s₀)) :
    Mirrors s₀ w.store w'.store (Eval.bareBlock body) (Eval.bareBlock body) w w' (Gives s₀) :=
  h.outcome.bind fun _ _ _ _ hu hr => mirrors_ofExcept hu (Ends.closeBlock hr)

theorem mirrors_applyUnderline [∀ b e, Grows (host.runBody b e)] (hhost : MirrorHost s₀ host) {f : Underline}
    (hw : Since s₀ s t w w') (hargs : List.Forall₂ (Given s₀ w.store w'.store) args args') :
    Mirrors s₀ s t (Eval.applyUnderline host f args) (Eval.applyUnderline host f args') w w' (Gives s₀) := by
  unfold Eval.applyUnderline
  have hlen := hargs.length_eq
  by_cases hnil : args = []
  · have hnil' : args' = [] := List.length_eq_zero_iff.1 (by rw [← hlen, hnil]; rfl)
    rw [if_neg (not_not.2 hnil), if_neg (not_not.2 hnil')]
    obtain ⟨hlinked, htwin, -⟩ := hw.linked.newScope (some f.scope)
    have hscope : Mirrors s₀ s t (Eval.change (·.newScope (some f.scope))) (Eval.change (·.newScope (some f.scope))) w w'
        fun d d' _ _ => d' = d :=
      .of_ok (Eval.runOn_change _) (Eval.runOn_change _) (hw.next rfl rfl hlinked htwin)
        (congrArg ScopeId.mk hw.linked.frames.size)
    apply hscope.bind
    intro d d' u u' hu hd
    subst hd
    have hcall := mirrors_calling hu fun v v' _ _ hv => mirrors_bareBlock (hhost.body f.body d' v v' hv)
    exact hcall.bind fun r r' v v' hv hr => mirrors_ofExcept hv hr
  · have hnil' : args' ≠ [] := fun h => hnil (List.length_eq_zero_iff.1 (by rw [hlen, h]; rfl))
    rw [if_pos hnil, if_pos hnil', ← hlen]
    exact .congr (x := Eval.fault (.arityMismatch 0 args.length)) (y := Eval.fault (.arityMismatch 0 args.length))
      (by rw [Eval.runOn_bind]; rfl) (by rw [Eval.runOn_bind]; rfl) (.fault hw)

/-- A copy that is bound neither to a name nor in a container yet. -/
theorem mirrors_bound (hw : Since s₀ s t w w') (hv : Given s₀ w.store w'.store v v') :
    Mirrors s₀ s t (Eval.bound v) (Eval.bound v') w w' fun c c' u u' => Copied s₀ w.store w'.store u.store u'.store v v' c c' := by
  obtain ⟨c, c', s₁, t₁, hc, hc', h⟩ := hw.linked.copied hv
  have hx := Eval.runOn_bound (w := w) v
  have hy := Eval.runOn_bound (w := w') v'
  simp only [hc] at hx
  simp only [hc'] at hy
  exact .of_ok hx hy (hw.next rfl rfl h.linked fun u u' hu => h.twin hw.linked hu) h

theorem mirrors_apply [∀ b e, Grows (host.runBody b e)] (hhost : MirrorHost s₀ host) {f f' : Value}
    (hw : Since s₀ s t w w') (hf : Given s₀ w.store w'.store f f')
    (hargs : List.Forall₂ (Given s₀ w.store w'.store) args args') (hapart : w'.store.Apart args') :
    Mirrors s₀ s t (Eval.apply host f e args) (Eval.apply host f' e args') w w' (Gives s₀) := by
  refine .get_bind ?_
  rcases (hw.linked.ready_of_given hf).kinds with ⟨rfl, hflat⟩ | ⟨a, a', rfl, rfl⟩ | ⟨i, i', rfl, rfl⟩
  · cases f' with
    | function f => exact mirrors_applyClosure hhost hw hargs hapart
    | underline f => exact mirrors_applyUnderline hhost hw hargs
    | native n => exact absurd rfl (hw.linked.admits_of_given hf).1.2
    | ref slot index constant => cases hflat
    | _ => exact .fault hw
  · exact .fault hw
  · exact .fault hw

end Apply

/-! ## Lists of parts -/

/-- What is safe in both runs is known of the worlds they end in. -/
theorem Mirrors.safely {x : Run Trace α} {y : Run Trace β} {A B : List Value} {P : α → β → World Trace → World Trace → Prop}
    {Q : α → World Trace → Prop} {Q' : β → World Trace → Prop} (h : Mirrors s₀ s t x y w w' P) (hx : Safely s₀ A x w Q)
    (hy : Safely s₀ B y w' Q') :
    Mirrors s₀ s t x y w w' fun a b u u' =>
      P a b u u' ∧ Since s₀ s t u u' ∧ (Onward s₀ A w u ∧ Q a u) ∧ Onward s₀ B w' u' ∧ Q' b u' := by
  intro r u hrun hset
  obtain ⟨r', u', hrun', hsince, hends⟩ := h r u hrun hset
  refine ⟨r', u', hrun', hsince, ?_⟩
  obtain ⟨hon, hok, -⟩ := hx
  obtain ⟨hon', hok', -⟩ := hy
  rw [hrun] at hon hok
  rw [hrun'] at hon' hok'
  cases hends with
  | ok a b hP => exact .ok a b ⟨hP, hsince, ⟨hon, hok a rfl⟩, hon', hok' b rfl⟩
  | signal e e' he => exact .signal e e' he

/-- The value of an operand until all operands have theirs: a call result has
the content that it had when its call returned. -/
def Awaits (s₀ : Store) (p p' : Value × List (Value × Store)) (u u' : World Trace) : Prop :=
  Twin s₀ u.store u'.store p.1 p'.1 ∨
    ∃ t, (p.1, t) ∈ p.2 ∧ u.store.Knows p.1 ∧ u'.store.isMarked p'.1 = true ∧ Ready t u'.store p.1 p'.1

theorem Awaits.later {p p' : Value × List (Value × Store)} (h : Awaits s₀ p p' w w') (hw : Beside s₀ w w')
    (hu : Since s₀ w.store w'.store u u') (hon : Onward s₀ [] w u) (hon' : Onward s₀ [] w' u') : Awaits s₀ p p' u u' := by
  apply h.imp (hu.twin _ _)
  rintro ⟨t, ht, hk, hm, hready⟩
  obtain ⟨-, hmark, hcontent⟩ := hon'.keeps.hidden p'.1 (hw.linked.on.marked _ hm) (by simp)
  exact ⟨t, ht, hon.keeps.knows _ hk, hmark.trans hm, hready.congr rfl hcontent⟩

/-- When all operands have their values, settled results are still of the content they came with. -/
theorem Awaits.given {p p' : Value × List (Value × Store)} (h : Awaits s₀ p p' w w')
    (hset : ∀ v t, (v, t) ∈ p.2 → w.store.content v = t.content v) : Given s₀ w.store w'.store p.1 p'.1 :=
  h.imp id fun ⟨t, ht, hk, hm, hready⟩ => ⟨hk, hm, hready.congr (hset _ t ht) rfl⟩

/-- What an expression has for a value: only a call hands back what is held elsewhere. -/
def Answers (s₀ : Store) (a : Expr) (v v' : Value) (u u' : World Trace) : Prop :=
  Given s₀ u.store u'.store v v' ∧ (a.isCall = false → Twin s₀ u.store u'.store v v')

theorem answers_simple {a : Expr} (hv : v.isSimple) (hf : ∀ x, v ≠ .float x) : Answers s₀ a v v u u' := by
  have hself := Value.eqFlat_self (Value.node?_of_isSimple hv) hf
  exact ⟨given_simple hv hself, fun _ => .paired v v (paired_simple hv hself)⟩

section Parts

variable {eval : Expr → Run Trace Value} (hsafe : ∀ a w, s₀.Tidy w.store → Yields s₀ [] (eval a) w)
  (heval : ∀ a w w', Beside s₀ w w' → Mirrors s₀ w.store w'.store (eval a) (eval a) w w' (Answers s₀ a))

include heval in
theorem mirrors_operand {a : Expr} (hw : Since s₀ s t w w') :
    Mirrors s₀ s t (operand eval a) (operand eval a) w w' fun p p' u u' => Awaits s₀ p p' u u' := by
  refine ((heval a w w' hw.toBeside).since hw).bind fun v v' u u' hu ⟨hv, htwin⟩ => .get_bind (.pure hu ?_)
  cases ha : a.isCall with
  | false => exact .inl (htwin ha)
  | true =>
    refine hv.imp id fun hv => ⟨u.store, ?_, hv.knows, hv.marked, hv.ready⟩
    simp

include heval in
/-- Two integers, each looked at as soon as it is there. -/
theorem mirrors_twoInts {a b c : Expr} {f : Int64 → Int64 → Value} [∀ a, Grows (eval a)]
    (hf : ∀ {u u'} k l, Answers s₀ c (f k l) (f k l) u u') (hw : Since s₀ s t w w') :
    Mirrors s₀ s t (do
      let k ← wantInt (← eval a)
      return f k (← wantInt (← eval b))) (do
      let k ← wantInt (← eval a)
      return f k (← wantInt (← eval b))) w w' (Answers s₀ c) := by
  apply ((heval a w w' hw.toBeside).since hw).bind
  intro v v' u u' hu hv
  apply (mirrors_wantInt hu hv.1).bind
  intro k k' u u' hu hk
  apply ((heval b u u' hu.toBeside).since hu).bind
  intro v v' u u' hu hv
  apply (mirrors_wantInt hu hv.1).bind
  intro l l' u u' hu hl
  subst hk hl
  exact .pure hu (hf _ _)

include hsafe heval

theorem mirrors_operands (args : List Expr) (hw : Since s₀ s t w w') [∀ a, Grows (eval a)] :
    Mirrors s₀ s t (args.mapM (operand eval)) (args.mapM (operand eval)) w w' fun ps ps' u u' =>
      List.Forall₂ (fun p p' => Awaits s₀ p p' u u') ps ps' ∧ u'.store.Apart (ps'.map Prod.fst) := by
  induction args generalizing s t w w' with
  | nil => exact .pure hw ⟨.nil, .nil⟩
  | cons a args ih =>
    rw [List.mapM_cons]
    apply (mirrors_operand heval hw).bind
    intro p p' u u' hu hp
    have hrest := (ih (.start hu.toBeside)).safely (safely_operands hsafe hu.linked.off) (safely_operands hsafe hu.linked.on)
    apply (hrest.since hu).bind
    rintro ps ps' v v' hv ⟨⟨hps, hapart⟩, hsince, ⟨hon, _⟩, hon', hhanded⟩
    refine .pure hv ⟨.cons (hp.later hu.toBeside hsince hon hon') hps, ?_⟩
    rw [List.map_cons, Apart, List.pairwise_cons]
    refine ⟨fun z hz hm => ?_, hapart⟩
    obtain ⟨q, hq, rfl⟩ := List.mem_map.1 hz
    rcases hp with hp | ⟨t, -, -, hm', -⟩
    · exact absurd hm (by simp [hv.linked.not_marked_of_twin (hsince.twin _ _ hp)])
    · -- a marked result is hidden, and what is evaluated later is not
      rintro heq
      simpa using (hhanded q hq).2 (heq ▸ hu.linked.on.marked _ hm')

/-- The items of an array are copies that nothing holds. -/
theorem mirrors_items (items : List Expr) (hw : Since s₀ s t w w') [∀ a, Grows (eval a)] :
    Mirrors s₀ s t (items.mapM fun item => do Eval.bound (← eval item)) (items.mapM fun item => do Eval.bound (← eval item))
      w w' fun cs cs' u u' => List.Forall₂ (Paired s₀ u.store u'.store) cs cs' ∧
        ∀ v v', Twin s₀ s t v v' → (v.isContainer → v ∉ cs) ∧ (v'.isContainer → v' ∉ cs') := by
  induction items generalizing w w' with
  | nil => exact .pure hw ⟨.nil, by simp⟩
  | cons a items ih =>
    have hitem : Mirrors s₀ s t (do Eval.bound (← eval a)) (do Eval.bound (← eval a)) w w' fun c c' u u' =>
        Paired s₀ u.store u'.store c c' ∧ ∀ v v', Twin s₀ s t v v' → (v.isContainer → v ∉ [c]) ∧ (v'.isContainer → v' ∉ [c']) :=
      ((heval a w w' hw.toBeside).since hw).bind fun v v' u u' hu hv => (mirrors_bound hu hv.1).weaken
        fun c c' _ _ hcopied => ⟨hcopied.paired, fun z z' hz => hcopied.twin_ne hu.linked (hu.twin z z' hz)⟩
    rw [List.mapM_cons]
    apply hitem.bind
    rintro c c' u u' hu ⟨hc, hne⟩
    -- later items leave the first copy alone, since nothing holds it
    have hrest := (ih hu).safely (safely_items hsafe hu.linked.off) (safely_items hsafe hu.linked.on)
    apply hrest.bind
    rintro cs cs' v v' hv ⟨⟨hcs, hnes⟩, _, ⟨hon, _⟩, hon', _⟩
    refine .pure hv ⟨.cons (hc.keeps hon.keeps hon'.keeps) hcs, fun z z' hz => ⟨fun hcon hmem => ?_, fun hcon hmem => ?_⟩⟩
    · rcases List.mem_cons.1 hmem with rfl | hmem
      · exact (hne _ z' hz).1 hcon (by simp)
      · exact (hnes z z' hz).1 hcon hmem
    · rcases List.mem_cons.1 hmem with rfl | hmem
      · exact (hne z _ hz).2 hcon (by simp)
      · exact (hnes z z' hz).2 hcon hmem

theorem mirrors_array {items : List Expr} (hw : Beside s₀ w w') [∀ a, Grows (eval a)] :
    Mirrors s₀ w.store w'.store (do
      let values ← items.mapM fun item => do Eval.bound (← eval item)
      return Value.array (← Eval.change (·.newArray values.toArray))) (do
      let values ← items.mapM fun item => do Eval.bound (← eval item)
      return Value.array (← Eval.change (·.newArray values.toArray))) w w' fun v v' u u' => Twin s₀ u.store u'.store v v' := by
  have hitems := (mirrors_items hsafe heval items (.start hw)).safely (safely_items hsafe hw.linked.off)
    (safely_items hsafe hw.linked.on)
  apply hitems.bind
  rintro cs cs' u u' hu ⟨⟨hcs, hne⟩, _, ⟨_, _, hone⟩, _, _, hone'⟩
  obtain ⟨hlinked, hpaired, htwin⟩ := hu.linked.newArray hcs hone hone'
  have hsince : Since s₀ w.store w'.store { u with store := (u.store.newArray cs.toArray).2 }
      { u' with store := (u'.store.newArray cs'.toArray).2 } :=
    ⟨⟨hlinked, hu.off, hu.on, hu.limit, hu.depth⟩, fun v v' hv => htwin v v' (hu.twin v v' hv) (hne v v' hv).1 (hne v v' hv).2⟩
  have hchange : Mirrors s₀ w.store w'.store (Eval.change (·.newArray cs.toArray)) (Eval.change (·.newArray cs'.toArray))
      u u' fun a a' z z' => Paired s₀ z.store z'.store (.array a) (.array a') :=
    .of_ok (Eval.runOn_change _) (Eval.runOn_change _) hsince hpaired
  exact hchange.bind fun a a' z z' hz ha => .pure hz (.paired _ _ ha)

end Parts

theorem mirrors_whileLoop {cond : Run Trace Bool} {body : Run Trace Value} [Grows cond] [Grows body]
    (hcond : ∀ w w', Beside s₀ w w' → Mirrors s₀ w.store w'.store cond cond w w' fun a b _ _ => b = a)
    (hbody : ∀ w w', Beside s₀ w w' → Mirrors s₀ w.store w'.store body body w w' (Gives s₀)) (n : Nat)
    (hw : Since s₀ s t w w') : Mirrors s₀ s t (whileLoop cond body n) (whileLoop cond body n) w w' (Gives s₀) := by
  induction n generalizing w w' with
  | zero => exact .unfinished
  | succ n ih =>
    rw [whileLoop_succ]
    apply ((hcond w w' hw.toBeside).since hw).bind
    intro a b u u' hu hab
    subst hab
    cases b with
    | false => exact .pure hu (given_simple rfl rfl)
    | true =>
      apply ((hbody u u' hu.toBeside).since hu).outcome.bind
      intro r r' v v' hv hr
      -- a round ends alike in both runs, so both go on, or both leave
      cases hr with
      | ok z z' hz => exact ih hv
      | signal e e' he =>
        cases he with
        | ret z z' hz => exact .throw hv (.ret z z' hz)
        | out z z' hz => exact .pure hv hz
        | jump => exact ih hv
        | error f => exact .fault hv

theorem mirrors_block {run : Stmt → Run Trace Value} [∀ a, Grows (run a)]
    (hrun : ∀ a w w', Beside s₀ w w' → Mirrors s₀ w.store w'.store (run a) (run a) w w' (Gives s₀)) {stmts : List Stmt}
    (hw : Since s₀ s t w w') :
    Mirrors s₀ s t (Eval.block run stmts) (Eval.block run stmts) w w' (Gives s₀) := by
  have fold : ∀ v v' w w', Since s₀ s t w w' → Given s₀ w.store w'.store v v' →
      Mirrors s₀ s t (stmts.foldlM (fun _ a => run a) v) (stmts.foldlM (fun _ a => run a) v') w w' (Gives s₀) := by
    induction stmts with
    | nil => exact fun v v' w w' hw hv => .pure hw hv
    | cons a stmts ih =>
      intro v v' w w' hw _
      rw [List.foldlM_cons, List.foldlM_cons]
      exact ((hrun a w w' hw.toBeside).since hw).bind fun z z' u u' hu hz => ih z z' u u' hu hz
  exact fold .void .void w w' hw (given_simple rfl rfl)

/-! ## Programs -/

theorem mirrorHost (p : Program) {exec : ScopeId → List Stmt → Run Trace Value}
    (hexec : ∀ e code w w', Beside s₀ w w' → Mirrors s₀ w.store w'.store (exec e code) (exec e code) w w' (Gives s₀)) :
    MirrorHost s₀ (p.host exec) where
  body b e w w' hw := hexec e (p.code b) w w' hw

/-- Settled notes say that the operands still are what they were. -/
theorem mirrors_ready {results results' : List (Value × Store)} (hw : Since s₀ s t w w') :
    Mirrors s₀ s t (observe record (.ready results)) (observe record (.ready results')) w w' fun _ _ u u' =>
      (u.store = w.store ∧ u'.store = w'.store) ∧ ∀ v t, (v, t) ∈ results → w.store.content v = t.content v := by
  intro r u hrun hset
  obtain ⟨r', u', hrun', hsince, hends⟩ := mirrors_observe hw r u hrun hset
  refine ⟨r', u', hrun', hsince, ?_⟩
  have hnote : (.ready results, w.store) ∈ u.notes := by
    cases hrun
    simp [record]
  cases hends with
  | ok a b hP => exact .ok a b ⟨hP, hset results w.store hnote⟩
  | signal e e' he => exact .signal e e' he

theorem mirrors_examine {f g : Store → Option α} (hw : Since s₀ s t w w') (h : g w'.store = f w.store) :
    Mirrors s₀ s t (Eval.examine f) (Eval.examine g) w w' fun a b _ _ => b = a := by
  refine .get_bind ?_
  rw [h]
  cases f w.store with
  | none => exact .unfinished
  | some a => exact .pure hw rfl

/-- All code of the second run follows that of the first in `n` steps. -/
structure Mirrored (s₀ : Store) (p : Program) (n : Nat) : Prop where
  expr : ∀ e a w w', Beside s₀ w w' →
    Mirrors s₀ w.store w'.store (evalExpr p record n e a) (evalExpr p record n e a) w w' (Answers s₀ a)
  stmt : ∀ e a w w', Beside s₀ w w' →
    Mirrors s₀ w.store w'.store (execStmt p record n e a) (execStmt p record n e a) w w' (Gives s₀)
  block : ∀ e code w w', Beside s₀ w w' →
    Mirrors s₀ w.store w'.store (execBlock p record n e code) (execBlock p record n e code) w w' (Gives s₀)

variable {p : Program} {n : Nat} {e : ScopeId}

theorem mirrors_expr (h : Mirrored s₀ p n) (a : Expr) (hw : Beside s₀ w w') :
    Mirrors s₀ w.store w'.store (evalExpr p record (n + 1) e a) (evalExpr p record (n + 1) e a) w w' (Answers s₀ a) := by
  have heval : ∀ a w w', Beside s₀ w w' →
      Mirrors s₀ w.store w'.store (evalExpr p record n e a) (evalExpr p record n e a) w w' (Answers s₀ a) := h.expr e
  have hsafe : ∀ a w, s₀.Tidy w.store → Yields s₀ [] (evalExpr p record n e a) w := (sound s₀ p n).expr e
  have hw := Since.start hw
  cases a with
  | int k => exact .pure hw (answers_simple rfl (by simp))
  | name x =>
    refine .get_bind ?_
    rcases hw.linked.lookup (e := e) (x := x) with ⟨hnone, hnone'⟩ | ⟨r, z, z', hz, hz', hat, hat'⟩
    · rw [hnone, hnone']
      exact .fault hw
    · rw [hz, hz']
      have htwin : Twin s₀ w.store w'.store z z' := .named r x z z' hat hat'
      exact .pure hw ⟨.inl htwin, fun _ => htwin⟩
  | add a b => exact mirrors_twoInts heval (f := fun k l => .int (k + l)) (fun _ _ => answers_simple rfl (by simp)) hw
  | less a b => exact mirrors_twoInts heval (f := fun k l => .bool (k < l)) (fun _ _ => answers_simple rfl (by simp)) hw
  | equal a b =>
    unfold evalExpr
    apply (mirrors_operand heval hw).bind
    intro q q' u u' hu hq
    have hb := ((mirrors_operand heval (a := b) (.start hu.toBeside)).safely (safely_operand hsafe hu.linked.off)
      (safely_operand hsafe hu.linked.on)).since hu
    apply hb.bind
    rintro r r' v v' hv ⟨hr, hsince, ⟨hon, _⟩, hon', _⟩
    have hq := hq.later hu.toBeside hsince hon hon'
    apply (mirrors_ready hv).bind
    rintro _ _ z z' hz ⟨⟨hstore, hstore'⟩, hset⟩
    -- the note says that both operands still have the content they came with
    have hq := hv.linked.ready_of_given (hq.given fun x t hx => hset x t (List.mem_append_left _ hx))
    have hr := hv.linked.ready_of_given (hr.given fun x t hx => hset x t (List.mem_append_right _ hx))
    rw [← hstore, ← hstore'] at hq hr
    have heq := (Ready.eq hz.linked.off.wellFormed hz.linked.on.wellFormed hq hr).symm
    apply (mirrors_examine hz heq).bind
    intro x y _ _ hz hxy
    subst hxy
    exact .pure hz (answers_simple rfl (by simp))
  | call f args =>
    unfold evalExpr
    apply (mirrors_operand heval hw).bind
    intro q q' u u' hu hq
    have hrest := ((mirrors_operands hsafe heval args (.start hu.toBeside)).safely
      (safely_operands hsafe hu.linked.off) (safely_operands hsafe hu.linked.on)).since hu
    apply hrest.bind
    rintro qs qs' v v' hv ⟨⟨hqs, hapart⟩, hsince, ⟨hon, _⟩, hon', _⟩
    have hq := hq.later hu.toBeside hsince hon hon'
    apply (mirrors_ready hv).bind
    rintro _ _ z z' hz ⟨⟨hstore, hstore'⟩, hset⟩
    -- so do the callee and the arguments, and a call may take them
    have hf := hq.given fun x t hx => hset x t (List.mem_append_left _ hx)
    have hargs : List.Forall₂ (Given s₀ v.store v'.store) (qs.map Prod.fst) (qs'.map Prod.fst) := by
      rw [List.forall₂_map_left_iff, List.forall₂_map_right_iff]
      apply forall₂_imp_mem hqs
      intro q hq q' _ hawaits
      apply hawaits.given
      intro x t hx
      exact hset x t (List.mem_append_right _ (List.mem_flatMap.2 ⟨q, hq, hx⟩))
    rw [← hstore, ← hstore'] at hf hargs
    rw [← hstore'] at hapart
    refine (mirrors_apply (mirrorHost p h.block) hz hf hargs hapart).weaken fun v v' _ _ hv => ⟨hv, fun hcall => ?_⟩
    cases hcall
  | function params body => exact .pure hw (answers_simple rfl (by simp))
  | underline body => exact .pure hw (answers_simple rfl (by simp))
  | array items => exact (mirrors_array hsafe heval hw.toBeside).weaken fun v v' u u' hv => ⟨.inl hv, fun _ => hv⟩
  | length a =>
    unfold evalExpr
    apply (heval a w w' hw.toBeside).bind
    intro v v' u u' hu hv
    apply (mirrors_wantArray hu hv.1).bind
    intro a a' u u' hu hready
    have hsize : (u'.store.elements a').size = (u.store.elements a).size :=
      ((ready_array_iff hu.linked.off.acyclic hu.linked.on.acyclic).1 hready).length_eq.symm
    refine .get_bind ?_
    rw [hsize]
    exact .pure hu (answers_simple rfl (by simp))

theorem mirrors_watched {x : Run Trace Value} [Grows x] (hw : Beside s₀ w w')
    (hx : ∀ w w', Beside s₀ w w' → Mirrors s₀ w.store w'.store x x w w' (Gives s₀)) :
    Mirrors s₀ w.store w'.store (do
      observe record .started
      let r ← Eval.outcome x
      observe record .finished
      Eval.ofExcept r) (do
      observe record .started
      let r ← Eval.outcome x
      observe record .finished
      Eval.ofExcept r) w w' (Gives s₀) := by
  apply (mirrors_observe (.start hw)).bind
  intro _ _ u u' hu _
  apply ((hx u u' hu.toBeside).since hu).outcome.bind
  intro r r' v v' hv hr
  refine (mirrors_observe hv).bind fun _ _ z z' hz ⟨hstore, hstore'⟩ => mirrors_ofExcept hz ?_
  rw [hstore, hstore']
  exact hr

theorem mirrors_stmt (h : Mirrored s₀ p n) (a : Stmt) (hw : Beside s₀ w w') :
    Mirrors s₀ w.store w'.store (execStmt p record (n + 1) e a) (execStmt p record (n + 1) e a) w w' (Gives s₀) := by
  have hcond : ∀ c w w', Beside s₀ w w' → Mirrors s₀ w.store w'.store (do wantBool (← evalExpr p record n e c))
      (do wantBool (← evalExpr p record n e c)) w w' fun a b _ _ => b = a :=
    fun c w w' hw => (h.expr e c w w' hw).bind fun v v' u u' hu hv => mirrors_wantBool hu hv.1
  have andThen : ∀ {f : Value → Run Trace Value} [∀ v, Grows (f v)] a w w', Beside s₀ w w' →
      (∀ v v' u u', Since s₀ w.store w'.store u u' → Given s₀ u.store u'.store v v' →
        Mirrors s₀ w.store w'.store (f v) (f v') u u' (Gives s₀)) →
      Mirrors s₀ w.store w'.store (do f (← evalExpr p record n e a)) (do f (← evalExpr p record n e a)) w w' (Gives s₀) :=
    fun a w w' hw hf => (h.expr e a w w' hw).bind fun v v' u u' hu hv => hf v v' u u' hu hv.1
  unfold execStmt
  cases a with
  | expr a => exact mirrors_watched hw fun w w' hw => (h.expr e a w w' hw).weaken fun _ _ _ _ hv => hv.1
  | define x a => exact mirrors_watched hw fun w w' hw => andThen a w w' hw fun v v' u u' hu hv => mirrors_define hu hv
  | assign x a => exact mirrors_watched hw fun w w' hw => andThen a w w' hw fun v v' u u' hu hv => mirrors_assign hu hv
  | push x a => exact mirrors_watched hw fun w w' hw => andThen a w w' hw fun v v' u u' hu hv => mirrors_push hu hv
  | cond c yes =>
    apply mirrors_watched hw
    intro w w' hw
    apply (hcond c w w' hw).bind
    intro b b' u u' hu hbb
    subst hbb
    cases b' with
    | true => exact (h.block e yes u u' hu.toBeside).since hu
    | false => exact .pure hu (given_simple rfl rfl)
  | «while» c body => exact mirrors_watched hw fun w w' hw => mirrors_whileLoop (hcond c) (h.block e body) n (.start hw)
  | ret a =>
    exact mirrors_watched hw fun w w' hw => andThen (f := fun v => throw (.ret v)) a w w' hw fun v v' u u' hu hv =>
      .throw hu (.ret v v' hv)
  | out a =>
    exact mirrors_watched hw fun w w' hw => andThen (f := fun v => throw (.out v)) a w w' hw fun v v' u u' hu hv =>
      .throw hu (.out v v' hv)
  | jump => exact mirrors_watched hw fun w w' hw => .throw (.start hw) .jump
  | fail text => exact mirrors_watched hw fun w w' hw => .fault (.start hw)

/-- The second run follows the first, whatever code they run. -/
theorem mirrored (s₀ : Store) (p : Program) (n : Nat) : Mirrored s₀ p n := by
  induction n with
  | zero => exact ⟨fun _ _ _ _ _ => .unfinished, fun _ _ _ _ _ => .unfinished, fun _ _ _ _ _ => .unfinished⟩
  | succ n ih =>
    exact ⟨fun _ a _ _ hw => mirrors_expr ih a hw, fun _ a _ _ hw => mirrors_stmt ih a hw,
      fun e _ _ _ hw => mirrors_block (ih.stmt e) (.start hw)⟩

end Kernel

end CopyOnBind
