import CopyOnBind.Proofs.Tidy
import CopyOnBind.Proofs.Worlds
/-!
# Running keeps stores tidy

`Safely` is what an evaluation promises in one world: the store stays tidy at
every moment that is recorded, hidden containers stay as they are except those
that the evaluation is given, and no hidden container is handed out. It is
proved of the operations by what they do to the store, and of expressions,
statements and blocks together, by induction on the steps (`sound`).
-/

namespace CopyOnBind

open Store

namespace Kernel

variable {α β : Type} {s₀ : Store} {A B : List Value} {w w' u : World Trace}

/-! ## What an evaluation promises -/

/-- The world `w'` comes after `w`, and only containers of `A` were taken out of hiding. -/
structure Onward (s₀ : Store) (A : List Value) (w w' : World Trace) : Prop where
  tidy : s₀.Tidy w'.store
  keeps : Keeps s₀ A w.store w'.store
  notes : ∃ l, w'.notes = w.notes ++ l ∧ ∀ m ∈ l, s₀.Tidy m.2

/-- A value that may be handed out: if it was hidden in `s`, it is one of `A`. -/
def Handed (s₀ : Store) (A : List Value) (s t : Store) (v : Value) : Prop := t.Admits v ∧ (s₀.Hidden s v → v ∈ A)

def Safely (s₀ : Store) (A : List Value) (x : Run Trace α) (w : World Trace) (Q : α → World Trace → Prop) : Prop :=
  Onward s₀ A w (x.runOn w).2 ∧ (∀ a, (x.runOn w).1 = some (.ok a) → Q a (x.runOn w).2) ∧
    ∀ e v, (x.runOn w).1 = some (.error e) → e.value? = some v → Handed s₀ A w.store (x.runOn w).2.store v

/-- The value, too, may be handed out. -/
def Yields (s₀ : Store) (A : List Value) (x : Run Trace Value) (w : World Trace) : Prop :=
  Safely s₀ A x w fun v w' => Handed s₀ A w.store w'.store v

namespace Onward

theorem refl (hw : s₀.Tidy w.store) : Onward s₀ A w w := ⟨hw, .refl _, [], by simp, by simp⟩

theorem of_store (ht : s₀.Tidy w'.store) (hk : Keeps s₀ A w.store w'.store) (hn : w'.notes = w.notes) :
    Onward s₀ A w w' := ⟨ht, hk, [], by simp [hn], by simp⟩

theorem trans (h : Onward s₀ A w w') (h' : Onward s₀ B w' u) (hB : ∀ b ∈ B, s₀.Hidden w.store b → b ∈ A) :
    Onward s₀ A w u := by
  obtain ⟨l, hl, ht⟩ := h.notes
  obtain ⟨l', hl', ht'⟩ := h'.notes
  refine ⟨h'.tidy, h.keeps.trans h'.keeps hB, l ++ l', by rw [hl', hl, List.append_assoc], fun m hm => ?_⟩
  exact (List.mem_append.1 hm).elim (ht m) (ht' m)

end Onward

theorem Handed.later {v : Value} {t : Store} (h : Onward s₀ A w w') (hv : Handed s₀ B w'.store t v)
    (hB : ∀ b ∈ B, s₀.Hidden w.store b → b ∈ A) : Handed s₀ A w.store t v := by
  refine ⟨hv.1, fun hh => ?_⟩
  by_contra hA
  exact hA (hB v (hv.2 (h.keeps.hidden v hh hA).1) hh)

namespace Safely

variable {x : Run Trace α} {f : α → Run Trace β} {P Q : α → World Trace → Prop} {R : β → World Trace → Prop}

theorem of_ok {a : α} (h : x.runOn w = (some (.ok a), w')) (hw : Onward s₀ A w w') (hQ : Q a w') : Safely s₀ A x w Q := by
  simp only [Safely, h]
  exact ⟨hw, by rintro _ ⟨⟩; exact hQ, by simp⟩

theorem of_none (h : x.runOn w = (none, w')) (hw : Onward s₀ A w w') : Safely s₀ A x w Q := by
  simp only [Safely, h]
  exact ⟨hw, by simp, by simp⟩

theorem of_error {e : Signal} (h : x.runOn w = (some (.error e), w')) (hw : Onward s₀ A w w')
    (he : ∀ v, e.value? = some v → Handed s₀ A w.store w'.store v) : Safely s₀ A x w Q := by
  simp only [Safely, h]
  refine ⟨hw, by simp, ?_⟩
  rintro _ v ⟨⟩ hv
  exact he v hv

theorem pure {a : α} (hw : s₀.Tidy w.store) (hQ : Q a w) : Safely s₀ A (pure a) w Q :=
  of_ok (Eval.runOn_pure a w) (.refl hw) hQ

theorem unfinished (hw : s₀.Tidy w.store) : Safely s₀ A Eval.unfinished w Q :=
  of_none (Eval.runOn_unfinished w) (.refl hw)

theorem breakOff (hw : s₀.Tidy w.store) : Safely s₀ A Eval.breakOff w Q :=
  of_none Eval.runOn_breakOff (.of_store hw (.refl _) rfl)

theorem throw {e : Signal} (hw : s₀.Tidy w.store) (he : ∀ v, e.value? = some v → Handed s₀ A w.store w.store v) :
    Safely s₀ A (throw e : Run Trace α) w Q :=
  of_error (Eval.runOn_throw e w) (.refl hw) he

theorem fault {f : Fault} (hw : s₀.Tidy w.store) : Safely s₀ A (Eval.fault f) w Q := throw hw (by simp [Signal.value?])

theorem weaken (h : Safely s₀ A x w P) (hPQ : ∀ a w', P a w' → Q a w') : Safely s₀ A x w Q :=
  ⟨h.1, fun a ha => hPQ _ _ (h.2.1 a ha), h.2.2⟩

theorem congr {y : Run Trace α} (h : x.runOn w = y.runOn w) (hx : Safely s₀ A x w Q) : Safely s₀ A y w Q := by
  simp only [Safely, ← h]
  exact hx

/-- What comes second may be given what the first hands out. -/
theorem bind (hx : Safely s₀ A x w P) (hf : ∀ a w', Onward s₀ A w w' → P a w' →
      ∃ B, (∀ b ∈ B, s₀.Hidden w.store b → b ∈ A) ∧ Safely s₀ B (f a) w' R) : Safely s₀ A (x >>= f) w R := by
  obtain ⟨hw, hok, herr⟩ := hx
  rcases hrun : x.runOn w with ⟨_ | e | a, w'⟩ <;> simp only [hrun] at hw hok herr
  · exact of_none (by rw [Eval.runOn_bind, hrun]) hw
  · exact of_error (by rw [Eval.runOn_bind, hrun]) hw fun v => herr e v rfl
  · -- what the second part hands out and was hidden at first, the first part had handed out
    obtain ⟨B, hB, hw', hok', herr'⟩ := hf a w' hw (hok a rfl)
    have heq : (x >>= f).runOn w = (f a).runOn w' := by rw [Eval.runOn_bind, hrun]
    simp only [Safely, heq]
    exact ⟨hw.trans hw' hB, hok', fun e v he hv => (herr' e v he hv).later hw hB⟩

/-- What comes second is given nothing hidden. -/
theorem bind' (hx : Safely s₀ A x w P) (hf : ∀ a w', Onward s₀ A w w' → P a w' → Safely s₀ [] (f a) w' R) :
    Safely s₀ A (x >>= f) w R :=
  hx.bind fun a w' hw hP => ⟨[], by simp, hf a w' hw hP⟩

theorem get_bind {f : World Trace → Run Trace β} (h : Safely s₀ A (f w) w R) : Safely s₀ A (get >>= f) w R :=
  congr (Eval.runOn_get_bind f).symm h

theorem outcome (h : Safely s₀ A x w P) : Safely s₀ A x.outcome w fun r w' =>
    (∀ a, r = .ok a → P a w') ∧ ∀ e v, r = .error e → e.value? = some v → Handed s₀ A w.store w'.store v := by
  obtain ⟨hw, hok, herr⟩ := h
  rcases hrun : x.runOn w with ⟨_ | r, w'⟩ <;> simp only [hrun] at hw hok herr
  · exact of_none (by rw [Eval.runOn_outcome, hrun]; rfl) hw
  · refine of_ok (a := r) (by rw [Eval.runOn_outcome, hrun]; rfl) hw ⟨fun a ha => hok a (by rw [ha]), fun e v he => ?_⟩
    exact herr e v (by rw [he])

end Safely

theorem Safely.mono {x : Run Trace α} {Q : α → World Trace → Prop} (h : Safely s₀ A x w Q)
    (hAB : ∀ a ∈ A, s₀.Hidden w.store a → a ∈ B) : Safely s₀ B x w Q := by
  obtain ⟨⟨ht, hk, hn⟩, hok, herr⟩ := h
  exact ⟨⟨ht, hk.mono hAB, hn⟩, hok, fun e v he hv =>
    ⟨(herr e v he hv).1, fun hh => hAB v ((herr e v he hv).2 hh) hh⟩⟩

theorem Yields.mono {x : Run Trace Value} (h : Yields s₀ A x w) (hAB : ∀ a ∈ A, s₀.Hidden w.store a → a ∈ B) :
    Yields s₀ B x w :=
  (Safely.mono h hAB).weaken fun v _ hv => ⟨hv.1, fun hh => hAB v (hv.2 hh) hh⟩

theorem Safely.yields {x : Run Trace α} {f : α → Run Trace Value} {P : α → World Trace → Prop} (hx : Safely s₀ A x w P)
    (hf : ∀ a w', Onward s₀ A w w' → P a w' → ∃ B, (∀ b ∈ B, s₀.Hidden w.store b → b ∈ A) ∧ Yields s₀ B (f a) w') :
    Yields s₀ A (x >>= f) w := by
  apply hx.bind
  intro a w' hw' hP
  obtain ⟨B, hB, hy⟩ := hf a w' hw' hP
  exact ⟨B, hB, hy.weaken fun v _ hv => hv.later hw' hB⟩

/-! ## Outcomes -/

/-- The value that an outcome holds. -/
def held : Outcome → List Value
  | .ok v => [v]
  | .error e => e.value?.toList

theorem Yields.outcome {x : Run Trace Value} (h : Yields s₀ A x w) :
    Safely s₀ A x.outcome w fun r w' => ∀ v ∈ held r, Handed s₀ A w.store w'.store v := by
  apply (Safely.outcome h).weaken
  rintro r w' ⟨hok, herr⟩ v hv
  cases r with
  | ok u => exact List.mem_singleton.1 hv ▸ hok u rfl
  | error e => exact herr e v rfl (Option.mem_toList.1 hv)

theorem safely_ofExcept {r : Outcome} (hw : s₀.Tidy w.store) (hr : ∀ v ∈ held r, w.store.Admits v) :
    Safely s₀ (held r) (Eval.ofExcept r) w fun v w' => r = .ok v ∧ w' = w := by
  cases r with
  | ok v => exact Safely.of_ok (Eval.runOn_ofExcept _ w) (.refl hw) ⟨rfl, rfl⟩
  | error e =>
    apply Safely.of_error (Eval.runOn_ofExcept _ w) (.refl hw)
    intro v hv
    have hmem : v ∈ held (.error e) := Option.mem_toList.2 hv
    exact ⟨hr v hmem, fun _ => hmem⟩

theorem yields_ofExcept {r : Outcome} (hw : s₀.Tidy w.store) (hr : ∀ v ∈ held r, w.store.Admits v) :
    Yields s₀ (held r) (Eval.ofExcept r) w := by
  apply (safely_ofExcept hw hr).weaken
  rintro v w' ⟨hv, heq⟩
  subst hv heq
  exact ⟨hr v (by simp [held]), fun _ => by simp [held]⟩

theorem mem_held_closeCall {r : Outcome} {v : Value} (h : v ∈ held r.closeCall) : v ∈ held r := by
  rcases r with (u | u | _ | f) | u <;> simp_all [held, Outcome.closeCall, Signal.value?]

theorem mem_held_closeBlock {r : Outcome} {v : Value} (h : v ∈ held r.closeBlock) : v ∈ held r := by
  rcases r with (u | u | _ | f) | u <;> simp_all [held, Outcome.closeBlock, Signal.value?]

theorem handed_simple {s t : Store} {v : Value} (hv : v.isSimple) : Handed s₀ A s t v := by
  have hflat := Value.node?_of_isSimple hv
  exact ⟨⟨knows_of_node?_none hflat, Value.kind_of_isSimple hv⟩, fun h => absurd hflat (node?_ne_none h.1)⟩

/-! ## Operations -/

theorem safely_walk {x : StateT Store Option α} {Q : α → World Trace → Prop} (hw : s₀.Tidy w.store)
    (h : ∀ a s, x w.store = some (a, s) → s₀.Tidy s ∧ Keeps s₀ A w.store s ∧ Q a { w with store := s }) :
    Safely s₀ A (Eval.walk x) w Q := by
  cases hx : x w.store with
  | none => exact Safely.of_none (by rw [Eval.runOn_walk, hx]) (.refl hw)
  | some p =>
    obtain ⟨ht, hk, hQ⟩ := h p.1 p.2 hx
    have hrun : (Eval.walk x).runOn w = (some (.ok p.1), { w with store := p.2 }) := by rw [Eval.runOn_walk, hx]
    exact Safely.of_ok hrun (.of_store ht hk rfl) hQ

theorem safely_change {f : Store → α × Store} {Q : α → World Trace → Prop} (ht : s₀.Tidy (f w.store).2)
    (hk : Keeps s₀ A w.store (f w.store).2) (hQ : Q (f w.store).1 { w with store := (f w.store).2 }) :
    Safely s₀ A (Eval.change f) w Q :=
  Safely.of_ok (Eval.runOn_change f) (.of_store ht hk rfl) hQ

theorem safely_modifyStore {f : Store → Store} {Q : Unit → World Trace → Prop} (ht : s₀.Tidy (f w.store))
    (hk : Keeps s₀ A w.store (f w.store)) (hQ : Q () { w with store := f w.store }) :
    Safely s₀ A (modify fun w => { w with store := f w.store } : Run Trace Unit) w Q :=
  Safely.of_ok (Eval.runOn_modify _ w) (.of_store ht hk rfl) hQ

theorem safely_examine {f : Store → Option α} (hw : s₀.Tidy w.store) :
    Safely s₀ A (Eval.examine f : Run Trace α) w fun _ w' => w' = w := by
  refine Safely.get_bind ?_
  cases f w.store with
  | none => exact Safely.unfinished hw
  | some a => exact Safely.pure hw rfl

theorem safely_observe {m : Moment} (hw : s₀.Tidy w.store) :
    Safely s₀ A (observe record m) w fun _ w' => w'.store = w.store :=
  Safely.of_ok (Eval.runOn_modify _ w) ⟨hw, .refl _, [(m, w.store)], rfl, by simpa using hw⟩ rfl

theorem safely_bound {v : Value} (hw : s₀.Tidy w.store) (hv : w.store.Admits v) :
    Safely s₀ [v] (Eval.bound v) w fun c w' => s₀.Free w'.store c ∧
      (s₀.Hidden w.store c → c = v ∧ w.store.isMarked v = true) ∧
        ∀ p u, w.store.at? p = some u → w'.store.at? p = some u := by
  refine Safely.get_bind (safely_walk hw fun c s hc => ?_)
  have htaken := hw.taken hv hc
  exact ⟨htaken.tidy, htaken.keeps_of_mem, htaken.free, htaken.eq_of_hidden, fun _ _ => htaken.at?⟩

theorem safely_wantInt {v : Value} (hw : s₀.Tidy w.store) : Safely s₀ A (wantInt v) w fun _ w' => w' = w := by
  unfold wantInt
  split
  · exact Safely.pure hw rfl
  · exact Safely.fault hw

theorem safely_wantBool {v : Value} (hw : s₀.Tidy w.store) : Safely s₀ A (wantBool v) w fun _ w' => w' = w := by
  unfold wantBool
  split
  · exact Safely.pure hw rfl
  · exact Safely.fault hw

theorem safely_wantArray {v : Value} (hw : s₀.Tidy w.store) :
    Safely s₀ A (wantArray v) w fun a w' => v = .array a ∧ w' = w := by
  unfold wantArray
  cases v with
  | array a => exact Safely.pure hw ⟨rfl, rfl⟩
  | _ => exact Safely.fault hw

theorem yields_define {e : ScopeId} {x : String} {v : Value} (hw : s₀.Tidy w.store) (hv : w.store.Admits v) :
    Yields s₀ [v] (define e x v) w := by
  refine (safely_bound hw hv).bind fun c w' hw' ⟨hfree, hold, _⟩ => ⟨[c], ?_, ?_⟩
  · simpa using fun hc => (hold hc).1
  · have hsteady := hw'.tidy.define (r := e) (x := x) hfree true
    refine (safely_modifyStore (f := fun s => s.define e x c true) (Q := fun _ _ => True) hsteady.tidy hsteady.keeps
      trivial).bind' fun _ w'' hw'' _ => ?_
    exact Safely.pure hw''.tidy (handed_simple rfl)

theorem yields_assign {e : ScopeId} {x : String} {v : Value} (hw : s₀.Tidy w.store) (hv : w.store.Admits v) :
    Yields s₀ [v] (assign e x v) w := by
  refine (safely_bound hw hv).bind fun c w' hw' ⟨hfree, hold, _⟩ => ⟨[c], by simpa using fun hc => (hold hc).1, ?_⟩
  refine (safely_change (Q := fun _ _ => True) ?_ ?_ trivial).bind' fun r w'' hw'' _ => ?_
  · unfold Store.assign
    split
    · exact hw'.tidy
    · split
      · exact hw'.tidy
      · split
        · exact (hw'.tidy.define hfree true).tidy
        · exact hw'.tidy
  · unfold Store.assign
    split
    · exact .refl _
    · split
      · exact .refl _
      · split
        · exact (hw'.tidy.define hfree true).keeps
        · exact .refl _
  · cases r with
    | ok _ => exact Safely.pure hw''.tidy (handed_simple rfl)
    | error _ => exact Safely.fault hw''.tidy

theorem yields_push {e : ScopeId} {x : String} {v : Value} (hw : s₀.Tidy w.store) (hv : w.store.Admits v) :
    Yields s₀ [v] (push e x v) w := by
  refine Safely.get_bind ?_
  cases hx : w.store.lookup e x with
  | none => exact Safely.fault hw
  | some target =>
    obtain ⟨r, -, hr⟩ := lookup_eq_some hx
    refine (safely_wantArray (A := [v]) hw).bind fun a w' hw' ⟨htarget, heq⟩ => ⟨[v], by simp, ?_⟩
    subst htarget heq
    refine (safely_examine (A := [v]) hw).bind fun b w' hw' heq => ⟨[v], by simp, ?_⟩
    subst heq
    cases b with
    | true => exact Safely.breakOff hw
    | false =>
      refine (safely_bound hw hv).bind fun c w' hw' ⟨hfree, hold, hplaces⟩ => ⟨[c], by simpa using fun hc => (hold hc).1, ?_⟩
      obtain ⟨ht, hk⟩ := hw'.tidy.push (hplaces _ _ hr) hfree
      refine (safely_modifyStore (f := fun s => s.push a c) (Q := fun _ _ => True) ht hk trivial).bind'
        fun _ w'' hw'' _ => ?_
      exact Safely.pure hw''.tidy (handed_simple rfl)

/-! ## Calls -/

theorem tidy_bindAll {m : Machine} {e : ScopeId} {l : List (String × Value)} {s t : Store} (hs : s₀.Tidy s)
    (hl : ∀ p ∈ l, s.Admits p.2) (h : bindAll m e l s = some (⟨⟩, t)) : s₀.Tidy t ∧ Keeps s₀ (l.map Prod.snd) s t := by
  induction l generalizing s with
  | nil =>
    cases h
    exact ⟨hs, .refl _⟩
  | cons p l ih =>
    rw [bindAll_cons] at h
    obtain ⟨⟨c, s'⟩, hc, h⟩ := Option.bind_eq_some_iff.1 h
    have htaken := hs.taken (hl p (by simp)) hc
    have hdefine := htaken.tidy.define (r := e) (x := p.1) htaken.free true
    have hkeeps := htaken.keeps_of_mem.trans hdefine.keeps (by simpa using fun hc => (htaken.eq_of_hidden hc).1)
    obtain ⟨ht, hk⟩ := ih hdefine.tidy (fun q hq => hkeeps.admits (hl q (by simp [hq]))) h
    refine ⟨ht, (hkeeps.mono ?_).trans hk ?_⟩
    · simp
    · exact fun b hb _ => by simp at hb ⊢; exact .inr hb

theorem tidy_callScope {m : Machine} {f : Closure} {args : List Value} {e : ScopeId} {s t : Store} (hs : s₀.Tidy s)
    (hargs : ∀ v ∈ args, s.Admits v) (h : m.callScope f args s = some (e, t)) : s₀.Tidy t ∧ Keeps s₀ args s t := by
  rw [callScope_eq] at h
  obtain ⟨⟨_, s'⟩, hp, h⟩ := Option.map_eq_some_iff.1 h
  cases h
  have hscope := hs.newScope (some f.scope)
  obtain ⟨ht, hk⟩ := tidy_bindAll hscope.tidy (fun p hp => hscope.keeps.admits (hargs _ (List.of_mem_zip hp).2)) hp
  refine ⟨ht, (hscope.keeps.mono (by simp)).trans hk fun b hb _ => ?_⟩
  obtain ⟨p, hp, rfl⟩ := List.mem_map.1 hb
  exact (List.of_mem_zip hp).2

theorem yields_handBack {v : Value} (hw : s₀.Tidy w.store) (hv : w.store.Admits v) : Yields s₀ [v] (Eval.handBack v) w := by
  refine Safely.get_bind (safely_walk hw fun c s hc => ?_)
  rw [handBack_eq] at hc
  split at hc
  · obtain ⟨⟨c', s'⟩, hcopy, hc⟩ := Option.map_eq_some_iff.1 hc
    cases hc
    have htaken := hw.taken hv hcopy
    have hmark := htaken.tidy.mark htaken.free
    have hhidden : s₀.Hidden w.store c' → c' ∈ [v] := fun hc => by simpa using (htaken.eq_of_hidden hc).1
    refine ⟨hmark.tidy, htaken.keeps_of_mem.trans hmark.keeps ?_, hmark.keeps.admits htaken.free.admits, hhidden⟩
    simpa using hhidden
  · cases hc
    exact ⟨hw, .refl _, hv, fun _ => by simp⟩

theorem safely_calling {body : Run Trace Value} (hw : s₀.Tidy w.store)
    (hbody : ∀ w', w'.store = w.store → Yields s₀ A body w') :
    Safely s₀ A (Eval.calling body) w fun r w' => ∀ v ∈ held r, Handed s₀ A w.store w'.store v := by
  refine Safely.get_bind ?_
  cases w.machine.enter with
  | error f => exact Safely.congr (x := Eval.fault f) rfl (Safely.fault hw)
  | ok m =>
    refine Safely.congr (x := do
      modify ({ · with machine := m })
      let r ← body.outcome
      modify fun w => { w with machine := w.machine.leave }
      return r) rfl ?_
    have henter : Safely s₀ A (modify ({ · with machine := m }) : Run Trace Unit) w fun _ w' => w'.store = w.store :=
      Safely.of_ok (Eval.runOn_modify _ w) (.of_store hw (.refl _) rfl) rfl
    refine henter.bind fun _ w' _ hstore => ⟨A, fun _ ha _ => ha, ?_⟩
    rw [← hstore] at hbody ⊢
    apply (hbody w' rfl).outcome.bind'
    intro r u hu hr
    have hleave : Safely s₀ [] (modify fun w => { w with machine := w.machine.leave } : Run Trace Unit) u
        fun _ u' => u'.store = u.store :=
      Safely.of_ok (Eval.runOn_modify _ u) (.of_store hu.tidy (.refl _) rfl) rfl
    exact hleave.bind' fun _ u' hu' hstore => Safely.pure hu'.tidy (hstore ▸ hr)

/-- What a call is promised of the code it runs. -/
structure SafeHost (s₀ : Store) (host : Host Trace) : Prop where
  body : ∀ b e w, s₀.Tidy w.store → Yields s₀ [] (host.runBody b e) w

theorem yields_closeBody {f : Closure} {host : Host Trace} (hhost : SafeHost s₀ host) {e : ScopeId} (hw : s₀.Tidy w.store) :
    Yields s₀ [] (do
      let r ← Eval.calling (host.runBody f.body e)
      Eval.handBack (← Eval.ofExcept r.closeCall)) w := by
  have hcall := safely_calling (A := []) hw fun w' hw' => hhost.body f.body e w' (hw' ▸ hw)
  refine hcall.yields fun r u hu hr => ⟨held r.closeCall, fun v hv => (hr v (mem_held_closeCall hv)).2, ?_⟩
  have hadmits : ∀ v ∈ held r.closeCall, u.store.Admits v := fun v hv => (hr v (mem_held_closeCall hv)).1
  refine (safely_ofExcept hu.tidy hadmits).yields fun v u' hu' ⟨hv, heq⟩ => ⟨[v], ?_, ?_⟩
  · simp [hv, held]
  · subst heq
    exact yields_handBack hu.tidy (hadmits v (by simp [hv, held]))

theorem yields_applyClosure {host : Host Trace} (hhost : SafeHost s₀ host) {f : Closure} {args : List Value}
    (hw : s₀.Tidy w.store) (hargs : ∀ v ∈ args, w.store.Admits v) : Yields s₀ args (Eval.applyClosure host f args) w := by
  unfold Eval.applyClosure
  cases f.checkArity args with
  | error e => exact Safely.congr (x := Eval.fault e) rfl (Safely.fault hw)
  | ok _ =>
    refine Safely.congr (x := do
      let e ← Eval.walk ((← get).machine.callScope f args)
      let r ← Eval.calling (host.runBody f.body e)
      Eval.handBack (← Eval.ofExcept r.closeCall)) rfl (Safely.get_bind ?_)
    have hscope : Safely s₀ args (Eval.walk (w.machine.callScope f args)) w fun _ _ => True :=
      safely_walk hw fun e s h => ⟨(tidy_callScope hw hargs h).1, (tidy_callScope hw hargs h).2, trivial⟩
    exact hscope.yields fun e u hu _ => ⟨[], by simp, yields_closeBody hhost hu.tidy⟩

theorem yields_bareBlock {body : Run Trace Value} (h : Yields s₀ [] body w) : Yields s₀ [] (Eval.bareBlock body) w := by
  refine (Yields.outcome h).yields fun (r : Outcome) u hu hr => ⟨held r.closeBlock, fun v hv => (hr v (mem_held_closeBlock hv)).2, ?_⟩
  exact yields_ofExcept hu.tidy fun v hv => (hr v (mem_held_closeBlock hv)).1

theorem yields_applyUnderline {host : Host Trace} (hhost : SafeHost s₀ host) {v : Underline} {args : List Value}
    (hw : s₀.Tidy w.store) : Yields s₀ [] (Eval.applyUnderline host v args) w := by
  unfold Eval.applyUnderline
  by_cases hargs : args ≠ []
  · rw [if_pos hargs]
    exact Safely.congr (x := Eval.fault (.arityMismatch 0 args.length)) (by rw [Eval.runOn_bind]; rfl) (Safely.fault hw)
  · rw [if_neg hargs]
    have hsteady := hw.newScope (some v.scope)
    have hscope : Safely s₀ [] (Eval.change (·.newScope (some v.scope))) w fun _ _ => True :=
      safely_change hsteady.tidy hsteady.keeps trivial
    refine hscope.yields fun e u hu _ => ⟨[], by simp, ?_⟩
    have hcall := safely_calling (A := []) hu.tidy fun w' hw' => yields_bareBlock (hhost.body v.body e w' (hw' ▸ hu.tidy))
    refine hcall.yields fun r u' hu' hr => ⟨held r, fun x hx => (hr x hx).2, ?_⟩
    exact yields_ofExcept hu'.tidy fun x hx => (hr x hx).1

/-- What is called is no native, whether it is called itself or through a reference. -/
theorem callee_kind {s : Store} {f : Value} (hs : s₀.Tidy s) (hf : s.Admits f) : (s.callee f).kind ≠ .native := by
  cases f with
  | ref slot index constant =>
    change ((s.slotValue? slot).getD .void).kind ≠ .native
    cases hval : s.slotValue? slot with
    | none => nofun
    | some v => exact hs.natives.children (v := .ref slot index constant) (by simp [children, Value.node?, Store.held, hval])
  | _ => exact hf.2

theorem yields_apply {host : Host Trace} (hhost : SafeHost s₀ host) {f : Value} {e : ScopeId} {args : List Value}
    (hw : s₀.Tidy w.store) (hf : w.store.Admits f) (hargs : ∀ v ∈ args, w.store.Admits v) :
    Yields s₀ args (Eval.apply host f e args) w := by
  refine Safely.get_bind ?_
  split
  · exact yields_applyClosure hhost hw hargs
  · exact (yields_applyUnderline hhost hw).mono (by simp)
  · next n hn => exact absurd (congrArg Value.kind hn) (callee_kind hw hf)
  · exact Safely.fault hw

/-! ## Lists of parts -/

section Parts

variable {eval : Expr → Run Trace Value} (heval : ∀ a w, s₀.Tidy w.store → Yields s₀ [] (eval a) w)

include heval

/-- Two integers, each looked at as soon as it is there. -/
theorem yields_twoInts {a b : Expr} {f : Int64 → Int64 → Value} (hf : ∀ k l, (f k l).isSimple) (hw : s₀.Tidy w.store) :
    Yields s₀ [] (do
      let k ← wantInt (← eval a)
      return f k (← wantInt (← eval b))) w := by
  apply Safely.bind' (heval a w hw)
  intro v w hw _
  apply (safely_wantInt hw.tidy).bind'
  intro k w hw _
  apply Safely.bind' (heval b w hw.tidy)
  intro v w hw _
  apply (safely_wantInt hw.tidy).bind'
  intro l w hw _
  exact Safely.pure hw.tidy (handed_simple (hf k l))

theorem safely_operand {a : Expr} (hw : s₀.Tidy w.store) :
    Safely s₀ [] (operand eval a) w fun p w' => Handed s₀ [] w.store w'.store p.1 := by
  refine Safely.bind' (heval a w hw) fun v u hu hv => Safely.get_bind ?_
  exact Safely.pure hu.tidy hv

theorem safely_operands {args : List Expr} (hw : s₀.Tidy w.store) :
    Safely s₀ [] (args.mapM (operand eval)) w fun ps w' => ∀ p ∈ ps, Handed s₀ [] w.store w'.store p.1 := by
  induction args generalizing w with
  | nil => exact Safely.pure hw (by simp)
  | cons a args ih =>
    rw [List.mapM_cons]
    apply (safely_operand heval hw).bind'
    intro p u hu hp
    apply (ih hu.tidy).bind'
    intro ps u' hu' hps
    apply Safely.pure hu'.tidy
    intro q hq
    rcases List.mem_cons.1 hq with rfl | hq
    · exact ⟨hu'.keeps.admits hp.1, hp.2⟩
    · exact (hps q hq).later hu (by simp)

/-- The items of an array can be stored, each in its place, and none was hidden before. -/
theorem safely_items {items : List Expr} (hw : s₀.Tidy w.store) :
    Safely s₀ [] (items.mapM fun item => do Eval.bound (← eval item)) w fun vs w' =>
      (∀ v ∈ vs, s₀.Free w'.store v ∧ ¬ s₀.Hidden w.store v) ∧ Once vs := by
  induction items generalizing w with
  | nil => exact Safely.pure hw (by simp [Once])
  | cons a items ih =>
    have hitem : Safely s₀ [] (do Eval.bound (← eval a)) w fun c w' => s₀.Free w'.store c ∧ ¬ s₀.Hidden w.store c := by
      refine Safely.bind (heval a w hw) fun v u hu hv => ⟨[v], by simpa using hv.2, ?_⟩
      refine (safely_bound hu.tidy hv.1).weaken fun c u' ⟨hfree, hold, _⟩ => ⟨hfree, fun hc => ?_⟩
      -- a hidden copy would be the value itself, which the operand did not hand out
      have hcv := (hold (hu.keeps.hidden c hc (by simp)).1).1
      simpa using hv.2 (hcv ▸ hc)
    rw [List.mapM_cons]
    apply hitem.bind'
    rintro c u hu ⟨hfree, hc⟩
    apply (ih hu.tidy).bind'
    rintro vs u' hu' ⟨hvs, hone⟩
    have hnot : ∀ v ∈ vs, v.isContainer → v ≠ c := by
      rintro v hv hcon rfl
      rcases hfree with hflat | ⟨hh, -⟩
      · exact node?_ne_none hcon (Value.node?_of_isSimple hflat)
      · exact (hvs v hv).2 hh
    refine Safely.pure hu'.tidy ⟨fun v hv => ?_, fun i j v hi hj hcon => ?_⟩
    · rcases List.mem_cons.1 hv with rfl | hv
      · exact ⟨hu'.keeps.free hfree (by simp), hc⟩
      · exact ⟨(hvs v hv).1, fun hh => (hvs v hv).2 (hu.keeps.hidden v hh (by simp)).1⟩
    · cases i <;> cases j <;> simp only [List.getElem?_cons_zero, List.getElem?_cons_succ, Option.some.injEq] at hi hj
      · rfl
      · exact absurd hi.symm (hnot v (List.mem_of_getElem? hj) hcon)
      · exact absurd hj.symm (hnot v (List.mem_of_getElem? hi) hcon)
      · rw [hone _ _ v hi hj hcon]

theorem yields_array {items : List Expr} (hw : s₀.Tidy w.store) : Yields s₀ [] (do
    let values ← items.mapM fun item => do Eval.bound (← eval item)
    return .array (← Eval.change (·.newArray values.toArray))) w := by
  refine (safely_items heval hw).yields fun vs u hu ⟨hvs, hone⟩ => ⟨vs, fun v hv hh => ((hvs v hv).2 hh).elim, ?_⟩
  obtain ⟨hsteady, hfree, hnew⟩ := hu.tidy.newArray (fun v hv => (hvs v hv).1) hone
  have hchange : Safely s₀ vs (Eval.change (·.newArray vs.toArray)) u fun a u' =>
      u'.store.Knows (.array a) ∧ ¬ u.store.Knows (.array a) := safely_change hsteady.tidy hsteady.keeps ⟨hfree.knows, hnew⟩
  refine hchange.bind' fun a u' hu' ⟨hkn, hnk⟩ => Safely.pure hu'.tidy ⟨⟨hkn, nofun⟩, fun hh => absurd hh.2.2.1 hnk⟩

end Parts

theorem yields_whileLoop {cond : Run Trace Bool} {body : Run Trace Value}
    (hcond : ∀ w, s₀.Tidy w.store → Safely s₀ [] cond w fun _ _ => True)
    (hbody : ∀ w, s₀.Tidy w.store → Yields s₀ [] body w) (n : Nat) (hw : s₀.Tidy w.store) :
    Yields s₀ [] (whileLoop cond body n) w := by
  induction n generalizing w with
  | zero => exact Safely.unfinished hw
  | succ n ih =>
    unfold whileLoop
    refine (hcond w hw).yields fun b u hu _ => ⟨[], by simp, ?_⟩
    cases b with
    | false => exact Safely.pure hu.tidy (handed_simple rfl)
    | true =>
      refine (Yields.outcome (hbody u hu.tidy)).yields fun r u' hu' hr => ⟨held r, fun v hv => (hr v hv).2, ?_⟩
      rcases r with (v | v | _ | f) | v
      · exact Safely.throw hu'.tidy fun x hx => ⟨(hr x (by simpa [held] using hx)).1, fun _ => by simpa [held] using hx⟩
      · exact Safely.pure hu'.tidy ⟨(hr v (by simp [held, Signal.value?])).1, fun _ => by simp [held, Signal.value?]⟩
      · exact (ih hu'.tidy).mono (by simp)
      · exact Safely.fault hu'.tidy
      · exact (ih hu'.tidy).mono (by simp)

theorem yields_block {run : Stmt → Run Trace Value} (hrun : ∀ a w, s₀.Tidy w.store → Yields s₀ [] (run a) w)
    {stmts : List Stmt} (hw : s₀.Tidy w.store) : Yields s₀ [] (Eval.block run stmts) w := by
  have fold : ∀ v w, s₀.Tidy w.store → w.store.Admits v → Yields s₀ [v] (stmts.foldlM (fun _ a => run a) v) w := by
    induction stmts with
    | nil => exact fun v w hw hv => Safely.pure hw ⟨hv, fun _ => by simp⟩
    | cons a stmts ih =>
      intro v w hw _
      rw [List.foldlM_cons]
      exact Safely.yields ((hrun a w hw).mono (by simp)) fun v' u hu hv' => ⟨[v'], by simpa using hv'.2, ih v' u hu.tidy hv'.1⟩
  exact (fold .void w hw ⟨trivial, nofun⟩).mono fun v hv hh => absurd hh.1 (by simp [List.mem_singleton.1 hv, Value.isContainer])

/-! ## Programs -/

theorem safeHost (p : Program) {exec : ScopeId → List Stmt → Run Trace Value}
    (hexec : ∀ e code w, s₀.Tidy w.store → Yields s₀ [] (exec e code) w) : SafeHost s₀ (p.host exec) where
  body b e w hw := hexec e (p.code b) w hw

/-- All code is safe in `n` steps. -/
structure Sound (s₀ : Store) (p : Program) (n : Nat) : Prop where
  expr : ∀ e a w, s₀.Tidy w.store → Yields s₀ [] (evalExpr p record n e a) w
  stmt : ∀ e a w, s₀.Tidy w.store → Yields s₀ [] (execStmt p record n e a) w
  block : ∀ e code w, s₀.Tidy w.store → Yields s₀ [] (execBlock p record n e code) w

variable {p : Program} {n : Nat} {e : ScopeId}

theorem yields_expr (h : Sound s₀ p n) (a : Expr) (hw : s₀.Tidy w.store) : Yields s₀ [] (evalExpr p record (n + 1) e a) w := by
  have heval : ∀ a w, s₀.Tidy w.store → Yields s₀ [] (evalExpr p record n e a) w := h.expr e
  cases a with
  | int k => exact Safely.pure hw (handed_simple rfl)
  | name x =>
    refine Safely.get_bind ?_
    split
    · next v hv =>
      obtain ⟨r, -, hr⟩ := lookup_eq_some hv
      exact Safely.pure hw ⟨hw.admits_at? hr, fun hh => absurd hr (hh.2.2.2 _)⟩
    · exact Safely.fault hw
  | add a b => exact yields_twoInts heval (f := fun k l => .int (k + l)) (fun _ _ => rfl) hw
  | less a b => exact yields_twoInts heval (f := fun k l => .bool (k < l)) (fun _ _ => rfl) hw
  | equal a b =>
    unfold evalExpr
    apply (safely_operand heval hw).bind'
    intro pa w hw _
    apply (safely_operand heval hw.tidy).bind'
    intro pb w hw _
    apply (safely_observe hw.tidy).bind'
    intro _ w hw _
    apply (safely_examine hw.tidy).bind'
    intro b w hw _
    exact Safely.pure hw.tidy (handed_simple rfl)
  | call f args =>
    unfold evalExpr
    refine (safely_operand heval hw).yields fun pf w hw hf => ⟨[], by simp, ?_⟩
    -- the call is given what the operands handed out
    refine (safely_operands heval hw.tidy).yields fun ps u hu hps => ⟨ps.map Prod.fst, ?_, ?_⟩
    · intro v hv
      obtain ⟨q, hq, rfl⟩ := List.mem_map.1 hv
      exact (hps q hq).2
    · refine (safely_observe hu.tidy).yields fun _ u' hu' hstore => ⟨ps.map Prod.fst, fun b hb _ => hb, ?_⟩
      apply yields_apply (safeHost p h.block) hu'.tidy (hstore ▸ hu.keeps.admits hf.1)
      intro v hv
      obtain ⟨q, hq, rfl⟩ := List.mem_map.1 hv
      exact hstore ▸ (hps q hq).1
  | function params body => exact Safely.pure hw (handed_simple rfl)
  | underline body => exact Safely.pure hw (handed_simple rfl)
  | array items => exact yields_array heval hw
  | length a =>
    unfold evalExpr
    apply Safely.bind' (heval a w hw)
    intro v w hw _
    apply (safely_wantArray hw.tidy).bind'
    intro b w hw _
    exact Safely.get_bind (Safely.pure hw.tidy (handed_simple rfl))

theorem yields_watched {x : Run Trace Value} (hw : s₀.Tidy w.store) (hx : ∀ w, s₀.Tidy w.store → Yields s₀ [] x w) :
    Yields s₀ [] (do
      observe record .started
      let r ← Eval.outcome x
      observe record .finished
      Eval.ofExcept r) w := by
  refine (safely_observe hw).yields fun _ u hu _ => ⟨[], by simp, ?_⟩
  refine (Yields.outcome (hx u hu.tidy)).yields fun r u' hu' hr => ⟨held r, fun v hv => (hr v hv).2, ?_⟩
  refine (safely_observe hu'.tidy).yields fun _ u'' hu'' hstore => ⟨held r, fun _ hv _ => hv, ?_⟩
  exact yields_ofExcept hu''.tidy fun v hv => hstore ▸ (hr v hv).1

theorem yields_stmt (h : Sound s₀ p n) (a : Stmt) (hw : s₀.Tidy w.store) : Yields s₀ [] (execStmt p record (n + 1) e a) w := by
  have hcond : ∀ c w, s₀.Tidy w.store → Safely s₀ [] (do wantBool (← evalExpr p record n e c)) w fun _ _ => True :=
    fun c w hw => Safely.bind' (h.expr e c w hw) fun v u hu _ => (safely_wantBool hu.tidy).weaken fun _ _ _ => trivial
  have andThen : ∀ {f : Value → Run Trace Value} a w, s₀.Tidy w.store →
      (∀ v u, s₀.Tidy u.store → u.store.Admits v → Yields s₀ [v] (f v) u) →
      Yields s₀ [] (do f (← evalExpr p record n e a)) w := fun a w hw hf =>
    Safely.yields (h.expr e a w hw) fun v u hu hv => ⟨[v], by simpa using hv.2, hf v u hu.tidy hv.1⟩
  unfold execStmt
  apply yields_watched hw
  intro w hw
  cases a with
  | expr a => exact h.expr e a w hw
  | define x a => exact andThen a w hw fun v u hu hv => yields_define hu hv
  | assign x a => exact andThen a w hw fun v u hu hv => yields_assign hu hv
  | push x a => exact andThen a w hw fun v u hu hv => yields_push hu hv
  | cond c yes =>
    refine (hcond c w hw).yields fun b u hu _ => ⟨[], by simp, ?_⟩
    cases b with
    | true => exact h.block e yes u hu.tidy
    | false => exact Safely.pure hu.tidy (handed_simple rfl)
  | «while» c body => exact yields_whileLoop (hcond c) (h.block e body) n hw
  | ret a =>
    apply andThen (f := fun v => throw (.ret v)) a w hw
    intro v u hu hv
    apply Safely.throw hu
    intro x hx
    cases hx
    exact ⟨hv, fun _ => by simp⟩
  | out a =>
    apply andThen (f := fun v => throw (.out v)) a w hw
    intro v u hu hv
    apply Safely.throw hu
    intro x hx
    cases hx
    exact ⟨hv, fun _ => by simp⟩
  | jump => exact Safely.throw hw (by simp [Signal.value?])
  | fail text => exact Safely.fault hw

/-- All code keeps stores tidy, and keeps and hands out no hidden container. -/
theorem sound (s₀ : Store) (p : Program) (n : Nat) : Sound s₀ p n := by
  induction n with
  | zero =>
    exact ⟨fun _ _ _ hw => Safely.unfinished hw, fun _ _ _ hw => Safely.unfinished hw,
      fun _ _ _ hw => Safely.unfinished hw⟩
  | succ n ih =>
    exact ⟨fun _ a _ hw => yields_expr ih a hw, fun _ a _ hw => yields_stmt ih a hw,
      fun e _ _ hw => yields_block (ih.stmt e) hw⟩

end Kernel

end CopyOnBind
