import CopyOnBind.Proofs.Locality
/-!
# Calls are confined

A call changes cells that it can reach and cells that it makes, and no others
(`call_confined`): it reaches what the scope of the called closure leads to, the
scopes of closures in its arguments, and arguments that are marked. The caller's
scope and the containers in its arguments are not reached as such, since a
parameter is bound to a copy. A call that can get at a native can reach everything.

`Confines` is what code promises when it runs in a confined store: it leaves the
store confined, and whatever it ends with leads into the domain. Code in a scope of
the domain runs in step with itself, and what runs in step with itself keeps that
promise (`InStep.confines`). What is left are the arguments, which need not lead
into the domain themselves: only their copies do.
-/

namespace CopyOnBind

open Relation Store

namespace Kernel

variable {ω α β : Type} {s₀ s t : Store} {R : Cell → Prop} {e : ScopeId} {v : Value}

/-! ## What code promises -/

/-- What a run ends with: a value as wanted, or a signal whose value leads into the domain. -/
def Within (s₀ : Store) (R : Cell → Prop) (Q : α → Prop) : Except Signal α → Prop
  | .ok a => Q a
  | .error e => ∀ v, e.value? = some v → s₀.Local R v

structure Ended (s₀ : Store) (R : Cell → Prop) (Q : α → Prop) (p : Option (Except Signal α) × World ω) : Prop where
  store : s₀.Confined R p.2.store
  result : ∀ r, p.1 = some r → Within s₀ R Q r

def Confines (s₀ : Store) (R : Cell → Prop) (x : Run ω α) (Q : α → Prop) : Prop :=
  ∀ w, s₀.Confined R w.store → Ended s₀ R Q (x.runOn w)

theorem Ended.some {Q : α → Prop} {r : Except Signal α} {w : World ω} (hw : s₀.Confined R w.store)
    (hr : Within s₀ R Q r) : Ended s₀ R Q (some r, w) where
  store := hw
  result := by
    rintro _ ⟨⟩
    exact hr

theorem Ended.none {Q : α → Prop} {w : World ω} (hw : s₀.Confined R w.store) : Ended s₀ R Q (none, w) where
  store := hw
  result := by
    rintro _ ⟨⟩

namespace Confines

variable {x : Run ω α} {f : α → Run ω β} {P Q : α → Prop} {Q' : β → Prop}

theorem bind (hx : Confines s₀ R x P) (hf : ∀ a, P a → Confines s₀ R (f a) Q') : Confines s₀ R (x >>= f) Q' := by
  intro w hw
  have hx := hx w hw
  rw [Eval.runOn_bind]
  rcases hrun : x.runOn w with ⟨_ | e | a, w'⟩ <;> rw [hrun] at hx
  · exact .none hx.store
  · exact .some hx.store (hx.result _ rfl)
  · exact hf a (hx.result _ rfl) w' hx.store

/-- What is looked up in the store of the moment holds in every confined store. -/
theorem get_bind {f : World ω → Run ω β} (hf : ∀ w, s₀.Confined R w.store → Confines s₀ R (f w) Q') :
    Confines s₀ R (get >>= f) Q' := by
  intro w hw
  rw [Eval.runOn_get_bind]
  exact hf w hw w hw

theorem walk {g : StateT Store Option α}
    (hg : ∀ s a t, s₀.Confined R s → g s = some (a, t) → s₀.Confined R t ∧ Q a) :
    Confines s₀ R (Eval.walk g : Run ω α) Q := by
  intro w hw
  rw [Eval.runOn_walk]
  cases h : g w.store with
  | none => exact .none hw
  | some p =>
    obtain ⟨hs, hQ⟩ := hg w.store p.1 p.2 hw h
    exact .some hs hQ

end Confines

/-- What runs in step with itself leaves a confined store confined: the store is alike to itself. -/
theorem InStep.confines {x : Run ω α} {Q : α → α → Prop} {P : α → Prop} (hx : InStep s₀ R x x Q)
    (hQ : ∀ a b, Q a b → P a) : Confines s₀ R x P := by
  intro w hw
  obtain ⟨hlevel, hrel⟩ := hx w w ⟨.refl hw, rfl, rfl⟩
  refine ⟨hlevel.store.confined, fun r hr => ?_⟩
  rw [hr] at hrel
  cases hrel with
  | some hsame =>
    cases hsame with
    | ok hab => exact hQ _ _ hab
    | error he => exact he

/-- Code whose value, too, leads into the domain. -/
abbrev Stays (s₀ : Store) (R : Cell → Prop) (x : Run ω Value) : Prop := Confines s₀ R x (s₀.Local R)

theorem InStep.stays {x : Run ω Value} (hx : SameValue s₀ R x x) : Stays s₀ R x :=
  hx.confines fun _ _ h => h.2

/-! ## Calls -/

theorem confined_bindAll {m : Machine} {l : List (String × Value)} (he : s₀.Domain R (.scope e))
    (hl : ∀ p ∈ l, s₀.Bindable R p.2) (hs : s₀.Confined R s) (h : bindAll m e l s = some (⟨⟩, t)) : s₀.Confined R t := by
  induction l generalizing s with
  | nil =>
    cases h
    exact hs
  | cons p l ih =>
    rw [bindAll_cons] at h
    obtain ⟨⟨c, u⟩, hc, h⟩ := Option.bind_eq_some_iff.1 h
    obtain ⟨hu, hlocal⟩ := hs.copy (hl p (by simp)) hc
    exact ih (fun q hq => hl q (by simp [hq])) (hu.define he hlocal true) h

theorem confined_callScope {m : Machine} {f : Closure} {args : List Value} (hf : s₀.Domain R (.scope f.scope))
    (hargs : ∀ v ∈ args, s₀.Bindable R v) (hs : s₀.Confined R s) (h : m.callScope f args s = some (e, t)) :
    s₀.Confined R t ∧ s₀.Domain R (.scope e) := by
  rw [callScope_eq] at h
  obtain ⟨⟨_, u⟩, hu, h⟩ := Option.map_eq_some_iff.1 h
  cases h
  obtain ⟨hnew, he⟩ := hs.newScope hf
  exact ⟨confined_bindAll he (fun p hp => hargs p.2 (List.of_mem_zip hp).2) hnew hu, he⟩

section Calls

variable {host : Host ω} (hhost : HostInStep s₀ R host host) {args : List Value}

include hhost

theorem stays_applyClosure {f : Closure} (hf : s₀.Domain R (.scope f.scope)) (hargs : ∀ v ∈ args, s₀.Bindable R v) :
    Stays s₀ R (Eval.applyClosure host f args) := by
  refine (InStep.orFault.confines (P := fun _ => True) fun _ _ _ => trivial).bind fun _ _ => .get_bind fun w _ => ?_
  have hscope : Confines s₀ R (Eval.walk (w.machine.callScope f args) : Run ω ScopeId)
      fun e => s₀.Domain R (.scope e) :=
    .walk fun _ _ _ hs h => confined_callScope hf hargs hs h
  refine hscope.bind fun e he => ?_
  exact (sameValue_handedBack Outcome.closeCall (hhost.body f.body e he) fun _ _ => SameEnd.closeCall).stays

theorem stays_apply {f : Value} (hf : ∀ c, (s₀.callee f).captured? = some c → s₀.Domain R c)
    (hargs : ∀ v ∈ args, s₀.Bindable R v) : Stays s₀ R (Eval.apply host f e args) := by
  refine .get_bind fun w hw => ?_
  have hcallee : ∀ c, (w.store.callee f).captured? = some c → s₀.Domain R c := fun c => hw.callee (.inr hf)
  split
  · next g hg => exact stays_applyClosure hhost (hcallee _ (by rw [hg]; rfl)) hargs
  · next u hu => exact (sameValue_applyUnderline hhost (hcallee _ (by rw [hu]; rfl))).stays
  · next n hn => exact absurd (domain_host.1 (hcallee _ (by rw [hn]; rfl))) hhost.apart
  · exact InStep.fault.stays

end Calls

/-! ## What a call reaches -/

/-- A cell that a call starts from. -/
inductive CallRoot (s : Store) (callee : Value) (args : List Value) : Cell → Prop
  | captured (c : Cell) : (s.callee callee).captured? = some c → CallRoot s callee args c
  /-- The scope of a closure in an argument, or the host of a native, at any depth and also behind references. -/
  | inside (arg v : Value) (c : Cell) : arg ∈ args → ReflTransGen (fun v w => w ∈ s.children v) arg v →
    v.captured? = some c → CallRoot s callee args c
  | marked (arg : Value) (c : Cell) : arg ∈ args → s.isMarked arg = true → arg.cell? = some c → CallRoot s callee args c

/-- A cell that a call can get at. -/
def CallReaches (s : Store) (callee : Value) (args : List Value) (c : Cell) : Prop :=
  ∃ root, CallRoot s callee args root ∧ ReflTransGen s.Links root c

variable {callee : Value} {args : List Value}

/-- A call reaches nothing outside a set of cells that holds its roots and leads to no others. -/
theorem CallReaches.mem {c : Cell} {D : Cell → Prop} (h : CallReaches s callee args c)
    (hroot : ∀ d, CallRoot s callee args d → D d) (hlink : ∀ c d, D c → s.Links c d → D d) : D c := by
  obtain ⟨root, hr, hpath⟩ := h
  induction hpath with
  | refl => exact hroot root hr
  | tail _ hcd ih => exact hlink _ _ ih hcd

theorem bindable_of_mem_args (hv : v ∈ args) : s.Bindable (CallReaches s callee args) v := by
  cases hm : s.isMarked v with
  | true => exact .inl fun c hc => .inr ⟨c, .marked v c hv hm hc, .refl⟩
  | false => exact .inr ⟨fun w hw c hc => .inr ⟨c, .inside v w c hv hw hc, .refl⟩, hm⟩

/-- A call, however it ends, leaves every cell as it is that was there and that it cannot reach:
content, mark and parent. -/
theorem call_confined (p : Program) (watch : Watcher ω) (n : Nat) (callee : Value) (caller : ScopeId)
    (args : List Value) (w : World ω) (c : Cell) (hc : w.store.Has c) (hreach : ¬ CallReaches w.store callee args c) :
    w.store.SameCell ((Eval.apply (p.host (execBlock p watch n)) callee caller args).runOn w).2.store c := by
  have hstart : w.store.Confined (CallReaches w.store callee args) w.store :=
    .refl fun c d ⟨root, hroot, hpath⟩ hlink => ⟨root, hroot, hpath.tail hlink⟩
  have hapart : ¬ CallReaches w.store callee args .host := by
    rintro ⟨root, hroot, hpath⟩
    exact hreach ⟨root, hroot, hpath.tail (.host c)⟩
  have hhost := hostInStep p hapart (code_inStep w.store hapart p watch watch n).block
  have hcallee : ∀ c, (w.store.callee callee).captured? = some c →
      w.store.Domain (CallReaches w.store callee args) c := fun c hc => .inr ⟨c, .captured c hc, .refl⟩
  have hcall := stays_apply (e := caller) hhost hcallee (fun v hv => bindable_of_mem_args hv) w hstart
  exact hcall.store.same c fun hd => hd.elim (fun h => h hc) hreach

/-- A function that pushes onto its parameter, defines a name and assigns one in
the scope it was made in changes that scope, and nothing in its caller's. -/
theorem call_confined_apart :
    let s : Store :=
      { arrays := #[{ elements := #[.int 1, .int 2] }]
        scopes := #[{ bindings := [⟨"data", .array ⟨0⟩, true⟩] }, { bindings := [⟨"total", .int 0, true⟩] }] }
    let p : Program :=
      { blocks := #[[.push "items" (.int 3), .define "data" (.int 0), .assign "total" (.length (.name "items"))]] }
    let f : Value := .function ⟨["items"], ⟨0, 3⟩, ⟨1⟩⟩
    ∃ w, (Eval.apply (p.host (execBlock p (fun _ _ => ()) 9)) f ⟨0⟩ [.array ⟨0⟩]).runOn { store := s, notes := () } =
        (some (.ok .void), w) ∧ w.store.lookup ⟨1⟩ "total" = some (.int 3) ∧
      s.SameCell w.store (.scope ⟨0⟩) ∧ s.SameCell w.store (.array ⟨0⟩) := by
  intro s p f
  have parts : ∀ v, ReflTransGen (fun v w => w ∈ s.children v) (.array ⟨0⟩) v → v = .array ⟨0⟩ ∨ ∃ k, v = .int k := by
    intro v hv
    induction hv with
    | refl => exact .inl rfl
    | tail _ hw ih =>
      obtain rfl | ⟨k, rfl⟩ := ih
      · exact .inr ((List.mem_pair.1 hw).elim (⟨_, ·⟩) (⟨_, ·⟩))
      · cases hw
  have outside : ∀ c, c ≠ .scope ⟨1⟩ → ¬ CallReaches s f [.array ⟨0⟩] c := by
    refine fun c hc hreach => hc (hreach.mem (D := (· = .scope ⟨1⟩)) (fun d hd => ?_) fun c d hc hlink => ?_)
    · cases hd with
      | captured e he => cases he; rfl
      | inside arg v e harg hv he =>
        cases List.mem_singleton.1 harg
        obtain rfl | ⟨k, rfl⟩ := parts v hv
        · cases he
        · cases he
      | marked arg d harg hm hd =>
        cases List.mem_singleton.1 harg
        cases hm
    · subst hc
      cases hlink with
      | content hv hd =>
        cases List.mem_singleton.1 hv
        cases hd
      | parent hr => cases hr
  have kept := call_confined p (fun _ _ => ()) 9 f ⟨0⟩ [.array ⟨0⟩] { store := s, notes := () }
  have hend : ((Eval.apply (p.host (execBlock p (fun _ _ => ()) 9)) f ⟨0⟩ [.array ⟨0⟩]).runOn
      { store := s, notes := () }).1 = some (.ok .void) := by decide +kernel
  have htotal : ((Eval.apply (p.host (execBlock p (fun _ _ => ()) 9)) f ⟨0⟩ [.array ⟨0⟩]).runOn
      { store := s, notes := () }).2.store.lookup ⟨1⟩ "total" = some (.int 3) := by decide +kernel
  rcases hrun : (Eval.apply (p.host (execBlock p (fun _ _ => ()) 9)) f ⟨0⟩ [.array ⟨0⟩]).runOn
    { store := s, notes := () } with ⟨r, w⟩
  rw [hrun] at kept hend htotal
  exact ⟨w, congrArg (·, w) hend, htotal, kept _ (by decide) (outside _ (by decide)),
    kept _ (by decide) (outside _ (by decide))⟩

end Kernel

end CopyOnBind
