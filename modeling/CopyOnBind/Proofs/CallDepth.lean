import CopyOnBind.Proofs.Laws
import CopyOnBind.Proofs.Ownership
/-!
# The depth of calls

A call leaves the depth as it finds it, however it ends; its body runs one call
deeper, and never deeper than the limit; and it is refused at the limit and
nowhere else (`call_depth_kept`). So the counter is stepped neither past the
limit nor back from zero.

Programs say at which depths they are when they are watched (`depths`), and all
of them are in range, also when the steps run out (`momentsLaw`).
-/

namespace CopyOnBind

open Store

variable {ω α β : Type}

theorem Machine.enter_eq_ok {m m' : Machine} :
    m.enter = .ok m' ↔ m.depth < m.policy.maxCallDepth ∧ m' = { m with depth := m.depth + 1 } := by
  unfold enter
  split
  · next h => simp [Nat.not_lt.2 h]
  · next h => simp [Nat.not_le.1 h, eq_comm]

/-! ## The machine is given back -/

/-- What ends has the depth it started with. -/
def depthLaw (ω : Type) : Law ω where
  finished w u := u.machine.depth = w.machine.depth
  cutOff _ _ := True
  store _ _ := rfl
  trans huv hvw := hvw.trans huv
  stop _ _ := trivial
  late _ _ := trivial
  leave {w m u} hm hu := by
    obtain ⟨-, rfl⟩ := Machine.enter_eq_ok.1 hm
    exact Nat.sub_eq_of_eq_add hu
  inside _ _ := trivial

/-- What ends has the machine it started with. -/
def machineLaw (ω : Type) : Law ω where
  finished w u := u.machine = w.machine
  cutOff _ _ := True
  store _ _ := rfl
  trans huv hvw := hvw.trans huv
  stop _ _ := trivial
  late _ _ := trivial
  leave {w m u} hm hu := by
    obtain ⟨-, rfl⟩ := Machine.enter_eq_ok.1 hm
    change u.machine = { w.machine with depth := w.machine.depth + 1 } at hu
    change u.machine.leave = w.machine
    rw [hu]
    rfl
  inside _ _ := trivial

theorem Law.Obeys.machine {x : Eval (World ω) α} {w u : World ω} {r : Except Signal α} (hx : (machineLaw ω).Obeys x)
    (hrun : x.runOn w = (some r, u)) : u.machine = w.machine := hx.finished hrun

/-- Bodies that end have the depth they started with. -/
def Host.Balanced (host : Host ω) : Prop := ∀ b e, (depthLaw ω).Obeys (host.runBody b e)

/-! ## Every moment -/

namespace Kernel

theorem balanced_host (p : Program) (watch : Watcher ω) (n : Nat) : (p.host (execBlock p watch n)).Balanced := by
  have hcode : CodeObeys (depthLaw ω) p watch n := code_obeys (fun _ _ => rfl) p n
  exact fun b e => hcode.block e (p.code b)

/-- Notes the depth at every moment that a watcher is shown. -/
def depths : Watcher (List Nat) := fun _ w => w.notes ++ [w.machine.depth]

/-- Whether a depth lies between that of a world and the limit. -/
def InRange (w : World ω) (k : Nat) : Prop := w.machine.depth ≤ k ∧ k ≤ max w.machine.depth w.machine.policy.maxCallDepth

theorem inRange_self (w : World ω) : InRange w w.machine.depth := ⟨Nat.le_refl _, Nat.le_max_left _ _⟩

/-- All depths that were noted since are in range. -/
def Noted (w u : World (List Nat)) : Prop := ∃ ks, u.notes = w.notes ++ ks ∧ ∀ k ∈ ks, InRange w k

theorem Noted.refl (w : World (List Nat)) : Noted w w := ⟨[], by simp, nofun⟩

theorem Noted.trans {u v w : World (List Nat)} (huv : Noted u v) (hm : v.machine = u.machine) (hvw : Noted v w) :
    Noted u w := by
  obtain ⟨ks, hks, hin⟩ := huv
  obtain ⟨ks', hks', hin'⟩ := hvw
  refine ⟨ks ++ ks', by rw [hks', hks, List.append_assoc], fun k hk => ?_⟩
  rcases List.mem_append.1 hk with hk | hk
  · exact hin k hk
  · have hk := hin' k hk
    rwa [InRange, hm] at hk

/-- What is in range inside a call is in range around it. -/
theorem InRange.around {w : World ω} {m : Machine} {k : Nat} (hm : w.machine.enter = .ok m)
    (hk : InRange { w with machine := m } k) : InRange w k := by
  obtain ⟨hlt, rfl⟩ := Machine.enter_eq_ok.1 hm
  unfold InRange at hk ⊢
  dsimp only at hk
  omega

theorem Noted.around {w u : World (List Nat)} {m : Machine} (hm : w.machine.enter = .ok m)
    (h : Noted { w with machine := m } u) : Noted w u := by
  obtain ⟨ks, hks, hin⟩ := h
  exact ⟨ks, hks, fun k hk => (hin k hk).around hm⟩

/-- The depth is in range at every moment, and when the steps run out. -/
def momentsLaw : Law (List Nat) where
  finished w u := u.machine = w.machine ∧ Noted w u
  cutOff w u := InRange w u.machine.depth ∧ Noted w u
  store w s := ⟨rfl, .refl w⟩
  trans huv hvw := ⟨hvw.1.trans huv.1, huv.2.trans huv.1 hvw.2⟩
  stop w _ := ⟨inRange_self w, .refl w⟩
  late huv hvw := by
    refine ⟨?_, huv.2.trans huv.1 hvw.2⟩
    have hin := hvw.1
    rwa [InRange, huv.1] at hin
  leave hm hu := ⟨(machineLaw _).leave hm hu.1, hu.2.around hm⟩
  inside hm hu := ⟨hu.1.around hm, hu.2.around hm⟩

theorem depths_noted (m : Moment) (w : World (List Nat)) : momentsLaw.finished w { w with notes := depths m w } :=
  ⟨rfl, [w.machine.depth], rfl, by simpa using inRange_self w⟩

theorem noted_run (p : Program) (n : Nat) (e : ScopeId) (code : List Stmt) (w : World (List Nat)) :
    InRange w (run p depths n e code w).2.machine.depth ∧ Noted w (run p depths n e code w).2 := by
  have hend := (code_obeys depths_noted p n).block e code { w with broken := false }
  unfold run
  rcases hrun : (execBlock p depths n e code).runOn { w with broken := false } with ⟨_ | r, u⟩ <;> rw [hrun] at hend
  · exact hend.cutOff rfl
  · obtain ⟨hm, hnoted⟩ := hend.finished r rfl
    exact ⟨hm ▸ inRange_self w, hnoted⟩

end Kernel

/-! ## What a call runs -/

namespace Eval

variable {w : World ω}

theorem runOn_bind_congr {x y : Eval (World ω) α} {f g : α → Eval (World ω) β} (hxy : x.runOn w = y.runOn w)
    (hfg : ∀ a u, x.runOn w = (some (.ok a), u) → (f a).runOn u = (g a).runOn u) :
    (x >>= f).runOn w = (y >>= g).runOn w := by
  rw [runOn_bind, runOn_bind, ← hxy]
  rcases hrun : x.runOn w with ⟨_ | e | a, u⟩
  · rfl
  · rfl
  · exact hfg a u hrun

theorem calling_congr {body body' : Eval (World ω) Value}
    (h : ∀ m, w.machine.enter = .ok m → body.runOn { w with machine := m } = body'.runOn { w with machine := m }) :
    (calling body).runOn w = (calling body').runOn w := by
  rw [runOn_calling, runOn_calling]
  cases hm : w.machine.enter with
  | error f => rfl
  | ok m => simp only [h m hm]

end Eval

/-- In worlds with this machine, the hosts do the same. -/
structure Host.Agree (host host' : Host ω) (m : Machine) : Prop where
  body : ∀ b e (u : World ω), u.machine = m → (host.runBody b e).runOn u = (host'.runBody b e).runOn u
  native : host.runNative = host'.runNative

theorem runOn_bareBlock_congr {x y : Eval (World ω) Value} {w : World ω} (h : x.runOn w = y.runOn w) :
    (Eval.bareBlock x).runOn w = (Eval.bareBlock y).runOn w := by
  refine Eval.runOn_bind_congr ?_ fun _ _ _ => rfl
  rw [Eval.runOn_outcome, Eval.runOn_outcome, h]

section

variable {host host' : Host ω} {w : World ω} {args : List Value} {caller : ScopeId} {callee : Value}

/-- Only what the host does one call deeper matters. -/
theorem apply_congr (h : ∀ m, w.machine.enter = .ok m → host.Agree host' m) :
    (Eval.apply host callee caller args).runOn w = (Eval.apply host' callee caller args).runOn w := by
  -- the body is called in a world that has the machine of `w`
  have body : ∀ {u : World ω} b e, u.machine = w.machine →
      (Eval.calling (host.runBody b e)).runOn u = (Eval.calling (host'.runBody b e)).runOn u := fun b e hu =>
    Eval.calling_congr fun m hm => (h m (hu ▸ hm)).body b e _ rfl
  unfold Eval.apply
  rw [Eval.runOn_get_bind, Eval.runOn_get_bind]
  split
  · next f _ =>
    unfold Eval.applyClosure
    refine Eval.runOn_bind_congr rfl fun _ u hu => ?_
    have hu : u = w := by
      unfold Eval.orFault at hu
      rw [Eval.runOn_ofExcept] at hu
      exact (Prod.mk.inj hu).2.symm
    subst hu
    rw [Eval.runOn_get_bind, Eval.runOn_get_bind]
    refine Eval.runOn_bind_congr rfl fun e v hv => ?_
    exact Eval.runOn_bind_congr (body f.body e (Law.Obeys.machine .walk hv)) fun _ _ _ => rfl
  · next g _ =>
    unfold Eval.applyUnderline
    by_cases hargs : args ≠ []
    · rw [if_pos hargs, if_pos hargs]
      exact Eval.runOn_bind_congr rfl fun _ _ hu => by cases hu
    · rw [if_neg hargs, if_neg hargs]
      refine Eval.runOn_bind_congr (x := Eval.change _) rfl fun e v hv => ?_
      refine Eval.runOn_bind_congr (Eval.calling_congr fun m hm => ?_) fun _ _ _ => rfl
      exact runOn_bareBlock_congr ((h m (Law.Obeys.machine .change hv ▸ hm)).body g.body e _ rfl)
  · next n _ =>
    unfold Eval.applyNative
    refine Eval.runOn_bind_congr rfl fun vs u hu => ?_
    refine Eval.runOn_bind_congr (Eval.calling_congr fun m hm => ?_) fun _ _ _ => rfl
    rw [(h m (Law.Obeys.machine (.mapM fun _ => .bound) hu ▸ hm)).native]
  · rfl

end

/-! ## Refusal -/

namespace Store

variable {s t : Store} {v : Value} {vs : List Value}

/-- The values can be bound, one after the other: none of them leads into a cycle. -/
structure Binds (s : Store) (vs : List Value) : Prop where
  wellFormed : s.WellFormed
  knows : ∀ v ∈ vs, s.Knows v
  grounded : ∀ v ∈ vs, s.Grounded v

theorem SameContents.grounded (h : s.SameContents t) (hv : s.Grounded v) : t.Grounded v := by
  rw [← exists_content_iff] at hv ⊢
  rwa [h.content]

theorem Binds.same (h : s.Binds vs) (hst : s.SameContents t) : t.Binds vs :=
  ⟨hst.wellFormed h.wellFormed, fun v hv => hst.knows.2 (h.knows v hv), fun v hv => hst.grounded (h.grounded v hv)⟩

theorem Binds.sub {us : List Value} (h : s.Binds vs) (hsub : ∀ v ∈ us, v ∈ vs) : s.Binds us :=
  ⟨h.wellFormed, fun v hv => h.knows v (hsub v hv), fun v hv => h.grounded v (hsub v hv)⟩

theorem Binds.copy (h : s.Binds (v :: vs)) : ∃ c t, s.copy v = some (c, t) ∧ t.Binds vs := by
  have hv : s.Knows v := h.knows v (by simp)
  obtain ⟨⟨c, t⟩, hc⟩ := Option.isSome_iff_exists.1 (isSome_copy h.wellFormed hv (h.grounded v (by simp)))
  have hs : s.Binds vs := h.sub fun w hw => by simp [hw]
  refine ⟨c, t, hc, ?_⟩
  rcases extends_or_unmark hc with hst | rfl
  · exact ⟨wellFormed_copy h.wellFormed hv hc, fun w hw => hst.knows (hs.knows w hw),
      fun w hw => hst.grounded h.wellFormed (hs.knows w hw) (hs.grounded w hw)⟩
  · exact hs.same (.unmark s v)

theorem Binds.bindAll {m : Machine} {e : ScopeId} {l : List (String × Value)} (h : s.Binds (l.map Prod.snd)) :
    (Kernel.bindAll m e l s).isSome := by
  induction l generalizing s with
  | nil => rfl
  | cons p l ih =>
    obtain ⟨c, t, hc, ht⟩ := h.copy
    rw [Kernel.bindAll_cons, hc, Option.bind_some]
    exact ih (ht.same (.modifyScope t e _))

theorem Binds.callScope {m : Machine} {f : Closure} (h : s.Binds vs) : (m.callScope f vs s).isSome := by
  have hzip : s.Binds ((f.params.zip vs).map Prod.snd) := h.sub fun v hv => by
    obtain ⟨p, hp, rfl⟩ := List.mem_map.1 hv
    exact (List.of_mem_zip hp).2
  rw [Kernel.callScope_eq, Option.isSome_map]
  exact (hzip.same (.newScope s (some f.scope))).bindAll

/-- The callee can be called, and takes as many arguments as there are. -/
def Accepts (s : Store) (callee : Value) (args : List Value) : Prop :=
  match s.callee callee with
  | .function f => args.length = f.params.length
  | .underline _ => args = []
  | .native _ => True
  | _ => False

end Store

/-- A host whose code never comes to an end. -/
def Host.stuck (ω : Type) : Host ω := ⟨fun _ _ => Eval.unfinished, fun _ _ _ => Eval.unfinished⟩

section

variable {w : World ω} {args : List Value} {caller : ScopeId} {callee : Value}

theorem runOn_mapM_bound (h : w.store.Binds args) : ∃ vs u, (args.mapM Eval.bound).runOn w = (some (.ok vs), u) := by
  induction args generalizing w with
  | nil => exact ⟨[], w, rfl⟩
  | cons v args ih =>
    obtain ⟨c, t, hc, ht⟩ := h.copy
    obtain ⟨vs, u, hu⟩ := ih (w := { w with store := t }) ht
    refine ⟨c :: vs, u, ?_⟩
    rw [List.mapM_cons, Eval.runOn_bind, Eval.runOn_bound, hc]
    simp only [Eval.runOn_bind, hu, Eval.runOn_pure]

/-- A call that is accepted binds its arguments, and then comes to the counter. -/
theorem exists_calling (caller : ScopeId) (h : w.store.Accepts callee args) (hargs : w.store.Binds args) :
    ∃ (part : Host ω → Eval (World ω) Value) (rest : Outcome → Eval (World ω) Value) (u : World ω),
      u.machine = w.machine ∧ (∀ v, (part (.stuck ω)).runOn v = (none, v)) ∧
        ∀ host, (Eval.apply host callee caller args).runOn w = (Eval.calling (part host) >>= rest).runOn u := by
  unfold Store.Accepts at h
  simp only [Eval.apply, Eval.runOn_get_bind]
  cases hf : w.store.callee callee with
  | function f =>
    rw [hf] at h
    obtain ⟨⟨e, t⟩, hscope⟩ := Option.isSome_iff_exists.1 (hargs.callScope (m := w.machine) (f := f))
    refine ⟨fun host => host.runBody f.body e, fun r => do Eval.handBack (← Eval.ofExcept r.closeCall),
      { w with store := t }, rfl, fun _ => rfl, fun host => ?_⟩
    simp only [Eval.applyClosure, Closure.checkArity, if_pos h, Eval.orFault_ok, pure_bind]
    rw [Eval.runOn_get_bind, Eval.runOn_bind, Eval.runOn_walk, hscope]
  | underline g =>
    rw [hf] at h
    subst h
    exact ⟨fun host => Eval.bareBlock (host.runBody g.body (w.store.newScope (some g.scope)).1), Eval.ofExcept,
      { w with store := (w.store.newScope (some g.scope)).2 }, rfl, fun _ => rfl, fun host => rfl⟩
  | native n =>
    obtain ⟨vs, u, hu⟩ := runOn_mapM_bound hargs
    refine ⟨fun host => Eval.onStore (host.runNative n caller vs), fun r => do Eval.handBack (← Eval.ofExcept r), u,
      Law.Obeys.machine (.mapM fun _ => .bound) hu, fun _ => rfl, fun host => ?_⟩
    simp only [Eval.applyNative]
    rw [Eval.runOn_bind, hu]
  | _ =>
    rw [hf] at h
    exact h.elim

/-- What the limit answers to a call. -/
def Machine.refusal (m : Machine) : Option Outcome := some (.error (.error (.callDepthExceeded m.policy.maxCallDepth)))

/-- A call that is accepted is refused, whatever it would run, exactly at the limit. -/
theorem refused_iff (h : w.store.Accepts callee args) (hargs : w.store.Binds args)
    (hd : w.machine.depth ≤ w.machine.policy.maxCallDepth) :
    (∀ host : Host ω, ((Eval.apply host callee caller args).runOn w).1 = w.machine.refusal) ↔
      w.machine.depth = w.machine.policy.maxCallDepth := by
  obtain ⟨part, rest, u, hu, hstuck, hcall⟩ := exists_calling caller h hargs
  constructor
  · intro hrefused
    by_contra hne
    -- below the limit the body is entered
    have henter : u.machine.enter = .ok { w.machine with depth := w.machine.depth + 1 } := by
      rw [hu, Machine.enter_eq_ok]
      exact ⟨by omega, rfl⟩
    have hnone := hrefused (.stuck ω)
    rw [hcall, Eval.runOn_bind, Eval.runOn_calling, henter] at hnone
    simp only [hstuck] at hnone
    cases hnone
  · intro heq host
    have henter : u.machine.enter = .error (.callDepthExceeded w.machine.policy.maxCallDepth) := by
      rw [hu, Machine.enter, if_pos (Nat.le_of_eq heq.symm)]
    rw [hcall, Eval.runOn_bind, Eval.runOn_calling, henter]
    rfl

end

/-! ## The depth of calls -/

/-- What a call does with the depth. -/
structure DepthKept (host : Host ω) (callee : Value) (caller : ScopeId) (args : List Value) (w : World ω) : Prop where
  /-- However the call ends, it ends at the depth it started at. -/
  returned : ∀ r u, (Eval.apply host callee caller args).runOn w = (some r, u) → u.machine.depth = w.machine.depth
  /-- What is run is run one call deeper and within the limit: what the host does elsewhere does not matter. -/
  entered : ∀ host' : Host ω,
    (∀ m : Machine, m = { w.machine with depth := w.machine.depth + 1 } → m.depth ≤ m.policy.maxCallDepth →
      host.Agree host' m) →
    (Eval.apply host callee caller args).runOn w = (Eval.apply host' callee caller args).runOn w
  refused : w.store.Accepts callee args → w.store.Binds args → w.machine.depth ≤ w.machine.policy.maxCallDepth →
    ((∀ host : Host ω, ((Eval.apply host callee caller args).runOn w).1 = w.machine.refusal) ↔
      w.machine.depth = w.machine.policy.maxCallDepth)

/-- The depth of calls is kept by every call, if it is kept by the bodies it
runs, and so by every call of every program; and at every moment of a run it is
between the depth at the start and the limit. -/
theorem call_depth_kept (host : Host ω) (hhost : host.Balanced) (callee : Value) (caller : ScopeId) (args : List Value)
    (w : World ω) : DepthKept host callee caller args w ∧
      (∀ (p : Kernel.Program) (watch : Kernel.Watcher ω) (n : Nat), (p.host (Kernel.execBlock p watch n)).Balanced) ∧
      ∀ (p : Kernel.Program) (n : Nat) (e : ScopeId) (code : List Kernel.Stmt) (v : World (List Nat)),
        v.machine.depth ≤ v.machine.policy.maxCallDepth → v.notes = [] →
        ∀ u, (Kernel.run p Kernel.depths n e code v).2 = u → ∀ k, k ∈ u.notes ∨ k = u.machine.depth →
          v.machine.depth ≤ k ∧ k ≤ v.machine.policy.maxCallDepth := by
  refine ⟨⟨fun r u hrun => ?_, fun host' hagree => ?_, refused_iff⟩, fun p watch n b e => ?_, ?_⟩
  · exact (Law.apply hhost).finished hrun
  · refine apply_congr fun m hm => ?_
    obtain ⟨hlt, rfl⟩ := Machine.enter_eq_ok.1 hm
    exact hagree _ rfl hlt
  · exact Kernel.balanced_host p watch n b e
  · rintro p n e code v hd hnotes _ rfl k hk
    obtain ⟨hlast, ks, hks, hin⟩ := Kernel.noted_run p n e code v
    rw [hnotes, List.nil_append] at hks
    rw [hks] at hk
    have hrange : Kernel.InRange v k := by
      rcases hk with hk | rfl
      · exact hin k hk
      · exact hlast
    rwa [Kernel.InRange, Nat.max_eq_right hd] at hrange

/-- A function that calls itself is stopped at the limit, two calls deep, and all of them are left. -/
theorem call_depth_kept_recursion :
    let f : Value := .function ⟨[], ⟨0, 1⟩, ⟨0⟩⟩
    let p : Kernel.Program := { blocks := #[[.expr (.call (.name "f") [])]] }
    let w : World (List Nat) :=
      { store := { scopes := #[{ bindings := [⟨"f", f, true⟩] }] }, machine := { policy := { maxCallDepth := 2 } }, notes := [] }
    let host := p.host (Kernel.execBlock p Kernel.depths 9)
    host.Balanced ∧ ∃ u, (Eval.apply host f ⟨0⟩ []).runOn w = (some (.error (.error (.callDepthExceeded 2))), u) ∧
      u.notes = [1, 1, 2, 2, 2, 1] ∧ u.machine.depth = w.machine.depth := by
  intro f p w host
  have hhost : host.Balanced := Kernel.balanced_host p Kernel.depths 9
  obtain ⟨hkept, -, -⟩ := call_depth_kept host hhost f ⟨0⟩ [] w
  have hend : ((Eval.apply host f ⟨0⟩ []).runOn w).1 = some (.error (.error (.callDepthExceeded 2))) := by decide +kernel
  have hnotes : ((Eval.apply host f ⟨0⟩ []).runOn w).2.notes = [1, 1, 2, 2, 2, 1] := by decide +kernel
  rcases hrun : (Eval.apply host f ⟨0⟩ []).runOn w with ⟨r, u⟩
  rw [hrun] at hend hnotes
  exact ⟨hhost, u, congrArg (·, u) hend, hnotes, hkept.returned _ u (by rw [hrun, ← hend])⟩

end CopyOnBind
