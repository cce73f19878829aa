import CopyOnBind.Proofs.Arguments
import CopyOnBind.Proofs.Names
/-!
# Parameters are bound by value

The scope of a call lies in the scope that the function was made in, and has
the parameters as its names. As many arguments as there are parameters are copied
from left to right, and each copy is bound to its parameter; a name that several
parameters have means the last of them.

The copies are made while the names are bound, but neither is in the way of the
other: it is the same to copy all the arguments first (`callScope_eq_mapM`). So
`parameters_by_value` says of the values what `copies_in_turn` says of any list
of values, and of the names what definitions in a new scope make of them.
-/

namespace CopyOnBind

open Store

variable {s t : Store} {v c : Value} {vs cs : List Value} {e d r : ScopeId} {x : String} {names : List String}
  {l : List (String × Value)} {m : Machine} {f : Closure} {args : List Value} {i : Nat}

namespace Store

/-! ## Many definitions in one scope -/

/-- Binds names in a scope, the later ones over the earlier ones. -/
def defineAll (s : Store) (e : ScopeId) (l : List (String × Value)) : Store :=
  l.foldl (fun s p => s.define e p.1 p.2 true) s

theorem defineAll_eq_withScopes : ∃ g, s.defineAll e l = s.withScopes g := by
  induction l generalizing s with
  | nil => exact ⟨id, rfl⟩
  | cons p l ih =>
    obtain ⟨g, hg⟩ := ih (s := s.define e p.1 p.2 true)
    exact ⟨fun scopes => g (scopes.modify e.index (·.define ⟨p.1, p.2, true⟩)), hg⟩

theorem parent_defineAll : ((s.defineAll e l).scope d).parent = (s.scope d).parent := by
  induction l generalizing s with
  | nil => rfl
  | cons p l ih => exact ih.trans parent_define

theorem scope_defineAll_of_ne (hd : d ≠ e) : (s.defineAll e l).scope d = s.scope d := by
  induction l generalizing s with
  | nil => rfl
  | cons p l ih => exact ih.trans (scope_modifyScope_of_ne hd)

theorem size_defineAll : (s.defineAll e l).scopes.size = s.scopes.size := by
  induction l generalizing s with
  | nil => rfl
  | cons p l ih => exact ih.trans (by simp [define, modifyScope])

theorem find?_defineAll_of_not_mem (hx : x ∉ l.map Prod.fst) :
    ((s.defineAll e l).scope d).find? x = (s.scope d).find? x := by
  induction l generalizing s with
  | nil => rfl
  | cons p l ih =>
    rw [List.map_cons, List.mem_cons, not_or] at hx
    exact (ih hx.2).trans (find?_define_of_ne fun _ => hx.1)

/-- The last definition of a name counts. -/
theorem find?_defineAll (he : e.index < s.scopes.size) (hi : l[i]? = some (x, c)) (hx : x ∉ (l.map Prod.fst).drop (i + 1)) :
    ((s.defineAll e l).scope e).find? x = some ⟨x, c, true⟩ := by
  induction l generalizing s i with
  | nil => cases hi
  | cons p l ih =>
    cases i with
    | zero =>
      cases hi
      exact (find?_defineAll_of_not_mem hx).trans (find?_define_self he)
    | succ i => exact ih (by simpa [define, modifyScope] using he) hi hx

/-! ## Names in a scope inside others -/

theorem binding?_of_find? {b : Binding} (ht : t.Nested) (hb : (t.scope e).find? x = some b) : t.binding? e x = some b := by
  have hr : t.Resolver e x e := ⟨.here e, by rw [Scope.binds, hb]; rfl⟩
  rw [hr.binding? ht, hb]

/-- A name that is not bound in the new scope means what it means further outward. -/
theorem resolver_of_find?_none {outer : ScopeId} {n : Nat} (hs : s.Nested)
    (hkept : ∀ d : ScopeId, d.index < n → t.scope d = s.scope d) (ho : outer.index < n)
    (hp : (t.scope e).parent = some outer) (hx : (t.scope e).find? x = none) : t.Resolver e x r ↔ s.Resolver outer x r := by
  rw [resolver_iff, if_neg (by rw [Scope.binds, hx]; exact Bool.false_ne_true), hp, ← resolver_congr hs hkept ho]
  simp only [Option.some.injEq, exists_eq_left']

end Store

/-! ## The scope of a call -/

/-- Binding values one by one is copying them all and binding the copies then. -/
theorem bindAll_eq_mapM : Kernel.bindAll m e l s =
    ((l.map Prod.snd).mapM copy s).map fun p => (⟨⟩, p.2.defineAll e ((l.map Prod.fst).zip p.1)) := by
  induction l generalizing s with
  | nil => rfl
  | cons p l ih =>
    rw [Kernel.bindAll_cons, List.map_cons, List.map_cons, mapM_walk_cons, Option.map_bind]
    refine Option.bind_congr fun q _ => ?_
    have hscope : q.2.define e p.1 q.1 true = q.2.withScopes (·.modify e.index (·.define ⟨p.1, q.1, true⟩)) := rfl
    rw [ih, hscope, mapM_copy_withScopes, Option.map_map, Function.comp_apply, Option.map_map]
    rfl

theorem callScope_eq_mapM : m.callScope f args s =
    ((args.take (min f.params.length args.length)).mapM copy s).map fun p =>
      (⟨s.scopes.size⟩, (p.2.newScope (some f.scope)).2.defineAll ⟨s.scopes.size⟩
        ((f.params.take (min f.params.length args.length)).zip p.1)) := by
  have hscope : (s.newScope (some f.scope)).2 = s.withScopes (·.push { parent := some f.scope }) := rfl
  rw [Kernel.callScope_eq, List.zip_eq_zip_take_min, bindAll_eq_mapM, List.map_snd_zip (by simp), List.map_fst_zip (by simp),
    hscope, mapM_copy_withScopes, Option.map_map, Option.map_map]
  rfl

/-- In `t` the names are bound to copies of the values `vs` of `s`, in a new scope inside `outer`. -/
structure Store.ByValue (s : Store) (outer : ScopeId) (names : List String) (vs cs : List Value) (t : Store) : Prop where
  /-- Each value is copied once, from left to right. -/
  inTurn : ∃ u, vs.mapM copy s = some (cs, u) ∧ t.arrays = u.arrays ∧ t.hashes = u.hashes
  copies : s.Copies vs cs t
  intact : (∀ v ∈ vs, s.isMarked v = false) →
    (∀ a, s.Knows (.array a) → t.array a = s.array a) ∧ ∀ h, s.Knows (.hash h) → t.hash h = s.hash h
  size : t.scopes.size = s.scopes.size + 1
  kept : ∀ d : ScopeId, d.index < s.scopes.size → t.scope d = s.scope d
  parent : (t.scope ⟨s.scopes.size⟩).parent = some outer
  /-- A name means the copy at the last place that has it. -/
  parameter : ∀ (i : Nat) x c, names[i]? = some x → cs[i]? = some c → x ∉ names.drop (i + 1) →
    t.binding? ⟨s.scopes.size⟩ x = some ⟨x, c, true⟩
  captured : ∀ x, x ∉ names →
    (∀ r, t.Resolver ⟨s.scopes.size⟩ x r ↔ s.Resolver outer x r) ∧ t.binding? ⟨s.scopes.size⟩ x = s.binding? outer x

/-- Definitions in a new scope, after the copies have been made. -/
theorem Store.byValue {outer : ScopeId} {u : Store} (hs : s.Nested) (ho : outer.index < s.scopes.size)
    (hlen : names.length = vs.length) (hcs : vs.mapM copy s = some (cs, u)) (hcopies : s.Copies vs cs u)
    (ht : t = (u.newScope (some outer)).2.defineAll ⟨s.scopes.size⟩ (names.zip cs)) : s.ByValue outer names vs cs t := by
  have hu : u.scopes = s.scopes := scopes_mapM_copy hcs
  have hid : (⟨s.scopes.size⟩ : ScopeId) = (u.newScope (some outer)).1 := congrArg ScopeId.mk (congrArg Array.size hu.symm)
  obtain ⟨g, hg⟩ : ∃ g, t = u.withScopes g := by
    obtain ⟨g, hg⟩ := defineAll_eq_withScopes (s := (u.newScope (some outer)).2) (e := ⟨s.scopes.size⟩) (l := names.zip cs)
    exact ⟨fun scopes => g (scopes.push { parent := some outer }), ht.trans hg⟩
  have hsize : t.scopes.size = s.scopes.size + 1 := by rw [ht, size_defineAll, ← hu]; exact Array.size_push _
  have hkept : ∀ d : ScopeId, d.index < s.scopes.size → t.scope d = s.scope d := by
    intro d hd
    rw [ht, scope_defineAll_of_ne (by rintro rfl; exact Nat.lt_irrefl _ hd), scope_newScope_of_lt (hu ▸ hd), scope, scope, hu]
  have hparent : (t.scope ⟨s.scopes.size⟩).parent = some outer := by
    rw [ht, parent_defineAll, hid, scope_newScope_self]
  have hnested : t.Nested := by
    have hun : u.Nested := hs.congr fun d => by rw [scope, scope, hu]
    rw [ht]
    exact (hun.newScope fun p hp => by cases hp; exact hu ▸ ho).congr fun _ => parent_defineAll
  have hnames : (names.zip cs).map Prod.fst = names := List.map_fst_zip (Nat.le_of_eq (hlen.trans hcopies.length.symm))
  have hcopied : s.Copies vs cs t := hg ▸ hcopies.withScopes
  refine {
    inTurn := ⟨u, hcs, by rw [hg, withScopes], by rw [hg, withScopes]⟩
    copies := hcopied
    intact := hcopied.intact
    size := hsize
    kept := hkept
    parent := hparent
    parameter := fun i x c hx hc hlast => ?parameter
    captured := fun x hx => ?captured }
  case parameter =>
    have hfind : (t.scope ⟨s.scopes.size⟩).find? x = some ⟨x, c, true⟩ := by
      rw [ht]
      refine find?_defineAll ?_ (List.getElem?_zip_eq_some.2 ⟨hx, hc⟩) (by rwa [hnames])
      simp [newScope, hu]
    exact binding?_of_find? hnested hfind
  case captured =>
    have hfind : (t.scope ⟨s.scopes.size⟩).find? x = none := by
      rw [ht, find?_defineAll_of_not_mem (by rwa [hnames]), hid, scope_newScope_self]
      rfl
    have hresolver : ∀ r, t.Resolver ⟨s.scopes.size⟩ x r ↔ s.Resolver outer x r := fun r =>
      resolver_of_find?_none hs hkept ho hparent hfind
    refine ⟨hresolver, binding?_congr hs hnested hresolver fun r hr => ?_⟩
    obtain ⟨b, hb⟩ := hr.find?
    rw [hkept r (lt_of_find? hb)]

/-- The scope of a call is made of copies of the arguments, and of the scope that the function was made in. -/
theorem parameters_by_value (m : Machine) (f : Closure) (args : List Value) (hs : s.WellFormed) (ha : s.Acyclic)
    (hn : s.Nested) (hf : f.scope.index < s.scopes.size) (hargs : ∀ v ∈ args, s.Knows v) :
    ∃ cs t, m.callScope f args s = some (⟨s.scopes.size⟩, t) ∧
      s.ByValue f.scope (f.params.take (min f.params.length args.length)) (args.take (min f.params.length args.length)) cs t := by
  have hbinds : s.Binds (args.take (min f.params.length args.length)) :=
    ⟨hs, fun v hv => hargs v (List.mem_of_mem_take hv), fun v _ => ha.grounded v⟩
  obtain ⟨cs, u, hcs, hcopies⟩ := copies_in_turn hbinds
  exact ⟨cs, _, by rw [callScope_eq_mapM, hcs, Option.map_some], byValue hn hf (by simp) hcs hcopies rfl⟩

/-- The array 1 holds the array 0, which is marked and passed twice. The name `a` has
two parameters, and there is an argument too many; `y` is bound where the function was made. -/
theorem parameters_by_value_repeated :
    let s : Store := {
      arrays := #[{ elements := #[.int 1], marked := true }, { elements := #[.array ⟨0⟩] }]
      scopes := #[{ bindings := [⟨"a", .int 7, true⟩, ⟨"y", .int 8, false⟩] }] }
    let f : Closure := ⟨["a", "b", "a"], ⟨0, 1⟩, ⟨0⟩⟩
    let args : List Value := [.array ⟨0⟩, .array ⟨1⟩, .array ⟨0⟩, .int 2]
    s.WellFormed ∧ s.Acyclic ∧ s.Nested ∧ ∃ cs t, ({} : Machine).callScope f args s = some (⟨1⟩, t) ∧
      s.ByValue ⟨0⟩ ["a", "b", "a"] [.array ⟨0⟩, .array ⟨1⟩, .array ⟨0⟩] cs t ∧
      cs = [.array ⟨0⟩, .array ⟨3⟩, .array ⟨4⟩] ∧ t.binding? ⟨1⟩ "a" = some ⟨"a", .array ⟨4⟩, true⟩ ∧
      t.binding? ⟨1⟩ "y" = some ⟨"y", .int 8, false⟩ ∧ t.isMarked (.array ⟨0⟩) = false := by
  intro s f args
  have hs : s.WellFormed := by decide +kernel
  have ha : s.Acyclic := by decide +kernel
  have hn : s.Nested := by decide +kernel
  obtain ⟨cs, t, hscope, hvalue⟩ := parameters_by_value {} f args hs ha hn (by decide) (by decide +kernel)
  have hvalue : s.ByValue ⟨0⟩ ["a", "b", "a"] [.array ⟨0⟩, .array ⟨1⟩, .array ⟨0⟩] cs t := hvalue
  obtain ⟨u, hcs, -, -⟩ := hvalue.inTurn
  have hgiven : ([.array ⟨0⟩, .array ⟨1⟩, .array ⟨0⟩].mapM copy s).map Prod.fst =
      some [.array ⟨0⟩, .array ⟨3⟩, .array ⟨4⟩] := by decide +kernel
  rw [hcs, Option.map_some, Option.some.injEq] at hgiven
  subst hgiven
  refine ⟨hs, ha, hn, _, t, hscope, hvalue, rfl, hvalue.parameter 2 "a" _ rfl rfl (by simp),
    (hvalue.captured "y" (by simp)).2.trans (by decide +kernel), ?_⟩
  have hmarks := hvalue.copies.marks (.array ⟨0⟩)
  simpa using hmarks

end CopyOnBind
