import CopyOnBind.Proofs.Places
/-!
# What names mean

A name means what the nearest scope outward says that binds it: its resolver.
Scopes are shared, so what is written in one of them is seen by all who look
outward through it and do not find the name in a nearer scope (`Sees`), and by
nobody else. `names_follow_chains` says so of every forest of scopes.

A scope is only ever put into one that is there already, so every look outward
comes to an end, and finds the nearest scope that binds the name
(`resolve_eq_some`).
-/

namespace CopyOnBind

namespace Store

variable {s t : Store} {v : Value} {d e p r r' : ScopeId} {x y : String} {b : Binding} {m : Bool} {n : Nat}

/-! ## Looking outward -/

/-- Going outward from the first scope one comes to the second, past scopes that do not bind `x`. -/
inductive Sees (s : Store) (x : String) : ScopeId → ScopeId → Prop
  | here (e : ScopeId) : Sees s x e e
  | outward {e p r : ScopeId} : (s.scope e).binds x = false → (s.scope e).parent = some p → Sees s x p r → Sees s x e r

/-- The nearest scope outward from `e` that binds `x` is `r`. -/
structure Resolver (s : Store) (e : ScopeId) (x : String) (r : ScopeId) : Prop where
  sees : s.Sees x e r
  binds : (s.scope r).binds x = true

/-- A scope is younger than the one it lies in. -/
def Nested (s : Store) : Prop := ∀ e p, (s.scope e).parent = some p → p.index < e.index

instance : Decidable s.Nested :=
  decidable_of_iff (∀ i < s.scopes.size, ∀ p ∈ (s.scope ⟨i⟩).parent, p.index < i) <| by
    refine ⟨fun h e p hp => ?_, fun h i _ p hp => h ⟨i⟩ p hp⟩
    by_cases he : e.index < s.scopes.size
    · exact h e.index he p hp
    · rw [scope_of_le (Nat.not_lt.1 he)] at hp
      cases hp

theorem resolver_iff : s.Resolver e x r ↔ if (s.scope e).binds x then e = r else
    ∃ p, (s.scope e).parent = some p ∧ s.Resolver p x r := by
  constructor
  · rintro ⟨hsees, hr⟩
    cases hsees with
    | here => rw [if_pos hr]
    | outward hb hp hsees => rw [if_neg (by simp [hb])]; exact ⟨_, hp, hsees, hr⟩
  · split
    · next hb =>
      rintro rfl
      exact ⟨.here _, hb⟩
    · next hb =>
      rintro ⟨p, hp, hsees, hr⟩
      exact ⟨.outward (by simpa using hb) hp hsees, hr⟩

theorem Resolver.unique (h : s.Resolver e x r) (h' : s.Resolver e x r') : r = r' := by
  obtain ⟨hsees, hr⟩ := h
  induction hsees with
  | here =>
    rw [resolver_iff, if_pos hr] at h'
    exact h'
  | outward hb hp _ ih =>
    rw [resolver_iff, if_neg (by simp [hb])] at h'
    obtain ⟨p, hp', h'⟩ := h'
    cases hp.symm.trans hp'
    exact ih h' hr

theorem resolveWithin_eq_some (hs : s.Nested) (hn : e.index < n) : s.resolveWithin x n e = some r ↔ s.Resolver e x r := by
  induction n generalizing e with
  | zero => omega
  | succ n ih =>
    rw [resolver_iff, resolveWithin]
    split
    · exact Option.some.injEq e r ▸ Iff.rfl
    · rw [Option.bind_eq_some_iff]
      refine exists_congr fun p => and_congr_right fun hp => ih ?_
      have hlt := hs e p hp
      omega

theorem resolve_eq_some (hs : s.Nested) : s.resolve e x = some r ↔ s.Resolver e x r :=
  resolveWithin_eq_some hs (Nat.lt_succ_self _)

theorem resolve_eq_none (hs : s.Nested) : s.resolve e x = none ↔ ∀ r, ¬ s.Resolver e x r := by
  simp only [Option.eq_none_iff_forall_ne_some, ne_eq, resolve_eq_some hs]

theorem Resolver.binding? (hs : s.Nested) (h : s.Resolver e x r) : s.binding? e x = (s.scope r).find? x := by
  rw [Store.binding?, (resolve_eq_some hs).2 h, Option.bind_some]

theorem Resolver.find? (h : s.Resolver e x r) : ∃ b, (s.scope r).find? x = some b := Option.isSome_iff_exists.1 h.binds

theorem binding?_of_unresolved (hs : s.Nested) (h : ∀ r, ¬ s.Resolver e x r) : s.binding? e x = none := by
  rw [binding?, (resolve_eq_none hs).2 h, Option.bind_none]

/-- What is resolved to the same scope, where it is bound alike, is the same binding. -/
theorem binding?_congr (hs : s.Nested) (ht : t.Nested) (hr : ∀ r, t.Resolver d y r ↔ s.Resolver e y r)
    (hfind : ∀ r, s.Resolver e y r → (t.scope r).find? y = (s.scope r).find? y) : t.binding? d y = s.binding? e y := by
  by_cases h : ∃ r, s.Resolver e y r
  · obtain ⟨r, h⟩ := h
    rw [((hr r).2 h).binding? ht, h.binding? hs, hfind r h]
  · rw [not_exists] at h
    rw [binding?_of_unresolved hs h, binding?_of_unresolved ht fun r => (hr r).not.2 (h r)]

/-- Scopes that are the same, with all the scopes that they lie in, resolve names alike. -/
theorem resolver_congr (hs : s.Nested) (h : ∀ d : ScopeId, d.index < n → t.scope d = s.scope d) (he : e.index < n) :
    t.Resolver e x r ↔ s.Resolver e x r := by
  induction hi : e.index using Nat.strongRecOn generalizing e with
  | ind i ih =>
    rw [resolver_iff, resolver_iff, h e he]
    split
    · rfl
    · refine exists_congr fun p => and_congr_right fun hp => ?_
      have hlt := hs e p hp
      exact ih p.index (by omega) (by omega) rfl

/-! ## Forests of scopes -/

/-- The scopes of the store were made by `newScope`, `define` and `assign`, whatever else was done to the store. -/
inductive Grown : Store → Prop
  | start {s : Store} : s.scopes = #[] → Grown s
  | root {s : Store} : Grown s → Grown (s.newScope none).2
  | enclosed {s : Store} {e : ScopeId} : Grown s → e.index < s.scopes.size → Grown (s.newScope (some e)).2
  | define {s : Store} (e : ScopeId) (x : String) (v : Value) (m : Bool) : Grown s → Grown (s.define e x v m)
  | assign {s : Store} (e : ScopeId) (x : String) (v : Value) : Grown s → Grown (s.assign e x v).2
  | elsewhere {s t : Store} : Grown s → t.scopes = s.scopes → Grown t

theorem Nested.congr (hs : s.Nested) (h : ∀ e, (t.scope e).parent = (s.scope e).parent) : t.Nested :=
  fun e p hp => hs e p (h e ▸ hp)

theorem Nested.newScope {parent : Option ScopeId} (hs : s.Nested) (hp : ∀ p, parent = some p → p.index < s.scopes.size) :
    (s.newScope parent).2.Nested := by
  intro e p he
  by_cases hnew : e.index = s.scopes.size
  · obtain rfl : e = (s.newScope parent).1 := congrArg ScopeId.mk hnew
    rw [scope_newScope_self] at he
    exact hp p he
  · rw [scope_newScope_of_ne hnew] at he
    exact hs e p he

theorem parent_define : ((s.define r x v m).scope e).parent = (s.scope e).parent := by
  rw [scope_define]
  split
  · exact Scope.parent_define
  · rfl

/-- An assignment writes where the name is bound, or nothing. -/
theorem assign_snd : (s.assign e x v).2 = s ∨ ∃ r, (s.assign e x v).2 = s.define r x v true := by
  unfold assign
  split
  · exact .inl rfl
  · split
    · exact .inl rfl
    · split
      · exact .inr ⟨_, rfl⟩
      · exact .inl rfl

theorem Grown.nested (hs : s.Grown) : s.Nested := by
  induction hs with
  | start h =>
    intro e p he
    rw [scope_of_le (by simp [h])] at he
    cases he
  | root _ ih => exact ih.newScope nofun
  | enclosed _ he ih => exact ih.newScope fun p hp => by cases hp; exact he
  | define e x v m _ ih => exact ih.congr fun _ => parent_define
  | @assign s e x v _ ih =>
    rcases assign_snd (s := s) (e := e) (x := x) (v := v) with h | ⟨r, h⟩ <;> rw [h]
    · exact ih
    · exact ih.congr fun _ => parent_define
  | elsewhere _ h ih => exact ih.congr fun e => by simp only [scope, h]

/-! ## After a definition -/

theorem find?_define_self (he : e.index < s.scopes.size) :
    ((s.define e x v m).scope e).find? x = some ⟨x, v, m⟩ := by
  rw [scope_define, if_pos ⟨rfl, he⟩, Scope.find?_define, if_pos rfl]

theorem find?_define_of_ne (h : d = e → y ≠ x) : ((s.define e x v m).scope d).find? y = (s.scope d).find? y := by
  rw [scope_define]
  split
  · next hd => rw [Scope.find?_define, if_neg (h hd.1)]
  · rfl

/-- The scope that a name is defined in comes first for all who see it. -/
theorem resolver_define_of_sees (he : e.index < s.scopes.size) (h : s.Sees x d e) :
    (s.define e x v m).Resolver d x e := by
  have hbinds : ((s.define e x v m).scope e).binds x = true := by rw [Scope.binds, find?_define_self he]; rfl
  induction h with
  | here => exact ⟨.here _, hbinds⟩
  | @outward d p r hb hp _ ih =>
    by_cases hd : d = r
    · subst hd
      exact ⟨.here _, hbinds⟩
    · refine ⟨.outward ?_ (parent_define.trans hp) (ih he hbinds).sees, hbinds⟩
      rw [Scope.binds, find?_define_of_ne (fun h => absurd h hd), ← Scope.binds, hb]

/-- Who does not see the scope finds the name where it was. -/
theorem resolver_define_of_not_sees (h : y = x → ¬ s.Sees x d e) :
    (s.define e x v m).Resolver d y r ↔ s.Resolver d y r := by
  have hfind : ∀ d, (y = x → ¬ s.Sees x d e) → ((s.define e x v m).scope d).binds y = (s.scope d).binds y := by
    intro d h
    rw [Scope.binds, find?_define_of_ne, Scope.binds]
    rintro rfl rfl
    exact h rfl (.here _)
  -- what is not seen from a scope is not seen from further outward
  have hout : ∀ d p, (y = x → ¬ s.Sees x d e) → (s.scope d).binds y = false → (s.scope d).parent = some p →
      y = x → ¬ s.Sees x p e := by
    rintro d p h hb hp rfl hsees
    exact h rfl (.outward hb hp hsees)
  constructor
  · rintro ⟨hsees, hr⟩
    induction hsees with
    | here d => exact ⟨.here _, (hfind d h).symm.trans hr⟩
    | @outward d p r hb hp _ ih =>
      have hb' : (s.scope d).binds y = false := (hfind d h).symm.trans hb
      have hp' := parent_define.symm.trans hp
      obtain ⟨hsees, hr⟩ := ih (hout d p h hb' hp') hr
      exact ⟨.outward hb' hp' hsees, hr⟩
  · rintro ⟨hsees, hr⟩
    induction hsees with
    | here d => exact ⟨.here _, (hfind d h).trans hr⟩
    | @outward d p r hb hp _ ih =>
      obtain ⟨hsees, hr⟩ := ih (hout d p h hb hp) hr
      exact ⟨.outward ((hfind d h).trans hb) (parent_define.trans hp) hsees, hr⟩

theorem binding?_define_of_sees (hs : s.Nested) (he : e.index < s.scopes.size) (h : s.Sees x d e) :
    (s.define e x v m).binding? d x = some ⟨x, v, m⟩ := by
  rw [(resolver_define_of_sees he h).binding? (hs.congr fun _ => parent_define), find?_define_self he]

theorem binding?_define_of_not_sees (hs : s.Nested) (h : y = x → ¬ s.Sees x d e) :
    (s.define e x v m).binding? d y = s.binding? d y := by
  refine binding?_congr hs (hs.congr fun _ => parent_define) (fun r => resolver_define_of_not_sees h) fun r hr => ?_
  refine find?_define_of_ne ?_
  rintro rfl rfl
  exact h rfl hr.sees

/-! ## Assignments -/

theorem assign_of_unresolved (hs : s.Nested) (h : ∀ r, ¬ s.Resolver e x r) : s.assign e x v = (.error .isUndefined, s) := by
  rw [assign, (resolve_eq_none hs).2 h]

theorem assign_of_resolver (hs : s.Nested) (h : s.Resolver e x r) (hb : (s.scope r).find? x = some b) :
    s.assign e x v = if b.isMutable then (.ok (), s.define r x v true) else (.error .isImmutable, s) := by
  simp only [assign, (resolve_eq_some hs).2 h, hb]

theorem lt_of_find? (hb : (s.scope r).find? x = some b) : r.index < s.scopes.size :=
  lt_of_at?_name (s := s) (x := x) (v := b.value) (by rw [at?, hb, Option.map_some])

/-- In `t` the name `x` means `v` for the scopes in `D`; every other meaning is as in `s`. -/
structure Renames (s t : Store) (x : String) (D : ScopeId → Prop) (v : Value) : Prop where
  seen : ∀ d, D d → t.lookup d x = some v
  unseen : ∀ d y, (y = x → ¬ D d) → t.lookup d y = s.lookup d y

/-- The law of scopes and names: who resolves to a scope sees what is written there, and nobody else does. -/
structure Lexical (s : Store) : Prop where
  unique : ∀ e x r r', s.Resolver e x r → s.Resolver e x r' → r = r'
  lookup : ∀ e x r, s.Resolver e x r → ∃ b, (s.scope r).find? x = some b ∧ s.lookup e x = some b.value
  unresolved : ∀ e x, (∀ r, ¬ s.Resolver e x r) →
    s.lookup e x = none ∧ ∀ v, s.assign e x v = (.error .isUndefined, s)
  /-- The nearest binding decides, also if one further outward is mutable. -/
  immutable : ∀ e x r b v, s.Resolver e x r → (s.scope r).find? x = some b → b.isMutable = false →
    s.assign e x v = (.error .isImmutable, s)
  assign : ∀ e x r b v, s.Resolver e x r → (s.scope r).find? x = some b → b.isMutable = true →
    ∃ t, s.assign e x v = (.ok (), t) ∧ s.Renames t x (fun d => s.Resolver d x r) v ∧
      ∀ d y, ((t.scope d).find? y).map Binding.isMutable = ((s.scope d).find? y).map Binding.isMutable
  define : ∀ e x v m, e.index < s.scopes.size →
    s.Renames (s.define e x v m) x (fun d => s.Sees x d e) v ∧
      ((s.define e x v m).scope e).find? x = some ⟨x, v, m⟩

/-- In every forest of scopes, names follow the chains of scopes. -/
theorem names_follow_chains (hs : s.Grown) : s.Lexical := by
  have hs := hs.nested
  have renames : ∀ {e x v m}, e.index < s.scopes.size → s.Renames (s.define e x v m) x (fun d => s.Sees x d e) v :=
    fun he => ⟨fun d hd => by rw [Store.lookup, binding?_define_of_sees hs he hd, Option.map_some],
      fun d y hd => by rw [Store.lookup, binding?_define_of_not_sees hs hd, Store.lookup]⟩
  refine ⟨fun e x r r' hr hr' => hr.unique hr', fun e x r hr => ?_, fun e x hr => ⟨?_, fun v => assign_of_unresolved hs hr⟩,
    fun e x r b v hr hb hm => ?_, fun e x r b v hr hb hm => ⟨s.define r x v true, ?_, ?_, fun d y => ?_⟩,
    fun e x v m he => ⟨renames he, find?_define_self he⟩⟩
  · obtain ⟨b, hb⟩ := hr.find?
    exact ⟨b, hb, by rw [Store.lookup, hr.binding? hs, hb, Option.map_some]⟩
  · rw [Store.lookup, binding?_of_unresolved hs hr, Option.map_none]
  · rw [assign_of_resolver hs hr hb, if_neg (by simp [hm])]
  · rw [assign_of_resolver hs hr hb, if_pos hm]
  · -- the resolver binds the name, so whoever sees it resolves to it
    obtain ⟨hseen, hunseen⟩ := renames (x := x) (v := v) (m := true) (lt_of_find? hb)
    exact ⟨fun d hd => hseen d hd.sees, fun d y hd => hunseen d y fun hy hsees => hd hy ⟨hsees, hr.binds⟩⟩
  · by_cases hdy : d = r ∧ y = x
    · obtain ⟨rfl, rfl⟩ := hdy
      rw [find?_define_self (lt_of_find? hb), hb, Option.map_some, Option.map_some, hm]
    · rw [find?_define_of_ne fun hd hy => hdy ⟨hd, hy⟩]

/-- A name is bound in the outermost scope and, immutable, in one inside it; next to that one lies another. -/
theorem names_follow_chains_shadowed :
    let s₁ := ((({} : Store).newScope none).2.define ⟨0⟩ "x" (.int 1) true)
    let s₂ := ((s₁.newScope (some ⟨0⟩)).2.define ⟨1⟩ "x" (.int 2) false)
    let s := (s₂.newScope (some ⟨0⟩)).2
    s.Grown ∧ s.Lexical ∧ s.assign ⟨1⟩ "x" (.int 3) = (.error .isImmutable, s) ∧
      (s.assign ⟨2⟩ "x" (.int 3)).2.lookup ⟨0⟩ "x" = some (.int 3) ∧
        (s.assign ⟨2⟩ "x" (.int 3)).2.lookup ⟨1⟩ "x" = some (.int 2) := by
  intro s₁ s₂ s
  have hs : s.Grown := .enclosed (.define _ _ _ _ (.enclosed (.define _ _ _ _ (.root (.start rfl))) (by decide))) (by decide)
  exact ⟨hs, names_follow_chains hs, by decide +kernel, by decide +kernel, by decide +kernel⟩

end Store

end CopyOnBind
