import CopyOnBind.Proofs.Snapshot
import CopyOnBind.Store.Container
import CopyOnBind.Store.Scope
/-!
# Places

Values are stored at places: under the names of scopes and inside containers.
For every change of the store that evaluation makes, the lemmas here say what is
stored at which place afterwards, and which containers are marked. Where no
native is stored, a copy stores none.
-/

namespace CopyOnBind

open Relation

inductive Place where
  | name (e : ScopeId) (x : String)
  | inside (c : Value) (i : Nat)
deriving DecidableEq, Repr

theorem Scope.find?_define {scope : Scope} {b : Binding} {x : String} :
    (scope.define b).find? x = if x = b.name then some b else scope.find? x := by
  have map_find? : ∀ l : List Binding, (l.map fun c => if c.name = b.name then b else c).find? (·.name == x) =
      if x = b.name then (l.find? (·.name == x)).map fun _ => b else l.find? (·.name == x) := by
    intro l
    induction l with
    | nil => simp
    | cons c l ih =>
      rw [List.map_cons, List.find?_cons, List.find?_cons, ih]
      by_cases hc : c.name = b.name <;> by_cases hx : x = b.name
      · subst hx
        simp [hc]
      · have hbx : (b.name == x) = false := by simpa using Ne.symm hx
        simp [hc, hx, hbx]
      · subst hx
        have hcb : (c.name == b.name) = false := by simpa using hc
        simp [hc, hcb]
      · simp [hc, hx]
  unfold Scope.define Scope.binds
  split
  · next hs =>
    simp only [Scope.find?, map_find?]
    split
    · next hx =>
      obtain ⟨c, hc⟩ := Option.isSome_iff_exists.1 hs
      subst hx
      unfold Scope.find? at hc
      simp [hc]
    · rfl
  · next hs =>
    simp only [Scope.find?, List.find?_append]
    split
    · next hx =>
      subst hx
      simp only [Scope.find?, Option.not_isSome_iff_eq_none] at hs
      simp [hs]
    · next hx =>
      have hbx : (b.name == x) = false := by simpa using Ne.symm hx
      simp [hbx]

theorem Scope.parent_define {scope : Scope} {b : Binding} : (scope.define b).parent = scope.parent := by
  unfold Scope.define
  split <;> rfl

namespace Store

variable {s₀ s t u : Store} {v w c : Value} {e r : ScopeId} {x : String} {p q : Place} {a : ArrayId}

/-- The value stored at a place. -/
def at? (s : Store) : Place → Option Value
  | .name e x => ((s.scope e).find? x).map Binding.value
  | .inside c i => s.part? c i

/-! ## Places after a change -/

theorem scope_define {m : Bool} : (s.define r x c m).scope e =
    if e = r ∧ r.index < s.scopes.size then (s.scope e).define ⟨x, c, m⟩ else s.scope e := by
  split
  · next h =>
    obtain ⟨rfl, hlt⟩ := h
    exact scope_modifyScope_self hlt
  · next h =>
    by_cases he : e = r
    · subst he
      have hge : s.scopes.size ≤ e.index := Nat.not_lt.1 fun hlt => h ⟨rfl, hlt⟩
      rw [scope_of_le (by simpa [define, modifyScope] using hge), scope_of_le hge]
    · exact scope_modifyScope_of_ne he

theorem at?_name_define {m : Bool} {y : String} : (s.define r x c m).at? (.name e y) =
    if (e = r ∧ r.index < s.scopes.size) ∧ y = x then some c else s.at? (.name e y) := by
  simp only [at?, scope_define]
  by_cases he : e = r ∧ r.index < s.scopes.size
  · rw [if_pos he, Scope.find?_define]
    by_cases hy : y = x <;> simp [he, hy]
  · simp [he]

theorem at?_define {m : Bool} (h : (s.define r x c m).at? p = some w) : s.at? p = some w ∨ p = .name r x ∧ w = c := by
  cases p with
  | inside d i => exact .inl ((SameContents.modifyScope s r _).part?.symm.trans h)
  | name e y =>
    rw [at?_name_define] at h
    split at h
    · next hey =>
      obtain ⟨⟨rfl, -⟩, rfl⟩ := hey
      exact .inr ⟨rfl, (Option.some.inj h).symm⟩
    · exact .inl h

theorem at?_name_of_scopes (h : t.scopes = s.scopes) : t.at? (.name e x) = s.at? (.name e x) := by
  simp only [at?, scope, h]

theorem lt_of_at?_name (h : s.at? (.name e x) = some v) : e.index < s.scopes.size := by
  by_contra hge
  simp [at?, scope_of_le (Nat.not_lt.1 hge), Scope.find?] at h

theorem scope_newScope_of_ne {parent : Option ScopeId} {d : ScopeId} (h : d.index ≠ s.scopes.size) :
    (s.newScope parent).2.scope d = s.scope d := by
  by_cases hd : d.index < s.scopes.size
  · exact scope_newScope_of_lt hd
  · rw [scope_of_le (by simp [newScope]; omega), scope_of_le (by omega)]

theorem scope_newScope {parent : Option ScopeId} {d : ScopeId} :
    ((s.newScope parent).2.scope d).bindings = (s.scope d).bindings := by
  by_cases hd : d.index = s.scopes.size
  · have hself : d = (s.newScope parent).1 := congrArg ScopeId.mk hd
    rw [scope_of_le (Nat.le_of_eq hd.symm), hself, scope_newScope_self]
  · rw [scope_newScope_of_ne hd]

@[simp] theorem at?_newScope {parent : Option ScopeId} : (s.newScope parent).2.at? p = s.at? p := by
  cases p with
  | name d y => simp only [at?, Scope.find?, scope_newScope]
  | inside c i => rfl

/-- What is stored in an extension was stored before, or is stored in a new container. -/
theorem Extends.at?_cases (h : s.Extends t) (hp : t.at? p = some w) :
    s.at? p = some w ∨ ∃ c i, p = .inside c i ∧ ¬ s.Knows c ∧ t.part? c i = some w := by
  cases p with
  | name e x => exact .inl ((at?_name_of_scopes h.scopes).symm.trans hp)
  | inside c i =>
    by_cases hc : s.Knows c
    · exact .inl ((h.part? hc i).symm.trans hp)
    · exact .inr ⟨c, i, rfl, hc, hp⟩

theorem exists_place_of_mem_elements (hv : v ∈ (s.array a).elements.toList) : ∃ i, s.at? (.inside (.array a) i) = some v :=
  (mem_children_iff (v := .array a) rfl).1 hv

theorem at?_mark : (s.mark v).at? p = s.at? p := by
  cases p with
  | name e x => cases v <;> rfl
  | inside c i => exact (SameContents.mark s v).part?

theorem at?_unmark : (s.unmark v).at? p = s.at? p := by
  cases p with
  | name e x => cases v <;> rfl
  | inside c i => exact (SameContents.unmark s v).part?

theorem lookup_eq_some (h : s.lookup e x = some v) : ∃ r, s.resolve e x = some r ∧ s.at? (.name r x) = some v := by
  simp only [lookup, binding?, Option.map_eq_some_iff, Option.bind_eq_some_iff] at h
  obtain ⟨b, ⟨r, hr, hb⟩, rfl⟩ := h
  exact ⟨r, hr, by simp [at?, hb]⟩

/-- A push changes what is read of the array itself, and of nothing else. -/
theorem sameAt_push (h : v ≠ .array a) : s.SameAt (s.push a c) v := by
  cases v with
  | array b => simp only [SameAt, push, array_modifyArray_of_ne (fun hb => h (congrArg Value.array hb))]
  | hash j => exact ⟨rfl, rfl⟩
  | ref slot index constant => rfl
  | _ => trivial

theorem knows_push : (s.push a c).Knows v ↔ s.Knows v := knows_modifyArray

theorem elements_push (h : s.Knows (.array a)) :
    ((s.push a c).array a).elements.toList = (s.array a).elements.toList ++ [c] := by
  unfold push
  rw [array_modifyArray_self h, Array.toList_push]

theorem part?_push_self {i : Nat} (h : s.Knows (.array a)) :
    (s.push a c).part? (.array a) i = if i = (s.elements a).size then some c else s.part? (.array a) i := by
  by_cases hi : i = (s.elements a).size
  · subst hi
    simp [part?, push, array_modifyArray_self h, elements]
  · rw [if_neg hi]
    unfold elements at hi
    simp [part?, push, array_modifyArray_self h, Array.getElem?_push, hi]

theorem at?_push_of_some (h : s.Knows (.array a)) (hp : s.at? p = some w) : (s.push a c).at? p = some w := by
  cases p with
  | name e x => exact hp
  | inside v i =>
    simp only [at?] at hp ⊢
    by_cases hv : v = .array a
    · subst hv
      rw [part?_push_self h, if_neg, hp]
      -- an element that is there is not at the end
      have hlt := (Array.getElem?_eq_some_iff.1 hp).1
      exact Nat.ne_of_lt hlt
    · rw [SameAt.part? (sameAt_push hv), hp]

theorem at?_push (h : s.Knows (.array a)) (hp : (s.push a c).at? p = some w) :
    s.at? p = some w ∨ p = .inside (.array a) (s.elements a).size ∧ w = c := by
  cases p with
  | name e x => exact .inl hp
  | inside v i =>
    simp only [at?] at hp ⊢
    by_cases hv : v = .array a
    · subst hv
      rw [part?_push_self h] at hp
      split at hp
      · next hi => exact .inr ⟨by rw [hi], (Option.some.inj hp).symm⟩
      · exact .inl hp
    · rw [SameAt.part? (sameAt_push hv)] at hp
      exact .inl hp

theorem step_push {m n : Node} (h : s.Knows (.array a)) (hstep : (s.push a c).Step m n) :
    s.Step m n ∨ m = .array a ∧ c.node? = some n := by
  obtain ⟨w, hw, hn⟩ := hstep
  by_cases hm : m = .array a
  · subst hm
    simp only [held, elements_push h, List.mem_append, List.mem_singleton] at hw
    rcases hw with hw | rfl
    · exact .inl ⟨w, hw, hn⟩
    · exact .inr ⟨rfl, hn⟩
  · refine .inl ⟨w, ?_, hn⟩
    cases m with
    | array b =>
      have hb : Value.array b ≠ .array a := fun hb => hm (by cases hb; rfl)
      exact (sameAt_push (s := s) (c := c) hb).held rfl ▸ hw
    | hash j => exact hw
    | slot slot => exact hw

/-- Walks stay among values that are closed under steps. -/
theorem path_closed {P : Value → Prop} (hP : ∀ v, P v → ∀ w ∈ s.children v, P w) {m n : Node} (hv : P v)
    (hm : v.node? = some m) (hp : ReflTransGen s.Step m n) : ∃ w, P w ∧ w.node? = some n := by
  induction hp with
  | refl => exact ⟨v, hv, hm⟩
  | tail _ hstep ih =>
    obtain ⟨u, hu, hun⟩ := ih
    obtain ⟨w, hw, hwn⟩ := hstep
    exact ⟨w, hP u hu w (by rwa [children_of_node? hun]), hwn⟩

/-! ## Natives -/

/-- No native is stored. -/
def NativeFree (s : Store) : Prop := ∀ p v, s.at? p = some v → v.kind ≠ .native

namespace NativeFree

theorem children (h : s.NativeFree) (hw : w ∈ s.children v) : w.kind ≠ .native := by
  cases hv : v.node? with
  | none => simp [children_of_node?_none hv] at hw
  | some m =>
    rw [children_of_node? hv] at hw
    obtain ⟨c, i, hi⟩ := part?_of_mem_held hw
    exact h (.inside c i) w hi

/-- What a new container holds is no native either. -/
theorem grow (h : s.NativeFree) (hst : s.Extends t)
    (hnew : ∀ c i w, ¬ s.Knows c → t.part? c i = some w → w.kind ≠ .native) : t.NativeFree := by
  intro p w hp
  rcases hst.at?_cases hp with hp | ⟨c, i, -, hc, hi⟩
  · exact h p w hp
  · exact hnew c i w hc hi

theorem newArray {vs : List Value} (h : s.NativeFree) (hvs : ∀ v ∈ vs, v.kind ≠ .native) :
    (s.newArray vs.toArray).2.NativeFree := by
  refine h.grow (Extends.newArray s vs.toArray) fun c i w hc hi => ?_
  obtain rfl := ((knows_newArray (isContainer_of_part? hi)).1 (knows_of_part? hi)).resolve_left hc
  rw [part?_newArray_self] at hi
  exact hvs w (by simpa using Array.mem_of_getElem? hi)

theorem newHash {table : Table} (h : s.NativeFree) (hvs : ∀ v ∈ table.values, v.kind ≠ .native) :
    (s.newHash table).2.NativeFree := by
  refine h.grow (Extends.newHash s table) fun c i w hc hi => ?_
  obtain rfl := ((knows_newHash (isContainer_of_part? hi)).1 (knows_of_part? hi)).resolve_left hc
  rw [part?_newHash_self] at hi
  obtain ⟨e, he, hv⟩ := Option.bind_eq_some_iff.1 hi
  exact hvs w (List.mem_filterMap.2 ⟨e, List.mem_of_getElem? he, hv⟩)

theorem snapshotWithin {k : Nat} (h : s.NativeFree) (hv : v.kind ≠ .native)
    (hc : Store.snapshotWithin k v s = some (c, t)) : t.NativeFree ∧ c.kind ≠ .native :=
  snapshotWithin_invariant (I := NativeFree) (P := fun v => v.kind ≠ .native) (Q := fun v => v.kind ≠ .native)
    (fun _ _ _ hs _ hw => hs.children hw) (fun _ hv _ => hv) nofun
    (fun _ _ hs hvs => ⟨hs.newArray hvs, nofun⟩) (fun _ _ _ _ _ hu _ hvs => ⟨hu.newHash hvs, nofun⟩) h hv hc

end NativeFree

/-! ## Marks after a change -/

theorem isMarked_push : (s.push a c).isMarked w = s.isMarked w := by
  cases w with
  | array b =>
    simp only [isMarked, push]
    rcases array_modifyArray_cases (s := s) (a := a) (b := b)
      (f := fun cell => { cell with elements := cell.elements.push c }) with hb | ⟨-, hb⟩ <;> rw [hb]
  | _ => rfl

theorem isMarked_define {m : Bool} : (s.define r x c m).isMarked v = s.isMarked v := by
  cases v <;> rfl

theorem isMarked_newScope {parent : Option ScopeId} : (s.newScope parent).2.isMarked v = s.isMarked v := by
  cases v <;> rfl

theorem isMarked_mark_self (hv : s.Knows v) (hc : v.isContainer) : (s.mark v).isMarked v = true := by
  cases v with
  | array a => simp only [mark, isMarked, array_modifyArray_self hv]
  | hash i => simp only [mark, isMarked, hash_modifyHash_self hv]
  | _ => cases hc

theorem isMarked_mark_of_ne (h : w ≠ v) : (s.mark v).isMarked w = s.isMarked w := by
  cases v with
  | array a =>
    cases w with
    | array b => simp only [mark, isMarked, array_modifyArray_of_ne (fun hb => h (congrArg Value.array hb))]
    | _ => rfl
  | hash i =>
    cases w with
    | hash j => simp only [mark, isMarked, hash_modifyHash_of_ne (fun hb => h (congrArg Value.hash hb))]
    | _ => rfl
  | _ => rfl

theorem isMarked_unmark_of_ne (h : w ≠ v) : (s.unmark v).isMarked w = s.isMarked w := by
  cases v with
  | array a =>
    cases w with
    | array b => simp only [unmark, isMarked, array_modifyArray_of_ne (fun hb => h (congrArg Value.array hb))]
    | _ => rfl
  | hash i =>
    cases w with
    | hash j => simp only [unmark, isMarked, hash_modifyHash_of_ne (fun hb => h (congrArg Value.hash hb))]
    | _ => rfl
  | _ => rfl

theorem isMarked_unmark_self : (s.unmark v).isMarked v = false := by
  by_cases hv : s.Knows v
  · cases v with
    | array a => simp only [unmark, isMarked, array_modifyArray_self hv]
    | hash i => simp only [unmark, isMarked, hash_modifyHash_self hv]
    | _ => rfl
  · exact isMarked_of_not_knows fun hk => hv ((SameContents.unmark s v).knows.1 hk)

theorem isContainer_of_isMarked (h : s.isMarked v = true) : v.isContainer := by
  cases v <;> simp_all [isMarked, Value.isContainer]

end Store

end CopyOnBind
