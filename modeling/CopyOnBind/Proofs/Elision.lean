import CopyOnBind.Proofs.Mirrored
import CopyOnBind.Proofs.ValueSemantics
/-!
# Copy elision

With copy elision a call result is copied when the call returns, without it
when the result is bound. Whoever can change what the callee returned between
these two moments can tell the two apart (`elision_observed`). It is enough that no
call result changes while it waits for other operands, and that the data of the
start are plain: then the run that elides copies ends like the one that does not,
and leaves the same values (`elision_unobservable`).
-/

namespace CopyOnBind

/-! ## The start of a run -/

/-- Containers, and scalars and closures that equal themselves. -/
def Value.isPlain (v : Value) : Bool := v.isContainer || v.isSimple && v.eqFlat v

theorem Value.kind_of_isPlain {v : Value} (h : v.isPlain) : v.kind ≠ .native := by
  rw [isPlain, Bool.or_eq_true, Bool.and_eq_true] at h
  rcases h with h | ⟨h, -⟩
  · exact kind_of_isContainer h
  · exact kind_of_isSimple h

namespace Store

variable {s t : Store} {v v' : Value}

/-- Data without marks, cycles, references and natives, and without a NaN. -/
structure Plain (s : Store) : Prop where
  wellFormed : s.WellFormed
  acyclic : s.Acyclic
  names : ∀ scope ∈ s.scopes, ∀ b ∈ scope.bindings, s.Knows b.value ∧ b.value.isPlain
  arrays : ∀ cell ∈ s.arrays, cell.marked = false ∧ ∀ v ∈ cell.elements, v.isPlain
  hashes : ∀ t ∈ s.hashes, t.marked = false ∧ ∀ e ∈ t.entries, ∀ v ∈ e.value, v.isPlain

namespace Plain

theorem of_name {e : ScopeId} {x : String} (h : s.Plain) (hv : s.at? (.name e x) = some v) : s.Knows v ∧ v.isPlain := by
  obtain ⟨b, hb, rfl⟩ := Option.map_eq_some_iff.1 hv
  exact h.names _ (scope_mem (lt_of_at?_name hv)) b (List.mem_of_find?_eq_some hb)

theorem unmarked (h : s.Plain) (v : Value) : s.isMarked v = false := by
  by_cases hk : s.Knows v
  · cases v with
    | array a => exact (h.arrays _ (array_mem hk)).1
    | hash i => exact (h.hashes _ (hash_mem hk)).1
    | _ => rfl
  · exact isMarked_of_not_knows hk

theorem alike (hv : s.Knows v) (hp : v.isPlain) : Alike s s s v v := by
  rw [Value.isPlain, Bool.or_eq_true, Bool.and_eq_true] at hp
  rcases hp with hc | ⟨hsimple, heq⟩
  · exact .inl ⟨rfl, hc, hv⟩
  · exact (paired_simple hsimple heq).alike

theorem nativeFree (h : s.Plain) : s.NativeFree := by
  intro p v hp
  apply Value.kind_of_isPlain
  cases p with
  | name e x => exact (h.of_name hp).2
  | inside c i =>
    have hk := knows_of_part? hp
    have hmem := (mem_children_iff (isContainer_of_part? hp)).2 ⟨i, hp⟩
    cases c with
    | array a => exact (h.arrays _ (array_mem hk)).2 v (Array.mem_toList_iff.1 hmem)
    | hash j =>
      obtain ⟨e, he, hv⟩ := List.mem_filterMap.1 hmem
      exact (h.hashes _ (hash_mem hk)).2 e he v hv
    | _ => cases hp

theorem tidy (h : s.Plain) : s.Tidy s :=
  tidy_refl h.wellFormed h.acyclic (fun _ _ _ hv => (h.of_name hv).1) h.nativeFree h.unmarked

theorem linked (h : s.Plain) : Linked s s s where
  off := h.tidy
  on := h.tidy
  unmarked := h.unmarked
  frames := ⟨rfl, fun _ => rfl, fun _ _ => rfl⟩
  names e x := by
    cases hv : s.at? (.name e x) with
    | none => exact .none
    | some v => exact .some (alike (h.of_name hv).1 (h.of_name hv).2)
  arrays a ha := by
    refine List.forall₂_same.2 fun v hv => alike (h.wellFormed.children (v := .array a) hv) ?_
    exact (h.arrays _ (array_mem ha)).2 v (Array.mem_toList_iff.1 hv)
  tables i hi := by
    refine ⟨⟨rfl, rfl⟩, fun e he v hv => alike ?_ ?_⟩
    · exact h.wellFormed.children (v := .hash i) (List.mem_filterMap.2 ⟨e, he, hv⟩)
    · exact (h.hashes _ (hash_mem hi)).2 e he v hv

end Plain

end Store

namespace Kernel

open Store

variable {s₀ s t : Store} {r r' : Outcome}

/-- A world with the store `s`, before a program runs in it. -/
def world (s : Store) (policy : Policy) : World Trace := { store := s, machine := { policy }, notes := [] }

/-- The same fault, or values that show the same text. -/
def SameResult (s t : Store) : Ending → Ending → Prop
  | .value v, .value v' => ∃ text, s.inspect v = some text ∧ t.inspect v' = some text
  | .fault f, .fault f' => f' = f
  | _, _ => False

theorem Ends.sameResult {r r' : Outcome} (h : Ends s₀ (Given s₀ s t) s t r r') (hl : Linked s₀ s t) :
    SameResult s t (.ofResult r.closeProgram) (.ofResult r'.closeProgram) := by
  have hvalue : ∀ v v', Given s₀ s t v v' → SameResult s t (.value v) (.value v') := fun v v' hv =>
    (hl.ready_of_given hv).inspect hl.off.wellFormed hl.on.wellFormed
  cases h with
  | ok v v' hv => exact hvalue v v' hv
  | signal e e' he =>
    cases he with
    | ret v v' hv => exact hvalue v v' hv
    | out v v' hv => rfl
    | jump => rfl
    | error f => rfl

/-- No array and no hash changed since the results were handed back. -/
def Moment.Unchanged (s : Store) : Moment → Prop
  | .ready results => ∀ q ∈ results, q.2.arrays = s.arrays ∧ q.2.hashes = s.hashes
  | _ => True

instance : (m : Moment) → Decidable (m.Unchanged s)
  | .ready results => inferInstanceAs (Decidable (∀ q ∈ results, q.2.arrays = s.arrays ∧ q.2.hashes = s.hashes))
  | .started | .finished => inferInstanceAs (Decidable True)

theorem settled_of_unchanged {notes : Trace} (h : ∀ m ∈ notes, m.1.Unchanged m.2) : Settled notes := by
  intro results s hm v t hv
  obtain ⟨ha, hh⟩ := h _ hm (v, t) hv
  have hsame : t.SameContents s := by
    simp only at ha hh
    constructor <;> simp [Store.array, Store.hash, ha, hh]
  exact hsame.content

/-- If call results stay as they are while they wait, and the data do not show
which container is which, then copy elision is not observed: where the run
without it has a result, the run that elides copies has the same, and leaves the
same texts under all names. -/
theorem elision_unobservable (p : Program) (s₀ : Store) (depth n : Nat) (e : ScopeId) (code : List Stmt)
    (r : Ending) (w : World Trace) (hs : s₀.Plain)
    (hrun : run p record n e code (world s₀ { copyElision := false, maxCallDepth := depth }) = (some r, w))
    (hr : r ≠ .conflict) (hset : Settled w.notes) :
    ∃ r' w', run p record n e code (world s₀ { copyElision := true, maxCallDepth := depth }) = (some r', w') ∧
      SameResult w.store w'.store r r' ∧
        ∀ d x, (w.store.lookup d x = none ∧ w'.store.lookup d x = none) ∨ ∃ v v' text, w.store.lookup d x = some v ∧
          w'.store.lookup d x = some v' ∧ w.store.inspect v = some text ∧ w'.store.inspect v' = some text := by
  have hbeside : Beside s₀ (world s₀ { copyElision := false, maxCallDepth := depth })
      (world s₀ { copyElision := true, maxCallDepth := depth }) := ⟨hs.linked, rfl, rfl, rfl, rfl⟩
  obtain ⟨q, hx, rfl⟩ := (run_eq_some hrun).resolve_right fun h => hr h.2.2
  obtain ⟨q', u', hy, hsince, hends⟩ := (mirrored s₀ p n).block e code _ _ hbeside q _ hx hset
  refine ⟨.ofResult (Outcome.closeProgram q'), u', run_of_outcome hy, hends.sameResult hsince.linked, fun d x => ?_⟩
  -- a name stands for values of one content, whichever scope it is looked up from
  rcases hsince.linked.lookup (e := d) (x := x) with hnone | ⟨_, v, v', hv, hv', hat, hat'⟩
  · exact .inl hnone
  · obtain ⟨text, htext, htext'⟩ := (hsince.linked.ready (hsince.linked.alike_of_named hat hat')).inspect
      hsince.linked.off.wellFormed hsince.linked.on.wellFormed
    exact .inr ⟨v, v', text, hv, hv', htext, htext'⟩

/-- A call result, next to another argument, of a program that pushes onto what it passed on. -/
theorem elision_unobservable_of_push :
    let p : Program := { blocks := #[[.ret (.name "a")], [.push "b" (.name "c"), .ret (.name "b")]] }
    let code : List Stmt := [.define "f" (.function [] ⟨0, 1⟩), .define "h" (.function ["b", "c"] ⟨1, 2⟩),
      .define "d" (.call (.name "h") [.call (.name "f") [], .int 2]), .push "a" (.int 3)]
    let s : Store := { arrays := #[{ elements := #[.int 1] }], scopes := #[{ bindings := [⟨"a", .array ⟨0⟩, true⟩] }] }
    ∃ r w r' w', run p record 12 ⟨0⟩ code (world s { copyElision := false, maxCallDepth := 4 }) = (some r, w) ∧
      ((w.store.lookup ⟨0⟩ "a").bind w.store.inspect = some "[1, 3]" ∧
        (w.store.lookup ⟨0⟩ "d").bind w.store.inspect = some "[1, 2]") ∧
      run p record 12 ⟨0⟩ code (world s { copyElision := true, maxCallDepth := 4 }) = (some r', w') ∧
        SameResult w.store w'.store r r' := by
  intro p code s
  have hplain : s.Plain := ⟨by decide, by decide, by decide, by decide, by decide⟩
  have hends : (run p record 12 ⟨0⟩ code (world s { copyElision := false, maxCallDepth := 4 })).1 = some (.value .void) := by
    decide +kernel
  have hnotes : ∀ m ∈ (run p record 12 ⟨0⟩ code (world s { copyElision := false, maxCallDepth := 4 })).2.notes,
      m.1.Unchanged m.2 := by
    decide +kernel
  have htexts : ∀ w, w = (run p record 12 ⟨0⟩ code (world s { copyElision := false, maxCallDepth := 4 })).2 →
      (w.store.lookup ⟨0⟩ "a").bind w.store.inspect = some "[1, 3]" ∧
        (w.store.lookup ⟨0⟩ "d").bind w.store.inspect = some "[1, 2]" := by
    intro w hw
    rw [hw]
    decide +kernel
  have key := elision_unobservable p s 4 12 ⟨0⟩ code
  obtain ⟨x, hrun⟩ : ∃ x, x = run p record 12 ⟨0⟩ code (world s { copyElision := false, maxCallDepth := 4 }) := ⟨_, rfl⟩
  rw [← hrun] at hends hnotes htexts
  obtain ⟨_, w⟩ := x
  cases hends
  obtain ⟨r', w', hrun', hsame, -⟩ := key _ w hplain hrun.symm nofun (settled_of_unchanged hnotes)
  exact ⟨_, w, r', w', hrun.symm, htexts w rfl, hrun', hsame⟩

/-- A result that changes while it waits, a NaN, a reference and an array that holds itself each show whether
copies are elided. -/
theorem elision_observed :
    (let code : List Stmt := [.define "g" (.array [.int 1]), .define "f" (.function [] ⟨0, 1⟩), .define "k" (.function [] ⟨1, 1⟩),
        .define "h" (.function ["a", "b"] ⟨2, 1⟩), .expr (.call (.name "h") [.call (.name "f") [], .call (.name "k") []])]
      let p : Program := { blocks := #[[.ret (.name "g")], [.push "g" (.int 2)], [.ret (.length (.name "a"))]] }
      (run p record 12 ⟨0⟩ code (world root { copyElision := false })).1 = some (.value (.int 2)) ∧
        (run p record 12 ⟨0⟩ code (world root { copyElision := true })).1 = some (.value (.int 1))) ∧
    (let s : Store := {
        arrays := #[{ elements := #[.float ⟨0x7ff8000000000000⟩] }]
        scopes := #[{ bindings := [⟨"a", .array ⟨0⟩, true⟩] }] }
      let code : List Stmt := [.define "f" (.function [] ⟨0, 1⟩), .expr (.equal (.name "a") (.call (.name "f") []))]
      let p : Program := { blocks := #[[.ret (.name "a")]] }
      (run p record 12 ⟨0⟩ code (world s { copyElision := false })).1 = some (.value (.bool true)) ∧
        (run p record 12 ⟨0⟩ code (world s { copyElision := true })).1 = some (.value (.bool false))) ∧
    (let s : Store := {
        hashes := #[{ entries := [⟨.int 1, .int 1, some (.int 5), 0⟩], nextGeneration := 1 }]
        scopes := #[{ bindings := [⟨"r", .ref ⟨⟨0⟩, .int 1, 0⟩ (.int 1) false, true⟩] }] }
      let code : List Stmt := [.define "f" (.function [] ⟨0, 1⟩), .expr (.call (.name "f") [])]
      let p : Program := { blocks := #[[.ret (.name "r")]] }
      (run p record 12 ⟨0⟩ code (world s { copyElision := false })).1 =
          some (.value (.ref ⟨⟨0⟩, .int 1, 0⟩ (.int 1) false)) ∧
        (run p record 12 ⟨0⟩ code (world s { copyElision := true })).1 = some (.value (.int 5))) ∧
    (let s : Store := {
        arrays := #[{ elements := #[.array ⟨0⟩] }]
        scopes := #[{ bindings := [⟨"a", .array ⟨0⟩, true⟩] }] }
      let code : List Stmt := [.define "f" (.function [] ⟨0, 1⟩), .expr (.call (.name "f") [])]
      let p : Program := { blocks := #[[.ret (.name "a")]] }
      (run p record 12 ⟨0⟩ code (world s { copyElision := false })).1 = some (.value (.array ⟨0⟩)) ∧
        (run p record 12 ⟨0⟩ code (world s { copyElision := true })).1 = none) := by
  decide +kernel

end Kernel

end CopyOnBind
