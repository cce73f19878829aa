import CopyOnBind.Proofs.Ownership
import CopyOnBind.Proofs.Slots
/-!
# Marks are good for one copy

Over a run of writes, new containers, copies and marks, a container is marked
exactly if one of the marks put on it came after the last copy that was asked of
the container itself (`Runs.isMarked_iff`). `copy_one_shot` says what the next
copy makes of that: the container itself, once, and a new one at any other time.

Copies of what the container lies in, and of references that lead to it, are
copies of other values: they neither ask for its mark nor remove it.
-/

namespace CopyOnBind

open Store

variable {s t u : Store} {v w c d : Value} {a : Action} {e : Event} {es : List Event}

/-! ## New containers have no mark -/

namespace Store

theorem unmarked_snapshotWithin {n : Nat} (hc : snapshotWithin n v s = some (c, t)) :
    ∀ w, ¬ s.Knows w → t.isMarked w = false := by
  let I (t : Store) : Prop := s.Extends t ∧ ∀ w, ¬ s.Knows w → t.isMarked w = false
  -- what a step adds is new to the store before the step as well
  have step : ∀ {t u : Store}, I t → t.Extends u → (∀ w, ¬ t.Knows w → u.isMarked w = false) → I u := by
    rintro t u ⟨hst, ht⟩ htu hnew
    refine ⟨hst.trans htu, fun w hw => ?_⟩
    by_cases hk : t.Knows w
    · rw [htu.isMarked hk, ht w hw]
    · exact hnew w hk
  exact (snapshotWithin_invariant (I := I) (P := fun _ => True) (Q := fun _ => True) (fun _ _ _ _ _ _ => trivial)
    (fun _ _ _ => trivial) trivial
    (fun t vs ht _ => ⟨step ht (.newArray t _) fun w => isMarked_newArray, trivial⟩)
    (fun _ _ u table _ hu hr _ => ⟨step hu (.newHash u table) fun w => isMarked_newHash hr.unmarked, trivial⟩)
    ⟨.refl s, fun w => isMarked_of_not_knows⟩ trivial hc).1.2

theorem unmarked_copy (hc : s.copy v = some (c, t)) (hw : ¬ s.Knows w) : t.isMarked w = false := by
  unfold copy at hc
  split at hc
  · cases hc
    exact isMarked_of_not_knows fun hk => hw ((SameContents.unmark s v).knows.1 hk)
  · exact unmarked_snapshotWithin hc w hw

end Store

theorem Table.marked_ofPairs {pairs : List (Value × Value)} {table : Table} (h : Table.ofPairs pairs = .ok table) :
    table.marked = false :=
  ofPairs_invariant (I := fun _ t => t.marked = false) (fun _ _ _ ht => (Change.marked_apply _ _).trans ht) rfl h

theorem Action.unmarked (ha : a.apply s = some t) (hw : ¬ s.Knows w) : t.isMarked w = false := by
  cases a with
  | write x => rw [Write.isMarked ha, isMarked_of_not_knows hw]
  | copy v =>
    obtain ⟨⟨c, u⟩, hc, rfl⟩ := Option.map_eq_some_iff.1 ha
    exact unmarked_copy hc hw
  | newArray elements =>
    cases ha
    exact isMarked_newArray hw
  | newHash pairs =>
    cases ha
    unfold newHashOf
    split
    · exact isMarked_of_not_knows hw
    · next table htable => exact isMarked_newHash (Table.marked_ofPairs htable) hw

/-! ## Runs with marks -/

/-- What can happen to a store. Handles are values: a container may be marked
through one of its handles and copied through another. -/
inductive Event where
  | mark (v : Value)
  | act (a : Action)

namespace Event

/-- The store after an event, unless a walk over it does not end. -/
def apply (s : Store) : Event → Option Store
  | mark v => s.mark v
  | act a => a.apply s

/-- The handles that an event uses are known to the store. -/
def Known (s : Store) : Event → Prop
  | mark v => s.Knows v
  | act a => a.Known s

theorem wellFormed (hs : s.WellFormed) (hk : e.Known s) (he : e.apply s = some t) : t.WellFormed := by
  cases e with
  | mark v =>
    cases he
    exact (SameContents.mark s v).wellFormed hs
  | act a => exact Action.wellFormed hs hk he

/-- A mark stays until the container itself is copied. -/
theorem isMarked_iff (hc : c.isContainer) (hk : e.Known s) (he : e.apply s = some t) :
    t.isMarked c = true ↔ e = .mark c ∨ s.isMarked c = true ∧ e ≠ .act (.copy c) := by
  cases e with
  | mark v =>
    cases he
    by_cases hv : c = v
    · subst hv
      simp [isMarked_mark_self hk hc]
    · simp [isMarked_mark_of_ne hv, Ne.symm hv]
  | act a =>
    by_cases hsc : s.Knows c
    · simpa using Action.isMarked_iff hsc he
    · simp [Action.unmarked he hsc, isMarked_of_not_knows hsc]

end Event

namespace Store

/-- The store `t` comes out of these events, each of which uses handles that are known by then. -/
inductive Runs (s : Store) : List Event → Store → Prop
  | nil : Runs s [] s
  | snoc {es : List Event} {t u : Store} {e : Event} : Runs s es t → e.Known t → e.apply t = some u → Runs s (es ++ [e]) u

/-- The container was marked when it was there already, and no copy was asked of it since. -/
def MarkedSince (s : Store) (c : Value) (es : List Event) : Prop :=
  ∃ before after t, es = before ++ .mark c :: after ∧ s.Runs before t ∧ t.Knows c ∧ .act (.copy c) ∉ after

namespace Runs

theorem wellFormed (hs : s.WellFormed) (hrun : s.Runs es t) : t.WellFormed := by
  induction hrun with
  | nil => exact hs
  | snoc _ hk he ih => exact Event.wellFormed ih hk he

theorem markedSince_snoc (hrun : s.Runs es t) (hk : e.Known t) :
    s.MarkedSince c (es ++ [e]) ↔ e = .mark c ∨ s.MarkedSince c es ∧ e ≠ .act (.copy c) := by
  constructor
  · rintro ⟨before, after, u, hes, hbefore, hu, hafter⟩
    -- the mark is the last event, or it is one of those before
    rcases List.eq_nil_or_concat after with rfl | ⟨after', e', rfl⟩
    · exact .inl (List.singleton_inj.1 (List.append_inj' hes rfl).2)
    · rw [List.concat_eq_append] at hes hafter
      rw [← List.cons_append, ← List.append_assoc] at hes
      obtain ⟨rfl, hlast⟩ := List.append_inj' hes rfl
      obtain rfl := List.singleton_inj.1 hlast
      simp only [List.mem_append, List.mem_singleton, not_or] at hafter
      exact .inr ⟨⟨before, after', u, rfl, hbefore, hu, hafter.1⟩, Ne.symm hafter.2⟩
  · rintro (rfl | ⟨⟨before, after, u, rfl, hbefore, hu, hafter⟩, he⟩)
    · exact ⟨es, [], t, rfl, hrun, hk, List.not_mem_nil⟩
    · refine ⟨before, after ++ [e], u, by simp, hbefore, hu, ?_⟩
      simp [hafter, Ne.symm he]

/-- The mark of a container tells whether it was marked since it was copied last. -/
theorem isMarked_iff (hrun : s.Runs es t) (hc : c.isContainer) (hm : s.isMarked c = false) :
    t.isMarked c = true ↔ s.MarkedSince c es := by
  induction hrun with
  | nil =>
    rw [hm]
    refine ⟨nofun, ?_⟩
    rintro ⟨before, after, -, hes, -⟩
    simp at hes
  | snoc hrun hk he ih => rw [Event.isMarked_iff hc hk he, ih, hrun.markedSince_snoc hk]

end Runs

/-! ## The next copy -/

/-- What a copy does with the container `c` and its mark; `pending` says that the mark is there. -/
structure OneShot (t : Store) (c : Value) (pending : Prop) : Prop where
  same_iff : ∀ d u, t.copy c = some (d, u) → (d = c ↔ pending)
  spent : pending → t.copy c = some (c, t.unmark c) ∧ (t.unmark c).isMarked c = false
  renewed : ¬ pending → ∀ d u, t.copy c = some (d, u) → d.isContainer ∧ ¬ t.Knows d ∧ u.Knows d
  ends : t.Grounded c → (t.copy c).isSome
  /-- The copy of another value leaves the mark, whether the value leads to `c` or not. -/
  kept : ∀ v d u, v ≠ c → t.copy v = some (d, u) → u.isMarked c = t.isMarked c
  /-- The copy of a value that has no mark itself never meets `c` or another old container. -/
  apart : ∀ v d u, t.isMarked v = false → t.copy v = some (d, u) →
    ∀ path w, u.follow? d path = some w → w.isContainer → w ≠ c ∧ ¬ t.Knows w
  /-- The containers that a copy makes have no mark. -/
  unmarked : ∀ v d u, t.copy v = some (d, u) → ∀ w, ¬ t.Knows w → u.isMarked w = false

theorem isMarked_copy_of_ne (hk : s.Knows c) (hv : v ≠ c) (hcopy : s.copy v = some (d, t)) :
    t.isMarked c = s.isMarked c := by
  rcases extends_or_unmark hcopy with hst | rfl
  · exact hst.isMarked hk
  · exact isMarked_unmark_of_ne (Ne.symm hv)

/-- The snapshot of a container is a container. -/
theorem isContainer_of_copy (hc : c.isContainer) (hcopy : s.copy c = some (d, t)) : d.isContainer := by
  unfold copy at hcopy
  split at hcopy
  · cases hcopy
    exact hc
  · change snapshotWithin (_ + 1) c s = some (d, t) at hcopy
    cases c with
    | array a =>
      rw [snapshotWithin_array] at hcopy
      obtain ⟨p, -, hp⟩ := Option.map_eq_some_iff.1 hcopy
      cases hp
      rfl
    | hash h =>
      rw [snapshotWithin_hash] at hcopy
      obtain ⟨p, -, hp⟩ := Option.map_eq_some_iff.1 hcopy
      cases hp
      rfl
    | _ => cases hc

/-- Over any run, a copy asked of a container gives the container itself exactly
if it was marked since its last copy, and a new container otherwise. -/
theorem copy_one_shot (hs : s.WellFormed) (hc : c.isContainer) (hm : s.isMarked c = false) (hrun : s.Runs es t)
    (hk : t.Knows c) : t.OneShot c (s.MarkedSince c es) := by
  have ht : t.WellFormed := hrun.wellFormed hs
  have hmark : t.isMarked c = true ↔ s.MarkedSince c es := hrun.isMarked_iff hc hm
  have renewed : ¬ s.MarkedSince c es → ∀ d u, t.copy c = some (d, u) → d.isContainer ∧ ¬ t.Knows d ∧ u.Knows d := by
    intro hp d u hcopy
    have hfalse : t.isMarked c = false := by simpa using fun h => hp (hmark.1 h)
    have hd : d.isContainer := isContainer_of_copy hc hcopy
    have hfresh : t.Fresh u d := (grafts_of_copy ht hk hfalse hcopy).2.root d (by simp)
    exact ⟨hd, hfresh.not_knows hd, hfresh.knows⟩
  have spent : s.MarkedSince c es → t.copy c = some (c, t.unmark c) := fun hp => copy_of_marked (hmark.2 hp)
  refine ⟨fun d u hcopy => ⟨?_, fun hp => ?_⟩, fun hp => ⟨spent hp, isMarked_unmark_self⟩, renewed,
    isSome_copy ht hk, fun v d u => isMarked_copy_of_ne hk, fun v d u hv hcopy path w hw hwc => ?_,
    fun v d u hcopy w => unmarked_copy hcopy⟩
  · rintro rfl
    by_contra hp
    exact (renewed hp d u hcopy).2.1 hk
  · rw [spent hp] at hcopy
    cases hcopy
    rfl
  · have hnew : ¬ t.Knows w := not_knows_of_copy hv hcopy hw hwc
    exact ⟨by rintro rfl; exact hnew hk, hnew⟩

/-- The array that holds the marked one is copied first. -/
theorem copy_one_shot_outer :
    let s : Store := {}
    let es : List Event := [.act (.newArray #[.int 1]), .mark (.array ⟨0⟩), .act (.newArray #[.array ⟨0⟩]),
      .act (.copy (.array ⟨1⟩))]
    ∃ t, s.Runs es t ∧ t.OneShot (.array ⟨0⟩) (s.MarkedSince (.array ⟨0⟩) es) ∧
      t.copy (.array ⟨0⟩) = some (.array ⟨0⟩, t.unmark (.array ⟨0⟩)) := by
  intro s es
  have created : s.Runs [es[0]] _ := .snoc .nil (by simp [es, Event.Known, Action.Known, Knows]) rfl
  have marked : s.Runs [es[0], es[1]] _ := .snoc created (show Knows _ (.array ⟨0⟩) by decide) rfl
  have held : s.Runs [es[0], es[1], es[2]] _ := .snoc marked (by simp [es, Event.Known, Action.Known]; decide) rfl
  have copied : s.Runs es _ := .snoc held (show Knows _ (.array ⟨1⟩) by decide) rfl
  have hone := copy_one_shot (c := .array ⟨0⟩) (by decide +kernel) rfl rfl copied (by decide +kernel)
  have hsince : s.MarkedSince (.array ⟨0⟩) es :=
    ⟨[es[0]], [es[2], es[3]], _, rfl, created, by decide, by simp [es]⟩
  exact ⟨_, copied, hone, (hone.spent hsince).1⟩

end Store

end CopyOnBind
