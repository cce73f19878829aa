import CopyOnBind.Proofs.Marks
/-!
# Returning through calls

A value that is returned through several calls is handed on by each of them. With
copy elision the first one copies it and marks the copy; each of the others takes
the mark as leave to hand on the same container, and marks it again, and binding
the result takes the last mark off. Without copy elision nothing happens before
the result is bound. Either way it costs one copy: binding what any number of
calls hand on is binding the value itself (`bound_handBacks`).

`returns_one_copy` says what that makes of the value, of the store that it is
returned in, and of the store after each of the calls.
-/

namespace CopyOnBind

open Store

variable {s t : Store} {v c : Value} {m : Machine} {n : Nat}

/-- What is left of a value that `n` calls have handed on. -/
def Machine.handBacks (m : Machine) (v : Value) : Nat → StateT Store Option Value
  | 0 => pure v
  | n + 1 => do m.handBack (← m.handBacks v n)

namespace Store

/-! ## A mark and a copy undo each other -/

theorem modifyArray_modifyArray {a : ArrayId} {f g : ArrayCell → ArrayCell} :
    (s.modifyArray a f).modifyArray a g = s.modifyArray a (g ∘ f) := by
  have hsame : (s.arrays.modify a.index f).modify a.index g = s.arrays.modify a.index (g ∘ f) := by
    refine Array.ext (by simp) fun i _ _ => ?_
    simp only [Array.getElem_modify, Function.comp]
    split <;> rfl
  simp only [modifyArray, hsame]

theorem modifyHash_modifyHash {h : HashId} {f g : Table → Table} :
    (s.modifyHash h f).modifyHash h g = s.modifyHash h (g ∘ f) := by
  have hsame : (s.hashes.modify h.index f).modify h.index g = s.hashes.modify h.index (g ∘ f) := by
    refine Array.ext (by simp) fun i _ _ => ?_
    simp only [Array.getElem_modify, Function.comp]
    split <;> rfl
  simp only [modifyHash, hsame]

theorem unmark_mark (hc : s.isMarked c = false) : (s.mark c).unmark c = s := by
  cases c with
  | array a =>
    rw [mark, unmark, modifyArray_modifyArray]
    refine modifyArray_of_eq ?_
    rw [Function.comp, ← show (s.array a).marked = false from hc]
  | hash h =>
    rw [mark, unmark, modifyHash_modifyHash]
    refine modifyHash_of_eq ?_
    rw [Function.comp, ← show (s.hash h).marked = false from hc]
  | _ => rfl

theorem copy_flat (hc : c.node? = none) : s.copy c = some (c, s) := by
  have hm : s.isMarked c = false := by
    cases c <;> first | rfl | cases hc
  rw [copy, if_neg (by simp [hm]), snapshot, snapshotWithin_flat hc]

theorem mark_flat (hc : c.node? = none) : s.mark c = s := by
  cases c <;> first | rfl | cases hc

/-- What a copy gives is no reference, and has no mark. -/
theorem copy_gives (hs : s.WellFormed) (hv : s.Knows v) (hcopy : s.copy v = some (c, t)) :
    t.isMarked c = false ∧ (c.node? = none ∨ c.isContainer ∧ t.Knows c) := by
  cases hm : s.isMarked v with
  | true =>
    rw [copy_of_marked hm] at hcopy
    cases hcopy
    exact ⟨isMarked_unmark_self, .inr ⟨isContainer_of_isMarked hm, (SameContents.unmark s v).knows.2 hv⟩⟩
  | false =>
    have hroot := (grafts_of_copy hs hv hm hcopy).2.root c (by simp)
    refine ⟨?_, hroot.imp_right fun hc => ⟨hc.1, hc.2.2⟩⟩
    rcases hroot with hflat | ⟨-, hnew, -⟩
    · cases c <;> first | rfl | cases hflat
    · exact unmarked_copy hcopy hnew

/-- A container that is marked and then copied is as it was. -/
theorem copy_mark (hm : s.isMarked c = false) (hc : c.node? = none ∨ c.isContainer ∧ s.Knows c) :
    (s.mark c).copy c = some (c, s) := by
  rcases hc with hflat | ⟨hc, hk⟩
  · rw [mark_flat hflat, copy_flat hflat]
  · rw [copy_of_marked (isMarked_mark_self hk hc), unmark_mark hm]

end Store

/-! ## Any number of calls -/

namespace Machine

theorem handBacks_succ (v : Value) (n : Nat) (s : Store) :
    m.handBacks v (n + 1) s = (m.handBacks v n s).bind fun p => m.handBack p.1 p.2 := rfl

theorem handBacks_plain (hp : m.policy.copyElision = false) : m.handBacks v n s = some (v, s) := by
  induction n with
  | zero => rfl
  | succ n ih => rw [handBacks_succ, ih, Option.bind_some, Kernel.handBack_eq, if_neg (by simp [hp])]

/-- Every call after the first one hands on the copy that the first one made. -/
theorem handBacks_elided (hs : s.WellFormed) (hv : s.Knows v) (hp : m.policy.copyElision = true)
    (hcopy : s.copy v = some (c, t)) : m.handBacks v (n + 1) s = some (c, t.mark c) := by
  obtain ⟨hm, hc⟩ := copy_gives hs hv hcopy
  induction n with
  | zero =>
    rw [handBacks_succ, show m.handBacks v 0 s = some (v, s) from rfl, Option.bind_some, Kernel.handBack_eq, if_pos hp,
      hcopy, Option.map_some]
  | succ n ih => rw [handBacks_succ, ih, Option.bind_some, Kernel.handBack_eq, if_pos hp, copy_mark hm hc, Option.map_some]

theorem bound_handBacks (m : Machine) (n : Nat) (hs : s.WellFormed) (hv : s.Knows v)
    (hcopy : s.copy v = some (c, t)) : (do m.bound (← m.handBacks v n)) s = some (c, t) := by
  change (m.handBacks v n s).bind (fun p => p.2.copy p.1) = _
  cases hp : m.policy.copyElision with
  | false => rw [handBacks_plain hp, Option.bind_some, hcopy]
  | true =>
    cases n with
    | zero => exact hcopy
    | succ n =>
      obtain ⟨hm, hc⟩ := copy_gives hs hv hcopy
      rw [handBacks_elided hs hv hp hcopy, Option.bind_some, copy_mark hm hc]

end Machine

/-- Binding `v` gives `c`, in the store `t` then, through however many calls it is returned. -/
structure Store.Returns (s : Store) (v c : Value) (t : Store) : Prop where
  /-- With or without copy elision. -/
  bound : ∀ (m : Machine) n, (do m.bound (← m.handBacks v n)) s = some (c, t)
  /-- With copy elision the first call has all containers made that there are in the end,
  and the others hand on what it gave. -/
  elided : ∀ m : Machine, m.policy.copyElision = true → ∀ n, m.handBacks v (n + 1) s = some (c, t.mark c)
  own : s.isMarked v = true → c = v ∧ t = s.unmark v ∧ t.content c = s.content v
  /-- What is reached from the copy is new, and what was there is as it was. -/
  fresh : s.isMarked v = false → s.Extends t ∧ (∃ T, s.content v = some T ∧ t.content c = some T.resolve) ∧
    ∀ path w, t.follow? c path = some w → w.node? = none ∨ w.isContainer ∧ ¬ s.Knows w ∧ t.Knows w
  unmarked : t.isMarked c = false
  kept : ∀ w, s.Knows w → s.SameAt t w ∧ (t.isMarked w = true → s.isMarked w = true)

/-- A result costs one copy, whether it is made by the first call or when the
result is bound, and is the same result either way. -/
theorem returns_one_copy (hs : s.WellFormed) (ha : s.Acyclic) (hv : s.Knows v) : ∃ c t, s.Returns v c t := by
  cases hm : s.isMarked v with
  | true =>
    have hcopy := copy_of_marked hm
    have hsame := SameContents.unmark s v
    refine ⟨v, s.unmark v, fun m n => m.bound_handBacks n hs hv hcopy,
      fun m hp n => m.handBacks_elided hs hv hp hcopy, fun _ => ⟨rfl, rfl, hsame.content⟩, fun hf => ?_,
      isMarked_unmark_self, fun w _ => ⟨hsame.sameAt w, fun hw => ?_⟩⟩
    · cases hm.symm.trans hf
    · by_cases hwv : w = v
      · exact hwv ▸ hm
      · exact (isMarked_unmark_of_ne hwv).symm.trans hw
  | false =>
    obtain ⟨c, t, T, hcopy, hgrafts, hT, hres⟩ := copy_of_unmarked hs hv (ha.grounded v) hm
    refine ⟨c, t, fun m n => m.bound_handBacks n hs hv hcopy,
      fun m hp n => m.handBacks_elided hs hv hp hcopy, fun hf => ?_,
      fun _ => ⟨hgrafts.kept, ⟨T, hT, hres⟩, fun path w hw => hgrafts.fresh_of_follow? hw⟩,
      (copy_gives hs hv hcopy).1, fun w hw => ⟨hgrafts.kept.sameAt hw, fun hw' => ?_⟩⟩
    · cases hm.symm.trans hf
    · rw [← hgrafts.kept.isMarked hw, hw']

/-- A reference to an array that is marked: the mark stays with the array, and the copy is of its content. -/
theorem returns_one_copy_reference :
    let s : Store := {
      arrays := #[{ elements := #[.int 1], marked := true }]
      hashes := #[{ entries := [⟨.int 0, .int 0, some (.array ⟨0⟩), 0⟩], nextGeneration := 1 }] }
    let v : Value := .ref ⟨⟨0⟩, .int 0, 0⟩ (.int 0) true
    s.WellFormed ∧ s.Acyclic ∧ s.Knows v ∧ ∃ c t, s.Returns v c t ∧ c = .array ⟨1⟩ ∧ t.isMarked (.array ⟨0⟩) = true := by
  intro s v
  have hs : s.WellFormed := by decide +kernel
  have ha : s.Acyclic := by decide +kernel
  have hv : s.Knows v := by decide
  obtain ⟨c, t, hret⟩ := returns_one_copy hs ha hv
  have hcopy : s.copy v = some (c, t) := hret.bound {} 0
  have hgiven : (s.copy v).map (fun p => (p.1, p.2.isMarked (.array ⟨0⟩))) = some (.array ⟨1⟩, true) := by decide +kernel
  rw [hcopy, Option.map_some, Option.some.injEq, Prod.mk.injEq] at hgiven
  exact ⟨hs, ha, hv, c, t, hret, hgiven.1, hgiven.2⟩

end CopyOnBind
