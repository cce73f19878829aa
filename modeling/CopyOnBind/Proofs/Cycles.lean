import CopyOnBind.Proofs.Snapshot
import CopyOnBind.Store.Container
import CopyOnBind.Store.Equality
/-!
# The cycle check

Writing a slot adds steps to the graph of the data: from the hash that owns the
slot, and from every slot of that hash, to the value written. It closes a cycle
only if the value leads back to the hash or to one of its slots, and that is
what `reaches` decides (`reaches_spec`), whether the slots have entries or not.

`guarded_run`: data without cycles stay so under all guarded operations, so all
walks over them end.
-/

namespace CopyOnBind

open Relation

theorem exists_anyM {α : Type} {f : α → Option Bool} {P : α → Prop} {l : List α}
    (h : ∀ a ∈ l, ∃ b, f a = some b ∧ (b = true ↔ P a)) :
    ∃ b, l.anyM f = some b ∧ (b = true ↔ ∃ a ∈ l, P a) := by
  induction l with
  | nil => exact ⟨false, rfl, by simp⟩
  | cons a l ih =>
    obtain ⟨b, hb, hP⟩ := h a (by simp)
    obtain ⟨c, hc, hQ⟩ := ih fun a ha => h a (by simp [ha])
    cases b with
    | true => exact ⟨true, by simp [List.anyM, hb], by simp [hP.1 rfl]⟩
    | false =>
      have hn : ¬ P a := by simpa using hP
      exact ⟨c, by simp [List.anyM, hb, hc], by simp [hn, hQ]⟩

theorem isSome_allM {α : Type} {f : α → Option Bool} {l : List α} (h : ∀ a ∈ l, (f a).isSome) :
    (l.allM f).isSome := by
  induction l with
  | nil => rfl
  | cons a l ih =>
    obtain ⟨b, hb⟩ := Option.isSome_iff_exists.1 (h a (by simp))
    cases b with
    | true => simpa [List.allM, hb] using ih fun a ha => h a (by simp [ha])
    | false => simp [List.allM, hb]

namespace Store

variable {s t : Store} {v w : Value} {k : Nat} {h : HashId} {slot : Slot} {m n : Node}

/-! ## Meeting a hash -/

/-- A path from `v` meets the hash `h`, or a slot of it, with or without an entry. -/
def Meets (s : Store) (v : Value) (h : HashId) : Prop :=
  ∃ m n, v.node? = some m ∧ ReflTransGen s.Step m n ∧ n.owner? = some h

theorem meets_iff : s.Meets v h ↔ (∃ m, v.node? = some m ∧ m.owner? = some h) ∨ ∃ w ∈ s.children v, s.Meets w h := by
  constructor
  · rintro ⟨m, n, hv, hp, hn⟩
    rcases ReflTransGen.cases_head hp with rfl | ⟨x, ⟨w, hw, hx⟩, hp⟩
    · exact .inl ⟨m, hv, hn⟩
    · exact .inr ⟨w, by rwa [children_of_node? hv], x, n, hx, hp, hn⟩
  · rintro (⟨m, hv, hm⟩ | ⟨w, hw, x, n, hx, hp, hn⟩)
    · exact ⟨m, m, hv, .refl, hm⟩
    · cases hv : v.node? with
      | none => simp [children_of_node?_none hv] at hw
      | some m =>
        rw [children_of_node? hv] at hw
        exact ⟨m, n, hv, .head ⟨w, hw, hx⟩ hp, hn⟩

theorem not_meets_of_node?_none (hv : v.node? = none) : ¬ s.Meets v h := by
  rintro ⟨m, -, hm, -⟩
  simp [hv] at hm

/-- With steps enough for all its paths, the check decides whether one meets the hash. -/
theorem reachesWithin_spec (hk : s.Within k v) : ∃ b, s.reachesWithin h k v = some b ∧ (b = true ↔ s.Meets v h) := by
  have flat : ∀ {v : Value} {k}, v.node? = none → s.reachesWithin h k v = some false →
      ∃ b, s.reachesWithin h k v = some b ∧ (b = true ↔ s.Meets v h) := fun hv he =>
    ⟨false, he, by simp [not_meets_of_node?_none hv]⟩
  induction k generalizing v with
  | zero => cases v <;> first | exact flat rfl rfl | simp [Within, Value.node?] at hk
  | succ k ih =>
    cases v with
    | array a =>
      obtain ⟨b, hb, hm⟩ := exists_anyM fun w hw => ih (hk w hw)
      refine ⟨b, hb, ?_⟩
      rw [hm, meets_iff]
      simp [Value.node?, Node.owner?]
    | hash i =>
      by_cases hi : i = h
      · refine ⟨true, by simp [reachesWithin, hi], ?_⟩
        simp only [true_iff]
        exact ⟨_, _, rfl, .refl, congrArg some hi⟩
      · obtain ⟨b, hb, hm⟩ := exists_anyM fun w hw => ih (hk w hw)
        refine ⟨b, by rw [reachesWithin, if_neg hi]; exact hb, ?_⟩
        rw [hm, meets_iff]
        simp [Value.node?, Node.owner?, hi]
    | ref slot index constant =>
      by_cases hi : slot.origin = h
      · refine ⟨true, by simp [reachesWithin, hi], ?_⟩
        simp only [true_iff]
        exact ⟨_, _, rfl, .refl, congrArg some hi⟩
      · -- a stale reference leads nowhere, but its hash was compared already
        unfold reachesWithin
        rw [if_neg hi]
        cases hval : s.slotValue? slot with
        | none =>
          refine ⟨false, rfl, ?_⟩
          rw [meets_iff]
          simp [Value.node?, Node.owner?, hi, children, held, hval]
        | some w =>
          have hw : w ∈ s.children (.ref slot index constant) := by simp [children, Value.node?, held, hval]
          obtain ⟨b, hb, hm⟩ := ih (hk w hw)
          refine ⟨b, hb, ?_⟩
          rw [hm, meets_iff (v := .ref slot index constant)]
          simp [Value.node?, Node.owner?, hi, children, held, hval]
    | _ => exact flat rfl rfl

theorem reaches_spec (hs : s.Acyclic) : ∃ b, s.reaches v h = some b ∧ (b = true ↔ s.Meets v h) :=
  reachesWithin_spec (within_span (hs.grounded v))

/-! ## The other walks -/

theorem isSome_eqOptional {eq : Value → Value → Option Bool} {x y : Option Value}
    (h : ∀ v w, x = some v → (eq v w).isSome) : (eqOptional eq x y).isSome := by
  cases x <;> cases y <;> first | rfl | exact h _ _ rfl

theorem isSome_eqWithin (hk : s.Within k v) : (s.eqWithin k v w).isSome := by
  induction k generalizing v w with
  | zero => cases v <;> cases w <;> first | rfl | simp [Within, Value.node?] at hk
  | succ k ih =>
    cases v with
    | array a =>
      cases w with
      | array b =>
        simp only [eqWithin]
        split
        · rfl
        · rw [eqElements]
          split
          · exact isSome_allM fun p hp => ih (hk p.1 (List.of_mem_zip hp).1)
          · rfl
      | _ => rfl
    | hash i =>
      cases w with
      | hash j =>
        simp only [eqWithin]
        split
        · rfl
        · rw [eqTables]
          split
          · refine isSome_allM fun e he => ?_
            split
            · rfl
            · exact isSome_eqOptional fun x y hx => ih (hk x (List.mem_filterMap.2 ⟨e, he, hx⟩))
          · rfl
      | _ => rfl
    | _ => rfl

theorem isSome_eq (hv : s.Grounded v) : (s.eq v w).isSome := isSome_eqWithin (within_span hv)

theorem isSome_inspect (hs : s.Keyed) (hv : s.Grounded v) : (s.inspect v).isSome := by
  obtain ⟨T, hT⟩ := exists_content_iff.2 hv
  rw [inspect_of_content hs hT]
  rfl

/-! ## Steps after a write -/

/-- Steps that are there after a change of a table were there before, or go
from the hash or one of its slots to a value that the change brought in. -/
theorem step_modifyHash {f : Table → Table} {D : Value → Prop}
    (hvalues : ∀ w ∈ (f (s.hash h)).values, w ∈ (s.hash h).values ∨ D w)
    (hfind : ∀ key e w, (f (s.hash h)).find? key = some e → e.value = some w →
      (∃ e', (s.hash h).find? key = some e' ∧ e'.generation = e.generation ∧ e'.value = some w) ∨ D w)
    (hstep : (s.modifyHash h f).Step m n) :
    s.Step m n ∨ m.owner? = some h ∧ ∃ w, D w ∧ w.node? = some n := by
  obtain ⟨w, hw, hn⟩ := hstep
  cases m with
  | array a => exact .inl ⟨w, hw, hn⟩
  | hash i =>
    simp only [held] at hw
    rcases hash_modifyHash_cases (s := s) (h := h) (i := i) (f := f) with hi | ⟨rfl, hi⟩ <;> rw [hi] at hw
    · exact .inl ⟨w, hw, hn⟩
    · rcases hvalues w hw with hw | hw
      · exact .inl ⟨w, hw, hn⟩
      · exact .inr ⟨rfl, w, hw, hn⟩
  | slot slot =>
    simp only [held, Option.mem_toList] at hw
    obtain ⟨e, he, hg, hv⟩ := slotValue?_eq_some.1 hw
    rcases hash_modifyHash_cases (s := s) (h := h) (i := slot.origin) (f := f) with hi | ⟨hh, hi⟩ <;> rw [hi] at he
    · exact .inl ⟨w, Option.mem_toList.2 (slotValue?_eq_some.2 ⟨e, he, hg, hv⟩), hn⟩
    · rw [hh] at he
      rcases hfind _ e w he hv with ⟨e', he', hg', hv'⟩ | hw
      · refine .inl ⟨w, Option.mem_toList.2 (slotValue?_eq_some.2 ⟨e', ?_, hg'.trans hg, hv'⟩), hn⟩
        rwa [hh]
      · exact .inr ⟨congrArg some hh, w, hw, hn⟩

theorem step_assign {key : Key} (hstep : (s.modifyHash h (·.assign key v)).Step m n) :
    s.Step m n ∨ m.owner? = some h ∧ v.node? = some n := by
  have hvalues : ∀ w ∈ ((s.hash h).assign key v).values, w ∈ (s.hash h).values ∨ w = v := by
    intro w hw
    obtain ⟨e, he, hw⟩ := List.mem_filterMap.1 hw
    obtain ⟨e', he', rfl⟩ := List.mem_map.1 he
    split at hw
    · exact .inr (Option.some.inj hw).symm
    · exact .inl (List.mem_filterMap.2 ⟨e', he', hw⟩)
  have hfind : ∀ l e w, ((s.hash h).assign key v).find? l = some e → e.value = some w →
      (∃ e', (s.hash h).find? l = some e' ∧ e'.generation = e.generation ∧ e'.value = some w) ∨ w = v := by
    intro l e w he hw
    by_cases hl : l = key
    · subst hl
      rw [Table.find?_assign_self, Option.map_eq_some_iff] at he
      obtain ⟨e', -, rfl⟩ := he
      exact .inr (Option.some.inj hw).symm
    · rw [Table.find?_assign_of_ne hl] at he
      exact .inl ⟨e, he, rfl, hw⟩
  rcases step_modifyHash (D := (· = v)) hvalues hfind hstep with h | ⟨hm, w, rfl, hn⟩
  · exact .inl h
  · exact .inr ⟨hm, hn⟩

theorem step_erase {key : Key} (hstep : (s.modifyHash h (·.erase key)).Step m n) : s.Step m n := by
  have hvalues : ∀ w ∈ ((s.hash h).erase key).values, w ∈ (s.hash h).values ∨ False := by
    intro w hw
    obtain ⟨e, he, hw⟩ := List.mem_filterMap.1 hw
    exact .inl (List.mem_filterMap.2 ⟨e, (List.mem_filter.1 he).1, hw⟩)
  have hfind : ∀ l e w, ((s.hash h).erase key).find? l = some e → e.value = some w →
      (∃ e', (s.hash h).find? l = some e' ∧ e'.generation = e.generation ∧ e'.value = some w) ∨ False := by
    intro l e w he hw
    by_cases hl : l = key
    · subst hl
      simp at he
    · rw [Table.find?_erase_of_ne hl] at he
      exact .inl ⟨e, he, rfl, hw⟩
  rcases step_modifyHash (D := fun _ => False) hvalues hfind hstep with h | ⟨-, w, hw, -⟩
  · exact h
  · exact hw.elim

/-- A new entry without a value adds no step, even under a key that stale slots have. -/
theorem step_create {key : Key} {index : Value} (hkey : (s.hash h).find? key = none)
    (hstep : (s.modifyHash h (·.create key index none)).Step m n) : s.Step m n := by
  have hvalues : ∀ w ∈ ((s.hash h).create key index none).values, w ∈ (s.hash h).values ∨ False := by
    intro w hw
    simp only [Table.values, Table.create, List.filterMap_append, List.mem_append] at hw
    rcases hw with hw | hw
    · exact .inl hw
    · simp at hw
  have hfind : ∀ l e w, ((s.hash h).create key index none).find? l = some e → e.value = some w →
      (∃ e', (s.hash h).find? l = some e' ∧ e'.generation = e.generation ∧ e'.value = some w) ∨ False := by
    intro l e w he hw
    by_cases hl : l = key
    · subst hl
      rw [Table.find?_create_self hkey] at he
      cases he
      cases hw
    · rw [Table.find?_create_of_ne hl] at he
      exact .inl ⟨e, he, rfl, hw⟩
  rcases step_modifyHash (D := fun _ => False) hvalues hfind hstep with h | ⟨-, w, hw, -⟩
  · exact h
  · exact hw.elim

/-! ## Operations that keep data free of cycles -/

/-- Writing a value that does not meet the hash closes no cycle. -/
theorem Acyclic.assign (hs : s.Acyclic) {key : Key} (hv : ¬ s.Meets v h) :
    (s.modifyHash h (·.assign key v)).Acyclic := by
  cases hd : v.node? with
  | none =>
    apply hs.of_steps
    intro m n hstep
    rcases step_assign hstep with hstep | ⟨-, hn⟩
    · exact hstep
    · simp [hd] at hn
  | some d =>
    intro n
    refine not_transGen_of_edges_into (S := fun m => m.owner? = some h) (d := d) ?_ ?_ hs n
    · intro m n hstep
      rcases step_assign hstep with hstep | ⟨hm, hn⟩
      · exact .inl hstep
      · exact .inr ⟨hm, (Option.some.inj (hd.symm.trans hn)).symm⟩
    · exact fun m hm hp => hv ⟨d, m, hd, hp, hm⟩

/-- The operations that ask or need no promise of their callers about cycles. -/
inductive Guarded (s : Store) : Store → Prop
  | set (slot : Slot) (v : Value) (t : Store) : s.Knows v → s.setSlot slot v = some (.ok (), t) → Guarded s t
  | assign (r : Reference) (v : Value) (t : Store) :
    s.Knows v → s.assignReference r v = some (.ok (), t) → Guarded s t
  | allocate (h : HashId) (index : Value) : Guarded s (s.allocate h index).2
  | deallocate (h : HashId) (index : Value) : Guarded s (s.deallocate h index).2
  | remove (h : HashId) (key : Value) : Guarded s (s.removeEntry h key).2
  | copy (v c : Value) (t : Store) : s.Knows v → s.copy v = some (c, t) → Guarded s t

/-- What a slot answers, and what it does. -/
theorem setSlot_cases (hs : s.Acyclic) (slot : Slot) (v : Value) :
    (s.Meets v slot.origin ∧ s.setSlot slot v = some (.error .cycle, s)) ∨
      (¬ s.Meets v slot.origin ∧ (s.setSlot slot v = some (.error .vacated, s) ∨
        s.setSlot slot v = some (.ok (), s.modifyHash slot.origin (·.assign slot.key v)))) := by
  obtain ⟨b, hb, hm⟩ := reaches_spec (v := v) (h := slot.origin) hs
  cases b with
  | true =>
    left
    exact ⟨hm.1 rfl, by simp [setSlot, hb]⟩
  | false =>
    right
    refine ⟨by simpa using hm, ?_⟩
    cases hl : s.isLive slot <;> simp [setSlot, hb, hl]

theorem setSlot_ok (hs : s.WellFormed) (ha : s.Acyclic) (hv : s.Knows v)
    (h : s.setSlot slot v = some (.ok (), t)) : t.WellFormed ∧ t.Acyclic := by
  rcases setSlot_cases ha slot v with ⟨-, he⟩ | ⟨hm, he | he⟩ <;> rw [he] at h <;> cases h
  exact ⟨hs.modifyHash ((hs.fitsIn _).assign hv), ha.assign hm⟩

theorem assignReference_ok {r : Reference} (h : s.assignReference r v = some (.ok (), t)) :
    s.setSlot r.slot v = some (.ok (), t) := by
  unfold assignReference at h
  split at h
  · simp at h
  · simp only [Option.bind_eq_bind, Option.bind_eq_some_iff] at h
    obtain ⟨⟨x, u⟩, hu, h⟩ := h
    cases x with
    | error e => cases h
    | ok _ =>
      cases h
      exact hu

theorem erase_keeps (hs : s.WellFormed) (ha : s.Acyclic) (key : Key) :
    (s.modifyHash h (·.erase key)).WellFormed ∧ (s.modifyHash h (·.erase key)).Acyclic :=
  ⟨hs.modifyHash (hs.fitsIn h).erase, ha.of_steps fun _ _ => step_erase⟩

theorem allocate_keeps (hs : s.WellFormed) (ha : s.Acyclic) (index : Value) :
    (s.allocate h index).2.WellFormed ∧ (s.allocate h index).2.Acyclic := by
  unfold allocate
  split
  · exact ⟨hs, ha⟩
  · next key hkey =>
    split
    · exact ⟨hs, ha⟩
    · next hc =>
      have hnone : (s.hash h).find? key = none := by simpa [Table.contains] using hc
      exact ⟨hs.modifyHash ((hs.fitsIn h).create hkey hnone (by simp)), ha.of_steps fun _ _ => step_create hnone⟩

theorem unmark_keeps (hs : s.WellFormed) (ha : s.Acyclic) : (s.unmark v).WellFormed ∧ (s.unmark v).Acyclic :=
  ⟨(SameContents.unmark s v).wellFormed hs, (SameContents.unmark s v).acyclic ha⟩

theorem copy_keeps {c : Value} (hs : s.WellFormed) (ha : s.Acyclic) (hv : s.Knows v) (h : s.copy v = some (c, t)) :
    t.WellFormed ∧ t.Acyclic := by
  cases hm : s.isMarked v with
  | true =>
    rw [copy_of_marked hm] at h
    cases h
    exact unmark_keeps hs ha
  | false =>
    obtain ⟨c', t', T, hc, hg, -⟩ := copy_of_unmarked hs hv (ha.grounded v) hm
    rw [hc] at h
    cases h
    exact ⟨hg.wellFormed, hg.acyclic hs ha⟩

theorem Guarded.keeps (h : s.Guarded t) (hs : s.WellFormed) (ha : s.Acyclic) : t.WellFormed ∧ t.Acyclic := by
  cases h with
  | set slot v t hv h => exact setSlot_ok hs ha hv h
  | assign r v t hv h => exact setSlot_ok hs ha hv (assignReference_ok h)
  | allocate h index => exact allocate_keeps hs ha index
  | deallocate h index =>
    unfold Store.deallocate
    split
    · exact ⟨hs, ha⟩
    · exact erase_keeps hs ha _
  | remove h key =>
    unfold Store.removeEntry
    split
    · exact ⟨hs, ha⟩
    · exact erase_keeps hs ha _
  | copy v c t hv h => exact copy_keeps hs ha hv h

theorem guarded_run (h : ReflTransGen Guarded s t) (hs : s.WellFormed) (ha : s.Acyclic) :
    t.WellFormed ∧ t.Acyclic := by
  induction h with
  | refl => exact ⟨hs, ha⟩
  | tail _ hstep ih => exact hstep.keeps ih.1 ih.2

/-- All walks over the data end, and slots refuse exactly the values that would close a cycle. -/
structure Walks (s : Store) : Prop where
  acyclic : s.Acyclic
  reaches : ∀ v h, ∃ b, s.reaches v h = some b ∧ (b = true ↔ s.Meets v h)
  set : ∀ slot v, (s.setSlot slot v).isSome ∧
    ((s.setSlot slot v).map Prod.fst = some (.error .cycle) ↔ s.Meets v slot.origin)
  copy : ∀ v, s.Knows v → (s.copy v).isSome
  inspect : ∀ v, (s.inspect v).isSome
  eq : ∀ v w, (s.eq v w).isSome

/-- Starting without cycles, the data have none after any run of guarded
operations, and the check before a slot is written is exact. -/
theorem walks_of_guarded (hs : s.WellFormed) (ha : s.Acyclic) (h : ReflTransGen Guarded s t) : t.Walks := by
  obtain ⟨ht, ha⟩ := guarded_run h hs ha
  refine ⟨ha, fun v h => reaches_spec ha, fun slot v => ?_, fun v hv => isSome_copy ht hv (ha.grounded v),
    fun v => isSome_inspect ht.keyed (ha.grounded v), fun v w => isSome_eq (ha.grounded v)⟩
  rcases setSlot_cases ha slot v with ⟨hm, he⟩ | ⟨hm, he | he⟩ <;> simp [he, hm]

/-- The array `[ref]` is stored in a slot of another hash than the one it refers to. -/
theorem walks_stored_reference :
    Store.Walks {
      arrays := #[{ elements := #[.ref ⟨⟨0⟩, .int 0, 0⟩ (.int 0) false] }]
      hashes := #[{ entries := [⟨.int 0, .int 0, none, 0⟩], nextGeneration := 1 },
        { entries := [⟨.int 0, .int 0, some (.array ⟨0⟩), 0⟩], nextGeneration := 1 }] } :=
  walks_of_guarded
    (s := {
      arrays := #[{ elements := #[.ref ⟨⟨0⟩, .int 0, 0⟩ (.int 0) false] }]
      hashes := #[{ entries := [⟨.int 0, .int 0, none, 0⟩], nextGeneration := 1 },
        { entries := [⟨.int 0, .int 0, none, 0⟩], nextGeneration := 1 }] })
    (by decide +kernel) (by decide +kernel)
    (.single (.set ⟨⟨1⟩, .int 0, 0⟩ (.array ⟨0⟩) _ (by decide +kernel) (by decide +kernel)))

end Store

end CopyOnBind
