import CopyOnBind.Proofs.WellFormed
/-!
# Snapshots

A snapshot of a value adds a tree to the store: containers that were not there
before, each at exactly one place, and no reference among them. `Grafts` says
so for any number of roots, and is put together from the roots outward: trees
side by side (`Grafts.append`), and trees in a new container (`Grafts.enclose`).

`snapshotWithin_spec`: the snapshot of a grounded value exists, adds one tree
and nothing else, and its content is the resolved content of the value.
-/

namespace CopyOnBind

namespace Store

variable {s t u : Store} {v w c : Value} {k : Nat} {roots roots' : List (Option Value)}

/-- A value of `t` that is not a handle to anything of `s`. -/
def Fresh (s t : Store) (c : Value) : Prop := c.node? = none ∨ c.isContainer ∧ ¬ s.Knows c ∧ t.Knows c

/-- `t` is `s` with new trees whose roots are the values in `roots`. -/
structure Grafts (s t : Store) (roots : List (Option Value)) : Prop where
  kept : s.Extends t
  wellFormed : t.WellFormed
  root : ∀ c, some c ∈ roots → s.Fresh t c
  part : ∀ u i w, ¬ s.Knows u → t.part? u i = some w → s.Fresh t w
  /-- Every new container is a part of one new container at most. -/
  partOnce : ∀ u u' i i' w, ¬ s.Knows u → ¬ s.Knows u' → t.part? u i = some w → t.part? u' i' = some w →
    w.isContainer → u = u' ∧ i = i'
  rootOnce : ∀ (i i' : Nat) (w : Value), roots[i]? = some (some w) → roots[i']? = some (some w) → w.isContainer → i = i'
  /-- A root is no part of a new container. -/
  loose : ∀ u i w, ¬ s.Knows u → t.part? u i = some w → w.isContainer → some w ∉ roots
  unmarked : ∀ u, ¬ s.Knows u → t.isMarked u = false
  grounded : ∀ u, u.isContainer → ¬ s.Knows u → t.Knows u → t.Grounded u

theorem node?_ne_none (h : v.isContainer) : v.node? ≠ none := by
  cases v <;> simp_all [Value.isContainer, Value.node?]

namespace Fresh

theorem knows (h : s.Fresh t c) : t.Knows c := by
  rcases h with h | ⟨-, -, h⟩
  · exact knows_of_node?_none h
  · exact h

theorem not_knows (h : s.Fresh t c) (hc : c.isContainer) : ¬ s.Knows c := by
  rcases h with h | ⟨-, h, -⟩
  · exact absurd h (node?_ne_none hc)
  · exact h

theorem later (h : s.Fresh t c) (hk : t.Knows c → u.Knows c) : s.Fresh u c :=
  h.imp_right fun ⟨hc, hs, ht⟩ => ⟨hc, hs, hk ht⟩

theorem right (h : s.Fresh t c) (htu : t.Extends u) : s.Fresh u c := h.later htu.knows

theorem left (h : t.Fresh u c) (hst : s.Extends t) : s.Fresh u c :=
  h.imp_right fun ⟨hc, ht, hu⟩ => ⟨hc, fun hs => ht (hst.knows hs), hu⟩

end Fresh

namespace Grafts

theorem nil (hs : s.WellFormed) : s.Grafts s [] where
  kept := .refl s
  wellFormed := hs
  root := by simp
  part u i w hu hw := absurd (knows_of_part? hw) hu
  partOnce u u' i i' w hu _ hw := absurd (knows_of_part? hw) hu
  rootOnce := by simp
  loose := by simp
  unmarked u hu := isMarked_of_not_knows hu
  grounded u _ hu hk := absurd hk hu

/-- A value that is no container and no reference is a tree by itself. -/
theorem flat (hs : s.WellFormed) (hv : v.node? = none) : s.Grafts s [some v] :=
  { nil hs with
    root := by simp [Fresh, hv]
    rootOnce := by
      intro i i' w hi hi' _
      have := (List.getElem?_eq_some_iff.1 hi).1
      have := (List.getElem?_eq_some_iff.1 hi').1
      simp at *
      omega
    loose := by
      intro u i w hu hw
      exact absurd (knows_of_part? hw) hu }

theorem unset (hs : s.WellFormed) : s.Grafts s [none] :=
  { nil hs with
    root := by simp
    rootOnce := by
      intro i i' w hi
      simp [List.getElem?_singleton] at hi
    loose := by simp }

/-- Trees added one after the other stand side by side. -/
theorem append (h : s.Grafts t roots) (h' : t.Grafts u roots') : s.Grafts u (roots ++ roots') where
  kept := h.kept.trans h'.kept
  wellFormed := h'.wellFormed
  root c hc := by
    rcases List.mem_append.1 hc with hc | hc
    · exact (h.root c hc).right h'.kept
    · exact (h'.root c hc).left h.kept
  part x i w hx hw := by
    by_cases ht : t.Knows x
    · rw [h'.kept.part? ht] at hw
      exact (h.part x i w hx hw).right h'.kept
    · exact (h'.part x i w ht hw).left h.kept
  -- a part of the first tree is known in `t`, a part of the second one is not
  partOnce x x' i i' w hx hx' hw hw' hc := by
    by_cases ht : t.Knows x <;> by_cases ht' : t.Knows x'
    · rw [h'.kept.part? ht] at hw
      rw [h'.kept.part? ht'] at hw'
      exact h.partOnce x x' i i' w hx hx' hw hw' hc
    · rw [h'.kept.part? ht] at hw
      exact absurd (h.part x i w hx hw).knows ((h'.part x' i' w ht' hw').not_knows hc)
    · rw [h'.kept.part? ht'] at hw'
      exact absurd (h.part x' i' w hx' hw').knows ((h'.part x i w ht hw).not_knows hc)
    · exact h'.partOnce x x' i i' w ht ht' hw hw' hc
  rootOnce i i' w hi hi' hc := by
    have hold : ∀ j, roots[j]? = some (some w) → t.Knows w := fun j hj => (h.root w (List.mem_of_getElem? hj)).knows
    have hnew : ∀ j, roots'[j]? = some (some w) → ¬ t.Knows w := fun j hj =>
      (h'.root w (List.mem_of_getElem? hj)).not_knows hc
    by_cases hl : i < roots.length <;> by_cases hl' : i' < roots.length
    · rw [List.getElem?_append_left hl] at hi
      rw [List.getElem?_append_left hl'] at hi'
      exact h.rootOnce i i' w hi hi' hc
    · rw [List.getElem?_append_left hl] at hi
      rw [List.getElem?_append_right (by omega)] at hi'
      exact absurd (hold _ hi) (hnew _ hi')
    · rw [List.getElem?_append_right (by omega)] at hi
      rw [List.getElem?_append_left hl'] at hi'
      exact absurd (hold _ hi') (hnew _ hi)
    · rw [List.getElem?_append_right (by omega)] at hi hi'
      have := h'.rootOnce _ _ w hi hi' hc
      omega
  loose x i w hx hw hc := by
    rw [List.mem_append, not_or]
    by_cases ht : t.Knows x
    · rw [h'.kept.part? ht] at hw
      exact ⟨h.loose x i w hx hw hc, fun hr => (h'.root w hr).not_knows hc (h.part x i w hx hw).knows⟩
    · exact ⟨fun hr => (h'.part x i w ht hw).not_knows hc (h.root w hr).knows, h'.loose x i w ht hw hc⟩
  unmarked x hx := by
    by_cases ht : t.Knows x
    · rw [h'.kept.isMarked ht, h.unmarked x hx]
    · exact h'.unmarked x ht
  grounded x hc hx hu := by
    by_cases ht : t.Knows x
    · exact h'.kept.grounded h.wellFormed ht (h.grounded x hc hx ht)
    · exact h'.grounded x hc ht hu

/-- A new container whose parts are the roots is the root of one tree. -/
theorem enclose (h : s.Grafts t roots) (htu : t.Extends u) (hu : u.WellFormed) (hc : c.isContainer)
    (hnew : ¬ t.Knows c) (hknows : ∀ w, w.isContainer → (u.Knows w ↔ t.Knows w ∨ w = c))
    (hpart : ∀ i, u.part? c i = roots[i]?.join) (hmark : ∀ w, ¬ t.Knows w → u.isMarked w = false) :
    s.Grafts u [some c] := by
  have root_of_part : ∀ i w, u.part? c i = some w → some w ∈ roots := by
    intro i w hw
    rw [hpart, Option.join_eq_some_iff] at hw
    exact List.mem_of_getElem? hw
  -- a container with a part is one of `t` or the new one
  have cases_of_part : ∀ x i w, u.part? x i = some w → (t.Knows x ∧ t.part? x i = some w) ∨ x = c := by
    intro x i w hw
    rcases (hknows x (isContainer_of_part? hw)).1 (knows_of_part? hw) with hx | hx
    · exact .inl ⟨hx, by rwa [htu.part? hx] at hw⟩
    · exact .inr hx
  refine ⟨h.kept.trans htu, hu, ?_, ?_, ?_, ?_, ?_, ?_, ?_⟩
  · intro x hx
    simp only [List.mem_singleton, Option.some.injEq] at hx
    subst hx
    exact .inr ⟨hc, fun hs => hnew (h.kept.knows hs), (hknows x hc).2 (.inr rfl)⟩
  · intro x i w hx hw
    rcases cases_of_part x i w hw with ⟨-, hw⟩ | rfl
    · exact (h.part x i w hx hw).right htu
    · exact (h.root w (root_of_part i w hw)).right htu
  · intro x x' i i' w hx hx' hw hw' hwc
    rcases cases_of_part x i w hw with ⟨-, hw⟩ | rfl <;> rcases cases_of_part x' i' w hw' with ⟨-, hw'⟩ | rfl
    · exact h.partOnce x x' i i' w hx hx' hw hw' hwc
    · exact absurd (root_of_part i' w hw') (h.loose x i w hx hw hwc)
    · exact absurd (root_of_part i w hw) (h.loose x' i' w hx' hw' hwc)
    · rw [hpart, Option.join_eq_some_iff] at hw hw'
      exact ⟨rfl, h.rootOnce i i' w hw hw' hwc⟩
  · intro i i' w hi hi' _
    have := (List.getElem?_eq_some_iff.1 hi).1
    have := (List.getElem?_eq_some_iff.1 hi').1
    simp at *
    omega
  · intro x i w hx hw hwc hmem
    simp only [List.mem_singleton, Option.some.injEq] at hmem
    subst hmem
    rcases cases_of_part x i w hw with ⟨-, hw⟩ | rfl
    · exact hnew (h.part x i w hx hw).knows
    · exact hnew (h.root x (root_of_part i x hw)).knows
  · intro x hx
    by_cases ht : t.Knows x
    · rw [htu.isMarked ht, h.unmarked x hx]
    · exact hmark x ht
  · intro x hxc hx hk
    rcases (hknows x hxc).1 hk with ht | rfl
    · exact htu.grounded h.wellFormed ht (h.grounded x hxc hx ht)
    · apply grounded_of_children
      intro w hw
      obtain ⟨i, hi⟩ := (mem_children_iff hxc).1 hw
      have hr := h.root w (root_of_part i w hi)
      refine htu.grounded h.wellFormed hr.knows ?_
      rcases hr with hr | ⟨hwc, hws, hwt⟩
      · exact grounded_of_node?_none hr
      · exact h.grounded w hwc hws hwt

/-- Trees close no cycle. -/
theorem acyclic {roots : List (Option Value)} (hg : s.Grafts t roots) (hs : s.WellFormed) (ha : s.Acyclic) :
    t.Acyclic := by
  apply acyclic_of_grounded
  intro m w hw
  obtain ⟨u, i, hu⟩ := part?_of_mem_held hw
  have old : s.Knows w → t.Grounded w := fun hk => hg.kept.grounded hs hk (ha.grounded w)
  by_cases hk : s.Knows u
  · rw [hg.kept.part? hk] at hu
    exact old (hs.closed u i w hu)
  · rcases hg.part u i w hk hu with hw | ⟨hc, hws, hwt⟩
    · exact grounded_of_node?_none hw
    · exact hg.grounded w hc hws hwt

end Grafts

/-! ## Snapshots of lists -/

/-- A list is walked from left to right. -/
theorem mapM_walk_cons {α β : Type} {f : α → StateT Store Option β} {a : α} {l : List α} : (a :: l).mapM f s =
    (f a s).bind fun p => (l.mapM f p.2).map fun q => (p.1 :: q.1, q.2) := by
  rw [List.mapM_cons]
  change (f a s).bind _ = _
  refine Option.bind_congr fun p _ => ?_
  change (l.mapM f p.2).bind _ = _
  cases l.mapM f p.2 <;> rfl

/-- Snapshots taken one after the other graft one tree each. `R` is what each
of them establishes, and the later ones keep. -/
theorem mapM_grafts {α β : Type} {f : α → StateT Store Option β} {g : β → Option Value}
    {R : α → β → Store → Prop} (hR : ∀ a b t u, t.Extends u → t.WellFormed →
      (∀ w, g b = some w → t.Knows w) → R a b t → R a b u) (l : List α)
    (hf : ∀ a ∈ l, ∀ t, s.Extends t → t.WellFormed →
      ∃ b u, f a t = some (b, u) ∧ t.Grafts u [g b] ∧ R a b u) (hst : s.Extends t) (ht : t.WellFormed) :
    ∃ bs u, l.mapM f t = some (bs, u) ∧ t.Grafts u (bs.map g) ∧ List.Forall₂ (fun a b => R a b u) l bs := by
  induction l generalizing t with
  | nil => exact ⟨[], t, rfl, .nil ht, .nil⟩
  | cons a l ih =>
    obtain ⟨b, u, hb, hgr, hr⟩ := hf a (by simp) t hst ht
    obtain ⟨bs, x, hbs, hgs, hrs⟩ :=
      ih (fun a' ha' => hf a' (by simp [ha'])) (hst.trans hgr.kept) hgr.wellFormed
    refine ⟨b :: bs, x, ?_, hgr.append hgs, .cons ?_ hrs⟩
    · rw [mapM_walk_cons, hb, Option.bind_some, hbs, Option.map_some]
    · exact hR a b u x hgs.kept hgr.wellFormed (fun w hw => (hgr.root w (by simp [hw])).knows) hr

/-! ## One step of a snapshot -/

theorem snapshotWithin_flat (h : v.node? = none) : snapshotWithin k v s = some (v, s) := by
  cases k <;> cases v <;> first | rfl | simp [Value.node?] at h

theorem snapshotWithin_array {a : ArrayId} : snapshotWithin (k + 1) (.array a) s =
    ((s.array a).elements.toList.mapM (snapshotWithin k) s).map fun (vs, t) =>
      (.array (t.newArray vs.toArray).1, (t.newArray vs.toArray).2) := by
  unfold snapshotWithin
  show ((s.array a).elements.toList.mapM (snapshotWithin k) s).bind _ = _
  cases (s.array a).elements.toList.mapM (snapshotWithin k) s <;> rfl

/-- The copy of an entry: the same entry with a copy of its value. -/
def snapshotEntry (k : Nat) (e : Entry) : StateT Store Option Entry := do
  let value ← e.value.mapM (snapshotWithin k)
  return { e with value }

theorem snapshotWithin_hash {h : HashId} : snapshotWithin (k + 1) (.hash h) s =
    ((s.hash h).entries.mapM (snapshotEntry k) s).map fun (entries, t) =>
      (.hash (t.newHash { s.hash h with entries, marked := false }).1,
        (t.newHash { s.hash h with entries, marked := false }).2) := by
  unfold snapshotWithin
  show ((s.hash h).entries.mapM (snapshotEntry k) s).bind _ = _
  cases (s.hash h).entries.mapM (snapshotEntry k) s <;> rfl

theorem snapshotWithin_ref {slot : Slot} {index : Value} {constant : Bool} :
    snapshotWithin (k + 1) (.ref slot index constant) s =
      match s.slotValue? slot with
      | some v => snapshotWithin k v s
      | none => some (.void, s) := by
  simp only [snapshotWithin]
  show (match s.slotValue? slot with
    | some v => snapshotWithin k v
    | none => pure Value.void : StateT Store Option Value) s = _
  cases s.slotValue? slot <;> rfl

theorem snapshotEntry_eq {e : Entry} : snapshotEntry k e s =
    match e.value with
    | some v => (snapshotWithin k v s).map fun (w, t) => ({ e with value := some w }, t)
    | none => some (e, s) := by
  obtain ⟨key, written, _ | v, generation⟩ := e
  · rfl
  · show ((snapshotWithin k v s).bind _).bind _ = (snapshotWithin k v s).map _
    cases snapshotWithin k v s <;> rfl

/-! ## What every snapshot keeps -/

theorem mapM_invariant {α β : Type} {f : α → StateT Store Option β} {I : Store → Prop} {P : α → Prop} {Q : β → Prop}
    {l : List α} {bs : List β} (hf : ∀ a ∈ l, ∀ s b t, I s → f a s = some (b, t) → I t ∧ P a ∧ Q b) (hs : I s)
    (h : l.mapM f s = some (bs, t)) : I t ∧ (∀ a ∈ l, P a) ∧ ∀ b ∈ bs, Q b := by
  induction l generalizing s bs with
  | nil =>
    cases h
    exact ⟨hs, by simp, by simp⟩
  | cons a l ih =>
    rw [mapM_walk_cons] at h
    obtain ⟨⟨b, u⟩, hb, h⟩ := Option.bind_eq_some_iff.1 h
    obtain ⟨⟨bs', x⟩, hbs, heq⟩ := Option.map_eq_some_iff.1 h
    cases heq
    obtain ⟨hu, hP, hQ⟩ := hf a (by simp) s b u hs hb
    obtain ⟨ht, hPs, hQs⟩ := ih (fun a' ha' => hf a' (by simp [ha'])) hu hbs
    exact ⟨ht, List.forall_mem_cons.2 ⟨hP, hPs⟩, List.forall_mem_cons.2 ⟨hQ, hQs⟩⟩

/-- A table has the entries of another, with values of its own, and the same counter; the mark is gone. -/
structure Renews (t u : Table) : Prop where
  heads : t.entries.map Entry.head = u.entries.map Entry.head
  nextGeneration : t.nextGeneration = u.nextGeneration
  unmarked : t.marked = false

theorem Renews.generation {table table' : Table} (h : Renews table table') :
    ∀ e ∈ table.entries, ∃ f ∈ table'.entries, e.generation = f.generation := by
  intro e he
  obtain ⟨f, hf, heq⟩ := List.mem_map.1 (h.heads ▸ List.mem_map_of_mem (f := Entry.head) he)
  exact ⟨f, hf, (congrArg Head.generation heq).symm⟩

theorem head_of_snapshotEntry {e f : Entry} (h : snapshotEntry k e s = some (f, t)) : f.head = e.head := by
  rw [snapshotEntry_eq] at h
  split at h
  · obtain ⟨⟨w, u⟩, -, heq⟩ := Option.map_eq_some_iff.1 h
    cases heq
    rfl
  · cases h
    rfl

theorem heads_of_mapM_snapshotEntry {es fs : List Entry} (h : es.mapM (snapshotEntry k) s = some (fs, t)) :
    fs.map Entry.head = es.map Entry.head := by
  induction es generalizing s fs with
  | nil =>
    cases h
    rfl
  | cons e es ih =>
    rw [mapM_walk_cons] at h
    obtain ⟨⟨f, u⟩, hf, h⟩ := Option.bind_eq_some_iff.1 h
    obtain ⟨⟨fs, x⟩, hfs, heq⟩ := Option.map_eq_some_iff.1 h
    cases heq
    rw [List.map_cons, List.map_cons, head_of_snapshotEntry hf, ih hfs]

/-- A snapshot keeps what the new containers keep, whatever the data are: values
that satisfy `P` are met, and values that satisfy `Q` are made. -/
theorem snapshotWithin_invariant {I : Store → Prop} {P Q : Value → Prop}
    (part : ∀ s v w, I s → P v → w ∈ s.children v → P w) (flat : ∀ v, P v → v.node? = none → Q v) (void : Q .void)
    (array : ∀ s (vs : List Value), I s → (∀ v ∈ vs, Q v) →
      I (s.newArray vs.toArray).2 ∧ Q (.array (s.newArray vs.toArray).1))
    (hash : ∀ s i u (t : Table), I s → I u → Renews t (s.hash i) → (∀ v ∈ t.values, Q v) →
      I (u.newHash t).2 ∧ Q (.hash (u.newHash t).1))
    (hs : I s) (hv : P v) (h : snapshotWithin k v s = some (c, t)) : I t ∧ Q c := by
  have leaf : ∀ {k v s c t}, I s → P v → v.node? = none → snapshotWithin k v s = some (c, t) → I t ∧ Q c := by
    intro k v s c t hs hv hflat h
    rw [snapshotWithin_flat hflat] at h
    cases h
    exact ⟨hs, flat v hv hflat⟩
  induction k generalizing s v c t with
  | zero =>
    cases v with
    | array a => cases h
    | hash i => cases h
    | ref slot index constant => cases h
    | _ => exact leaf hs hv rfl h
  | succ k ih =>
    cases v with
    | array a =>
      rw [snapshotWithin_array] at h
      obtain ⟨⟨vs, u⟩, hvs, h⟩ := Option.map_eq_some_iff.1 h
      cases h
      obtain ⟨hu, -, hQ⟩ := mapM_invariant (P := fun _ => True)
        (fun w hw _ _ _ hx hc => (ih hx (part s _ w hs hv hw) hc).imp_right fun hQ => ⟨trivial, hQ⟩) hs hvs
      exact array u vs hu hQ
    | hash i =>
      rw [snapshotWithin_hash] at h
      obtain ⟨⟨es, u⟩, hes, h⟩ := Option.map_eq_some_iff.1 h
      cases h
      have entry : ∀ e ∈ (s.hash i).entries, ∀ x f y, I x → snapshotEntry k e x = some (f, y) →
          I y ∧ True ∧ ∀ v, f.value = some v → Q v := by
        intro e he x f y hx hf
        rw [snapshotEntry_eq] at hf
        cases hval : e.value with
        | none =>
          rw [hval] at hf
          cases hf
          exact ⟨hx, trivial, by simp [hval]⟩
        | some w =>
          rw [hval] at hf
          obtain ⟨⟨c, z⟩, hc, hf⟩ := Option.map_eq_some_iff.1 hf
          cases hf
          obtain ⟨hz, hQ⟩ := ih hx (part s _ w hs hv (List.mem_filterMap.2 ⟨e, he, hval⟩)) hc
          exact ⟨hz, trivial, by simpa using hQ⟩
      obtain ⟨hu, -, hQ⟩ := mapM_invariant entry hs hes
      refine hash s i u _ hs hu ⟨heads_of_mapM_snapshotEntry hes, rfl, rfl⟩ fun v hv => ?_
      obtain ⟨e, he, hev⟩ := List.mem_filterMap.1 hv
      exact hQ e he v hev
    | ref slot index constant =>
      rw [snapshotWithin_ref] at h
      cases hval : s.slotValue? slot with
      | none =>
        rw [hval] at h
        cases h
        exact ⟨hs, void⟩
      | some w =>
        rw [hval] at h
        exact ih hs (part s _ w hs hv (by simp [Store.children, Value.node?, held, hval])) h
    | _ => exact leaf hs hv rfl h

theorem snapshotWithin_extends (h : snapshotWithin k v s = some (c, t)) : s.Extends t :=
  (snapshotWithin_invariant (I := s.Extends) (P := fun _ => True) (Q := fun _ => True) (fun _ _ _ _ _ _ => trivial)
    (fun _ _ _ => trivial) trivial (fun u _ hu _ => ⟨hu.trans (.newArray u _), trivial⟩)
    (fun _ _ u _ _ hu _ _ => ⟨hu.trans (.newHash u _), trivial⟩) (.refl s) trivial h).1

/-- What a table hands on to its copy holds of all tables after a snapshot. -/
theorem forall_hash_snapshotWithin {P : Table → Prop} (renew : ∀ t u, Renews t u → P u → P t)
    (hs : ∀ h, P (s.hash h)) (h : snapshotWithin k v s = some (c, t)) : ∀ h, P (t.hash h) :=
  (snapshotWithin_invariant (I := fun s => ∀ h, P (s.hash h)) (P := fun _ => True) (Q := fun _ => True)
    (fun _ _ _ _ _ _ => trivial) (fun _ _ _ => trivial) trivial (fun _ _ hu _ => ⟨hu, trivial⟩)
    (fun _ i _ t hs hu hr _ => ⟨forall_newHash hu (renew t _ hr (hs i)), trivial⟩) hs trivial h).1

/-- A snapshot that ends has followed all paths to their ends. -/
theorem within_of_snapshotWithin (hs : s.WellFormed) (hv : s.Knows v) (hst : s.Extends t)
    (h : snapshotWithin k v t = some (c, u)) : s.Within k v := by
  induction k generalizing v t c u with
  | zero =>
    cases v with
    | array a => cases h
    | hash i => cases h
    | ref slot index constant => cases h
    | _ => rfl
  | succ k ih =>
    cases v with
    | array a =>
      rw [snapshotWithin_array, hst.array a hv] at h
      obtain ⟨⟨vs, x⟩, hvs, -⟩ := Option.map_eq_some_iff.1 h
      have part : ∀ w ∈ (s.array a).elements.toList, ∀ t c u, s.Extends t → snapshotWithin k w t = some (c, u) →
          s.Extends u ∧ s.Within k w ∧ True := fun w hw t c u hst hc =>
        ⟨hst.trans (snapshotWithin_extends hc), ih (hs.children (v := .array a) hw) hst hc, trivial⟩
      exact (mapM_invariant (Q := fun _ => True) part hst hvs).2.1
    | hash i =>
      rw [snapshotWithin_hash, hst.hash i hv] at h
      obtain ⟨⟨es, x⟩, hes, -⟩ := Option.map_eq_some_iff.1 h
      have part : ∀ e ∈ (s.hash i).entries, ∀ t f u, s.Extends t → snapshotEntry k e t = some (f, u) →
          s.Extends u ∧ (∀ w, e.value = some w → s.Within k w) ∧ True := by
        intro e he t f u hst hf
        rw [snapshotEntry_eq] at hf
        cases hval : e.value with
        | none =>
          rw [hval] at hf
          cases hf
          exact ⟨hst, by simp, trivial⟩
        | some w =>
          rw [hval] at hf
          obtain ⟨⟨c, x⟩, hc, hf⟩ := Option.map_eq_some_iff.1 hf
          cases hf
          have hw : s.Knows w := hs.children (v := .hash i) (List.mem_filterMap.2 ⟨e, he, hval⟩)
          exact ⟨hst.trans (snapshotWithin_extends hc), by simpa using ih hw hst hc, trivial⟩
      intro w hw
      obtain ⟨e, he, hval⟩ := List.mem_filterMap.1 hw
      exact (mapM_invariant (Q := fun _ => True) part hst hes).2.1 e he w hval
    | ref slot index constant =>
      have hsame : t.slotValue? slot = s.slotValue? slot := hst.sameAt hv
      rw [snapshotWithin_ref, hsame] at h
      intro w hw
      have hval : s.slotValue? slot = some w := by simpa [Store.children, Value.node?, held] using hw
      rw [hval] at h
      exact ih (hs.children hw) hst h
    | _ => exact fun w hw => by simp [Store.children, Value.node?] at hw

/-! ## Snapshots -/

theorem contentWithin_ne_unset : s.contentWithin k v ≠ some .unset := by
  cases k <;> cases v <;> simp [contentWithin]

/-- The content of the copy is the resolved content of the original. -/
def ResolvedIn (s t : Store) (k : Nat) (v c : Option Value) : Prop :=
  ∀ T, Content.ofOption (s.contentWithin k) v = some T → Content.ofOption (t.contentWithin k) c = some T.resolve

theorem ResolvedIn.right {v c : Option Value} (h : ResolvedIn s t k v c) (htu : t.Extends u) (ht : t.WellFormed)
    (hc : ∀ w, c = some w → t.Knows w) : ResolvedIn s u k v c := by
  intro T hT
  rw [← h T hT]
  cases c with
  | none => rfl
  | some w => exact htu.contentWithin ht (hc w rfl)

theorem resolvedIn_flat (h : v.node? = none) : ResolvedIn s t k (some v) (some v) := by
  intro T hT
  simp only [Content.ofOption, contentWithin_flat h, Option.some.injEq] at hT ⊢
  rw [← hT, Content.resolve]

theorem resolvedIn_none : ResolvedIn s t k none none := by
  intro T hT
  cases hT
  unfold Content.ofOption
  rw [Content.resolve]

theorem forall₂_resolve {α β : Type} {f : α → Option Content} {g : β → Option Content} {l : List α} {l' : List β}
    {Ts : List Content} (h : List.Forall₂ (fun a b => ∀ T, f a = some T → g b = some T.resolve) l l')
    (hT : List.Forall₂ (fun a T => f a = some T) l Ts) :
    List.Forall₂ (fun b T => g b = some T) l' (Ts.map Content.resolve) := by
  induction h generalizing Ts with
  | nil => cases hT; exact .nil
  | cons hab _ ih =>
    cases hT with
    | cons ha hT => exact .cons (hab _ ha) (ih hT)

/-- What the snapshot of an entry keeps. -/
theorem map_head_eq {P : Entry → Entry → Prop} {l l' : List Entry}
    (h : List.Forall₂ (fun e f => f.head = e.head ∧ P e f) l l') : l'.map Entry.head = l.map Entry.head := by
  induction h with
  | nil => rfl
  | cons h _ ih => rw [List.map_cons, List.map_cons, h.1, ih]

/-- In `t`, a snapshot of `v` adds one tree, with the content that `v` has in `s`
and every reference in it resolved. -/
def Snaps (s t : Store) (k : Nat) (v : Value) : Prop :=
  ∃ c u, snapshotWithin k v t = some (c, u) ∧ t.Grafts u [some c] ∧ ResolvedIn s u k (some v) (some c)

theorem snaps_flat (hs : s.WellFormed) (h : v.node? = none) : Snaps s s k v :=
  ⟨v, s, snapshotWithin_flat h, .flat hs h, resolvedIn_flat h⟩

theorem snaps_array {a : ArrayId} (hs : s.WellFormed)
    (part : ∀ w ∈ s.children (.array a), ∀ t, s.Extends t → t.WellFormed → Snaps s t k w) : Snaps s s (k + 1) (.array a) := by
  obtain ⟨cs, t, hcs, hg, hr⟩ := mapM_grafts (R := fun v c t => ResolvedIn s t k (some v) (some c))
    (g := some) (fun _ _ _ _ htu ht hc h => h.right htu ht hc) (s.array a).elements.toList
    (fun w hw t => part w hw t) (.refl s) hs
  have htu := Extends.newArray t cs.toArray
  have hknown : ∀ c ∈ cs, t.Knows c := fun c hc => (hg.root c (by simpa using hc)).knows
  refine ⟨_, _, by rw [snapshotWithin_array, hcs]; rfl, ?_, fun T hT => ?_⟩
  · refine hg.enclose htu (hg.wellFormed.newArray (by simpa using hknown)) rfl (by simp [Knows, newArray])
      (fun w hw => knows_newArray hw) (fun i => ?_) (fun w hw => isMarked_newArray hw)
    rw [part?_newArray_self]
    cases h : cs[i]? <;> simp [h]
  · simp only [Content.ofOption, contentWithin, Option.map_eq_some_iff] at hT ⊢
    obtain ⟨Ts, hTs, rfl⟩ := hT
    refine ⟨Ts.map Content.resolve, ?_, by rw [Content.resolve]⟩
    rw [array_newArray_self, List.toList_toArray,
      mapM_congr fun c hc => htu.contentWithin hg.wellFormed (hknown c hc), mapM_eq_some]
    exact forall₂_resolve hr (mapM_eq_some.1 hTs)

theorem snaps_entry {e : Entry} (ht : t.WellFormed) (part : ∀ w, e.value = some w → Snaps s t k w) :
    ∃ f u, snapshotEntry k e t = some (f, u) ∧ t.Grafts u [f.value] ∧ f.head = e.head ∧ ResolvedIn s u k e.value f.value := by
  rw [snapshotEntry_eq]
  cases hval : e.value with
  | none =>
    refine ⟨e, t, rfl, ?_, rfl, ?_⟩ <;> rw [hval]
    · exact .unset ht
    · exact resolvedIn_none
  | some w =>
    obtain ⟨c, u, hc, hg, hr⟩ := part w hval
    exact ⟨{ e with value := some c }, u, by simp [hc], hg, rfl, hr⟩

/-- Entries with the heads of a table fit in where their values are known. -/
theorem fitsIn_of_heads {h : HashId} {es : List Entry} (hs : s.WellFormed) (hheads : es.map Entry.head = (s.hash h).entries.map Entry.head)
    (hknown : ∀ e ∈ es, ∀ w, e.value = some w → t.Knows w) : t.FitsIn { s.hash h with entries := es, marked := false } := by
  have hfiled := (hs.filed h).of_heads (t := { s.hash h with entries := es, marked := false }) hheads
  exact ⟨hknown, hfiled.keyed, hfiled.distinct⟩

theorem snaps_hash {h : HashId} (hs : s.WellFormed)
    (part : ∀ w ∈ s.children (.hash h), ∀ t, s.Extends t → t.WellFormed → Snaps s t k w) : Snaps s s (k + 1) (.hash h) := by
  obtain ⟨es, t, hes, hg, hr⟩ := mapM_grafts (f := snapshotEntry k)
    (R := fun e f t => f.head = e.head ∧ ResolvedIn s t k e.value f.value)
    (g := Entry.value) (fun _ _ _ _ htu ht hc h => ⟨h.1, h.2.right htu ht hc⟩) (s.hash h).entries
    (fun e he t hst ht => snaps_entry ht fun w hw => part w (List.mem_filterMap.2 ⟨e, he, hw⟩) t hst ht) (.refl s) hs
  have hheads := map_head_eq hr
  let table : Table := { s.hash h with entries := es, marked := false }
  have htu := Extends.newHash t table
  have hknown : ∀ e ∈ es, ∀ w, e.value = some w → t.Knows w := fun e he w hw =>
    (hg.root w (List.mem_map.2 ⟨e, he, hw⟩)).knows
  refine ⟨_, _, by rw [snapshotWithin_hash, hes]; rfl, ?_, fun T hT => ?_⟩
  · refine hg.enclose htu (hg.wellFormed.newHash (fitsIn_of_heads hs hheads hknown)) rfl (by simp [Knows, newHash])
      (fun w hw => knows_newHash hw) (fun i => ?_) (fun w hw => isMarked_newHash rfl hw)
    rw [part?_newHash_self]
    cases h : es[i]? <;> simp [h]
  · change s.contentWithin (k + 1) (.hash h) = some T at hT
    change (t.newHash table).2.contentWithin (k + 1) (.hash (t.newHash table).1) = _
    simp only [contentWithin, Option.map_eq_some_iff] at hT ⊢
    obtain ⟨Ts, hTs, rfl⟩ := hT
    refine ⟨Ts.map Content.resolve, ?_, by rw [Content.resolve, hash_newHash_self, hheads]⟩
    have hsame : ∀ e ∈ es, Content.ofOption ((t.newHash table).2.contentWithin k) e.value =
        Content.ofOption (t.contentWithin k) e.value := by
      intro e he
      cases hval : e.value with
      | none => rfl
      | some w => exact htu.contentWithin hg.wellFormed (hknown e he w hval)
    rw [hash_newHash_self, mapM_congr hsame, mapM_eq_some]
    exact forall₂_resolve (hr.imp fun _ _ h => h.2) (mapM_eq_some.1 hTs)

/-- Nothing new is made for a reference itself: its copy is that of its target. -/
theorem snaps_ref {slot : Slot} {index : Value} {constant : Bool} (hs : s.WellFormed)
    (part : ∀ w ∈ s.children (.ref slot index constant), Snaps s s k w) : Snaps s s (k + 1) (.ref slot index constant) := by
  unfold Snaps
  rw [snapshotWithin_ref]
  cases hval : s.slotValue? slot with
  | none =>
    refine ⟨.void, s, rfl, .flat hs rfl, fun T hT => ?_⟩
    simp only [Content.ofOption, contentWithin, hval, Option.map_some, Option.some.injEq] at hT ⊢
    rw [← hT, Content.resolve]
  | some w =>
    have hw : w ∈ s.children (.ref slot index constant) := by
      simp [Store.children, Value.node?, held, hval]
    obtain ⟨c, u, hc, hg, hr⟩ := part w hw
    refine ⟨c, u, hc, hg, fun T hT => ?_⟩
    simp only [Content.ofOption, contentWithin, hval, Option.map_eq_some_iff] at hT
    obtain ⟨T, hT, rfl⟩ := hT
    have hcontent : u.contentWithin k c = some T.resolve := hr T hT
    have hne : T ≠ .unset := by
      rintro rfl
      exact contentWithin_ne_unset hT
    simp only [Content.ofOption]
    rw [contentWithin_mono hcontent (Nat.le_succ k), Content.resolve]
    exact hne

/-- A snapshot of a value adds one tree to the store and nothing else, with the
content of the value in which every reference is resolved. -/
theorem snapshotWithin_spec (hs : s.WellFormed) (hv : s.Knows v) (hk : s.Within k v) : Snaps s s k v := by
  induction k generalizing s v with
  | zero => exact snaps_flat hs hk
  | succ k ih =>
    -- what the induction hypothesis says of a value held by `v`, in any extension of `s`
    have part : ∀ w ∈ s.children v, ∀ t, s.Extends t → t.WellFormed → Snaps s t k w := by
      intro w hw t hst ht
      have hws : s.Knows w := hs.children hw
      obtain ⟨c, u, hc, hg, hr⟩ := ih ht (hst.knows hws) ((hst.within hs hws).2 (hk w hw))
      refine ⟨c, u, hc, hg, fun T hT => hr T ?_⟩
      simpa only [Content.ofOption, hst.contentWithin hs hws] using hT
    cases v with
    | array a => exact snaps_array hs part
    | hash h => exact snaps_hash hs part
    | ref slot index constant => exact snaps_ref hs fun w hw => part w hw s (.refl s) hs
    | _ => exact snaps_flat hs rfl

/-! ## Copies -/

theorem copy_of_marked (h : s.isMarked v = true) : copy v s = some (v, s.unmark v) := by
  unfold copy
  rw [if_pos h]

/-- Copying a grounded value without a mark adds one tree with its resolved content. -/
theorem copy_of_unmarked (hs : s.WellFormed) (hv : s.Knows v) (hg : s.Grounded v) (h : s.isMarked v = false) :
    ∃ c t T, copy v s = some (c, t) ∧ s.Grafts t [some c] ∧ s.content v = some T ∧
      t.content c = some T.resolve := by
  obtain ⟨c, t, hc, hgrafts, hr⟩ := snapshotWithin_spec hs hv (within_span hg)
  obtain ⟨T, hT⟩ := exists_content_iff.2 hg
  refine ⟨c, t, T, by rw [copy, if_neg (by simp [h]), snapshot, hc], hgrafts, hT, ?_⟩
  exact content_eq_some.2 ⟨_, hr T hT⟩

theorem isSome_copy (hs : s.WellFormed) (hv : s.Knows v) (hg : s.Grounded v) : (copy v s).isSome := by
  cases h : s.isMarked v with
  | true => rw [copy_of_marked h]; rfl
  | false =>
    obtain ⟨c, t, T, hc, -⟩ := copy_of_unmarked hs hv hg h
    rw [hc]
    rfl

end Store

end CopyOnBind
