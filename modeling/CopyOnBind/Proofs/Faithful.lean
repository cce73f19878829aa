import CopyOnBind.Proofs.Equality
import CopyOnBind.Proofs.Isolation
/-!
# Faithful copies

A copy has the content of its original with every reference resolved. So a value
in which no reference occurs is shown like its copy, and is equal to it unless a NaN
occurs as well; callables, entries without a value and containers that are met twice
do no harm.

`copy_eq_iff`: nothing else makes a copy equal to its original. The two have no
container in common, so their equality is that of their parts all the way down, and
at the end of a path there is neither a NaN, which is equal to nothing, nor a
reference, which is equal to nothing in a copy.
-/

namespace CopyOnBind

namespace Store

variable {s t : Store} {v w x c : Value} {i k : Nat} {path : List Nat} {R : Value → Value → Prop}

/-! ## What occurs in a value -/

/-- `w` is `v` itself, or is reached from it through elements and values of entries. -/
def Occurs (s : Store) (v w : Value) : Prop := ∃ path, s.follow? v path = some w

/-- No reference occurs in `v`. -/
def RefFree (s : Store) (v : Value) : Prop := ∀ w, s.Occurs v w → w.kind ≠ .reference

/-- No NaN occurs in `v`. -/
def NaNFree (s : Store) (v : Value) : Prop := ∀ x, s.Occurs v (.float x) → x.isNaN = false

theorem Occurs.refl (s : Store) (v : Value) : s.Occurs v v := ⟨[], rfl⟩

theorem Occurs.part (hi : s.part? v i = some x) (h : s.Occurs x w) : s.Occurs v w := by
  obtain ⟨path, hpath⟩ := h
  exact ⟨i :: path, by rw [follow?, hi, Option.bind_some, hpath]⟩

/-- What holds of the values that occur and is put together from the parts holds of
the content, if no reference has to be followed. -/
theorem RefFree.content_rec {P : Content → Prop} {T : Content} (hr : s.RefFree v)
    (flat : ∀ w, s.Occurs v w → w.node? = none → P (.flat w)) (unset : P .unset)
    (array : ∀ items, (∀ T ∈ items, P T) → P (.array items))
    (hash : ∀ heads next values, (∀ T ∈ values, P T) → P (.hash heads next values))
    (h : s.contentWithin k v = some T) : P T := by
  induction k generalizing v T with
  | zero =>
    have hv : v.node? = none := isSome_contentWithin (k := 0) |>.1 (by rw [h]; rfl)
    rw [contentWithin_flat hv] at h
    cases h
    exact flat v (.refl s v) hv
  | succ k ih =>
    have part : ∀ i w T, s.part? v i = some w → s.contentWithin k w = some T → P T := fun i w T hi =>
      ih (fun x hx => hr x (hx.part hi)) fun x hx => flat x (hx.part hi)
    cases v with
    | array a =>
      simp only [contentWithin, Option.map_eq_some_iff] at h
      obtain ⟨Ts, hTs, rfl⟩ := h
      refine array Ts fun T hT => ?_
      obtain ⟨w, hw, hwT⟩ := exists_of_forall₂ (mapM_eq_some.1 hTs).flip hT
      obtain ⟨i, hi⟩ := (mem_children_iff (s := s) (v := .array a) rfl).1 hw
      exact part i w T hi hwT
    | hash j =>
      simp only [contentWithin, Option.map_eq_some_iff] at h
      obtain ⟨Ts, hTs, rfl⟩ := h
      refine hash _ _ Ts fun T hT => ?_
      obtain ⟨e, he, heT⟩ := exists_of_forall₂ (mapM_eq_some.1 hTs).flip hT
      cases hval : e.value with
      | none =>
        rw [hval] at heT
        cases heT
        exact unset
      | some w =>
        rw [hval] at heT
        obtain ⟨i, hi⟩ := mem_values_iff.1 (List.mem_filterMap.2 ⟨e, he, hval⟩)
        exact part i w T hi heT
    | ref slot index constant => exact absurd rfl (hr _ (.refl s _))
    | _ =>
      cases h
      exact flat _ (.refl s _) rfl

theorem RefFree.resolve_eq {T : Content} (hr : s.RefFree v) (h : s.contentWithin k v = some T) : T.resolve = T := by
  refine hr.content_rec (P := fun T => T.resolve = T) ?_ ?_ ?_ ?_ h
  · exact fun w _ _ => by rw [Content.resolve]
  · rw [Content.resolve]
  · exact fun items ih => by rw [Content.resolve, List.map_congr_left ih, List.map_id']
  · exact fun heads next values ih => by rw [Content.resolve, List.map_congr_left ih, List.map_id']

theorem RefFree.plain {T : Content} (hr : s.RefFree v) (hn : s.NaNFree v) (h : s.contentWithin k v = some T) : T.Plain := by
  refine hr.content_rec (fun w hw hnode => .flat w ?_) .unset .array .hash h
  cases w with
  | float x => exact Binary64.eq_self_iff.2 (hn x hw)
  | _ => exact Value.eqFlat_self hnode nofun

/-! ## Parts of equal values -/

/-- Of two equal values that are not one, every part of the first is equal to a part of the second. -/
theorem EqualBy.part (h : s.EqualBy R v w) (hne : v ≠ w) (hi : s.part? v i = some x) :
    ∃ j y, s.part? w j = some y ∧ R x y := by
  cases h with
  | flat _ _ h =>
    have hv := isContainer_of_part? hi
    rw [(Value.isContainer_of_eqFlat h).1] at hv
    cases hv
  | same _ _ => exact absurd rfl hne
  | array a b h =>
    have hx : x ∈ (s.array a).elements.toList := (mem_children_iff (s := s) (v := .array a) rfl).2 ⟨i, hi⟩
    obtain ⟨y, hy, hxy⟩ := exists_of_forall₂ h hx
    obtain ⟨j, hj⟩ := (mem_children_iff (s := s) (v := .array b) rfl).1 hy
    exact ⟨j, y, hj, hxy⟩
  | hash a b h =>
    obtain ⟨e, he, hval⟩ := List.mem_filterMap.1 (mem_values_iff.2 ⟨i, hi⟩)
    obtain ⟨f, hf, hrel⟩ := h.entry e he
    rw [hval] at hrel
    generalize hq : f.value = q at hrel
    cases hrel with
    | some hxy =>
      obtain ⟨j, hj⟩ := mem_values_iff.1 (List.mem_filterMap.2 ⟨f, List.mem_of_find?_eq_some hf, hq⟩)
      exact ⟨j, _, hj, hxy⟩

/-- A known value that is equal to a new one holds no reference and no NaN. -/
theorem Grafts.clean_of_eqWithin {roots : List (Option Value)} (hs : s.WellFormed) (hg : s.Grafts t roots) (hv : s.Knows v)
    (hc : s.Fresh t c) (h : t.eqWithin k v c = some true) (hw : s.follow? v path = some w) :
    w.kind ≠ .reference ∧ ∀ x, w = .float x → x.isNaN = false := by
  induction path generalizing k v c with
  | nil =>
    cases hw
    constructor
    · intro hkind
      cases w with
      | ref slot index constant =>
        -- only a reference is equal to one, and the new value is none
        rw [eqWithin_of_isContainer rfl] at h
        cases c with
        | ref => rcases hc with hc | ⟨hc, -⟩ <;> cases hc
        | _ => cases h
      | _ => cases hkind
    · rintro x rfl
      rw [eqWithin_of_isContainer rfl] at h
      cases c with
      | float y => exact Binary64.isNaN_of_eq (Option.some.inj h)
      | _ => cases h
  | cons i path ih =>
    obtain ⟨x, hx, hw⟩ := Option.bind_eq_some_iff.1 hw
    have hvc := isContainer_of_part? hx
    have hne : v ≠ c := by
      rintro rfl
      exact hc.not_knows hvc hv
    cases k with
    | zero =>
      rcases eqWithin_zero.1 h with h | ⟨h, -⟩
      · rw [(Value.isContainer_of_eqFlat h).1] at hvc
        cases hvc
      · exact absurd h hne
    | succ k =>
      obtain ⟨j, y, hj, hxy⟩ := (eqWithin_succ.1 h).part hne ((hg.kept.part? hv i).trans hx)
      exact ih (hs.closed v i x hx) (hg.part c j y (hc.not_knows (isContainer_of_part? hj)) hj) hxy hw

/-! ## Copies -/

/-- A copy is equal to its original exactly if neither a NaN nor a reference occurs in it,
and is shown like its original if no reference does. -/
theorem copy_eq_iff (hs : s.WellFormed) (ha : s.Acyclic) (hv : s.Knows v) (hm : s.isMarked v = false) :
    ∃ c t same, s.copy v = some (c, t) ∧ t.eq c v = some same ∧ (same = true ↔ s.NaNFree v ∧ s.RefFree v) ∧
      (s.RefFree v → ∃ text, t.inspect c = some text ∧ t.inspect v = some text) := by
  obtain ⟨c, t, T, hc, hg, hT, hres⟩ := copy_of_unmarked hs hv (ha.grounded v) hm
  have hfresh : s.Fresh t c := hg.root c (by simp)
  have hvT : t.content v = some T := (hg.kept.content hs hv).trans hT
  obtain ⟨same, hsame⟩ := Option.isSome_iff_exists.1 (isSome_eq (w := v) (exists_content_iff.1 ⟨_, hres⟩))
  refine ⟨c, t, same, hc, hsame, ⟨?_, ?_⟩, fun hr => ?_⟩
  · rintro rfl
    have hclean : ∀ w, s.Occurs v w → w.kind ≠ .reference ∧ ∀ x, w = .float x → x.isNaN = false := by
      rintro w ⟨path, hw⟩
      exact hg.clean_of_eqWithin hs hv hfresh (eqWithin_symm hg.wellFormed.distinct hsame) hw
    exact ⟨fun x hx => (hclean _ hx).2 x rfl, fun w hw => (hclean w hw).1⟩
  · rintro ⟨hn, hr⟩
    rw [hr.resolve_eq hT] at hres
    have heq : t.eq c v = some true := eqWithin_of_content hg.wellFormed.distinct (hr.plain hn hT) hres hvT
    exact Option.some.inj (hsame.symm.trans heq)
  · rw [hr.resolve_eq hT] at hres
    exact ⟨T.inspect, inspect_of_content hg.wellFormed.keyed hres, inspect_of_content hg.wellFormed.keyed hvT⟩

/-- The array 1 holds an array twice, a negative zero, a function and an entry without a value,
and its copy is equal to it. The array 2 holds a NaN, and the array 3 a reference to an integer. -/
theorem copy_eq_iff_shared :
    let s : Store := {
      arrays := #[{ elements := #[.float ⟨0x8000000000000000⟩] }, { elements := #[.array ⟨0⟩, .hash ⟨0⟩, .array ⟨0⟩] },
        { elements := #[.array ⟨1⟩, .float ⟨0x7FF8000000000000⟩] },
        { elements := #[.ref ⟨⟨0⟩, .int 2, 2⟩ (.int 2) false] }]
      hashes := #[{
        entries := [⟨.int 0, .int 0, some (.function ⟨["x"], ⟨0, 1⟩, ⟨0⟩⟩), 0⟩, ⟨.int 1, .int 1, none, 1⟩,
          ⟨.int 2, .int 2, some (.int 5), 2⟩]
        nextGeneration := 3 }] }
    s.WellFormed ∧ s.Acyclic ∧
      (∃ c t, s.copy (.array ⟨1⟩) = some (c, t) ∧ t.eq c (.array ⟨1⟩) = some true ∧ s.NaNFree (.array ⟨1⟩) ∧
        s.RefFree (.array ⟨1⟩)) ∧
      (∃ c t, s.copy (.array ⟨2⟩) = some (c, t) ∧ t.eq c (.array ⟨2⟩) = some false ∧
        ¬ (s.NaNFree (.array ⟨2⟩) ∧ s.RefFree (.array ⟨2⟩))) ∧
      ∃ c t, s.copy (.array ⟨3⟩) = some (c, t) ∧ t.eq c (.array ⟨3⟩) = some false ∧
        ¬ (s.NaNFree (.array ⟨3⟩) ∧ s.RefFree (.array ⟨3⟩)) := by
  intro s
  have hs : s.WellFormed := by decide +kernel
  have ha : s.Acyclic := by decide +kernel
  have key : ∀ v b, s.Knows v → s.isMarked v = false → (s.copy v).bind (fun x => x.2.eq x.1 v) = some b →
      ∃ c t, s.copy v = some (c, t) ∧ t.eq c v = some b ∧ (b = true ↔ s.NaNFree v ∧ s.RefFree v) := by
    intro v b hv hm hrun
    obtain ⟨c, t, same, hc, heq, hiff, -⟩ := copy_eq_iff hs ha hv hm
    rw [hc, Option.bind_some, heq, Option.some.injEq] at hrun
    subst hrun
    exact ⟨c, t, hc, heq, hiff⟩
  refine ⟨hs, ha, ?_, ?_, ?_⟩
  · obtain ⟨c, t, hc, heq, hiff⟩ := key (.array ⟨1⟩) true (by decide) rfl (by decide +kernel)
    exact ⟨c, t, hc, heq, hiff.1 rfl⟩
  · obtain ⟨c, t, hc, heq, hiff⟩ := key (.array ⟨2⟩) false (by decide) rfl (by decide +kernel)
    exact ⟨c, t, hc, heq, fun h => Bool.false_ne_true (hiff.2 h)⟩
  · obtain ⟨c, t, hc, heq, hiff⟩ := key (.array ⟨3⟩) false (by decide) rfl (by decide +kernel)
    exact ⟨c, t, hc, heq, fun h => Bool.false_ne_true (hiff.2 h)⟩

end Store

end CopyOnBind
