import CopyOnBind.Proofs.Cycles
import CopyOnBind.Proofs.Plain
import Mathlib.Data.List.Nodup
import Mathlib.Data.List.Perm.Subperm
/-!
# Equality as a relation

Values are compared part by part, but a container with itself is not looked into.
`EqualBy` is one step of the comparison: values are equal if they are equal as far
as they are flat, if they are one container, or if their parts are related.
Whatever is known of the parts, the step is symmetric and transitive
if the relation of the parts is. A table is looked through from one side only, so
for symmetry the keys have to be counted (`TablesBy.keys_perm`).

`eqLaws`: equality of values is symmetric and transitive, and only a bare NaN
differs from itself.
-/

namespace CopyOnBind

/-! ## Flat values -/

theorem Binary64.eq_symm {x y : Binary64} (h : x.eq y = true) : y.eq x = true := by
  simp only [Binary64.eq, Bool.and_eq_true, Bool.or_eq_true, Bool.not_eq_true', beq_iff_eq] at h ⊢
  obtain ⟨⟨hx, hy⟩, hxy⟩ := h
  exact ⟨⟨hy, hx⟩, hxy.imp Eq.symm And.symm⟩

theorem Binary64.isZero_congr {x y : Binary64} (h : x.bits = y.bits) : x.isZero = y.isZero := by
  rw [show x = y from congrArg Binary64.mk h]

theorem Binary64.eq_trans {x y z : Binary64} (hxy : x.eq y = true) (hyz : y.eq z = true) : x.eq z = true := by
  simp only [Binary64.eq, Bool.and_eq_true, Bool.or_eq_true, Bool.not_eq_true', beq_iff_eq] at hxy hyz ⊢
  obtain ⟨⟨hx, -⟩, hxy⟩ := hxy
  obtain ⟨⟨-, hz⟩, hyz⟩ := hyz
  refine ⟨⟨hx, hz⟩, ?_⟩
  rcases hxy with hxy | ⟨hx, hy⟩ <;> rcases hyz with hyz | ⟨hy', hz⟩
  · exact .inl (hxy.trans hyz)
  · exact .inr ⟨(isZero_congr hxy).trans hy', hz⟩
  · exact .inr ⟨hx, (isZero_congr hyz).symm.trans hy⟩
  · exact .inr ⟨hx, hz⟩

theorem Binary64.isNaN_of_eq {x y : Binary64} (h : x.eq y = true) : x.isNaN = false := by
  simp only [Binary64.eq, Bool.and_eq_true, Bool.not_eq_true'] at h
  exact h.1.1

theorem Binary64.eq_self_iff {x : Binary64} : x.eq x = true ↔ x.isNaN = false := by
  simp [Binary64.eq]

namespace Value

variable {u v w : Value}

theorem kind_eq_of_eqFlat (h : v.eqFlat w = true) : v.kind = w.kind := by
  cases v <;> cases w <;> first | rfl | cases h

theorem eqFlat_symm (h : v.eqFlat w = true) : w.eqFlat v = true := by
  have hkind := kind_eq_of_eqFlat h
  cases v <;> cases w <;> cases hkind
  case float.float.refl => exact Binary64.eq_symm h
  case void.void.refl | array.array.refl | hash.hash.refl => exact h
  case function.function.refl f g | underline.underline.refl f g =>
    have h : (f.body.id == g.body.id && f.scope == g.scope) = true := h
    exact Bool.and_eq_true_iff.2 ((Bool.and_eq_true_iff.1 h).imp BEq.symm BEq.symm)
  all_goals exact BEq.symm h

theorem eqFlat_trans (h : u.eqFlat v = true) (h' : v.eqFlat w = true) : u.eqFlat w = true := by
  have hkind := kind_eq_of_eqFlat h
  have hkind' := kind_eq_of_eqFlat h'
  cases u <;> cases v <;> cases hkind <;> cases w <;> cases hkind'
  case float.float.refl.float.refl => exact Binary64.eq_trans h h'
  case void.void.refl.void.refl | array.array.refl.array.refl | hash.hash.refl.hash.refl => exact h
  case function.function.refl.function.refl f g i | underline.underline.refl.underline.refl f g i =>
    have h : (f.body.id == g.body.id && f.scope == g.scope) = true := h
    have h' : (g.body.id == i.body.id && g.scope == i.scope) = true := h'
    rw [Bool.and_eq_true] at h h'
    exact Bool.and_eq_true_iff.2 ⟨BEq.trans h.1 h'.1, BEq.trans h.2 h'.2⟩
  all_goals exact BEq.trans h h'

theorem isContainer_of_eqFlat (h : v.eqFlat w = true) : v.isContainer = false ∧ w.isContainer = false := by
  cases v <;> cases w <;> first | exact ⟨rfl, rfl⟩ | cases h

/-- Of the values that are no containers only a NaN differs from itself. -/
theorem eqFlat_self_iff (hv : v.isContainer = false) : v.eqFlat v = true ↔ ∀ x, v = .float x → x.isNaN = false := by
  cases v with
  | float x =>
    refine Binary64.eq_self_iff.trans ⟨fun hx y hy => ?_, fun h => h x rfl⟩
    cases hy
    exact hx
  | array | hash => cases hv
  | ref slot _ _ => exact iff_of_true (beq_self_eq_true slot) nofun
  | _ => exact iff_of_true (eqFlat_self rfl nofun) nofun

end Value

theorem allM_eq_true_iff {α : Type} {f : α → Option Bool} {l : List α} :
    l.allM f = some true ↔ ∀ a ∈ l, f a = some true := by
  refine ⟨fun h => ?_, allM_eq_true⟩
  induction l with
  | nil => simp
  | cons a l ih =>
    rcases ha : f a with _ | _ | _ <;> simp only [List.allM, ha] at h
    · cases h
    · cases h
    · exact List.forall_mem_cons.2 ⟨ha, ih h⟩

theorem exists_of_forall₂ {α β : Type} {R : α → β → Prop} {l : List α} {l' : List β} {a : α} (h : List.Forall₂ R l l')
    (ha : a ∈ l) : ∃ b ∈ l', R a b := by
  induction h with
  | nil => cases ha
  | cons hab _ ih =>
    rcases List.mem_cons.1 ha with rfl | ha
    · exact ⟨_, by simp, hab⟩
    · obtain ⟨b, hb, hR⟩ := ih ha
      exact ⟨b, by simp [hb], hR⟩

namespace Table

variable {t u : Table} {e f : Entry}

theorem find?_of_mem (ht : t.Distinct) (he : e ∈ t.entries) : t.find? e.key = some e := by
  cases hf : t.find? e.key with
  | none => exact absurd (beq_self_eq_true e.key) (List.find?_eq_none.1 hf e he)
  | some f =>
    have hkey : f.key = e.key := key_of_find?_eq_some hf
    rw [List.inj_on_of_nodup_map ht (List.mem_of_find?_eq_some hf) he hkey]

end Table

namespace Store

variable {s : Store} {R : Value → Value → Prop} {u v w : Value} {k : Nat}

/-! ## One step of the comparison -/

/-- The entries of `t` are found in `u`, with related values or none on both sides. -/
structure TablesBy (R : Value → Value → Prop) (t u : Table) : Prop where
  size : t.size = u.size
  entry : ∀ e ∈ t.entries, ∃ f, u.find? e.key = some f ∧ Option.Rel R e.value f.value

/-- Equality of values whose parts are compared by `R`. -/
inductive EqualBy (s : Store) (R : Value → Value → Prop) : Value → Value → Prop
  | flat (v w : Value) : v.eqFlat w = true → EqualBy s R v w
  | same (v : Value) : v.isContainer = true → EqualBy s R v v
  | array (a b : ArrayId) : List.Forall₂ R (s.array a).elements.toList (s.array b).elements.toList →
    EqualBy s R (.array a) (.array b)
  | hash (h i : HashId) : TablesBy R (s.hash h) (s.hash i) → EqualBy s R (.hash h) (.hash i)

theorem eqOptional_eq_true {eq : Value → Value → Option Bool} {o p : Option Value} :
    eqOptional eq o p = some true ↔ Option.Rel (fun x y => eq x y = some true) o p := by
  cases o <;> cases p <;> simp [eqOptional]

theorem eqElements_eq_true {eq : Value → Value → Option Bool} {xs ys : Array Value} :
    eqElements eq xs ys = some true ↔ List.Forall₂ (fun x y => eq x y = some true) xs.toList ys.toList := by
  rw [List.forall₂_iff_zip]
  unfold eqElements
  split
  · next hsize => simp [allM_eq_true_iff, hsize]
  · next hsize => simp [hsize]

theorem eqTables_eq_true {eq : Value → Value → Option Bool} {t u : Table} :
    eqTables eq t u = some true ↔ TablesBy (fun x y => eq x y = some true) t u := by
  unfold eqTables
  split
  · next hsize =>
    rw [allM_eq_true_iff]
    refine ⟨fun h => ⟨hsize, fun e he => ?_⟩, fun h e he => ?_⟩
    · have heq := h e he
      cases hf : u.find? e.key with
      | none => simp [hf] at heq
      | some f =>
        rw [hf] at heq
        exact ⟨f, rfl, eqOptional_eq_true.1 heq⟩
    · obtain ⟨f, hf, hrel⟩ := h.entry e he
      rw [hf]
      exact eqOptional_eq_true.2 hrel
  · next hsize => exact ⟨nofun, fun h => absurd h.size hsize⟩

theorem eqWithin_of_isContainer (h : v.isContainer = false) : s.eqWithin k v w = some (v.eqFlat w) := by
  cases v <;> simp_all [eqWithin, Value.isContainer]

theorem eqWithin_zero : s.eqWithin 0 v w = some true ↔ v.eqFlat w = true ∨ v = w ∧ v.isContainer = true := by
  cases hv : v.isContainer with
  | false => simp [eqWithin_of_isContainer hv]
  | true =>
    have hflat : v.eqFlat w = false := by
      by_contra h
      rw [(Value.isContainer_of_eqFlat (eq_true_of_ne_false h)).1] at hv
      cases hv
    cases v with
    | array a => cases w <;> simp [eqWithin, hflat]
    | hash i => cases w <;> simp [eqWithin, hflat]
    | _ => cases hv

theorem eqWithin_succ :
    s.eqWithin (k + 1) v w = some true ↔ s.EqualBy (fun x y => s.eqWithin k x y = some true) v w := by
  constructor
  · intro h
    cases v with
    | array a =>
      cases w with
      | array b =>
        simp only [eqWithin] at h
        split at h
        · next heq =>
          rw [heq]
          exact .same _ rfl
        · exact .array a b (eqElements_eq_true.1 h)
      | _ => exact .flat _ _ (Option.some.inj h)
    | hash i =>
      cases w with
      | hash j =>
        simp only [eqWithin] at h
        split at h
        · next heq =>
          rw [heq]
          exact .same _ rfl
        · exact .hash i j (eqTables_eq_true.1 h)
      | _ => exact .flat _ _ (Option.some.inj h)
    | _ => exact .flat _ _ (Option.some.inj h)
  · intro h
    cases h with
    | flat _ _ h => rw [eqWithin_of_isContainer (Value.isContainer_of_eqFlat h).1, h]
    | same _ h =>
      cases v with
      | array a => simp only [eqWithin, if_true]
      | hash i => simp only [eqWithin, if_true]
      | _ => cases h
    | array a b h =>
      simp only [eqWithin]
      split
      · rfl
      · exact eqElements_eq_true.2 h
    | hash i j h =>
      simp only [eqWithin]
      split
      · rfl
      · exact eqTables_eq_true.2 h

/-! ## Laws of one step -/

/-- Tables that agree have the same keys: those of the one are in the other, and there are as many. -/
theorem TablesBy.keys_perm {t u : Table} (ht : t.Distinct) (h : TablesBy R t u) :
    (t.entries.map Entry.key).Perm (u.entries.map Entry.key) := by
  have hsub : t.entries.map Entry.key ⊆ u.entries.map Entry.key := by
    intro key hkey
    obtain ⟨e, he, rfl⟩ := List.mem_map.1 hkey
    obtain ⟨f, hf, -⟩ := h.entry e he
    exact List.mem_map.2 ⟨f, List.mem_of_find?_eq_some hf, Table.key_of_find?_eq_some hf⟩
  have hlen : (u.entries.map Entry.key).length ≤ (t.entries.map Entry.key).length := by
    rw [List.length_map, List.length_map]
    exact Nat.le_of_eq h.size.symm
  exact (List.subperm_of_subset ht hsub).perm_of_length_le hlen

theorem TablesBy.symm {t u : Table} (ht : t.Distinct) (hu : u.Distinct) (hR : ∀ x y, R x y → R y x) (h : TablesBy R t u) :
    TablesBy R u t where
  size := h.size.symm
  entry f hf := by
    obtain ⟨e, he, hkey⟩ := List.mem_map.1 ((h.keys_perm ht).mem_iff.2 (List.mem_map_of_mem hf))
    obtain ⟨g, hg, hrel⟩ := h.entry e he
    rw [hkey, Table.find?_of_mem hu hf] at hg
    cases hg
    refine ⟨e, by rw [← hkey, Table.find?_of_mem ht he], ?_⟩
    generalize e.value = o, f.value = p at hrel ⊢
    cases hrel with
    | none => exact .none
    | some hxy => exact .some (hR _ _ hxy)

theorem TablesBy.trans {t u x : Table} (hR : ∀ a b c, R a b → R b c → R a c) (h : TablesBy R t u) (h' : TablesBy R u x) :
    TablesBy R t x where
  size := h.size.trans h'.size
  entry e he := by
    obtain ⟨f, hf, hrel⟩ := h.entry e he
    obtain ⟨g, hg, hrel'⟩ := h'.entry f (List.mem_of_find?_eq_some hf)
    rw [Table.key_of_find?_eq_some hf] at hg
    refine ⟨g, hg, ?_⟩
    generalize e.value = o, f.value = p, g.value = q at hrel hrel' ⊢
    cases hrel with
    | none => exact hrel'
    | some hab =>
      cases hrel' with
      | some hbc => exact .some (hR _ _ _ hab hbc)

theorem EqualBy.symm (hs : ∀ h, (s.hash h).Distinct) (hR : ∀ x y, R x y → R y x) (h : s.EqualBy R v w) : s.EqualBy R w v := by
  cases h with
  | flat _ _ h => exact .flat _ _ (Value.eqFlat_symm h)
  | same _ h => exact .same _ h
  | array a b h => exact .array b a ((h.imp fun _ _ => hR _ _).flip)
  | hash i j h => exact .hash j i (h.symm (hs i) (hs j) hR)

theorem EqualBy.trans (hR : ∀ x y z, R x y → R y z → R x z) (h : s.EqualBy R u v) (h' : s.EqualBy R v w) : s.EqualBy R u w := by
  cases h with
  | flat _ _ h =>
    have hv := (Value.isContainer_of_eqFlat h).2
    cases h' with
    | flat _ _ h' => exact .flat _ _ (Value.eqFlat_trans h h')
    | same _ _ => exact .flat _ _ h
    | array _ _ _ => cases hv
    | hash _ _ _ => cases hv
  | same _ _ => exact h'
  | array a b h =>
    cases h' with
    | flat _ _ h' => cases (Value.isContainer_of_eqFlat h').1
    | same _ _ => exact .array _ _ h
    | array _ c h' =>
      refine .array a c ((forall₂_join h h'.flip).imp ?_)
      rintro x y ⟨z, -, hx, hy⟩
      exact hR x z y hx hy
  | hash i j h =>
    cases h' with
    | flat _ _ h' => cases (Value.isContainer_of_eqFlat h').1
    | same _ _ => exact .hash _ _ h
    | hash _ l h' => exact .hash i l (h.trans hR h')

/-! ## Equality -/

theorem eqWithin_symm (hs : ∀ h, (s.hash h).Distinct) (h : s.eqWithin k v w = some true) : s.eqWithin k w v = some true := by
  induction k generalizing v w with
  | zero =>
    rw [eqWithin_zero] at h ⊢
    rcases h with h | ⟨rfl, hv⟩
    · exact .inl (Value.eqFlat_symm h)
    · exact .inr ⟨rfl, hv⟩
  | succ k ih =>
    rw [eqWithin_succ] at h ⊢
    exact h.symm hs fun x y => ih

theorem eqWithin_trans (h : s.eqWithin k u v = some true) (h' : s.eqWithin k v w = some true) :
    s.eqWithin k u w = some true := by
  induction k generalizing u v w with
  | zero =>
    rw [eqWithin_zero] at h h' ⊢
    rcases h with h | ⟨rfl, -⟩
    · rcases h' with h' | ⟨rfl, -⟩
      · exact .inl (Value.eqFlat_trans h h')
      · exact .inl h
    · exact h'
  | succ k ih =>
    rw [eqWithin_succ] at h h' ⊢
    exact h.trans (fun x y z => ih) h'

theorem eqWithin_self : s.eqWithin k v v = some true ↔ ∀ x, v = .float x → x.isNaN = false := by
  cases hv : v.isContainer with
  | true =>
    have hfloat : ∀ x, v ≠ .float x := by
      rintro x rfl
      cases hv
    refine iff_of_true ?_ fun x hx => absurd hx (hfloat x)
    cases k with
    | zero => exact eqWithin_zero.2 (.inr ⟨rfl, hv⟩)
    | succ k => exact eqWithin_succ.2 (.same v hv)
  | false => rw [eqWithin_of_isContainer hv, Option.some.injEq, Value.eqFlat_self_iff hv]

/-- Equality answers for all values, and is a partial equivalence with only the NaNs outside. -/
structure EqLaws (s : Store) : Prop where
  total : ∀ v w, (s.eq v w).isSome
  symm : ∀ v w, s.eq v w = some true → s.eq w v = some true
  trans : ∀ u v w, s.eq u v = some true → s.eq v w = some true → s.eq u w = some true
  self : ∀ v, s.eq v v = some true ↔ ∀ x, v = .float x → x.isNaN = false

theorem eqLaws (hs : s.WellFormed) (ha : s.Acyclic) : s.EqLaws where
  total v _ := isSome_eq (ha.grounded v)
  symm _ _ := eqWithin_symm hs.distinct
  trans _ _ _ := eqWithin_trans
  self _ := eqWithin_self

/-- The arrays 2 and 3 are equal because they share an array that holds a NaN; the hashes were
filled in different orders, and each has an entry without a value. -/
theorem eqLaws_shared :
    let nan : Binary64 := ⟨0x7FF8000000000000⟩
    let s : Store := {
      arrays := #[{ elements := #[.float nan] }, { elements := #[.float nan] }, { elements := #[.array ⟨0⟩] },
        { elements := #[.array ⟨0⟩] }]
      hashes := #[
        { entries := [⟨.int 1, .int 1, some (.array ⟨2⟩), 0⟩, ⟨.int 2, .int 2, none, 1⟩], nextGeneration := 2 },
        { entries := [⟨.int 2, .int 2, none, 0⟩, ⟨.int 1, .int 1, some (.array ⟨3⟩), 1⟩], nextGeneration := 2 }] }
    s.WellFormed ∧ s.Acyclic ∧ s.EqLaws ∧ s.eq (.hash ⟨1⟩) (.hash ⟨0⟩) = some true ∧
      s.eq (.array ⟨0⟩) (.array ⟨0⟩) = some true ∧ s.eq (.array ⟨0⟩) (.array ⟨1⟩) = some false ∧
      s.eq (.float nan) (.float nan) ≠ some true := by
  intro nan s
  have hs : s.WellFormed := by decide +kernel
  have ha : s.Acyclic := by decide +kernel
  have hlaws : s.EqLaws := eqLaws hs ha
  refine ⟨hs, ha, hlaws, hlaws.symm _ _ (by decide +kernel), (hlaws.self _).2 nofun, by decide +kernel, fun hself => ?_⟩
  exact absurd ((hlaws.self _).1 hself nan rfl) (by decide)

end Store

end CopyOnBind
