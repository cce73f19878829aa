import CopyOnBind.Proofs.Content
/-!
# Well-formed stores

A store is well formed when every handle in a container names a container of
the store, and every table files its entries under the keys of their key
values, one entry for each key. Handles are only ever given out by the store,
so this is what all its users keep.

A store `t` extends `s` if it has all containers of `s` unchanged and maybe
more. What `s` knows reads the same in `t`.
-/

namespace CopyOnBind

namespace Store

variable {s t u : Store} {v w : Value} {k i : Nat}

/-! ## Parts of containers -/

/-- The value at a place of a container: an element, or the value of an entry. -/
def part? (s : Store) : Value → Nat → Option Value
  | .array a, i => (s.array a).elements[i]?
  | .hash h, i => (s.hash h).entries[i]?.bind Entry.value
  | _, _ => none

/-- The store has the container that a value leads to. -/
def Knows (s : Store) : Value → Prop
  | .array a => a.index < s.arrays.size
  | .hash h => h.index < s.hashes.size
  | .ref slot _ _ => slot.origin.index < s.hashes.size
  | _ => True

instance : (v : Value) → Decidable (s.Knows v)
  | .array a => inferInstanceAs (Decidable (a.index < s.arrays.size))
  | .hash h => inferInstanceAs (Decidable (h.index < s.hashes.size))
  | .ref slot _ _ => inferInstanceAs (Decidable (slot.origin.index < s.hashes.size))
  | .int _ | .float _ | .bool _ | .char _ | .str _ | .void | .function _ | .underline _ | .native _ =>
    inferInstanceAs (Decidable True)

theorem knows_of_node?_none (h : v.node? = none) : s.Knows v := by
  cases v <;> simp_all [Value.node?, Knows]

theorem isContainer_of_part? (h : s.part? v i = some w) : v.isContainer := by
  cases v <;> simp_all [part?, Value.isContainer]

theorem knows_of_part? (h : s.part? v i = some w) : s.Knows v := by
  cases v with
  | array a => exact lt_of_mem_elements (Array.mem_toList_iff.2 (Array.mem_of_getElem? h))
  | hash j =>
    obtain ⟨e, he, -⟩ := Option.bind_eq_some_iff.1 h
    exact lt_of_mem_entries (List.mem_of_getElem? he)
  | _ => simp [part?] at h

theorem SameAt.part? (h : s.SameAt t v) : t.part? v i = s.part? v i := by
  cases v with
  | array a => simp only [Store.part?, show (t.array a).elements = _ from h]
  | hash j => simp only [Store.part?, h.1]
  | _ => rfl

theorem isMarked_of_not_knows (h : ¬ s.Knows v) : s.isMarked v = false := by
  cases v with
  | array a =>
    simp only [Knows, Nat.not_lt] at h
    rw [isMarked, array_of_le h]
  | hash j =>
    simp only [Knows, Nat.not_lt] at h
    rw [isMarked, hash_of_le h]
  | _ => rfl

theorem mem_values_iff {j : HashId} : w ∈ (s.hash j).values ↔ ∃ i, s.part? (.hash j) i = some w := by
  unfold Table.values
  rw [List.mem_filterMap]
  simp only [List.mem_iff_getElem?, part?, Option.bind_eq_some_iff]
  exact ⟨fun ⟨e, ⟨i, hi⟩, hv⟩ => ⟨i, e, hi, hv⟩, fun ⟨i, e, hi, hv⟩ => ⟨e, ⟨i, hi⟩, hv⟩⟩

theorem mem_children_iff (hv : v.isContainer) : w ∈ s.children v ↔ ∃ i, s.part? v i = some w := by
  cases v with
  | array a => simp [children, Value.node?, held, part?, Array.mem_iff_getElem?]
  | hash j => exact mem_values_iff
  | _ => simp [Value.isContainer] at hv

/-- What a reference leads to is also held by the hash of its slot. -/
theorem part?_of_slotValue? {slot : Slot} (h : s.slotValue? slot = some w) :
    ∃ i, s.part? (.hash slot.origin) i = some w := by
  obtain ⟨e, he, -, hv⟩ := slotValue?_eq_some.1 h
  exact mem_values_iff.1 (List.mem_filterMap.2 ⟨e, List.mem_of_find?_eq_some he, hv⟩)

theorem part?_of_mem_held (hw : w ∈ s.held m) : ∃ u i, s.part? u i = some w := by
  cases m with
  | array a => exact ⟨_, (mem_children_iff (v := .array a) rfl).1 hw⟩
  | hash i => exact ⟨_, (mem_children_iff (v := .hash i) rfl).1 hw⟩
  | slot slot => exact ⟨_, part?_of_slotValue? (Option.mem_toList.1 hw)⟩

/-! ## Well-formedness -/

structure WellFormed (s : Store) : Prop where
  /-- Containers hold handles of the store. -/
  closed : ∀ v i w, s.part? v i = some w → s.Knows w
  keyed : s.Keyed
  distinct : ∀ h, ((s.hash h).entries.map Entry.key).Nodup

theorem WellFormed.children (h : s.WellFormed) (hw : w ∈ s.children v) : s.Knows w := by
  cases v with
  | array a =>
    obtain ⟨i, hi⟩ := (mem_children_iff rfl).1 hw
    exact h.closed _ i w hi
  | hash j =>
    obtain ⟨i, hi⟩ := (mem_children_iff rfl).1 hw
    exact h.closed _ i w hi
  | ref slot index constant =>
    simp only [Store.children, Value.node?, Option.map_some, Option.getD_some, held, Option.mem_toList] at hw
    obtain ⟨i, hi⟩ := part?_of_slotValue? hw
    exact h.closed _ i w hi
  | _ => simp [Store.children, Value.node?] at hw

theorem WellFormed.filed (hs : s.WellFormed) (h : HashId) : (s.hash h).Filed := ⟨hs.keyed h, hs.distinct h⟩

/-- What is asked of the entries of a table in a well-formed store. -/
structure FitsIn (s : Store) (t : Table) : Prop where
  closed : ∀ e ∈ t.entries, ∀ w ∈ e.value, s.Knows w
  keyed : t.Keyed
  distinct : (t.entries.map Entry.key).Nodup

theorem WellFormed.fitsIn (hs : s.WellFormed) (h : HashId) : s.FitsIn (s.hash h) where
  closed e he w hw := by
    obtain ⟨i, hi⟩ := mem_values_iff.1 (List.mem_filterMap.2 ⟨e, he, hw⟩)
    exact hs.closed _ i w hi
  keyed := hs.keyed h
  distinct := hs.distinct h

instance {t : Table} : Decidable (s.FitsIn t) :=
  decidable_of_iff ((∀ e ∈ t.entries, ∀ w ∈ e.value, s.Knows w) ∧
      t.Keyed ∧ (t.entries.map Entry.key).Nodup)
    ⟨fun ⟨hc, hk, hd⟩ => ⟨hc, hk, hd⟩, fun ⟨hc, hk, hd⟩ => ⟨hc, hk, hd⟩⟩

/-- The containers that a store has are all there is to be asked for. -/
theorem wellFormed_iff :
    s.WellFormed ↔ (∀ cell ∈ s.arrays, ∀ w ∈ cell.elements, s.Knows w) ∧ ∀ t ∈ s.hashes, s.FitsIn t := by
  constructor
  · refine fun hs => ⟨fun cell hcell w hw => ?_, fun t ht => ?_⟩
    · obtain ⟨j, hj, rfl⟩ := Array.mem_iff_getElem.1 hcell
      refine hs.children (v := .array ⟨j⟩) ?_
      simpa [children, Value.node?, held, array, hj] using hw
    · obtain ⟨j, hj, rfl⟩ := Array.mem_iff_getElem.1 ht
      simpa [hash, hj] using hs.fitsIn ⟨j⟩
  · rintro ⟨ha, hh⟩
    have fits : ∀ j, s.FitsIn (s.hash j) := by
      intro j
      by_cases hj : j.index < s.hashes.size
      · exact hh _ (hash_mem hj)
      · rw [hash_of_le (Nat.not_lt.1 hj)]
        exact ⟨by simp, by simp [Table.Keyed], by simp⟩
    refine ⟨fun v i w hw => ?_, fun j => (fits j).keyed, fun j => (fits j).distinct⟩
    cases v with
    | array a =>
      exact ha _ (array_mem (knows_of_part? hw)) w (Array.mem_of_getElem? hw)
    | hash j =>
      obtain ⟨e, he, hv⟩ := Option.bind_eq_some_iff.1 hw
      exact (fits j).closed e (List.mem_of_getElem? he) w hv
    | _ => simp [part?] at hw

instance : Decidable s.WellFormed := decidable_of_iff _ wellFormed_iff.symm

/-! ## Extensions -/

structure Extends (s t : Store) : Prop where
  arrays_le : s.arrays.size ≤ t.arrays.size
  hashes_le : s.hashes.size ≤ t.hashes.size
  array : ∀ a : ArrayId, a.index < s.arrays.size → t.array a = s.array a
  hash : ∀ h : HashId, h.index < s.hashes.size → t.hash h = s.hash h
  scopes : t.scopes = s.scopes

namespace Extends

theorem refl (s : Store) : s.Extends s :=
  ⟨Nat.le_refl _, Nat.le_refl _, fun _ _ => rfl, fun _ _ => rfl, rfl⟩

theorem trans (hst : s.Extends t) (htu : t.Extends u) : s.Extends u where
  arrays_le := Nat.le_trans hst.arrays_le htu.arrays_le
  hashes_le := Nat.le_trans hst.hashes_le htu.hashes_le
  array a ha := (htu.array a (Nat.lt_of_lt_of_le ha hst.arrays_le)).trans (hst.array a ha)
  hash h hh := (htu.hash h (Nat.lt_of_lt_of_le hh hst.hashes_le)).trans (hst.hash h hh)
  scopes := htu.scopes.trans hst.scopes

theorem newArray (s : Store) (elements : Array Value) : s.Extends (s.newArray elements).2 where
  arrays_le := by simp [Store.newArray]
  hashes_le := Nat.le_refl _
  array a ha := array_newArray_of_lt ha
  hash _ _ := rfl
  scopes := rfl

theorem newHash (s : Store) (table : Table) : s.Extends (s.newHash table).2 where
  arrays_le := Nat.le_refl _
  hashes_le := by simp [Store.newHash]
  array _ _ := rfl
  hash h hh := hash_newHash_of_lt hh
  scopes := rfl

theorem knows (h : s.Extends t) (hv : s.Knows v) : t.Knows v := by
  cases v with
  | array a => exact Nat.lt_of_lt_of_le hv h.arrays_le
  | hash j => exact Nat.lt_of_lt_of_le hv h.hashes_le
  | ref slot index constant => exact Nat.lt_of_lt_of_le hv h.hashes_le
  | _ => trivial

theorem sameAt (h : s.Extends t) (hv : s.Knows v) : s.SameAt t v := by
  cases v with
  | array a => simp only [SameAt, h.array a hv]
  | hash j => simp [SameAt, h.hash j hv]
  | ref slot index constant => simp only [SameAt, slotValue?, entry?, h.hash slot.origin hv]
  | _ => trivial

theorem part? (h : s.Extends t) (hv : s.Knows v) (i : Nat) : t.part? v i = s.part? v i := (h.sameAt hv).part?

theorem isMarked (h : s.Extends t) (hv : s.Knows v) : t.isMarked v = s.isMarked v := by
  cases v with
  | array a => simp only [Store.isMarked, h.array a hv]
  | hash j => simp only [Store.isMarked, h.hash j hv]
  | _ => rfl

theorem contentWithin (h : s.Extends t) (hs : s.WellFormed) (hv : s.Knows v) :
    t.contentWithin k v = s.contentWithin k v :=
  contentWithin_congr (fun _ => h.sameAt) (fun _ _ _ => hs.children) hv

theorem content (h : s.Extends t) (hs : s.WellFormed) (hv : s.Knows v) : t.content v = s.content v :=
  content_congr (fun _ => h.sameAt) (fun _ _ _ => hs.children) hv

theorem within (h : s.Extends t) (hs : s.WellFormed) (hv : s.Knows v) : t.Within k v ↔ s.Within k v :=
  within_congr (fun _ => h.sameAt) (fun _ _ _ => hs.children) hv

theorem grounded (h : s.Extends t) (hs : s.WellFormed) (hv : s.Knows v) (hg : s.Grounded v) : t.Grounded v :=
  hg.imp fun _ hk => (h.within hs hv).2 hk

end Extends

theorem knows_newArray {elements : Array Value} (hv : v.isContainer) :
    (s.newArray elements).2.Knows v ↔ s.Knows v ∨ v = .array (s.newArray elements).1 := by
  cases v with
  | array a =>
    obtain ⟨i⟩ := a
    simp only [Knows, newArray, Array.size_push, Value.array.injEq, ArrayId.mk.injEq]
    omega
  | hash j => simp [Knows, newArray]
  | _ => simp [Value.isContainer] at hv

theorem knows_newHash {table : Table} (hv : v.isContainer) :
    (s.newHash table).2.Knows v ↔ s.Knows v ∨ v = .hash (s.newHash table).1 := by
  cases v with
  | array a => simp [Knows, newHash]
  | hash j =>
    obtain ⟨i⟩ := j
    simp only [Knows, newHash, Array.size_push, Value.hash.injEq, HashId.mk.injEq]
    omega
  | _ => simp [Value.isContainer] at hv

theorem hash_newHash_cases {t : Table} {i : HashId} :
    (s.newHash t).2.hash i = s.hash i ∨ (s.newHash t).2.hash i = t := by
  by_cases hi : (s.newHash t).2.Knows (.hash i)
  · rcases (knows_newHash rfl).1 hi with hi | hi
    · exact .inl (hash_newHash_of_lt hi)
    · cases hi
      exact .inr hash_newHash_self
  · left
    simp only [Knows, newHash, Array.size_push] at hi
    rw [hash_of_le (by simp [newHash]; omega), hash_of_le (by omega)]

theorem forall_newHash {P : Table → Prop} {t : Table} (hs : ∀ h, P (s.hash h)) (ht : P t) :
    ∀ h, P ((s.newHash t).2.hash h) := by
  intro h
  rcases hash_newHash_cases (s := s) (t := t) (i := h) with hi | hi <;> rw [hi]
  · exact hs h
  · exact ht

@[simp] theorem part?_newArray_self {elements : Array Value} :
    (s.newArray elements).2.part? (.array (s.newArray elements).1) i = elements[i]? := by
  rw [part?, array_newArray_self]

@[simp] theorem part?_newHash_self {table : Table} :
    (s.newHash table).2.part? (.hash (s.newHash table).1) i = table.entries[i]?.bind Entry.value := by
  rw [part?, hash_newHash_self]

/-- Apart from the new container, everything new is nothing, and so unmarked. -/
theorem isMarked_newArray {elements : Array Value} (h : ¬ s.Knows v) :
    (s.newArray elements).2.isMarked v = false := by
  by_cases hv : v = .array (s.newArray elements).1
  · rw [hv, isMarked, array_newArray_self]
  · by_cases hc : v.isContainer
    · exact isMarked_of_not_knows fun hk => ((knows_newArray hc).1 hk).elim h hv
    · cases v <;> simp_all [Value.isContainer, isMarked]

theorem isMarked_newHash {table : Table} (ht : table.marked = false) (h : ¬ s.Knows v) :
    (s.newHash table).2.isMarked v = false := by
  by_cases hv : v = .hash (s.newHash table).1
  · rw [hv, isMarked, hash_newHash_self, ht]
  · by_cases hc : v.isContainer
    · exact isMarked_of_not_knows fun hk => ((knows_newHash hc).1 hk).elim h hv
    · cases v <;> simp_all [Value.isContainer, isMarked]

theorem WellFormed.newArray (hs : s.WellFormed) {elements : Array Value} (h : ∀ w ∈ elements, s.Knows w) :
    (s.newArray elements).2.WellFormed where
  closed v i w hw := by
    have hk := Extends.newArray s elements
    rcases (knows_newArray (isContainer_of_part? hw)).1 (knows_of_part? hw) with hv | rfl
    · rw [hk.part? hv] at hw
      exact hk.knows (hs.closed v i w hw)
    · rw [part?_newArray_self] at hw
      exact hk.knows (h w (Array.mem_of_getElem? hw))
  keyed := hs.keyed
  distinct := hs.distinct

theorem WellFormed.newHash (hs : s.WellFormed) {table : Table} (ht : s.FitsIn table) :
    (s.newHash table).2.WellFormed := by
  have hk := Extends.newHash s table
  have fits : ∀ j, s.FitsIn ((s.newHash table).2.hash j) := forall_newHash hs.fitsIn ht
  refine ⟨?_, fun j => (fits j).keyed, fun j => (fits j).distinct⟩
  intro v i w hw
  rcases (knows_newHash (isContainer_of_part? hw)).1 (knows_of_part? hw) with hv | rfl
  · rw [hk.part? hv] at hw
    exact hk.knows (hs.closed v i w hw)
  · rw [part?_newHash_self] at hw
    obtain ⟨e, he, hv⟩ := Option.bind_eq_some_iff.1 hw
    exact hk.knows (ht.closed e (List.mem_of_getElem? he) w hv)

/-! ## Changes of one container -/

@[simp] theorem knows_modifyArray {a : ArrayId} {f : ArrayCell → ArrayCell} :
    (s.modifyArray a f).Knows v ↔ s.Knows v := by
  cases v <;> simp [Knows, modifyArray]

@[simp] theorem knows_modifyHash {h : HashId} {f : Table → Table} : (s.modifyHash h f).Knows v ↔ s.Knows v := by
  cases v <;> simp [Knows, modifyHash]

theorem array_modifyArray_cases {a b : ArrayId} {f : ArrayCell → ArrayCell} :
    (s.modifyArray a f).array b = s.array b ∨ b = a ∧ (s.modifyArray a f).array b = f (s.array b) := by
  by_cases hb : b = a
  · subst hb
    by_cases hlt : b.index < s.arrays.size
    · exact .inr ⟨rfl, array_modifyArray_self hlt⟩
    · left
      rw [array_of_le (by simpa [modifyArray] using hlt), array_of_le (Nat.not_lt.1 hlt)]
  · exact .inl (array_modifyArray_of_ne hb)

theorem hash_modifyHash_cases {h i : HashId} {f : Table → Table} :
    (s.modifyHash h f).hash i = s.hash i ∨ i = h ∧ (s.modifyHash h f).hash i = f (s.hash i) := by
  by_cases hi : i = h
  · subst hi
    by_cases hlt : i.index < s.hashes.size
    · exact .inr ⟨rfl, hash_modifyHash_self hlt⟩
    · left
      rw [hash_of_le (by simpa [modifyHash] using hlt), hash_of_le (Nat.not_lt.1 hlt)]
  · exact .inl (hash_modifyHash_of_ne hi)

theorem WellFormed.modifyArray (hs : s.WellFormed) {a : ArrayId} {f : ArrayCell → ArrayCell}
    (h : ∀ w ∈ (f (s.array a)).elements, s.Knows w) : (s.modifyArray a f).WellFormed where
  closed v i w hw := by
    rw [knows_modifyArray]
    cases v with
    | array b =>
      rcases array_modifyArray_cases (s := s) (a := a) (b := b) (f := f) with hb | ⟨rfl, hb⟩ <;>
        simp only [part?, hb] at hw
      · exact hs.closed (.array b) i w hw
      · exact h w (Array.mem_of_getElem? hw)
    | hash j => exact hs.closed (.hash j) i w hw
    | _ => simp [part?] at hw
  keyed := hs.keyed
  distinct := hs.distinct

theorem WellFormed.modifyHash (hs : s.WellFormed) {h : HashId} {f : Table → Table}
    (hf : s.FitsIn (f (s.hash h))) : (s.modifyHash h f).WellFormed := by
  have fits : ∀ j, s.FitsIn ((s.modifyHash h f).hash j) := by
    intro j
    rcases hash_modifyHash_cases (s := s) (h := h) (i := j) (f := f) with hj | ⟨rfl, hj⟩ <;> rw [hj]
    · exact hs.fitsIn j
    · exact hf
  refine ⟨fun v i w hw => ?_, fun j => (fits j).keyed, fun j => (fits j).distinct⟩
  rw [knows_modifyHash]
  cases v with
  | array b => exact hs.closed (.array b) i w hw
  | hash j =>
    obtain ⟨e, he, hv⟩ := Option.bind_eq_some_iff.1 hw
    exact (fits j).closed e (List.mem_of_getElem? he) w hv
  | _ => simp [part?] at hw

namespace FitsIn

variable {table : Table} {key : Key}

theorem create (h : s.FitsIn table) {index : Value} {value : Option Value} (hk : index.key? = some key)
    (hnone : table.find? key = none) (hv : ∀ w, value = some w → s.Knows w) :
    s.FitsIn (table.create key index value) where
  closed e he w hw := by
    rcases List.mem_append.1 he with he | he
    · exact h.closed e he w hw
    · rw [List.mem_singleton] at he
      subst he
      exact hv w hw
  keyed := h.keyed.create hk
  distinct := Table.Distinct.create h.distinct hnone

theorem assign (h : s.FitsIn table) {value : Value} (hv : s.Knows value) : s.FitsIn (table.assign key value) where
  closed e he w hw := by
    obtain ⟨f, hf, rfl⟩ := List.mem_map.1 he
    split at hw
    · cases hw
      exact hv
    · exact h.closed f hf w hw
  keyed := h.keyed.assign
  distinct := Table.Distinct.assign h.distinct

theorem erase (h : s.FitsIn table) : s.FitsIn (table.erase key) where
  closed e he := h.closed e (List.mem_filter.1 he).1
  keyed := h.keyed.erase
  distinct := Table.Distinct.erase h.distinct

end FitsIn

/-! ## Changes that leave all contents -/

/-- The stores differ in marks and scopes only. -/
structure SameContents (s t : Store) : Prop where
  arrays_size : t.arrays.size = s.arrays.size
  hashes_size : t.hashes.size = s.hashes.size
  elements : ∀ a, (t.array a).elements = (s.array a).elements
  entries : ∀ h, (t.hash h).entries = (s.hash h).entries
  nextGeneration : ∀ h, (t.hash h).nextGeneration = (s.hash h).nextGeneration

namespace SameContents

theorem knows (h : s.SameContents t) : t.Knows v ↔ s.Knows v := by
  cases v <;> simp [Knows, h.arrays_size, h.hashes_size]

theorem sameAt (h : s.SameContents t) (v : Value) : s.SameAt t v := by
  cases v with
  | array a => exact h.elements a
  | hash j => exact ⟨h.entries j, h.nextGeneration j⟩
  | ref slot index constant => simp only [SameAt, slotValue?, entry?, Table.find?, h.entries]
  | _ => trivial

theorem part? (h : s.SameContents t) : t.part? v i = s.part? v i := (h.sameAt v).part?

theorem wellFormed (h : s.SameContents t) (hs : s.WellFormed) : t.WellFormed where
  closed v i w hw := h.knows.2 (hs.closed v i w (h.part? ▸ hw))
  keyed j e he := hs.keyed j e (h.entries j ▸ he)
  distinct j := h.entries j ▸ hs.distinct j

theorem acyclic (h : s.SameContents t) (hs : s.Acyclic) : t.Acyclic := by
  refine hs.of_steps fun m n ⟨w, hw, hn⟩ => ⟨w, ?_, hn⟩
  cases m with
  | array a => rwa [← (h.sameAt (.array a)).held rfl]
  | hash j => rwa [← (h.sameAt (.hash j)).held rfl]
  | slot slot => rwa [← (h.sameAt (.ref slot .void false)).held rfl]

theorem content (h : s.SameContents t) : t.content v = s.content v :=
  content_congr (P := fun _ => True) (fun v _ => h.sameAt v) (fun _ _ _ _ => trivial) trivial

theorem modifyArray {a : ArrayId} {f : ArrayCell → ArrayCell} (hf : ∀ cell, (f cell).elements = cell.elements) :
    s.SameContents (s.modifyArray a f) where
  arrays_size := by simp [Store.modifyArray]
  hashes_size := rfl
  elements b := by
    rcases array_modifyArray_cases (s := s) (a := a) (b := b) (f := f) with hb | ⟨-, hb⟩ <;> rw [hb]
    exact hf _
  entries _ := rfl
  nextGeneration _ := rfl

theorem modifyHash {h : HashId} {f : Table → Table} (hf : ∀ t, (f t).entries = t.entries)
    (hn : ∀ t, (f t).nextGeneration = t.nextGeneration) : s.SameContents (s.modifyHash h f) where
  arrays_size := rfl
  hashes_size := by simp [Store.modifyHash]
  elements _ := rfl
  entries j := by
    rcases hash_modifyHash_cases (s := s) (h := h) (i := j) (f := f) with hj | ⟨-, hj⟩ <;> rw [hj]
    exact hf _
  nextGeneration j := by
    rcases hash_modifyHash_cases (s := s) (h := h) (i := j) (f := f) with hj | ⟨-, hj⟩ <;> rw [hj]
    exact hn _

theorem refl (s : Store) : s.SameContents s := ⟨rfl, rfl, fun _ => rfl, fun _ => rfl, fun _ => rfl⟩

theorem mark (s : Store) (v : Value) : s.SameContents (s.mark v) := by
  cases v with
  | array a => exact modifyArray fun _ => rfl
  | hash j => exact modifyHash (fun _ => rfl) fun _ => rfl
  | _ => exact refl s

theorem unmark (s : Store) (v : Value) : s.SameContents (s.unmark v) := by
  cases v with
  | array a => exact modifyArray fun _ => rfl
  | hash j => exact modifyHash (fun _ => rfl) fun _ => rfl
  | _ => exact refl s

theorem modifyScope (s : Store) (e : ScopeId) (f : Scope → Scope) : s.SameContents (s.modifyScope e f) :=
  ⟨rfl, rfl, fun _ => rfl, fun _ => rfl, fun _ => rfl⟩

theorem newScope (s : Store) (parent : Option ScopeId) : s.SameContents (s.newScope parent).2 :=
  ⟨rfl, rfl, fun _ => rfl, fun _ => rfl, fun _ => rfl⟩

end SameContents

/-- A value is grounded if all that is one step after it is. -/
theorem grounded_of_children (h : ∀ w ∈ s.children v, s.Grounded w) : s.Grounded v :=
  ⟨s.span + 1, fun w hw => within_span (h w hw)⟩

theorem grounded_of_node?_none (h : v.node? = none) : s.Grounded v := ⟨0, h⟩

end Store

end CopyOnBind
