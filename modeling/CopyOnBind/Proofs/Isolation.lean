import CopyOnBind.Proofs.Snapshot
import CopyOnBind.Store.Container
import Mathlib.Data.List.Induction
/-!
# Isolation of copies

A copy is a tree of new containers, so a write to a container that was there
before cannot be seen in it, and a write to a container of the copy cannot be
seen in anything that was there before. `Later` says what may happen to the
store after the copy; what it leaves untouched reads the same
(`Untouched.content`).
-/

namespace CopyOnBind

open Relation

/-! ## Paths into a value -/

namespace Store

variable {s t u : Store} {v w c : Value} {path path' : List Nat}

/-- The value at the end of a path of places. -/
def follow? (s : Store) (v : Value) : List Nat → Option Value
  | [] => some v
  | i :: path => (s.part? v i).bind (s.follow? · path)

theorem follow?_concat (i : Nat) : s.follow? v (path ++ [i]) = (s.follow? v path).bind (s.part? · i) := by
  induction path generalizing v with
  | nil => cases h : s.part? v i <;> simp [follow?, h]
  | cons j path ih =>
    cases h : s.part? v j with
    | none => simp [follow?, h]
    | some w => simpa [follow?, h] using ih

theorem Grafts.fresh_of_follow? (h : s.Grafts t [some c]) (hw : t.follow? c path = some w) : s.Fresh t w := by
  induction path using List.reverseRecOn generalizing w with
  | nil =>
    cases hw
    exact h.root c (by simp)
  | append_singleton path i ih =>
    rw [follow?_concat, Option.bind_eq_some_iff] at hw
    obtain ⟨u, hu, hw⟩ := hw
    exact h.part u i w ((ih hu).not_knows (isContainer_of_part? hw)) hw

/-- A container of a new tree is met on one path only. -/
theorem Grafts.path_unique (h : s.Grafts t [some c]) (hc : w.isContainer) (hw : t.follow? c path = some w)
    (hw' : t.follow? c path' = some w) : path = path' := by
  -- the last container before the end of a path is new
  have last : ∀ path i w, t.follow? c (path ++ [i]) = some w →
      ∃ u, t.follow? c path = some u ∧ ¬ s.Knows u ∧ t.part? u i = some w := by
    intro path i w hw
    rw [follow?_concat, Option.bind_eq_some_iff] at hw
    obtain ⟨u, hu, hw⟩ := hw
    exact ⟨u, hu, (h.fresh_of_follow? hu).not_knows (isContainer_of_part? hw), hw⟩
  induction path using List.reverseRecOn generalizing w path' with
  | nil =>
    rcases List.eq_nil_or_concat path' with rfl | ⟨path', i, rfl⟩
    · rfl
    · cases hw
      obtain ⟨u, -, hu, hi⟩ := last path' i c (by simpa using hw')
      exact absurd (by simp) (h.loose u i c hu hi hc)
  | append_singleton path i ih =>
    obtain ⟨u, hpath, hu, hi⟩ := last path i w hw
    rcases List.eq_nil_or_concat path' with rfl | ⟨path', i', rfl⟩
    · cases hw'
      exact absurd (by simp) (h.loose u i c hu hi hc)
    · rw [List.concat_eq_append] at hw' ⊢
      obtain ⟨u', hpath', hu', hi'⟩ := last path' i' w hw'
      obtain ⟨rfl, rfl⟩ := h.partOnce u u' i i' w hu hu' hi hi' hc
      rw [ih (isContainer_of_part? hi) hpath hpath']

end Store

/-! ## Writes -/

inductive Write where
  | push (a : ArrayId) (value : Value)
  | setElement (a : ArrayId) (index : Nat) (value : Value)
  | insert (h : HashId) (key value : Value)
  | remove (h : HashId) (key : Value)
  | allocate (h : HashId) (index : Value)
  | deallocate (h : HashId) (index : Value)
  | setSlot (slot : Slot) (value : Value)
  | assign (r : Reference) (value : Value)

namespace Write

/-- The container that is written. -/
def target : Write → Value
  | push a _ | setElement a _ _ => .array a
  | insert h _ _ | remove h _ | allocate h _ | deallocate h _ => .hash h
  | setSlot slot _ => .hash slot.origin
  | assign r _ => .hash r.slot.origin

/-- The store after a write, whether it was refused or not. -/
def apply (s : Store) : Write → Option Store
  | push a value => s.push a value
  | setElement a index value => (s.setElement a index value).2
  | insert h key value => (s.insertEntry h key value).2
  | remove h key => (s.removeEntry h key).2
  | allocate h index => (s.allocate h index).2
  | deallocate h index => (s.deallocate h index).2
  | setSlot slot value => (s.setSlot slot value).map Prod.snd
  | assign r value => (s.assignReference r value).map Prod.snd

end Write

namespace Store

variable {s t u : Store} {W : Value → Prop} {v w c : Value}

/-- What may happen to a store when only containers in `W` are written: writes
to them, and new containers with any content. -/
inductive Later (W : Value → Prop) (s : Store) : Store → Prop
  | write (x : Write) (t : Store) : W x.target → x.apply s = some t → Later W s t
  | newArray (elements : Array Value) : Later W s (s.newArray elements).2
  | newHash (pairs : List (Value × Value)) : Later W s (s.newHashOf pairs).2

/-- Containers of `s` outside `W` are the same in `t`. -/
structure Untouched (W : Value → Prop) (s t : Store) : Prop where
  arrays_le : s.arrays.size ≤ t.arrays.size
  hashes_le : s.hashes.size ≤ t.hashes.size
  array : ∀ a : ArrayId, a.index < s.arrays.size → ¬ W (.array a) → t.array a = s.array a
  hash : ∀ h : HashId, h.index < s.hashes.size → ¬ W (.hash h) → t.hash h = s.hash h
  keyed : s.Keyed → t.Keyed

namespace Untouched

theorem refl (s : Store) : s.Untouched W s :=
  ⟨Nat.le_refl _, Nat.le_refl _, fun _ _ _ => rfl, fun _ _ _ => rfl, id⟩

theorem trans (hst : s.Untouched W t) (htu : t.Untouched W u) : s.Untouched W u where
  arrays_le := Nat.le_trans hst.arrays_le htu.arrays_le
  hashes_le := Nat.le_trans hst.hashes_le htu.hashes_le
  array a ha hW := (htu.array a (Nat.lt_of_lt_of_le ha hst.arrays_le) hW).trans (hst.array a ha hW)
  hash h hh hW := (htu.hash h (Nat.lt_of_lt_of_le hh hst.hashes_le) hW).trans (hst.hash h hh hW)
  keyed h := htu.keyed (hst.keyed h)

theorem of_extends (h : s.Extends t) (ht : t.Keyed) : s.Untouched W t :=
  ⟨h.arrays_le, h.hashes_le, fun a ha _ => h.array a ha, fun i hi _ => h.hash i hi, fun _ => ht⟩

theorem modifyArray {a : ArrayId} {f : ArrayCell → ArrayCell} (ha : W (.array a)) :
    s.Untouched W (s.modifyArray a f) where
  arrays_le := by simp [Store.modifyArray]
  hashes_le := Nat.le_refl _
  array b _ hb := array_modifyArray_of_ne (by rintro rfl; exact hb ha)
  hash _ _ _ := rfl
  keyed := id

theorem modifyHash {h : HashId} {f : Table → Table} (hh : W (.hash h))
    (hf : (s.hash h).Keyed → (f (s.hash h)).Keyed) : s.Untouched W (s.modifyHash h f) where
  arrays_le := Nat.le_refl _
  hashes_le := by simp [Store.modifyHash]
  array _ _ _ := rfl
  hash i _ hi := hash_modifyHash_of_ne (by rintro rfl; exact hi hh)
  keyed hs i := by
    rcases hash_modifyHash_cases (s := s) (h := h) (i := i) (f := f) with hi | ⟨rfl, hi⟩ <;> rw [hi]
    · exact hs i
    · exact hf (hs i)

end Untouched

theorem keyed_insertValue {t : Table} (key value : Value) (h : t.Keyed) : (t.insertValue key value).2.Keyed := by
  unfold Table.insertValue Table.insert
  split
  · exact h
  · next k hk =>
    cases t.find? k with
    | none => exact h.create hk
    | some e => exact h.assign

theorem keyed_ofPairs {pairs : List (Value × Value)} {t u : Table} (ht : t.Keyed)
    (h : pairs.foldlM (fun t (key, value) =>
      match t.insertValue key value with
      | (.ok _, t) => .ok t
      | (.error e, _) => .error e.toFault) t = (.ok u : Except Fault Table)) : u.Keyed := by
  induction pairs generalizing t with
  | nil =>
    cases h
    exact ht
  | cons p pairs ih =>
    rw [List.foldlM_cons] at h
    have hkeyed := keyed_insertValue p.1 p.2 ht
    rcases hp : t.insertValue p.1 p.2 with ⟨_ | _, t'⟩ <;> simp only [hp] at h hkeyed
    · cases h
    · exact ih hkeyed h

theorem untouched_setSlot {slot : Slot} {r : Except SlotError Unit} (hW : W (.hash slot.origin))
    (h : s.setSlot slot v = some (r, t)) : s.Untouched W t := by
  simp only [setSlot, Option.bind_eq_bind, Option.bind_eq_some_iff] at h
  obtain ⟨b, -, h⟩ := h
  split at h
  · cases h
    exact .refl s
  · split at h <;> cases h
    · exact .modifyHash hW fun h => h.assign
    · exact .refl s

theorem Write.untouched {x : Write} (hW : W x.target) (h : x.apply s = some t) : s.Untouched W t := by
  cases x with
  | push a value =>
    cases h
    exact .modifyArray hW
  | setElement a index value =>
    cases h
    unfold setElement
    split
    · exact .refl s
    · exact .modifyArray hW
  | insert i key value =>
    cases h
    have hkeyed := keyed_insertValue (t := s.hash i) key value
    unfold insertEntry
    rcases hins : (s.hash i).insertValue key value with ⟨_ | _, table⟩ <;> simp only [hins] at hkeyed ⊢
    · exact .refl s
    · exact .modifyHash hW hkeyed
  | remove i key =>
    cases h
    unfold removeEntry
    split
    · exact .refl s
    · exact .modifyHash hW fun h => h.erase
  | allocate i index =>
    cases h
    unfold allocate
    split
    · exact .refl s
    · next k hk =>
      split
      · exact .refl s
      · exact .modifyHash hW fun h => h.create hk
  | deallocate i index =>
    cases h
    unfold deallocate
    split
    · exact .refl s
    · exact .modifyHash hW fun h => h.erase
  | setSlot slot value =>
    obtain ⟨⟨r, u⟩, hr, rfl⟩ := Option.map_eq_some_iff.1 h
    exact untouched_setSlot hW hr
  | assign r value =>
    -- an assignment through a live reference is a write to its slot
    obtain ⟨⟨e, u⟩, hr, rfl⟩ := Option.map_eq_some_iff.1 h
    unfold assignReference at hr
    split at hr
    · cases hr
      exact .refl s
    · simp only [Option.bind_eq_bind, Option.bind_eq_some_iff] at hr
      obtain ⟨⟨e', u'⟩, hset, hr⟩ := hr
      cases hr
      exact untouched_setSlot hW hset

theorem Later.untouched (h : s.Later W t) : s.Untouched W t := by
  cases h with
  | write x t hW hx => exact Write.untouched hW hx
  | newArray elements => exact ⟨(Extends.newArray s elements).arrays_le, Nat.le_refl _,
      fun a ha _ => array_newArray_of_lt ha, fun _ _ _ => rfl, id⟩
  | newHash pairs =>
    unfold newHashOf
    split
    · exact .refl s
    · next table htable =>
      have ht : table.Keyed := keyed_ofPairs (by simp [Table.Keyed]) htable
      have hk := Extends.newHash s table
      refine ⟨Nat.le_refl _, hk.hashes_le, fun _ _ _ => rfl, fun i hi _ => hash_newHash_of_lt hi, fun hs => ?_⟩
      exact forall_newHash hs ht

theorem untouched_of_later (h : ReflTransGen (Later W) s t) : s.Untouched W t := by
  induction h with
  | refl => exact .refl s
  | tail _ hstep ih => exact ih.trans hstep.untouched

/-! ## Isolation -/

/-- What is read without meeting `W` reads the same. -/
theorem Untouched.inspect (h : s.Untouched W t) (hs : s.Keyed) {P : Value → Prop}
    (hsame : ∀ v, P v → s.SameAt t v) (hP : ∀ v, P v → ∀ w ∈ s.children v, P w) (hv : P v) (hg : s.Grounded v) :
    ∃ text, s.inspect v = some text ∧ t.inspect v = some text := by
  obtain ⟨T, hT⟩ := exists_content_iff.2 hg
  refine ⟨T.inspect, inspect_of_content hs hT, inspect_of_content (h.keyed hs) ?_⟩
  rw [content_congr hsame hP hv, hT]

/-- The trees of a copy do not change when other containers are written. -/
theorem Grafts.inspect (hg : s.Grafts t [some c]) (h : t.Untouched s.Knows u) :
    ∃ text, t.inspect c = some text ∧ u.inspect c = some text := by
  refine h.inspect hg.wellFormed.keyed (P := s.Fresh t) (fun v hv => ?_) (fun v hv w hw => ?_) (hg.root c (by simp)) ?_
  · cases v with
    | array a => simp only [SameAt, h.array a hv.knows (hv.not_knows rfl)]
    | hash j => simp [SameAt, h.hash j hv.knows (hv.not_knows rfl)]
    | ref slot index constant =>
      rcases hv with hv | ⟨hc, -⟩
      · simp [Value.node?] at hv
      · simp [Value.isContainer] at hc
    | _ => trivial
  · rcases hv with hv | ⟨hc, hs, -⟩
    · simp [children_of_node?_none hv] at hw
    · obtain ⟨i, hi⟩ := (mem_children_iff hc).1 hw
      exact hg.part v i w hs hi
  · rcases hg.root c (by simp) with hc | ⟨hc, hs, ht⟩
    · exact grounded_of_node?_none hc
    · exact hg.grounded c hc hs ht

/-- What was there before does not change when new containers are written. -/
theorem WellFormed.inspect_untouched (hs : s.WellFormed) (h : s.Untouched (fun x => ¬ s.Knows x) t) (hv : s.Knows v)
    (hg : s.Grounded v) : ∃ text, s.inspect v = some text ∧ t.inspect v = some text := by
  refine h.inspect hs.keyed (P := s.Knows) (fun v hv => ?_) (fun v _ w => hs.children) hv hg
  cases v with
  | array a => simp only [SameAt, h.array a hv (not_not_intro hv)]
  | hash j => simp [SameAt, h.hash j hv (not_not_intro hv)]
  | ref slot index constant =>
    simp only [SameAt, slotValue?, entry?, h.hash slot.origin hv (not_not_intro hv)]
  | _ => trivial

/-- A copy is an isolated snapshot: new containers only, each on one path and
no reference among them, with the resolved content of the original; what was
there before is as it was. Later writes on either side are not seen on the other. -/
theorem copy_isolated (hs : s.WellFormed) (ha : s.Acyclic) (hv : s.Knows v) (hm : s.isMarked v = false) :
    ∃ c t T, s.copy v = some (c, t) ∧ s.Extends t ∧ s.content v = some T ∧ t.content c = some T.resolve ∧
      (∀ path w, t.follow? c path = some w → w.node? = none ∨ w.isContainer ∧ ¬ s.Knows w ∧ t.Knows w) ∧
      (∀ path path' w, w.isContainer → t.follow? c path = some w → t.follow? c path' = some w → path = path') ∧
      (∀ u, ReflTransGen (Later s.Knows) t u → ∃ text, t.inspect c = some text ∧ u.inspect c = some text) ∧
      ∀ u, ReflTransGen (Later fun x => ¬ s.Knows x) t u →
        ∀ w, s.Knows w → ∃ text, s.inspect w = some text ∧ u.inspect w = some text := by
  obtain ⟨c, t, T, hc, hg, hT, hres⟩ := copy_of_unmarked hs hv (ha.grounded v) hm
  refine ⟨c, t, T, hc, hg.kept, hT, hres, fun path w hw => hg.fresh_of_follow? hw,
    fun path path' w hwc hw hw' => hg.path_unique hwc hw hw', fun u hu => ?_, fun u hu w hw => ?_⟩
  · exact hg.inspect (untouched_of_later hu)
  · have hst : s.Untouched (fun x => ¬ s.Knows x) t := .of_extends hg.kept hg.wellFormed.keyed
    exact hs.inspect_untouched (hst.trans (untouched_of_later hu)) hw (ha.grounded w)

/-- Two elements that are one array, and references to an entry with a value and to one without. -/
theorem copy_isolated_shared :
    let s : Store := {
      arrays := #[{ elements := #[.int 1] },
        { elements := #[.array ⟨0⟩, .array ⟨0⟩, .ref ⟨⟨0⟩, .int 0, 0⟩ (.int 0) false,
          .ref ⟨⟨0⟩, .int 1, 1⟩ (.int 1) true] }]
      hashes := #[{ entries := [⟨.int 0, .int 0, some (.array ⟨0⟩), 0⟩, ⟨.int 1, .int 1, none, 1⟩], nextGeneration := 2 }] }
    s.WellFormed ∧ s.Acyclic ∧ s.Knows (.array ⟨1⟩) ∧ s.isMarked (.array ⟨1⟩) = false ∧
      ∃ c t, s.copy (.array ⟨1⟩) = some (c, t) ∧
        ∀ u, ReflTransGen (Later s.Knows) t u → ∃ text, t.inspect c = some text ∧ u.inspect c = some text := by
  intro s
  have hs : s.WellFormed := by decide +kernel
  have ha : s.Acyclic := by decide +kernel
  have hv : s.Knows (.array ⟨1⟩) := by decide +kernel
  obtain ⟨c, t, -, hc, -, -, -, -, -, hlater, -⟩ := copy_isolated hs ha hv rfl
  exact ⟨hs, ha, hv, rfl, c, t, hc, hlater⟩

end Store

end CopyOnBind
