import CopyOnBind.Proofs.Graph
import CopyOnBind.Store.Inspect
import Mathlib.Data.List.Forall2
/-!
# Contents

The content of a value is what a reader can learn from it without asking which
container is which: a tree of scalars, callables, arrays, hashes and references,
each with what it leads to. `contentWithin` reads it from a store.

The content decides the inspection text (`inspectWithin_of_content`), and
reading it from two stores that agree on all a walk can meet gives the same
tree (`contentWithin_congr`). `resolve` is the content with every reference
replaced by the content of its target.
-/

namespace CopyOnBind

/-! ## Lists of partial results -/

theorem mapM_eq_some {α β : Type} {f : α → Option β} {l : List α} {l' : List β} :
    l.mapM f = some l' ↔ List.Forall₂ (fun a b => f a = some b) l l' := by
  induction l generalizing l' with
  | nil => simp [List.forall₂_nil_left_iff, eq_comm]
  | cons a l ih =>
    simp only [List.mapM_cons, Option.bind_eq_bind, Option.bind_eq_some_iff, Option.pure_def,
      Option.some.injEq, List.forall₂_cons_left_iff]
    constructor
    · rintro ⟨b, hb, bs, hbs, rfl⟩
      exact ⟨b, bs, hb, ih.1 hbs, rfl⟩
    · rintro ⟨b, bs, hb, hbs, rfl⟩
      exact ⟨b, hb, bs, ih.2 hbs, rfl⟩

theorem isSome_mapM {α β : Type} {f : α → Option β} {l : List α} :
    (l.mapM f).isSome ↔ ∀ a ∈ l, (f a).isSome := by
  induction l with
  | nil => simp
  | cons a l ih =>
    cases ha : f a <;> cases hl : l.mapM f <;> simp_all [List.mapM_cons]

theorem mapM_congr {α β : Type} {f g : α → Option β} {l : List α} (h : ∀ a ∈ l, f a = g a) :
    l.mapM f = l.mapM g := by
  induction l with
  | nil => rfl
  | cons a l ih =>
    rw [List.mapM_cons, List.mapM_cons, h a (by simp), ih fun b hb => h b (by simp [hb])]

/-- Results of the elements that are there carry over to more steps. -/
theorem mapM_mono {α β : Type} {f g : α → Option β} {l : List α} {l' : List β}
    (h : ∀ a b, f a = some b → g a = some b) (hl : l.mapM f = some l') : l.mapM g = some l' :=
  mapM_eq_some.2 ((mapM_eq_some.1 hl).imp h)

/-! ## Trees -/

/-- What an entry is, apart from its value. -/
structure Head where
  key : Key
  written : Value
  generation : UInt64
deriving DecidableEq, Repr

def Entry.head (e : Entry) : Head := ⟨e.key, e.written, e.generation⟩

inductive Content where
  /-- A scalar or a callable. -/
  | flat (v : Value)
  /-- No value: an entry that has none, or a reference to nothing. -/
  | unset
  | array (items : List Content)
  | hash (heads : List Head) (nextGeneration : UInt64) (values : List Content)
  | ref (constant : Bool) (target : Content)

namespace Content

/-- The content with the content of its target in the place of every reference. -/
def resolve : Content → Content
  | flat v => flat v
  | unset => unset
  | array items => array (items.map resolve)
  | hash heads next values => hash heads next (values.map resolve)
  | ref _ unset => flat .void
  | ref _ target => target.resolve

/-- The text that shows a content. -/
def inspect : Content → String
  | flat v => v.inspectFlat
  | unset => Value.void.inspectFlat
  | array items => "[" ++ ", ".intercalate (items.map inspect) ++ "]"
  | hash heads _ values =>
    let rows := (heads.zip (values.map inspect)).mergeSort fun x y => x.1.key.le y.1.key
    "\x7b " ++ ", ".intercalate (rows.map fun x => x.1.written.inspectFlat ++ ": " ++ x.2) ++ " \x7d"
  | ref constant target => (if constant then "Const " else "") ++ "Reference: " ++ target.inspect

/-- The content of a value that may be absent, given those of values. -/
def ofOption (content : Value → Option Content) : Option Value → Option Content
  | none => some unset
  | some v => content v

end Content

theorem Value.key?_eq_iff {v w : Value} (hv : v.key?.isSome) : v.key? = w.key? ↔ v = w := by
  cases v <;> cases w <;> simp_all [key?]

namespace Table

/-- Every entry is filed under the key of its key value. -/
def Keyed (t : Table) : Prop := ∀ e ∈ t.entries, e.written.key? = some e.key

instance (t : Table) : Decidable t.Keyed := inferInstanceAs (Decidable (∀ e ∈ t.entries, _))

namespace Keyed

variable {t : Table} {key : Key} {index value : Value}

theorem create {value : Option Value} (h : t.Keyed) (hk : index.key? = some key) : (t.create key index value).Keyed := by
  intro e he
  rcases List.mem_append.1 he with he | he
  · exact h e he
  · rw [List.mem_singleton] at he
    subst he
    exact hk

theorem assign (h : t.Keyed) : (t.assign key value).Keyed := by
  intro e he
  obtain ⟨f, hf, rfl⟩ := List.mem_map.1 he
  split <;> exact h f hf

theorem erase (h : t.Keyed) : (t.erase key).Keyed := fun e he => h e (List.mem_filter.1 he).1

end Keyed

theorem contains_iff {t : Table} {k : Key} : t.contains k = true ↔ k ∈ t.entries.map Entry.key := by
  simp [contains, find?, List.find?_isSome]

/-- Of an entry that is written only the value changes. -/
theorem map_assign {β : Type} {t : Table} {key : Key} {value : Value} {f : Entry → β}
    (hf : ∀ e w, f { e with value := w } = f e) : (t.assign key value).entries.map f = t.entries.map f := by
  rw [assign, List.map_map]
  refine List.map_congr_left fun e _ => ?_
  rw [Function.comp]
  split
  · exact hf e _
  · rfl

/-- No two entries are filed under one key. -/
def Distinct (t : Table) : Prop := (t.entries.map Entry.key).Nodup

namespace Distinct

variable {t : Table} {key : Key} {index value : Value}

theorem create {value : Option Value} (h : t.Distinct) (hnone : t.find? key = none) :
    (t.create key index value).Distinct := by
  unfold Distinct at h ⊢
  simp only [Table.create, List.map_append, List.map_cons, List.map_nil, List.nodup_append, List.nodup_cons,
    List.not_mem_nil, not_false_eq_true, List.nodup_nil, and_self, true_and, List.mem_singleton, forall_eq]
  refine ⟨h, fun k hk => ?_⟩
  obtain ⟨e, he, rfl⟩ := List.mem_map.1 hk
  simpa using List.find?_eq_none.1 hnone e he

theorem assign (h : t.Distinct) : (t.assign key value).Distinct := by
  rw [Distinct, map_assign fun _ _ => rfl]
  exact h

theorem erase (h : t.Distinct) : (t.erase key).Distinct := h.sublist (List.filter_sublist.map Entry.key)

end Distinct

/-- Every entry is filed under the key of its key value, and is the only one under this key. -/
structure Filed (t : Table) : Prop where
  keyed : t.Keyed
  distinct : t.Distinct

/-- Values and the mark do not count. -/
theorem Filed.of_heads {t u : Table} (hu : u.Filed) (heads : t.entries.map Entry.head = u.entries.map Entry.head) :
    t.Filed := by
  constructor
  · intro e he
    obtain ⟨f, hf, heq⟩ := List.mem_map.1 (heads ▸ List.mem_map_of_mem (f := Entry.head) he)
    simp only [Entry.head, Head.mk.injEq] at heq
    rw [← heq.1, ← heq.2.1]
    exact hu.keyed f hf
  · have hkeys := congrArg (List.map Head.key) heads
    rw [List.map_map, List.map_map] at hkeys
    change (t.entries.map (Head.key ∘ Entry.head)).Nodup
    rw [hkeys]
    exact hu.distinct

end Table

namespace Store

variable {s t : Store} {v w : Value} {k l : Nat}

/-- The content of a value, following at most `n` handles on each path. -/
def contentWithin (s : Store) : Nat → Value → Option Content
  | 0, .array _ | 0, .hash _ | 0, .ref .. => none
  | n + 1, .array a => ((s.array a).elements.toList.mapM (s.contentWithin n)).map .array
  | n + 1, .hash h =>
    ((s.hash h).entries.mapM fun e => Content.ofOption (s.contentWithin n) e.value).map
      (.hash ((s.hash h).entries.map Entry.head) (s.hash h).nextGeneration)
  | n + 1, .ref slot _ constant =>
    (Content.ofOption (s.contentWithin n) (s.slotValue? slot)).map (.ref constant)
  | _, v => some (.flat v)

/-- The content of a value. -/
def content (s : Store) (v : Value) : Option Content := s.contentWithin s.span v

theorem contentWithin_flat (h : v.node? = none) : s.contentWithin k v = some (.flat v) := by
  cases k <;> cases v <;> first | rfl | simp [Value.node?] at h

/-! ## How many steps a content takes -/

theorem isSome_ofOption {content : Value → Option Content} {o : Option Value} :
    (Content.ofOption content o).isSome ↔ ∀ v, o = some v → (content v).isSome := by
  cases o <;> simp [Content.ofOption]

theorem isSome_contentWithin : (s.contentWithin k v).isSome ↔ s.Within k v := by
  induction k generalizing v with
  | zero => cases v <;> simp [contentWithin, Within, Value.node?]
  | succ k ih =>
    cases v with
    | array a => simp [contentWithin, Within, children, Value.node?, held, isSome_mapM, ih]
    | hash h =>
      simp only [contentWithin, Option.isSome_map, isSome_mapM, isSome_ofOption, ih, Within, children,
        Value.node?, Option.map_some, Option.getD_some, held, Table.values, List.mem_filterMap]
      constructor
      · rintro h w ⟨e, he, hw⟩
        exact h e he w hw
      · exact fun h e he w hw => h w ⟨e, he, hw⟩
    | ref slot index constant =>
      simp [contentWithin, Within, children, Value.node?, held, isSome_ofOption, ih]
    | _ => simp [contentWithin, Within, children, Value.node?]

theorem contentWithin_mono {T : Content} (h : s.contentWithin k v = some T) (hkl : k ≤ l) :
    s.contentWithin l v = some T := by
  induction k generalizing v l T with
  | zero =>
    -- without steps only a value that leads nowhere has been read
    have hv : v.node? = none := isSome_contentWithin (k := 0) |>.1 (by rw [h]; rfl)
    rw [contentWithin_flat hv] at h ⊢
    exact h
  | succ k ih =>
    obtain ⟨l, rfl⟩ : ∃ j, l = j + 1 := ⟨l - 1, by omega⟩
    have ih' : ∀ o T, Content.ofOption (s.contentWithin k) o = some T →
        Content.ofOption (s.contentWithin l) o = some T := by
      intro o T ho
      cases o with
      | none => exact ho
      | some v => exact ih ho (by omega)
    cases v with
    | array a =>
      simp only [contentWithin, Option.map_eq_some_iff] at h ⊢
      obtain ⟨Ts, hTs, rfl⟩ := h
      exact ⟨Ts, mapM_mono (fun w T hw => ih hw (by omega)) hTs, rfl⟩
    | hash i =>
      simp only [contentWithin, Option.map_eq_some_iff] at h ⊢
      obtain ⟨Ts, hTs, rfl⟩ := h
      exact ⟨Ts, mapM_mono (fun e T hw => ih' _ T hw) hTs, rfl⟩
    | ref slot index constant =>
      simp only [contentWithin, Option.map_eq_some_iff] at h ⊢
      obtain ⟨T, hT, rfl⟩ := h
      exact ⟨T, ih' _ T hT, rfl⟩
    | _ => simpa [contentWithin] using h

/-- A value has one content, however many steps it is read with. -/
theorem contentWithin_unique {T U : Content} (hT : s.contentWithin k v = some T)
    (hU : s.contentWithin l v = some U) : T = U := by
  have h1 := contentWithin_mono hT (Nat.le_max_left k l)
  have h2 := contentWithin_mono hU (Nat.le_max_right k l)
  exact Option.some.inj (h1.symm.trans h2)

theorem content_eq_some {T : Content} : s.content v = some T ↔ ∃ k, s.contentWithin k v = some T := by
  refine ⟨fun h => ⟨_, h⟩, fun ⟨k, h⟩ => ?_⟩
  have hk : s.Within k v := isSome_contentWithin.1 (by simp [h])
  obtain ⟨U, hU⟩ := Option.isSome_iff_exists.1 (isSome_contentWithin.2 (within_span ⟨k, hk⟩))
  unfold content
  rw [hU, contentWithin_unique h hU]

theorem exists_content_iff : (∃ T, s.content v = some T) ↔ s.Grounded v := by
  constructor
  · rintro ⟨T, hT⟩
    exact ⟨_, isSome_contentWithin.1 (by rw [← content, hT]; rfl)⟩
  · exact fun h => Option.isSome_iff_exists.1 (isSome_contentWithin.2 (within_span h))

/-! ## Stores that agree -/

/-- The two stores read the same at `v`, marks apart. -/
def SameAt (s t : Store) : Value → Prop
  | .array a => (t.array a).elements = (s.array a).elements
  | .hash h => (t.hash h).entries = (s.hash h).entries ∧ (t.hash h).nextGeneration = (s.hash h).nextGeneration
  | .ref slot _ _ => t.slotValue? slot = s.slotValue? slot
  | _ => True

theorem SameAt.held (h : s.SameAt t v) {m : Node} (hm : v.node? = some m) : t.held m = s.held m := by
  cases v <;> simp only [Value.node?, Option.some.injEq, reduceCtorEq] at hm <;> subst hm
  · exact congrArg Array.toList h
  · simp [Store.held, Table.values, h.1]
  · simpa [Store.held] using congrArg Option.toList h

theorem SameAt.trans {u : Store} (hst : s.SameAt t v) (htu : t.SameAt u v) : s.SameAt u v := by
  cases v with
  | array a => exact Eq.trans htu hst
  | hash i => exact ⟨htu.1.trans hst.1, htu.2.trans hst.2⟩
  | ref slot index constant => exact Eq.trans htu hst
  | _ => trivial

theorem contentWithin_congr {P : Value → Prop} (hsame : ∀ v, P v → s.SameAt t v)
    (hP : ∀ v, P v → ∀ w ∈ s.children v, P w) (hv : P v) : t.contentWithin k v = s.contentWithin k v := by
  induction k generalizing v with
  | zero => cases v <;> rfl
  | succ k ih =>
    -- what `v` holds is read alike, and all of it satisfies `P` again
    have hs := hsame v hv
    have hc := hP v hv
    cases v with
    | array a =>
      simp only [contentWithin, (show (t.array a).elements = _ from hs)]
      rw [mapM_congr fun w hw => ih (hc w (by simpa [Store.children, Value.node?, held] using hw))]
    | hash i =>
      obtain ⟨he, hn⟩ := hs
      simp only [contentWithin, he, hn]
      rw [mapM_congr fun e hmem => ?_]
      cases hval : e.value with
      | none => rfl
      | some w =>
        refine ih (hc w ?_)
        simp only [Store.children, Value.node?, Option.map_some, Option.getD_some, held, Table.values,
          List.mem_filterMap]
        exact ⟨e, hmem, hval⟩
    | ref slot index constant =>
      simp only [contentWithin, (show t.slotValue? slot = _ from hs)]
      cases hval : s.slotValue? slot with
      | none => rfl
      | some w =>
        simp only [Content.ofOption]
        rw [ih (hc w (by simp [Store.children, Value.node?, held, hval]))]
    | _ => rfl

theorem within_congr {P : Value → Prop} (hsame : ∀ v, P v → s.SameAt t v)
    (hP : ∀ v, P v → ∀ w ∈ s.children v, P w) (hv : P v) : t.Within k v ↔ s.Within k v := by
  rw [← isSome_contentWithin, ← isSome_contentWithin, contentWithin_congr hsame hP hv]

theorem content_congr {P : Value → Prop} (hsame : ∀ v, P v → s.SameAt t v)
    (hP : ∀ v, P v → ∀ w ∈ s.children v, P w) (hv : P v) : t.content v = s.content v := by
  apply Option.ext
  intro T
  rw [content_eq_some, content_eq_some]
  exact exists_congr fun k => by rw [contentWithin_congr hsame hP hv]

/-! ## Texts -/

/-- Sorting entries and then pairing them with their texts is pairing first. -/
theorem sorted_zip (entries : List Entry) (texts : List String) (h : entries.length = texts.length) :
    ∃ rows : List (Entry × String), rows.Perm (entries.zip texts) ∧
      entries.mergeSort (fun e f => e.key.le f.key) = rows.map Prod.fst ∧
      ((entries.map Entry.head).zip texts).mergeSort (fun x y => x.1.key.le y.1.key) =
        rows.map fun x => (x.1.head, x.2) := by
  refine ⟨(entries.zip texts).mergeSort fun x y => x.1.key.le y.1.key, List.mergeSort_perm _ _, ?_, ?_⟩
  · rw [List.map_mergeSort (s := fun e f : Entry => e.key.le f.key) (fun _ _ _ _ => rfl),
      List.map_fst_zip (by omega)]
  · rw [List.map_mergeSort (r := fun x y : Entry × String => x.1.key.le y.1.key)
      (s := fun x y : Head × String => x.1.key.le y.1.key) (fun _ _ _ _ => rfl), List.zip_map_left]
    rfl

def Keyed (s : Store) : Prop := ∀ h, (s.hash h).Keyed

theorem node?_of_key?_eq_some {k : Key} (h : v.key? = some k) : v.node? = none := by
  cases v <;> simp_all [Value.key?, Value.node?]

theorem inspectWithin_flat (h : v.node? = none) : s.inspectWithin k v = some v.inspectFlat := by
  cases k <;> cases v <;> first | rfl | simp [Value.node?] at h

/-- The text of a value is the text of its content. -/
theorem inspectWithin_of_content (hs : s.Keyed) {T : Content} (h : s.contentWithin k v = some T) :
    s.inspectWithin k v = some T.inspect := by
  induction k generalizing v T with
  | zero =>
    have hv : v.node? = none := isSome_contentWithin (k := 0) |>.1 (by rw [h]; rfl)
    rw [contentWithin_flat hv, Option.some.injEq] at h
    rw [inspectWithin_flat hv, ← h, Content.inspect]
  | succ k ih =>
    have ih' : ∀ o T, Content.ofOption (s.contentWithin k) o = some T →
        s.inspectWithin k (o.getD .void) = some T.inspect := by
      intro o T ho
      cases o with
      | none => cases ho; simp [inspectWithin_flat (v := .void) rfl, Content.inspect]
      | some v => exact ih ho
    cases v with
    | array a =>
      simp only [contentWithin, Option.map_eq_some_iff] at h
      obtain ⟨Ts, hTs, rfl⟩ := h
      have hitems : (s.array a).elements.toList.mapM (s.inspectWithin k) = some (Ts.map Content.inspect) := by
        rw [mapM_eq_some, List.forall₂_map_right_iff]
        exact (mapM_eq_some.1 hTs).imp fun w T hw => ih hw
      simp [inspectWithin, hitems, Content.inspect]
    | hash i =>
      simp only [contentWithin, Option.map_eq_some_iff] at h
      obtain ⟨Ts, hTs, rfl⟩ := h
      have htexts := (mapM_eq_some.1 hTs).imp fun e T he => ih' e.value T he
      have hlen := htexts.length_eq
      obtain ⟨rows, hperm, hsorted, hheads⟩ :=
        sorted_zip (s.hash i).entries (Ts.map Content.inspect) (by simpa using hlen)
      -- the entries in the order of their keys, each with the text of its value
      have hrow : ∀ x ∈ rows, s.inspectWithin k x.1.written = some x.1.written.inspectFlat ∧
          s.inspectWithin k (x.1.value.getD .void) = some x.2 := by
        intro x hx
        have hx := hperm.subset hx
        refine ⟨inspectWithin_flat (node?_of_key?_eq_some (hs i x.1 (List.of_mem_zip hx).1)), ?_⟩
        exact List.forall₂_zip (R := fun e text => s.inspectWithin k (e.value.getD .void) = some text)
          (List.forall₂_map_right_iff.2 htexts) hx
      simp only [inspectWithin, Content.inspect, hheads, List.map_map]
      have hmap : ∀ x ∈ rows, (do
          let key ← s.inspectWithin k x.1.written
          let value ← s.inspectWithin k (x.1.value.getD .void)
          return key ++ ": " ++ value) = some (x.1.written.inspectFlat ++ ": " ++ x.2) := by
        intro x hx
        simp [hrow x hx]
      rw [Table.sorted, hsorted, mapM_eq_some.2 (List.forall₂_map_left_iff.2
        (List.forall₂_map_right_iff.2 (List.forall₂_same.2 hmap)))]
      rfl
    | ref slot index constant =>
      simp only [contentWithin, Option.map_eq_some_iff] at h
      obtain ⟨T, hT, rfl⟩ := h
      simp [inspectWithin, ih' _ T hT, Content.inspect]
    | _ =>
      simp only [contentWithin, Option.some.injEq] at h
      subst h
      simp [inspectWithin, Content.inspect]

theorem inspect_of_content (hs : s.Keyed) {T : Content} (h : s.content v = some T) :
    s.inspect v = some T.inspect :=
  inspectWithin_of_content hs h

end Store

end CopyOnBind
