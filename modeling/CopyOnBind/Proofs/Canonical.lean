import CopyOnBind.Proofs.Printing
import CopyOnBind.Proofs.Unambiguous
/-!
# What is shown of a hash

A table lists its entries by key. Whatever was done to it, its entries have keys of their own, so
there is one list of them in ascending order (`Table.listed_iff`), and the order in which
the entries were created, or are kept, does not show.

Two hashes are alike if they have the same keys and alike contents under each. They may belong to two
stores, where containers have other handles and entries other generations. Their texts are followed
side by side, with the same number of steps for both (`showWithin_like`, `debugWithin_like`).

`output_canonical`: after any two runs, hashes that are alike are listed and shown alike.
-/

namespace CopyOnBind

/-! ## The list of a table -/

namespace Table

variable {t : Table} {l : List Entry}

/-- Every entry of the table once, in strictly ascending order of keys. -/
structure Listed (t : Table) (l : List Entry) : Prop where
  perm : l.Perm t.entries
  ascending : l.Pairwise fun e f => e.key.Before f.key

theorem listed_sorted (ht : t.Distinct) : t.Listed t.sorted := by
  have hperm : t.sorted.Perm t.entries := List.mergeSort_perm _ _
  have hle : t.sorted.Pairwise fun e f => e.key.le f.key :=
    List.pairwise_mergeSort (fun e f g => Key.le_trans e.key f.key g.key) (fun e f => Key.le_total e.key f.key) _
  have hne : (t.sorted.map Entry.key).Nodup := (hperm.map Entry.key).nodup_iff.2 ht
  refine ⟨hperm, (hle.and (List.pairwise_map.1 hne)).imp ?_⟩
  rintro e f ⟨hle, hne⟩
  exact Key.before_of_le_of_ne hle hne

/-- There is one such list. -/
theorem listed_iff (ht : t.Distinct) : t.Listed l ↔ l = t.sorted := by
  refine ⟨fun h => ?_, ?_⟩
  · have hsorted := listed_sorted ht
    refine List.Perm.eq_of_pairwise (fun e f _ _ hef hfe => ?_) h.ascending hsorted.ascending
      (h.perm.trans hsorted.perm.symm)
    exact absurd (hef.trans hfe) (Key.before_irrefl _)
  · rintro rfl
    exact listed_sorted ht

theorem filed_empty : ({} : Table).Filed := ⟨nofun, List.nodup_nil⟩

end Table

/-! ## Runs -/

section

variable {s t : Store}

theorem Table.filed_ofPairs {pairs : List (Value × Value)} {table : Table} (h : ofPairs pairs = .ok table) : table.Filed :=
  ofPairs_invariant (I := fun _ t => t.Filed) (fun _ _ _ ht => (Change.Turns.of_fits fits_insertion).filed ht)
    filed_empty h

/-- Every action keeps the entries of all tables filed under keys of their own. -/
theorem Action.filed {a : Action} (hs : ∀ h, (s.hash h).Filed) (ha : a.apply s = some t) : ∀ h, (t.hash h).Filed :=
  Action.forall_hash hs (fun h hturn => hturn.filed (hs h)) (fun _ _ hr hu => hu.of_heads hr.heads)
    (fun _ _ _ => Table.filed_ofPairs) ha

theorem Store.filed_after {as : List Action} (hs : ∀ h, (s.hash h).Filed) (ht : s.after as = some t) :
    ∀ h, (t.hash h).Filed := by
  induction as generalizing s with
  | nil =>
    cases ht
    exact hs
  | cons a as ih =>
    obtain ⟨u, hu, ht⟩ := Option.bind_eq_some_iff.1 ht
    exact ih (Action.filed hs hu) ht

end

namespace Store

variable {s t : Store} {R : Value → Value → Prop} {v w : Value} {k l : Nat} {h i : HashId}

/-! ## The steps that a text takes -/

/-- Two numbers of steps that are enough for a text if any number is give the same text, or none. -/
theorem eq_of_enough {f : Nat → Option String} {m n : Nat} (mono : ∀ k l x, f k = some x → k ≤ l → f l = some x)
    (hm : ∀ k, (f k).isSome → (f m).isSome) (hn : ∀ k, (f k).isSome → (f n).isSome) : f m = f n := by
  cases hfm : f m with
  | some x =>
    obtain ⟨y, hy⟩ := Option.isSome_iff_exists.1 (hn m (by rw [hfm]; rfl))
    have hx := mono m (max m n) x hfm (Nat.le_max_left m n)
    rw [mono n (max m n) y hy (Nat.le_max_right m n)] at hx
    rw [hy, hx]
  | none =>
    cases hfn : f n with
    | none => rfl
    | some y =>
      have hsome := hm n (by rw [hfn]; rfl)
      rw [hfm] at hsome
      cases hsome

theorem isSome_inspectWithin (hs : s.Keyed) : (s.inspectWithin k v).isSome ↔ s.Within k v := by
  rw [← showWithin_inspectFlat]
  exact isSome_showWithin hs

theorem inspectWithin_mono (hs : s.Keyed) {x : String} (h : s.inspectWithin k v = some x) (hkl : k ≤ l) :
    s.inspectWithin l v = some x := by
  have hk := (isSome_inspectWithin hs).1 (by rw [h]; rfl)
  obtain ⟨T, hT⟩ := Option.isSome_iff_exists.1 (isSome_contentWithin.2 hk)
  rw [inspectWithin_of_content hs hT] at h
  rw [inspectWithin_of_content hs (contentWithin_mono hT hkl), h]

theorem debugWith_mono {f f' : ArrayId → Option String} {g g' : HashId → Option String} {x : String}
    (hf : ∀ a y, f a = some y → f' a = some y) (hg : ∀ h y, g h = some y → g' h = some y)
    (h : v.debugWith f g = some x) : v.debugWith f' g' = some x := by
  induction v generalizing x with
  | array a =>
    obtain ⟨y, hy, rfl⟩ := Option.map_eq_some_iff.1 h
    exact Option.map_eq_some_iff.2 ⟨y, hf a y hy, rfl⟩
  | hash i =>
    obtain ⟨y, hy, rfl⟩ := Option.map_eq_some_iff.1 h
    exact Option.map_eq_some_iff.2 ⟨y, hg i y hy, rfl⟩
  | ref slot index constant ih =>
    obtain ⟨y, hy, rfl⟩ := Option.map_eq_some_iff.1 h
    exact Option.map_eq_some_iff.2 ⟨y, ih hy, rfl⟩
  | _ => exact h

theorem debugRow_mono {debug debug' : Value → Option String} {e : Entry} {x : String}
    (hd : ∀ v y, debug v = some y → debug' v = some y) (h : e.debugRow debug = some x) : e.debugRow debug' = some x := by
  obtain ⟨key, hkey, h⟩ := Option.bind_eq_some_iff.1 h
  obtain ⟨value, hvalue, rfl⟩ := Option.map_eq_some_iff.1 h
  refine Option.bind_eq_some_iff.2 ⟨key, hd _ _ hkey, Option.map_eq_some_iff.2 ⟨value, ?_, rfl⟩⟩
  cases hval : e.value with
  | none => rwa [hval] at hvalue
  | some w =>
    rw [hval] at hvalue
    obtain ⟨y, hy, rfl⟩ := Option.map_eq_some_iff.1 hvalue
    exact Option.map_eq_some_iff.2 ⟨y, hd w y hy, rfl⟩

theorem debugWithin_mono {x : String} (h : s.debugWithin k v = some x) (hkl : k ≤ l) : s.debugWithin l v = some x := by
  induction k generalizing v l x with
  | zero =>
    cases l with
    | zero => exact h
    | succ l =>
      rw [debugWithin_succ]
      exact debugWith_mono (f := fun _ => none) (g := fun _ => none) (fun _ _ => nofun) (fun _ _ => nofun) h
  | succ k ih =>
    obtain ⟨l, rfl⟩ : ∃ j, l = j + 1 := ⟨l - 1, by omega⟩
    rw [debugWithin_succ] at h ⊢
    have hl : ∀ v y, s.debugWithin k v = some y → s.debugWithin l v = some y := fun v y hy => ih hy (by omega)
    refine debugWith_mono (fun a y hy => ?_) (fun i y hy => ?_) h
    · obtain ⟨items, hitems, rfl⟩ := Option.map_eq_some_iff.1 hy
      exact Option.map_eq_some_iff.2 ⟨items, mapM_mono hl hitems, rfl⟩
    · obtain ⟨items, hitems, rfl⟩ := Option.map_eq_some_iff.1 hy
      exact Option.map_eq_some_iff.2 ⟨items, mapM_mono (fun e y => debugRow_mono hl) hitems, rfl⟩

/-! ## Values that are shown alike -/

/-- One step of comparing a value of `s` with a value of `t` whose parts are compared by `R`. Handles may
differ, and so may the generations of the entries in a hash. -/
inductive LikeBy (R : Value → Value → Prop) (s t : Store) : Value → Value → Prop
  | flat (v : Value) : v.node? = none → LikeBy R s t v v
  | array (a b : ArrayId) : List.Forall₂ R (s.array a).elements.toList (t.array b).elements.toList →
    LikeBy R s t (.array a) (.array b)
  | hash (h i : HashId) :
    (∀ k, Option.Rel (fun e f => Option.Rel R e.value f.value) ((s.hash h).find? k) ((t.hash i).find? k)) →
    LikeBy R s t (.hash h) (.hash i)
  | ref (x y : Slot) (index index' : Value) (constant : Bool) : x.key = y.key → x.generation = y.generation →
    R index index' → Option.Rel R (s.slotValue? x) (t.slotValue? y) →
    LikeBy R s t (.ref x index constant) (.ref y index' constant)

/-- The value `v` of `s` and the value `w` of `t` hold the same, however far one looks. -/
def Like (s t : Store) (v w : Value) : Prop := ∃ R, (∀ x y, R x y → LikeBy R s t x y) ∧ R v w

/-- Filed tables whose entries are related key by key list them side by side. -/
theorem rowsBy_of_find? {a b : Table} (ha : a.Filed) (hb : b.Filed)
    (hab : ∀ k, Option.Rel (fun e f => Option.Rel R e.value f.value) (a.find? k) (b.find? k)) :
    List.Forall₂ (RowsBy R) a.sorted b.sorted := by
  have hkeys : (a.entries.map Entry.key).Perm (b.entries.map Entry.key) := by
    refine (List.perm_ext_iff_of_nodup ha.distinct hb.distinct).2 fun k => ?_
    rw [← Table.contains_iff, ← Table.contains_iff, Table.contains, Table.contains]
    have hk := hab k
    generalize a.find? k = x, b.find? k = y at hk
    cases hk <;> rfl
  refine (tablesBy_iff_sorted ha hb).1 ⟨by simpa [Table.size] using hkeys.length_eq, fun e he => ?_⟩
  have hk := hab e.key
  rw [Table.find?_of_mem ha.distinct he] at hk
  generalize hy : b.find? e.key = y at hk
  cases hk with
  | some hef => exact ⟨_, rfl, hef⟩

theorem keys_of_rowsBy {a b : Table} (ha : a.Filed) (hb : b.Filed) (h : List.Forall₂ (RowsBy R) a.sorted b.sorted) :
    List.Forall₂ (fun e f => e.key = f.key ∧ RowsBy R e f) a.sorted b.sorted := by
  rw [List.forall₂_iff_zip] at h ⊢
  refine ⟨h.1, fun {e f} hef => ⟨?_, h.2 hef⟩⟩
  have he := ha.keyed e (Table.mem_sorted.1 (List.of_mem_zip hef).1)
  have hf := hb.keyed f (Table.mem_sorted.1 (List.of_mem_zip hef).2)
  exact Option.some.inj (by rw [← he, (h.2 hef).1, hf])

theorem written_flat {a : Table} (ha : a.Filed) : ∀ e ∈ a.sorted, e.written.node? = none := fun e he =>
  node?_of_key?_eq_some (ha.keyed e (Table.mem_sorted.1 he))

theorem showWithin_like (hs : ∀ h, (s.hash h).Filed) (ht : ∀ h, (t.hash h).Filed) {text : Value → String}
    (hR : ∀ x y, R x y → LikeBy R s t x y) (h : R v w) : s.showWithin text k v = t.showWithin text k w := by
  induction k generalizing v w with
  | zero =>
    cases hR v w h with
    | flat _ hv => rw [showWithin_flat hv, showWithin_flat hv]
    | array | hash | ref => rfl
  | succ k ih =>
    cases hR v w h with
    | flat _ hv => rw [showWithin_flat hv, showWithin_flat hv]
    | array a b hab => rw [showWithin, showWithin, mapM_eq_of_forall₂ (hab.imp fun x y => ih)]
    | hash i j hij =>
      have hrows : List.Forall₂ (fun e f => e.showRow (s.showWithin text k) = f.showRow (t.showWithin text k))
          (s.hash i).sorted (t.hash j).sorted := by
        refine ((List.forall₂_and_left _ _).2 ⟨written_flat (hs i), rowsBy_of_find? (hs i) (ht j) hij⟩).imp ?_
        rintro e f ⟨he, hef⟩
        refine hef.showRow_eq ?_ ?_ fun x y _ _ => ih
        · rw [showWithin_flat he, showWithin_flat he]
        · rw [showWithin_flat rfl, showWithin_flat rfl]
      rw [showWithin, showWithin, mapM_eq_of_forall₂ hrows]
    | ref x y index index' constant _ _ _ hval =>
      have htarget : s.showWithin text k ((s.slotValue? x).getD .void) = t.showWithin text k ((t.slotValue? y).getD .void) := by
        generalize s.slotValue? x = p, t.slotValue? y = q at hval
        cases hval with
        | none => rw [Option.getD_none, showWithin_flat rfl, showWithin_flat rfl]
        | some hxy => exact ih hxy
      rw [showWithin, showWithin, htarget]

theorem debugWith_flat {f f' : ArrayId → Option String} {g g' : HashId → Option String} (hv : v.node? = none) :
    v.debugWith f g = v.debugWith f' g' := by
  cases v <;> first | rfl | simp [Value.node?] at hv

theorem debugWithin_flat (hv : v.node? = none) : s.debugWithin k v = v.debugWith (fun _ => none) (fun _ => none) := by
  cases k with
  | zero => rfl
  | succ k =>
    rw [debugWithin_succ]
    exact debugWith_flat hv

theorem debugWith_like {f f' : ArrayId → Option String} {g g' : HashId → Option String}
    (hR : ∀ x y, R x y → LikeBy R s t x y) (hf : ∀ a b, R (.array a) (.array b) → f a = f' b)
    (hg : ∀ i j, R (.hash i) (.hash j) → g i = g' j) (h : R v w) : v.debugWith f g = w.debugWith f' g' := by
  induction v generalizing w with
  | ref x index constant ih =>
    cases hR _ w h with
    | flat _ hv => cases hv
    | ref _ y _ index' _ hkey hgen hindex _ =>
      have hslot : x.debug = y.debug := by
        cases x
        cases y
        cases hkey
        cases hgen
        rfl
      change (index.debugWith f g).map _ = (index'.debugWith f' g').map _
      rw [ih hindex, hslot]
  | array a =>
    cases hR _ w h with
    | flat _ hv => cases hv
    | array _ b _ => exact congrArg (Option.map _) (hf a b h)
  | hash i =>
    cases hR _ w h with
    | flat _ hv => cases hv
    | hash _ j _ => exact congrArg (Option.map _) (hg i j h)
  | _ =>
    cases hR _ w h with
    | flat => rfl

/-- Entries of a hash have the same debug text if their parts have. -/
theorem RowsBy.debugRow_eq {debug debug' : Value → Option String} {e f : Entry} (h : RowsBy R e f)
    (hwritten : debug e.written = debug' e.written) (hR : ∀ v w, R v w → debug v = debug' w) :
    e.debugRow debug = f.debugRow debug' := by
  obtain ⟨heq, hrel⟩ := h
  have hvalue : e.value.mapM debug = f.value.mapM debug' := by
    generalize e.value = x, f.value = y at hrel
    cases hrel with
    | none => rfl
    | some hvw => exact congrArg (Option.map some) (hR _ _ hvw)
  rw [Entry.debugRow, Entry.debugRow, ← heq, hwritten, hvalue]

theorem debugWithin_like (hs : ∀ h, (s.hash h).Filed) (ht : ∀ h, (t.hash h).Filed)
    (hR : ∀ x y, R x y → LikeBy R s t x y) (h : R v w) : s.debugWithin k v = t.debugWithin k w := by
  induction k generalizing v w with
  | zero => exact debugWith_like hR (fun _ _ _ => rfl) (fun _ _ _ => rfl) h
  | succ k ih =>
    rw [debugWithin_succ, debugWithin_succ]
    refine debugWith_like hR (fun a b hab => ?_) (fun i j hij => ?_) h
    · cases hR _ _ hab with
      | flat _ hv => cases hv
      | array _ _ hab => rw [mapM_eq_of_forall₂ (hab.imp fun x y => ih)]
    · cases hR _ _ hij with
      | flat _ hv => cases hv
      | hash _ _ hij =>
        have hrows : List.Forall₂ (fun e f => e.debugRow (s.debugWithin k) = f.debugRow (t.debugWithin k))
            (s.hash i).sorted (t.hash j).sorted := by
          refine ((List.forall₂_and_left _ _).2 ⟨written_flat (hs i), rowsBy_of_find? (hs i) (ht j) hij⟩).imp ?_
          rintro e f ⟨he, hef⟩
          exact hef.debugRow_eq (by rw [debugWithin_flat he, debugWithin_flat he]) fun x y => ih
        rw [mapM_eq_of_forall₂ hrows]

theorem Like.inspect_eq (h : s.Like t v w) (hs : ∀ h, (s.hash h).Filed) (ht : ∀ h, (t.hash h).Filed) :
    s.inspect v = t.inspect w := by
  obtain ⟨R, hR, h⟩ := h
  have hsame : ∀ k, s.inspectWithin k v = t.inspectWithin k w := by
    intro k
    rw [← showWithin_inspectFlat, ← showWithin_inspectFlat]
    exact showWithin_like hs ht hR h
  have enough : ∀ {s : Store} {v : Value}, (∀ h, (s.hash h).Filed) → ∀ k, (s.inspectWithin k v).isSome →
      (s.inspectWithin s.span v).isSome := fun hs k hk =>
    have hkeyed : ∀ h, _ := fun h => (hs h).keyed
    (isSome_inspectWithin hkeyed).2 (within_span ⟨k, (isSome_inspectWithin hkeyed).1 hk⟩)
  unfold inspect
  rw [← hsame]
  refine eq_of_enough (f := fun k => s.inspectWithin k v) (fun k l x => inspectWithin_mono fun h => (hs h).keyed)
    (enough hs) fun k hk => ?_
  rw [hsame] at hk ⊢
  exact enough ht k hk

theorem Like.debug_eq (h : s.Like t v w) (hs : ∀ h, (s.hash h).Filed) (ht : ∀ h, (t.hash h).Filed) :
    s.debug v = t.debug w := by
  obtain ⟨R, hR, h⟩ := h
  have hsame : ∀ k, s.debugWithin k v = t.debugWithin k w := fun k => debugWithin_like hs ht hR h
  unfold debug
  rw [← hsame]
  refine eq_of_enough (f := fun k => s.debugWithin k v) (fun k l x => debugWithin_mono)
    (fun k hk => isSome_debug.2 ⟨k, hk⟩) fun k hk => ?_
  rw [hsame] at hk ⊢
  exact isSome_debug.2 ⟨k, hk⟩

theorem RowsBy.imp {Q : Value → Value → Prop} {e f : Entry} (hRQ : ∀ x y, R x y → Q x y) (h : RowsBy R e f) :
    RowsBy Q e f := by
  obtain ⟨hwritten, hrel⟩ := h
  refine ⟨hwritten, ?_⟩
  generalize e.value = x, f.value = y at hrel
  cases hrel with
  | none => exact .none
  | some hvw => exact .some (hRQ _ _ hvw)

theorem Like.rows (hlike : s.Like t (.hash h) (.hash i)) (hs : (s.hash h).Filed) (ht : (t.hash i).Filed) :
    List.Forall₂ (fun e f => e.key = f.key ∧ RowsBy (s.Like t) e f) (s.hash h).sorted (t.hash i).sorted := by
  obtain ⟨R, hR, hhi⟩ := hlike
  cases hR _ _ hhi with
  | flat _ hv => cases hv
  | hash _ _ hentries =>
    exact keys_of_rowsBy hs ht ((rowsBy_of_find? hs ht hentries).imp fun e f => RowsBy.imp fun x y hxy => ⟨R, hR, hxy⟩)

/-! ## Contents in one store -/

theorem rel_self (hR : ∀ x, R x x) (o : Option Value) : Option.Rel R o o := by
  cases o with
  | none => exact .none
  | some x => exact .some (hR x)

theorem likeBy_self (hR : ∀ x, R x x) (v : Value) : LikeBy R s s v v := by
  cases v with
  | array a => exact .array a a (List.forall₂_same.2 fun x _ => hR x)
  | hash h =>
    refine .hash h h fun k => ?_
    cases (s.hash h).find? k with
    | none => exact .none
    | some e => exact .some (rel_self hR e.value)
  | ref x index constant => exact .ref x x index index constant rfl rfl (hR index) (rel_self hR _)
  | _ => exact .flat _ rfl

/-- Two tables have the same keys, with the same value under each or none. -/
def SameValues (a b : Table) : Prop := ∀ k, (a.find? k).map Entry.value = (b.find? k).map Entry.value

theorem SameValues.rel {a b : Table} (h : SameValues a b) (hR : ∀ x, R x x) (k : Key) :
    Option.Rel (fun e f => Option.Rel R e.value f.value) (a.find? k) (b.find? k) := by
  have hk := h k
  generalize a.find? k = x, b.find? k = y at hk
  cases x with
  | none =>
    cases y with
    | none => exact .none
    | some f => cases hk
  | some e =>
    cases y with
    | none => cases hk
    | some f =>
      have hef : e.value = f.value := Option.some.inj hk
      exact .some (hef ▸ rel_self hR e.value)

theorem SameValues.like (hsame : SameValues (s.hash h) (s.hash i)) : s.Like s (.hash h) (.hash i) := by
  let R : Value → Value → Prop := fun v w => v = w ∨ v = .hash h ∧ w = .hash i
  have hR : ∀ x, R x x := fun x => .inl rfl
  refine ⟨R, ?_, .inr ⟨rfl, rfl⟩⟩
  rintro x y (rfl | ⟨rfl, rfl⟩)
  · exact likeBy_self hR x
  · exact .hash h i (hsame.rel hR)

theorem SameValues.rows {a b : Table} (h : SameValues a b) (ha : a.Filed) (hb : b.Filed) :
    a.sorted.map (fun e => (e.key, e.written, e.value)) = b.sorted.map fun e => (e.key, e.written, e.value) := by
  rw [← List.forall₂_eq_eq_eq, List.forall₂_map_left_iff, List.forall₂_map_right_iff]
  refine (keys_of_rowsBy ha hb (rowsBy_of_find? ha hb (h.rel fun _ => rfl))).imp ?_
  rintro e f ⟨hkey, hwritten, hrel⟩
  have hvalue : e.value = f.value := by
    generalize e.value = x, f.value = y at hrel
    cases hrel with
    | none => rfl
    | some h => rw [h]
  rw [hkey, hwritten, hvalue]

/-! ## Output -/

/-- What is shown of a hash depends on its keys and contents only. The generations of its entries tell
how it came about, and are not shown. -/
structure Canonical (s t : Store) : Prop where
  listed : ∀ h l, (s.hash h).Listed l ↔ l = (s.hash h).sorted
  rows : ∀ h i, s.Like t (.hash h) (.hash i) →
    List.Forall₂ (fun e f => e.key = f.key ∧ e.written = f.written ∧ Option.Rel (s.Like t) e.value f.value)
      (s.hash h).sorted (t.hash i).sorted
  texts : ∀ v w, s.Like t v w → s.inspect v = t.inspect w ∧ s.debug v = t.debug w
  /-- The values are the same ones, so the two hashes are in one store. -/
  same : ∀ h i, SameValues (s.hash h) (s.hash i) →
    (s.hash h).sorted.map (fun e => (e.key, e.written, e.value)) =
        (s.hash i).sorted.map (fun e => (e.key, e.written, e.value)) ∧
      s.inspect (.hash h) = s.inspect (.hash i) ∧ s.debug (.hash h) = s.debug (.hash i)

/-- Keys are in a strict total order, and after any two runs hashes with the same keys and contents
are listed and shown alike, each by the one list of its entries that is in order. -/
theorem output_canonical {s₀ t₀ : Store} {as bs : List Action} (hs₀ : ∀ h, (s₀.hash h).Filed)
    (ht₀ : ∀ h, (t₀.hash h).Filed) (hs : s₀.after as = some s) (ht : t₀.after bs = some t) :
    (IsStrictTotalOrder Key Key.Before ∧ (∀ k l : Key, k.lt l = true ↔ k.Before l) ∧
      ∀ k l : Key, k.compare l = .eq ↔ k = l) ∧ s.Canonical t := by
  have hs := filed_after hs₀ hs
  have ht := filed_after ht₀ ht
  refine ⟨⟨inferInstance, fun k l => Key.lt_iff_before, fun k l => Std.LawfulEqCmp.compare_eq_iff_eq⟩, ?_⟩
  refine ⟨fun h l => Table.listed_iff (hs h).distinct, fun h i hlike => hlike.rows (hs h) (ht i),
    fun v w hlike => ⟨hlike.inspect_eq hs ht, hlike.debug_eq hs ht⟩, fun h i hsame => ?_⟩
  exact ⟨hsame.rows (hs h) (hs i), hsame.like.inspect_eq hs hs, hsame.like.debug_eq hs hs⟩

/-- The same hash made from pairs, and filled in another order in another store, with an entry that
was there before. -/
theorem output_canonical_orders :
    let as : List Action := [.newArray #[.void], .newHash [(.int 1, .array ⟨0⟩), (.str "a", .char 'x')]]
    let bs : List Action := [.newArray #[], .newArray #[.void], .newHash [(.str "a", .void)],
      .write (.remove ⟨0⟩ (.str "a")), .write (.insert ⟨0⟩ (.str "a") (.char 'x')),
      .write (.insert ⟨0⟩ (.int 1) (.array ⟨1⟩))]
    ∃ s t : Store, ({} : Store).after as = some s ∧ ({} : Store).after bs = some t ∧
      (s.hash ⟨0⟩).entries.map Entry.head ≠ (t.hash ⟨0⟩).entries.map Entry.head ∧
      s.inspect (.hash ⟨0⟩) = t.inspect (.hash ⟨0⟩) ∧ s.debug (.hash ⟨0⟩) = t.debug (.hash ⟨0⟩) := by
  intro as bs
  have empty : ∀ h, (({} : Store).hash h).Filed := fun h => by
    rw [hash_of_not_knows (Nat.not_lt_zero _)]
    exact Table.filed_empty
  obtain ⟨s, hs, harray, hentries⟩ : ∃ s, ({} : Store).after as = some s ∧ (s.array ⟨0⟩).elements.toList = [.void] ∧
      (s.hash ⟨0⟩).entries =
        [⟨.int 1, .int 1, some (.array ⟨0⟩), 0⟩, ⟨.str "a", .str "a", some (.char 'x'), 1⟩] :=
    ⟨_, rfl, by decide +kernel, by decide +kernel⟩
  obtain ⟨t, ht, harray', hentries'⟩ : ∃ t, ({} : Store).after bs = some t ∧ (t.array ⟨1⟩).elements.toList = [.void] ∧
      (t.hash ⟨0⟩).entries =
        [⟨.str "a", .str "a", some (.char 'x'), 1⟩, ⟨.int 1, .int 1, some (.array ⟨1⟩), 2⟩] :=
    ⟨_, rfl, by decide +kernel, by decide +kernel⟩
  let R : Value → Value → Prop := fun v w => v = w ∧ v.node? = none ∨ v = .array ⟨0⟩ ∧ w = .array ⟨1⟩ ∨
    v = .hash ⟨0⟩ ∧ w = .hash ⟨0⟩
  have hlike : s.Like t (.hash ⟨0⟩) (.hash ⟨0⟩) := by
    refine ⟨R, ?_, .inr (.inr ⟨rfl, rfl⟩)⟩
    rintro x y (⟨rfl, hx⟩ | ⟨rfl, rfl⟩ | ⟨rfl, rfl⟩)
    · exact .flat x hx
    · refine .array _ _ ?_
      rw [harray, harray']
      exact .cons (.inl ⟨rfl, rfl⟩) .nil
    · refine .hash _ _ fun k => ?_
      rw [Table.find?, Table.find?, hentries, hentries']
      by_cases hint : k = .int 1
      · subst hint
        exact .some (.some (.inr (.inl ⟨rfl, rfl⟩)))
      · by_cases hstr : k = .str "a"
        · subst hstr
          exact .some (.some (.inl ⟨rfl, rfl⟩))
        · simp [Ne.symm hint, Ne.symm hstr]
  refine ⟨s, t, hs, ht, ?_, (output_canonical empty empty hs ht).2.texts _ _ hlike⟩
  rw [hentries, hentries']
  decide +kernel

end Store

end CopyOnBind
