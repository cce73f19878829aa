import CopyOnBind.Proofs.Cycles
import CopyOnBind.Proofs.History
import CopyOnBind.Proofs.KeyOrder
import CopyOnBind.Store.Debug
/-!
# When debug texts end

The debug text of a value is a walk of its own over the store. Like the walks that copy and
inspect it goes through the elements of arrays and the entries of hashes; but of a reference it
shows the index, whatever that is, and not the entry the reference leads to. The check made
before a slot is written follows the entry and not the index, so it keeps the data free of
cycles and says nothing of debug texts.

`debug_after_write`: after a write that is accepted all debug texts end exactly if the text of
the hash was no part of the text of the value. It never was while references are made with keys
for their indexes. `accepted_write_unprintable`: it can be otherwise.
-/

namespace CopyOnBind

open Relation

/-- The container whose text is in the text of a value. A reference shows its index. -/
def Value.shown? : Value → Option Node
  | array a => some (.array a)
  | hash h => some (.hash h)
  | ref _ index _ => index.shown?
  | _ => none

/-- The debug text of an entry in its hash, given those of values. -/
def Entry.debugRow (debug : Value → Option String) (e : Entry) : Option String :=
  (debug e.written).bind fun key => (e.value.mapM debug).map fun value => key ++ ": " ++ debugOptional value

namespace Value

variable {v : Value} {n : Node} {array : ArrayId → Option String} {hash : HashId → Option String}

/-- A text misses no more than the text of the container in it. -/
theorem isSome_debugWith : (v.debugWith array hash).isSome ↔
    (∀ a, v.shown? = some (.array a) → (array a).isSome) ∧ ∀ h, v.shown? = some (.hash h) → (hash h).isSome := by
  induction v with
  | array a => simp [debugWith, shown?]
  | hash h => simp [debugWith, shown?]
  | ref slot index constant ih => simpa [debugWith, shown?] using ih
  | _ => simp [debugWith, shown?]

theorem shown?_ne_slot {slot : Slot} : v.shown? ≠ some (.slot slot) := by
  induction v with
  | ref slot index constant ih => exact ih
  | _ => simp [shown?]

theorem shown?_of_key? {k : Key} (h : v.key? = some k) : v.shown? = none := by
  cases v <;> first | rfl | cases h

/-- Of a value that is no reference the text shows what the other walks follow. -/
theorem node?_of_shown? (h : v.shown? = some n) (href : ∀ r : Reference, r.toValue = v → r.index.shown? = none) :
    v.node? = some n := by
  cases v with
  | ref slot index constant => simp [shown?, href ⟨slot, index, constant⟩ rfl] at h
  | _ => exact h

end Value

namespace Store

variable {s t : Store} {v w : Value} {k : Nat} {h : HashId} {slot : Slot} {m n : Node}

/-! ## The walk of a debug text -/

/-- The values whose texts are in the text of a container. -/
def printed (s : Store) : Node → List Value
  | .array a => (s.array a).elements.toList
  | .hash h => (s.hash h).entries.flatMap fun e => e.written :: e.value.toList
  | .slot _ => []

/-- From a value to the container it shows, and from there to the values in it. -/
def printing (s : Store) : Walk Value Node := ⟨Value.shown?, s.printed⟩

/-- The debug text of `v` ends. -/
def Prints (s : Store) (v : Value) : Prop := ∃ k, (s.debugWithin k v).isSome

/-- The text of the hash `h` is in the text of `v`. -/
def Shows (s : Store) (v : Value) (h : HashId) : Prop :=
  ∃ m, v.shown? = some m ∧ ReflTransGen s.printing.Step m (.hash h)

theorem debugWithin_succ : s.debugWithin (k + 1) v = v.debugWith
    (fun a => ((s.array a).elements.toList.mapM (s.debugWithin k)).map debugList)
    (fun h => ((s.hash h).sorted.mapM (Entry.debugRow (s.debugWithin k))).map fun items =>
      "\x7b" ++ ", ".intercalate items ++ "\x7d") := by
  have hrow : Entry.debugRow (s.debugWithin k) = fun e => do
      let key ← s.debugWithin k e.written
      let value ← e.value.mapM (s.debugWithin k)
      return key ++ ": " ++ debugOptional value := by
    funext e
    simp only [Entry.debugRow, Option.map_eq_bind]
    rfl
  simp only [debugWithin, hrow, Option.map_eq_bind]
  rfl

theorem isSome_debugRow {debug : Value → Option String} {e : Entry} :
    (e.debugRow debug).isSome ↔ ∀ w ∈ e.written :: e.value.toList, (debug w).isSome := by
  unfold Entry.debugRow
  cases hkey : debug e.written <;> cases hvalue : e.value <;> simp [hkey, Option.isSome_map]

theorem isSome_debugWithin : (s.debugWithin k v).isSome ↔ s.printing.Within k v := by
  induction k generalizing v with
  | zero =>
    rw [debugWithin, Value.isSome_debugWith, Walk.Within]
    change _ ↔ v.shown? = none
    cases hv : v.shown? with
    | none => simp
    | some m =>
      cases m with
      | array a => simp
      | hash h => simp
      | slot slot => exact absurd hv Value.shown?_ne_slot
  | succ k ih =>
    rw [debugWithin_succ, Value.isSome_debugWith, Walk.Within]
    cases hv : v.shown? with
    | none => simp [Walk.children_of_node?_none (W := s.printing) hv]
    | some m =>
      rw [Walk.children_of_node? (W := s.printing) hv]
      cases m with
      | array a => simp [isSome_mapM, ih, printing, printed]
      | hash h =>
        simp only [Option.some.injEq, Node.hash.injEq, reduceCtorEq, false_implies, implies_true, true_and, forall_eq',
          Option.isSome_map, isSome_mapM, Table.mem_sorted, isSome_debugRow, ih]
        simp only [printing, printed, List.mem_flatMap, forall_exists_index, and_imp]
        exact ⟨fun hall w e he hw => hall e he w hw, fun hall e he w hw => hall w e he hw⟩
      | slot slot => exact absurd hv Value.shown?_ne_slot

theorem prints_iff : s.Prints v ↔ s.printing.Grounded v := exists_congr fun _ => isSome_debugWithin

theorem covers_printing : s.printing.Covers s.nodes := by
  intro m v hv
  simp only [nodes, List.mem_append, List.mem_map, List.mem_range]
  cases m with
  | array a => exact .inl ⟨a.index, lt_of_mem_elements hv, rfl⟩
  | hash h =>
    obtain ⟨e, he, -⟩ := List.mem_flatMap.1 hv
    exact .inr (.inl ⟨h.index, lt_of_mem_entries he, rfl⟩)
  | slot slot => cases hv

/-- The steps that a text is given are enough if any number is. -/
theorem isSome_debug : (s.debug v).isSome ↔ s.Prints v := by
  refine ⟨fun h => ⟨s.span, h⟩, fun h => ?_⟩
  have hspan := (prints_iff.1 h).within covers_printing
  rwa [length_nodes, ← isSome_debugWithin] at hspan

/-- All texts end exactly if no container shows itself. -/
theorem prints_all_iff : (∀ v, s.Prints v) ↔ s.printing.Acyclic := by
  constructor
  · exact fun h => Walk.acyclic_of_grounded fun m v _ => prints_iff.1 (h v)
  · exact fun h v => prints_iff.2 ⟨_, h.within covers_printing v⟩

instance : Decidable s.printing.Acyclic :=
  decidable_of_iff _ (Walk.acyclic_iff_within (covers_printing (s := s))).symm

/-! ## Steps after a write -/

/-- What a text shows after a write is what it showed before, and the value in its hash. -/
theorem printing_step_assign {key : Key} (hstep : (s.modifyHash h (·.assign key v)).printing.Step m n) :
    s.printing.Step m n ∨ m = .hash h ∧ v.shown? = some n := by
  obtain ⟨w, hw, hn⟩ := hstep
  cases m with
  | array a => exact .inl ⟨w, hw, hn⟩
  | slot slot => cases hw
  | hash i =>
    obtain ⟨e, he, hw⟩ := List.mem_flatMap.1 hw
    rcases hash_modifyHash_cases (s := s) (h := h) (i := i) (f := (·.assign key v)) with hi | ⟨rfl, hi⟩ <;> rw [hi] at he
    · exact .inl ⟨w, List.mem_flatMap.2 ⟨e, he, hw⟩, hn⟩
    · obtain ⟨f, hf, rfl⟩ := List.mem_map.1 he
      split at hw
      · rcases List.mem_cons.1 hw with rfl | hw
        · exact .inl ⟨_, List.mem_flatMap.2 ⟨f, hf, List.mem_cons_self⟩, hn⟩
        · cases Option.mem_toList.1 hw
          exact .inr ⟨rfl, hn⟩
      · exact .inl ⟨w, List.mem_flatMap.2 ⟨f, hf, hw⟩, hn⟩

/-- Only what the hash itself shows is changed. -/
theorem printing_step_modifyHash {f : Table → Table} (hstep : s.printing.Step m n) (hm : m ≠ .hash h) :
    (s.modifyHash h f).printing.Step m n := by
  obtain ⟨w, hw, hn⟩ := hstep
  refine ⟨w, ?_, hn⟩
  cases m with
  | array a => exact hw
  | slot slot => exact hw
  | hash i =>
    have hi : (s.modifyHash h f).hash i = s.hash i := hash_modifyHash_of_ne fun heq => hm (congrArg Node.hash heq)
    change w ∈ ((s.modifyHash h f).hash i).entries.flatMap _
    rwa [hi]

/-- The value that was written is shown. -/
theorem printing_step_written (hl : s.isLive slot = true) (hv : v.shown? = some n) :
    (s.modifyHash slot.origin (·.assign slot.key v)).printing.Step (.hash slot.origin) n := by
  obtain ⟨e, he⟩ := Option.isSome_iff_exists.1 hl
  have he : (s.hash slot.origin).find? slot.key = some e := (Option.filter_eq_some_iff.1 he).1
  have hmem := List.mem_of_find?_eq_some he
  have hkey := Table.key_of_find?_eq_some he
  refine ⟨v, List.mem_flatMap.2 ⟨{ e with value := v }, ?_, by simp⟩, hv⟩
  rw [hash_modifyHash_self (lt_of_mem_entries hmem)]
  exact List.mem_map.2 ⟨e, hmem, if_pos hkey⟩

/-! ## Writes that are accepted -/

/-- A write of `v` into the entry of `slot` that is accepted, through the slot or a reference to it. -/
inductive Takes (s : Store) (slot : Slot) (v : Value) : Store → Prop
  | set {t : Store} : s.setSlot slot v = some (.ok (), t) → Takes s slot v t
  | assign {t : Store} {r : Reference} : r.slot = slot → s.assignReference r v = some (.ok (), t) → Takes s slot v t

theorem Takes.setSlot (h : s.Takes slot v t) : s.setSlot slot v = some (.ok (), t) := by
  cases h with
  | set h => exact h
  | assign hr h =>
    subst hr
    exact assignReference_ok h

/-- No reference in the store, nor `v` itself, was made with an index that shows a container. -/
def PlainIndexes (s : Store) (v : Value) : Prop :=
  ∀ r : Reference, r.toValue = v ∨ (∃ m, r.toValue ∈ s.held m) → r.index.shown? = none

theorem PlainIndexes.step (hplain : s.PlainIndexes v) (hs : s.Keyed) (hstep : s.printing.Step m n) : s.Step m n := by
  obtain ⟨w, hw, hn⟩ := hstep
  have follow : w ∈ s.held m → s.Step m n := fun hw =>
    ⟨w, hw, Value.node?_of_shown? hn fun r hr => hplain r (.inr ⟨m, hr ▸ hw⟩)⟩
  cases m with
  | array a => exact follow hw
  | slot slot => cases hw
  | hash i =>
    obtain ⟨e, he, hw⟩ := List.mem_flatMap.1 hw
    rcases List.mem_cons.1 hw with rfl | hw
    · exact absurd hn (by simp [printing, Value.shown?_of_key? (hs i e he)])
    · exact follow (List.mem_filterMap.2 ⟨e, he, Option.mem_toList.1 hw⟩)

/-- With such indexes a text shows only what the cycle check meets. -/
theorem PlainIndexes.meets (hplain : s.PlainIndexes v) (hs : s.Keyed) (h' : s.Shows v h) : s.Meets v h := by
  obtain ⟨m, hv, hpath⟩ := h'
  refine ⟨m, .hash h, Value.node?_of_shown? hv fun r hr => hplain r (.inl hr), ?_, rfl⟩
  exact ReflTransGen.mono (fun m n => hplain.step hs) m (.hash h) hpath

theorem prints_assign_iff (hp : ∀ w, s.Prints w) (hl : s.isLive slot = true) :
    (∀ w, (s.modifyHash slot.origin (·.assign slot.key v)).Prints w) ↔ ¬ s.Shows v slot.origin := by
  rw [prints_all_iff] at hp ⊢
  constructor
  · rintro hacyclic ⟨d, hd, hpath⟩
    -- the path to the hash is there still, and goes on with the value written
    have hpath := reflTransGen_of_edges_from (fun _ _ => printing_step_modifyHash (f := (·.assign slot.key v))) hpath
    exact hacyclic _ (TransGen.head' (printing_step_written hl hd) hpath)
  · intro hshows
    cases hd : v.shown? with
    | none =>
      refine fun n hc => hp n (TransGen.mono (fun m n hstep => ?_) n n hc)
      rcases printing_step_assign hstep with hstep | ⟨-, hn⟩
      · exact hstep
      · simp [hd] at hn
    | some d =>
      intro n
      refine not_transGen_of_edges_into (S := (· = .hash slot.origin)) (d := d) (fun m n hstep => ?_) ?_ hp n
      · rcases printing_step_assign hstep with hstep | ⟨hm, hn⟩
        · exact .inl hstep
        · exact .inr ⟨hm, (Option.some.inj (hd.symm.trans hn)).symm⟩
      · rintro m rfl hpath
        exact hshows ⟨d, hd, hpath⟩

/-- All data paths and all texts end in `s`, and an accepted write leads to `t`: then all texts end
in `t` exactly if the text of the hash was not in the text of the value. With indexes that show no
container it never was. -/
theorem debug_after_write (ha : s.Acyclic) (hp : ∀ w, s.Prints w) (ht : s.Takes slot v t) :
    ((∀ w, t.Prints w) ↔ ¬ s.Shows v slot.origin) ∧ (s.Keyed → s.PlainIndexes v → ∀ w, t.Prints w) := by
  have hset := ht.setSlot
  obtain ⟨hl, rfl⟩ : s.isLive slot = true ∧ t = s.modifyHash slot.origin (·.assign slot.key v) := by
    rcases setSlot_eq_some hset with ⟨-, hl, ht⟩ | ⟨⟨e, he⟩, -⟩
    · exact ⟨hl, ht⟩
    · cases he
  have hiff := prints_assign_iff (v := v) hp hl
  refine ⟨hiff, fun hs hplain => hiff.2 fun hshows => ?_⟩
  -- the check has refused all values that meet the hash
  rcases setSlot_cases ha slot v with ⟨-, he⟩ | ⟨hmeets, -⟩
  · rw [he] at hset
    cases hset
  · exact hmeets (hplain.meets hs hshows)

/-- Two references to an entry of another hash are written into a slot: one whose index is an array with
the slot's own hash in it, and one whose index is the key. -/
theorem debug_after_write_indexes :
    let s : Store := {
      arrays := #[{ elements := #[.void, .hash ⟨0⟩] }]
      hashes := #[{ entries := [⟨.int 1, .int 1, some .void, 0⟩], nextGeneration := 1 },
        { entries := [⟨.int 1, .int 1, some .void, 0⟩], nextGeneration := 1 }] }
    s.WellFormed ∧ s.Acyclic ∧ (∀ w, s.Prints w) ∧
      (∃ t, s.Takes ⟨⟨0⟩, .int 1, 0⟩ (.ref ⟨⟨1⟩, .int 1, 0⟩ (.array ⟨0⟩) false) t ∧ ¬ ∀ w, t.Prints w) ∧
      ∃ t, s.Takes ⟨⟨0⟩, .int 1, 0⟩ (.ref ⟨⟨1⟩, .int 1, 0⟩ (.int 1) false) t ∧ ∀ w, t.Prints w := by
  intro s
  have hs : s.WellFormed := by decide +kernel
  have ha : s.Acyclic := by decide +kernel
  have hp : ∀ w, s.Prints w := prints_all_iff.2 (by decide +kernel)
  have hset : ∀ index, s.setSlot ⟨⟨0⟩, .int 1, 0⟩ (.ref ⟨⟨1⟩, .int 1, 0⟩ index false) =
      some (.ok (), s.modifyHash ⟨0⟩ (·.assign (.int 1) (.ref ⟨⟨1⟩, .int 1, 0⟩ index false))) := fun _ => rfl
  have hshows : s.Shows (.ref ⟨⟨1⟩, .int 1, 0⟩ (.array ⟨0⟩) false) ⟨0⟩ :=
    ⟨.array ⟨0⟩, rfl, .single ⟨.hash ⟨0⟩, by decide, rfl⟩⟩
  have hplain : s.PlainIndexes (.ref ⟨⟨1⟩, .int 1, 0⟩ (.int 1) false) := by
    -- the store holds no reference
    have hnone : ∀ m ∈ s.nodes, ∀ w ∈ s.held m, w.reference? = none := by decide +kernel
    rintro r (hr | ⟨m, hr⟩)
    · cases r
      cases hr
      rfl
    · cases hnone m (mem_nodes_of_mem_held hr) _ hr
  refine ⟨hs, ha, hp, ⟨_, .set (hset _), fun h => ?_⟩, ⟨_, .set (hset _), ?_⟩⟩
  · exact (debug_after_write ha hp (.set (hset _))).1.1 h hshows
  · exact (debug_after_write ha hp (.set (hset _))).2 hs.keyed hplain

/-- A slot takes a reference to an entry of another hash whose index is the slot's own hash. All paths
in the data and all debug texts end before, and after it the debug text of the hash does not. -/
theorem accepted_write_unprintable :
    let s : Store := { hashes := #[{ entries := [⟨.int 1, .int 1, some .void, 0⟩], nextGeneration := 1 },
      { entries := [⟨.int 1, .int 1, some .void, 0⟩], nextGeneration := 1 }] }
    ∃ t, s.WellFormed ∧ s.Acyclic ∧ (∀ w, s.Prints w) ∧
      s.setSlot ⟨⟨0⟩, .int 1, 0⟩ (.ref ⟨⟨1⟩, .int 1, 0⟩ (.hash ⟨0⟩) false) = some (.ok (), t) ∧
      ¬ t.Prints (.hash ⟨0⟩) := by
  intro s
  refine ⟨_, by decide +kernel, by decide +kernel, prints_all_iff.2 (by decide +kernel), rfl, fun h => ?_⟩
  obtain ⟨k, hk⟩ := prints_iff.1 h
  exact hk.not_transGen rfl (.single ⟨.ref ⟨⟨1⟩, .int 1, 0⟩ (.hash ⟨0⟩) false, by decide +kernel, rfl⟩)

end Store

end CopyOnBind
