import CopyOnBind.Proofs.History
/-!
# Hashes from pairs

A hash that is made from a list of pairs has an entry for each key of the list. A pair whose
key was there before replaces the value of the entry and nothing else, so the entry keeps the
key value and the number of the first pair, and has the value of the last one. One pair is
filed after the other, so what is true of the list so far is kept by each (`Tabulates.assign`,
`Tabulates.create`).

`hash_from_pairs`: only a pair whose key value is no key makes this fail, and the first such
pair is the one that is told.
-/

namespace CopyOnBind

/-- The keys of a list of pairs, in order and with repetitions. -/
def keysOf (pairs : List (Value × Value)) : List Key := pairs.filterMap fun p => p.1.key?

/-- The table files the pairs: an entry for each key, in the order in which the keys come first. -/
structure Tabulates (pairs : List (Value × Value)) (t : Table) : Prop where
  distinct : (t.entries.map Entry.key).Nodup
  keys : ∀ k, k ∈ t.entries.map Entry.key ↔ k ∈ keysOf pairs
  order : (t.entries.map Entry.key).Pairwise fun k l => (keysOf pairs).idxOf k < (keysOf pairs).idxOf l
  /-- The key value is that of the first pair with the key. -/
  written : ∀ e ∈ t.entries, (pairs.find? (·.1.key? == some e.key)).map Prod.fst = some e.written
  /-- The value is that of the last pair with the key. -/
  value : ∀ e ∈ t.entries, e.value.isSome ∧ (pairs.reverse.find? (·.1.key? == some e.key)).map Prod.snd = e.value
  /-- Entries are numbered from nought, as far as the numbers go. -/
  generation : t.entries.map Entry.generation = (List.range t.size).map UInt64.ofNat
  nextGeneration : t.nextGeneration = UInt64.ofNat t.size
  unmarked : t.marked = false

theorem keysOf_append (pairs : List (Value × Value)) {p : Value × Value} {k : Key} (hk : p.1.key? = some k) :
    keysOf (pairs ++ [p]) = keysOf pairs ++ [k] := by
  simp [keysOf, hk]

namespace Table

variable {t : Table} {k : Key}

@[simp] theorem size_assign {value : Value} : (t.assign k value).size = t.size := by simp [size, assign]

@[simp] theorem size_create {written : Value} {value : Option Value} : (t.create k written value).size = t.size + 1 := by
  simp [size, create]

/-- A pair is filed after all that come before it. -/
theorem ofPairs_append (pairs : List (Value × Value)) (p : Value × Value) :
    ofPairs (pairs ++ [p]) = (ofPairs pairs).bind fun t =>
      if p.1.key?.isSome then .ok ((t.insertion p.1 p.2).apply t) else .error (.unhashableKey p.1.kind) := by
  unfold ofPairs
  rw [List.foldlM_append]
  refine bind_congr fun t => ?_
  have happly : (t.insertValue p.1 p.2).2 = _ := insertValue_eq_apply
  rw [← happly, List.foldlM_cons]
  simp only [List.foldlM_nil, bind_pure]
  unfold insertValue
  cases p.1.key? <;> rfl

end Table

namespace Tabulates

variable {pairs : List (Value × Value)} {p : Value × Value} {t : Table} {k l : Key}

theorem nil : Tabulates [] {} := ⟨.nil, fun _ => Iff.rfl, .nil, nofun, nofun, rfl, rfl, rfl⟩

theorem find?_reverse_append (p : Value × Value) (hk : p.1.key? = some k) :
    (pairs ++ [p]).reverse.find? (·.1.key? == some l) =
      if k = l then some p else pairs.reverse.find? (·.1.key? == some l) := by
  rw [List.reverse_append, List.reverse_singleton, List.singleton_append, List.find?_cons, hk]
  by_cases h : k = l
  · simp [h]
  · simp [h, beq_false_of_ne h]

/-- The first pair with a key is not another one because of a pair at the end. -/
theorem find?_append (h : Tabulates pairs t) {e : Entry} (he : e ∈ t.entries) (p : Value × Value) :
    (pairs ++ [p]).find? (·.1.key? == some e.key) = pairs.find? (·.1.key? == some e.key) := by
  have hwritten := h.written e he
  rw [List.find?_append]
  cases hf : pairs.find? (·.1.key? == some e.key) with
  | none => simp [hf] at hwritten
  | some q => rfl

theorem assign (h : Tabulates pairs t) (hk : p.1.key? = some k) (hin : t.contains k = true) :
    Tabulates (pairs ++ [p]) (t.assign k p.2) where
  distinct := by
    rw [Table.map_assign fun _ _ => rfl]
    exact h.distinct
  keys l := by
    have hmem := (h.keys k).1 (Table.contains_iff.1 hin)
    rw [Table.map_assign fun _ _ => rfl, h.keys, keysOf_append _ hk, List.mem_append, List.mem_singleton]
    constructor
    · exact .inl
    · rintro (hl | rfl)
      · exact hl
      · exact hmem
  order := by
    rw [Table.map_assign fun _ _ => rfl, keysOf_append _ hk]
    refine h.order.imp_of_mem fun {l m} hl hm hlt => ?_
    rwa [List.idxOf_append_of_mem ((h.keys l).1 hl), List.idxOf_append_of_mem ((h.keys m).1 hm)]
  written e he := by
    obtain ⟨f, hf, rfl⟩ := List.mem_map.1 he
    have hwritten := h.written f hf
    rw [← h.find?_append hf p] at hwritten
    split <;> exact hwritten
  value e he := by
    obtain ⟨f, hf, rfl⟩ := List.mem_map.1 he
    rw [find?_reverse_append p hk]
    by_cases hkf : f.key = k
    · simp [hkf]
    · rw [if_neg hkf, if_neg (Ne.symm hkf)]
      exact h.value f hf
  generation := by
    rw [Table.map_assign fun _ _ => rfl, Table.size_assign]
    exact h.generation
  nextGeneration := by
    rw [Table.size_assign]
    exact h.nextGeneration
  unmarked := h.unmarked

theorem create (h : Tabulates pairs t) (hk : p.1.key? = some k) (hnone : t.contains k = false) :
    Tabulates (pairs ++ [p]) (t.create k p.1 (some p.2)) := by
  have hkeys : (t.create k p.1 (some p.2)).entries.map Entry.key = t.entries.map Entry.key ++ [k] := by
    simp [Table.create]
  have hnew : k ∉ t.entries.map Entry.key := fun hin => by simp [Table.contains_iff.2 hin] at hnone
  have hnew' : k ∉ keysOf pairs := fun hin => hnew ((h.keys k).2 hin)
  -- no pair before has the key
  have hfirst : pairs.find? (·.1.key? == some k) = none := by
    rw [List.find?_eq_none]
    intro q hq hqk
    exact hnew' (List.mem_filterMap.2 ⟨q, hq, eq_of_beq hqk⟩)
  refine ⟨?_, fun l => ?_, ?_, fun e he => ?_, fun e he => ?_, ?_, ?_, h.unmarked⟩
  · rw [hkeys, List.nodup_append]
    exact ⟨h.distinct, by simp, fun l hl m hm hlm => hnew (List.mem_singleton.1 hm ▸ hlm ▸ hl)⟩
  · rw [hkeys, keysOf_append _ hk, List.mem_append, List.mem_append, h.keys]
  · rw [hkeys, keysOf_append _ hk, List.pairwise_append]
    refine ⟨h.order.imp_of_mem fun {l m} hl hm hlt => ?_, List.pairwise_singleton _ _, fun l hl m hm => ?_⟩
    · rwa [List.idxOf_append_of_mem ((h.keys l).1 hl), List.idxOf_append_of_mem ((h.keys m).1 hm)]
    · rw [List.mem_singleton.1 hm, List.idxOf_append_of_mem ((h.keys l).1 hl), List.idxOf_append_of_notMem hnew']
      exact Nat.lt_add_right _ (List.idxOf_lt_length_of_mem ((h.keys l).1 hl))
  · rcases List.mem_append.1 he with he | he
    · rw [h.find?_append he]
      exact h.written e he
    · rw [List.mem_singleton] at he
      subst he
      simp [List.find?_append, hfirst, hk]
  · rw [find?_reverse_append p hk]
    rcases List.mem_append.1 he with he | he
    · have hke : k ≠ e.key := fun hke => hnew (hke ▸ List.mem_map_of_mem he)
      rw [if_neg hke]
      exact h.value e he
    · rw [List.mem_singleton] at he
      subst he
      simp
  · rw [Table.size_create, List.range_succ, List.map_append, ← h.generation, List.map_singleton, ← h.nextGeneration]
    simp [Table.create]
  · rw [Table.size_create, Table.create, h.nextGeneration]
    exact (UInt64.ofNat_add _ _).symm

theorem insertion (h : Tabulates pairs t) (hk : p.1.key? = some k) :
    Tabulates (pairs ++ [p]) ((t.insertion p.1 p.2).apply t) := by
  cases hin : t.contains k with
  | true =>
    have hassign : t.insertion p.1 p.2 = .assign k p.2 := by simp [Table.insertion, hk, hin]
    rw [hassign]
    exact h.assign hk hin
  | false =>
    have hcreate : t.insertion p.1 p.2 = .create k p.1 (some p.2) := by simp [Table.insertion, hk, hin]
    rw [hcreate]
    exact h.create hk hin

end Tabulates

/-- What comes of a list of pairs: a table that files them, or the first key value that is no key. -/
theorem Table.ofPairs_spec (pairs : List (Value × Value)) :
    match pairs.find? (·.1.key?.isNone) with
    | some p => Table.ofPairs pairs = .error (.unhashableKey p.1.kind)
    | none => ∃ t, Table.ofPairs pairs = .ok t ∧ Tabulates pairs t := by
  induction pairs using List.reverseRecOn with
  | nil => exact ⟨{}, rfl, .nil⟩
  | append_singleton pairs p ih =>
    rw [List.find?_append, Table.ofPairs_append]
    cases hf : pairs.find? (·.1.key?.isNone) with
    | some q =>
      rw [hf] at ih
      rw [ih]
      rfl
    | none =>
      rw [hf] at ih
      obtain ⟨t, ht, htab⟩ := ih
      rw [ht, Option.none_or, List.find?_singleton]
      cases hk : p.1.key? with
      | none => rfl
      | some k => exact ⟨_, rfl, htab.insertion hk⟩

example : Table.ofPairs [(.int 1, .bool true), (.str "a", .void), (.int 1, .char 'x')] = .ok
    { entries := [⟨.int 1, .int 1, some (.char 'x'), 0⟩, ⟨.str "a", .str "a", some .void, 1⟩]
      nextGeneration := 2 } := rfl

namespace Store

variable {s : Store} {pairs : List (Value × Value)}

theorem newHashOf_of_error {f : Fault} (h : Table.ofPairs pairs = .error f) : s.newHashOf pairs = (.error f, s) := by
  rw [newHashOf, h]

theorem newHashOf_of_ok {t : Table} (h : Table.ofPairs pairs = .ok t) :
    s.newHashOf pairs = (.ok (s.newHash t).1, (s.newHash t).2) := by
  rw [newHashOf, h]

/-- What making a hash from a list of pairs gives, and the store afterwards. -/
structure Makes (s : Store) (pairs : List (Value × Value)) (result : Except Fault HashId) (t : Store) : Prop where
  /-- The first key value that is no key is told. -/
  error : ∀ f, result = .error f ↔ ∃ p, pairs.find? (·.1.key?.isNone) = some p ∧ f = .unhashableKey p.1.kind
  unchanged : ∀ f, result = .error f → t = s
  table : ∀ h, result = .ok h → ¬ s.Knows (.hash h) ∧ t.Knows (.hash h) ∧ Tabulates pairs (t.hash h)
  others : s.Extends t

/-- Making a hash fails exactly if some key value is no key; a pair whose key is there already is
never refused. -/
theorem hash_from_pairs (s : Store) (pairs : List (Value × Value)) :
    s.Makes pairs (s.newHashOf pairs).1 (s.newHashOf pairs).2 ∧
      ∀ (t : Table) (key value : Value), (t.insertValue key value).1 ≠ .error .alreadyPresent := by
  constructor
  · have hspec := Table.ofPairs_spec pairs
    have hothers := Extends.newHashOf s pairs
    cases hf : pairs.find? (·.1.key?.isNone) with
    | some p =>
      rw [hf] at hspec
      rw [newHashOf_of_error hspec] at hothers ⊢
      refine ⟨fun f => ?_, fun _ _ => rfl, nofun, hothers⟩
      simp [hf, eq_comm]
    | none =>
      rw [hf] at hspec
      obtain ⟨table, htable, htab⟩ := hspec
      rw [newHashOf_of_ok htable] at hothers ⊢
      refine ⟨fun f => ?_, nofun, ?_, hothers⟩
      · simp [hf]
      · rintro h ⟨⟩
        refine ⟨Nat.lt_irrefl _, (knows_newHash rfl).2 (.inr rfl), ?_⟩
        rw [hash_newHash_self]
        exact htab
  · intro t key value
    unfold Table.insertValue
    split <;> nofun

end Store

end CopyOnBind
