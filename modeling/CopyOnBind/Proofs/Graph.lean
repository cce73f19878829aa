import CopyOnBind.Proofs.Walks
import CopyOnBind.Store.Lemmas
import CopyOnBind.Store.Slot
/-!
# Data as a graph

A walk over data goes from a container to the values it holds, and from a
reference to the current value of its entry. Its nodes are therefore containers
and entries, and data are cyclic when a walk can come back to a node.

`within_span`: from a value that leads into no cycle, no path meets more than
`Store.span` nodes, so the bound that every walk of the store is given is
enough. `acyclic_iff_within` makes the absence of cycles decidable.
-/

namespace CopyOnBind

open Relation

/-! ## Nodes -/

/-- What a walk can come back to: a container, or the entry of a slot. -/
inductive Node where
  | array (a : ArrayId)
  | hash (h : HashId)
  | slot (slot : Slot)
deriving DecidableEq, Repr

/-- The hash that a node belongs to. -/
def Node.owner? : Node → Option HashId
  | .array _ => none
  | .hash h => some h
  | .slot t => some t.origin

namespace Value

/-- The node that a value leads to. -/
def node? : Value → Option Node
  | array a => some (.array a)
  | hash h => some (.hash h)
  | ref slot _ _ => some (.slot slot)
  | _ => none

def isContainer : Value → Bool
  | array _ | hash _ => true
  | _ => false

/-- Scalars and closures: they hold no other values, and what they run is code of the program. -/
def isSimple : Value → Bool
  | array _ | hash _ | ref .. | native _ => false
  | _ => true

theorem node?_of_isSimple {v : Value} (h : v.isSimple) : v.node? = none := by
  cases v <;> simp_all [isSimple, node?]

theorem kind_of_isSimple {v : Value} (h : v.isSimple) : v.kind ≠ .native := by
  cases v <;> simp_all [isSimple, kind]

theorem kind_of_isContainer {v : Value} (h : v.isContainer) : v.kind ≠ .native := by
  cases v <;> simp_all [isContainer, kind]

theorem isSimple_of_node?_none {v : Value} (hv : v.node? = none) (hk : v.kind ≠ .native) : v.isSimple := by
  cases v <;> simp_all [isSimple, node?, kind]

theorem eq_array_of_node? {v : Value} {a : ArrayId} (h : v.node? = some (.array a)) :
    v = .array a := by
  cases v <;> simp_all [node?]

end Value

namespace Store

variable {s t : Store} {v w : Value} {m n : Node}

/-- The values that a walk finds at a node. -/
def held (s : Store) : Node → List Value
  | .array a => (s.array a).elements.toList
  | .hash h => (s.hash h).values
  | .slot slot => (s.slotValue? slot).toList

/-- The values that a walk finds one step after a value. -/
def children (s : Store) (v : Value) : List Value := (v.node?.map s.held).getD []

/-- One step of a walk. -/
def Step (s : Store) (m n : Node) : Prop := ∃ v ∈ s.held m, v.node? = some n

/-- No walk comes back to a node. -/
def Acyclic (s : Store) : Prop := ∀ n, ¬ TransGen s.Step n n

/-- No path from `v` meets more than `n` nodes. -/
def Within (s : Store) : Nat → Value → Prop
  | 0, v => v.node? = none
  | n + 1, v => ∀ w ∈ s.children v, s.Within n w

/-- All paths from `v` end. -/
def Grounded (s : Store) (v : Value) : Prop := ∃ n, s.Within n v

instance decidableWithin : (n : Nat) → (v : Value) → Decidable (s.Within n v)
  | 0, v => inferInstanceAs (Decidable (v.node? = none))
  | n + 1, v =>
    have := decidableWithin n
    inferInstanceAs (Decidable (∀ w ∈ s.children v, s.Within n w))

/-- The nodes at which a walk can find values. -/
def nodes (s : Store) : List Node :=
  (List.range s.arrays.size).map (fun i => .array ⟨i⟩) ++
    ((List.range s.hashes.size).map (fun i => .hash ⟨i⟩) ++
      (List.range s.hashes.size).flatMap fun i =>
        (s.hash ⟨i⟩).entries.map fun e => .slot ⟨⟨i⟩, e.key, e.generation⟩)

theorem children_of_node? (h : v.node? = some m) : s.children v = s.held m := by
  simp [children, h]

theorem children_of_node?_none (h : v.node? = none) : s.children v = [] := by
  simp [children, h]

theorem lt_of_mem_elements {a : ArrayId} (h : w ∈ (s.array a).elements.toList) :
    a.index < s.arrays.size := by
  by_contra hlt
  simp [array_of_le (Nat.not_lt.1 hlt)] at h

theorem lt_of_mem_entries {i : HashId} {e : Entry} (h : e ∈ (s.hash i).entries) :
    i.index < s.hashes.size := by
  by_contra hlt
  simp [hash_of_le (Nat.not_lt.1 hlt)] at h

theorem slotValue?_eq_some {slot : Slot} :
    s.slotValue? slot = some v ↔
      ∃ e, (s.hash slot.origin).find? slot.key = some e ∧ e.generation = slot.generation ∧ e.value = some v := by
  simp only [slotValue?, entry?, Option.bind_eq_some_iff, Option.filter_eq_some_iff, beq_iff_eq]
  constructor
  · rintro ⟨e, ⟨he, hg⟩, hv⟩
    exact ⟨e, he, hg, hv⟩
  · rintro ⟨e, he, hg, hv⟩
    exact ⟨e, ⟨he, hg⟩, hv⟩

theorem mem_nodes_of_mem_held (h : w ∈ s.held m) : m ∈ s.nodes := by
  simp only [nodes, List.mem_append, List.mem_map, List.mem_range, List.mem_flatMap]
  cases m with
  | array a => exact .inl ⟨a.index, lt_of_mem_elements h, rfl⟩
  | hash i =>
    simp only [held, Table.values, List.mem_filterMap] at h
    obtain ⟨e, he, -⟩ := h
    exact .inr (.inl ⟨i.index, lt_of_mem_entries he, rfl⟩)
  | slot slot =>
    simp only [held, Option.mem_toList] at h
    obtain ⟨e, he, hg, -⟩ := slotValue?_eq_some.1 h
    have hmem := List.mem_of_find?_eq_some he
    have hk := Table.key_of_find?_eq_some he
    exact .inr (.inr ⟨slot.origin.index, lt_of_mem_entries hmem, e, hmem, by rw [hk, hg]⟩)

theorem length_nodes : s.nodes.length + 1 = s.span := by
  have hmap : (List.range s.hashes.size).map (fun i => s.hash ⟨i⟩) = s.hashes.toList := by
    apply List.ext_getElem?
    intro i
    by_cases hi : i < s.hashes.size
    · simp [hash, Array.getD_eq_getD_getElem?, hi]
    · simp [hi]
  have hlen : ((List.range s.hashes.size).flatMap fun i =>
      (s.hash ⟨i⟩).entries.map fun e => Node.slot ⟨⟨i⟩, e.key, e.generation⟩).length =
      (s.hashes.toList.flatMap Table.entries).length := by
    simp [← hmap, List.length_flatMap, List.flatMap_map]
  simp only [nodes, span, List.length_append, List.length_map, List.length_range, hlen]
  omega

/-! ## Bounds on paths -/

/-- The walk from containers to the values they hold, and from references to the values of their entries. -/
def data (s : Store) : Walk Value Node := ⟨Value.node?, s.held⟩

theorem within_data {k : Nat} : s.data.Within k v ↔ s.Within k v := by
  induction k generalizing v with
  | zero => rfl
  | succ k ih => exact forall₂_congr fun w _ => ih

theorem grounded_data : s.data.Grounded v ↔ s.Grounded v := exists_congr fun _ => within_data

theorem covers_nodes : s.data.Covers s.nodes := fun _ _ => mem_nodes_of_mem_held

/-- The bound that walks are given is enough for every value from which all paths end. -/
theorem within_span (h : s.Grounded v) : s.Within s.span v := by
  have hspan := (grounded_data.2 h).within covers_nodes
  rwa [length_nodes, within_data] at hspan

theorem Acyclic.grounded (h : s.Acyclic) (v : Value) : s.Grounded v :=
  ⟨_, within_data.1 (Walk.Acyclic.within (W := s.data) h covers_nodes v)⟩

theorem acyclic_of_grounded (h : ∀ m, ∀ v ∈ s.held m, s.Grounded v) : s.Acyclic :=
  Walk.acyclic_of_grounded (W := s.data) fun m v hv => grounded_data.2 (h m v hv)

theorem Acyclic.of_steps (hs : s.Acyclic) (h : ∀ m n, t.Step m n → s.Step m n) : t.Acyclic :=
  fun n hc => hs n (TransGen.mono h n n hc)

theorem acyclic_iff_within : s.Acyclic ↔ ∀ m ∈ s.nodes, ∀ v ∈ s.held m, s.Within s.span v := by
  have hiff := Walk.acyclic_iff_within (covers_nodes (s := s))
  simp only [length_nodes, within_data] at hiff
  exact hiff

instance : Decidable s.Acyclic := decidable_of_iff _ acyclic_iff_within.symm

end Store

end CopyOnBind
