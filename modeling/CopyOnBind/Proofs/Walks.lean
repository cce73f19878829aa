import Mathlib.Data.List.Basic
import Mathlib.Logic.Relation
/-!
# Walks and their lengths

A walk goes from a value to the node that the value leads to, from there to the values
found at the node, and so on. Different walks over one store find different values: what a
copy follows is not what a debug text shows. Whether all paths end does not depend on that.

`Grounded.within`: from a value whose paths all end, no path meets more nodes than there
are. `acyclic_iff_within`: where the nodes are counted, the absence of cycles is decidable.
`not_transGen_of_edges_into` and `reflTransGen_of_edges_from` say what edges of one kind
can add to a graph.
-/

namespace CopyOnBind

open Relation

/-! ## Edges added to a relation -/

section Edges

variable {α : Type} {r r' : α → α → Prop} {S : α → Prop} {d : α}

/-- Edges into `d` make no cycle if no source of theirs can be reached from `d`. -/
theorem not_transGen_of_edges_into (hr' : ∀ m n, r' m n → r m n ∨ S m ∧ n = d)
    (hd : ∀ m, S m → ¬ ReflTransGen r d m) (hr : ∀ n, ¬ TransGen r n n) (n : α) : ¬ TransGen r' n n := by
  -- a path from `d` uses no new edge, since it would have to reach a source first
  have stays : ∀ m, ReflTransGen r' d m → ReflTransGen r d m := by
    intro m h
    induction h with
    | refl => exact .refl
    | tail _ hstep ih =>
      rcases hr' _ _ hstep with h | ⟨h, -⟩
      · exact ih.tail h
      · exact absurd ih (hd _ h)
  -- cut a path at its first new edge
  have splits : ∀ m, TransGen r' n m → TransGen r n m ∨ ∃ x, S x ∧ ReflTransGen r n x ∧ ReflTransGen r' d m := by
    intro m h
    induction h with
    | single hstep =>
      rcases hr' _ _ hstep with h | ⟨h, rfl⟩
      · exact .inl (.single h)
      · exact .inr ⟨_, h, .refl, .refl⟩
    | tail _ hstep ih =>
      rcases ih with h | ⟨x, hx, hnx, hdm⟩
      · rcases hr' _ _ hstep with h' | ⟨h', rfl⟩
        · exact .inl (h.tail h')
        · exact .inr ⟨_, h', h.to_reflTransGen, .refl⟩
      · exact .inr ⟨x, hx, hnx, hdm.tail hstep⟩
  intro h
  rcases splits n h with h | ⟨x, hx, hnx, hdn⟩
  · exact hr n h
  · exact hd x hx ((stays n hdn).trans hnx)

/-- A path to `d` is there still, up to where it first meets `d`, if only edges from `d` are gone. -/
theorem reflTransGen_of_edges_from (hr : ∀ m n, r m n → m ≠ d → r' m n) {m : α} (h : ReflTransGen r m d) :
    ReflTransGen r' m d := by
  induction h using ReflTransGen.head_induction_on with
  | refl => exact .refl
  | @head m n hstep _ ih =>
    by_cases hm : m = d
    · rw [hm]
    · exact ih.head (hr m n hstep hm)

end Edges

/-! ## Walks -/

/-- The node that a value leads to, and the values found at a node. -/
structure Walk (α ν : Type) where
  node? : α → Option ν
  held : ν → List α

namespace Walk

variable {α ν : Type} {W : Walk α ν} {v w : α} {m n : ν} {k : Nat} {avail : List ν}

/-- The values found one step after a value. -/
def children (W : Walk α ν) (v : α) : List α := ((W.node? v).map W.held).getD []

def Step (W : Walk α ν) (m n : ν) : Prop := ∃ v ∈ W.held m, W.node? v = some n

/-- No path comes back to a node. -/
def Acyclic (W : Walk α ν) : Prop := ∀ n, ¬ TransGen W.Step n n

/-- No path from `v` meets more than `n` nodes. -/
def Within (W : Walk α ν) : Nat → α → Prop
  | 0, v => W.node? v = none
  | n + 1, v => ∀ w ∈ W.children v, W.Within n w

/-- All paths from `v` end. -/
def Grounded (W : Walk α ν) (v : α) : Prop := ∃ n, W.Within n v

/-- These are all the nodes at which values are found. -/
def Covers (W : Walk α ν) (avail : List ν) : Prop := ∀ m, ∀ v ∈ W.held m, m ∈ avail

theorem children_of_node? (h : W.node? v = some m) : W.children v = W.held m := by
  simp [children, h]

theorem children_of_node?_none (h : W.node? v = none) : W.children v = [] := by
  simp [children, h]

instance decidableWithin [DecidableEq ν] : (n : Nat) → (v : α) → Decidable (W.Within n v)
  | 0, v => inferInstanceAs (Decidable (W.node? v = none))
  | n + 1, v =>
    have := decidableWithin n
    inferInstanceAs (Decidable (∀ w ∈ W.children v, W.Within n w))

/-! ## Bounds on paths -/

/-- One step from a value, with one step less to go. -/
theorem Within.step (h : W.Within k v) (hv : W.node? v = some m) (hstep : W.Step m n) :
    ∃ j w, k = j + 1 ∧ W.Within j w ∧ W.node? w = some n := by
  cases k with
  | zero => simp [Within, hv] at h
  | succ k =>
    obtain ⟨w, hw, hn⟩ := hstep
    exact ⟨k, w, rfl, h w (by rwa [children_of_node? hv]), hn⟩

theorem Within.path (h : W.Within k v) (hv : W.node? v = some m) (hp : ReflTransGen W.Step m n) :
    ∃ j w, j ≤ k ∧ W.Within j w ∧ W.node? w = some n ∧ (m = n ∨ j < k) := by
  induction hp with
  | refl => exact ⟨k, v, Nat.le_refl k, h, hv, .inl rfl⟩
  | tail _ hstep ih =>
    obtain ⟨j, w, hjk, hw, hn, -⟩ := ih
    obtain ⟨i, u, rfl, hu, hun⟩ := hw.step hn hstep
    exact ⟨i, u, by omega, hu, hun, .inr (by omega)⟩

/-- No cycle starts at a value whose paths end. -/
theorem Within.not_transGen (h : W.Within k v) (hv : W.node? v = some m) : ¬ TransGen W.Step m m := by
  induction k using Nat.strongRecOn generalizing v with
  | _ k ih =>
    intro hc
    obtain ⟨x, hmx, hxm⟩ := TransGen.head'_iff.1 hc
    obtain ⟨j, w, rfl, hw, hwn⟩ := h.step hv hmx
    obtain ⟨i, u, hij, hu, hun, -⟩ := hw.path hwn hxm
    exact ih i (by omega) hu hun hc

theorem acyclic_of_grounded (h : ∀ m, ∀ v ∈ W.held m, W.Grounded v) : W.Acyclic := by
  intro n hc
  obtain ⟨x, -, v, hv, hn⟩ := TransGen.tail'_iff.1 hc
  obtain ⟨k, hk⟩ := h x v hv
  exact hk.not_transGen hn hc

section

variable [DecidableEq ν]

/-- From a value that leads into no cycle, paths are no longer than there are nodes. -/
theorem within_of_not_transGen (avail : List ν) (hv : ∀ m n, W.node? v = some m → ReflTransGen W.Step m n →
    ¬ TransGen W.Step n n ∧ ∀ w ∈ W.held n, n ∈ avail) : W.Within (avail.length + 1) v := by
  generalize hk : avail.length = k
  induction k generalizing avail v with
  | zero =>
    intro w hw
    cases hm : W.node? v with
    | none => simp [children_of_node?_none hm] at hw
    | some m =>
      rw [children_of_node? hm] at hw
      have := (hv m m hm .refl).2 w hw
      simp [List.length_eq_zero_iff.1 hk] at this
  | succ k ih =>
    intro w hw
    cases hm : W.node? v with
    | none => simp [children_of_node?_none hm] at hw
    | some m =>
      rw [children_of_node? hm] at hw
      obtain ⟨hmm, hmem⟩ := hv m m hm .refl
      -- the walk never comes back to `m`, so `m` is no longer available
      refine ih (avail.erase m) ?_ (by rw [List.length_erase_of_mem (hmem w hw)]; omega)
      intro x n hx hxn
      have hmx : W.Step m x := ⟨w, hw, hx⟩
      obtain ⟨hn, hmemn⟩ := hv m n hm (hxn.head hmx)
      refine ⟨hn, fun u hu => (List.mem_erase_of_ne ?_).2 (hmemn u hu)⟩
      rintro rfl
      exact hmm (TransGen.head' hmx hxn)

/-- The number of nodes is bound enough for every value from which all paths end. -/
theorem Grounded.within (h : W.Grounded v) (hall : W.Covers avail) : W.Within (avail.length + 1) v := by
  obtain ⟨k, hk⟩ := h
  refine within_of_not_transGen avail fun m n hm hmn => ⟨?_, hall n⟩
  obtain ⟨j, w, -, hw, hn, -⟩ := hk.path hm hmn
  exact hw.not_transGen hn

theorem Acyclic.within (h : W.Acyclic) (hall : W.Covers avail) (v : α) : W.Within (avail.length + 1) v :=
  within_of_not_transGen avail fun _ n _ _ => ⟨h n, hall n⟩

theorem acyclic_iff_within (hall : W.Covers avail) :
    W.Acyclic ↔ ∀ m ∈ avail, ∀ v ∈ W.held m, W.Within (avail.length + 1) v := by
  constructor
  · exact fun h m _ v _ => h.within hall v
  · exact fun h => acyclic_of_grounded fun m v hv => ⟨_, h m (hall m v hv) v hv⟩

end

end Walk

end CopyOnBind
