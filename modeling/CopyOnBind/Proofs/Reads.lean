import CopyOnBind.Proofs.Equality
import CopyOnBind.Proofs.Linked
/-!
# What copies read

A copy of an unmarked value reads all arrays that the value leads to, and a copy
of a marked container reads no other one (`copyReads_spec`). So whether a push is
in conflict with the copy that it makes can always be told, if the data are free
of cycles.

In linked stores the second run has no conflict where the first has none
(`Linked.copyReads`): from what was made since the start a walk meets no array
that a name stands for, and from a container of the start it meets the same ones
in both stores.
-/

namespace CopyOnBind

open Relation

namespace Store

variable {s₀ s t : Store} {v v' : Value} {a a' : ArrayId} {k : Nat} {r : ScopeId} {x : String}

/-- A walk from the value meets the array. -/
def LeadsTo (s : Store) (v : Value) (a : ArrayId) : Prop := ReflTransGen (fun v w => w ∈ s.children v) v (.array a)

theorem leadsTo_iff : s.LeadsTo v a ↔ v = .array a ∨ ∃ w ∈ s.children v, s.LeadsTo w a := ReflTransGen.cases_head_iff

theorem not_leadsTo_of_node?_none (hv : v.node? = none) : ¬ s.LeadsTo v a := by
  rw [leadsTo_iff]
  rintro (rfl | ⟨w, hw, -⟩)
  · cases hv
  · simp [children_of_node?_none hv] at hw

/-- With steps enough for all its paths, a snapshot reads the arrays that these meet. -/
theorem snapshotReadsWithin_spec (hk : s.Within k v) :
    ∃ b, s.snapshotReadsWithin a k v = some b ∧ (b = true ↔ s.LeadsTo v a) := by
  have flat : ∀ {v : Value} {k}, v.node? = none → s.snapshotReadsWithin a k v = some false →
      ∃ b, s.snapshotReadsWithin a k v = some b ∧ (b = true ↔ s.LeadsTo v a) := fun hv he =>
    ⟨false, he, by simp [not_leadsTo_of_node?_none hv]⟩
  induction k generalizing v with
  | zero =>
    cases v with
    | array | hash | ref => cases hk
    | _ => exact flat rfl rfl
  | succ k ih =>
    cases v with
    | array b =>
      by_cases hb : b = a
      · exact ⟨true, by simp [snapshotReadsWithin, hb], by simp [hb, LeadsTo, ReflTransGen.refl]⟩
      · obtain ⟨c, hc, hm⟩ := exists_anyM fun w hw => ih (hk w hw)
        refine ⟨c, by rw [snapshotReadsWithin, if_neg hb]; exact hc, ?_⟩
        rw [hm, leadsTo_iff]
        simp [hb]
    | hash i =>
      obtain ⟨c, hc, hm⟩ := exists_anyM fun w hw => ih (hk w hw)
      refine ⟨c, hc, ?_⟩
      rw [hm, leadsTo_iff]
      simp
    | ref slot index constant =>
      unfold snapshotReadsWithin
      cases hval : s.slotValue? slot with
      | none =>
        refine ⟨false, rfl, ?_⟩
        rw [leadsTo_iff]
        simp [children, Value.node?, held, hval]
      | some w =>
        have hw : w ∈ s.children (.ref slot index constant) := by simp [children, Value.node?, held, hval]
        obtain ⟨b, hb, hm⟩ := ih (hk w hw)
        refine ⟨b, hb, ?_⟩
        rw [hm, leadsTo_iff (v := .ref slot index constant)]
        simp [children, Value.node?, held, hval]
    | _ => exact flat rfl rfl

/-- Whether a copy reads an array can be told, and it does so exactly if the array is what is copied,
or part of it where that is not marked. -/
theorem copyReads_spec (hv : s.Grounded v) :
    ∃ b, s.copyReads v a = some b ∧ (b = true ↔ v = .array a ∨ s.isMarked v = false ∧ s.LeadsTo v a) := by
  unfold copyReads
  cases hm : s.isMarked v with
  | true => exact ⟨v == .array a, rfl, by simp⟩
  | false =>
    obtain ⟨b, hb, hl⟩ := snapshotReadsWithin_spec (a := a) (within_span hv)
    refine ⟨b, hb, ?_⟩
    rw [hl, leadsTo_iff]
    simp

theorem isSome_copyReads (hv : s.Grounded v) : (s.copyReads v a).isSome := by
  obtain ⟨b, hb, -⟩ := copyReads_spec (a := a) hv
  rw [hb]
  rfl

/-! ## Linked stores -/

/-- What was made since the start leads to no array that a name stands for. -/
theorem Tidy.not_leadsTo (h : s₀.Tidy s) (ha : s.at? (.name r x) = some (.array a)) (hv : s₀.Fresh s v)
    (hne : v ≠ .array a) : ¬ s.LeadsTo v a := by
  intro hp
  have closed : ∀ w, ReflTransGen (fun v w => w ∈ s.children v) v w → s₀.Fresh s w ∧ w ≠ .array a := by
    intro w hw
    induction hw with
    | refl => exact ⟨hv, hne⟩
    | tail _ hstep ih => exact h.avoids ha ih _ hstep
  exact (closed _ hp).2 rfl

namespace Linked

variable (h : Linked s₀ s t) (ha : s.at? (.name r x) = some (.array a)) (ha' : t.at? (.name r x) = some (.array a'))
include h

/-- What a walk finds next from a container of the start in the second store, it finds alike in the first. -/
theorem exists_child {w' : Value} (hc : v.isContainer) (hk : s₀.Knows v) (hw : w' ∈ t.children v) :
    ∃ w ∈ s.children v, Alike s₀ s t w w' := by
  cases v with
  | array b =>
    obtain ⟨w, hws, halike⟩ := exists_of_forall₂ (h.arrays b hk).flip hw
    exact ⟨w, hws, halike⟩
  | hash i =>
    obtain ⟨⟨hentries, -⟩, hvalues⟩ := h.tables i hk
    obtain ⟨e, he, hval⟩ := List.mem_filterMap.1 hw
    rw [hentries] at he
    exact ⟨w', List.mem_filterMap.2 ⟨e, he, hval⟩, hvalues e he w' hval⟩
  | _ => cases hc

include ha ha'

/-- Alike values lead to the arrays of one name together. -/
theorem leadsTo (hp : t.LeadsTo v' a') (hv : Alike s₀ s t v v') (hne : s₀.Fresh t v' → v' ≠ .array a') :
    s.LeadsTo v a := by
  unfold LeadsTo at hp
  induction hp using ReflTransGen.head_induction_on generalizing v with
  | refl =>
    rcases hv with ⟨rfl, hc, hk⟩ | ⟨-, hf', -⟩
    · -- an array of the start is the same one in both stores
      rw [(h.alike_of_named ha ha').eq_of_knows rfl rfl (.inr hk)]
      exact .refl
    · exact absurd rfl (hne hf')
  | @head v' w' hw hrest ih =>
    rcases hv with ⟨rfl, hc, hk⟩ | ⟨-, hf', -⟩
    · obtain ⟨w, hws, halike⟩ := h.exists_child hc hk hw
      obtain ⟨i, hi⟩ := (mem_children_iff hc).1 hw
      exact .head hws (ih halike (h.on.ne_of_place ha' (p := .inside _ i) hi (by simp)))
    · exact absurd (.head hw hrest) (h.on.not_leadsTo ha' hf' (hne hf'))

theorem leadsTo_of_twin (hv : Twin s₀ s t v v') (hp : t.LeadsTo v' a') : s.LeadsTo v a := by
  cases hv with
  | paired _ _ hpaired =>
    refine absurd hp (h.on.not_leadsTo ha' hpaired.on.fresh ?_)
    rintro rfl
    exact hpaired.on.not_at? rfl ha'
  | old _ hc hk => exact h.leadsTo ha ha' hp (.inl ⟨rfl, hc, hk⟩) fun hf => absurd hk (hf.not_knows hc)
  | named e y _ _ hat hat' =>
    by_cases hey : Place.name e y = .name r x
    · cases hey
      cases ha.symm.trans hat
      exact .refl
    · exact h.leadsTo ha ha' hp (h.alike_of_named hat hat') (h.on.ne_of_place ha' hat' hey)

/-- A push that is in no conflict in the first run is in none in the second. -/
theorem copyReads (hv : Given s₀ s t v v') (hfree : s.copyReads v a = some false) : t.copyReads v' a' = some false := by
  obtain ⟨b, hb, hiff⟩ := copyReads_spec (a := a) (h.off.acyclic.grounded v)
  obtain ⟨b', hb', hiff'⟩ := copyReads_spec (a := a') (h.on.acyclic.grounded v')
  cases hb.symm.trans hfree
  have hnot : ¬ s.LeadsTo v a := fun hp => absurd (hiff.2 (.inr ⟨h.unmarked v, hp⟩)) (by simp)
  rw [hb']
  cases b' with
  | false => rfl
  | true =>
    exfalso
    rcases hv with hv | hheld
    · have hp : t.LeadsTo v' a' := by
        rcases hiff'.1 rfl with rfl | ⟨-, hp⟩
        · exact .refl
        · exact hp
      exact hnot (h.leadsTo_of_twin ha ha' hv hp)
    · -- a marked copy is stored under no name
      rcases hiff'.1 rfl with rfl | ⟨hm, -⟩
      · exact (h.on.marked _ hheld.marked).2.2.2 _ ha'
      · rw [hheld.marked] at hm
        cases hm

end Linked

end Store

end CopyOnBind
