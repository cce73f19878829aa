import CopyOnBind.Proofs.TidyRuns
/-!
# Value semantics

What a program stores behaves like a value: every container is stored at one
place and reached from nowhere else, so a write through one name is seen
through no other (`value_semantics`). This is so at all moments of all runs,
with copy elision and without it: an elided copy hands out a container only
while it is stored nowhere.
-/

namespace CopyOnBind

namespace Store

variable {s₀ s t : Store} {v c u : Value} {p q : Place}

/-- The value is bound to a name, or is an element of a stored container. -/
inductive StoredAt (s : Store) : Place → Value → Prop
  | name (e : ScopeId) (x : String) (v : Value) : s.at? (.name e x) = some v → StoredAt s (.name e x) v
  | inside (p : Place) (c : Value) (i : Nat) (v : Value) :
    StoredAt s p c → s.part? c i = some v → StoredAt s (.inside c i) v

theorem StoredAt.at? (h : s.StoredAt p v) : s.at? p = some v := by
  cases h with
  | name e x _ h => exact h
  | inside p c i _ _ h => exact h

structure ValueSemantics (s : Store) : Prop where
  /-- A stored container is stored at no other place. -/
  once : ∀ p c, s.StoredAt p c → c.isContainer → ∀ q, s.at? q = some c → q = p
  unmarked : ∀ p c, s.StoredAt p c → s.isMarked c = false
  acyclic : s.Acyclic

/-- The store of a fresh root scope. -/
def root : Store := (({} : Store).newScope none).2

theorem not_knows_root (hc : c.isContainer) : ¬ root.Knows c := by
  cases c <;> simp_all [Value.isContainer, Knows, root, newScope]

theorem at?_root : root.at? p = none := by
  cases p with
  | name e x => rw [root, at?_newScope]; rfl
  | inside c i =>
    by_contra h
    obtain ⟨v, hv⟩ := Option.ne_none_iff_exists'.1 h
    exact not_knows_root (isContainer_of_part? hv) (knows_of_part? hv)

theorem tidy_root : root.Tidy root := by
  refine tidy_refl (by decide) (by decide) (fun e x v hv => ?_) (fun p v hp => ?_) fun c => ?_
  · rw [at?_root] at hv
    cases hv
  · rw [at?_root] at hp
    cases hp
  · by_cases hc : c.isContainer
    · exact isMarked_of_not_knows (not_knows_root hc)
    · cases c <;> simp_all [Value.isContainer, isMarked]

theorem Tidy.valueSemantics (h : root.Tidy s) : s.ValueSemantics where
  once p c hp hc q hq := h.once q p c hc (not_knows_root hc) hq hp.at?
  unmarked p c hp := by
    by_contra hm
    exact (h.marked c (by simpa using hm)).2.2.2 p hp.at?
  acyclic := h.acyclic

/-- What is stored while a program runs was made by the program. -/
theorem Tidy.fresh_at? (h : root.Tidy s) (hp : s.at? p = some v) : root.Fresh s v := by
  cases p with
  | name e x => exact (h.named e x v hp).resolve_left (by simp [at?_root])
  | inside c i => exact h.inner c i v (not_knows_root (isContainer_of_part? hp)) hp

end Store

namespace Kernel

open Store

/-- A program with a fresh root scope, before it runs. -/
def start (policy : Policy) : World Trace := { store := root, machine := { policy }, notes := [] }

theorem push_eq_ok {e : ScopeId} {x : String} {v r : Value} {w w' : World Trace}
    (h : (push e x v).runOn w = (some (.ok r), w')) : ∃ d a c s, w.store.resolve e x = some d ∧
      w.store.at? (.name d x) = some (.array a) ∧ w.store.copy v = some (c, s) ∧ w'.store = s.push a c := by
  rw [runOn_push] at h
  cases hx : w.store.lookup e x with
  | none =>
    rw [hx] at h
    cases h
  | some target =>
    obtain ⟨d, hd, hat⟩ := lookup_eq_some hx
    rw [hx] at h
    cases target with
    | array a =>
      rcases hreads : w.store.copyReads v a with _ | _ | _ <;> simp only [hreads] at h
      · cases h
      · cases hc : w.store.copy v with
        | none =>
          rw [hc] at h
          cases h
        | some y =>
          rw [hc] at h
          cases h
          exact ⟨d, a, y.1, y.2, hd, hat, rfl, rfl⟩
      · cases h
    | _ => cases h

/-- A push through a name shows at no place but that name's. -/
theorem push_unseen {e : ScopeId} {x : String} {v r : Value} {w w' : World Trace} (hw : root.Tidy w.store)
    (hv : w.store.Admits v) (h : (push e x v).runOn w = (some (.ok r), w')) :
    ∃ d, w.store.resolve e x = some d ∧ ∀ q u, q ≠ .name d x → w.store.at? q = some u →
      w'.store.at? q = some u ∧ ∃ text, w.store.inspect u = some text ∧ w'.store.inspect u = some text := by
  obtain ⟨d, a, c, s, hd, hat, hc, hs⟩ := push_eq_ok h
  have hw' : root.Tidy w'.store := by
    have := (yields_push (e := e) (x := x) hw hv).1.tidy
    rwa [h] at this
  have htaken := hw.taken hv hc
  have ht := htaken.tidy
  refine ⟨d, hd, fun q u hq hu => ?_⟩
  have hats := htaken.at? hat
  have hus := htaken.at? hu
  have hknows : s.Knows (.array a) := ht.bound d x _ hats
  have hfresh := ht.fresh_at? hus
  have hne := ht.ne_of_place hats hus hq hfresh
  -- neither the copy nor the push changes the content of `u`, so its text stays
  obtain ⟨T, hT⟩ := exists_content_iff.2 (hw.acyclic.grounded u)
  refine ⟨hs ▸ at?_push_of_some hknows hus, T.inspect, inspect_of_content hw.wellFormed.keyed hT, ?_⟩
  refine inspect_of_content hw'.wellFormed.keyed ?_
  rw [hs, ht.content_push hats hfresh hne, htaken.content u (hw.knows_at? hu), hT]

/-- At every moment of every run, with any policy, what is stored has value
semantics; and whatever is pushed through a name then is seen at no other place. -/
theorem value_semantics (p : Program) (policy : Policy) (n : Nat) (code : List Stmt) (m : Moment) (s : Store)
    (h : (m, s) ∈ (run p record n ⟨0⟩ code (start policy)).2.notes) :
    s.ValueSemantics ∧
      ∀ (w₁ w₂ w₃ : World Trace) (k : Nat) (e : ScopeId) (x : String) (a : Expr) (v r : Value), w₁.store = s →
        (evalExpr p record k e a).runOn w₁ = (some (.ok v), w₂) → (push e x v).runOn w₂ = (some (.ok r), w₃) →
          ∃ d, w₂.store.resolve e x = some d ∧ ∀ q u, q ≠ .name d x → w₂.store.at? q = some u →
            w₃.store.at? q = some u ∧ ∃ text, w₂.store.inspect u = some text ∧ w₃.store.inspect u = some text := by
  obtain ⟨hon, -, -⟩ := (sound root p n).block ⟨0⟩ code (start policy) tidy_root
  obtain ⟨l, hl, ht⟩ := hon.notes
  have hrun : (run p record n ⟨0⟩ code (start policy)).2.notes = l := hl
  have hs : root.Tidy s := ht (m, s) (hrun ▸ h)
  refine ⟨hs.valueSemantics, fun w₁ w₂ w₃ k e x a v r hw₁ ha hp => ?_⟩
  subst hw₁
  obtain ⟨hon, hok, -⟩ := (sound root p k).expr e a w₁ hs
  rw [ha] at hon hok
  exact push_unseen hon.tidy (hok v rfl).1 hp

/-- A result that shares an array with a name until it is bound. -/
theorem value_semantics_of_result :
    ∃ x ∈ (run { blocks := #[[.ret (.name "a")]] } record 9 ⟨0⟩
        [.define "a" (.array [.int 1]), .define "f" (.function [] ⟨0, 1⟩), .define "b" (.call (.name "f") []),
          .push "a" (.int 2)] (start { copyElision := true })).2.notes,
      ((x.2.lookup ⟨0⟩ "a").bind x.2.inspect = some "[1, 2]" ∧ (x.2.lookup ⟨0⟩ "b").bind x.2.inspect = some "[1]") ∧
        x.2.ValueSemantics := by
  have h : ∃ x ∈ (run { blocks := #[[.ret (.name "a")]] } record 9 ⟨0⟩
        [.define "a" (.array [.int 1]), .define "f" (.function [] ⟨0, 1⟩), .define "b" (.call (.name "f") []),
          .push "a" (.int 2)] (start { copyElision := true })).2.notes,
      (x.2.lookup ⟨0⟩ "a").bind x.2.inspect = some "[1, 2]" ∧ (x.2.lookup ⟨0⟩ "b").bind x.2.inspect = some "[1]" := by
    decide +kernel
  obtain ⟨x, hx, htexts⟩ := h
  exact ⟨x, hx, htexts, (value_semantics _ _ _ _ x.1 x.2 hx).1⟩

end Kernel

end CopyOnBind
