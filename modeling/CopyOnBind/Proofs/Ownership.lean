import CopyOnBind.Proofs.Cycles
import CopyOnBind.Proofs.History
import CopyOnBind.Proofs.Places
import CopyOnBind.Proofs.Worlds
/-!
# Owned results

With copy elision, what a call hands to its caller is marked, so that binding it
takes it as it is. Who takes ownership of the result instead leaves the mark on
it: the first binding of the owned container is then the container itself
(`owned_shared`). `owned_isolated` says exactly when that happens; every other
binding of an owned result is a tree of new containers.
-/

namespace CopyOnBind

open Store Relation

variable {s t u : Store} {v w c : Value} {a : Action} {as : List Action}

/-! ## Runs on handles of the store -/

/-- The values that an action stores or copies are known to the store. -/
def Action.Known (s : Store) : Action → Prop
  | write x => ∀ v, x.value? = some v → s.Knows v
  | copy v => s.Knows v
  | newArray elements => ∀ v ∈ elements, s.Knows v
  | newHash pairs => ∀ p ∈ pairs, s.Knows p.2

/-- A run that uses the handles it was given by the store and no others. -/
def Store.Honest : Store → List Action → Prop
  | _, [] => True
  | s, a :: as => a.Known s ∧ ∀ t, a.apply s = some t → t.Honest as

theorem Store.FitsIn.change {table : Table} {x : Change} (h : s.FitsIn table) (hfits : x.Fits table)
    (hv : ∀ v, x.value? = some v → s.Knows v) : s.FitsIn (x.apply table) := by
  cases x with
  | keep => exact h
  | create k written value => exact h.create hfits.2 hfits.1 hv
  | assign k value => exact h.assign (hv value rfl)
  | erase k => exact h.erase

theorem Write.wellFormed {x : Write} (hs : s.WellFormed) (hv : ∀ v, x.value? = some v → s.Knows v)
    (hx : x.apply s = some t) : t.WellFormed := by
  cases Write.does hx with
  | array a f _ hf =>
    refine hs.modifyArray fun w hw => ?_
    rcases hf w hw with hw | hw
    · obtain ⟨i, hi⟩ := Array.mem_iff_getElem?.1 hw
      exact hs.closed (.array a) i w hi
    · exact hv w hw
  | hash h _ hfits hvalue => exact hs.modifyHash ((hs.fitsIn h).change hfits fun w hw => hv w (hvalue w hw))

/-- A copy that ends is a tree of new containers. -/
theorem Store.grafts_of_copy (hs : s.WellFormed) (hv : s.Knows v) (hm : s.isMarked v = false)
    (hc : s.copy v = some (c, t)) : s.Grounded v ∧ s.Grafts t [some c] := by
  have hg : s.Grounded v := by
    rw [copy, if_neg (by simp [hm])] at hc
    exact ⟨_, within_of_snapshotWithin hs hv (.refl s) hc⟩
  obtain ⟨c', t', T, hc', hgrafts, -⟩ := copy_of_unmarked hs hv hg hm
  rw [hc'] at hc
  cases hc
  exact ⟨hg, hgrafts⟩

theorem Store.wellFormed_copy (hs : s.WellFormed) (hv : s.Knows v) (hc : s.copy v = some (c, t)) : t.WellFormed := by
  cases hm : s.isMarked v with
  | true =>
    rw [copy_of_marked hm] at hc
    cases hc
    exact (SameContents.unmark s v).wellFormed hs
  | false => exact (grafts_of_copy hs hv hm hc).2.wellFormed

theorem Table.fitsIn_ofPairs {pairs : List (Value × Value)} {table : Table} (hp : ∀ p ∈ pairs, s.Knows p.2)
    (h : Table.ofPairs pairs = .ok table) : s.FitsIn table := by
  let I (pairs : List (Value × Value)) (t : Table) : Prop := (∀ p ∈ pairs, s.Knows p.2) ∧ s.FitsIn t
  have step : ∀ p pairs t, I (p :: pairs) t → I pairs ((t.insertion p.1 p.2).apply t) := by
    rintro p pairs t ⟨hp, ht⟩
    obtain ⟨hp, hpairs⟩ := List.forall_mem_cons.1 hp
    refine ⟨hpairs, ht.change fits_insertion fun v hv => ?_⟩
    cases value?_insertion hv
    exact hp
  exact (ofPairs_invariant (I := I) step ⟨hp, nofun, nofun, .nil⟩ h).2

theorem Action.wellFormed (hs : s.WellFormed) (hk : a.Known s) (ha : a.apply s = some t) : t.WellFormed := by
  cases a with
  | write x => exact Write.wellFormed hs hk ha
  | copy v =>
    obtain ⟨⟨c, u⟩, hc, rfl⟩ := Option.map_eq_some_iff.1 ha
    exact wellFormed_copy hs hk hc
  | newArray elements =>
    cases ha
    exact hs.newArray hk
  | newHash pairs =>
    cases ha
    unfold newHashOf
    split
    · exact hs
    · next table htable => exact hs.newHash (Table.fitsIn_ofPairs hk htable)

theorem Store.wellFormed_after (hs : s.WellFormed) (hh : s.Honest as) (ht : s.after as = some t) : t.WellFormed := by
  induction as generalizing s with
  | nil =>
    cases ht
    exact hs
  | cons a as ih =>
    obtain ⟨u, hu, ht⟩ := Option.bind_eq_some_iff.1 ht
    exact ih (Action.wellFormed hs hh.1 hu) (hh.2 u hu) ht

/-! ## Marks over a run -/

/-- A mark goes with the next copy, and no action sets one. -/
theorem Action.isMarked_iff (hk : s.Knows v) (ha : a.apply s = some t) :
    t.isMarked v = true ↔ s.isMarked v = true ∧ a ≠ .copy v := by
  cases a with
  | write x => simp [Write.isMarked ha]
  | copy w =>
    obtain ⟨⟨c, u⟩, hc, rfl⟩ := Option.map_eq_some_iff.1 ha
    cases hm : s.isMarked w with
    | true =>
      rw [copy_of_marked hm] at hc
      cases hc
      by_cases hv : v = w
      · subst hv
        simp [isMarked_unmark_self]
      · simp [isMarked_unmark_of_ne hv, Ne.symm hv]
    | false =>
      rw [Store.copy, if_neg (by simp [hm])] at hc
      simp only [(snapshotWithin_extends hc).isMarked hk, Action.copy.injEq, ne_eq]
      exact ⟨fun hv => ⟨hv, by rintro rfl; simp [hm] at hv⟩, And.left⟩
  | newArray elements =>
    cases ha
    simp [(Extends.newArray s elements).isMarked hk]
  | newHash pairs =>
    cases ha
    simp [(Extends.newHashOf s pairs).isMarked hk]

theorem Store.isMarked_after (hk : s.Knows v) (ht : s.after as = some t) :
    t.isMarked v = true ↔ s.isMarked v = true ∧ .copy v ∉ as := by
  induction as generalizing s with
  | nil =>
    cases ht
    simp
  | cons a as ih =>
    obtain ⟨u, hu, ht⟩ := Option.bind_eq_some_iff.1 ht
    rw [ih (Action.knows hu hk) ht, Action.isMarked_iff hk hu, List.mem_cons, not_or, and_assoc, ne_comm]

/-! ## Bindings of an owned result -/

/-- In `t`, the copy `c` of `x` has nothing of `s` in it, and writes on either
side are not seen on the other. -/
structure Store.Separate (s : Store) (x : Value) (t : Store) (c : Value) : Prop where
  fresh : ∀ path w, t.follow? c path = some w → w.node? = none ∨ w.isContainer ∧ ¬ s.Knows w ∧ t.Knows w
  copied : ∀ u, ReflTransGen (Later s.Knows) t u → ∃ text, t.inspect c = some text ∧ u.inspect c = some text
  original : ∀ u, ReflTransGen (Later fun y => ¬ s.Knows y) t u →
    ∃ text, s.inspect x = some text ∧ u.inspect x = some text

theorem Store.separate_of_copy (hs : s.WellFormed) (hv : s.Knows v) (hm : s.isMarked v = false)
    (hc : s.copy v = some (c, t)) : s.Separate v t c := by
  obtain ⟨hg, hgrafts⟩ := grafts_of_copy hs hv hm hc
  refine ⟨fun path w hw => hgrafts.fresh_of_follow? hw, fun u hu => hgrafts.inspect (untouched_of_later hu), fun u hu => ?_⟩
  have hst : s.Untouched (fun x => ¬ s.Knows x) t := .of_extends hgrafts.kept hgrafts.wellFormed.keyed
  exact hs.inspect_untouched (hst.trans (untouched_of_later hu)) hv hg

/-- What a call hands back exists, and is marked exactly if it is a container
and copies are elided. -/
theorem Machine.handBack_spec (m : Machine) (hs : s.WellFormed) (ha : s.Acyclic) (hv : s.Knows v)
    (hm : s.isMarked v = false) :
    ∃ r t, m.handBack v s = some (r, t) ∧ t.WellFormed ∧ t.Knows r ∧
      (t.isMarked r = true ↔ m.policy.copyElision = true ∧ r.isContainer) := by
  rw [Kernel.handBack_eq]
  by_cases hp : m.policy.copyElision = true
  · obtain ⟨c, t, T, hc, hgrafts, -⟩ := copy_of_unmarked hs hv (ha.grounded v) hm
    have hsame := SameContents.mark t c
    have hknown : t.Knows c := (hgrafts.root c (by simp)).knows
    refine ⟨c, t.mark c, by simp [hp, hc], hsame.wellFormed hgrafts.wellFormed, hsame.knows.2 hknown, ?_⟩
    exact ⟨fun hmark => ⟨hp, isContainer_of_isMarked hmark⟩, fun h => isMarked_mark_self hknown h.2⟩
  · exact ⟨v, s, by simp [hp], hs, hv, by simp [hm, hp]⟩

/-- A result that was taken over is bound like any other value, but for one case:
with copy elision, the first binding of a container is the container itself. -/
theorem owned_isolated (m : Machine) (hs : s.WellFormed) (ha : s.Acyclic) (hv : s.Knows v) (hm : s.isMarked v = false) :
    ∃ r t, m.handBack v s = some (r, t) ∧ ∀ as u, t.Honest as → t.after as = some u →
      (u.isMarked (m.owned r) = true ↔ m.policy.copyElision = true ∧ r.isContainer ∧ .copy r ∉ as) ∧
      (u.Grounded r → (m.bound (m.owned r) u).isSome) ∧
      ∀ c w, m.bound (m.owned r) u = some (c, w) →
        (u.isMarked (m.owned r) = true → c = r ∧ w = u.unmark r) ∧
        (u.isMarked (m.owned r) = false → u.Separate (m.owned r) w c) := by
  obtain ⟨r, t, hr, ht, hknown, hmark⟩ := m.handBack_spec hs ha hv hm
  refine ⟨r, t, hr, fun as u hh hu => ⟨?_, ?_, fun c w hc => ⟨fun hmr => ?_, fun hmr => ?_⟩⟩⟩
  · rw [Machine.owned, isMarked_after hknown hu, hmark, and_assoc]
  · exact isSome_copy (wellFormed_after ht hh hu) (knows_after hu hknown)
  · change u.copy r = some (c, w) at hc
    rw [copy_of_marked (v := r) hmr] at hc
    cases hc
    exact ⟨rfl, rfl⟩
  · exact separate_of_copy (wellFormed_after ht hh hu) (knows_after hu hknown) hmr hc

/-- After one binding, the owned array is bound like any other. -/
theorem owned_isolated_later :
    let m : Machine := { policy := { copyElision := true } }
    let s : Store := { arrays := #[{ elements := #[.int 1] }] }
    let as : List Action := [.copy (.array ⟨1⟩), .write (.push ⟨1⟩ (.int 2))]
    ∃ t u c w, m.handBack (.array ⟨0⟩) s = some (.array ⟨1⟩, t) ∧ t.after as = some u ∧
      m.bound (m.owned (.array ⟨1⟩)) u = some (c, w) ∧ u.Separate (.array ⟨1⟩) w c := by
  intro m s as
  have hs : s.WellFormed := by decide +kernel
  have ha : s.Acyclic := by decide +kernel
  have hv : s.Knows (.array ⟨0⟩) := by decide
  let t : Store := { arrays := #[{ elements := #[.int 1] }, { elements := #[.int 1], marked := true }] }
  have ht : m.handBack (.array ⟨0⟩) s = some (.array ⟨1⟩, t) := by decide +kernel
  obtain ⟨r, t', hr, hall⟩ := owned_isolated m hs ha hv rfl
  obtain ⟨rfl, rfl⟩ := Prod.mk.inj (Option.some.inj (ht.symm.trans hr))
  have known : t.Knows (.array ⟨1⟩) := by decide
  have honest : t.Honest as := ⟨known, fun t _ => ⟨fun v hv => by cases hv; trivial, fun _ _ => trivial⟩⟩
  obtain ⟨-, -, hbind⟩ := hall as _ honest rfl
  exact ⟨t, _, _, _, ht, rfl, rfl, (hbind _ _ rfl).2 (by decide +kernel)⟩

/-- Taking over a result does not remove its mark: the owned array and its first
binding are one array, and an element pushed onto one is seen in the other. -/
theorem owned_shared :
    let m : Machine := { policy := { copyElision := true } }
    let s : Store := { arrays := #[{ elements := #[.int 1] }] }
    s.WellFormed ∧ s.Acyclic ∧ s.Knows (.array ⟨0⟩) ∧ s.isMarked (.array ⟨0⟩) = false ∧
      ∃ r t c u a, m.handBack (.array ⟨0⟩) s = some (r, t) ∧ m.bound (m.owned r) t = some (c, u) ∧ c = .array a ∧
        c = m.owned r ∧ u.inspect (m.owned r) = some "[1]" ∧ (u.push a (.int 2)).inspect (m.owned r) = some "[1, 2]" := by
  intro m s
  refine ⟨by decide +kernel, by decide +kernel, by decide, rfl, .array ⟨1⟩, ?_⟩
  refine ⟨_, _, _, ⟨1⟩, rfl, rfl, rfl, rfl, ?_, ?_⟩
  · decide +kernel
  · decide +kernel

end CopyOnBind
