import CopyOnBind.Proofs.CallDepth
import CopyOnBind.Proofs.Returns
/-!
# Copies of several values

Values are copied one after the other when they are the arguments of a call, and
each copy finds the marks that the copies before it have left. A container with a
mark is handed over where it comes first among the values, and copied wherever it
comes again; so is everything without a mark. `copies_in_turn` says what each of
the values becomes, and what all the copies together leave of the store.

Scopes have nothing to do with it: copies do the same whatever the scopes are
(`copy_withScopes`).
-/

namespace CopyOnBind

open Store

variable {s t u : Store} {v w c d : Value} {vs cs : List Value} {path : List Nat} {i k : Nat}

namespace Store

/-- The store with other scopes. -/
def withScopes (g : Array Scope → Array Scope) (s : Store) : Store := { s with scopes := g s.scopes }

variable {g : Array Scope → Array Scope}

theorem SameContents.withScopes (s : Store) (g : Array Scope → Array Scope) : s.SameContents (s.withScopes g) :=
  ⟨rfl, rfl, fun _ => rfl, fun _ => rfl, fun _ => rfl⟩

theorem isMarked_withScopes : (s.withScopes g).isMarked v = s.isMarked v := by cases v <;> rfl

/-! ## What copies keep -/

/-- What `s` knows is known to `t` and reads the same there, marks apart. -/
structure Stays (s t : Store) : Prop where
  knows : ∀ w, s.Knows w → t.Knows w
  sameAt : ∀ w, s.Knows w → s.SameAt t w

theorem SameContents.stays (h : s.SameContents t) : s.Stays t := ⟨fun _ => h.knows.2, fun w _ => h.sameAt w⟩

namespace Stays

theorem refl (s : Store) : s.Stays s := (SameContents.refl s).stays

theorem trans (hst : s.Stays t) (htu : t.Stays u) : s.Stays u :=
  ⟨fun w hw => htu.knows w (hst.knows w hw), fun w hw => (hst.sameAt w hw).trans (htu.sameAt w (hst.knows w hw))⟩

theorem of_copy (hc : s.copy v = some (c, t)) : s.Stays t := by
  rcases extends_or_unmark hc with hst | rfl
  · exact ⟨fun _ => hst.knows, fun _ => hst.sameAt⟩
  · exact (SameContents.unmark s v).stays

theorem content (h : s.Stays t) (hs : s.WellFormed) (hv : s.Knows v) : t.content v = s.content v :=
  content_congr h.sameAt (fun _ _ _ => hs.children) hv

theorem follow? (h : s.Stays t) (hs : s.WellFormed) (hv : s.Knows v) : t.follow? v path = s.follow? v path := by
  induction path generalizing v with
  | nil => rfl
  | cons i path ih =>
    rw [Store.follow?, Store.follow?, (h.sameAt v hv).part?]
    exact Option.bind_congr fun w hw => ih (hs.closed v i w hw)

end Stays

theorem SameContents.follow? (h : s.SameContents t) : t.follow? v path = s.follow? v path := by
  induction path generalizing v with
  | nil => rfl
  | cons i path ih => simp only [Store.follow?, h.part?, ih]

/-- What is met inside a known value is known. -/
theorem WellFormed.knows_of_follow? (hs : s.WellFormed) (hv : s.Knows v) (hw : s.follow? v path = some w) : s.Knows w := by
  induction path generalizing v with
  | nil =>
    cases hw
    exact hv
  | cons i path ih =>
    obtain ⟨x, hx, hw⟩ := Option.bind_eq_some_iff.1 hw
    exact ih (hs.closed v i x hx) hw

/-- A copy takes the mark of the value that it is asked of, and no other. -/
theorem isMarked_copy_iff (hc : s.copy v = some (c, t)) : t.isMarked w = true ↔ s.isMarked w = true ∧ w ≠ v := by
  by_cases hk : s.Knows w
  · have hne : Action.copy v ≠ .copy w ↔ w ≠ v := not_congr ⟨fun h => (Action.copy.inj h).symm, fun h => h ▸ rfl⟩
    rw [Action.isMarked_iff (a := .copy v) hk (Option.map_eq_some_iff.2 ⟨_, hc, rfl⟩), hne]
  · simp [unmarked_copy hc hk, isMarked_of_not_knows hk]

/-! ## What becomes of a value -/

/-- In `t` the value `c` is what became of `v` when it was copied in `s`: the container
itself if it was handed over, and a copy made of new containers if not. -/
structure Becomes (s : Store) (v : Value) (handedOver : Prop) (c : Value) (t : Store) : Prop where
  own : handedOver → c = v ∧ t.content c = s.content v
  content : ¬ handedOver → ∃ T, s.content v = some T ∧ t.content c = some T.resolve
  fresh : ¬ handedOver → ∀ path w, t.follow? c path = some w →
    w.node? = none ∨ w.isContainer ∧ ¬ s.Knows w ∧ t.Knows w

namespace Becomes

variable {p q : Prop}

theorem of_copy (hs : s.WellFormed) (hv : s.Knows v) (hc : s.copy v = some (c, t)) :
    s.Becomes v (s.isMarked v = true) c t := by
  cases hm : s.isMarked v with
  | true =>
    rw [copy_of_marked hm] at hc
    cases hc
    exact ⟨fun _ => ⟨rfl, (SameContents.unmark s v).content⟩, absurd rfl, absurd rfl⟩
  | false =>
    obtain ⟨c', t', T, hc', hgrafts, hT, hres⟩ := copy_of_unmarked hs hv (grafts_of_copy hs hv hm hc).1 hm
    cases hc'.symm.trans hc
    exact ⟨fun h => (by cases h), fun _ => ⟨T, hT, hres⟩, fun _ path w hw => hgrafts.fresh_of_follow? hw⟩

theorem congr (h : s.Becomes v p c t) (hpq : p ↔ q) : s.Becomes v q c t := propext hpq ▸ h

/-- What comes after the copy leaves it as it is. -/
theorem later (h : s.Becomes v p c t) (htu : t.Stays u) (ht : t.WellFormed) (hc : t.Knows c) : s.Becomes v p c u := by
  refine ⟨fun hp => ?_, fun hp => ?_, fun hp path w hw => ?_⟩
  · exact (h.own hp).imp_right (htu.content ht hc).trans
  · obtain ⟨T, hT, hres⟩ := h.content hp
    exact ⟨T, hT, (htu.content ht hc).trans hres⟩
  · rw [htu.follow? ht hc] at hw
    exact (h.fresh hp path w hw).imp_right (.imp_right (.imp_right (htu.knows w)))

/-- What came before the copy counts as what was there. -/
theorem earlier (h : t.Becomes v p c u) (hst : s.Stays t) (hs : s.WellFormed) (hv : s.Knows v) : s.Becomes v p c u := by
  have hcontent : t.content v = s.content v := hst.content hs hv
  refine ⟨fun hp => hcontent ▸ h.own hp, fun hp => hcontent ▸ h.content hp, fun hp path w hw => ?_⟩
  exact (h.fresh hp path w hw).imp_right (.imp_right (.imp_left (mt (hst.knows w))))

theorem same (h : s.Becomes v p c t) (htu : t.SameContents u) : s.Becomes v p c u := by
  refine ⟨fun hp => (h.own hp).imp_right htu.content.trans, fun hp => ?_, fun hp path w hw => ?_⟩
  · obtain ⟨T, hT, hres⟩ := h.content hp
    exact ⟨T, hT, htu.content.trans hres⟩
  · rw [htu.follow?] at hw
    exact (h.fresh hp path w hw).imp_right (.imp_right (.imp_right htu.knows.2))

/-- Nothing is met in a copy that was known before. -/
theorem not_knows (h : s.Becomes v p c t) (hp : ¬ p) (hwc : w.isContainer) (hw : t.follow? c path = some w) : ¬ s.Knows w :=
  ((h.fresh hp path w hw).resolve_left (node?_ne_none hwc)).2.1

end Becomes

/-! ## Copies one after the other -/

/-- At this place among the values, `v` is a container with a mark, and comes for the first time. -/
def Claims (s : Store) (vs : List Value) (i : Nat) (v : Value) : Prop := s.isMarked v = true ∧ v ∉ vs.take i

/-- The values `vs` of `s` have been copied from left to right, which gave the values `cs` of `t`. -/
structure Copies (s : Store) (vs cs : List Value) (t : Store) : Prop where
  length : cs.length = vs.length
  becomes : ∀ i v c, vs[i]? = some v → cs[i]? = some c → s.Becomes v (s.Claims vs i v) c t
  /-- A new copy has no container in common with what is at the other places. -/
  apart : ∀ i j v c d, i ≠ j → vs[i]? = some v → cs[i]? = some c → cs[j]? = some d → ¬ s.Claims vs i v →
    ∀ path path' w, w.isContainer → t.follow? c path = some w → t.follow? d path' ≠ some w
  marks : ∀ w, t.isMarked w = true ↔ s.isMarked w = true ∧ w ∉ vs
  stays : s.Stays t

theorem claims_zero : s.Claims (v :: vs) 0 w ↔ s.isMarked w = true := and_iff_left List.not_mem_nil

/-- What the first copy leaves is there for the others to claim. -/
theorem claims_succ (hc : s.copy v = some (c, t)) : s.Claims (v :: vs) (i + 1) w ↔ t.Claims vs i w := by
  rw [Claims, Claims, isMarked_copy_iff hc, List.take_succ_cons, List.mem_cons, not_or, and_assoc]

namespace Copies

theorem nil (s : Store) : s.Copies [] [] s where
  length := rfl
  becomes := nofun
  apart := nofun
  marks w := by simp
  stays := .refl s

theorem exists_value (h : s.Copies vs cs t) (hc : cs[i]? = some c) : ∃ v, vs[i]? = some v := by
  have hi := (List.getElem?_eq_some_iff.1 hc).1
  exact ⟨_, List.getElem?_eq_getElem (h.length ▸ hi)⟩

/-- Whatever is met at a place was known before the first of the copies, or not before the last. -/
theorem not_knows_or_knows (h : t.Copies vs cs u) (hst : s.Stays t) (hs : s.WellFormed) (hvs : ∀ w ∈ vs, s.Knows w)
    (hd : cs[i]? = some d) (hwc : w.isContainer) (hw : u.follow? d path = some w) : ¬ t.Knows w ∨ s.Knows w := by
  obtain ⟨x, hx⟩ := h.exists_value hd
  have hbecomes := h.becomes i x d hx hd
  by_cases hclaims : t.Claims vs i x
  · -- the container itself was handed over, and leads to what it led to in the beginning
    obtain ⟨rfl, -⟩ := hbecomes.own hclaims
    have hdk : s.Knows d := hvs d (List.mem_of_getElem? hx)
    rw [(hst.trans h.stays).follow? hs hdk] at hw
    exact .inr (hs.knows_of_follow? hdk hw)
  · exact .inl (hbecomes.not_knows hclaims hwc hw)

theorem cons (hs : s.WellFormed) (hv : s.Knows v) (hvs : ∀ w ∈ vs, s.Knows w) (hc : s.copy v = some (c, t))
    (h : t.Copies vs cs u) : s.Copies (v :: vs) (c :: cs) u := by
  have hst : s.Stays t := .of_copy hc
  have ht : t.WellFormed := wellFormed_copy hs hv hc
  have hck : t.Knows c := (copy_gives hs hv hc).2.elim knows_of_node?_none And.right
  have first : s.Becomes v (s.Claims (v :: vs) 0 v) c u :=
    ((Becomes.of_copy hs hv hc).later h.stays ht hck).congr claims_zero.symm
  refine ⟨congrArg Nat.succ h.length, ?_, ?_, fun w => ?_, hst.trans h.stays⟩
  · rintro (_ | i) x d hx hd
    · cases hx
      cases hd
      exact first
    · exact ((h.becomes i x d hx hd).earlier hst hs (hvs x (List.mem_of_getElem? hx))).congr (claims_succ hc).symm
  · rintro (_ | i) (_ | j) x d e hij hx hd he hclaims path path' w hwc hw hw'
    · exact hij rfl
    · cases hx
      cases hd
      -- the first copy is new, and known by the time that the others are made
      have hnew : ¬ s.Knows w := first.not_knows hclaims hwc hw
      rw [h.stays.follow? ht hck] at hw
      rcases h.not_knows_or_knows hst hs hvs he hwc hw' with hk | hk
      · exact hk (ht.knows_of_follow? hck hw)
      · exact hnew hk
    · cases he
      rw [h.stays.follow? ht hck] at hw'
      exact (h.becomes i x d hx hd).not_knows ((claims_succ hc).not.1 hclaims) hwc hw (ht.knows_of_follow? hck hw')
    · have hij : i ≠ j := fun hij' => hij (congrArg Nat.succ hij')
      exact h.apart i j x d e hij hx hd he ((claims_succ hc).not.1 hclaims) path path' w hwc hw hw'
  · rw [h.marks, isMarked_copy_iff hc, List.mem_cons, not_or, and_assoc]

/-- If there are no marks to claim, the containers that were there are as they were, marks included. -/
theorem intact (h : s.Copies vs cs t) (hm : ∀ v ∈ vs, s.isMarked v = false) :
    (∀ a, s.Knows (.array a) → t.array a = s.array a) ∧ ∀ i, s.Knows (.hash i) → t.hash i = s.hash i := by
  have marked : ∀ w, t.isMarked w = s.isMarked w := fun w => by
    rw [Bool.eq_iff_iff, h.marks]
    exact and_iff_left_of_imp fun hw hmem => by simp [hm w hmem] at hw
  refine ⟨fun a ha => ?_, fun i hi => ?_⟩
  · calc
      t.array a = ⟨(t.array a).elements, t.isMarked (.array a)⟩ := rfl
      _ = ⟨(s.array a).elements, s.isMarked (.array a)⟩ := by
        rw [marked, show (t.array a).elements = (s.array a).elements from h.stays.sameAt _ ha]
  · obtain ⟨hentries, hnext⟩ := h.stays.sameAt _ hi
    calc
      t.hash i = ⟨(t.hash i).entries, (t.hash i).nextGeneration, t.isMarked (.hash i)⟩ := rfl
      _ = ⟨(s.hash i).entries, (s.hash i).nextGeneration, s.isMarked (.hash i)⟩ := by rw [marked, hentries, hnext]

theorem withScopes (h : s.Copies vs cs t) : s.Copies vs cs (t.withScopes g) where
  length := h.length
  becomes i v c hv hc := (h.becomes i v c hv hc).same (.withScopes t g)
  apart := by simpa only [(SameContents.withScopes t g).follow?] using h.apart
  marks w := by rw [isMarked_withScopes, h.marks]
  stays := h.stays.trans (SameContents.withScopes t g).stays

end Copies

/-- Values that can be bound are copied one after the other. -/
theorem copies_in_turn (h : s.Binds vs) : ∃ cs t, vs.mapM copy s = some (cs, t) ∧ s.Copies vs cs t := by
  induction vs generalizing s with
  | nil => exact ⟨[], s, rfl, .nil s⟩
  | cons v vs ih =>
    obtain ⟨c, t, hc, ht⟩ := h.copy
    obtain ⟨cs, u, hcs, hu⟩ := ih ht
    refine ⟨c :: cs, u, by rw [mapM_walk_cons, hc, Option.bind_some, hcs, Option.map_some], ?_⟩
    exact hu.cons h.wellFormed (h.knows v (by simp)) (fun w hw => h.knows w (by simp [hw])) hc

/-! ## Copies and scopes -/

theorem mapM_withScopes {α β : Type} {f : α → StateT Store Option β} {l : List α}
    (hf : ∀ a ∈ l, ∀ s, f a (s.withScopes g) = (f a s).map (Prod.map id (withScopes g))) :
    l.mapM f (s.withScopes g) = (l.mapM f s).map (Prod.map id (withScopes g)) := by
  induction l generalizing s with
  | nil => rfl
  | cons a l ih =>
    rw [mapM_walk_cons, mapM_walk_cons, hf a (by simp)]
    cases f a s with
    | none => rfl
    | some p =>
      simp only [Option.map_some, Option.bind_some, Prod.map_snd]
      rw [ih fun b hb => hf b (by simp [hb])]
      cases l.mapM f p.2 <;> rfl

theorem snapshotWithin_withScopes :
    snapshotWithin k v (s.withScopes g) = (snapshotWithin k v s).map (Prod.map id (withScopes g)) := by
  have flat : ∀ {k v s}, v.node? = none →
      snapshotWithin k v (s.withScopes g) = (snapshotWithin k v s).map (Prod.map id (withScopes g)) := fun hv => by
    rw [snapshotWithin_flat hv, snapshotWithin_flat hv]
    rfl
  induction k generalizing v s with
  | zero =>
    cases v with
    | array | hash | ref => rfl
    | _ => exact flat rfl
  | succ k ih =>
    cases v with
    | array a =>
      rw [snapshotWithin_array, snapshotWithin_array, show (s.withScopes g).array a = s.array a from rfl,
        mapM_withScopes fun _ _ _ => ih, Option.map_map, Option.map_map]
      rfl
    | hash h =>
      have entry : ∀ e ∈ (s.hash h).entries, ∀ s, snapshotEntry k e (s.withScopes g) =
          (snapshotEntry k e s).map (Prod.map id (withScopes g)) := by
        intro e _ s
        rw [snapshotEntry_eq, snapshotEntry_eq]
        cases e.value with
        | none => rfl
        | some w =>
          simp only [ih, Option.map_map]
          rfl
      rw [snapshotWithin_hash, snapshotWithin_hash, show (s.withScopes g).hash h = s.hash h from rfl,
        mapM_withScopes entry, Option.map_map, Option.map_map]
      rfl
    | ref slot index constant =>
      rw [snapshotWithin_ref, snapshotWithin_ref, show (s.withScopes g).slotValue? slot = s.slotValue? slot from rfl]
      cases s.slotValue? slot with
      | none => rfl
      | some w => exact ih
    | _ => exact flat rfl

theorem copy_withScopes : (s.withScopes g).copy v = (s.copy v).map (Prod.map id (withScopes g)) := by
  unfold copy
  rw [isMarked_withScopes]
  split
  · cases v <;> rfl
  · exact snapshotWithin_withScopes

theorem mapM_copy_withScopes : vs.mapM copy (s.withScopes g) = (vs.mapM copy s).map (Prod.map id (withScopes g)) :=
  mapM_withScopes fun _ _ _ => copy_withScopes

theorem scopes_mapM_copy (hcs : vs.mapM copy s = some (cs, t)) : t.scopes = s.scopes := by
  have hsame : vs.mapM copy (s.withScopes fun _ => s.scopes) = _ := mapM_copy_withScopes
  rw [show s.withScopes (fun _ => s.scopes) = s from rfl, hcs, Option.map_some, Option.some.injEq] at hsame
  exact congrArg (fun p => p.2.scopes) hsame

end Store

end CopyOnBind
