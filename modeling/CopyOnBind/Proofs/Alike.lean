import CopyOnBind.Proofs.Plain
import CopyOnBind.Proofs.Regions
/-!
# Stores that are alike on a region

Two stores are alike on a region when they have the same cells there, and are of
one shape: as many containers, scopes and entries, so that new handles and the
bounds of walks are the same. Lookups, copies and comparisons in the region cannot
tell such stores apart, and a change that is made in both leaves them alike.
-/

namespace CopyOnBind

namespace Store

variable {α β : Type} {s₀ s t s' t' : Store} {R : Cell → Prop} {c d : Cell} {v w : Value} {e r : ScopeId} {x : String}

/-! ## Shapes -/

structure SameShape (s t : Store) : Prop where
  arrays : t.arrays.size = s.arrays.size
  hashes : t.hashes.size = s.hashes.size
  scopes : t.scopes.size = s.scopes.size
  entries : ∀ h, (t.hash h).size = (s.hash h).size

/-- Walks are given the same bound. -/
theorem SameShape.span (h : s.SameShape t) : t.span = s.span := by
  rw [← length_nodes, ← length_nodes]
  have hentries : ∀ i, (t.hash ⟨i⟩).entries.length = (s.hash ⟨i⟩).entries.length := fun i => h.entries ⟨i⟩
  simp only [nodes, List.length_append, List.length_map, List.length_range, List.length_flatMap, h.arrays, h.hashes,
    hentries]

/-- The stores have the same cells in the domain, which is confined in the first. -/
structure AlikeOn (s₀ : Store) (R : Cell → Prop) (s t : Store) : Prop where
  confined : s₀.Confined R s
  shape : s.SameShape t
  same : ∀ c, s₀.Domain R c → s.SameCell t c

theorem AlikeOn.refl (h : s₀.Confined R s) : s₀.AlikeOn R s s where
  confined := h
  shape := ⟨rfl, rfl, rfl, fun _ => rfl⟩
  same c _ := .refl s c

theorem SameCell.sameAt (h : s.SameCell t c) (hv : v.cell? = some c) : s.SameAt t v := by
  cases v with
  | array a =>
    cases hv
    exact congrArg ArrayCell.elements h
  | hash i =>
    cases hv
    exact ⟨congrArg Table.entries h, congrArg Table.nextGeneration h⟩
  | ref slot index constant =>
    cases hv
    simp only [SameAt, Store.slotValue?, entry?, show t.hash slot.origin = _ from h]
  | _ => trivial

namespace AlikeOn

variable (h : s₀.AlikeOn R s t)
include h

/-! ## Reading -/

theorem array {a : ArrayId} (ha : s₀.Local R (.array a)) : t.array a = s.array a := h.same (.array a) (ha _ rfl)

theorem hash {i : HashId} (hi : s₀.Local R (.hash i)) : t.hash i = s.hash i := h.same (.hash i) (hi _ rfl)

theorem scope (he : s₀.Domain R (.scope e)) : t.scope e = s.scope e := h.same (.scope e) he

theorem isMarked (hv : s₀.Local R v) : t.isMarked v = s.isMarked v := by
  cases hc : v.cell? with
  | some c => exact (h.same c (hv c hc)).isMarked hc
  | none => cases v <;> first | rfl | cases hc

theorem callee (hv : s₀.Local R v) : t.callee v = s.callee v := by
  cases hc : v.cell? with
  | some c => exact (h.same c (hv c hc)).callee hc
  | none => cases v <;> first | rfl | cases hc

theorem resolveWithin {n : Nat} (he : s₀.Domain R (.scope e)) : t.resolveWithin x n e = s.resolveWithin x n e := by
  induction n generalizing e with
  | zero => rfl
  | succ n ih =>
    unfold Store.resolveWithin
    rw [h.scope he]
    split
    · rfl
    · cases hp : (s.scope e).parent with
      | none => rfl
      | some r => exact ih (h.confined.closed _ _ he (.parent hp))

theorem lookup (he : s₀.Domain R (.scope e)) : t.lookup e x = s.lookup e x := by
  simp only [Store.lookup, binding?, resolve, h.resolveWithin he]
  cases hr : s.resolveWithin x (e.index + 1) e with
  | none => rfl
  | some r => rw [Option.bind_some, Option.bind_some, h.scope (h.confined.resolveWithin he hr)]

theorem sameAt (hv : s₀.Local R v) : s.SameAt t v := by
  cases hc : v.cell? with
  | some c => exact (h.same c (hv c hc)).sameAt hc
  | none => cases v <;> trivial

theorem grounded (hv : s₀.Local R v) (hg : s.Grounded v) : t.Grounded v :=
  hg.imp fun _ hk => (within_congr (fun _ => h.sameAt) (fun _ hv _ => h.confined.local_of_children hv) hv).2 hk

/-! ## Comparing -/

theorem eqTables {n : Nat} {i j : HashId}
    (ih : ∀ v w, s₀.Local R v → s₀.Local R w → t.eqWithin n v w = s.eqWithin n v w)
    (hi : s₀.Local R (.hash i)) (hj : s₀.Local R (.hash j)) :
    Store.eqTables (t.eqWithin n) (s.hash i) (s.hash j) = Store.eqTables (s.eqWithin n) (s.hash i) (s.hash j) := by
  have hvalue : ∀ {k : HashId} {e : Entry} {v : Value}, s₀.Local R (.hash k) → e ∈ (s.hash k).entries → e.value = some v →
      s₀.Local R v := fun hk he hv => h.confined.local_of_contents (hk _ rfl) (List.mem_filterMap.2 ⟨_, he, hv⟩)
  unfold Store.eqTables
  refine if_congr Iff.rfl (allM_congr (List.forall₂_same.2 fun e he => ?_)) rfl
  split
  · rfl
  · next f hf =>
    unfold eqOptional
    split
    · rfl
    · next v w hv hw => exact ih v w (hvalue hi he hv) (hvalue hj (List.mem_of_find?_eq_some hf) hw)
    · rfl

theorem eqWithin {n : Nat} (hv : s₀.Local R v) (hw : s₀.Local R w) : t.eqWithin n v w = s.eqWithin n v w := by
  induction n generalizing v w with
  | zero => cases v <;> cases w <;> rfl
  | succ n ih =>
    cases v with
    | array a =>
      cases w with
      | array b =>
        simp only [Store.eqWithin, h.array hv, h.array hw]
        have hparts : ∀ {c}, s₀.Local R (.array c) →
            List.Forall₂ (fun x y => x = y ∧ s₀.Local R y) (s.array c).elements.toList (s.array c).elements.toList :=
          fun hc => List.forall₂_same.2 fun x hx => ⟨rfl, h.confined.local_of_contents (hc _ rfl) hx⟩
        refine if_congr Iff.rfl rfl (eqElements_congr (hparts hv) (hparts hw) ?_)
        rintro x _ y _ ⟨rfl, hx⟩ ⟨rfl, hy⟩
        exact ih hx hy
      | _ => rfl
    | hash i =>
      cases w with
      | hash j =>
        simp only [Store.eqWithin, h.hash hv, h.hash hw]
        exact if_congr Iff.rfl rfl (h.eqTables (fun _ _ => ih) hv hw)
      | _ => rfl
    | _ => rfl

theorem eq (hv : s₀.Local R v) (hw : s₀.Local R w) : t.eq v w = s.eq v w := by
  unfold Store.eq
  rw [h.shape.span, h.eqWithin hv hw]

/-! ## What a copy reads -/

theorem snapshotReadsWithin {n : Nat} {a : ArrayId} (hv : s₀.Local R v) :
    t.snapshotReadsWithin a n v = s.snapshotReadsWithin a n v := by
  induction n generalizing v with
  | zero => cases v <;> rfl
  | succ n ih =>
    cases v with
    | array b =>
      simp only [Store.snapshotReadsWithin, h.array hv]
      refine if_congr Iff.rfl rfl (anyM_congr fun w hw => ih ?_)
      exact h.confined.local_of_contents (hv _ rfl) hw
    | hash i =>
      simp only [Store.snapshotReadsWithin, h.hash hv]
      exact anyM_congr fun w hw => ih (h.confined.local_of_contents (hv _ rfl) hw)
    | ref slot index constant =>
      simp only [Store.snapshotReadsWithin, show t.slotValue? slot = _ from h.sameAt hv]
      cases hval : s.slotValue? slot with
      | none => rfl
      | some w => exact ih (h.confined.local_of_children hv (by simp [children, Value.node?, held, hval]))
    | _ => rfl

theorem copyReads {a : ArrayId} (hv : s₀.Local R v) : t.copyReads v a = s.copyReads v a := by
  unfold Store.copyReads
  rw [h.isMarked hv, h.shape.span, h.snapshotReadsWithin hv]

/-! ## A change in both stores -/

theorem change (hs : s₀.Confined R s') (hshape : s'.SameShape t') (hother : ∀ d, d ≠ c → s.SameCell s' d)
    (hother' : ∀ d, d ≠ c → t.SameCell t' d) (hc : s'.SameCell t' c) : s₀.AlikeOn R s' t' where
  confined := hs
  shape := hshape
  same d hd := by
    by_cases hdc : d = c
    · exact hdc ▸ hc
    · exact (hother d hdc).symm.trans ((h.same d hd).trans (hother' d hdc))

theorem modifyArray {a : ArrayId} {f : ArrayCell → ArrayCell} (ha : s₀.Local R (.array a))
    (hs : s₀.Confined R (s.modifyArray a f)) : s₀.AlikeOn R (s.modifyArray a f) (t.modifyArray a f) := by
  have hcell : (t.modifyArray a f).array a = (s.modifyArray a f).array a := by
    by_cases hlt : a.index < s.arrays.size
    · rw [array_modifyArray_self hlt, array_modifyArray_self (h.shape.arrays ▸ hlt), h.array ha]
    · rw [array_of_le, array_of_le] <;> simp [Store.modifyArray, h.shape.arrays] <;> omega
  refine h.change hs ⟨?_, h.shape.hashes, h.shape.scopes, h.shape.entries⟩ (fun _ => sameCell_modifyArray)
    (fun _ => sameCell_modifyArray) hcell
  simp [Store.modifyArray, h.shape.arrays]

/-- The tables may not get longer or shorter. -/
theorem modifyHash {i : HashId} {f : Table → Table} (hi : s₀.Local R (.hash i)) (hf : ∀ u, (f u).size = u.size)
    (hs : s₀.Confined R (s.modifyHash i f)) : s₀.AlikeOn R (s.modifyHash i f) (t.modifyHash i f) := by
  have hcell : (t.modifyHash i f).hash i = (s.modifyHash i f).hash i := by
    by_cases hlt : i.index < s.hashes.size
    · rw [hash_modifyHash_self hlt, hash_modifyHash_self (h.shape.hashes ▸ hlt), h.hash hi]
    · rw [hash_of_le, hash_of_le] <;> simp [Store.modifyHash, h.shape.hashes] <;> omega
  have hsize : ∀ (u : Store) j, ((u.modifyHash i f).hash j).size = (u.hash j).size := by
    intro u j
    by_cases hji : j = i
    · subst hji
      rcases hash_modifyHash_cases (s := u) (h := j) (i := j) (f := f) with hsame | ⟨-, hnew⟩
      · rw [hsame]
      · rw [hnew, hf]
    · rw [hash_modifyHash_of_ne hji]
  refine h.change hs ⟨h.shape.arrays, ?_, h.shape.scopes, fun j => ?_⟩ (fun _ => sameCell_modifyHash)
    (fun _ => sameCell_modifyHash) hcell
  · simp [Store.modifyHash, h.shape.hashes]
  · rw [hsize, hsize, h.shape.entries]

theorem define {m : Bool} (he : s₀.Domain R (.scope e)) (hv : s₀.Local R v) :
    s₀.AlikeOn R (s.define e x v m) (t.define e x v m) := by
  have hcell : (t.define e x v m).scope e = (s.define e x v m).scope e := by
    rw [scope_define, scope_define, h.scope he, h.shape.scopes]
  refine h.change (h.confined.define he hv m) ⟨h.shape.arrays, h.shape.hashes, ?_, h.shape.entries⟩
    (fun _ => sameCell_define) (fun _ => sameCell_define) hcell
  simp [Store.define, Store.modifyScope, h.shape.scopes]

theorem assign (he : s₀.Domain R (.scope e)) (hv : s₀.Local R v) :
    (t.assign e x v).1 = (s.assign e x v).1 ∧ s₀.AlikeOn R (s.assign e x v).2 (t.assign e x v).2 := by
  simp only [Store.assign, resolve, h.resolveWithin he]
  cases hr : s.resolveWithin x (e.index + 1) e with
  | none => exact ⟨rfl, h⟩
  | some r =>
    have hdomain := h.confined.resolveWithin he hr
    simp only [h.scope hdomain]
    cases (s.scope r).find? x with
    | none => exact ⟨rfl, h⟩
    | some b =>
      dsimp only
      split
      · exact ⟨rfl, h.define hdomain hv⟩
      · exact ⟨rfl, h⟩

theorem push {a : ArrayId} (ha : s₀.Local R (.array a)) (hv : s₀.Local R v) : s₀.AlikeOn R (s.push a v) (t.push a v) :=
  h.modifyArray ha (h.confined.push ha hv)

theorem mark (hv : s₀.Local R v) : s₀.AlikeOn R (s.mark v) (t.mark v) := by
  cases v with
  | array a => exact h.modifyArray hv (h.confined.mark hv)
  | hash i => exact h.modifyHash hv (fun _ => rfl) (h.confined.mark hv)
  | _ => exact h

theorem unmark (hv : s₀.Local R v) : s₀.AlikeOn R (s.unmark v) (t.unmark v) := by
  cases v with
  | array a => exact h.modifyArray hv (h.confined.unmark hv)
  | hash i => exact h.modifyHash hv (fun _ => rfl) (h.confined.unmark hv)
  | _ => exact h

/-! ## New cells in both stores -/

theorem newArray {vs : List Value} (hvs : ∀ v ∈ vs, s₀.Local R v) :
    (t.newArray vs.toArray).1 = (s.newArray vs.toArray).1 ∧
      s₀.AlikeOn R (s.newArray vs.toArray).2 (t.newArray vs.toArray).2 := by
  have hid : (t.newArray vs.toArray).1 = (s.newArray vs.toArray).1 := congrArg ArrayId.mk h.shape.arrays
  refine ⟨hid, h.change (h.confined.newArray hvs).1 ⟨?_, h.shape.hashes, h.shape.scopes, h.shape.entries⟩
    (fun _ => sameCell_newArray) (fun _ hd => sameCell_newArray (hid ▸ hd)) ?_⟩
  · simp [Store.newArray, h.shape.arrays]
  · rw [SameCell, array_newArray_self, ← hid, array_newArray_self]

theorem newHash {table : Table} (hvs : ∀ v ∈ table.values, s₀.Local R v) :
    (t.newHash table).1 = (s.newHash table).1 ∧ s₀.AlikeOn R (s.newHash table).2 (t.newHash table).2 := by
  have hid : (t.newHash table).1 = (s.newHash table).1 := congrArg HashId.mk h.shape.hashes
  have hentries : ∀ j, ((t.newHash table).2.hash j).size = ((s.newHash table).2.hash j).size := by
    intro j
    by_cases hj : j.index = s.hashes.size
    · obtain rfl : j = (s.newHash table).1 := congrArg HashId.mk hj
      rw [hash_newHash_self, ← hid, hash_newHash_self]
    · rw [hash_newHash_of_ne hj, hash_newHash_of_ne (h.shape.hashes ▸ hj), h.shape.entries]
  refine ⟨hid, h.change (h.confined.newHash hvs).1 ⟨h.shape.arrays, ?_, h.shape.scopes, hentries⟩
    (fun _ => sameCell_newHash) (fun _ hd => sameCell_newHash (hid ▸ hd)) ?_⟩
  · simp [Store.newHash, h.shape.hashes]
  · rw [SameCell, hash_newHash_self, ← hid, hash_newHash_self]

theorem newScope (hr : s₀.Domain R (.scope r)) :
    (t.newScope (some r)).1 = (s.newScope (some r)).1 ∧ s₀.AlikeOn R (s.newScope (some r)).2 (t.newScope (some r)).2 := by
  have hid : (t.newScope (some r)).1 = (s.newScope (some r)).1 := congrArg ScopeId.mk h.shape.scopes
  refine ⟨hid, h.change (h.confined.newScope hr).1 ⟨h.shape.arrays, h.shape.hashes, ?_, h.shape.entries⟩
    (fun _ => sameCell_newScope) (fun _ hd => sameCell_newScope (hid ▸ hd)) ?_⟩
  · simp [Store.newScope, h.shape.scopes]
  · rw [SameCell, scope_newScope_self, ← hid, scope_newScope_self]

end AlikeOn

/-! ## Walks in both stores -/

/-- The walk gave the same value, which satisfies `Q`, and left the stores alike. -/
structure Together (s₀ : Store) (R : Cell → Prop) (Q : α → Prop) (p q : α × Store) : Prop where
  value : q.1 = p.1
  holds : Q p.1
  alike : s₀.AlikeOn R p.2 q.2

/-- A walk that alike stores cannot be told apart by. -/
def WalksAlike (s₀ : Store) (R : Cell → Prop) (x : StateT Store Option α) (Q : α → Prop) : Prop :=
  ∀ s t, s₀.AlikeOn R s t → Option.Rel (Together s₀ R Q) (x s) (x t)

namespace WalksAlike

variable {f : α → StateT Store Option β} {y : StateT Store Option α} {P : α → Prop} {Q : β → Prop}

theorem pure {a : α} (ha : P a) : WalksAlike s₀ R (pure a) P := fun _ _ h => .some ⟨rfl, ha, h⟩

theorem bind (hy : WalksAlike s₀ R y P) (hf : ∀ a, P a → WalksAlike s₀ R (f a) Q) : WalksAlike s₀ R (y >>= f) Q := by
  intro s t h
  have hy := hy s t h
  change Option.Rel _ ((y s).bind fun p => f p.1 p.2) ((y t).bind fun p => f p.1 p.2)
  generalize y s = o at hy ⊢
  generalize y t = o' at hy ⊢
  cases hy with
  | none => exact .none
  | some hpq =>
    rw [Option.bind_some, Option.bind_some, hpq.value]
    exact hf _ hpq.holds _ _ hpq.alike

theorem mapM {γ : Type} {g : γ → StateT Store Option α} {l : List γ} (hg : ∀ a ∈ l, WalksAlike s₀ R (g a) P) :
    WalksAlike s₀ R (l.mapM g) fun as => ∀ a ∈ as, P a := by
  induction l with
  | nil => exact pure (by simp)
  | cons a l ih =>
    rw [List.mapM_cons]
    refine (hg a (by simp)).bind fun b hb => (ih fun c hc => hg c (by simp [hc])).bind fun bs hbs => pure ?_
    exact List.forall_mem_cons.2 ⟨hb, hbs⟩

end WalksAlike

theorem walksAlike_snapshotWithin {n : Nat} (hv : s₀.Local R v) : WalksAlike s₀ R (snapshotWithin n v) (s₀.Local R) := by
  have leaf : ∀ {n v}, s₀.Local R v → v.node? = none → WalksAlike s₀ R (snapshotWithin n v) (s₀.Local R) := by
    intro n v hv hflat s t h
    rw [snapshotWithin_flat hflat, snapshotWithin_flat hflat]
    exact .some ⟨rfl, hv, h⟩
  induction n generalizing v with
  | zero =>
    cases v with
    | array a => exact fun _ _ _ => .none
    | hash i => exact fun _ _ _ => .none
    | ref slot index constant => exact fun _ _ _ => .none
    | _ => exact leaf hv rfl
  | succ n ih =>
    cases v with
    | array a =>
      intro s t h
      have hparts : WalksAlike s₀ R ((s.array a).elements.toList.mapM (snapshotWithin n)) fun vs => ∀ v ∈ vs, s₀.Local R v :=
        .mapM fun w hw => ih (h.confined.local_of_contents (hv _ rfl) hw)
      rw [snapshotWithin_array, snapshotWithin_array, h.array hv]
      have hrel := hparts s t h
      generalize (s.array a).elements.toList.mapM (snapshotWithin n) s = o at hrel ⊢
      generalize (s.array a).elements.toList.mapM (snapshotWithin n) t = o' at hrel ⊢
      cases hrel with
      | none => exact .none
      | @some p q hpq =>
        obtain ⟨vs, u⟩ := p
        obtain ⟨vs', u'⟩ := q
        obtain rfl : vs' = vs := hpq.value
        obtain ⟨hid, halike⟩ := hpq.alike.newArray hpq.holds
        exact .some ⟨congrArg Value.array hid, (hpq.alike.confined.newArray hpq.holds).2, halike⟩
    | hash i =>
      intro s t h
      have hentry : ∀ e ∈ (s.hash i).entries,
          WalksAlike s₀ R (snapshotEntry n e) fun e => ∀ v, e.value = some v → s₀.Local R v := by
        intro e he
        unfold snapshotEntry
        cases hval : e.value with
        | none => exact .pure fun v hv => by cases hv
        | some w =>
          have hw := h.confined.local_of_contents (hv _ rfl) (List.mem_filterMap.2 ⟨e, he, hval⟩)
          refine WalksAlike.bind (P := fun o => ∀ v, o = some v → s₀.Local R v) ?_ fun o ho => .pure ho
          exact (ih hw).bind fun c hc => .pure fun v hv => by cases hv; exact hc
      have hparts := WalksAlike.mapM hentry
      rw [snapshotWithin_hash, snapshotWithin_hash, h.hash hv]
      have hrel := hparts s t h
      generalize (s.hash i).entries.mapM (snapshotEntry n) s = o at hrel ⊢
      generalize (s.hash i).entries.mapM (snapshotEntry n) t = o' at hrel ⊢
      cases hrel with
      | none => exact .none
      | @some p q hpq =>
        obtain ⟨es, u⟩ := p
        obtain ⟨es', u'⟩ := q
        obtain rfl : es' = es := hpq.value
        have hvalues : ∀ v ∈ ({ s.hash i with entries := es', marked := false } : Table).values, s₀.Local R v := by
          intro v hv
          obtain ⟨e, he, hev⟩ := List.mem_filterMap.1 hv
          exact hpq.holds e he v hev
        obtain ⟨hid, halike⟩ := hpq.alike.newHash hvalues
        exact .some ⟨congrArg Value.hash hid, (hpq.alike.confined.newHash hvalues).2, halike⟩
    | ref slot index constant =>
      intro s t h
      rw [snapshotWithin_ref, snapshotWithin_ref, show t.slotValue? slot = _ from h.sameAt hv]
      cases hval : s.slotValue? slot with
      | none => exact .some ⟨rfl, local_of_cell?_none rfl, h⟩
      | some w =>
        exact ih (h.confined.local_of_children hv (by simp [children, Value.node?, held, hval])) s t h
    | _ => exact leaf hv rfl

theorem walksAlike_copy (hv : s₀.Local R v) : WalksAlike s₀ R (copy v) (s₀.Local R) := by
  intro s t h
  unfold copy
  rw [h.isMarked hv]
  split
  · exact .some ⟨rfl, hv, h.unmark hv⟩
  · unfold snapshot
    rw [h.shape.span]
    exact walksAlike_snapshotWithin hv s t h

end Store

end CopyOnBind
