import CopyOnBind.Eval.Apply
import CopyOnBind.Proofs.Places
/-!
# Regions of a store

Arrays, hashes and scopes are the cells of a store, and the values in a cell lead
to other cells. Code that starts from some cells can get at what these lead to
and at what it makes itself, and at nothing else: `Confined` says that a store is
the one before up to the cells of a region and new ones. Every change of one cell
of the region that puts nothing into it but values of the region keeps the store
confined (`Confined.change`); copies, bindings and pushes are such changes.

What a native does is up to the host, so natives lead to a cell of their own,
and from there to every cell.
-/

namespace CopyOnBind

open Relation

inductive Cell where
  | array (a : ArrayId)
  | hash (h : HashId)
  | scope (e : ScopeId)
  /-- Where natives lead. -/
  | host
deriving DecidableEq

namespace Value

/-- What a callable brings along: the scope that a closure was made in, or the host of a native. -/
def captured? : Value → Option Cell
  | function f => some (.scope f.scope)
  | underline u => some (.scope u.scope)
  | native _ => some .host
  | _ => none

/-- The cell that a value leads to; a reference leads to the hash of its entry. -/
def cell? : Value → Option Cell
  | array a => some (.array a)
  | hash h => some (.hash h)
  | ref slot _ _ => some (.hash slot.origin)
  | v => v.captured?

theorem cell?_of_captured? {v : Value} {c : Cell} (h : v.captured? = some c) : v.cell? = some c := by
  cases v <;> simp_all [captured?, cell?]

theorem captured?_of_node?_none {v : Value} {c : Cell} (hv : v.node? = none) (hc : v.cell? = some c) :
    v.captured? = some c := by
  cases v <;> simp_all [node?, captured?, cell?]

end Value

theorem Scope.mem_define {scope : Scope} {b b' : Binding} (h : b' ∈ (scope.define b).bindings) :
    b' ∈ scope.bindings ∨ b' = b := by
  unfold Scope.define at h
  split at h
  · obtain ⟨c, hc, rfl⟩ := List.mem_map.1 h
    split
    · exact .inr rfl
    · exact .inl hc
  · exact (List.mem_append.1 h).imp_right List.mem_singleton.1

namespace Store

variable {s₀ s t u : Store} {R : Cell → Prop} {c d : Cell} {v w : Value} {e r : ScopeId} {x : String}

/-! ## Cells -/

/-- The store has the cell. -/
def Has (s : Store) : Cell → Prop
  | .array a => a.index < s.arrays.size
  | .hash h => h.index < s.hashes.size
  | .scope e => e.index < s.scopes.size
  | .host => True

instance : (c : Cell) → Decidable (s.Has c)
  | .array a => inferInstanceAs (Decidable (a.index < _))
  | .hash h => inferInstanceAs (Decidable (h.index < _))
  | .scope e => inferInstanceAs (Decidable (e.index < _))
  | .host => inferInstanceAs (Decidable True)

/-- The values in a cell. -/
def contents (s : Store) : Cell → List Value
  | .array a => (s.array a).elements.toList
  | .hash h => (s.hash h).values
  | .scope e => (s.scope e).bindings.map Binding.value
  | .host => []

/-- A cell leads to the cells that its values lead to, a scope to its parent, and the host to every cell. -/
inductive Links (s : Store) : Cell → Cell → Prop
  | content {c d : Cell} {v : Value} : v ∈ s.contents c → v.cell? = some d → Links s c d
  | parent {e r : ScopeId} : (s.scope e).parent = some r → Links s (.scope e) (.scope r)
  | host (c : Cell) : Links s .host c

/-- The cell is the same in both stores: its content, its mark and its parent. -/
def SameCell (s t : Store) : Cell → Prop
  | .array a => t.array a = s.array a
  | .hash h => t.hash h = s.hash h
  | .scope e => t.scope e = s.scope e
  | .host => True

theorem SameCell.refl (s : Store) (c : Cell) : s.SameCell s c := by
  cases c with
  | host => trivial
  | _ => rfl

theorem SameCell.symm (h : s.SameCell t c) : t.SameCell s c := by
  cases c with
  | host => trivial
  | _ => exact Eq.symm h

theorem SameCell.trans (hst : s.SameCell t c) (htu : t.SameCell u c) : s.SameCell u c := by
  cases c with
  | host => trivial
  | _ => exact Eq.trans htu hst

theorem SameCell.contents (h : s.SameCell t c) : t.contents c = s.contents c := by
  cases c with
  | host => rfl
  | _ => simp only [Store.contents, show _ = _ from h]

theorem SameCell.links_of (h : s.SameCell t c) (hd : s.Links c d) : t.Links c d := by
  cases hd with
  | content hv hd => exact .content (h.contents.symm ▸ hv) hd
  | parent hr => exact .parent ((show t.scope _ = s.scope _ from h).symm ▸ hr)
  | host => exact .host d

theorem SameCell.links (h : s.SameCell t c) : t.Links c d ↔ s.Links c d := ⟨h.symm.links_of, h.links_of⟩

theorem SameCell.children (h : s.SameCell t c) (hv : v.cell? = some c) : t.children v = s.children v := by
  cases v with
  | array a =>
    cases hv
    exact h.contents
  | hash i =>
    cases hv
    exact h.contents
  | ref slot index constant =>
    cases hv
    simp only [Store.children, Value.node?, Option.map_some, Option.getD_some, held, slotValue?, entry?,
      show t.hash slot.origin = _ from h]
  | _ => rfl

theorem SameCell.isMarked (h : s.SameCell t c) (hv : v.cell? = some c) : t.isMarked v = s.isMarked v := by
  cases v with
  | array a =>
    cases hv
    exact congrArg ArrayCell.marked h
  | hash i =>
    cases hv
    exact congrArg Table.marked h
  | _ => rfl

theorem SameCell.callee (h : s.SameCell t c) (hv : v.cell? = some c) : t.callee v = s.callee v := by
  cases v with
  | ref slot index constant =>
    cases hv
    simp only [Store.callee, slotValue?, entry?, show t.hash slot.origin = _ from h]
  | _ => rfl

theorem contents_of_not_has (h : ¬ s.Has c) : s.contents c = [] := by
  cases c with
  | array a => simp [contents, array_of_le (Nat.not_lt.1 h)]
  | hash i => simp [contents, hash_of_le (Nat.not_lt.1 h), Table.values]
  | scope e => simp [contents, scope_of_le (Nat.not_lt.1 h)]
  | host => rfl

theorem not_links_of_not_has (h : ¬ s.Has c) : ¬ s.Links c d := by
  intro hd
  cases hd with
  | content hv => simp [contents_of_not_has h] at hv
  | parent hr => simp [scope_of_le (Nat.not_lt.1 h)] at hr
  | host => exact h trivial

/-- What a walk finds in a container or behind a reference is in the cell that the value leads to. -/
theorem mem_contents_of_children (hw : w ∈ s.children v) : ∃ c, v.cell? = some c ∧ w ∈ s.contents c := by
  cases v with
  | array a => exact ⟨_, rfl, hw⟩
  | hash h => exact ⟨_, rfl, hw⟩
  | ref slot index constant =>
    have hval : s.slotValue? slot = some w := by simpa [children, Value.node?, held] using hw
    obtain ⟨i, hi⟩ := part?_of_slotValue? hval
    exact ⟨_, rfl, mem_values_iff.2 ⟨i, hi⟩⟩
  | _ => simp [children, Value.node?] at hw

theorem array_newArray_of_ne {elements : Array Value} {b : ArrayId} (h : b.index ≠ s.arrays.size) :
    (s.newArray elements).2.array b = s.array b := by
  by_cases hb : b.index < s.arrays.size
  · exact array_newArray_of_lt hb
  · rw [array_of_le (by simp [newArray]; omega), array_of_le (by omega)]

theorem hash_newHash_of_ne {table : Table} {i : HashId} (h : i.index ≠ s.hashes.size) :
    (s.newHash table).2.hash i = s.hash i := by
  by_cases hi : i.index < s.hashes.size
  · exact hash_newHash_of_lt hi
  · rw [hash_of_le (by simp [newHash]; omega), hash_of_le (by omega)]

/-! ## The other cells, after a change of one -/

theorem sameCell_newArray {elements : Array Value} (hd : d ≠ .array (s.newArray elements).1) :
    s.SameCell (s.newArray elements).2 d := by
  cases d with
  | array b => exact array_newArray_of_ne fun hb => hd (congrArg (Cell.array ⟨·⟩) hb)
  | host => trivial
  | _ => rfl

theorem sameCell_newHash {table : Table} (hd : d ≠ .hash (s.newHash table).1) : s.SameCell (s.newHash table).2 d := by
  cases d with
  | hash i => exact hash_newHash_of_ne fun hi => hd (congrArg (Cell.hash ⟨·⟩) hi)
  | host => trivial
  | _ => rfl

theorem sameCell_newScope {parent : Option ScopeId} (hd : d ≠ .scope (s.newScope parent).1) :
    s.SameCell (s.newScope parent).2 d := by
  cases d with
  | scope r => exact scope_newScope_of_ne fun hr => hd (congrArg (Cell.scope ⟨·⟩) hr)
  | host => trivial
  | _ => rfl

theorem sameCell_modifyArray {a : ArrayId} {f : ArrayCell → ArrayCell} (hd : d ≠ .array a) :
    s.SameCell (s.modifyArray a f) d := by
  cases d with
  | array b => exact array_modifyArray_of_ne fun hb => hd (congrArg Cell.array hb)
  | host => trivial
  | _ => rfl

theorem sameCell_modifyHash {i : HashId} {f : Table → Table} (hd : d ≠ .hash i) : s.SameCell (s.modifyHash i f) d := by
  cases d with
  | hash j => exact hash_modifyHash_of_ne fun hj => hd (congrArg Cell.hash hj)
  | host => trivial
  | _ => rfl

theorem sameCell_define {m : Bool} (hd : d ≠ .scope e) : s.SameCell (s.define e x v m) d := by
  cases d with
  | scope r => exact scope_modifyScope_of_ne fun hr => hd (congrArg Cell.scope hr)
  | host => trivial
  | _ => rfl

/-! ## Regions -/

/-- The cells that code can get at which starts inside `R`: those of `R`, and all that are new. -/
def Domain (s₀ : Store) (R : Cell → Prop) (c : Cell) : Prop := ¬ s₀.Has c ∨ R c

/-- The value leads into the domain, if anywhere. -/
def Local (s₀ : Store) (R : Cell → Prop) (v : Value) : Prop := ∀ c, v.cell? = some c → s₀.Domain R c

/-- The callables that the value leads to through containers and references lead into the domain. -/
def Captures (s₀ : Store) (R : Cell → Prop) (v : Value) : Prop :=
  ∀ w, ReflTransGen (fun v w => w ∈ s₀.children v) v w → ∀ c, w.captured? = some c → s₀.Domain R c

/-- A copy of the value leads into the domain: a marked value may be its own copy, any other is copied part by part. -/
def Bindable (s₀ : Store) (R : Cell → Prop) (v : Value) : Prop :=
  s₀.Local R v ∨ s₀.Captures R v ∧ s₀.isMarked v = false

/-- The store `t` is `s₀` up to the domain, and the domain leads to nothing else. -/
structure Confined (s₀ : Store) (R : Cell → Prop) (t : Store) : Prop where
  has : ∀ c, s₀.Has c → t.Has c
  closed : ∀ c d, s₀.Domain R c → t.Links c d → s₀.Domain R d
  same : ∀ c, ¬ s₀.Domain R c → s₀.SameCell t c

theorem Confined.refl (hR : ∀ c d, R c → s.Links c d → R d) : s.Confined R s where
  has _ := id
  closed c d hc hd := .inr (hR c d (hc.resolve_left fun h => not_links_of_not_has h hd) hd)
  same c _ := .refl s c

theorem domain_host : s₀.Domain R .host ↔ R .host := or_iff_right fun h => h trivial

theorem local_of_cell?_none (hv : v.cell? = none) : s₀.Local R v := fun c hc => by
  rw [hv] at hc
  cases hc

theorem exists_cell_of_not_local (hv : ¬ s₀.Local R v) : ∃ c, v.cell? = some c ∧ ¬ s₀.Domain R c := by
  simpa [Local] using hv

namespace Confined

variable (h : s₀.Confined R t)
include h

theorem local_of_contents (hc : s₀.Domain R c) (hv : v ∈ t.contents c) : s₀.Local R v :=
  fun d hd => h.closed c d hc (.content hv hd)

theorem local_of_children (hv : s₀.Local R v) (hw : w ∈ t.children v) : s₀.Local R w := by
  obtain ⟨c, hc, hw⟩ := mem_contents_of_children hw
  exact h.local_of_contents (hv c hc) hw

/-- A change of one cell of the domain. -/
theorem change (hc : s₀.Domain R c) (hhas : ∀ d, t.Has d → u.Has d) (hother : ∀ d, d ≠ c → t.SameCell u d)
    (hlinks : ∀ d, u.Links c d → s₀.Domain R d) : s₀.Confined R u where
  has d hd := hhas d (h.has d hd)
  closed d d' hd hlink := by
    by_cases hdc : d = c
    · exact hlinks d' (hdc ▸ hlink)
    · exact h.closed d d' hd ((hother d hdc).links.1 hlink)
  same d hd := (h.same d hd).trans (hother d fun hdc => hd (hdc ▸ hc))

theorem new_of_not_has (hc : ¬ t.Has c) : s₀.Domain R c := .inl fun hs => hc (h.has c hs)

/-! ## New cells -/

theorem newArray {vs : List Value} (hvs : ∀ v ∈ vs, s₀.Local R v) :
    s₀.Confined R (t.newArray vs.toArray).2 ∧ s₀.Local R (.array (t.newArray vs.toArray).1) := by
  have hc : s₀.Domain R (.array (t.newArray vs.toArray).1) := h.new_of_not_has (Nat.lt_irrefl _)
  refine ⟨h.change hc (fun d hd => ?_) (fun _ => sameCell_newArray) fun d hlink => ?_, fun d hd => by cases hd; exact hc⟩
  · cases d with
    | array b => exact Nat.lt_of_lt_of_le hd (Extends.newArray t _).arrays_le
    | _ => exact hd
  · obtain ⟨v, hv, hd⟩ : ∃ v ∈ vs, v.cell? = some d := by
      cases hlink with
      | content hv hd => exact ⟨_, by simpa [contents] using hv, hd⟩
    exact hvs v hv d hd

theorem newHash {table : Table} (hvs : ∀ v ∈ table.values, s₀.Local R v) :
    s₀.Confined R (t.newHash table).2 ∧ s₀.Local R (.hash (t.newHash table).1) := by
  have hc : s₀.Domain R (.hash (t.newHash table).1) := h.new_of_not_has (Nat.lt_irrefl _)
  refine ⟨h.change hc (fun d hd => ?_) (fun _ => sameCell_newHash) fun d hlink => ?_, fun d hd => by cases hd; exact hc⟩
  · cases d with
    | hash i => exact Nat.lt_of_lt_of_le hd (Extends.newHash t _).hashes_le
    | _ => exact hd
  · obtain ⟨v, hv, hd⟩ : ∃ v ∈ table.values, v.cell? = some d := by
      cases hlink with
      | content hv hd => exact ⟨_, by simpa [contents] using hv, hd⟩
    exact hvs v hv d hd

theorem newScope (hr : s₀.Domain R (.scope r)) :
    s₀.Confined R (t.newScope (some r)).2 ∧ s₀.Domain R (.scope (t.newScope (some r)).1) := by
  have hc : s₀.Domain R (.scope (t.newScope (some r)).1) := h.new_of_not_has (Nat.lt_irrefl _)
  refine ⟨h.change hc (fun d hd => ?_) (fun _ => sameCell_newScope) fun d hlink => ?_, hc⟩
  · cases d with
    | scope e => exact Nat.lt_of_lt_of_le hd (by simp [Store.newScope])
    | _ => exact hd
  · cases hlink with
    | content hv => simp [contents] at hv
    | parent hp =>
      rw [scope_newScope_self] at hp
      cases hp
      exact hr

/-! ## Changed cells -/

theorem modifyArray {a : ArrayId} {f : ArrayCell → ArrayCell} (ha : s₀.Domain R (.array a))
    (hf : ∀ v ∈ (f (t.array a)).elements, s₀.Local R v) : s₀.Confined R (t.modifyArray a f) := by
  refine h.change ha (fun d hd => ?_) (fun _ => sameCell_modifyArray) fun d hlink => ?_
  · cases d with
    | host => trivial
    | _ => simpa [Has, Store.modifyArray] using hd
  · cases hlink with
    | @content _ _ v hv hd =>
      rcases array_modifyArray_cases (s := t) (a := a) (b := a) (f := f) with hsame | ⟨-, hnew⟩
      · exact h.closed (.array a) d ha (.content (by simpa only [contents, hsame] using hv) hd)
      · simp only [contents, hnew, Array.mem_toList_iff] at hv
        exact hf v hv d hd

theorem modifyHash {i : HashId} {f : Table → Table} (hi : s₀.Domain R (.hash i))
    (hf : ∀ v ∈ (f (t.hash i)).values, s₀.Local R v) : s₀.Confined R (t.modifyHash i f) := by
  refine h.change hi (fun d hd => ?_) (fun _ => sameCell_modifyHash) fun d hlink => ?_
  · cases d with
    | host => trivial
    | _ => simpa [Has, Store.modifyHash] using hd
  · cases hlink with
    | @content _ _ v hv hd =>
      rcases hash_modifyHash_cases (s := t) (h := i) (i := i) (f := f) with hsame | ⟨-, hnew⟩
      · exact h.closed (.hash i) d hi (.content (by simpa only [contents, hsame] using hv) hd)
      · simp only [contents, hnew] at hv
        exact hf v hv d hd

theorem define (he : s₀.Domain R (.scope e)) (hv : s₀.Local R v) (m : Bool) :
    s₀.Confined R (t.define e x v m) := by
  refine h.change he (fun d hd => ?_) (fun _ => sameCell_define) fun d hlink => ?_
  · cases d with
    | host => trivial
    | _ => simpa [Has, Store.define, Store.modifyScope] using hd
  · have hscope : (t.define e x v m).scope e = t.scope e ∨
        (t.define e x v m).scope e = (t.scope e).define ⟨x, v, m⟩ := by
      rw [scope_define]
      split <;> simp
    cases hlink with
    | @content _ _ w hw hd =>
      obtain ⟨b, hb, rfl⟩ := List.mem_map.1 hw
      have hold : b ∈ (t.scope e).bindings ∨ b = ⟨x, v, m⟩ := by
        rcases hscope with hsame | hnew
        · exact .inl (hsame ▸ hb)
        · exact Scope.mem_define (hnew ▸ hb)
      rcases hold with hb | rfl
      · exact h.closed _ d he (.content (List.mem_map.2 ⟨b, hb, rfl⟩) hd)
      · exact hv d hd
    | @parent _ r hr =>
      have hparent : ((t.define e x v m).scope e).parent = (t.scope e).parent := by
        rcases hscope with hsame | hnew
        · rw [hsame]
        · rw [hnew, Scope.parent_define]
      exact h.closed _ _ he (.parent (hparent ▸ hr))

theorem push {a : ArrayId} (ha : s₀.Local R (.array a)) (hv : s₀.Local R v) : s₀.Confined R (t.push a v) := by
  refine h.modifyArray (ha _ rfl) fun w hw => ?_
  rcases Array.mem_push.1 hw with hw | rfl
  · exact h.local_of_contents (ha _ rfl) (Array.mem_toList_iff.2 hw)
  · exact hv

theorem mark (hv : s₀.Local R v) : s₀.Confined R (t.mark v) := by
  cases v with
  | array a => exact h.modifyArray (hv _ rfl) fun w hw => h.local_of_contents (hv _ rfl) (Array.mem_toList_iff.2 hw)
  | hash i => exact h.modifyHash (hv _ rfl) fun w hw => h.local_of_contents (hv _ rfl) hw
  | _ => exact h

theorem unmark (hv : s₀.Local R v) : s₀.Confined R (t.unmark v) := by
  cases v with
  | array a => exact h.modifyArray (hv _ rfl) fun w hw => h.local_of_contents (hv _ rfl) (Array.mem_toList_iff.2 hw)
  | hash i => exact h.modifyHash (hv _ rfl) fun w hw => h.local_of_contents (hv _ rfl) hw
  | _ => exact h

/-! ## Copies -/

/-- A snapshot is made of new cells, and leads out of them by the callables in it only. -/
theorem snapshotWithin {n : Nat} (hv : s₀.Local R v ∨ s₀.Captures R v) (hc : Store.snapshotWithin n v t = some (w, u)) :
    s₀.Confined R u ∧ s₀.Local R w := by
  refine snapshotWithin_invariant (I := s₀.Confined R) (P := fun v => s₀.Local R v ∨ s₀.Captures R v)
    (Q := s₀.Local R) (fun t v w ht hv hw => ?_) (fun v hv hflat => ?_) (local_of_cell?_none rfl)
    (fun t vs ht hvs => ht.newArray hvs) (fun _ _ _ _ _ hu _ hvs => hu.newHash hvs) h hv hc
  · by_cases hlocal : s₀.Local R v
    · exact .inl (ht.local_of_children hlocal hw)
    · -- outside the domain the parts are those of `s₀`
      obtain ⟨d, hd, hout⟩ := exists_cell_of_not_local hlocal
      rw [(ht.same d hout).children hd] at hw
      exact .inr fun x hx => hv.resolve_left hlocal x (.head hw hx)
  · exact hv.elim id fun hv d hd => hv v .refl d (Value.captured?_of_node?_none hflat hd)

theorem copy (hv : s₀.Bindable R v) (hc : t.copy v = some (w, u)) :
    s₀.Confined R u ∧ s₀.Local R w := by
  unfold Store.copy at hc
  split at hc
  · next hm =>
    cases hc
    have hlocal : s₀.Local R v := by
      by_contra hlocal
      obtain ⟨d, hd, hout⟩ := exists_cell_of_not_local hlocal
      rw [(h.same d hout).isMarked hd, (hv.resolve_left hlocal).2] at hm
      cases hm
    exact ⟨h.unmark hlocal, hlocal⟩
  · exact h.snapshotWithin (hv.imp_right And.left) hc

/-! ## Names -/

theorem resolveWithin {n : Nat} (he : s₀.Domain R (.scope e)) (hr : t.resolveWithin x n e = some r) :
    s₀.Domain R (.scope r) := by
  induction n generalizing e with
  | zero => cases hr
  | succ n ih =>
    unfold Store.resolveWithin at hr
    split at hr
    · cases hr
      exact he
    · obtain ⟨p, hp, hr⟩ := Option.bind_eq_some_iff.1 hr
      exact ih (h.closed _ _ he (.parent hp)) hr

theorem lookup (he : s₀.Domain R (.scope e)) (hx : t.lookup e x = some v) : s₀.Local R v := by
  simp only [Store.lookup, binding?, Option.map_eq_some_iff, Option.bind_eq_some_iff] at hx
  obtain ⟨b, ⟨r, hr, hb⟩, rfl⟩ := hx
  exact h.local_of_contents (h.resolveWithin he hr) (List.mem_map.2 ⟨b, List.mem_of_find?_eq_some hb, rfl⟩)

/-- What is called leads into the domain if the value leads there, or if it was so at first. -/
theorem callee (hv : s₀.Local R v ∨ ∀ c, (s₀.callee v).captured? = some c → s₀.Domain R c)
    (hc : (t.callee v).captured? = some c) : s₀.Domain R c := by
  by_cases hlocal : s₀.Local R v
  · have hcallee : s₀.Local R (t.callee v) := by
      cases v with
      | ref slot index constant =>
        simp only [Store.callee]
        cases hval : t.slotValue? slot with
        | none => exact local_of_cell?_none rfl
        | some w => exact h.local_of_children hlocal (by simp [children, Value.node?, held, hval])
      | _ => exact hlocal
    exact hcallee _ (Value.cell?_of_captured? hc)
  · obtain ⟨d, hd, hout⟩ := exists_cell_of_not_local hlocal
    rw [(h.same d hout).callee hd] at hc
    exact hv.resolve_left hlocal c hc

end Confined

end Store

end CopyOnBind
