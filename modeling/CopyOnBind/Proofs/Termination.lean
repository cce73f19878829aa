import CopyOnBind.Proofs.Locality
import CopyOnBind.Proofs.LoopFree
import CopyOnBind.Proofs.MoreSteps
/-!
# Loop-free programs terminate

The limit on the depth of calls is enough to make every loop-free program end
(`loop_free_terminates`), whatever closures it stores, passes, returns and calls,
if there are no cycles, no marks and no natives among the data that it starts
with. What it cannot reach may be anything: a run cannot tell a store from its part
that can be reached (`Store.only`), and that part is tidy.

One of the endings is a conflict, which is no fault that the program could be told
of: a push that has to copy the array that it writes (`push_onto_itself`).
-/

namespace CopyOnBind

open Relation

/-- The table with its entries, and nothing in them. -/
def Table.vacant (t : Table) : Table := { t with entries := t.entries.map ({ · with value := none }), marked := false }

namespace Store

variable {s : Store} {R : Cell → Prop} {c d : Cell} {v w : Value} {e : ScopeId}

/-! ## A part of a store -/

open Classical in
/-- The cells of a region, and of the others no more than that they are there. -/
noncomputable def only (s : Store) (R : Cell → Prop) : Store where
  arrays := s.arrays.mapIdx fun i cell => if R (.array ⟨i⟩) then cell else {}
  hashes := s.hashes.mapIdx fun i table => if R (.hash ⟨i⟩) then table else table.vacant
  scopes := s.scopes.mapIdx fun i scope => if R (.scope ⟨i⟩) then scope else {}

theorem sameCell_only (h : R c) : s.SameCell (s.only R) c := by
  cases c with
  | array a => simp [SameCell, only, array, Array.getD_eq_getD_getElem?, h]
  | hash i => simp [SameCell, only, hash, Array.getD_eq_getD_getElem?, h]
  | scope e => simp [SameCell, only, scope, Array.getD_eq_getD_getElem?, h]
  | host => trivial

theorem array_only_of_not {a : ArrayId} (h : ¬ R (.array a)) : (s.only R).array a = {} := by
  cases hs : s.arrays[a.index]? <;> simp [only, array, Array.getD_eq_getD_getElem?, h, hs]

theorem hash_only_of_not {i : HashId} (h : ¬ R (.hash i)) : (s.only R).hash i = (s.hash i).vacant := by
  cases hs : s.hashes[i.index]? <;> simp [only, hash, Array.getD_eq_getD_getElem?, h, hs, Table.vacant]

theorem scope_only_of_not (h : ¬ R (.scope e)) : (s.only R).scope e = {} := by
  cases hs : s.scopes[e.index]? <;> simp [only, scope, Array.getD_eq_getD_getElem?, h, hs]

/-- There is nothing outside the region. -/
theorem contents_only_of_not (h : ¬ R c) : (s.only R).contents c = [] := by
  cases c with
  | array a => simp [contents, array_only_of_not h]
  | hash i => simp [contents, hash_only_of_not h, Table.vacant, Table.values]
  | scope e => simp [contents, scope_only_of_not h]
  | host => rfl

theorem sameShape_only : s.SameShape (s.only R) where
  arrays := by simp [only]
  hashes := by simp [only]
  scopes := by simp [only]
  entries i := by
    by_cases h : R (.hash i)
    · exact congrArg Table.size (sameCell_only h)
    · simp [hash_only_of_not h, Table.vacant, Table.size]

theorem alikeOn_only (hR : ∀ c d, R c → s.Links c d → R d) : s.AlikeOn R s (s.only R) where
  confined := .refl hR
  shape := sameShape_only
  same c hc := by
    by_cases h : R c
    · exact sameCell_only h
    · -- the store does not have the cell, so it is empty anyway
      have hnot : ¬ s.Has c := hc.resolve_right h
      cases c with
      | array a => rw [SameCell, array_only_of_not h, array_of_le (Nat.not_lt.1 hnot)]
      | hash i =>
        rw [SameCell, hash_only_of_not h, hash_of_le (Nat.not_lt.1 hnot)]
        rfl
      | scope e => rw [SameCell, scope_only_of_not h, scope_of_le (Nat.not_lt.1 hnot)]
      | host => trivial

theorem mem_contents_only (h : v ∈ (s.only R).contents c) : R c ∧ v ∈ s.contents c := by
  by_cases hc : R c
  · exact ⟨hc, (sameCell_only hc).contents ▸ h⟩
  · rw [contents_only_of_not hc] at h
    cases h

theorem knows_only : (s.only R).Knows v ↔ s.Knows v := by
  cases v <;> simp [Knows, only]

theorem at?_name_only {x : String} (h : (s.only R).at? (.name e x) = some v) : s.at? (.name e x) = some v := by
  by_cases he : R (.scope e)
  · simpa only [at?, show (s.only R).scope e = _ from sameCell_only he] using h
  · simp [at?, scope_only_of_not he, Scope.find?] at h

theorem wellFormed_only (hs : s.WellFormed) : (s.only R).WellFormed where
  closed v i w hw := by
    have hchild := (mem_children_iff (isContainer_of_part? hw)).2 ⟨i, hw⟩
    obtain ⟨c, hc, hmem⟩ := mem_contents_of_children hchild
    rw [(sameCell_only (mem_contents_only hmem).1).children hc] at hchild
    exact knows_only.2 (hs.children hchild)
  keyed i := by
    by_cases hi : R (.hash i)
    · rw [show (s.only R).hash i = _ from sameCell_only hi]
      exact hs.keyed i
    · simpa [hash_only_of_not hi, Table.vacant, Table.Keyed] using hs.keyed i
  distinct i := by
    by_cases hi : R (.hash i)
    · rw [show (s.only R).hash i = _ from sameCell_only hi]
      exact hs.distinct i
    · simpa [hash_only_of_not hi, Table.vacant, Function.comp_def] using hs.distinct i

theorem mem_contents_of_at? {p : Place} (h : s.at? p = some v) : ∃ c, v ∈ s.contents c := by
  cases p with
  | name e x =>
    obtain ⟨b, hb, rfl⟩ := Option.map_eq_some_iff.1 h
    exact ⟨.scope e, List.mem_map.2 ⟨b, List.mem_of_find?_eq_some hb, rfl⟩⟩
  | inside u i =>
    obtain ⟨c, -, hmem⟩ := mem_contents_of_children ((mem_children_iff (isContainer_of_part? h)).2 ⟨i, h⟩)
    exact ⟨c, hmem⟩

/-! ## What can be reached -/

/-- Code in the scope `e` can get at the cell. -/
def Reaches (s : Store) (e : ScopeId) (c : Cell) : Prop := ReflTransGen s.Links (.scope e) c

/-- From the scope `e`, nothing can be reached that is cyclic or marked, and no native. -/
structure ClearFrom (s : Store) (e : ScopeId) : Prop where
  grounded : ∀ c v, s.Reaches e c → v ∈ s.contents c → s.Grounded v
  unmarked : ∀ v c, s.Reaches e c → v.cell? = some c → s.isMarked v = false
  apart : ¬ s.Reaches e .host

theorem alikeOn_reached (s : Store) (e : ScopeId) : s.AlikeOn (s.Reaches e) s (s.only (s.Reaches e)) :=
  alikeOn_only fun _ _ hc hd => hc.tail hd

/-- The part that can be reached is tidy, as a store to start with. -/
theorem ClearFrom.tidy (h : s.ClearFrom e) (hs : s.WellFormed) (hb : ∀ e x v, s.at? (.name e x) = some v → s.Knows v) :
    (s.only (s.Reaches e)).Tidy (s.only (s.Reaches e)) := by
  have halike := alikeOn_reached s e
  refine tidy_refl (wellFormed_only hs) (acyclic_of_grounded fun m v hv => ?_)
    (fun d x v hv => knows_only.2 (hb d x v (at?_name_only hv))) (fun p v hp hkind => ?_) fun v => ?_
  · obtain ⟨u, i, hi⟩ := part?_of_mem_held hv
    obtain ⟨c, hmem⟩ := mem_contents_of_at? (p := .inside u i) hi
    obtain ⟨hc, hv⟩ := mem_contents_only hmem
    exact halike.grounded (halike.confined.local_of_contents (.inr hc) hv) (h.grounded c v hc hv)
  · obtain ⟨c, hmem⟩ := mem_contents_of_at? hp
    obtain ⟨hc, hv⟩ := mem_contents_only hmem
    cases v with
    | native n => exact h.apart (hc.tail (.content hv rfl))
    | _ => cases hkind
  · cases hc : v.cell? with
    | none => cases v <;> first | rfl | cases hc
    | some c =>
      by_cases hr : s.Reaches e c
      · rw [(sameCell_only hr).isMarked hc]
        exact h.unmarked v c hr hc
      · cases v <;> cases hc
        · rw [isMarked, array_only_of_not hr]
        · rw [isMarked, hash_only_of_not hr]
          rfl
        all_goals rfl

end Store

namespace Kernel

open Store

variable {ω : Type} {p : Program} {code : List Stmt} {e : ScopeId}

theorem isSome_run_of_halts {n : Nat} {w : World Trace} (h : Halts (execBlock p record n e code) { w with broken := false }) :
    (run p record n e code w).1.isSome := by
  unfold Halts at h
  rcases hrun : (execBlock p record n e code).runOn { w with broken := false } with ⟨_ | q, u⟩ <;> rw [hrun] at h
  · rw [run_of_broken hrun (h.resolve_left nofun)]
    rfl
  · rw [run_of_outcome hrun]
    rfl

/-- A loop-free program comes to an end, and steps beyond those for its own parts and for one body
at each depth that is left change nothing. What the program starts with may hold closures, whose
bodies are loop-free as well. -/
theorem loop_free_terminates (hp : p.loopFree) (hcode : Kernel.loopFree code) (watch : Watcher ω) (w : World ω)
    (hs : w.store.WellFormed) (hb : ∀ e x v, w.store.at? (.name e x) = some v → w.store.Knows v)
    (hclear : w.store.ClearFrom e) : ∃ (r : Ending) (u : World ω),
      ∀ n, Kernel.steps code + p.reserve w.machine ≤ n → run p watch n e code w = (some r, u) := by
  -- the run in the part that can be reached, watched by a recorder
  let w' : World Trace := { store := w.store.only (w.store.Reaches e), machine := w.machine, notes := [], broken := w.broken }
  have htidy : w'.store.Tidy w'.store := hclear.tidy hs hb
  have hhalts := (code_halts hp w'.store _).block e code w.machine hcode (Nat.le_refl _) { w' with broken := false } htidy rfl
  have hlevel : Level w.store (w.store.Reaches e) w w' := ⟨alikeOn_reached w.store e, rfl, rfl⟩
  have hsame := run_alike hclear.apart p watch record (Kernel.steps code + p.reserve w.machine) code hlevel (.inr .refl)
  have hsome : (run p watch (Kernel.steps code + p.reserve w.machine) e code w).1.isSome := by
    rw [← hsame]
    exact isSome_run_of_halts hhalts
  obtain ⟨r, hr⟩ := Option.isSome_iff_exists.1 hsome
  exact ⟨r, _, fun n hn => run_of_le hn (Prod.ext hr rfl)⟩

/-- A function that calls the function it is given, given itself, is stopped at the limit. There is
an array with itself inside and a mark, but no name leads to it. -/
theorem loop_free_terminates_self_application :
    let p : Program := { blocks := #[[.push "data" (.int 2), .expr (.call (.name "g") [.name "g"])]] }
    let code : List Stmt := [.define "f" (.function ["g"] ⟨0, 2⟩), .expr (.call (.name "f") [.name "f"])]
    let s : Store :=
      { arrays := #[{ elements := #[.int 1] }, { elements := #[.array ⟨1⟩], marked := true }]
        scopes := #[{ bindings := [⟨"data", .array ⟨0⟩, true⟩] }] }
    let w : World Unit := { store := s, machine := { policy := { copyElision := true, maxCallDepth := 3 } }, notes := () }
    p.loopFree ∧ Kernel.loopFree code ∧ s.WellFormed ∧ s.ClearFrom ⟨0⟩ ∧ ¬ s.Grounded (.array ⟨1⟩) ∧
      ∃ u, u.store.elements ⟨0⟩ = #[.int 1, .int 2, .int 2, .int 2] ∧
        ∀ n, 16 ≤ n → run p (fun _ _ => ()) n ⟨0⟩ code w = (some (.fault (.callDepthExceeded 3)), u) := by
  intro p code s w
  have hp : p.loopFree := by decide
  have hcode : Kernel.loopFree code := by decide
  have hs : s.WellFormed := by decide
  have hreach : ∀ c, s.Reaches ⟨0⟩ c → c = .scope ⟨0⟩ ∨ c = .array ⟨0⟩ := by
    intro c hc
    induction hc with
    | refl => exact .inl rfl
    | tail _ hlink ih =>
      rcases ih with rfl | rfl
      · cases hlink with
        | content hv hd =>
          cases List.mem_singleton.1 hv
          cases hd
          exact .inr rfl
        | parent hr => cases hr
      · cases hlink with
        | content hv hd =>
          cases List.mem_singleton.1 hv
          cases hd
  have hb : ∀ e x v, s.at? (.name e x) = some v → s.Knows v := by
    intro e x v hv
    obtain rfl : e = ⟨0⟩ := congrArg ScopeId.mk (Nat.lt_one_iff.1 (lt_of_at?_name hv))
    obtain ⟨b, hb, rfl⟩ := Option.map_eq_some_iff.1 hv
    cases List.mem_singleton.1 (List.mem_of_find?_eq_some hb)
    decide
  have hclear : s.ClearFrom ⟨0⟩ := by
    refine ⟨fun c v hc hv => ?_, fun v c hc hvc => ?_, fun hc => ?_⟩
    · rcases hreach c hc with rfl | rfl <;> cases List.mem_singleton.1 hv
      · exact ⟨2, by decide⟩
      · exact ⟨0, rfl⟩
    · rcases hreach c hc with rfl | rfl <;> cases v <;> first | rfl | (cases hvc <;> rfl)
    · rcases hreach _ hc with h | h <;> cases h
  have hcyclic : ¬ s.Grounded (.array ⟨1⟩) := fun h => absurd (within_span h) (by decide)
  obtain ⟨r, u, hrun⟩ := loop_free_terminates hp hcode (fun _ _ => ()) w hs hb hclear
  have hsteps : Kernel.steps code + p.reserve w.machine = 16 := by decide
  have hresult : (run p (fun _ _ => ()) 16 ⟨0⟩ code w).1 = some (.fault (.callDepthExceeded 3)) := by decide +kernel
  have hstore : (run p (fun _ _ => ()) 16 ⟨0⟩ code w).2.store.elements ⟨0⟩ = #[.int 1, .int 2, .int 2, .int 2] := by
    decide +kernel
  rw [hrun 16 (Nat.le_of_eq hsteps)] at hresult hstore
  refine ⟨hp, hcode, hs, hclear, hcyclic, u, hstore, fun n hn => ?_⟩
  rw [hrun n (by omega)]
  exact congrArg (·, u) hresult

/-- An array that is pushed onto itself: the copy would read what the push has taken to write, whether
copies are elided or not. -/
theorem push_onto_itself :
    let code : List Stmt := [.define "a" (.array []), .push "a" (.name "a")]
    let s : Store := { scopes := #[{}] }
    let w (elide : Bool) : World Unit := { store := s, machine := { policy := { copyElision := elide } }, notes := () }
    Kernel.loopFree code ∧ s.ClearFrom ⟨0⟩ ∧ ∀ n, 5 ≤ n →
      (run {} (fun _ _ => ()) n ⟨0⟩ code (w false)).1 = some .conflict ∧
        (run {} (fun _ _ => ()) n ⟨0⟩ code (w true)).1 = some .conflict := by
  intro code s w
  have hreach : ∀ c, s.Reaches ⟨0⟩ c → c = .scope ⟨0⟩ := by
    intro c hc
    induction hc with
    | refl => rfl
    | tail _ hlink ih =>
      subst ih
      cases hlink with
      | content hv => cases hv
      | parent hr => cases hr
  have hclear : s.ClearFrom ⟨0⟩ := by
    refine ⟨fun c v hc hv => ?_, fun v c hc hvc => ?_, fun hc => ?_⟩
    · cases hreach c hc
      cases hv
    · cases v <;> rfl
    · cases hreach _ hc
  have hoff : (run {} (fun _ _ => ()) 5 ⟨0⟩ code (w false)).1 = some .conflict := by decide +kernel
  have hon : (run {} (fun _ _ => ()) 5 ⟨0⟩ code (w true)).1 = some .conflict := by decide +kernel
  refine ⟨by decide, hclear, fun n hn => ⟨?_, ?_⟩⟩
  · rw [run_of_le hn (Prod.ext hoff rfl)]
  · rw [run_of_le hn (Prod.ext hon rfl)]

end Kernel

end CopyOnBind
