import CopyOnBind.Proofs.Slots
import Mathlib.Data.Finmap
/-!
# A hash is a finite map

A `Mapping` is a finite map from keys to entries. What is asked of a hash is
answered as the map answers it (`hash_refines_map`), over runs of any length and
whichever way the request takes: to the hash, to the allocation of its entries, or to one
of its slots. Whatever else happens to the store in between does not matter.

The map does not know what a value to be written through a slot leads to; that
is looked up in the store and handed to it (`Exchange.loops`).
-/

namespace CopyOnBind

open Store

/-! ## The map -/

/-- A finite map from keys to entries, and the generation of the entry that is created next. -/
structure Mapping where
  entries : Finmap fun _ : Key => Entry
  next : UInt64

namespace Mapping

variable {m n : Mapping} {k l : Key} {e : Entry}

def find? (m : Mapping) (k : Key) : Option Entry := m.entries.lookup k

def contains (m : Mapping) (k : Key) : Bool := (m.find? k).isSome

def size (m : Mapping) : Nat := m.entries.keys.card

def create (m : Mapping) (k : Key) (written : Value) (value : Option Value) : Mapping :=
  ⟨m.entries.insert k ⟨k, written, value, m.next⟩, m.next + 1⟩

/-- Gives a value to the entry that is there, which keeps its key value and its generation. -/
def assign (m : Mapping) (k : Key) (value : Value) : Mapping :=
  match m.find? k with
  | some e => { m with entries := m.entries.insert k { e with value } }
  | none => m

def erase (m : Mapping) (k : Key) : Mapping := { m with entries := m.entries.erase k }

/-- What a change of a table is to the map. -/
def apply (m : Mapping) : Change → Mapping
  | .keep => m
  | .create k written value => m.create k written value
  | .assign k value => m.assign k value
  | .erase k => m.erase k

theorem ext_find? (h : ∀ k, m.find? k = n.find? k) (hnext : m.next = n.next) : m = n := by
  cases m
  cases n
  cases hnext
  rw [mk.injEq]
  exact ⟨Finmap.ext_lookup h, rfl⟩

theorem find?_insert {next : UInt64} : find? ⟨m.entries.insert k e, next⟩ l = if l = k then some e else m.find? l := by
  split
  · next h =>
    subst h
    exact Finmap.lookup_insert _
  · next h => exact Finmap.lookup_insert_of_ne _ h

theorem find?_assign {value : Value} :
    (m.assign k value).find? l = if l = k then (m.find? k).map ({ · with value }) else m.find? l := by
  unfold assign
  split
  · next e he => rw [find?_insert, he, Option.map_some]
  · next he =>
    split
    · next h => rw [h, he, Option.map_none]
    · rfl

theorem find?_erase : (m.erase k).find? l = if l = k then none else m.find? l := by
  split
  · next h =>
    subst h
    exact Finmap.lookup_erase _ _
  · next h => exact Finmap.lookup_erase_ne h

end Mapping

/-! ## Requests -/

/-- What can be asked of a hash. A slot is given by the key and the generation it was handed out for. -/
inductive Request where
  | insert (key value : Value)
  | remove (key : Value)
  | allocate (index : Value)
  | deallocate (index : Value)
  | slot (index : Value)
  | write (k : Key) (generation : UInt64) (value : Value)
  | read (k : Key) (generation : UInt64)
  | get (key : Value)
  | contains (key : Value)
  | size

inductive Answer where
  | inserted (r : Except AllocError (Option Value))
  | removed (e : Option Entry)
  | allocated (r : Except AllocError Slot)
  | slot (slot : Option Slot)
  | written (r : Except SlotError Unit)
  | value (v : Option Value)
  | told (b : Bool)
  | count (n : Nat)

/-- The value that is given as a key. -/
def Request.key? : Request → Option Value
  | insert key _ | remove key | get key | contains key => some key
  | allocate index | deallocate index | slot index => some index
  | write _ _ _ | read _ _ | size => none

namespace Mapping

/-- The answer of a map to a request, and the map afterwards. `loops` says that
the value to be written leads back to the hash. -/
def ask (m : Mapping) (h : HashId) (loops : Bool) : Request → Answer × Mapping
  | .insert key value =>
    match key.key? with
    | none => (.inserted (.error (.unhashable key.kind)), m)
    | some k =>
      match m.find? k with
      | some e => (.inserted (.ok e.value), m.assign k value)
      | none => (.inserted (.ok none), m.create k key (some value))
  | .remove key =>
    match key.key? with
    | none => (.removed none, m)
    | some k => (.removed (m.find? k), m.erase k)
  | .allocate index =>
    match index.key? with
    | none => (.allocated (.error (.unhashable index.kind)), m)
    | some k =>
      if m.contains k then (.allocated (.error .alreadyPresent), m)
      else (.allocated (.ok ⟨h, k, m.next⟩), m.create k index none)
  | .deallocate index =>
    match index.key? with
    | none => (.told false, m)
    | some k => (.told (m.contains k), m.erase k)
  | .slot index => (.slot (index.key?.bind fun k => (m.find? k).map fun e => ⟨h, k, e.generation⟩), m)
  | .write k generation value =>
    if loops then (.written (.error .cycle), m)
    else if (m.find? k).any (·.generation == generation) then (.written (.ok ()), m.assign k value)
    else (.written (.error .vacated), m)
  | .read k generation => (.value (((m.find? k).filter (·.generation == generation)).bind (·.value)), m)
  | .get key => (.value (key.key?.bind fun k => (m.find? k).bind (·.value)), m)
  | .contains key => (.told (key.key?.any m.contains), m)
  | .size => (.count m.size, m)

end Mapping

namespace Store

/-- The answer of a hash to a request, and the store afterwards; none if the
look for a cycle does not end. -/
def ask (s : Store) (h : HashId) : Request → Option (Answer × Store)
  | .insert key value => some (Prod.map .inserted id (s.insertEntry h key value))
  | .remove key => some (Prod.map .removed id (s.removeEntry h key))
  | .allocate index => some (Prod.map .allocated id (s.allocate h index))
  | .deallocate index => some (Prod.map .told id (s.deallocate h index))
  | .slot index => some (.slot (s.slot? h index), s)
  | .write k generation value => (s.setSlot ⟨h, k, generation⟩ value).map (Prod.map .written id)
  | .read k generation => some (.value (s.slotValue? ⟨h, k, generation⟩), s)
  | .get key => some (.value (s.valueUnder? h key), s)
  | .contains key => some (.told (s.hasEntry h key), s)
  | .size => some (.count (s.hash h).size, s)

/-- Whether the value to be written through a slot of `h` leads back to `h`. -/
def loops (s : Store) (h : HashId) : Request → Bool
  | .write _ _ value => s.reaches value h == some true
  | _ => false

end Store

/-! ## The map of a table -/

/-- What a table says about keys. -/
def Table.view (t : Table) : Mapping :=
  ⟨(t.entries.map fun e => (⟨e.key, e⟩ : Sigma fun _ : Key => Entry)).toFinmap, t.nextGeneration⟩

namespace Table

variable {t u : Table} {k : Key} {c : Change}

@[simp] theorem find?_view : t.view.find? k = t.find? k := by
  unfold view Mapping.find? find?
  rw [Finmap.dlookup_list_toFinmap]
  induction t.entries with
  | nil => rfl
  | cons e es ih =>
    by_cases he : e.key = k
    · subst he
      simp
    · rw [List.map_cons, List.dlookup_cons_ne _ _ (Ne.symm he), ih]
      simp [he]

@[simp] theorem next_view : t.view.next = t.nextGeneration := rfl

@[simp] theorem contains_view : t.view.contains k = t.contains k := by
  rw [Mapping.contains, find?_view, contains]

theorem size_view (h : t.Distinct) : t.view.size = t.size := by
  have hkeys : t.view.entries.keys = (t.entries.map Entry.key).toFinset := by
    ext k
    rw [Finmap.mem_keys, ← Finmap.lookup_isSome, ← Mapping.find?, find?_view]
    simp [find?, List.find?_isSome]
  rw [Mapping.size, hkeys, List.toFinset_card_of_nodup h, List.length_map, size]

end Table

theorem Change.Turns.view {c : Change} {t u : Table} (h : c.Turns t u) : u.view = t.view.apply c := by
  have hfits := h.fits
  refine Mapping.ext_find? (fun k => ?_) (h.nextGeneration.trans ?_)
  · rw [Table.find?_view, h.find?]
    cases c with
    | keep => simp [apply, Mapping.apply]
    | create l written value =>
      rw [Mapping.apply, Mapping.create, Mapping.find?_insert, Table.find?_view]
      by_cases hl : k = l
      · subst hl
        simp [apply, Table.find?_create_self hfits.1, Table.view]
      · simp [apply, hl, Table.find?_create_of_ne hl]
    | assign l value =>
      rw [Mapping.apply, Mapping.find?_assign, Table.find?_view, Table.find?_view]
      by_cases hl : k = l
      · subst hl
        simp [apply]
      · simp [apply, hl, Table.find?_assign_of_ne hl]
    | erase l =>
      rw [Mapping.apply, Mapping.find?_erase, Table.find?_view]
      by_cases hl : k = l
      · subst hl
        simp [apply]
      · simp [apply, hl, Table.find?_erase_of_ne hl]
  · cases c with
    | assign l value =>
      rw [Mapping.apply, Mapping.assign]
      split <;> rfl
    | _ => rfl

/-! ## One request -/

namespace Store

variable {s t u : Store} {h : HashId} {r : Request} {answer : Answer} {v : Value} {k : Key}

/-- A request is a write to the hash, or it changes nothing. -/
theorem write_of_ask (hr : s.ask h r = some (answer, t)) : t = s ∨ ∃ x : Write, x.target = .hash h ∧ x.apply s = some t := by
  cases r with
  | insert key value =>
    cases hr
    exact .inr ⟨.insert h key value, rfl, rfl⟩
  | remove key =>
    cases hr
    exact .inr ⟨.remove h key, rfl, rfl⟩
  | allocate index =>
    cases hr
    exact .inr ⟨.allocate h index, rfl, rfl⟩
  | deallocate index =>
    cases hr
    exact .inr ⟨.deallocate h index, rfl, rfl⟩
  | write k generation value =>
    obtain ⟨p, hp, heq⟩ := Option.map_eq_some_iff.1 hr
    cases heq
    exact .inr ⟨.setSlot ⟨h, k, generation⟩ value, rfl, by rw [Write.apply, hp]; rfl⟩
  | slot _ | read _ _ | get _ | contains _ | size =>
    cases hr
    exact .inl rfl

theorem view_modifyHash {c : Change} (hk : s.Knows (.hash h)) (hc : c.Fits (s.hash h)) :
    ((s.modifyHash h c.apply).hash h).view = (s.hash h).view.apply c := by
  rw [hash_modifyHash_self hk, (Change.Turns.of_fits hc).view]

theorem view_insertEntry (hk : s.Knows (.hash h)) (key value : Value) (b : Bool) :
    (s.hash h).view.ask h b (.insert key value) =
      (.inserted (s.insertEntry h key value).1, ((s.insertEntry h key value).2.hash h).view) := by
  rw [insertEntry_snd, view_modifyHash hk Table.fits_insertion]
  simp only [Mapping.ask, insertEntry, Table.insertValue, Table.insertion, Table.insert]
  cases key.key? with
  | none => rfl
  | some k => cases hf : (s.hash h).find? k <;> simp [Table.contains, hf, Mapping.apply]

theorem view_allocate (hk : s.Knows (.hash h)) (index : Value) (b : Bool) :
    (s.hash h).view.ask h b (.allocate index) =
      (.allocated (s.allocate h index).1, ((s.allocate h index).2.hash h).view) := by
  rw [allocate_snd, view_modifyHash hk Table.fits_allocation]
  simp only [Mapping.ask, allocate, Table.allocation]
  cases index.key? with
  | none => rfl
  | some k => cases hc : (s.hash h).contains k <;> simp [hc, Mapping.apply]

theorem view_removeEntry (hk : s.Knows (.hash h)) (key : Value) (b : Bool) :
    (s.hash h).view.ask h b (.remove key) =
      (.removed (s.removeEntry h key).1, ((s.removeEntry h key).2.hash h).view) := by
  rw [removeEntry_snd, view_modifyHash hk Table.fits_removal]
  simp only [Mapping.ask, removeEntry, removal]
  cases key.key? <;> simp [Mapping.apply]

theorem view_deallocate (hk : s.Knows (.hash h)) (index : Value) (b : Bool) :
    (s.hash h).view.ask h b (.deallocate index) =
      (.told (s.deallocate h index).1, ((s.deallocate h index).2.hash h).view) := by
  rw [deallocate_snd, view_modifyHash hk Table.fits_removal]
  simp only [Mapping.ask, deallocate, removal]
  cases index.key? <;> simp [Mapping.apply]

theorem view_setSlot (hk : s.Knows (.hash h)) {generation : UInt64} {r : Except SlotError Unit}
    (hset : s.setSlot ⟨h, k, generation⟩ v = some (r, t)) :
    (s.hash h).view.ask h (s.reaches v h == some true) (.write k generation v) = (.written r, (t.hash h).view) := by
  have hlive : ((s.hash h).find? k).any (·.generation == generation) = s.isLive ⟨h, k, generation⟩ := by
    rw [isLive, entry?, Option.isSome_filter]
  simp only [setSlot, Option.bind_eq_bind, Option.bind_eq_some_iff] at hset
  obtain ⟨b, hb, hset⟩ := hset
  rw [Mapping.ask, Table.find?_view, hlive, hb]
  cases b with
  | true =>
    cases hset
    rfl
  | false =>
    cases hl : s.isLive ⟨h, k, generation⟩ <;> rw [hl] at hset <;> cases hset
    · rfl
    · have hfits : (Change.assign k v).Fits (s.hash h) := by
        rw [← hlive] at hl
        cases hf : (s.hash h).find? k <;> simp [hf, Change.Fits, Table.contains] at hl ⊢
      exact congrArg (Prod.mk (Answer.written (.ok ()))) (view_modifyHash hk hfits).symm

/-- A request does to the map of the table what it does to the table, with the same answer. -/
theorem view_ask (hk : s.Knows (.hash h)) (hd : (s.hash h).Distinct) (hr : s.ask h r = some (answer, t)) :
    (s.hash h).view.ask h (s.loops h r) r = (answer, (t.hash h).view) := by
  cases r with
  | insert key value =>
    cases hr
    exact view_insertEntry hk key value _
  | remove key =>
    cases hr
    exact view_removeEntry hk key _
  | allocate index =>
    cases hr
    exact view_allocate hk index _
  | deallocate index =>
    cases hr
    exact view_deallocate hk index _
  | write k generation value =>
    obtain ⟨p, hp, heq⟩ := Option.map_eq_some_iff.1 hr
    cases heq
    exact view_setSlot hk hp
  | slot index =>
    cases hr
    cases hkey : index.key? with
    | none => simp [Mapping.ask, slot?, hkey]
    | some k => cases hf : (s.hash h).find? k <;> simp [Mapping.ask, slot?, hkey, hf]
  | read k generation =>
    cases hr
    simp [Mapping.ask, slotValue?, entry?]
  | get key =>
    cases hr
    cases hkey : key.key? <;> simp [Mapping.ask, valueUnder?, hkey, Table.get?]
  | contains key =>
    cases hr
    cases hkey : key.key? <;> simp [Mapping.ask, hasEntry, hkey]
  | size =>
    cases hr
    rw [Mapping.ask, Table.size_view hd]

end Store

/-! ## Runs -/

/-- A request with its answer, and whether the value to be written led back to the hash. -/
structure Exchange where
  request : Request
  loops : Bool
  answer : Answer

/-- The map after the requests of a log. -/
def Mapping.after (m : Mapping) (h : HashId) (log : List Exchange) : Mapping :=
  log.foldl (fun m x => (m.ask h x.loops x.request).2) m

namespace Store

/-- A run of requests to `h`, with anything in between that is not a write to `h`. -/
inductive Serves (h : HashId) : Store → List Exchange → Store → Prop
  | nil (s : Store) : Serves h s [] s
  | ask {s t u : Store} {r : Request} {answer : Answer} {log : List Exchange} :
    s.ask h r = some (answer, t) → Serves h t log u → Serves h s (⟨r, s.loops h r, answer⟩ :: log) u
  | elsewhere {s t u : Store} {a : Action} {log : List Exchange} :
    (∀ x, a = .write x → x.target ≠ .hash h) → a.apply s = some t → Serves h t log u → Serves h s log u

/-- What is asked of the table of a hash: it files entries under their own keys, one under each. -/
structure Files (s : Store) (h : HashId) : Prop where
  known : s.Knows (.hash h)
  keyed : (s.hash h).Keyed
  distinct : (s.hash h).Distinct

end Store

theorem Change.Turns.files {c : Change} {s t : Store} {h : HashId} (hturn : c.Turns (s.hash h) (t.hash h))
    (hs : s.Files h) (hk : t.Knows (.hash h)) : t.Files h := by
  have hfiled := hturn.filed ⟨hs.keyed, hs.distinct⟩
  exact ⟨hk, hfiled.keyed, hfiled.distinct⟩

namespace Store

variable {s t u : Store} {h : HashId} {r : Request} {a : Action} {answer : Answer} {log : List Exchange} {v w : Value}

theorem WellFormed.files (hs : s.WellFormed) (hk : s.Knows (.hash h)) : s.Files h := ⟨hk, hs.keyed h, hs.distinct h⟩

theorem Files.ask (hs : s.Files h) (hr : s.ask h r = some (answer, t)) : t.Files h := by
  rcases write_of_ask hr with rfl | ⟨x, hx, ht⟩
  · exact hs
  · have hturn := Write.turns hs.known ht
    exact hturn.files hs ((Write.knows_iff ht).2 hs.known)

theorem turns_elsewhere (hk : s.Knows (.hash h)) (ha : ∀ x, a = .write x → x.target ≠ .hash h)
    (ht : a.apply s = some t) : Change.keep.Turns (s.hash h) (t.hash h) := by
  have hturn := Action.turns hk ht
  cases a with
  | write x =>
    rw [Action.change, if_neg (ha x rfl)] at hturn
    exact hturn
  | _ => exact hturn

/-- What a run of requests has to do with the map of the table it started with. -/
structure Refines (h : HashId) (s : Store) (log : List Exchange) (t : Store) : Prop where
  answers : ∀ before x after, log = before ++ x :: after →
    x.answer = (((s.hash h).view.after h before).ask h x.loops x.request).1
  view : (t.hash h).view = (s.hash h).view.after h log
  /-- The key value an entry was created with projects to the key it is filed under. -/
  keyed : ∀ e ∈ (t.hash h).entries, e.written.key? = some e.key
  distinct : ((t.hash h).entries.map Entry.key).Nodup
  /-- What is no key changes nothing. -/
  unhashable : ∀ r v, r.key? = some v → v.key? = none → ∃ answer, t.ask h r = some (answer, t)
  /-- Every other request has its answer, but for a write whose value has a cycle below it. -/
  answered : ∀ r, (∀ k g v, r = .write k g v → t.Grounded v) → (t.ask h r).isSome
  /-- Two values meet in a key only if they are of one kind and of one magnitude. -/
  apart : ∀ v w : Value, v.key?.isSome → (v.key? = w.key? ↔ v = w)

theorem ask_unhashable (hr : r.key? = some v) (hv : v.key? = none) : ∃ answer, t.ask h r = some (answer, t) := by
  cases r <;> cases hr <;>
    simp [Store.ask, insertEntry, Table.insertValue, removeEntry, allocate, deallocate, hv]

theorem isSome_ask (hr : ∀ k g v, r = .write k g v → t.Grounded v) : (t.ask h r).isSome := by
  cases r with
  | write k g v =>
    obtain ⟨b, hb, -⟩ := reachesWithin_spec (h := h) (within_span (hr k g v rfl))
    change t.reaches v h = some b at hb
    cases b <;> simp [Store.ask, setSlot, hb]
    split <;> rfl
  | _ => rfl

/-- A hash answers every request of a run as the finite map of its entries does. -/
theorem hash_refines_map (hs : s.Files h) (hrun : Serves h s log t) : Refines h s log t := by
  have run : t.Files h ∧ (∀ before x after, log = before ++ x :: after →
      x.answer = (((s.hash h).view.after h before).ask h x.loops x.request).1) ∧
      (t.hash h).view = (s.hash h).view.after h log := by
    induction hrun with
    | nil s => exact ⟨hs, fun before x after hlog => by simp at hlog, rfl⟩
    | @ask s t u r answer log hr _ ih =>
      obtain ⟨hu, hanswers, hview⟩ := ih (hs.ask hr)
      have hstep := view_ask hs.known hs.distinct hr
      refine ⟨hu, fun before x after hlog => ?_, ?_⟩
      · cases before with
        | nil =>
          obtain ⟨rfl, -⟩ := List.cons.inj hlog
          simp [Mapping.after, hstep]
        | cons y before =>
          obtain ⟨rfl, htail⟩ := List.cons.inj hlog
          rw [hanswers before x after htail, Mapping.after, Mapping.after, List.foldl_cons, hstep]
      · rw [hview, Mapping.after, Mapping.after, List.foldl_cons, hstep]
    | elsewhere ha ht _ ih =>
      have hturn := turns_elsewhere hs.known ha ht
      obtain ⟨hu, hanswers, hview⟩ := ih (hturn.files hs (Action.knows ht hs.known))
      rw [hturn.view] at hanswers hview
      exact ⟨hu, hanswers, hview⟩
  obtain ⟨ht, hanswers, hview⟩ := run
  exact ⟨hanswers, hview, ht.keyed, ht.distinct, fun r v => ask_unhashable, fun r => isSome_ask, fun v w => Value.key?_eq_iff⟩

/-- An entry without a value reads like none, but it is there. -/
theorem hash_refines_map_unset :
    let s : Store := { hashes := #[{}] }
    ∃ log t, Serves ⟨0⟩ s log t ∧ Refines ⟨0⟩ s log t ∧
      log.map Exchange.request = [.allocate (.int 1), .get (.int 1), .contains (.int 1), .get (.char '1'), .contains (.char '1')] ∧
      log.map Exchange.answer =
        [.allocated (.ok ⟨⟨0⟩, .int 1, 0⟩), .value none, .told true, .value none, .told false] := by
  intro s
  have hrun : Serves ⟨0⟩ s _ _ := .ask (r := .allocate (.int 1)) rfl <| .ask (r := .get (.int 1)) rfl <|
    .ask (r := .contains (.int 1)) rfl <| .ask (r := .get (.char '1')) rfl <| .ask (r := .contains (.char '1')) rfl <| .nil _
  have hs : s.WellFormed := by decide +kernel
  exact ⟨_, _, hrun, hash_refines_map (hs.files (by decide)) hrun, rfl, rfl⟩

end Store

end CopyOnBind
