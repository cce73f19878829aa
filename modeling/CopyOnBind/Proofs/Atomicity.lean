import CopyOnBind.Proofs.Cycles
import CopyOnBind.Proofs.History
/-!
# Writes are all or nothing

A write is refused for the reasons that `Refused` lists, the first of them that
applies, and then the store is as it was. A write that is accepted changes one
spot of the store: an element of an array, or the entry under a key of a hash.
Whoever looks at that spot, directly or through a slot or a reference, sees the
change, and whoever looks elsewhere does not (`Alters`).

`writes_atomic` says so of every kind of write. The data may not be cyclic, since
a slot follows them to their ends before it accepts a value.
-/

namespace CopyOnBind

open Store

variable {s t : Store} {x : Write} {a : ArrayId} {h : HashId} {k l : Key} {v key index : Value} {slot : Slot}
  {c : Change} {e : Entry} {table : Table}

/-! ## Refusals -/

/-- Why a write is refused. -/
inductive Refusal where
  | fault (f : Fault)
  | alloc (e : AllocError)
  /-- There is no entry to remove. -/
  | absent
  | slot (e : SlotError)
  | reference (e : ReferenceError)

/-- A slot looks for a cycle first, and for its entry then. -/
inductive Store.Refuses (s : Store) (slot : Slot) (v : Value) : SlotError → Prop
  | cycle : s.Meets v slot.origin → Refuses s slot v .cycle
  | vacated : ¬ s.Meets v slot.origin → s.isLive slot = false → Refuses s slot v .vacated

namespace Write

inductive Refused (s : Store) : Write → Refusal → Prop
  /-- A fault names an index as far as it can. -/
  | setElement {a : ArrayId} {i : Nat} {v : Value} : (s.elements a).size ≤ i →
    Refused s (.setElement a i v) (.fault (.indexOutOfBounds (min i 9223372036854775807 : Nat) (s.elements a).size))
  | insert {h : HashId} {key v : Value} : key.key? = none → Refused s (.insert h key v) (.alloc (.unhashable key.kind))
  | remove {h : HashId} {key : Value} : (∀ k, key.key? = some k → (s.hash h).find? k = none) →
    Refused s (.remove h key) .absent
  | unhashable {h : HashId} {index : Value} : index.key? = none →
    Refused s (.allocate h index) (.alloc (.unhashable index.kind))
  | present {h : HashId} {index : Value} {k : Key} {e : Entry} : index.key? = some k → (s.hash h).find? k = some e →
    Refused s (.allocate h index) (.alloc .alreadyPresent)
  | deallocate {h : HashId} {index : Value} : (∀ k, index.key? = some k → (s.hash h).find? k = none) →
    Refused s (.deallocate h index) .absent
  | setSlot {slot : Slot} {v : Value} {e : SlotError} : s.Refuses slot v e → Refused s (.setSlot slot v) (.slot e)
  | constant {r : Reference} {v : Value} : r.constant = true → Refused s (.assign r v) (.reference .constant)
  | assign {r : Reference} {v : Value} {e : SlotError} : r.constant = false → s.Refuses r.slot v e →
    Refused s (.assign r v) (.reference (.slot e))

/-- An answer without the value that comes with it. -/
def verdict {ε α : Type} (f : ε → Refusal) (r : Except ε α) : Except Refusal Unit := (r.map fun _ => ()).mapError f

/-- Whether there was anything to remove. -/
def verdictOf (b : Bool) : Except Refusal Unit := if b then .ok () else .error .absent

/-- The answer to a write, and the store afterwards; none if the look for a cycle does not end. -/
def answer (s : Store) : Write → Option (Except Refusal Unit × Store)
  | push a value => some (.ok (), s.push a value)
  | setElement a index value => some (Prod.map (verdict .fault) id (s.setElement a index value))
  | insert h key value => some (Prod.map (verdict .alloc) id (s.insertEntry h key value))
  | remove h key => some (Prod.map (verdictOf ·.isSome) id (s.removeEntry h key))
  | allocate h index => some (Prod.map (verdict .alloc) id (s.allocate h index))
  | deallocate h index => some (Prod.map verdictOf id (s.deallocate h index))
  | setSlot slot value => (s.setSlot slot value).map (Prod.map (verdict .slot) id)
  | assign r value => (s.assignReference r value).map (Prod.map (verdict .reference) id)

end Write

theorem Store.Refuses.unique {e e' : SlotError} (he : s.Refuses slot v e) (he' : s.Refuses slot v e') : e = e' := by
  cases he with
  | cycle hm =>
    cases he' with
    | cycle => rfl
    | vacated hm' => exact absurd hm hm'
  | vacated hm =>
    cases he' with
    | cycle hm' => exact absurd hm' hm
    | vacated => rfl

/-- A write has one reason to be refused at most. -/
theorem Write.Refused.unique {r r' : Refusal} (hr : x.Refused s r) (hr' : x.Refused s r') : r = r' := by
  cases hr with
  | setElement | insert | remove | deallocate => cases hr'; rfl
  | unhashable hkey =>
    cases hr' with
    | unhashable => rfl
    | present hkey' => cases hkey.symm.trans hkey'
  | present hkey =>
    cases hr' with
    | unhashable hkey' => cases hkey.symm.trans hkey'
    | present => rfl
  | setSlot he =>
    cases hr' with
    | setSlot he' => rw [he.unique he']
  | constant hc =>
    cases hr' with
    | constant => rfl
    | assign hc' => cases hc.symm.trans hc'
  | assign hc he =>
    cases hr' with
    | constant hc' => cases hc.symm.trans hc'
    | assign _ he' => rw [he.unique he']

/-! ## Looking at a store -/

/-- What a write can change. -/
inductive Spot where
  | element (a : ArrayId) (index : Nat)
  | entry (h : HashId) (k : Key)
deriving DecidableEq

/-- What is found there. -/
inductive Seen where
  | element (v : Option Value)
  | entry (e : Option Entry)

/-- The ways to look at a store. -/
inductive Sight where
  | at (p : Spot)
  | slot (slot : Slot)
  | reference (r : Reference)

namespace Store

def seen (s : Store) : Spot → Seen
  | .element a i => .element (s.elements a)[i]?
  | .entry h k => .entry ((s.hash h).find? k)

def look (s : Store) : Sight → Seen
  | .at p => s.seen p
  | .slot slot => .entry (s.entry? slot)
  | .reference r => .entry (s.entry? r.slot)

/-- Who looks this way looks at the spot. A slot or a reference does while its entry is there. -/
def Resolves (s : Store) (p : Spot) : Sight → Prop
  | .at q => q = p
  | .slot slot => p = .entry slot.origin slot.key ∧ s.isLive slot = true
  | .reference r => p = .entry r.slot.origin r.slot.key ∧ s.isLive r.slot = true

/-- The stores differ at one spot, and in the counter of its hash if an entry was created there. -/
structure Alters (s t : Store) (p : Spot) (new : Seen) : Prop where
  observed : ∀ o, s.Resolves p o ∨ t.Resolves p o → t.look o = new
  unobserved : ∀ o, ¬ s.Resolves p o → ¬ t.Resolves p o → t.look o = s.look o
  created : ∀ h k, p = .entry h k → (s.hash h).find? k = none →
    (t.hash h).nextGeneration = (s.hash h).nextGeneration + 1
  uncreated : ∀ h, (∀ k, p = .entry h k → (s.hash h).find? k ≠ none) →
    (t.hash h).nextGeneration = (s.hash h).nextGeneration
  marked : ∀ v, t.isMarked v = s.isMarked v
  knows : ∀ v, t.Knows v ↔ s.Knows v
  scopes : t.scopes = s.scopes

end Store

/-- What an accepted write leaves at the spot that it names. A value is written
into the entry that is there, which keeps its generation. -/
inductive Write.Leaves (s : Store) : Write → Spot → Seen → Prop
  | push (a : ArrayId) (v : Value) : Leaves s (.push a v) (.element a (s.elements a).size) (.element v)
  | setElement {a : ArrayId} {i : Nat} (v : Value) : i < (s.elements a).size →
    Leaves s (.setElement a i v) (.element a i) (.element v)
  | overwrite {h : HashId} {key : Value} {k : Key} {e : Entry} (v : Value) : key.key? = some k →
    (s.hash h).find? k = some e → Leaves s (.insert h key v) (.entry h k) (.entry (some { e with value := v }))
  | insert {h : HashId} {key : Value} {k : Key} (v : Value) : key.key? = some k → (s.hash h).find? k = none →
    Leaves s (.insert h key v) (.entry h k) (.entry (some ⟨k, key, v, (s.hash h).nextGeneration⟩))
  | remove {h : HashId} {key : Value} {k : Key} {e : Entry} : key.key? = some k → (s.hash h).find? k = some e →
    Leaves s (.remove h key) (.entry h k) (.entry none)
  | allocate {h : HashId} {index : Value} {k : Key} : index.key? = some k → (s.hash h).find? k = none →
    Leaves s (.allocate h index) (.entry h k) (.entry (some ⟨k, index, none, (s.hash h).nextGeneration⟩))
  | deallocate {h : HashId} {index : Value} {k : Key} {e : Entry} : index.key? = some k →
    (s.hash h).find? k = some e → Leaves s (.deallocate h index) (.entry h k) (.entry none)
  | setSlot {slot : Slot} {e : Entry} (v : Value) : s.entry? slot = some e →
    Leaves s (.setSlot slot v) (.entry slot.origin slot.key) (.entry (some { e with value := v }))
  | assign {r : Reference} {v : Value} {p : Spot} {new : Seen} : Leaves s (.setSlot r.slot v) p new →
    Leaves s (.assign r v) p new

/-! ## One spot changes -/

/-- The key that a change is about. -/
def Change.key? : Change → Option Key
  | keep => none
  | create k _ _ | assign k _ | erase k => some k

theorem Change.find?_apply_of_ne (hl : c.key? ≠ some l) : (c.apply table).find? l = table.find? l := by
  cases c with
  | keep => rfl
  | create k _ _ => exact Table.find?_create_of_ne fun h => hl (h ▸ rfl)
  | assign k _ => exact Table.find?_assign_of_ne fun h => hl (h ▸ rfl)
  | erase k => exact Table.find?_erase_of_ne fun h => hl (h ▸ rfl)

/-- Of an entry that is there, a change leaves the generation, or nothing. -/
theorem Change.generation_of_find? (hfits : c.Fits table) (he : table.find? k = some e) {e' : Entry}
    (he' : (c.apply table).find? k = some e') : e'.generation = e.generation := by
  by_cases hk : c.key? = some k
  · cases c with
    | keep => cases hk
    | create l _ _ =>
      cases hk
      cases hfits.1.symm.trans he
    | assign l _ =>
      cases hk
      rw [apply, Table.find?_assign_self, he, Option.map_some, Option.some.injEq] at he'
      rw [← he']
    | erase l =>
      cases hk
      rw [apply, Table.find?_erase_self] at he'
      cases he'
  · rw [Change.find?_apply_of_ne hk, he, Option.some.injEq] at he'
    rw [he']

namespace Store

theorem alters_modifyArray {f : Array Value → Array Value} {i : Nat} (hk : s.Knows (.array a))
    (hother : ∀ j, j ≠ i → (f (s.elements a))[j]? = (s.elements a)[j]?) :
    s.Alters (s.modifyArray a fun cell => { cell with elements := f cell.elements }) (.element a i)
      (.element (f (s.elements a))[i]?) := by
  have hself : (s.modifyArray a fun cell => { cell with elements := f cell.elements }).elements a = f (s.elements a) := by
    rw [elements, array_modifyArray_self hk, elements]
  refine ⟨fun o ho => ?_, fun o ho _ => ?_, fun h k hp => ?_, fun _ _ => rfl, fun v => ?_,
    fun v => knows_modifyArray, rfl⟩
  · cases o with
    | «at» q =>
      obtain rfl : q = .element a i := ho.elim id id
      rw [look, seen, hself]
    | slot slot => rcases ho with ho | ho <;> cases ho.1
    | reference r => rcases ho with ho | ho <;> cases ho.1
  · cases o with
    | «at» q =>
      cases q with
      | element b j =>
        by_cases hb : b = a
        · subst hb
          rw [look, look, seen, seen, hself, hother j fun hj => ho (congrArg (Spot.element b) hj)]
        · simp only [look, seen, elements, array_modifyArray_of_ne hb]
      | entry i l => rfl
    | slot slot => rfl
    | reference r => rfl
  · cases hp
  · cases v with
    | array b =>
      rcases array_modifyArray_cases (s := s) (a := a) (b := b)
        (f := fun cell => { cell with elements := f cell.elements }) with hb | ⟨-, hb⟩ <;> simp only [isMarked, hb]
    | _ => rfl

/-- A slot sees what is at its spot, if its entry was there before the change or is there after it. -/
theorem entry?_modifyHash (hk : s.Knows (.hash slot.origin)) (hfits : c.Fits (s.hash slot.origin))
    (hlive : s.isLive slot = true ∨ (s.modifyHash slot.origin c.apply).isLive slot = true) :
    Store.entry? (s.modifyHash slot.origin c.apply) slot = (c.apply (s.hash slot.origin)).find? slot.key := by
  unfold entry?
  rw [hash_modifyHash_self hk]
  cases hnew : (c.apply (s.hash slot.origin)).find? slot.key with
  | none => rw [Option.filter_none]
  | some e' =>
    have hgen : e'.generation = slot.generation := by
      rcases hlive with hlive | hlive <;> rw [isLive, entry?, Option.isSome_filter, Option.any_eq_true] at hlive
      · obtain ⟨e, he, hg⟩ := hlive
        exact (Change.generation_of_find? hfits he hnew).trans (by simpa using hg)
      · obtain ⟨e, he, hg⟩ := hlive
        rw [hash_modifyHash_self hk, hnew] at he
        cases he
        simpa using hg
    rw [Option.filter_some, if_pos (by simp [hgen])]

theorem entry?_eq_none (hl : ¬ s.isLive slot = true) : s.entry? slot = none := by
  simpa [isLive] using hl

/-- Away from the spot nothing is different. -/
theorem find?_modifyHash_of_ne {i : HashId} (hk : s.Knows (.hash h)) (hkey : c.key? = some k)
    (hspot : Spot.entry i l ≠ .entry h k) : ((s.modifyHash h c.apply).hash i).find? l = (s.hash i).find? l := by
  by_cases hi : i = h
  · subst hi
    have hl : c.key? ≠ some l := fun hl => hspot (by rw [Option.some.inj (hkey.symm.trans hl)])
    rw [hash_modifyHash_self hk, Change.find?_apply_of_ne hl]
  · rw [hash_modifyHash_of_ne hi]

theorem alters_modifyHash (hk : s.Knows (.hash h)) (hfits : c.Fits (s.hash h)) (hkey : c.key? = some k)
    (hcreate : c.isCreate = ((s.hash h).find? k).isNone) :
    s.Alters (s.modifyHash h c.apply) (.entry h k) (.entry ((c.apply (s.hash h)).find? k)) := by
  -- what a slot sees that looks at the spot, before or after the change, and what any other slot sees
  have observed : ∀ slot : Slot, (Spot.entry h k = .entry slot.origin slot.key ∧ s.isLive slot = true) ∨
      (Spot.entry h k = .entry slot.origin slot.key ∧ (s.modifyHash h c.apply).isLive slot = true) →
      Store.entry? (s.modifyHash h c.apply) slot = (c.apply (s.hash h)).find? k := by
    intro slot ho
    obtain ⟨hspot, hlive⟩ := and_or_left.2 ho
    obtain ⟨rfl, rfl⟩ := Spot.entry.inj hspot
    exact entry?_modifyHash hk hfits hlive
  have unobserved : ∀ slot : Slot, ¬ (Spot.entry h k = .entry slot.origin slot.key ∧ s.isLive slot = true) →
      ¬ (Spot.entry h k = .entry slot.origin slot.key ∧ (s.modifyHash h c.apply).isLive slot = true) →
      Store.entry? (s.modifyHash h c.apply) slot = s.entry? slot := by
    intro slot hs ht
    by_cases hspot : Spot.entry h k = .entry slot.origin slot.key
    · rw [entry?_eq_none fun hl => hs ⟨hspot, hl⟩, entry?_eq_none fun hl => ht ⟨hspot, hl⟩]
    · unfold entry?
      rw [find?_modifyHash_of_ne hk hkey (Ne.symm hspot)]
  refine ⟨fun o ho => ?_, fun o ho ho' => ?_, fun i l hp hnone => ?_, fun i hi => ?_, fun v => ?_,
    fun v => knows_modifyHash, rfl⟩
  · cases o with
    | «at» q =>
      obtain rfl : q = .entry h k := ho.elim id id
      rw [look, seen, hash_modifyHash_self hk]
    | slot slot => exact congrArg Seen.entry (observed slot ho)
    | reference r => exact congrArg Seen.entry (observed r.slot ho)
  · cases o with
    | «at» q =>
      cases q with
      | element b j => rfl
      | entry i l => rw [look, look, seen, seen, find?_modifyHash_of_ne hk hkey ho]
    | slot slot => exact congrArg Seen.entry (unobserved slot ho ho')
    | reference r => exact congrArg Seen.entry (unobserved r.slot ho ho')
  · obtain ⟨rfl, rfl⟩ := Spot.entry.inj hp
    rw [hnone] at hcreate
    rw [hash_modifyHash_self hk]
    cases c with
    | create => rfl
    | _ => cases hcreate
  · by_cases hh : i = h
    · subst hh
      rw [hash_modifyHash_self hk]
      cases c with
      | create => exact absurd (Option.isNone_iff_eq_none.1 hcreate.symm) (hi k rfl)
      | _ => rfl
    · rw [hash_modifyHash_of_ne hh]
  · cases v with
    | hash i =>
      rcases hash_modifyHash_cases (s := s) (h := h) (i := i) (f := c.apply) with hi | ⟨-, hi⟩ <;>
        simp only [isMarked, hi, Change.marked_apply]
    | _ => rfl

/-! ## One kind of write after the other -/

/-- A write is refused for its reason and changes nothing, or there is no reason and it changes its spot. -/
def Settles (s : Store) (x : Write) : Prop :=
  (∃ r, x.Refused s r ∧ x.answer s = some (.error r, s)) ∨
    (∀ r, ¬ x.Refused s r) ∧ ∃ t p new, x.answer s = some (.ok (), t) ∧ x.Leaves s p new ∧ s.Alters t p new

theorem settles_push (hk : s.Knows (.array a)) : s.Settles (.push a v) := by
  refine .inr ⟨fun r hr => (by cases hr), _, _, _, rfl, .push a v, ?_⟩
  have halters := alters_modifyArray (f := (·.push v)) (i := (s.elements a).size) hk
    fun j hj => by rw [Array.getElem?_push, if_neg hj]
  rwa [Array.getElem?_push_size] at halters

theorem settles_setElement {i : Nat} (hk : s.Knows (.array a)) : s.Settles (.setElement a i v) := by
  by_cases hi : (s.elements a).size ≤ i
  · refine .inl ⟨_, .setElement hi, ?_⟩
    simp only [Write.answer, setElement, Array.getElem?_eq_none hi]
    rfl
  · have hlt := Nat.lt_of_not_le hi
    have halters := alters_modifyArray (f := (·.setIfInBounds i v)) (i := i) hk
      fun j hj => Array.getElem?_setIfInBounds_ne (Ne.symm hj)
    rw [Array.getElem?_setIfInBounds_self_of_lt hlt] at halters
    refine .inr ⟨fun r hr => ?_, _, _, _, ?_, .setElement v hlt, halters⟩
    · cases hr with
      | setElement hle => exact hi hle
    · simp only [Write.answer, setElement, Array.getElem?_eq_getElem hlt]
      rfl

theorem settles_insert (hk : s.Knows (.hash h)) : s.Settles (.insert h key v) := by
  have hsnd : (s.insertEntry h key v).2 = _ := insertEntry_snd key v
  cases hkey : key.key? with
  | none =>
    refine .inl ⟨_, .insert hkey, ?_⟩
    simp only [Write.answer, insertEntry, Table.insertValue, hkey]
    rfl
  | some k =>
    have hanswer : (Write.insert h key v).answer s = some (.ok (), (s.insertEntry h key v).2) := by
      simp only [Write.answer, insertEntry, Table.insertValue, hkey]
      rfl
    have hfits : ((s.hash h).insertion key v).Fits (s.hash h) := Table.fits_insertion
    refine .inr ⟨fun r hr => ?_, ?_⟩
    · cases hr with
      | insert hnone => cases hkey.symm.trans hnone
    · rw [hanswer, hsnd]
      simp only [Table.insertion, hkey] at hfits ⊢
      cases he : (s.hash h).find? k with
      | none =>
        simp only [Table.contains, he, Option.isSome_none, Bool.false_eq_true, if_false] at hfits ⊢
        have halters := alters_modifyHash hk hfits rfl (by rw [he]; rfl)
        rw [Change.apply, Table.find?_create_self he] at halters
        exact ⟨_, _, _, rfl, .insert v hkey he, halters⟩
      | some e =>
        simp only [Table.contains, he, Option.isSome_some, if_true] at hfits ⊢
        have halters := alters_modifyHash hk hfits rfl (by rw [he]; rfl)
        rw [Change.apply, Table.find?_assign_self, he] at halters
        exact ⟨_, _, _, rfl, .overwrite v hkey he, halters⟩

theorem settles_allocate (hk : s.Knows (.hash h)) : s.Settles (.allocate h index) := by
  cases hkey : index.key? with
  | none =>
    refine .inl ⟨_, .unhashable hkey, ?_⟩
    simp only [Write.answer, allocate, hkey]
    rfl
  | some k =>
    cases he : (s.hash h).find? k with
    | some e =>
      refine .inl ⟨_, .present hkey he, ?_⟩
      simp only [Write.answer, allocate, hkey, Table.contains, he]
      rfl
    | none =>
      have halters := alters_modifyHash (c := .create k index none) hk ⟨he, hkey⟩ rfl (by rw [he]; rfl)
      rw [Change.apply, Table.find?_create_self he] at halters
      refine .inr ⟨fun r hr => ?_, _, _, _, ?_, .allocate hkey he, halters⟩
      · cases hr with
        | unhashable hnone => cases hkey.symm.trans hnone
        | present hkey' he' =>
          cases hkey.symm.trans hkey'
          cases he.symm.trans he'
      · simp only [Write.answer, allocate, hkey, Table.contains, he]
        rfl

/-- Removing an entry that is not there. -/
theorem modifyHash_erase_of_none (he : (s.hash h).find? k = none) : s.modifyHash h (·.erase k) = s := by
  refine modifyHash_of_eq ?_
  have hall : (s.hash h).entries.filter (·.key != k) = (s.hash h).entries :=
    List.filter_eq_self.2 fun e hmem => by simpa using List.find?_eq_none.1 he e hmem
  rw [Table.erase, hall]

/-- A write that removes an entry, whatever it hands to its caller. -/
theorem settles_removal (key : Value) (hk : s.Knows (.hash h))
    (hanswer : x.answer s = some (Write.verdictOf (s.hasEntry h key), s.modifyHash h (removal key).apply))
    (hrefused : ∀ r, x.Refused s r ↔ r = .absent ∧ ∀ k, key.key? = some k → (s.hash h).find? k = none)
    (hleaves : ∀ k e, key.key? = some k → (s.hash h).find? k = some e → x.Leaves s (.entry h k) (.entry none)) :
    s.Settles x := by
  cases hkey : key.key? with
  | none =>
    simp only [hasEntry, removal, hkey] at hanswer
    rw [modifyHash_of_eq (f := Change.keep.apply) rfl] at hanswer
    exact .inl ⟨_, (hrefused _).2 ⟨rfl, fun k hk => (by cases hkey.symm.trans hk)⟩, hanswer⟩
  | some k =>
    cases he : (s.hash h).find? k with
    | none =>
      simp only [hasEntry, removal, hkey, Option.any_some, Table.contains, he] at hanswer
      rw [show s.modifyHash h (Change.erase k).apply = s from modifyHash_erase_of_none he] at hanswer
      refine .inl ⟨_, (hrefused _).2 ⟨rfl, fun l hl => ?_⟩, hanswer⟩
      rwa [← Option.some.inj (hkey.symm.trans hl)]
    | some e =>
      simp only [hasEntry, removal, hkey, Option.any_some, Table.contains, he] at hanswer
      have halters := alters_modifyHash (c := .erase k) hk trivial rfl (by rw [he]; rfl)
      rw [Change.apply, Table.find?_erase_self] at halters
      refine .inr ⟨fun r hr => ?_, _, _, _, hanswer, hleaves k e hkey he, halters⟩
      cases (((hrefused r).1 hr).2 k hkey).symm.trans he

theorem settles_remove (hk : s.Knows (.hash h)) : s.Settles (.remove h key) := by
  refine settles_removal key hk ?_ (fun r => ⟨fun hr => ?_, ?_⟩) fun k e hkey he => .remove hkey he
  · simp only [Write.answer, removeEntry, removal, hasEntry]
    cases key.key? with
    | none => rw [modifyHash_of_eq (f := Change.keep.apply) rfl]; rfl
    | some k => rfl
  · cases hr with
    | remove hnone => exact ⟨rfl, hnone⟩
  · rintro ⟨rfl, hnone⟩
    exact .remove hnone

theorem settles_deallocate (hk : s.Knows (.hash h)) : s.Settles (.deallocate h index) := by
  refine settles_removal index hk ?_ (fun r => ⟨fun hr => ?_, ?_⟩) fun k e hkey he => .deallocate hkey he
  · simp only [Write.answer, deallocate, removal, hasEntry]
    cases index.key? with
    | none => rw [modifyHash_of_eq (f := Change.keep.apply) rfl]; rfl
    | some k => rfl
  · cases hr with
    | deallocate hnone => exact ⟨rfl, hnone⟩
  · rintro ⟨rfl, hnone⟩
    exact .deallocate hnone

/-- A slot refuses the value for its reason, or there is no reason and its entry gets the value. -/
theorem setSlot_spec (ha : s.Acyclic) :
    (∃ e, s.Refuses slot v e ∧ s.setSlot slot v = some (.error e, s)) ∨
      (∀ e, ¬ s.Refuses slot v e) ∧ ∃ e, s.entry? slot = some e ∧
        s.setSlot slot v = some (.ok (), s.modifyHash slot.origin (·.assign slot.key v)) := by
  obtain ⟨b, hb, hm⟩ := reaches_spec (v := v) (h := slot.origin) ha
  cases b with
  | true => exact .inl ⟨_, .cycle (hm.1 rfl), by simp only [setSlot, hb]; rfl⟩
  | false =>
    have hmeets : ¬ s.Meets v slot.origin := fun h => Bool.false_ne_true (hm.2 h)
    cases hl : s.isLive slot with
    | false => exact .inl ⟨_, .vacated hmeets hl, by simp only [setSlot, hb, hl]; rfl⟩
    | true =>
      obtain ⟨e, he⟩ := Option.isSome_iff_exists.1 hl
      refine .inr ⟨fun e hr => ?_, e, he, by simp only [setSlot, hb, hl]; rfl⟩
      cases hr with
      | cycle hc => exact hmeets hc
      | vacated _ hv => cases hl.symm.trans hv

theorem alters_assign (hk : s.Knows (.hash slot.origin)) (he : s.entry? slot = some e) :
    s.Alters (s.modifyHash slot.origin (·.assign slot.key v)) (.entry slot.origin slot.key)
      (.entry (some { e with value := v })) := by
  have hfind := (Option.filter_eq_some_iff.1 he).1
  have halters := alters_modifyHash (c := .assign slot.key v) hk (Option.isSome_iff_exists.2 ⟨e, hfind⟩) rfl
    (by rw [hfind]; rfl)
  rwa [Change.apply, Table.find?_assign_self, hfind] at halters

theorem settles_setSlot (ha : s.Acyclic) (hk : s.Knows (.hash slot.origin)) : s.Settles (.setSlot slot v) := by
  rcases setSlot_spec (v := v) ha with ⟨e, hr, hset⟩ | ⟨hno, e, he, hset⟩
  · exact .inl ⟨_, .setSlot hr, by rw [Write.answer, hset]; rfl⟩
  · refine .inr ⟨fun r hr => ?_, _, _, _, by rw [Write.answer, hset]; rfl, .setSlot v he, alters_assign hk he⟩
    cases hr with
    | setSlot hr => exact hno _ hr

theorem settles_assign {r : Reference} (ha : s.Acyclic) (hk : s.Knows (.hash r.slot.origin)) :
    s.Settles (.assign r v) := by
  cases hc : r.constant with
  | true => exact .inl ⟨_, .constant hc, by simp only [Write.answer, assignReference, hc]; rfl⟩
  | false =>
    rcases setSlot_spec (v := v) ha with ⟨e, hr, hset⟩ | ⟨hno, e, he, hset⟩
    · exact .inl ⟨_, .assign hc hr, by simp only [Write.answer, assignReference, hc, hset]; rfl⟩
    · refine .inr ⟨fun x hr => ?_, _, _, _, by simp only [Write.answer, assignReference, hc, hset]; rfl,
        .assign (.setSlot v he), alters_assign hk he⟩
      cases hr with
      | constant hc' => cases hc.symm.trans hc'
      | assign _ hr => exact hno _ hr

theorem settles (ha : s.Acyclic) (hk : s.Knows x.target) : s.Settles x := by
  cases x with
  | push a v => exact settles_push hk
  | setElement a i v => exact settles_setElement hk
  | insert h key v => exact settles_insert hk
  | remove h key => exact settles_remove hk
  | allocate h index => exact settles_allocate hk
  | deallocate h index => exact settles_deallocate hk
  | setSlot slot v => exact settles_setSlot ha hk
  | assign r v => exact settles_assign ha hk

/-! ## Every kind of write -/

/-- A write is refused exactly for the reasons there are, and then leaves the
store as it was; otherwise it is accepted and changes its spot. -/
structure Atomic (s : Store) (x : Write) : Prop where
  refused : ∀ r t, x.answer s = some (.error r, t) ↔ x.Refused s r ∧ t = s
  accepted : (∀ r, ¬ x.Refused s r) →
    ∃ t p new, x.answer s = some (.ok (), t) ∧ x.Leaves s p new ∧ s.Alters t p new

theorem writes_atomic (ha : s.Acyclic) (hk : s.Knows x.target) : s.Atomic x := by
  rcases settles ha hk with ⟨r, hr, hanswer⟩ | ⟨hno, t, p, new, hanswer, hleaves, halters⟩
  · refine ⟨fun r' t => ?_, fun hno => absurd hr (hno r)⟩
    rw [hanswer, Option.some.injEq, Prod.mk.injEq, Except.error.injEq]
    constructor
    · rintro ⟨rfl, rfl⟩
      exact ⟨hr, rfl⟩
    · rintro ⟨hr', rfl⟩
      exact ⟨hr.unique hr', rfl⟩
  · refine ⟨fun r' t' => ?_, fun _ => ⟨t, p, new, hanswer, hleaves, halters⟩⟩
    rw [hanswer]
    refine ⟨fun h => (by cases h), ?_⟩
    rintro ⟨hr, -⟩
    exact absurd hr (hno r')

/-- The hash 0 holds the array 0 under the integer 0. A constant reference to the
entry refuses the hash itself, another one sees that it would be put in itself,
and the entry takes a scalar, which the first reference sees. -/
theorem writes_atomic_references :
    let s : Store := {
      arrays := #[{ elements := #[.int 5] }]
      hashes := #[{ entries := [⟨.int 0, .int 0, some (.array ⟨0⟩), 0⟩], nextGeneration := 1 }] }
    let r : Reference := ⟨⟨⟨0⟩, .int 0, 0⟩, .int 0, true⟩
    (Write.assign r (.hash ⟨0⟩)).answer s = some (.error (.reference .constant), s) ∧
      (Write.assign { r with constant := false } (.hash ⟨0⟩)).answer s = some (.error (.reference (.slot .cycle)), s) ∧
      ∃ t, (Write.setSlot r.slot (.int 7)).answer s = some (.ok (), t) ∧
        t.look (.reference r) = .entry (some ⟨.int 0, .int 0, some (.int 7), 0⟩) := by
  intro s r
  have ha : s.Acyclic := by decide +kernel
  have hk : s.Knows (.hash ⟨0⟩) := by decide +kernel
  have hmeets : s.Meets (.hash ⟨0⟩) ⟨0⟩ := ⟨_, _, rfl, .refl, rfl⟩
  refine ⟨((writes_atomic (x := .assign r (.hash ⟨0⟩)) ha hk).refused _ _).2 ⟨.constant rfl, rfl⟩,
    ((writes_atomic (x := .assign { r with constant := false } (.hash ⟨0⟩)) ha hk).refused _ _).2
      ⟨.assign rfl (.cycle hmeets), rfl⟩, ?_⟩
  obtain ⟨t, p, new, hanswer, hleaves, halters⟩ :=
    (writes_atomic (x := .setSlot r.slot (.int 7)) ha hk).accepted fun x hx => by
      cases hx with
      | setSlot hx =>
        cases hx with
        | cycle hm => exact not_meets_of_node?_none rfl hm
        | vacated _ hl => revert hl; decide +kernel
  cases hleaves with
  | setSlot _ he =>
    refine ⟨t, hanswer, (halters.observed (.reference r) (.inl ⟨rfl, by decide +kernel⟩)).trans ?_⟩
    rw [← Option.some.inj he]

end Store

end CopyOnBind
