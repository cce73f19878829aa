import CopyOnBind.Proofs.Isolation
/-!
# Histories of hashes

A run is a list of actions on a store: writes, copies and new containers. To the
table of one hash an action does one of four things (`Change`), and the list of
them is the history of the hash over the run. `leads_history`: the table at the
end is the table at the start after the changes of its history.

What a history says is read off without the store: which value was stored last
under a key (`latest`), how many entries were created, and whether an entry that
was there still is (`Leads.holds_iff`).
-/

namespace CopyOnBind

open Store

/-! ## Runs -/

inductive Action where
  | write (x : Write)
  | copy (v : Value)
  | newArray (elements : Array Value)
  | newHash (pairs : List (Value × Value))

/-- The store after an action, unless a walk over it does not end. -/
def Action.apply (s : Store) : Action → Option Store
  | write x => x.apply s
  | copy v => (s.copy v).map Prod.snd
  | newArray elements => (s.newArray elements).2
  | newHash pairs => (s.newHashOf pairs).2

/-- The store after a run. -/
def Store.after : Store → List Action → Option Store
  | s, [] => some s
  | s, a :: as => (a.apply s).bind fun t => t.after as

/-! ## Changes of a table -/

inductive Change where
  | keep
  | create (k : Key) (written : Value) (value : Option Value)
  | assign (k : Key) (value : Value)
  | erase (k : Key)
deriving DecidableEq

namespace Change

def apply (t : Table) : Change → Table
  | keep => t
  | create k written value => t.create k written value
  | assign k value => t.assign k value
  | erase k => t.erase k

/-- Entries are created where there are none, under their own keys, and assigned where they are. -/
def Fits (t : Table) : Change → Prop
  | create k written _ => t.find? k = none ∧ written.key? = some k
  | assign k _ => t.contains k = true
  | keep | erase _ => True

/-- The value under `k` after a change, given the one before it. -/
def store (k : Key) (stored : Option Value) : Change → Option Value
  | keep => stored
  | create l _ value => if l = k then value else stored
  | assign l value => if l = k then some value else stored
  | erase l => if l = k then none else stored

/-- The value that is stored. -/
def value? : Change → Option Value
  | create _ _ value => value
  | assign _ value => some value
  | keep | erase _ => none

def isCreate : Change → Bool
  | create .. => true
  | _ => false

/-- The table `u` is `t` after the change, up to its mark. -/
structure Turns (c : Change) (t u : Table) : Prop where
  fits : c.Fits t
  entries : u.entries = (c.apply t).entries
  nextGeneration : u.nextGeneration = (c.apply t).nextGeneration

end Change

/-- The number of entries created. -/
def created (cs : List Change) : Nat := cs.countP Change.isCreate

/-- The value stored last under `k`, in the entry that is there now. -/
def latest (k : Key) (stored : Option Value) (cs : List Change) : Option Value := cs.foldl (Change.store k) stored

/-! ## Tables with numbered entries -/

namespace Table

/-- The generations of all entries are in the past, as they are while the counter has not come round. -/
def Numbered (t : Table) : Prop := ∀ e ∈ t.entries, e.generation < t.nextGeneration

instance (t : Table) : Decidable t.Numbered := inferInstanceAs (Decidable (∀ e ∈ t.entries, _))

/-- The entry under `k` is there and has this generation. -/
def Holds (t : Table) (k : Key) (g : UInt64) : Prop := ∃ e, t.find? k = some e ∧ e.generation = g

theorem Numbered.of_holds {t : Table} {k : Key} {g : UInt64} (h : t.Numbered) (hg : t.Holds k g) :
    g < t.nextGeneration := by
  obtain ⟨e, he, rfl⟩ := hg
  exact h e (List.mem_of_find?_eq_some he)

theorem find?_congr {t u : Table} {k : Key} (h : u.entries = t.entries) : u.find? k = t.find? k := by
  unfold find?
  rw [h]

end Table

namespace Change.Turns

variable {c : Change} {t u : Table} {k : Key} {g : UInt64}

theorem find? (h : c.Turns t u) : u.find? k = (c.apply t).find? k := Table.find?_congr h.entries

theorem get? (h : c.Turns t u) : u.get? k = c.store k (t.get? k) := by
  have hfits := h.fits
  unfold Table.get?
  rw [h.find?]
  cases c with
  | keep => rfl
  | create l written value =>
    by_cases hl : l = k
    · subst hl
      simp [apply, store, Table.find?_create_self hfits.1]
    · simp [apply, store, hl, Table.find?_create_of_ne (Ne.symm hl)]
  | assign l value =>
    by_cases hl : l = k
    · subst hl
      obtain ⟨e, he⟩ := Option.isSome_iff_exists.1 hfits
      simp [apply, store, he]
    · simp [apply, store, hl, Table.find?_assign_of_ne (Ne.symm hl)]
  | erase l =>
    by_cases hl : l = k
    · subst hl
      simp [apply, store]
    · simp [apply, store, hl, Table.find?_erase_of_ne (Ne.symm hl)]

/-- An entry with a generation of the past stays unless it is erased, and none comes back. -/
theorem holds_iff (h : c.Turns t u) (hg : g < t.nextGeneration) : u.Holds k g ↔ t.Holds k g ∧ c ≠ .erase k := by
  have hfits := h.fits
  unfold Table.Holds
  rw [h.find?]
  cases c with
  | keep => simp [apply]
  | create l written value =>
    by_cases hl : l = k
    · subst hl
      -- the new entry has the counter for its generation, which is no generation of the past
      have hne : t.nextGeneration ≠ g := fun heq => UInt64.lt_irrefl g (heq ▸ hg)
      have hnone : t.find? l = none := hfits.1
      simp [apply, Table.find?_create_self hfits.1, hnone, hne]
    · simp [apply, Table.find?_create_of_ne (Ne.symm hl)]
  | assign l value =>
    by_cases hl : l = k
    · subst hl
      simp [apply]
    · simp [apply, Table.find?_assign_of_ne (Ne.symm hl)]
  | erase l =>
    by_cases hl : l = k
    · subst hl
      simp [apply]
    · simp [apply, hl, Table.find?_erase_of_ne (Ne.symm hl)]

/-- The counter counts the entries created, unless it comes round. -/
theorem toNat_nextGeneration (h : c.Turns t u) (few : t.nextGeneration.toNat + created [c] < UInt64.size) :
    u.nextGeneration.toNat = t.nextGeneration.toNat + created [c] := by
  rw [h.nextGeneration]
  cases c with
  | create l written value =>
    simp only [created, isCreate, List.countP_cons, List.countP_nil, if_true] at few ⊢
    simp only [apply, Table.create, UInt64.toNat_add, UInt64.toNat_one]
    exact Nat.mod_eq_of_lt few
  | _ => rfl

theorem filed (h : c.Turns t u) (ht : t.Filed) : u.Filed := by
  have hfits := h.fits
  have happly : (c.apply t).Filed := by
    cases c with
    | keep => exact ht
    | create l written value => exact ⟨ht.keyed.create hfits.2, ht.distinct.create hfits.1⟩
    | assign l value => exact ⟨ht.keyed.assign, ht.distinct.assign⟩
    | erase l => exact ⟨ht.keyed.erase, ht.distinct.erase⟩
  exact happly.of_heads (congrArg (List.map Entry.head) h.entries)

theorem numbered (h : c.Turns t u) (ht : t.Numbered) (few : t.nextGeneration.toNat + created [c] < UInt64.size) :
    u.Numbered := by
  have hnext := h.toNat_nextGeneration few
  have older : ∀ {g : UInt64}, g < t.nextGeneration → g < u.nextGeneration := by
    intro g hg
    rw [UInt64.lt_iff_toNat_lt] at hg ⊢
    omega
  intro e he
  rw [h.entries] at he
  cases c with
  | keep => exact older (ht e he)
  | create l written value =>
    rcases List.mem_append.1 he with he | he
    · exact older (ht e he)
    · rw [List.mem_singleton] at he
      subst he
      rw [UInt64.lt_iff_toNat_lt, hnext]
      exact Nat.lt_succ_self _
  | assign l value =>
    obtain ⟨f, hf, rfl⟩ := List.mem_map.1 he
    split <;> exact older (ht f hf)
  | erase l => exact older (ht e (List.mem_filter.1 he).1)

end Change.Turns

/-! ## Tables over a history -/

/-- The table `u` is `t` after the changes, one after the other. -/
inductive Leads : List Change → Table → Table → Prop
  | nil (t : Table) : Leads [] t t
  | cons {c : Change} {cs : List Change} {t x u : Table} : c.Turns t x → Leads cs x u → Leads (c :: cs) t u

theorem created_cons (c : Change) (cs : List Change) : created (c :: cs) = created [c] + created cs := by
  simp only [created, List.countP_cons, List.countP_nil]
  omega

theorem created_le (c : Change) : created [c] ≤ 1 := List.countP_le_length

theorem created_append (cs ds : List Change) : created (cs ++ ds) = created cs + created ds := List.countP_append

namespace Leads

variable {cs : List Change} {t u : Table} {k : Key} {g : UInt64}

theorem get? (h : Leads cs t u) : u.get? k = latest k (t.get? k) cs := by
  induction h with
  | nil => rfl
  | cons hturn _ ih => rw [ih, hturn.get?, latest, latest, List.foldl_cons]

theorem numbered (h : Leads cs t u) (ht : t.Numbered) (few : t.nextGeneration.toNat + created cs < UInt64.size) :
    u.Numbered ∧ u.nextGeneration.toNat = t.nextGeneration.toNat + created cs := by
  induction h with
  | nil => exact ⟨ht, rfl⟩
  | @cons c cs t x u hturn _ ih =>
    rw [created_cons] at few ⊢
    have hnext := hturn.toNat_nextGeneration (by omega)
    obtain ⟨hu, hnext'⟩ := ih (hturn.numbered ht (by omega)) (by omega)
    exact ⟨hu, by omega⟩

/-- An entry stays exactly while no change erases its key, whatever is created under the key later. -/
theorem holds_iff (h : Leads cs t u) (hg : g < t.nextGeneration) (few : t.nextGeneration.toNat + created cs < UInt64.size) :
    u.Holds k g ↔ t.Holds k g ∧ .erase k ∉ cs := by
  induction h with
  | nil => simp
  | @cons c cs t x u hturn _ ih =>
    rw [created_cons] at few
    have hnext := hturn.toNat_nextGeneration (by omega)
    have hgx : g < x.nextGeneration := by
      rw [UInt64.lt_iff_toNat_lt] at hg ⊢
      omega
    rw [ih hgx (by omega), hturn.holds_iff hg, List.mem_cons, not_or, and_assoc]
    exact and_congr_right fun _ => and_congr_left' ne_comm

end Leads

/-! ## Histories of runs -/

namespace Table

def insertion (t : Table) (key value : Value) : Change :=
  match key.key? with
  | none => .keep
  | some k => if t.contains k then .assign k value else .create k key (some value)

def allocation (t : Table) (index : Value) : Change :=
  match index.key? with
  | none => .keep
  | some k => if t.contains k then .keep else .create k index none

end Table

/-- What removing the entry under a key value does. -/
def removal (key : Value) : Change :=
  match key.key? with
  | none => .keep
  | some k => .erase k

/-- What a write does to the table of its target. A write through a slot or a
reference that is accepted goes to the entry that is now under its key. -/
def Write.change (s : Store) : Write → Change
  | push _ _ | setElement _ _ _ => .keep
  | insert h key value => (s.hash h).insertion key value
  | remove _ key | deallocate _ key => removal key
  | allocate h index => (s.hash h).allocation index
  | setSlot slot value =>
    if (s.setSlot slot value).map Prod.fst = some (.ok ()) then .assign slot.key value else .keep
  | assign r value =>
    if (s.assignReference r value).map Prod.fst = some (.ok ()) then .assign r.slot.key value else .keep

/-- What an action does to the table of `h`. -/
def Action.change (s : Store) (h : HashId) : Action → Change
  | write x => if x.target = .hash h then x.change s else .keep
  | _ => .keep

namespace Store

/-- What the actions of a run do to the table of `h`. -/
def history (h : HashId) : Store → List Action → List Change
  | _, [] => []
  | s, a :: as => a.change s h :: ((a.apply s).map fun t => t.history h as).getD []

variable {s t u : Store} {h : HashId} {v c : Value} {as bs : List Action} {a : Action}

theorem after_append (hu : s.after as = some u) : s.after (as ++ bs) = u.after bs := by
  induction as generalizing s with
  | nil =>
    cases hu
    rfl
  | cons a as ih =>
    obtain ⟨t, ht, hu⟩ := Option.bind_eq_some_iff.1 hu
    simp only [List.cons_append, after, ht, Option.bind_some]
    exact ih hu

theorem history_append (hu : s.after as = some u) : s.history h (as ++ bs) = s.history h as ++ u.history h bs := by
  induction as generalizing s with
  | nil =>
    cases hu
    rfl
  | cons a as ih =>
    obtain ⟨t, ht, hu⟩ := Option.bind_eq_some_iff.1 hu
    simp [history, ht, ih hu]

end Store

theorem Change.Turns.keep {t u : Table} (he : u.entries = t.entries) (hn : u.nextGeneration = t.nextGeneration) :
    Change.keep.Turns t u := ⟨trivial, he, hn⟩

theorem Change.Turns.refl (t : Table) : Change.keep.Turns t t := .keep rfl rfl

/-- A change that is made as it is. -/
theorem Change.Turns.of_fits {c : Change} {t : Table} (h : c.Fits t) : c.Turns t (c.apply t) := ⟨h, rfl, rfl⟩

namespace Table

variable {t : Table} {key value : Value}

theorem fits_insertion : (t.insertion key value).Fits t := by
  unfold insertion
  cases hkey : key.key? with
  | none => trivial
  | some k => cases hk : t.find? k <;> simp [contains, hk, Change.Fits, hkey]

theorem insertValue_eq_apply : (t.insertValue key value).2 = (t.insertion key value).apply t := by
  unfold insertion insertValue insert
  cases key.key? with
  | none => rfl
  | some k => cases hk : t.find? k <;> simp [contains, hk, Change.apply]

/-- What each pair keeps of the pairs still to come and the table so far. -/
theorem ofPairs_invariant {I : List (Value × Value) → Table → Prop} {pairs : List (Value × Value)} {u : Table}
    (step : ∀ p pairs t, I (p :: pairs) t → I pairs ((t.insertion p.1 p.2).apply t)) (hI : I pairs {})
    (h : ofPairs pairs = .ok u) : I [] u := by
  unfold ofPairs at h
  generalize ({} : Table) = t at hI h
  induction pairs generalizing t with
  | nil =>
    cases h
    exact hI
  | cons p pairs ih =>
    have happly : (t.insertValue p.1 p.2).2 = _ := insertValue_eq_apply
    rw [List.foldlM_cons] at h
    rcases hp : t.insertValue p.1 p.2 with ⟨_ | _, t'⟩ <;> simp only [hp] at h happly
    · cases h
    · subst happly
      exact ih _ (step p pairs t hI) h

theorem value?_insertion {w : Value} (h : (t.insertion key value).value? = some w) : some value = some w := by
  unfold insertion at h
  split at h
  · cases h
  · split at h <;> exact h

theorem fits_allocation : (t.allocation key).Fits t := by
  unfold allocation
  cases hkey : key.key? with
  | none => trivial
  | some k => cases hk : t.find? k <;> simp [contains, hk, Change.Fits, hkey]

@[simp] theorem value?_allocation : (t.allocation key).value? = none := by
  unfold allocation
  split
  · rfl
  · split <;> rfl

@[simp] theorem value?_removal : (removal key).value? = none := by
  unfold removal
  split <;> rfl

theorem fits_removal : (removal key).Fits t := by
  unfold removal
  cases key.key? <;> trivial

end Table

namespace Store

variable {s t u : Store} {h : HashId} {v : Value} {slot : Slot}

/-- A slot is written only while it is live, and then its entry and nothing else. -/
theorem setSlot_eq_some {r : Except SlotError Unit} (hset : s.setSlot slot v = some (r, t)) :
    (r = .ok () ∧ s.isLive slot = true ∧ t = s.modifyHash slot.origin (·.assign slot.key v)) ∨
      (∃ e, r = .error e) ∧ t = s := by
  simp only [setSlot, Option.bind_eq_bind, Option.bind_eq_some_iff] at hset
  obtain ⟨b, -, hset⟩ := hset
  split at hset
  · cases hset
    exact .inr ⟨⟨_, rfl⟩, rfl⟩
  · split at hset <;> cases hset
    · next hl => exact .inl ⟨rfl, hl, rfl⟩
    · exact .inr ⟨⟨_, rfl⟩, rfl⟩

theorem assignReference_eq_some {r : Reference} {x : Except ReferenceError Unit}
    (hset : s.assignReference r v = some (x, t)) :
    (x = .ok () ∧ s.setSlot r.slot v = some (.ok (), t)) ∨ (∃ e, x = .error e) ∧ t = s := by
  unfold assignReference at hset
  split at hset
  · cases hset
    exact .inr ⟨⟨_, rfl⟩, rfl⟩
  · simp only [Option.bind_eq_bind, Option.bind_eq_some_iff] at hset
    obtain ⟨⟨y, u⟩, hy, hset⟩ := hset
    cases hset
    rcases setSlot_eq_some hy with ⟨rfl, -, -⟩ | ⟨⟨e, rfl⟩, rfl⟩
    · exact .inl ⟨rfl, hy⟩
    · exact .inr ⟨⟨_, rfl⟩, rfl⟩

theorem modifyArray_of_eq {a : ArrayId} {f : ArrayCell → ArrayCell} (hf : f (s.array a) = s.array a) :
    s.modifyArray a f = s := by
  have hsame : s.arrays.modify a.index f = s.arrays := by
    refine Array.ext (by simp) fun i _ hi => ?_
    rw [Array.getElem_modify]
    split
    · next hai => simpa [array, hai, hi] using hf
    · rfl
  rw [modifyArray, hsame]

theorem modifyHash_of_eq {f : Table → Table} (hf : f (s.hash h) = s.hash h) : s.modifyHash h f = s := by
  have hsame : s.hashes.modify h.index f = s.hashes := by
    refine Array.ext (by simp) fun i _ hi => ?_
    rw [Array.getElem_modify]
    split
    · next hhi => simpa [hash, hhi, hi] using hf
    · rfl
  rw [modifyHash, hsame]

theorem modifyHash_congr {f g : Table → Table} (hfg : f (s.hash h) = g (s.hash h)) :
    s.modifyHash h f = s.modifyHash h g := by
  have hsame : s.hashes.modify h.index f = s.hashes.modify h.index g := by
    refine Array.ext (by simp) fun i hi _ => ?_
    rw [Array.size_modify] at hi
    rw [Array.getElem_modify, Array.getElem_modify]
    split
    · next hhi => simpa [hash, hhi, hi] using hfg
    · rfl
  rw [modifyHash, hsame, modifyHash]

theorem insertEntry_snd (key value : Value) :
    (s.insertEntry h key value).2 = s.modifyHash h ((s.hash h).insertion key value).apply := by
  unfold insertEntry
  cases hkey : key.key? with
  | none =>
    simp only [Table.insertValue, Table.insertion, hkey]
    exact (modifyHash_of_eq rfl).symm
  | some k =>
    have happly : ((s.hash h).insertValue key value).2 = _ := Table.insertValue_eq_apply
    simp only [Table.insertValue, hkey] at happly ⊢
    exact modifyHash_congr happly

theorem allocate_snd (index : Value) :
    (s.allocate h index).2 = s.modifyHash h ((s.hash h).allocation index).apply := by
  unfold allocate Table.allocation
  cases index.key? with
  | none => exact (modifyHash_of_eq rfl).symm
  | some k =>
    simp only
    split
    · exact (modifyHash_of_eq rfl).symm
    · rfl

theorem deallocate_snd (index : Value) : (s.deallocate h index).2 = s.modifyHash h (removal index).apply := by
  unfold deallocate removal
  cases index.key? with
  | none => exact (modifyHash_of_eq rfl).symm
  | some k => rfl

theorem removeEntry_snd (key : Value) : (s.removeEntry h key).2 = s.modifyHash h (removal key).apply := by
  unfold removeEntry removal
  cases key.key? with
  | none => exact (modifyHash_of_eq rfl).symm
  | some k => rfl

end Store

/-! ## What a write does -/

namespace Write

/-- The value that is stored. -/
def value? : Write → Option Value
  | push _ value | setElement _ _ value | insert _ _ value | setSlot _ value | assign _ value => some value
  | remove _ _ | allocate _ _ | deallocate _ _ => none

/-- A write changes the elements of one array or the table of one hash. -/
inductive Does (x : Write) (s : Store) : Store → Prop
  | array (a : ArrayId) (f : Array Value → Array Value) : x.target = .array a →
    (∀ w ∈ f (s.array a).elements, w ∈ (s.array a).elements ∨ x.value? = some w) →
    Does x s (s.modifyArray a fun cell => { cell with elements := f cell.elements })
  | hash (h : HashId) : x.target = .hash h → (x.change s).Fits (s.hash h) →
    (∀ w, (x.change s).value? = some w → x.value? = some w) → Does x s (s.modifyHash h (x.change s).apply)

end Write

section

variable {s t : Store} {h : HashId} {as : List Action}

/-- A write that is refused. -/
theorem Write.Does.of_keep {x : Write} (htarget : x.target = .hash h) (hkeep : x.change s = .keep) : x.Does s s := by
  have hdoes := Does.hash (x := x) (s := s) h htarget (by rw [hkeep]; trivial) (by rw [hkeep]; exact nofun)
  rwa [hkeep, modifyHash_of_eq (f := Change.keep.apply) rfl] at hdoes

theorem Write.Does.of_setSlot {x : Write} {slot : Slot} {v : Value} {r : Except SlotError Unit}
    (htarget : x.target = .hash slot.origin) (hvalue : x.value? = some v)
    (hchange : x.change s = if r = .ok () then .assign slot.key v else .keep) (hset : s.setSlot slot v = some (r, t)) :
    x.Does s t := by
  rcases setSlot_eq_some hset with ⟨rfl, hl, rfl⟩ | ⟨⟨e, rfl⟩, rfl⟩
  · rw [if_pos rfl] at hchange
    obtain ⟨e, he⟩ := Option.isSome_iff_exists.1 hl
    have hfits : (Change.assign slot.key v).Fits (s.hash slot.origin) :=
      Option.isSome_iff_exists.2 ⟨e, (Option.filter_eq_some_iff.1 he).1⟩
    have hdoes := Does.hash (x := x) (s := s) slot.origin htarget (hchange ▸ hfits)
      (by rw [hchange, hvalue]; exact fun _ => id)
    rwa [hchange] at hdoes
  · exact .of_keep htarget (by simpa using hchange)

theorem Store.setElement_snd (a : ArrayId) (index : Nat) (value : Value) : (s.setElement a index value).2 =
    s.modifyArray a fun cell => { cell with elements := cell.elements.setIfInBounds index value } := by
  unfold setElement
  split
  · next hnone =>
    refine (modifyArray_of_eq ?_).symm
    rw [Array.setIfInBounds_eq_of_size_le (by simpa [elements] using hnone)]
  · rfl

theorem Write.does {x : Write} (hx : x.apply s = some t) : x.Does s t := by
  cases x with
  | push a value =>
    cases hx
    exact .array a (·.push value) rfl fun w hw => by simpa [value?, eq_comm] using hw
  | setElement a index value =>
    cases hx
    rw [setElement_snd]
    exact .array a (·.setIfInBounds index value) rfl fun w hw => by
      simpa [value?, eq_comm] using Array.mem_or_eq_of_mem_setIfInBounds hw
  | insert i key value =>
    cases hx
    rw [insertEntry_snd]
    exact .hash i rfl Table.fits_insertion fun w => Table.value?_insertion
  | remove i key =>
    cases hx
    rw [removeEntry_snd]
    exact .hash i rfl Table.fits_removal fun w hw => by simp [change] at hw
  | allocate i index =>
    cases hx
    rw [allocate_snd]
    exact .hash i rfl Table.fits_allocation fun w hw => by simp [change] at hw
  | deallocate i index =>
    cases hx
    rw [deallocate_snd]
    exact .hash i rfl Table.fits_removal fun w hw => by simp [change] at hw
  | setSlot slot value =>
    obtain ⟨⟨r, u⟩, hset, rfl⟩ := Option.map_eq_some_iff.1 hx
    exact .of_setSlot rfl rfl (by simp [change, hset]) hset
  | assign r value =>
    obtain ⟨⟨y, u⟩, hset, rfl⟩ := Option.map_eq_some_iff.1 hx
    rcases assignReference_eq_some hset with ⟨rfl, hslot⟩ | ⟨⟨e, rfl⟩, rfl⟩
    · exact .of_setSlot rfl rfl (by simp [change, hset]) hslot
    · exact .of_keep rfl (by simp [change, hset])

theorem Change.marked_apply (c : Change) (t : Table) : (c.apply t).marked = t.marked := by
  cases c <;> rfl

theorem Write.knows_iff {x : Write} {v : Value} (hx : x.apply s = some t) : t.Knows v ↔ s.Knows v := by
  cases Write.does hx with
  | array => exact knows_modifyArray
  | hash => exact knows_modifyHash

theorem Write.isMarked {x : Write} {v : Value} (hx : x.apply s = some t) : t.isMarked v = s.isMarked v := by
  cases Write.does hx with
  | array a f =>
    cases v with
    | array b =>
      rcases array_modifyArray_cases (s := s) (a := a) (b := b)
        (f := fun cell => { cell with elements := f cell.elements }) with hb | ⟨-, hb⟩ <;>
        simp only [Store.isMarked, hb]
    | _ => rfl
  | hash h =>
    cases v with
    | hash i =>
      rcases hash_modifyHash_cases (s := s) (h := h) (i := i) (f := (x.change s).apply) with hi | ⟨-, hi⟩ <;>
        simp only [Store.isMarked, hi, Change.marked_apply]
    | _ => rfl

theorem Write.turns {x : Write} (hk : s.Knows (.hash h)) (hx : x.apply s = some t) :
    (if x.target = .hash h then x.change s else .keep).Turns (s.hash h) (t.hash h) := by
  split
  · next htarget =>
    cases Write.does hx with
    | array a f ha => cases ha.symm.trans htarget
    | hash i hi hfits =>
      cases hi.symm.trans htarget
      rw [hash_modifyHash_self hk]
      exact .of_fits hfits
  · next htarget =>
    -- a write to another container
    rw [(Write.untouched (W := (· = x.target)) rfl hx).hash h hk (Ne.symm htarget)]
    exact .refl _

theorem Store.Extends.turns (hst : s.Extends t) (hk : s.Knows (.hash h)) : Change.keep.Turns (s.hash h) (t.hash h) := by
  rw [hst.hash h hk]
  exact .refl _

/-- Only a mark is gone after the copy of a marked container. -/
theorem Store.turns_unmark (v : Value) : Change.keep.Turns (s.hash h) ((s.unmark v).hash h) :=
  .keep ((SameContents.unmark s v).entries h) ((SameContents.unmark s v).nextGeneration h)

/-- The tables that are there keep what a copy does not ask for. -/
theorem Store.extends_or_unmark {v c : Value} (hc : s.copy v = some (c, t)) : s.Extends t ∨ t = s.unmark v := by
  unfold copy at hc
  split at hc
  · cases hc
    exact .inr rfl
  · exact .inl (snapshotWithin_extends hc)

theorem Store.Extends.newHashOf (s : Store) (pairs : List (Value × Value)) : s.Extends (s.newHashOf pairs).2 := by
  unfold Store.newHashOf
  split
  · exact .refl s
  · exact .newHash s _

theorem Store.Untouched.knows {W : Value → Prop} {v : Value} (hst : s.Untouched W t) (hk : s.Knows v) : t.Knows v := by
  cases v with
  | array a => exact Nat.lt_of_lt_of_le hk hst.arrays_le
  | hash i => exact Nat.lt_of_lt_of_le hk hst.hashes_le
  | ref slot index constant => exact Nat.lt_of_lt_of_le hk hst.hashes_le
  | _ => trivial

theorem Action.knows {a : Action} {v : Value} (ha : a.apply s = some t) (hk : s.Knows v) : t.Knows v := by
  cases a with
  | write x => exact (Write.untouched (W := (· = x.target)) rfl ha).knows hk
  | copy w =>
    obtain ⟨⟨c, u⟩, hc, rfl⟩ := Option.map_eq_some_iff.1 ha
    rcases extends_or_unmark hc with hst | rfl
    · exact hst.knows hk
    · exact (SameContents.unmark s w).knows.2 hk
  | newArray elements =>
    cases ha
    exact (Extends.newArray s elements).knows hk
  | newHash pairs =>
    cases ha
    exact (Extends.newHashOf s pairs).knows hk

theorem Store.knows_after {v : Value} (ht : s.after as = some t) (hk : s.Knows v) : t.Knows v := by
  induction as generalizing s with
  | nil =>
    cases ht
    exact hk
  | cons a as ih =>
    obtain ⟨u, hu, ht⟩ := Option.bind_eq_some_iff.1 ht
    exact ih ht (Action.knows hu hk)

theorem Action.turns {a : Action} (hk : s.Knows (.hash h)) (ha : a.apply s = some t) :
    (a.change s h).Turns (s.hash h) (t.hash h) := by
  cases a with
  | write x => exact Write.turns hk ha
  | copy v =>
    obtain ⟨⟨c, u⟩, hc, rfl⟩ := Option.map_eq_some_iff.1 ha
    rcases extends_or_unmark hc with hst | rfl
    · exact hst.turns hk
    · exact turns_unmark v
  | newArray elements =>
    cases ha
    exact (Extends.newArray s elements).turns hk
  | newHash pairs =>
    cases ha
    exact (Extends.newHashOf s pairs).turns hk

theorem Store.hash_of_not_knows (hk : ¬ s.Knows (.hash h)) : s.hash h = {} := hash_of_le (Nat.not_lt.1 hk)

/-- What holds of all tables and is kept by changes of a table, by copies and by new tables holds of all
tables after an action. -/
theorem Action.forall_hash {P : Table → Prop} {a : Action} (hs : ∀ h, P (s.hash h))
    (turn : ∀ h, (a.change s h).Turns (s.hash h) (t.hash h) → P (t.hash h)) (renew : ∀ t u, Renews t u → P u → P t)
    (pairs : ∀ pairs table, a = .newHash pairs → Table.ofPairs pairs = .ok table → P table)
    (ha : a.apply s = some t) : ∀ h, P (t.hash h) := by
  -- a table that the store knows is turned, and the rest are empty before and after
  have turned : (∀ h, t.Knows (.hash h) → s.Knows (.hash h)) → ∀ h, P (t.hash h) := by
    intro hknows h
    by_cases hk : s.Knows (.hash h)
    · exact turn h (Action.turns hk ha)
    · have hempty := hs h
      rwa [hash_of_not_knows hk, ← hash_of_not_knows (mt (hknows h) hk)] at hempty
  cases a with
  | write x => exact turned fun h => (Write.knows_iff ha).1
  | copy v =>
    obtain ⟨⟨c, u⟩, hc, rfl⟩ := Option.map_eq_some_iff.1 ha
    unfold Store.copy at hc
    split at hc
    · cases hc
      exact turned fun h => (SameContents.unmark s v).knows.1
    · exact forall_hash_snapshotWithin renew hs hc
  | newArray elements =>
    cases ha
    exact hs
  | newHash ps =>
    cases ha
    unfold newHashOf
    split
    · exact hs
    · next table htable => exact forall_newHash hs (pairs ps table rfl htable)

/-- The table of a hash after a run is its table before, after the changes of its history. -/
theorem Store.leads_history (hk : s.Knows (.hash h)) (ht : s.after as = some t) :
    Leads (s.history h as) (s.hash h) (t.hash h) := by
  induction as generalizing s with
  | nil =>
    cases ht
    exact .nil _
  | cons a as ih =>
    obtain ⟨u, hu, ht⟩ := Option.bind_eq_some_iff.1 ht
    simp only [history, hu, Option.map_some, Option.getD_some]
    exact .cons (Action.turns hk hu) (ih (Action.knows hu hk) ht)

end

end CopyOnBind
