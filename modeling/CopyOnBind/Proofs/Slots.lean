import CopyOnBind.Proofs.Cycles
import CopyOnBind.Proofs.History
/-!
# Slots follow their entry

A slot finds its entry by key and generation each time it is used. Generations
are handed out in ascending order, so as long as the counter has not come round
no later entry has the generation of an earlier one, and a slot whose entry is
gone never finds another (`slot_follows_entry`).

The counter of a copied hash goes on where that of the original was, so the
entries created in a hash are counted together with those created in the hash
that it is a copy of. `Action.numbered`: tables have their entries numbered from
the start, the tables of copies included.
-/

namespace CopyOnBind

open Store

variable {s t u : Store} {h i : HashId} {k : Key} {slot : Slot} {v w c : Value} {as bs : List Action}

namespace Store

/-! ## Handles -/

/-- The slot was handed out for the entry under `k` of `h`, by the step that led to this store. -/
inductive Hands (t : Store) (h : HashId) (k : Key) (slot : Slot) : Prop
  | allocate (s : Store) (index : Value) :
    s.Knows (.hash h) → index.key? = some k → s.allocate h index = (.ok slot, t) → Hands t h k slot
  | slot (index : Value) : index.key? = some k → t.slot? h index = some slot → Hands t h k slot

/-- A slot that was just handed out names an entry that is there. -/
theorem Hands.holds (hslot : t.Hands h k slot) :
    ∃ g, slot = ⟨h, k, g⟩ ∧ (t.hash h).Holds k g := by
  cases hslot with
  | allocate s index hk hkey ha =>
    simp only [Store.allocate, hkey] at ha
    split at ha
    · cases ha
    · next hc =>
      cases ha
      refine ⟨_, rfl, ⟨k, index, none, (s.hash h).nextGeneration⟩, ?_, rfl⟩
      rw [hash_modifyHash_self hk]
      exact Table.find?_create_self (by simpa [Table.contains] using hc)
  | slot index hkey hs =>
    simp only [slot?, hkey, Option.bind_eq_bind, Option.bind_some, Option.bind_eq_some_iff] at hs
    obtain ⟨e, he, hs⟩ := hs
    cases hs
    exact ⟨_, rfl, e, he, rfl⟩

theorem isLive_iff : t.isLive slot = true ↔ (t.hash slot.origin).Holds slot.key slot.generation := by
  simp only [isLive, entry?, Table.Holds, Option.isSome_iff_exists, Option.filter_eq_some_iff, beq_iff_eq]

theorem slotValue?_of_isLive (hl : t.isLive slot = true) : t.slotValue? slot = (t.hash slot.origin).get? slot.key := by
  obtain ⟨e, he, hg⟩ := isLive_iff.1 hl
  simp [slotValue?, entry?, Table.get?, he, hg, Option.filter]

theorem slotValue?_of_not_isLive (hl : t.isLive slot = false) : t.slotValue? slot = none := by
  simp only [isLive, Option.isSome_eq_false_iff, Option.isNone_iff_eq_none] at hl
  simp [slotValue?, hl]

/-- A slot whose entry is gone refuses everything, unless the check for cycles does not end. -/
theorem setSlot_of_not_isLive (hl : t.isLive slot = false) (hv : t.Grounded v) :
    ∃ e, t.setSlot slot v = some (.error e, t) := by
  obtain ⟨b, hb, -⟩ := reachesWithin_spec (h := slot.origin) (within_span hv)
  cases b with
  | true => exact ⟨.cycle, by simp [setSlot, reaches, hb]⟩
  | false => exact ⟨.vacated, by simp [setSlot, reaches, hb, hl]⟩

/-! ## Copies of a hash -/

/-- Every new container has new containers in it only. -/
structure Detached (s t : Store) : Prop where
  kept : s.Extends t
  part : ∀ u i w, ¬ s.Knows u → t.part? u i = some w → w.node? = none ∨ ¬ s.Knows w

namespace Detached

variable {n : Nat} {path : List Nat}

theorem newArray (h : s.Detached t) {vs : List Value} (hvs : ∀ w ∈ vs, w.node? = none ∨ ¬ s.Knows w) :
    s.Detached (t.newArray vs.toArray).2 ∧ ¬ s.Knows (.array (t.newArray vs.toArray).1) := by
  have hk := Extends.newArray t vs.toArray
  refine ⟨⟨h.kept.trans hk, fun u i w hu hw => ?_⟩, Nat.not_lt.2 h.kept.arrays_le⟩
  rcases (knows_newArray (isContainer_of_part? hw)).1 (knows_of_part? hw) with hold | rfl
  · exact h.part u i w hu (hk.part? hold i ▸ hw)
  · rw [part?_newArray_self] at hw
    exact hvs w (by simpa using Array.mem_of_getElem? hw)

theorem newHash (h : s.Detached t) {table : Table} (hvs : ∀ w ∈ table.values, w.node? = none ∨ ¬ s.Knows w) :
    s.Detached (t.newHash table).2 ∧ ¬ s.Knows (.hash (t.newHash table).1) := by
  have hk := Extends.newHash t table
  refine ⟨⟨h.kept.trans hk, fun u i w hu hw => ?_⟩, Nat.not_lt.2 h.kept.hashes_le⟩
  rcases (knows_newHash (isContainer_of_part? hw)).1 (knows_of_part? hw) with hold | rfl
  · exact h.part u i w hu (hk.part? hold i ▸ hw)
  · rw [part?_newHash_self] at hw
    obtain ⟨e, he, hv⟩ := Option.bind_eq_some_iff.1 hw
    exact hvs w (List.mem_filterMap.2 ⟨e, List.mem_of_getElem? he, hv⟩)

theorem of_snapshotWithin (hc : snapshotWithin n v s = some (c, t)) :
    s.Detached t ∧ (c.node? = none ∨ ¬ s.Knows c) :=
  snapshotWithin_invariant (I := s.Detached) (P := fun _ => True) (Q := fun c => c.node? = none ∨ ¬ s.Knows c)
    (fun _ _ _ _ _ _ => trivial) (fun _ _ hflat => .inl hflat) (.inl rfl)
    (fun _ _ hu hvs => (hu.newArray hvs).imp_right .inr) (fun _ _ _ _ _ hu _ hvs => (hu.newHash hvs).imp_right .inr)
    ⟨.refl s, fun _ _ _ hu hw => absurd (knows_of_part? hw) hu⟩ trivial hc

theorem of_follow? (h : s.Detached t) (hc : c.node? = none ∨ ¬ s.Knows c) (hw : t.follow? c path = some w) :
    w.node? = none ∨ ¬ s.Knows w := by
  induction path generalizing c with
  | nil =>
    cases hw
    exact hc
  | cons i path ih =>
    obtain ⟨x, hx, hw⟩ := Option.bind_eq_some_iff.1 hw
    have hnew : ¬ s.Knows c := hc.resolve_left (node?_ne_none (isContainer_of_part? hx))
    exact ih (h.part c i x hnew hx) hw

end Detached

/-- A container that is met in a copy was not there before. -/
theorem not_knows_of_copy {path : List Nat} (hm : s.isMarked v = false) (hc : s.copy v = some (c, t))
    (hw : t.follow? c path = some w) (hwc : w.isContainer) : ¬ s.Knows w := by
  rw [copy, if_neg (by simp [hm])] at hc
  obtain ⟨hdet, hnew⟩ := Detached.of_snapshotWithin hc
  exact (hdet.of_follow? hnew hw).resolve_left (node?_ne_none hwc)

/-! ## What a slot follows -/

/-- What a slot does that was handed out for an entry: `stored` is the value
that was stored in the entry last, and `gone` says that the entry was removed. -/
structure Follows (t : Store) (h : HashId) (k : Key) (slot : Slot) (stored : Option Value) (gone : Prop) : Prop where
  live : t.isLive slot = true ↔ ¬ gone
  get : ¬ gone → t.slotValue? slot = stored
  vacant : gone → t.slotValue? slot = none
  refused : gone → ∀ v, t.Grounded v → ∃ e, t.setSlot slot v = some (.error e, t)
  unchanged : gone → ∀ v r u, t.setSlot slot v = some (r, u) → r ≠ .ok () ∧ u = t
  /-- Another slot is the same exactly if it is handed out for the same entry. -/
  same : ∀ i l slot', t.Hands i l slot' → (slot' = slot ↔ i = h ∧ l = k ∧ ¬ gone)
  /-- A copy has other hashes, which the slot neither reads nor writes. -/
  copied : ∀ v c u, t.isMarked v = false → t.copy v = some (c, u) →
    ∀ path i, u.follow? c path = some (.hash i) →
      i ≠ h ∧ (∀ (x : Store) f, Store.entry? (x.modifyHash i f) slot = x.entry? slot) ∧
        ∀ (x y : Store) w r, x.setSlot slot w = some (r, y) → y.hash i = x.hash i

theorem entry?_modifyHash_of_ne {f : Table → Table} (hi : i ≠ slot.origin) :
    Store.entry? (s.modifyHash i f) slot = s.entry? slot := by
  simp only [hash_modifyHash_of_ne (Ne.symm hi), entry?]

theorem hash_setSlot_of_ne {r : Except SlotError Unit} (hi : i ≠ slot.origin) (hset : s.setSlot slot v = some (r, t)) :
    t.hash i = s.hash i := by
  rcases setSlot_eq_some hset with ⟨-, -, rfl⟩ | ⟨-, rfl⟩
  · exact hash_modifyHash_of_ne hi
  · rfl

end Store

/-- For ever after, a slot names the entry it was handed out for and no other:
`as` is the run up to then, and `bs` the run since. -/
theorem slot_follows_entry (hk : s.Knows (.hash h)) (hnum : (s.hash h).Numbered) (hu : s.after as = some u)
    (hslot : u.Hands h k slot) (ht : u.after bs = some t)
    (few : (s.hash h).nextGeneration.toNat + created (s.history h (as ++ bs)) < UInt64.size) :
    t.Follows h k slot (latest k ((s.hash h).get? k) (s.history h (as ++ bs))) (.erase k ∈ u.history h bs) := by
  have hall : Leads (s.history h (as ++ bs)) (s.hash h) (t.hash h) :=
    leads_history hk ((after_append hu).trans ht)
  rw [history_append hu] at few hall ⊢
  rw [created_append] at few
  obtain ⟨hnum', hnext⟩ := (leads_history hk hu).numbered hnum (by omega)
  have hbs : Leads (u.history h bs) (u.hash h) (t.hash h) := leads_history (knows_after hu hk) ht
  obtain ⟨g, rfl, hg⟩ := hslot.holds
  -- only the changes of `bs` decide whether the entry is still there
  have hholds : (t.hash h).Holds k g ↔ .erase k ∉ u.history h bs := by
    rw [hbs.holds_iff (hnum'.of_holds hg) (by omega)]
    exact and_iff_right hg
  have hlive : t.isLive ⟨h, k, g⟩ = true ↔ .erase k ∉ u.history h bs := isLive_iff.trans hholds
  have hdead : .erase k ∈ u.history h bs → t.isLive ⟨h, k, g⟩ = false := fun hgone => by
    simpa using fun hl => hlive.1 hl hgone
  refine ⟨hlive, fun hgone => ?_, fun hgone => slotValue?_of_not_isLive (hdead hgone),
    fun hgone v hv => setSlot_of_not_isLive (hdead hgone) hv, fun hgone v r x hset => ?_, fun i l slot' hslot' => ?_,
    fun v c x hm hc path i hi => ?_⟩
  · rw [slotValue?_of_isLive (hlive.2 hgone)]
    exact hall.get?
  · rcases setSlot_eq_some hset with ⟨-, hl, -⟩ | ⟨⟨e, rfl⟩, rfl⟩
    · rw [hdead hgone] at hl
      cases hl
    · exact ⟨nofun, rfl⟩
  · obtain ⟨g', rfl, e', he', rfl⟩ := hslot'.holds
    rw [Slot.mk.injEq]
    constructor
    · rintro ⟨rfl, rfl, rfl⟩
      exact ⟨rfl, rfl, hholds.1 ⟨e', he', rfl⟩⟩
    · rintro ⟨rfl, rfl, hgone⟩
      obtain ⟨e, he, rfl⟩ := hholds.2 hgone
      exact ⟨rfl, rfl, by rw [Option.some.inj (he'.symm.trans he)]⟩
  · have hne : i ≠ h := by
      rintro rfl
      exact not_knows_of_copy hm hc hi rfl (knows_after ht (knows_after hu hk))
    exact ⟨hne, fun x f => entry?_modifyHash_of_ne hne, fun x y w r hset => hash_setSlot_of_ne hne hset⟩

/-- The entry under 1 is written, removed, and created again with another value. -/
theorem slot_follows_entry_recreated :
    let s : Store := { hashes := #[{}] }
    let slot : Slot := ⟨⟨0⟩, .int 1, 0⟩
    let bs : List Action := [.write (.setSlot slot (.int 5)), .write (.deallocate ⟨0⟩ (.int 1)),
      .write (.insert ⟨0⟩ (.int 1) (.int 6)), .write (.setSlot slot (.int 7))]
    ∃ u t, s.after [.write (.allocate ⟨0⟩ (.int 1))] = some u ∧ u.Hands ⟨0⟩ (.int 1) slot ∧ u.after bs = some t ∧
      t.Follows ⟨0⟩ (.int 1) slot (some (.int 6)) (.erase (.int 1) ∈ u.history ⟨0⟩ bs) ∧
        .erase (.int 1) ∈ u.history ⟨0⟩ bs := by
  intro s slot bs
  let as : List Action := [.write (.allocate ⟨0⟩ (.int 1))]
  obtain ⟨u, hu⟩ : ∃ u, s.after as = some u := ⟨_, rfl⟩
  have hk : s.Knows (.hash ⟨0⟩) := by decide
  have hslot : u.Hands ⟨0⟩ (.int 1) slot := .allocate s (.int 1) hk rfl (by cases hu; rfl)
  obtain ⟨t, ht⟩ : ∃ t, u.after bs = some t := Option.isSome_iff_exists.1 (by cases hu; decide +kernel)
  have few : (s.hash ⟨0⟩).nextGeneration.toNat + created (s.history ⟨0⟩ (as ++ bs)) < UInt64.size := by decide +kernel
  have hstored : latest (.int 1) ((s.hash ⟨0⟩).get? (.int 1)) (s.history ⟨0⟩ (as ++ bs)) = some (.int 6) := by
    decide +kernel
  have hfollows := slot_follows_entry hk (by decide) hu hslot ht few
  rw [hstored] at hfollows
  exact ⟨u, t, hu, hslot, ht, hfollows, by cases hu; decide +kernel⟩

/-! ## Numbered tables -/

/-- A copied entry has the generation of the entry, and the copied table its counter. -/
theorem Store.Renews.numbered {table table' : Table} (hr : Renews table table') (h : table'.Numbered) : table.Numbered := by
  intro e he
  obtain ⟨f, hf, hef⟩ := hr.generation e he
  rw [hef, hr.nextGeneration]
  exact h f hf

theorem Table.numbered_ofPairs {pairs : List (Value × Value)} {table : Table} (few : pairs.length < UInt64.size)
    (hpairs : Table.ofPairs pairs = .ok table) : table.Numbered := by
  -- the counter is at most the number of pairs that were filed
  let I (pairs : List (Value × Value)) (t : Table) : Prop :=
    t.Numbered ∧ t.nextGeneration.toNat + pairs.length < UInt64.size
  have step : ∀ p pairs t, I (p :: pairs) t → I pairs ((t.insertion p.1 p.2).apply t) := by
    rintro p pairs t ⟨ht, few⟩
    have hturn : (t.insertion p.1 p.2).Turns t ((t.insertion p.1 p.2).apply t) := .of_fits fits_insertion
    have hone := created_le (t.insertion p.1 p.2)
    rw [List.length_cons] at few
    have hnext := hturn.toNat_nextGeneration (by omega)
    exact ⟨hturn.numbered ht (by omega), by omega⟩
  exact (ofPairs_invariant (I := I) step ⟨nofun, by simpa using few⟩ hpairs).1

/-- Every table that a run meets has its entries numbered, as long as no counter comes round. -/
theorem Action.numbered {a : Action} (hs : ∀ h, (s.hash h).Numbered)
    (few : ∀ h, (s.hash h).nextGeneration.toNat + created [a.change s h] < UInt64.size)
    (hpairs : ∀ pairs, a = .newHash pairs → pairs.length < UInt64.size) (ha : a.apply s = some t) :
    ∀ h, (t.hash h).Numbered :=
  Action.forall_hash hs (fun h hturn => hturn.numbered (hs h) (few h)) (fun _ _ => Renews.numbered)
    (fun pairs _ hp => Table.numbered_ofPairs (hpairs pairs hp)) ha

end CopyOnBind
