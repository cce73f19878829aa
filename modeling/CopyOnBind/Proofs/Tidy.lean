import CopyOnBind.Proofs.Places
/-!
# Tidy stores

While a program runs, every container that it made is stored at one place at
most, and a marked container nowhere (`Tidy`). A container that is stored
nowhere is hidden from all code that is not handed it, and so keeps its content
and its mark (`Keeps`).

Each change of the store that evaluation makes has a lemma here that says what
it asks for and that the store stays tidy. All of them but the push are steady:
what was known before reads the same afterwards (`Steady`). What a copy gives is
collected in `Taken`.
-/

namespace CopyOnBind

open Relation

namespace Store

variable {s₀ s t u : Store} {v w c d : Value} {e r : ScopeId} {x : String} {p q : Place} {a : ArrayId} {A B : List Value}

/-! ## Tidy stores -/

/-- A container that was made after `s₀` and is stored nowhere in `s`. -/
def Hidden (s₀ s : Store) (c : Value) : Prop :=
  c.isContainer ∧ ¬ s₀.Knows c ∧ s.Knows c ∧ ∀ p, s.at? p ≠ some c

/-- A value that can be stored as it is. -/
def Free (s₀ s : Store) (c : Value) : Prop := c.isSimple ∨ s₀.Hidden s c ∧ s.isMarked c = false

/-- A value that code can hold: the store knows it, and it is no native. -/
def Admits (s : Store) (v : Value) : Prop := s.Knows v ∧ v.kind ≠ .native

/-- What holds of the store of a running program that started with `s₀`. -/
structure Tidy (s₀ s : Store) : Prop where
  wellFormed : s.WellFormed
  acyclic : s.Acyclic
  grown : ∀ v, s₀.Knows v → s.Knows v
  bound : ∀ e x v, s.at? (.name e x) = some v → s.Knows v
  natives : s.NativeFree
  /-- Names have the value they had at the start or one that was made since. -/
  named : ∀ e x v, s.at? (.name e x) = some v → s₀.at? (.name e x) = some v ∨ s₀.Fresh s v
  /-- Containers made since hold nothing that was there at the start. -/
  inner : ∀ c i w, ¬ s₀.Knows c → s.part? c i = some w → s₀.Fresh s w
  once : ∀ p q c, c.isContainer → ¬ s₀.Knows c → s.at? p = some c → s.at? q = some c → p = q
  marked : ∀ c, s.isMarked c = true → s₀.Hidden s c

/-- What a hidden container keeps, unless it is one of `A`. -/
structure Keeps (s₀ : Store) (A : List Value) (s t : Store) : Prop where
  knows : ∀ v, s.Knows v → t.Knows v
  hidden : ∀ c, s₀.Hidden s c → c ∉ A → s₀.Hidden t c ∧ t.isMarked c = s.isMarked c ∧ t.content c = s.content c

namespace Keeps

theorem refl (s : Store) : Keeps s₀ A s s := ⟨fun _ => id, fun _ h _ => ⟨h, rfl, rfl⟩⟩

/-- The second change may also ask for what was not hidden before the first. -/
theorem trans (hst : Keeps s₀ A s t) (htu : Keeps s₀ B t u) (hB : ∀ b ∈ B, s₀.Hidden s b → b ∈ A) : Keeps s₀ A s u where
  knows v hv := htu.knows v (hst.knows v hv)
  hidden c hc hA := by
    obtain ⟨hc', hm, hcontent⟩ := hst.hidden c hc hA
    obtain ⟨hc'', hm', hcontent'⟩ := htu.hidden c hc' fun hb => hA (hB c hb hc)
    exact ⟨hc'', hm'.trans hm, hcontent'.trans hcontent⟩

theorem admits (h : Keeps s₀ A s t) (hv : s.Admits v) : t.Admits v := ⟨h.knows v hv.1, hv.2⟩

theorem mono (h : Keeps s₀ A s t) (hAB : ∀ a ∈ A, s₀.Hidden s a → a ∈ B) : Keeps s₀ B s t :=
  ⟨h.knows, fun c hc hB => h.hidden c hc fun hA => hB (hAB c hA hc)⟩

theorem free (h : Keeps s₀ A s t) (hc : s₀.Free s c) (hA : c.isContainer → c ∉ A) : s₀.Free t c := by
  apply hc.imp_right
  rintro ⟨hc, hm⟩
  obtain ⟨hc', hm', -⟩ := h.hidden c hc (hA hc.1)
  exact ⟨hc', hm'.trans hm⟩

end Keeps

theorem Free.fresh (h : s₀.Free s c) : s₀.Fresh s c :=
  h.imp Value.node?_of_isSimple fun ⟨⟨hc, hs, hk, _⟩, _⟩ => ⟨hc, hs, hk⟩

theorem Free.knows (h : s₀.Free s c) : s.Knows c := h.fresh.knows

theorem Free.admits (h : s₀.Free s c) : s.Admits c := by
  refine ⟨h.knows, ?_⟩
  rcases h with h | ⟨⟨hc, -⟩, -⟩
  · exact Value.kind_of_isSimple h
  · exact Value.kind_of_isContainer hc

theorem Free.not_at? (h : s₀.Free s c) (hc : c.isContainer) : s.at? p ≠ some c := by
  rcases h with h | ⟨h, -⟩
  · exact absurd (Value.node?_of_isSimple h) (node?_ne_none hc)
  · exact h.2.2.2 p

theorem Free.not_marked (h : s₀.Free s c) : s.isMarked c = false := by
  rcases h with h | ⟨-, h⟩
  · cases c <;> simp_all [Value.isSimple, isMarked]
  · exact h

theorem Free.ne_of_isMarked (h : s₀.Free s c) (hd : s.isMarked d = true) : d ≠ c := by
  rintro rfl
  rw [h.not_marked] at hd
  cases hd

theorem tidy_refl (hs : s.WellFormed) (ha : s.Acyclic) (hb : ∀ e x v, s.at? (.name e x) = some v → s.Knows v)
    (hn : s.NativeFree) (hm : ∀ c, s.isMarked c = false) : s.Tidy s where
  wellFormed := hs
  acyclic := ha
  grown _ hv := hv
  bound := hb
  natives := hn
  named _ _ _ hv := .inl hv
  inner c i w hc hi := absurd (knows_of_part? hi) hc
  once p q c _ hc hp _ := by
    cases p with
    | name e x => exact absurd (hb e x c hp) hc
    | inside d i => exact absurd (hs.closed d i c hp) hc
  marked c hc := by
    rw [hm c] at hc
    cases hc

/-- A change after which everything that was known reads the same; of the
hidden containers, only those of `A` were stored or marked. -/
structure Steady (s₀ : Store) (A : List Value) (s t : Store) : Prop where
  tidy : s₀.Tidy t
  keeps : Keeps s₀ A s t
  same : ∀ v, s.Knows v → s.SameAt t v
  content : ∀ v, s.Knows v → t.content v = s.content v

namespace Steady

theorem refl (h : s₀.Tidy s) : Steady s₀ A s s where
  tidy := h
  keeps := .refl s
  same _ hv := (Extends.refl s).sameAt hv
  content _ _ := rfl

theorem of_sameContents (ht : s₀.Tidy t) (hk : Keeps s₀ A s t) (h : s.SameContents t) : Steady s₀ A s t :=
  ⟨ht, hk, fun v _ => h.sameAt v, fun _ _ => h.content⟩

theorem of_extends (hs : s₀.Tidy s) (ht : s₀.Tidy t) (hk : Keeps s₀ A s t) (h : s.Extends t) : Steady s₀ A s t :=
  ⟨ht, hk, fun _ hv => h.sameAt hv, fun _ hv => h.content hs.wellFormed hv⟩

theorem trans (hst : Steady s₀ A s t) (htu : Steady s₀ B t u) (hB : ∀ b ∈ B, s₀.Hidden s b → b ∈ A) : Steady s₀ A s u where
  tidy := htu.tidy
  keeps := hst.keeps.trans htu.keeps hB
  same v hv := (hst.same v hv).trans (htu.same v (hst.keeps.knows v hv))
  content v hv := (htu.content v (hst.keeps.knows v hv)).trans (hst.content v hv)

end Steady

/-- What a copy of `v` takes as it is. -/
def consumed (s : Store) (v : Value) : List Value := if s.isMarked v then [v] else []

theorem mem_consumed : w ∈ s.consumed v ↔ w = v ∧ s.isMarked v = true := by
  unfold consumed
  split <;> simp_all

/-- A copy gave `c` for `v`: this value itself if it was marked, else a new tree. -/
structure Taken (s₀ s : Store) (v c : Value) (t : Store) : Prop extends Steady s₀ (s.consumed v) s t where
  scopes : t.scopes = s.scopes
  free : s₀.Free t c
  known : c.isContainer → s.Knows c → c ∈ s.consumed v
  marks : ∀ u, t.isMarked u = true → s.isMarked u = true
  copied : ∀ T, s.content v = some T → t.content c = some T ∨ t.content c = some T.resolve

namespace Taken

theorem eq_of_hidden (h : Taken s₀ s v c t) (hc : s₀.Hidden s c) : c = v ∧ s.isMarked v = true :=
  mem_consumed.1 (h.known hc.1 hc.2.2.1)

theorem keeps_of_mem (h : Taken s₀ s v c t) : Keeps s₀ [v] s t :=
  h.keeps.mono fun _ ha _ => List.mem_singleton.2 (mem_consumed.1 ha).1

/-- What was stored is still stored there. -/
theorem at? (h : Taken s₀ s v c t) (hp : s.at? p = some w) : t.at? p = some w := by
  cases p with
  | name e x => exact (at?_name_of_scopes h.scopes).trans hp
  | inside d i => exact (h.same d (knows_of_part? hp)).part?.trans hp

end Taken

/-- Values of which each container is there once. -/
def Once (vs : List Value) : Prop :=
  ∀ (i j : Nat) (v : Value), vs[i]? = some v → vs[j]? = some v → v.isContainer → i = j

namespace Tidy

theorem knows_at? (h : s₀.Tidy s) (hp : s.at? p = some v) : s.Knows v := by
  cases p with
  | name e x => exact h.bound e x v hp
  | inside c i => exact h.wellFormed.closed c i v hp

theorem admits_at? (h : s₀.Tidy s) (hp : s.at? p = some v) : s.Admits v := ⟨h.knows_at? hp, h.natives p v hp⟩

/-- From what was made since the start, walks meet only such, and never an
array that a name stands for, unless they begin there. -/
theorem avoids (h : s₀.Tidy s) (ha : s.at? (.name r x) = some (.array a)) (hv : s₀.Fresh s v ∧ v ≠ .array a) :
    ∀ w ∈ s.children v, s₀.Fresh s w ∧ w ≠ .array a := by
  intro w hw
  rcases hv.1 with hflat | ⟨hc, hs, -⟩
  · simp [children_of_node?_none hflat] at hw
  · obtain ⟨i, hi⟩ := (mem_children_iff hc).1 hw
    have hfresh := h.inner v i w hs hi
    refine ⟨hfresh, ?_⟩
    rintro rfl
    have := h.once (.name r x) (.inside v i) (.array a) rfl (hfresh.not_knows rfl) ha hi
    cases this

theorem content_push (h : s₀.Tidy s) (ha : s.at? (.name r x) = some (.array a)) (hv : s₀.Fresh s v)
    (hne : v ≠ .array a) : (s.push a c).content v = s.content v :=
  content_congr (P := fun w => s₀.Fresh s w ∧ w ≠ .array a) (fun _ hw => sameAt_push hw.2)
    (fun _ hw => h.avoids ha hw) ⟨hv, hne⟩

/-- What is made since the start and stored elsewhere is not the array of a name. -/
theorem ne_of_place (h : s₀.Tidy s) (ha : s.at? (.name r x) = some (.array a)) (hp : s.at? p = some v)
    (hne : p ≠ .name r x) (hv : s₀.Fresh s v) : v ≠ .array a := by
  rintro rfl
  exact hne (h.once p _ _ rfl (hv.not_knows rfl) hp ha)

/-! ## Changes that evaluation makes -/

/-- A new tree with its root in no place. -/
theorem graft (h : s₀.Tidy s) (hg : s.Grafts t [some c]) (hn : t.NativeFree) (hc : c.kind ≠ .native) :
    Steady s₀ [] s t ∧ s₀.Free t c := by
  have hk := hg.kept
  -- new values are stored in new containers, and known values where they were
  have new_of_not_knows : ∀ p w, ¬ s.Knows w → t.at? p = some w →
      ∃ c i, p = .inside c i ∧ ¬ s.Knows c ∧ t.part? c i = some w := by
    intro p w hw hp
    exact (hk.at?_cases hp).resolve_left fun hp => hw (h.knows_at? hp)
  have old_of_knows : ∀ p w, w.isContainer → s.Knows w → t.at? p = some w → s.at? p = some w := by
    intro p w hw hs hp
    refine (hk.at?_cases hp).resolve_right ?_
    rintro ⟨c, i, _, hc, hi⟩
    exact (hg.part c i w hc hi).not_knows hw hs
  have stays : ∀ c, s₀.Hidden s c → s₀.Hidden t c := fun c ⟨hc, hs, hkn, hp⟩ =>
    ⟨hc, hs, hk.knows hkn, fun p ht => hp p (old_of_knows p c hc hkn ht)⟩
  have grown := h.grown
  refine ⟨.of_extends h ⟨hg.wellFormed, hg.acyclic h.wellFormed h.acyclic, fun v hv => hk.knows (grown v hv), ?_, hn, ?_, ?_, ?_, ?_⟩
    ?_ hk, ?_⟩
  · intro e x v hv
    rcases hk.at?_cases hv with hv | ⟨c, i, hp, -⟩
    · exact hk.knows (h.bound e x v hv)
    · cases hp
  · intro e x v hv
    rcases hk.at?_cases hv with hv | ⟨c, i, hp, -⟩
    · exact (h.named e x v hv).imp_right fun hf => hf.right hk
    · cases hp
  · intro c i w hs hi
    by_cases hc : s.Knows c
    · rw [hk.part? hc] at hi
      exact (h.inner c i w hs hi).right hk
    · refine (hg.part c i w hc hi).imp_right fun ⟨hw, hws, hwt⟩ => ⟨hw, fun h0 => hws (grown w h0), hwt⟩
  · intro p q w hw hs hp hq
    by_cases hkn : s.Knows w
    · exact h.once p q w hw hs (old_of_knows p w hw hkn hp) (old_of_knows q w hw hkn hq)
    · obtain ⟨c, i, rfl, hc, hi⟩ := new_of_not_knows p w hkn hp
      obtain ⟨c', i', rfl, hc', hi'⟩ := new_of_not_knows q w hkn hq
      obtain ⟨rfl, rfl⟩ := hg.partOnce c c' i i' w hc hc' hi hi' hw
      rfl
  · intro c hm
    by_cases hc : s.Knows c
    · rw [hk.isMarked hc] at hm
      exact stays c (h.marked c hm)
    · rw [hg.unmarked c hc] at hm
      cases hm
  · exact ⟨fun v => hk.knows, fun c hc _ => ⟨stays c hc, hk.isMarked hc.2.2.1, hk.content h.wellFormed hc.2.2.1⟩⟩
  · apply (hg.root c (by simp)).imp fun hflat => Value.isSimple_of_node?_none hflat hc
    rintro ⟨hc, hs, ht⟩
    refine ⟨⟨hc, fun h0 => hs (grown c h0), ht, fun p hp => ?_⟩, hg.unmarked c hs⟩
    obtain ⟨d, i, -, hd, hi⟩ := new_of_not_knows p c hs hp
    exact hg.loose d i c hd hi hc (by simp)

/-- A change of marks, of hidden containers only. -/
theorem remark (h : s₀.Tidy s) (hst : s.SameContents t) (hat : ∀ p, t.at? p = s.at? p)
    (hm : ∀ c, t.isMarked c = true → s₀.Hidden s c) (hA : ∀ c, c ∉ A → t.isMarked c = s.isMarked c) : Steady s₀ A s t := by
  have hidden : ∀ c, s₀.Hidden s c → s₀.Hidden t c := fun c ⟨hc, hs, hk, hp⟩ =>
    ⟨hc, hs, hst.knows.2 hk, fun p => hat p ▸ hp p⟩
  refine .of_sameContents ?_ ⟨fun v => hst.knows.2, fun c hc hcA => ⟨hidden c hc, hA c hcA, hst.content⟩⟩ hst
  exact {
    wellFormed := hst.wellFormed h.wellFormed
    acyclic := hst.acyclic h.acyclic
    grown := fun v hv => hst.knows.2 (h.grown v hv)
    bound := fun e x v hv => hst.knows.2 (h.bound e x v (hat _ ▸ hv))
    natives := fun p v hp => h.natives p v (hat p ▸ hp)
    named := fun e x v hv => (h.named e x v (hat _ ▸ hv)).imp_right fun hf => hf.later hst.knows.2
    inner := fun c i w hs hi => (h.inner c i w hs (hst.part? ▸ hi)).later hst.knows.2
    once := fun p q c hc hs hp hq => h.once p q c hc hs (hat p ▸ hp) (hat q ▸ hq)
    marked := fun c hc => hidden c (hm c hc) }

theorem unmark (h : s₀.Tidy s) (hv : s.isMarked v = true) : Steady s₀ [v] s (s.unmark v) ∧ s₀.Free (s.unmark v) v := by
  have hst := SameContents.unmark s v
  have hne : ∀ c, c ∉ [v] → (s.unmark v).isMarked c = s.isMarked c := fun c hc =>
    isMarked_unmark_of_ne (by simpa using hc)
  refine ⟨h.remark hst (fun _ => at?_unmark) (fun c hc => ?_) hne, ?_⟩
  · by_cases hcv : c = v
    · rw [hcv, isMarked_unmark_self] at hc
      cases hc
    · rw [hne c (by simpa using hcv)] at hc
      exact h.marked c hc
  · obtain ⟨hc, hs, hk, hp⟩ := h.marked v hv
    exact .inr ⟨⟨hc, hs, hst.knows.2 hk, fun p => at?_unmark (s := s) ▸ hp p⟩, isMarked_unmark_self⟩

theorem mark (h : s₀.Tidy s) (hc : s₀.Free s c) : Steady s₀ [c] s (s.mark c) := by
  have hne : ∀ d, d ∉ [c] → (s.mark c).isMarked d = s.isMarked d := fun d hd =>
    isMarked_mark_of_ne (by simpa using hd)
  refine h.remark (SameContents.mark s c) (fun _ => at?_mark) (fun d hd => ?_) hne
  by_cases hdc : d = c
  · rcases hc with hc | ⟨hc, -⟩
    · subst hdc
      exact absurd (Value.node?_of_isSimple hc) (node?_ne_none (isContainer_of_isMarked hd))
    · exact hdc ▸ hc
  · rw [hne d (by simpa using hdc)] at hd
    exact h.marked d hd

theorem taken (h : s₀.Tidy s) (hv : s.Admits v) (hc : s.copy v = some (c, t)) : Taken s₀ s v c t := by
  cases hm : s.isMarked v with
  | true =>
    rw [copy_of_marked hm] at hc
    cases hc
    have hconsumed : s.consumed v = [v] := if_pos hm
    obtain ⟨hsteady, hfree⟩ := h.unmark hm
    refine ⟨hconsumed ▸ hsteady, ?_, hfree, by simp [hconsumed], fun u hu => ?_, fun T hT => .inl ?_⟩
    · cases v <;> rfl
    · by_cases huv : u = v
      · rw [huv, hm]
      · rwa [isMarked_unmark_of_ne huv] at hu
    · exact (SameContents.unmark s v).content.trans hT
  | false =>
    obtain ⟨c', t', T, hc', hg, hT, hcontent⟩ := copy_of_unmarked h.wellFormed hv.1 (h.acyclic.grounded v) hm
    rw [hc'] at hc
    cases hc
    have hconsumed : s.consumed v = [] := if_neg (by simp [hm])
    have hsnapshot : s.snapshotWithin s.span v = some (c, t) := by simpa [copy, hm, snapshot] using hc'
    obtain ⟨hnatives, hkind⟩ := h.natives.snapshotWithin hv.2 hsnapshot
    obtain ⟨hsteady, hfree⟩ := h.graft hg hnatives hkind
    refine ⟨hconsumed ▸ hsteady, hg.kept.scopes, hfree, fun hcon hk => ?_, fun u hu => ?_, fun U hU => .inr ?_⟩
    · exact absurd hk ((hg.root c (by simp)).not_knows hcon)
    · by_cases hk : s.Knows u
      · rwa [hg.kept.isMarked hk] at hu
      · rw [hg.unmarked u hk] at hu
        cases hu
    · rw [hcontent, Option.some.inj (hT.symm.trans hU)]

theorem exists_copy (h : s₀.Tidy s) (hv : s.Admits v) : ∃ c t, s.copy v = some (c, t) ∧ Taken s₀ s v c t := by
  obtain ⟨⟨c, t⟩, hc⟩ := Option.isSome_iff_exists.1 (isSome_copy h.wellFormed hv.1 (h.acyclic.grounded v))
  exact ⟨c, t, hc, h.taken hv hc⟩

theorem newScope (h : s₀.Tidy s) (parent : Option ScopeId) : Steady s₀ [] s (s.newScope parent).2 :=
  h.remark (SameContents.newScope s parent) (fun _ => at?_newScope) (fun c hc => h.marked c (isMarked_newScope ▸ hc))
    fun _ _ => isMarked_newScope

theorem define (h : s₀.Tidy s) (hc : s₀.Free s c) (m : Bool) : Steady s₀ [c] s (s.define r x c m) := by
  have hst : s.SameContents (s.define r x c m) := SameContents.modifyScope s r _
  have stays : ∀ d, s₀.Hidden s d → d ≠ c → s₀.Hidden (s.define r x c m) d := by
    intro d ⟨hd, hs, hk, hp⟩ hne
    refine ⟨hd, hs, hst.knows.2 hk, fun p hat => ?_⟩
    rcases at?_define hat with hat | ⟨-, hdc⟩
    · exact hp p hat
    · exact hne hdc
  have fresh : ∀ w, s₀.Fresh s w → s₀.Fresh (s.define r x c m) w := fun w hw => hw.later hst.knows.2
  refine .of_sameContents ⟨hst.wellFormed h.wellFormed, hst.acyclic h.acyclic, fun v hv => hst.knows.2 (h.grown v hv),
    ?_, ?_, ?_, ?_, ?_, ?_⟩ ⟨fun v => hst.knows.2, ?_⟩ hst
  · intro d y v hv
    rcases at?_define hv with hv | ⟨-, rfl⟩
    · exact hst.knows.2 (h.bound d y v hv)
    · exact hst.knows.2 hc.knows
  · intro p v hp
    rcases at?_define hp with hp | ⟨-, rfl⟩
    · exact h.natives p v hp
    · exact hc.admits.2
  · intro d y v hv
    rcases at?_define hv with hv | ⟨-, rfl⟩
    · exact (h.named d y v hv).imp_right (fresh v)
    · exact .inr (fresh v hc.fresh)
  · intro d i w hs hi
    exact fresh w (h.inner d i w hs (hst.part? ▸ hi))
  · intro p q d hd hs hp hq
    -- what was stored nowhere is now stored under the name only
    rcases at?_define hp with hp | ⟨rfl, rfl⟩ <;> rcases at?_define hq with hq | ⟨rfl, hdc⟩
    · exact h.once p q d hd hs hp hq
    · exact absurd hp (hdc ▸ hc.not_at? (hdc ▸ hd))
    · exact absurd hq (hc.not_at? hd)
    · rfl
  · intro d hd
    rw [isMarked_define] at hd
    exact stays d (h.marked d hd) (hc.ne_of_isMarked hd)
  · exact fun d hd hne => ⟨stays d hd (by simpa using hne), isMarked_define, hst.content⟩

/-- A container that loses its name is hidden afterwards. -/
theorem free_of_define (h : s₀.Tidy s) {m : Bool} (hv : s.at? (.name r x) = some v) (hf : s₀.Fresh s v)
    (hne : v.isContainer → v ≠ c) : s₀.Free (s.define r x c m) v := by
  rcases hf with hflat | ⟨hcon, hs, hk⟩
  · exact .inl (Value.isSimple_of_node?_none hflat (h.natives _ v hv))
  · refine .inr ⟨⟨hcon, hs, (SameContents.modifyScope s r _).knows.2 hk, fun p hp => ?_⟩, ?_⟩
    · rcases at?_define hp with hat | ⟨-, hvc⟩
      · -- its one place was the name, which holds another value now
        have hp' := h.once p _ v hcon hs hat hv
        subst hp'
        rw [at?_name_define, if_pos ⟨⟨rfl, lt_of_at?_name hv⟩, rfl⟩] at hp
        exact hne hcon (Option.some.inj hp).symm
      · exact hne hcon hvc
    · rw [isMarked_define]
      by_contra hm
      exact (h.marked v (by simpa using hm)).2.2.2 _ hv

/-- Pushing onto an array that a name stands for. -/
theorem push (h : s₀.Tidy s) (ha : s.at? (.name r x) = some (.array a)) (hc : s₀.Free s c) :
    s₀.Tidy (s.push a c) ∧ Keeps s₀ [c] s (s.push a c) := by
  have hk : s.Knows (.array a) := h.bound r x _ ha
  have hne : c ≠ .array a := by
    rintro rfl
    exact hc.not_at? rfl ha
  have fresh : ∀ w, s₀.Fresh s w → s₀.Fresh (s.push a c) w := fun w hw => hw.later knows_push.2
  have stays : ∀ d, s₀.Hidden s d → d ≠ c → s₀.Hidden (s.push a c) d := by
    intro d ⟨hd, hs, hkn, hp⟩ hdc
    refine ⟨hd, hs, knows_push.2 hkn, fun p hat => ?_⟩
    rcases at?_push hk hat with hat | ⟨-, hat⟩
    · exact hp p hat
    · exact hdc hat
  have hclosed := fun v hv => h.avoids (v := v) ha hv
  refine ⟨⟨h.wellFormed.modifyArray fun w hw => ?_, fun n => ?_, fun v hv => knows_push.2 (h.grown v hv), ?_, ?_, ?_, ?_, ?_,
    ?_⟩, fun v => knows_push.2, fun d hd hdc => ?_⟩
  · rcases Array.mem_push.1 hw with hw | rfl
    · exact h.wellFormed.children (v := .array a) (Array.mem_toList_iff.2 hw)
    · exact hc.knows
  · -- the new step leads to a tree that does not hold the array
    cases hd : c.node? with
    | none =>
      refine h.acyclic.of_steps (fun m n hstep => ?_) n
      rcases step_push hk hstep with hstep | ⟨-, hn⟩
      · exact hstep
      · simp [hd] at hn
    | some d =>
      refine not_transGen_of_edges_into (S := (· = .array a)) (d := d) (fun m n hstep => ?_) ?_ h.acyclic n
      · rcases step_push hk hstep with hstep | ⟨hm, hn⟩
        · exact .inl hstep
        · exact .inr ⟨hm, (Option.some.inj (hd.symm.trans hn)).symm⟩
      · rintro m rfl hp
        obtain ⟨w, ⟨-, hw⟩, hwn⟩ := path_closed hclosed ⟨hc.fresh, hne⟩ hd hp
        exact hw (Value.eq_array_of_node? hwn)
  · exact fun d y v hv => knows_push.2 (h.bound d y v hv)
  · intro p v hp
    rcases at?_push hk hp with hp | ⟨-, rfl⟩
    · exact h.natives p v hp
    · exact hc.admits.2
  · exact fun d y v hv => (h.named d y v hv).imp_right (fresh v)
  · intro d i w hs hi
    rcases at?_push (p := .inside d i) hk hi with hi | ⟨-, rfl⟩
    · exact fresh w (h.inner d i w hs hi)
    · exact fresh w hc.fresh
  · intro p q d hd hs hp hq
    rcases at?_push hk hp with hp | ⟨rfl, rfl⟩ <;> rcases at?_push hk hq with hq | ⟨rfl, hdc⟩
    · exact h.once p q d hd hs hp hq
    · exact absurd hp (hdc ▸ hc.not_at? (hdc ▸ hd))
    · exact absurd hq (hc.not_at? hd)
    · rfl
  · intro d hd
    rw [isMarked_push] at hd
    exact stays d (h.marked d hd) (hc.ne_of_isMarked hd)
  · refine ⟨stays d hd (by simpa using hdc), isMarked_push, h.content_push ha (.inr ⟨hd.1, hd.2.1, hd.2.2.1⟩) ?_⟩
    rintro rfl
    exact hd.2.2.2 _ ha

/-- Values that can be stored, each of them once, in a new array. -/
theorem newArray (h : s₀.Tidy s) {vs : List Value} (hvs : ∀ v ∈ vs, s₀.Free s v)
    (hone : Once vs) : Steady s₀ vs s (s.newArray vs.toArray).2 ∧
      s₀.Free (s.newArray vs.toArray).2 (.array (s.newArray vs.toArray).1) ∧
      ¬ s.Knows (.array (s.newArray vs.toArray).1) := by
  have hk := Extends.newArray s vs.toArray
  set t := (s.newArray vs.toArray).2 with ht
  set c : Value := .array (s.newArray vs.toArray).1 with hc
  have hnew : ¬ s.Knows c := by simp [hc, Knows, Store.newArray]
  have hpart : ∀ d i w, ¬ s.Knows d → t.part? d i = some w → d = c ∧ vs[i]? = some w := by
    intro d i w hd hi
    have hdc := ((knows_newArray (isContainer_of_part? hi)).1 (knows_of_part? hi)).resolve_left hd
    subst hdc
    rw [ht, part?_newArray_self, List.getElem?_toArray] at hi
    exact ⟨rfl, hi⟩
  -- places are the ones there were, and those inside the new array
  have at?_cases : ∀ p w, t.at? p = some w → s.at? p = some w ∨ ∃ i, p = .inside c i ∧ vs[i]? = some w := by
    intro p w hp
    rcases hk.at?_cases hp with hp | ⟨d, i, rfl, hd, hi⟩
    · exact .inl hp
    · obtain ⟨rfl, hvi⟩ := hpart d i w hd hi
      exact .inr ⟨i, rfl, hvi⟩
  have known : ∀ p w, t.at? p = some w → s.Knows w := by
    intro p w hp
    rcases at?_cases p w hp with hp | ⟨i, -, hi⟩
    · exact h.knows_at? hp
    · exact (hvs w (List.mem_of_getElem? hi)).knows
  have stays : ∀ d, s₀.Hidden s d → d ∉ vs → s₀.Hidden t d := by
    rintro d ⟨hd, hs, hkn, hp⟩ hdv
    refine ⟨hd, hs, hk.knows hkn, fun p hat => ?_⟩
    rcases at?_cases p d hat with hat | ⟨i, -, hi⟩
    · exact hp p hat
    · exact hdv (List.mem_of_getElem? hi)
  have grown := h.grown
  have hs₀ : ¬ s₀.Knows c := fun h0 => hnew (grown c h0)
  refine ⟨.of_extends h ⟨h.wellFormed.newArray (by simpa using fun v hv => (hvs v hv).knows), ?_,
    fun v hv => hk.knows (grown v hv), ?_, h.natives.newArray fun v hv => (hvs v hv).admits.2, ?_, ?_, ?_, ?_⟩ ⟨fun v => hk.knows, fun d hd hdv => ⟨stays d hd hdv,
      hk.isMarked hd.2.2.1, hk.content h.wellFormed hd.2.2.1⟩⟩ hk, .inr ⟨⟨rfl, hs₀, ?_, ?_⟩, isMarked_newArray hnew⟩, hnew⟩
  · -- everything that is held was known before
    apply acyclic_of_grounded
    intro m w hw
    obtain ⟨d, i, hi⟩ := part?_of_mem_held hw
    exact hk.grounded h.wellFormed (known (.inside d i) w hi) (h.acyclic.grounded w)
  · exact fun d y v hv => hk.knows (known _ v hv)
  · intro d y v hv
    rcases at?_cases _ v hv with hv | ⟨i, hp, -⟩
    · exact (h.named d y v hv).imp_right fun hf => hf.right hk
    · cases hp
  · intro d i w hs hi
    rcases at?_cases (.inside d i) w hi with hi | ⟨j, -, hj⟩
    · exact (h.inner d i w hs hi).right hk
    · exact (hvs w (List.mem_of_getElem? hj)).fresh.right hk
  · intro p q w hw hs hp hq
    rcases at?_cases p w hp with hp | ⟨i, rfl, hi⟩ <;> rcases at?_cases q w hq with hq | ⟨j, rfl, hj⟩
    · exact h.once p q w hw hs hp hq
    · exact absurd hp ((hvs w (List.mem_of_getElem? hj)).not_at? hw)
    · exact absurd hq ((hvs w (List.mem_of_getElem? hi)).not_at? hw)
    · rw [hone i j w hi hj hw]
  · intro d hd
    by_cases hds : s.Knows d
    · rw [hk.isMarked hds] at hd
      exact stays d (h.marked d hd) fun hdv => (hvs d hdv).ne_of_isMarked hd rfl
    · rw [ht, isMarked_newArray hds] at hd
      cases hd
  · exact (knows_newArray rfl).2 (.inr rfl)
  · exact fun p hp => hnew (known p c hp)

end Tidy

end Store

end CopyOnBind
