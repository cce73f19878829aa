import CopyOnBind.Proofs.Ready
/-!
# Two stores side by side

The stores of two runs of one program, of which only the second elides copies,
differ in which container stands where, and in which containers there are.
They are linked when what a name or an initial container holds in one of them
is alike in the other (`Linked`): the same initial container, or two values of
one plain content made since.

While an expression is evaluated, the two runs hold values of one content too.
Most of them are twins, which later evaluation keeps (`Twin`). A call result is
not: in the second run it is a marked copy that nothing changes, in the first
one the value itself, which may be bound elsewhere (`Held`).
-/

namespace CopyOnBind

namespace Store

variable {s₀ s t s₁ t₁ : Store} {v v' w w' c c' : Value} {A B : List Value} {e r : ScopeId} {x : String}

/-! ## Scopes side by side -/

/-- The same scopes with the same names, whatever the names hold. -/
structure Frames (s t : Store) : Prop where
  size : t.scopes.size = s.scopes.size
  parent : ∀ e, (t.scope e).parent = (s.scope e).parent
  isMutable : ∀ e x, ((t.scope e).find? x).map Binding.isMutable = ((s.scope e).find? x).map Binding.isMutable

namespace Frames

theorem of_scopes (h : Frames s t) (hs : s₁.scopes = s.scopes) (ht : t₁.scopes = t.scopes) : Frames s₁ t₁ := by
  have hscope : ∀ e, s₁.scope e = s.scope e := fun e => by simp only [scope, hs]
  have hscope' : ∀ e, t₁.scope e = t.scope e := fun e => by simp only [scope, ht]
  exact ⟨by rw [hs, ht, h.size], fun e => by rw [hscope, hscope', h.parent], fun e x => by rw [hscope, hscope', h.isMutable]⟩

theorem resolve (h : Frames s t) : t.resolve e x = s.resolve e x := by
  have hbinds : ∀ e, (t.scope e).binds x = (s.scope e).binds x := by
    intro e
    simpa only [Scope.binds, Option.isSome_map] using congrArg Option.isSome (h.isMutable e x)
  have hwithin : ∀ n e, t.resolveWithin x n e = s.resolveWithin x n e := by
    intro n
    induction n with
    | zero => exact fun _ => rfl
    | succ n ih =>
      intro e
      unfold resolveWithin
      rw [hbinds, h.parent, funext ih]
  exact hwithin _ e

theorem newScope (h : Frames s t) (parent : Option ScopeId) : Frames (s.newScope parent).2 (t.newScope parent).2 where
  size := by simp [Store.newScope, h.size]
  parent e := by
    by_cases he : e.index = s.scopes.size
    · have hs : e = (s.newScope parent).1 := congrArg ScopeId.mk he
      have ht : e = (t.newScope parent).1 := congrArg ScopeId.mk (he.trans h.size.symm)
      rw [hs, scope_newScope_self, ← hs, ht, scope_newScope_self]
    · rw [scope_newScope_of_ne he, scope_newScope_of_ne (h.size ▸ he), h.parent]
  isMutable e x := by simpa only [Scope.find?, scope_newScope] using h.isMutable e x

theorem define (h : Frames s t) {m : Bool} : Frames (s.define r x c m) (t.define r x c' m) where
  size := by simp [Store.define, modifyScope, h.size]
  parent e := by
    rw [scope_define, scope_define, h.size]
    split
    · simp only [Scope.parent_define, h.parent]
    · exact h.parent e
  isMutable e y := by
    rw [scope_define, scope_define, h.size]
    split
    · rw [Scope.find?_define, Scope.find?_define]
      split
      · rfl
      · exact h.isMutable e y
    · exact h.isMutable e y

end Frames

/-! ## Linked stores -/

/-- The same container of the start, or values of one content made since. -/
def Alike (s₀ s t : Store) (v v' : Value) : Prop :=
  (v' = v ∧ v.isContainer ∧ s₀.Knows v) ∨ (s₀.Fresh s v ∧ s₀.Fresh t v' ∧ Ready s t v v')

/-- Values of one content that can be stored as they are. -/
structure Paired (s₀ s t : Store) (v v' : Value) : Prop where
  off : s₀.Free s v
  on : s₀.Free t v'
  ready : Ready s t v v'

/-- Values that later evaluation keeps of one content. -/
inductive Twin (s₀ s t : Store) : Value → Value → Prop
  | paired (v v' : Value) : Paired s₀ s t v v' → Twin s₀ s t v v'
  | old (v : Value) : v.isContainer → s₀.Knows v → Twin s₀ s t v v
  | named (e : ScopeId) (x : String) (v v' : Value) :
    s.at? (.name e x) = some v → t.at? (.name e x) = some v' → Twin s₀ s t v v'

/-- A call result: `v'` is a marked copy of `v`. -/
structure Held (s t : Store) (v v' : Value) : Prop where
  knows : s.Knows v
  marked : t.isMarked v' = true
  ready : Ready s t v v'

def Given (s₀ s t : Store) (v v' : Value) : Prop := Twin s₀ s t v v' ∨ Held s t v v'

/-- Stores of two runs that began with `s₀`, the first without marks. -/
structure Linked (s₀ s t : Store) : Prop where
  off : s₀.Tidy s
  on : s₀.Tidy t
  unmarked : ∀ v, s.isMarked v = false
  frames : Frames s t
  names : ∀ e x, Option.Rel (Alike s₀ s t) (s.at? (.name e x)) (t.at? (.name e x))
  arrays : ∀ a, s₀.Knows (.array a) →
    List.Forall₂ (Alike s₀ s t) (s.array a).elements.toList (t.array a).elements.toList
  tables : ∀ i, s₀.Knows (.hash i) → s.SameAt t (.hash i) ∧
    ∀ e ∈ (s.hash i).entries, ∀ v ∈ e.value, Alike s₀ s t v v

theorem forall₂_imp_mem {α β : Type} {R S : α → β → Prop} {l : List α} {l' : List β} (h : List.Forall₂ R l l')
    (hRS : ∀ a ∈ l, ∀ b ∈ l', R a b → S a b) : List.Forall₂ S l l' := by
  induction h with
  | nil => exact .nil
  | cons hab _ ih =>
    exact .cons (hRS _ (by simp) _ (by simp) hab) (ih fun a ha b hb => hRS a (by simp [ha]) b (by simp [hb]))

/-- A container of the start is alike to itself only. -/
theorem Alike.eq_of_knows (h : Alike s₀ s t v v') (hc : v.isContainer) (hc' : v'.isContainer)
    (hk : s₀.Knows v ∨ s₀.Knows v') : v' = v := by
  rcases h with ⟨heq, -⟩ | ⟨hf, hf', -⟩
  · exact heq
  · exact absurd hk (not_or.2 ⟨hf.not_knows hc, hf'.not_knows hc'⟩)

theorem rel_imp_mem {α β : Type} {R S : α → β → Prop} {o : Option α} {o' : Option β} (h : Option.Rel R o o')
    (hRS : ∀ a ∈ o, ∀ b ∈ o', R a b → S a b) : Option.Rel S o o' := by
  cases h with
  | some hab => exact .some (hRS _ rfl _ rfl hab)
  | none => exact .none

theorem Paired.alike (h : Paired s₀ s t v v') : Alike s₀ s t v v' := .inr ⟨h.off.fresh, h.on.fresh, h.ready⟩

theorem paired_simple (hv : v.isSimple) (hp : v.eqFlat v = true) : Paired s₀ s t v v :=
  ⟨.inl hv, .inl hv, .flat (Value.node?_of_isSimple hv) hp⟩

namespace Linked

/-- Alike values have one content. For the containers of the start this is an
induction on the paths from them. -/
theorem ready (h : Linked s₀ s t) (hv : Alike s₀ s t v v') : Ready s t v v' := by
  have old : ∀ k v, s.Within k v → v.isContainer → s₀.Knows v → Ready s t v v := by
    intro k
    induction k with
    | zero => exact fun v hv hc => absurd hv (node?_ne_none hc)
    | succ k ih =>
      have part : ∀ v v', s.Within k v → Alike s₀ s t v v' → Ready s t v v' := by
        rintro v v' hv (⟨rfl, hc, hk⟩ | ⟨-, -, hready⟩)
        · exact ih v' hv hc hk
        · exact hready
      intro v hv hc hk
      cases v with
      | array a =>
        rw [ready_array_iff h.off.acyclic h.on.acyclic]
        exact forall₂_imp_mem (h.arrays a hk) fun u hu u' _ => part u u' (hv u hu)
      | hash i =>
        obtain ⟨⟨he, hn⟩, hvalues⟩ := h.tables i hk
        apply ready_hash h.off.acyclic h.on.acyclic he hn
        intro e hmem u hu
        exact part u u (hv u (List.mem_filterMap.2 ⟨e, hmem, hu⟩)) (hvalues e hmem u hu)
      | _ => cases hc
  rcases hv with ⟨rfl, hc, hk⟩ | ⟨-, -, hready⟩
  · obtain ⟨k, hw⟩ := h.off.acyclic.grounded v'
    exact old k v' hw hc hk
  · exact hready

theorem alike_of_named (h : Linked s₀ s t) (hv : s.at? (.name e x) = some v) (hv' : t.at? (.name e x) = some v') :
    Alike s₀ s t v v' := by
  have hrel := h.names e x
  rw [hv, hv'] at hrel
  cases hrel with
  | some halike => exact halike

theorem ready_of_twin (h : Linked s₀ s t) (hv : Twin s₀ s t v v') : Ready s t v v' := by
  cases hv with
  | paired _ _ hp => exact hp.ready
  | old _ hc hk => exact h.ready (.inl ⟨rfl, hc, hk⟩)
  | named e x _ _ hv hv' => exact h.ready (h.alike_of_named hv hv')

theorem ready_of_given (h : Linked s₀ s t) (hv : Given s₀ s t v v') : Ready s t v v' :=
  hv.elim h.ready_of_twin Held.ready

theorem admits_of_twin (h : Linked s₀ s t) (hv : Twin s₀ s t v v') : s.Admits v ∧ t.Admits v' := by
  cases hv with
  | paired _ _ hp => exact ⟨hp.off.admits, hp.on.admits⟩
  | old _ hc hk =>
    have hkind := Value.kind_of_isContainer hc
    exact ⟨⟨h.off.grown _ hk, hkind⟩, h.on.grown _ hk, hkind⟩
  | named e x _ _ hv hv' => exact ⟨h.off.admits_at? hv, h.on.admits_at? hv'⟩

theorem admits_of_given (h : Linked s₀ s t) (hv : Given s₀ s t v v') : s.Admits v ∧ t.Admits v' := by
  rcases hv with hv | hv
  · exact h.admits_of_twin hv
  · have hc' := isContainer_of_isMarked hv.marked
    have hc : v.isContainer := by
      rcases hv.ready.flat_or_container with ⟨rfl, -⟩ | ⟨hc, -⟩
      · exact hc'
      · exact hc
    exact ⟨⟨hv.knows, Value.kind_of_isContainer hc⟩, (h.on.marked v' hv.marked).2.2.1, Value.kind_of_isContainer hc'⟩

theorem not_marked_of_twin (h : Linked s₀ s t) (hv : Twin s₀ s t v v') : t.isMarked v' = false := by
  cases hv with
  | paired _ _ hp => exact hp.on.not_marked
  | old _ _ hk =>
    by_contra hm
    exact (h.on.marked v (by simpa using hm)).2.1 hk
  | named e x _ _ _ hv' =>
    by_contra hm
    exact (h.on.marked v' (by simpa using hm)).2.2.2 _ hv'

end Linked

/-! ## Steady changes of linked stores -/

theorem Alike.steady (h : Alike s₀ s t v v') (hs : Steady s₀ A s s₁) (ht : Steady s₀ B t t₁) : Alike s₀ s₁ t₁ v v' := by
  refine h.imp_right fun ⟨hv, hv', hready⟩ => ⟨?_, ?_, hready.congr (hs.content v hv.knows) (ht.content v' hv'.knows)⟩
  · exact hv.later (hs.keeps.knows v)
  · exact hv'.later (ht.keeps.knows v')

theorem Linked.steady (h : Linked s₀ s t) (hs : Steady s₀ A s s₁) (ht : Steady s₀ B t t₁) (hf : Frames s₁ t₁)
    (hm : ∀ v, s₁.isMarked v = false)
    (hn : ∀ e x, Option.Rel (Alike s₀ s₁ t₁) (s₁.at? (.name e x)) (t₁.at? (.name e x))) : Linked s₀ s₁ t₁ where
  off := hs.tidy
  on := ht.tidy
  unmarked := hm
  frames := hf
  names := hn
  arrays a ha := by
    rw [show (s₁.array a).elements = _ from hs.same _ (h.off.grown _ ha),
      show (t₁.array a).elements = _ from ht.same _ (h.on.grown _ ha)]
    exact (h.arrays a ha).imp fun v v' hv => hv.steady hs ht
  tables i hi := by
    obtain ⟨⟨he, hg⟩, hvalues⟩ := h.tables i hi
    obtain ⟨hse, hsg⟩ := hs.same _ (h.off.grown _ hi)
    obtain ⟨hte, htg⟩ := ht.same _ (h.on.grown _ hi)
    refine ⟨⟨by rw [hte, he, hse], by rw [htg, hg, hsg]⟩, fun e hmem v hv => ?_⟩
    exact (hvalues e (hse ▸ hmem) v hv).steady hs ht

/-- Names that hold what they held are still alike. -/
theorem Linked.steady_of_scopes (h : Linked s₀ s t) (hs : Steady s₀ A s s₁) (ht : Steady s₀ B t t₁)
    (hf : Frames s₁ t₁) (hm : ∀ v, s₁.isMarked v = false) (hn : ∀ e x, s₁.at? (.name e x) = s.at? (.name e x))
    (hn' : ∀ e x, t₁.at? (.name e x) = t.at? (.name e x)) : Linked s₀ s₁ t₁ := by
  apply h.steady hs ht hf hm
  intro e x
  rw [hn, hn']
  exact rel_imp_mem (h.names e x) fun v _ v' _ hv => hv.steady hs ht

theorem Paired.steady (h : Paired s₀ s t v v') (hs : Steady s₀ A s s₁) (ht : Steady s₀ B t t₁)
    (hA : v.isContainer → v ∉ A) (hB : v'.isContainer → v' ∉ B) : Paired s₀ s₁ t₁ v v' where
  off := hs.keeps.free h.off hA
  on := ht.keeps.free h.on hB
  ready := h.ready.congr (hs.content v h.off.knows) (ht.content v' h.on.knows)

theorem Free.content_of_keeps (hc : s₀.Free s c) (h : Keeps s₀ [] s t) : t.content c = s.content c := by
  rcases hc with hsimple | ⟨hc, -⟩
  · have hflat := Value.node?_of_isSimple hsimple
    exact (contentWithin_flat hflat).trans (contentWithin_flat hflat).symm
  · exact (h.hidden c hc (by simp)).2.2

theorem Paired.keeps (h : Paired s₀ s t v v') (hs : Keeps s₀ [] s s₁) (ht : Keeps s₀ [] t t₁) : Paired s₀ s₁ t₁ v v' where
  off := hs.free h.off (by simp)
  on := ht.free h.on (by simp)
  ready := h.ready.congr (h.off.content_of_keeps hs) (h.on.content_of_keeps ht)

theorem Twin.steady (h : Twin s₀ s t v v') (hs : Steady s₀ A s s₁) (ht : Steady s₀ B t t₁)
    (hn : ∀ e x, s₁.at? (.name e x) = s.at? (.name e x)) (hn' : ∀ e x, t₁.at? (.name e x) = t.at? (.name e x))
    (hA : v.isContainer → v ∉ A) (hB : v'.isContainer → v' ∉ B) : Twin s₀ s₁ t₁ v v' := by
  cases h with
  | paired _ _ hp => exact .paired v v' (hp.steady hs ht hA hB)
  | old _ hc hk => exact .old v hc hk
  | named e x _ _ hv hv' => exact .named e x v v' ((hn e x).trans hv) ((hn' e x).trans hv')

theorem Held.steady (h : Held s t v v') (hl : Linked s₀ s t) (hs : Steady s₀ A s s₁) (ht : Steady s₀ B t t₁)
    (hB : v' ∉ B) : Held s₁ t₁ v v' := by
  have hidden := hl.on.marked v' h.marked
  obtain ⟨-, hm, -⟩ := ht.keeps.hidden v' hidden hB
  exact ⟨hs.keeps.knows v h.knows, hm.trans h.marked, h.ready.congr (hs.content v h.knows) (ht.content v' hidden.2.2.1)⟩

/-! ## Copies on both sides -/

/-- `c` and `c'` are copies of two given values. -/
structure Copied (s₀ s t s₁ t₁ : Store) (v v' c c' : Value) : Prop where
  off : Taken s₀ s v c s₁
  on : Taken s₀ t v' c' t₁
  linked : Linked s₀ s₁ t₁
  paired : Paired s₀ s₁ t₁ c c'

/-- Without marks nothing is taken as it is. -/
theorem Linked.consumed_eq_nil (h : Linked s₀ s t) : s.consumed v = [] := by
  unfold consumed
  rw [h.unmarked, if_neg (by simp)]

theorem Linked.copied (h : Linked s₀ s t) (hv : Given s₀ s t v v') :
    ∃ c c' s₁ t₁, s.copy v = some (c, s₁) ∧ t.copy v' = some (c', t₁) ∧ Copied s₀ s t s₁ t₁ v v' c c' := by
  obtain ⟨T, hT, hcontent, hcontent'⟩ := h.ready_of_given hv
  obtain ⟨hk, hk'⟩ := h.admits_of_given hv
  obtain ⟨c, s₁, hc, hs⟩ := h.off.exists_copy hk
  obtain ⟨c', t₁, hc', ht⟩ := h.on.exists_copy hk'
  have hready : Ready s₁ t₁ c c' := ⟨T, hT, hs.content_of_plain hT hcontent, ht.content_of_plain hT hcontent'⟩
  refine ⟨c, c', s₁, t₁, hc, hc', hs, ht, ?_, hs.free, ht.free, hready⟩
  refine h.steady_of_scopes hs.toSteady ht.toSteady (h.frames.of_scopes hs.scopes ht.scopes) (fun u => ?_)
    (fun e x => at?_name_of_scopes hs.scopes) fun e x => at?_name_of_scopes ht.scopes
  by_contra hu
  simpa [h.unmarked u] using hs.marks u (by simpa using hu)

/-- A twin is not marked, so it is not what a marked value is. -/
theorem Linked.twin_ne (h : Linked s₀ s t) (hw : Twin s₀ s t w w') (hm : t.isMarked v' = true) : w' ≠ v' := by
  rintro rfl
  rw [h.not_marked_of_twin hw] at hm
  cases hm

namespace Copied

theorem twin (h : Copied s₀ s t s₁ t₁ v v' c c') (hl : Linked s₀ s t) (hw : Twin s₀ s t w w') : Twin s₀ s₁ t₁ w w' := by
  refine hw.steady h.off.toSteady h.on.toSteady (fun e x => at?_name_of_scopes h.off.scopes)
    (fun e x => at?_name_of_scopes h.on.scopes) (by simp [hl.consumed_eq_nil]) fun _ hmem => ?_
  obtain ⟨heq, hm⟩ := mem_consumed.1 hmem
  exact hl.twin_ne hw hm heq

/-- Given values stay given, except the one that was copied. -/
theorem given (h : Copied s₀ s t s₁ t₁ v v' c c') (hl : Linked s₀ s t) (hw : Given s₀ s t w w')
    (hne : t.isMarked v' = true → w' ≠ v') : Given s₀ s₁ t₁ w w' := by
  apply hw.imp (h.twin hl)
  intro hw
  apply hw.steady hl h.off.toSteady h.on.toSteady
  intro hmem
  obtain ⟨heq, hm⟩ := mem_consumed.1 hmem
  exact hne hm heq

theorem ne (h : Copied s₀ s t s₁ t₁ v v' c c') (hl : Linked s₀ s t) (hw : Given s₀ s t w w')
    (hne : t.isMarked v' = true → w' ≠ v') : (w.isContainer → w ∉ [c]) ∧ (w'.isContainer → w' ∉ [c']) := by
  obtain ⟨⟨hk, -⟩, hk', -⟩ := hl.admits_of_given hw
  constructor
  · intro hc hmem
    rw [List.mem_singleton] at hmem
    subst hmem
    simpa [hl.consumed_eq_nil] using h.off.known hc hk
  · intro hc hmem
    rw [List.mem_singleton] at hmem
    subst hmem
    obtain ⟨heq, hm⟩ := mem_consumed.1 (h.on.known hc hk')
    exact hne hm heq

theorem twin_ne (h : Copied s₀ s t s₁ t₁ v v' c c') (hl : Linked s₀ s t) (hw : Twin s₀ s t w w') :
    (w.isContainer → w ∉ [c]) ∧ (w'.isContainer → w' ∉ [c']) :=
  h.ne hl (.inl hw) (hl.twin_ne hw)

end Copied

/-! ## Definitions on both sides -/

theorem Linked.define (h : Linked s₀ s t) (hc : Paired s₀ s t c c') (m : Bool) :
    Linked s₀ (s.define r x c m) (t.define r x c' m) := by
  have hs := h.off.define (r := r) (x := x) hc.off m
  have ht := h.on.define (r := r) (x := x) hc.on m
  apply h.steady hs ht h.frames.define (fun v => isMarked_define.trans (h.unmarked v))
  intro e y
  rw [at?_name_define, at?_name_define, h.frames.size]
  split
  · exact .some (hc.alike.steady hs ht)
  · exact rel_imp_mem (h.names e y) fun v _ v' _ hv => hv.steady hs ht

theorem Twin.define (h : Twin s₀ s t v v') (hl : Linked s₀ s t) (hc : Paired s₀ s t c c') (m : Bool)
    (hv : v.isContainer → v ∉ [c]) (hv' : v'.isContainer → v' ∉ [c']) :
    Twin s₀ (s.define r x c m) (t.define r x c' m) v v' := by
  have hs := hl.off.define (r := r) (x := x) hc.off m
  have ht := hl.on.define (r := r) (x := x) hc.on m
  cases h with
  | paired _ _ hp => exact .paired v v' (hp.steady hs ht hv hv')
  | old _ hcon hk => exact .old v hcon hk
  | named e y _ _ hat hat' =>
    by_cases hexy : (e = r ∧ r.index < s.scopes.size) ∧ y = x
    · obtain ⟨⟨rfl, -⟩, rfl⟩ := hexy
      rcases hl.alike_of_named hat hat' with ⟨rfl, hcon, hk⟩ | ⟨hf, hf', hready⟩
      · exact .old _ hcon hk
      · -- the name holds the copies now, and what it held is hidden
        refine .paired v v' ⟨hl.off.free_of_define hat hf ?_, hl.on.free_of_define hat' hf' ?_,
          hready.congr (hs.content v hf.knows) (ht.content v' hf'.knows)⟩
        · simpa using hv
        · simpa using hv'
    · refine .named e y v v' ?_ ?_
      · rw [at?_name_define, if_neg hexy, hat]
      · rw [at?_name_define, hl.frames.size, if_neg hexy, hat']

theorem Given.define (h : Given s₀ s t v v') (hl : Linked s₀ s t) (hc : Paired s₀ s t c c') (m : Bool)
    (hv : v.isContainer → v ∉ [c]) (hv' : v'.isContainer → v' ∉ [c']) :
    Given s₀ (s.define r x c m) (t.define r x c' m) v v' := by
  apply h.imp (fun h => h.define hl hc m hv hv')
  intro h
  exact h.steady hl (hl.off.define hc.off m) (hl.on.define hc.on m) (hv' (isContainer_of_isMarked h.marked))

theorem Linked.assign (h : Linked s₀ s t) (hc : Paired s₀ s t c c') : (t.assign e x c').1 = (s.assign e x c).1 ∧
    Linked s₀ (s.assign e x c).2 (t.assign e x c').2 ∧
      ∀ v v', Twin s₀ s t v v' → (v.isContainer → v ∉ [c]) → (v'.isContainer → v' ∉ [c']) →
        Twin s₀ (s.assign e x c).2 (t.assign e x c').2 v v' := by
  unfold Store.assign
  rw [h.frames.resolve]
  cases s.resolve e x with
  | none => exact ⟨rfl, h, fun _ _ hv _ _ => hv⟩
  | some r =>
    have hmutable := h.frames.isMutable r x
    cases hb : (s.scope r).find? x <;> cases hb' : (t.scope r).find? x <;> rw [hb, hb'] at hmutable <;>
      simp only [hb, hb']
    · exact ⟨trivial, h, fun _ _ hv _ _ => hv⟩
    · cases hmutable
    · cases hmutable
    · simp only [Option.map_some, Option.some.injEq] at hmutable
      rw [hmutable]
      split
      · exact ⟨rfl, h.define hc true, fun v v' hv => hv.define h hc true⟩
      · exact ⟨rfl, h, fun _ _ hv _ _ => hv⟩

theorem lookup_eq : s.lookup e x = (s.resolve e x).bind fun r => s.at? (.name r x) := by
  unfold lookup binding?
  cases s.resolve e x <;> rfl

/-- A name has a value in both stores or in neither. -/
theorem Linked.lookup (h : Linked s₀ s t) : (s.lookup e x = none ∧ t.lookup e x = none) ∨
    ∃ r v v', s.lookup e x = some v ∧ t.lookup e x = some v' ∧ s.at? (.name r x) = some v ∧
      t.at? (.name r x) = some v' := by
  rw [lookup_eq, lookup_eq, h.frames.resolve]
  cases s.resolve e x with
  | none => exact .inl ⟨rfl, rfl⟩
  | some r =>
    have hrel := h.names r x
    simp only [Option.bind_some]
    cases hv : s.at? (.name r x) <;> cases hv' : t.at? (.name r x) <;> rw [hv, hv'] at hrel
    · exact .inl ⟨rfl, rfl⟩
    · cases hrel
    · cases hrel
    · exact .inr ⟨r, _, _, rfl, rfl, hv, hv'⟩

/-! ## Pushes on both sides -/

section Push

variable {a a' : ArrayId}

theorem Linked.alike_push (h : Linked s₀ s t) (ha : s.at? (.name r x) = some (.array a))
    (ha' : t.at? (.name r x) = some (.array a')) (hv : Alike s₀ s t v v') (hne : s₀.Fresh s v → v ≠ .array a)
    (hne' : s₀.Fresh t v' → v' ≠ .array a') : Alike s₀ (s.push a c) (t.push a' c') v v' := by
  refine hv.imp_right fun ⟨hf, hf', hready⟩ => ⟨hf.later knows_push.2, hf'.later knows_push.2, ?_⟩
  exact hready.congr (h.off.content_push ha hf (hne hf)) (h.on.content_push ha' hf' (hne' hf'))

/-- The arrays that were pushed onto are alike again. -/
theorem Linked.alike_pushed (h : Linked s₀ s t) (ha : s.at? (.name r x) = some (.array a))
    (ha' : t.at? (.name r x) = some (.array a')) (hc : Paired s₀ s t c c') :
    Alike s₀ (s.push a c) (t.push a' c') (.array a) (.array a') := by
  refine (h.alike_of_named ha ha').imp_right fun ⟨hf, hf', hready⟩ => ⟨hf.later knows_push.2, hf'.later knows_push.2, ?_⟩
  have hs := (h.off.push ha hc.off).1
  have ht := (h.on.push ha' hc.on).1
  rw [ready_array_iff h.off.acyclic h.on.acyclic] at hready
  rw [ready_array_iff hs.acyclic ht.acyclic, elements_push (h.off.bound r x _ ha), elements_push (h.on.bound r x _ ha')]
  refine List.rel_append (forall₂_imp_mem hready fun w hw w' hw' hready => ?_) (.cons ?_ .nil)
  · -- elements made since are not the array itself, so the push keeps their content
    obtain ⟨i, hi⟩ := exists_place_of_mem_elements hw
    obtain ⟨i', hi'⟩ := exists_place_of_mem_elements hw'
    have hfresh := h.off.inner _ i w (hf.not_knows rfl) hi
    have hfresh' := h.on.inner _ i' w' (hf'.not_knows rfl) hi'
    exact hready.congr (h.off.content_push ha hfresh (h.off.ne_of_place ha hi (by simp) hfresh))
      (h.on.content_push ha' hfresh' (h.on.ne_of_place ha' hi' (by simp) hfresh'))
  · refine hc.ready.congr (h.off.content_push ha hc.off.fresh ?_) (h.on.content_push ha' hc.on.fresh ?_)
    · rintro rfl
      exact hc.off.not_at? rfl ha
    · rintro rfl
      exact hc.on.not_at? rfl ha'

theorem Linked.push (h : Linked s₀ s t) (ha : s.at? (.name r x) = some (.array a))
    (ha' : t.at? (.name r x) = some (.array a')) (hc : Paired s₀ s t c c') :
    Linked s₀ (s.push a c) (t.push a' c') := by
  have hpushed := h.alike_pushed ha ha' hc
  have hat : ∀ e y, (s.push a c).at? (.name e y) = s.at? (.name e y) := fun _ _ => rfl
  have hat' : ∀ e y, (t.push a' c').at? (.name e y) = t.at? (.name e y) := fun _ _ => rfl
  -- alike values that are stored anywhere but under the name stay alike
  have keep : ∀ p v p' v', s.at? p = some v → p ≠ .name r x → t.at? p' = some v' → p' ≠ .name r x →
      Alike s₀ s t v v' → Alike s₀ (s.push a c) (t.push a' c') v v' := fun p v p' v' hp hne hp' hne' hv =>
    h.alike_push ha ha' hv (h.off.ne_of_place ha hp hne) (h.on.ne_of_place ha' hp' hne')
  have elements : ∀ b, s₀.Knows (.array b) → List.Forall₂ (Alike s₀ (s.push a c) (t.push a' c'))
      (s.array b).elements.toList (t.array b).elements.toList := fun b hb =>
    forall₂_imp_mem (h.arrays b hb) fun w hw w' hw' halike => by
      obtain ⟨i, hi⟩ := exists_place_of_mem_elements hw
      obtain ⟨i', hi'⟩ := exists_place_of_mem_elements hw'
      exact keep _ w _ w' hi (by simp) hi' (by simp) halike
  refine ⟨(h.off.push ha hc.off).1, (h.on.push ha' hc.on).1, fun v => isMarked_push.trans (h.unmarked v),
    h.frames.of_scopes rfl rfl, fun e y => ?_, fun b hb => ?_, fun i hi => ?_⟩
  · rw [hat, hat']
    apply rel_imp_mem (h.names e y)
    intro v hv v' hv' halike
    by_cases hexy : Place.name e y = .name r x
    · cases hexy
      cases ha.symm.trans hv
      cases ha'.symm.trans hv'
      exact hpushed
    · exact keep _ v _ v' hv hexy hv' hexy halike
  · have heq := (h.alike_of_named ha ha').eq_of_knows rfl rfl
    by_cases hb' : b = a ∨ b = a'
    · -- a push onto an array of the start, which is one array on both sides
      have haa' : a' = a := Value.array.inj (heq (hb'.imp (fun (hba : b = a) => hba ▸ hb) fun (hba : b = a') => hba ▸ hb))
      have hba : b = a := hb'.elim id fun hba => hba.trans haa'
      subst haa' hba
      rw [elements_push (h.off.bound r x _ ha), elements_push (h.on.bound r x _ ha')]
      refine List.rel_append (elements b hb) (.cons (h.alike_push ha ha' hc.alike ?_ ?_) .nil)
      · rintro - rfl
        exact hc.off.not_at? rfl ha
      · rintro - rfl
        exact hc.on.not_at? rfl ha'
    · rw [not_or] at hb'
      unfold Store.push
      rw [array_modifyArray_of_ne hb'.1, array_modifyArray_of_ne hb'.2]
      exact elements b hb
  · obtain ⟨hsame, hvalues⟩ := h.tables i hi
    refine ⟨hsame, fun e he v hv => ?_⟩
    obtain ⟨j, hj⟩ : ∃ j, s.at? (.inside (.hash i) j) = some v :=
      mem_values_iff.1 (List.mem_filterMap.2 ⟨e, he, hv⟩)
    have hj' : t.at? (.inside (.hash i) j) = some v := by
      rw [← hj]
      simp only [at?, part?, hsame.1]
    exact keep _ v _ v hj (by simp) hj' (by simp) (hvalues e he v hv)

theorem Twin.push (h : Twin s₀ s t v v') (hl : Linked s₀ s t) (ha : s.at? (.name r x) = some (.array a))
    (ha' : t.at? (.name r x) = some (.array a')) (hc : Paired s₀ s t c c')
    (hv : v.isContainer → v ∉ [c]) (hv' : v'.isContainer → v' ∉ [c']) :
    Twin s₀ (s.push a c) (t.push a' c') v v' := by
  cases h with
  | paired _ _ hp =>
    refine .paired v v' ⟨(hl.off.push ha hc.off).2.free hp.off hv, (hl.on.push ha' hc.on).2.free hp.on hv',
      hp.ready.congr (hl.off.content_push ha hp.off.fresh ?_) (hl.on.content_push ha' hp.on.fresh ?_)⟩
    · rintro rfl
      exact hp.off.not_at? rfl ha
    · rintro rfl
      exact hp.on.not_at? rfl ha'
  | old _ hcon hk => exact .old v hcon hk
  | named e y _ _ hat hat' => exact .named e y v v' hat hat'

end Push

/-! ## New scopes, new arrays and call results on both sides -/

theorem Linked.newScope (h : Linked s₀ s t) (parent : Option ScopeId) :
    Linked s₀ (s.newScope parent).2 (t.newScope parent).2 ∧
      (∀ v v', Twin s₀ s t v v' → Twin s₀ (s.newScope parent).2 (t.newScope parent).2 v v') ∧
      ∀ v v', Held s t v v' → Held (s.newScope parent).2 (t.newScope parent).2 v v' := by
  have hs := h.off.newScope parent
  have ht := h.on.newScope parent
  refine ⟨?_, fun v v' hv => ?_, fun v v' hv => hv.steady h hs ht (by simp)⟩
  · exact h.steady_of_scopes hs ht (h.frames.newScope parent) (fun v => isMarked_newScope.trans (h.unmarked v))
      (fun _ _ => at?_newScope) fun _ _ => at?_newScope
  · exact hv.steady hs ht (fun _ _ => at?_newScope) (fun _ _ => at?_newScope) (by simp) (by simp)

theorem Linked.newArray (h : Linked s₀ s t) {cs cs' : List Value} (hcs : List.Forall₂ (Paired s₀ s t) cs cs')
    (hone : Once cs) (hone' : Once cs') : Linked s₀ (s.newArray cs.toArray).2 (t.newArray cs'.toArray).2 ∧
      Paired s₀ (s.newArray cs.toArray).2 (t.newArray cs'.toArray).2 (.array (s.newArray cs.toArray).1)
        (.array (t.newArray cs'.toArray).1) ∧
      ∀ v v', Twin s₀ s t v v' → (v.isContainer → v ∉ cs) → (v'.isContainer → v' ∉ cs') →
        Twin s₀ (s.newArray cs.toArray).2 (t.newArray cs'.toArray).2 v v' := by
  have hoff := ((List.forall₂_and_left (p := s₀.Free s) cs cs').1 (hcs.imp fun _ _ hv => ⟨hv.off, hv⟩)).1
  have hflip : List.Forall₂ (fun v' v => Paired s₀ s t v v') cs' cs := .flip hcs
  have hon := ((List.forall₂_and_left (p := s₀.Free t) cs' cs).1 (hflip.imp fun _ _ hv => ⟨hv.on, hv⟩)).1
  obtain ⟨hs, hfree, -⟩ := h.off.newArray hoff hone
  obtain ⟨ht, hfree', -⟩ := h.on.newArray hon hone'
  refine ⟨?_, ⟨hfree, hfree', ?_⟩, fun v v' hv hvc hvc' => ?_⟩
  · refine h.steady_of_scopes hs ht (h.frames.of_scopes rfl rfl) (fun v => ?_) (fun _ _ => rfl) fun _ _ => rfl
    by_cases hk : s.Knows v
    · rw [(Extends.newArray s _).isMarked hk, h.unmarked]
    · exact isMarked_newArray hk
  · rw [ready_array_iff hs.tidy.acyclic ht.tidy.acyclic, array_newArray_self, array_newArray_self]
    exact hcs.imp fun v v' hv => hv.ready.congr (hs.content v hv.off.knows) (ht.content v' hv.on.knows)
  · exact hv.steady hs ht (fun _ _ => rfl) (fun _ _ => rfl) hvc hvc'

/-- What a call hands back: the value in the first run, a marked copy in the second. -/
theorem Linked.handedBack (h : Linked s₀ s t) (hv : Given s₀ s t v v') : ∃ c t₁, t.copy v' = some (c, t₁) ∧
    Linked s₀ s (t₁.mark c) ∧ Given s₀ s (t₁.mark c) v c ∧
      ∀ w w', Twin s₀ s t w w' → Twin s₀ s (t₁.mark c) w w' := by
  obtain ⟨T, hT, hcontent, hcontent'⟩ := h.ready_of_given hv
  obtain ⟨hk, hk'⟩ := h.admits_of_given hv
  obtain ⟨c, t₁, hc, htaken⟩ := h.on.exists_copy hk'
  have hmark := htaken.tidy.mark htaken.free
  have hs : Steady s₀ [] s s := .refl h.off
  have ht : Steady s₀ (t.consumed v') t (t₁.mark c) := by
    apply htaken.toSteady.trans hmark
    intro b hb hidden
    rw [List.mem_singleton] at hb
    subst hb
    exact htaken.known hidden.1 hidden.2.2.1
  have hscopes : (t₁.mark c).scopes = t.scopes := by
    rw [← htaken.scopes]
    cases c <;> rfl
  have hready : Ready s (t₁.mark c) v c :=
    ⟨T, hT, hcontent, (hmark.content c htaken.free.knows).trans (htaken.content_of_plain hT hcontent')⟩
  refine ⟨c, t₁, hc, ?_, ?_, fun w w' hw => ?_⟩
  · exact h.steady_of_scopes hs ht (h.frames.of_scopes rfl hscopes) h.unmarked (fun _ _ => rfl) fun _ _ =>
      at?_name_of_scopes hscopes
  · rcases hready.flat_or_container with ⟨rfl, hflat⟩ | ⟨-, hcon⟩
    · have hsimple := Value.isSimple_of_node?_none hflat hk.2
      exact .inl (.paired _ _ ⟨.inl hsimple, .inl hsimple, hready⟩)
    · exact .inr ⟨hk.1, isMarked_mark_self htaken.free.knows hcon, hready⟩
  · refine hw.steady hs ht (fun _ _ => rfl) (fun _ _ => at?_name_of_scopes hscopes) (by simp) ?_
    intro _ hmem
    obtain ⟨heq, hm⟩ := mem_consumed.1 hmem
    exact h.twin_ne hw hm heq

end Store

end CopyOnBind
