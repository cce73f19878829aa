import CopyOnBind.Proofs.Plain
import CopyOnBind.Proofs.Tidy
/-!
# Values of one content

Values of two stores are ready for each other when they have one plain content
(`Ready`): then they are of one kind, show the same text and compare alike.
Containers are ready for each other when their parts are (`ready_array_iff`,
`ready_hash`).
-/

namespace CopyOnBind

namespace Store

variable {s₀ s t s₁ t₁ : Store} {v v' w w' c : Value}

/-! ## Values of one plain content -/

/-- What `v` is in `s`, `v'` is in `t`. -/
def Ready (s t : Store) (v v' : Value) : Prop := ∃ T, T.Plain ∧ s.content v = some T ∧ t.content v' = some T

namespace Ready

theorem flat (hv : v.node? = none) (hp : v.eqFlat v = true) : Ready s t v v :=
  ⟨.flat v, .flat v hp, contentWithin_flat hv, contentWithin_flat hv⟩

theorem kinds (h : Ready s t v v') : (v' = v ∧ v.node? = none) ∨ (∃ a a', v = .array a ∧ v' = .array a') ∨
    ∃ i i', v = .hash i ∧ v' = .hash i' := by
  obtain ⟨T, hT, hv, hv'⟩ := h
  cases hT with
  | flat y _ =>
    obtain ⟨rfl, hflat⟩ := eq_of_contentWithin_flat hv
    exact .inl ⟨(eq_of_contentWithin_flat hv').1, hflat⟩
  | unset => exact absurd hv contentWithin_ne_unset
  | array Ts _ =>
    obtain ⟨a, -, rfl, -⟩ := contentWithin_eq_array hv
    obtain ⟨a', -, rfl, -⟩ := contentWithin_eq_array hv'
    exact .inr (.inl ⟨a, a', rfl, rfl⟩)
  | hash heads next Ts _ =>
    obtain ⟨i, -, rfl, -⟩ := contentWithin_eq_hash hv
    obtain ⟨i', -, rfl, -⟩ := contentWithin_eq_hash hv'
    exact .inr (.inr ⟨i, i', rfl, rfl⟩)

theorem flat_or_container (h : Ready s t v v') : (v' = v ∧ v.node? = none) ∨ v.isContainer ∧ v'.isContainer := by
  rcases h.kinds with h | ⟨a, a', rfl, rfl⟩ | ⟨i, i', rfl, rfl⟩
  · exact .inl h
  · exact .inr ⟨rfl, rfl⟩
  · exact .inr ⟨rfl, rfl⟩

theorem congr (h : Ready s t v v') (hs : s₁.content v = s.content v) (ht : t₁.content v' = t.content v') :
    Ready s₁ t₁ v v' := by
  obtain ⟨T, hT, hv, hv'⟩ := h
  exact ⟨T, hT, hs.trans hv, ht.trans hv'⟩

theorem eq (hs : s.WellFormed) (ht : t.WellFormed) (hv : Ready s t v v') (hw : Ready s t w w') :
    s.eq v w = t.eq v' w' := by
  obtain ⟨T, hT, hv, hv'⟩ := hv
  obtain ⟨U, hU, hw, hw'⟩ := hw
  exact eqWithin_congr hs.distinct ht.distinct hT hU hv hv' hw hw'

theorem inspect (hs : s.WellFormed) (ht : t.WellFormed) (h : Ready s t v v') :
    ∃ text, s.inspect v = some text ∧ t.inspect v' = some text := by
  obtain ⟨T, -, hv, hv'⟩ := h
  exact ⟨T.inspect, inspect_of_content hs.keyed hv, inspect_of_content ht.keyed hv'⟩

end Ready

/-- Lists of values of one content, item by item. -/
theorem forall₂_ready {l l' : List Value} : List.Forall₂ (Ready s t) l l' ↔
    ∃ Ts, (∀ T ∈ Ts, Content.Plain T) ∧ l.mapM s.content = some Ts ∧ l'.mapM t.content = some Ts := by
  simp only [mapM_eq_some]
  constructor
  · intro h
    induction h with
    | nil => exact ⟨[], by simp, .nil, .nil⟩
    | cons hv _ ih =>
      obtain ⟨T, hT, hv, hv'⟩ := hv
      obtain ⟨Ts, hTs, hl, hl'⟩ := ih
      exact ⟨T :: Ts, List.forall_mem_cons.2 ⟨hT, hTs⟩, .cons hv hl, .cons hv' hl'⟩
  · rintro ⟨Ts, hTs, hl, hl'⟩
    exact (forall₂_join hl hl').imp fun v v' ⟨T, hT, hv, hv'⟩ => ⟨T, hTs T hT, hv, hv'⟩

theorem ready_array_iff (hs : s.Acyclic) (ht : t.Acyclic) {a a' : ArrayId} : Ready s t (.array a) (.array a') ↔
    List.Forall₂ (Ready s t) (s.array a).elements.toList (t.array a').elements.toList := by
  rw [forall₂_ready, Ready, content_array hs, content_array ht]
  simp only [Option.map_eq_some_iff]
  constructor
  · rintro ⟨T, hT, ⟨Ts, hTs, rfl⟩, ⟨Us, hUs, hT'⟩⟩
    cases hT'
    cases hT with
    | array _ hplain => exact ⟨Ts, hplain, hTs, hUs⟩
  · rintro ⟨Ts, hplain, hTs, hTs'⟩
    exact ⟨.array Ts, .array Ts hplain, ⟨Ts, hTs, rfl⟩, ⟨Ts, hTs', rfl⟩⟩

/-- Hashes with the same entries, of which every value has one content. -/
theorem ready_hash (hs : s.Acyclic) (ht : t.Acyclic) {i : HashId} (he : (t.hash i).entries = (s.hash i).entries)
    (hn : (t.hash i).nextGeneration = (s.hash i).nextGeneration)
    (h : ∀ e ∈ (s.hash i).entries, ∀ v ∈ e.value, Ready s t v v) : Ready s t (.hash i) (.hash i) := by
  -- an unset entry has a content of its own
  have hcontent : ∀ e ∈ (s.hash i).entries, ∃ T, Content.Plain T ∧ Content.ofOption s.content e.value = some T ∧
      Content.ofOption t.content e.value = some T := by
    intro e hmem
    cases hval : e.value with
    | none => exact ⟨.unset, .unset, rfl, rfl⟩
    | some v => exact h e hmem v hval
  unfold Ready
  rw [content_hash hs, content_hash ht, he, hn]
  generalize (s.hash i).entries.map Entry.head = heads
  have hall : ∃ Ts, (∀ T ∈ Ts, Content.Plain T) ∧
      (s.hash i).entries.mapM (fun e => Content.ofOption s.content e.value) = some Ts ∧
        (s.hash i).entries.mapM (fun e => Content.ofOption t.content e.value) = some Ts := by
    simp only [mapM_eq_some]
    generalize (s.hash i).entries = es at hcontent
    induction es with
    | nil => exact ⟨[], by simp, .nil, .nil⟩
    | cons e es ih =>
      obtain ⟨T, hT, hs, ht⟩ := hcontent e (by simp)
      obtain ⟨Ts, hTs, hs', ht'⟩ := ih fun f hf => hcontent f (by simp [hf])
      exact ⟨T :: Ts, List.forall_mem_cons.2 ⟨hT, hTs⟩, .cons hs hs', .cons ht ht'⟩
  obtain ⟨Ts, hplain, hTs, hTs'⟩ := hall
  refine ⟨.hash heads (s.hash i).nextGeneration Ts, .hash _ _ Ts hplain, ?_, ?_⟩
  · rw [hTs, Option.map_some]
  · rw [hTs', Option.map_some]

/-- A copy of a value of plain content has this content. -/
theorem Taken.content_of_plain (h : Taken s₀ s v c t) {T : Content} (hT : T.Plain) (hv : s.content v = some T) :
    t.content c = some T := by
  rcases h.copied T hv with hc | hc
  · exact hc
  · rw [hc, hT.resolve_eq]

end Store

end CopyOnBind
