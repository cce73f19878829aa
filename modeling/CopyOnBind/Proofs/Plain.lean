import CopyOnBind.Proofs.Snapshot
import CopyOnBind.Store.Equality
/-!
# Plain contents

A content is plain if there is no reference in it, and no value that differs
from itself as a NaN does. Plain contents are what is left of them in a copy
(`Content.Plain.resolve_eq`), and whether two values of plain content are equal
depends on the contents alone (`eqWithin_congr`), although equality asks first
whether two handles are the same.
-/

namespace CopyOnBind

/-- Of the values without a handle only a NaN differs from itself. -/
theorem Value.eqFlat_self {v : Value} (hv : v.node? = none) (hf : ∀ x, v ≠ .float x) : v.eqFlat v = true := by
  cases v with
  | float x => exact absurd rfl (hf x)
  | array _ | hash _ | ref _ _ _ => cases hv
  | void => rfl
  | function f =>
    show (f.body.id == f.body.id && f.scope == f.scope) = true
    rw [beq_self_eq_true, beq_self_eq_true, Bool.and_self]
  | underline u =>
    show (u.body.id == u.body.id && u.scope == u.scope) = true
    rw [beq_self_eq_true, beq_self_eq_true, Bool.and_self]
  | _ =>
    unfold eqFlat
    exact beq_self_eq_true _

inductive Content.Plain : Content → Prop
  | flat (v : Value) : v.eqFlat v = true → Plain (.flat v)
  | unset : Plain .unset
  | array (items : List Content) : (∀ T ∈ items, Plain T) → Plain (.array items)
  | hash (heads : List Head) (next : UInt64) (values : List Content) :
    (∀ T ∈ values, Plain T) → Plain (.hash heads next values)

theorem Content.Plain.resolve_eq {T : Content} (h : T.Plain) : T.resolve = T := by
  induction h with
  | flat v => rw [Content.resolve]
  | unset => rw [Content.resolve]
  | array items _ ih => rw [Content.resolve, List.map_congr_left ih, List.map_id']
  | hash heads next values _ ih => rw [Content.resolve, List.map_congr_left ih, List.map_id']

/-! ## Lists side by side -/

theorem allM_congr {α β : Type} {f : α → Option Bool} {g : β → Option Bool} {l : List α} {l' : List β}
    (h : List.Forall₂ (fun a b => f a = g b) l l') : l.allM f = l'.allM g := by
  induction h with
  | nil => rfl
  | cons hab _ ih => simp only [List.allM, hab, ih]

theorem anyM_congr {α : Type} {f g : α → Option Bool} {l : List α} (h : ∀ a ∈ l, f a = g a) : l.anyM f = l.anyM g := by
  induction l with
  | nil => rfl
  | cons a l ih => simp only [List.anyM, h a (by simp), ih fun b hb => h b (by simp [hb])]

theorem allM_eq_true {α : Type} {f : α → Option Bool} {l : List α} (h : ∀ a ∈ l, f a = some true) :
    l.allM f = some true := by
  induction l with
  | nil => rfl
  | cons a l ih => simp [List.allM, h a (by simp), ih fun b hb => h b (by simp [hb])]

theorem forall₂_zip_zip {α β γ δ : Type} {R : α → β → Prop} {S : γ → δ → Prop} {xs : List α} {xs' : List β}
    {ys : List γ} {ys' : List δ} (h : List.Forall₂ R xs xs') (h' : List.Forall₂ S ys ys') :
    List.Forall₂ (fun p q => R p.1 q.1 ∧ S p.2 q.2) (xs.zip ys) (xs'.zip ys') := by
  induction h generalizing ys ys' with
  | nil => exact .nil
  | cons hab _ ih =>
    cases h' with
    | nil => exact .nil
    | cons hcd h' => exact .cons ⟨hab, hcd⟩ (ih h')

/-- Two lists that go with one third list go with each other. -/
theorem forall₂_join {α β γ : Type} {R : α → γ → Prop} {S : β → γ → Prop} {xs : List α} {ys : List β} {zs : List γ}
    (h : List.Forall₂ R xs zs) (h' : List.Forall₂ S ys zs) :
    List.Forall₂ (fun x y => ∃ z ∈ zs, R x z ∧ S y z) xs ys := by
  induction h generalizing ys with
  | nil => cases h'; exact .nil
  | cons hac _ ih =>
    cases h' with
    | cons hbc h' =>
      exact .cons ⟨_, by simp, hac, hbc⟩ ((ih h').imp fun _ _ ⟨z, hz, hR⟩ => ⟨z, by simp [hz], hR⟩)

/-- Entries side by side are found under the same keys. -/
theorem find?_forall₂ {R : Entry → Entry → Prop} {t u : Table} (key : Key)
    (h : List.Forall₂ (fun e f => e.key = f.key ∧ R e f) t.entries u.entries) :
    (t.find? key = none ∧ u.find? key = none) ∨ ∃ e f, t.find? key = some e ∧ u.find? key = some f ∧ R e f := by
  unfold Table.find?
  generalize t.entries = es at h
  generalize u.entries = fs at h
  induction h with
  | nil => exact .inl ⟨rfl, rfl⟩
  | @cons e f _ _ hef _ ih =>
    rw [List.find?_cons, List.find?_cons, ← hef.1]
    by_cases hk : e.key = key
    · simp only [hk, beq_self_eq_true]
      exact .inr ⟨e, f, rfl, rfl, hef.2⟩
    · simp only [beq_eq_false_iff_ne.2 hk]
      exact ih

/-- With distinct keys, every entry of the second list is found under the key of its neighbour. -/
theorem find?_of_forall₂ {R : Entry → Entry → Prop} {u : Table} (hu : (u.entries.map Entry.key).Nodup) {es : List Entry}
    (h : List.Forall₂ (fun e f => e.key = f.key ∧ R e f) es u.entries) :
    ∀ e ∈ es, ∃ f, u.find? e.key = some f ∧ R e f := by
  rw [show u.find? = fun k => u.entries.find? (·.key == k) from rfl]
  generalize u.entries = fs at h hu
  induction h with
  | nil => simp
  | @cons e f es fs hef _ ih =>
    rw [List.map_cons, List.nodup_cons] at hu
    intro d hd
    rcases List.mem_cons.1 hd with rfl | hd
    · exact ⟨f, by simp [hef.1], hef.2⟩
    · obtain ⟨g, hg, hR⟩ := ih hu.2 d hd
      -- the head of the second list has another key, since its keys are distinct
      have hne : f.key ≠ d.key := by
        rintro hfd
        have hgk : g.key = d.key := by simpa using List.find?_some hg
        exact hu.1 (List.mem_map.2 ⟨g, List.mem_of_find?_eq_some hg, hgk.trans hfd.symm⟩)
      exact ⟨g, by simpa [List.find?_cons, hne] using hg, hR⟩

namespace Store

variable {s t : Store} {v w v' w' : Value} {j k : Nat} {T U : Content}

/-! ## Values of a content -/

theorem eq_of_contentWithin_flat {x : Value} (h : s.contentWithin k v = some (.flat x)) : v = x ∧ v.node? = none := by
  cases k <;> cases v <;> simp_all [contentWithin, Value.node?]

theorem contentWithin_eq_array {Ts : List Content} (h : s.contentWithin k v = some (.array Ts)) :
    ∃ a l, v = .array a ∧ k = l + 1 ∧
      List.Forall₂ (fun w T => s.contentWithin l w = some T) (s.array a).elements.toList Ts := by
  cases k with
  | zero => cases v <;> simp [contentWithin] at h
  | succ l =>
    cases v with
    | array a =>
      simp only [contentWithin, Option.map_eq_some_iff, Content.array.injEq] at h
      obtain ⟨Us, hUs, rfl⟩ := h
      exact ⟨a, l, rfl, rfl, mapM_eq_some.1 hUs⟩
    | _ => simp [contentWithin] at h

/-- What entries of one content have in common. -/
def EntryContent (s : Store) (k : Nat) (e : Entry) (x : Head × Content) : Prop :=
  e.head = x.1 ∧ Content.ofOption (s.contentWithin k) e.value = some x.2

theorem contentWithin_eq_hash {heads : List Head} {next : UInt64} {Ts : List Content}
    (h : s.contentWithin k v = some (.hash heads next Ts)) :
    ∃ i l, v = .hash i ∧ k = l + 1 ∧
      List.Forall₂ (s.EntryContent l) (s.hash i).entries (heads.zip Ts) := by
  cases k with
  | zero => cases v <;> simp [contentWithin] at h
  | succ l =>
    cases v with
    | hash i =>
      simp only [contentWithin, Option.map_eq_some_iff, Content.hash.injEq] at h
      obtain ⟨Us, hmap, rfl, -, rfl⟩ := h
      have hUs := mapM_eq_some.1 hmap
      clear hmap
      refine ⟨i, l, rfl, rfl, ?_⟩
      generalize (s.hash i).entries = es at hUs
      induction hUs with
      | nil => exact .nil
      | cons hU _ ih => exact .cons ⟨rfl, hU⟩ ih
    | _ => simp [contentWithin] at h

/-- Values of one content that may be absent are both absent or both there. -/
theorem ofOption_pair {o p : Option Value} (ho : Content.ofOption (s.contentWithin j) o = some T)
    (hp : Content.ofOption (t.contentWithin k) p = some T) :
    (o = none ∧ p = none) ∨ ∃ v w, o = some v ∧ p = some w ∧ s.contentWithin j v = some T ∧ t.contentWithin k w = some T := by
  rcases o with _ | v <;> rcases p with _ | w
  · exact .inl ⟨rfl, rfl⟩
  · cases ho
    exact absurd hp contentWithin_ne_unset
  · cases hp
    exact absurd ho contentWithin_ne_unset
  · exact .inr ⟨v, w, rfl, rfl, ho, hp⟩

/-- What two entries of one content have in common. -/
def EntryPair (s t : Store) (j k : Nat) (Ts : List Content) (e f : Entry) : Prop :=
  ∃ T ∈ Ts, Content.ofOption (s.contentWithin j) e.value = some T ∧ Content.ofOption (t.contentWithin k) f.value = some T

theorem forall₂_entries {heads : List Head} {es fs : List Entry} {Ts : List Content}
    (he : List.Forall₂ (s.EntryContent j) es (heads.zip Ts)) (hf : List.Forall₂ (t.EntryContent k) fs (heads.zip Ts)) :
    List.Forall₂ (fun e f => e.key = f.key ∧ EntryPair s t j k Ts e f) es fs := by
  refine (forall₂_join he hf).imp fun e f ⟨x, hx, he, hf⟩ => ⟨?_, x.2, (List.of_mem_zip hx).2, he.2, hf.2⟩
  exact congrArg Head.key (he.1.trans hf.1.symm)

/-! ## Contents from parts -/

theorem content_eq_succ (h : s.Grounded v) : s.content v = s.contentWithin (s.span + 1) v := by
  obtain ⟨T, hT⟩ := exists_content_iff.2 h
  rw [hT]
  exact (contentWithin_mono hT (Nat.le_succ _)).symm

theorem content_array (hs : s.Acyclic) (a : ArrayId) :
    s.content (.array a) = ((s.array a).elements.toList.mapM s.content).map .array := by
  rw [content_eq_succ (hs.grounded _), contentWithin]
  rfl

theorem content_hash (hs : s.Acyclic) (i : HashId) :
    s.content (.hash i) = ((s.hash i).entries.mapM fun e => Content.ofOption s.content e.value).map
      (.hash ((s.hash i).entries.map Entry.head) (s.hash i).nextGeneration) := by
  rw [content_eq_succ (hs.grounded _), contentWithin]
  rfl

/-! ## Equality by content -/

theorem eqWithin_flat (h : v.node? = none ∨ w.node? = none) : s.eqWithin k v w = some (v.eqFlat w) := by
  cases v <;> cases w <;> simp_all [Value.node?, eqWithin]

theorem eqWithin_array_hash {a : ArrayId} {h : HashId} : s.eqWithin k (.array a) (.hash h) = some false := by
  cases k <;> rfl

theorem eqWithin_hash_array {a : ArrayId} {h : HashId} : s.eqWithin k (.hash h) (.array a) = some false := by
  cases k <;> rfl

/-- Compared with a value that is no container, only the kind of a container counts. -/
theorem eqFlat_congr (hU : U.Plain) (hv : v.node? = none) (hw : s.contentWithin j w = some U) (hw' : t.contentWithin k w' = some U) :
    v.eqFlat w = v.eqFlat w' := by
  cases hU with
  | flat y _ => rw [(eq_of_contentWithin_flat hw).1, (eq_of_contentWithin_flat hw').1]
  | unset => exact absurd hw contentWithin_ne_unset
  | array Us _ =>
    obtain ⟨b, -, rfl, -⟩ := contentWithin_eq_array hw
    obtain ⟨b', -, rfl, -⟩ := contentWithin_eq_array hw'
    cases v <;> rfl
  | hash heads next Us _ =>
    obtain ⟨i, -, rfl, -⟩ := contentWithin_eq_hash hw
    obtain ⟨i', -, rfl, -⟩ := contentWithin_eq_hash hw'
    cases v <;> rfl

/-- Values of one plain content are equal. -/
theorem eqWithin_of_content (hs : ∀ h, ((s.hash h).entries.map Entry.key).Nodup) (hT : T.Plain)
    (hv : s.contentWithin k v = some T) (hw : s.contentWithin k w = some T) : s.eqWithin k v w = some true := by
  induction hT generalizing k v w with
  | flat x hx =>
    obtain ⟨rfl, hflat⟩ := eq_of_contentWithin_flat hv
    obtain ⟨rfl, -⟩ := eq_of_contentWithin_flat hw
    rw [eqWithin_flat (.inl hflat), hx]
  | unset => exact absurd hv contentWithin_ne_unset
  | array Ts _ ih =>
    obtain ⟨a, l, rfl, rfl, ha⟩ := contentWithin_eq_array hv
    obtain ⟨b, l', rfl, hl, hb⟩ := contentWithin_eq_array hw
    cases hl
    simp only [eqWithin]
    split
    · rfl
    · have hpairs := forall₂_join ha hb
      unfold eqElements
      rw [if_pos (by simpa using hpairs.length_eq)]
      apply allM_eq_true
      intro p hp
      obtain ⟨U, hU, hx, hy⟩ := List.forall₂_zip hpairs hp
      exact ih U hU hx hy
  | hash heads next Ts _ ih =>
    obtain ⟨i, l, rfl, rfl, hi⟩ := contentWithin_eq_hash hv
    obtain ⟨j, l', rfl, hl, hj⟩ := contentWithin_eq_hash hw
    cases hl
    simp only [eqWithin]
    split
    · rfl
    · have hentries := forall₂_entries hi hj
      unfold eqTables
      rw [if_pos (show (s.hash i).size = (s.hash j).size from hentries.length_eq)]
      apply allM_eq_true
      intro e he
      obtain ⟨f, hf, U, hU, hx, hy⟩ := find?_of_forall₂ (hs j) hentries e he
      rw [hf]
      rcases ofOption_pair hx hy with ⟨he, hf⟩ | ⟨x, y, he, hf, hxU, hyU⟩ <;> simp only [he, hf, eqOptional]
      exact ih U hU hxU hyU

/-- Elements and entries side by side are compared alike if their values are. -/
theorem eqElements_congr {eq eq' : Value → Value → Option Bool} {xs xs' ys ys' : Array Value} {R S : Value → Value → Prop}
    (hx : List.Forall₂ R xs.toList xs'.toList) (hy : List.Forall₂ S ys.toList ys'.toList)
    (h : ∀ x x' y y', R x x' → S y y' → eq x y = eq' x' y') : eqElements eq xs ys = eqElements eq' xs' ys' := by
  unfold eqElements
  rw [show xs.size = xs'.size from hx.length_eq, show ys.size = ys'.size from hy.length_eq,
    allM_congr ((forall₂_zip_zip hx hy).imp fun p q ⟨hp, hq⟩ => h p.1 q.1 p.2 q.2 hp hq)]

theorem eqTables_congr {i i' d d' : HashId} {Ts Us : List Content}
    (hx : List.Forall₂ (fun e f => e.key = f.key ∧ EntryPair s t j k Ts e f) (s.hash i).entries (t.hash i').entries)
    (hy : List.Forall₂ (fun e f => e.key = f.key ∧ EntryPair s t j k Us e f) (s.hash d).entries (t.hash d').entries)
    (h : ∀ V ∈ Ts, ∀ W ∈ Us, ∀ x x' y y', s.contentWithin j x = some V → t.contentWithin k x' = some V →
      s.contentWithin j y = some W → t.contentWithin k y' = some W → s.eqWithin j x y = t.eqWithin k x' y') :
    eqTables (s.eqWithin j) (s.hash i) (s.hash d) = eqTables (t.eqWithin k) (t.hash i') (t.hash d') := by
  unfold eqTables
  rw [show (s.hash i).size = (t.hash i').size from hx.length_eq, show (s.hash d).size = (t.hash d').size from hy.length_eq]
  refine if_congr Iff.rfl (allM_congr (hx.imp fun e f ⟨hkey, V, hV, he, hf⟩ => ?_)) rfl
  -- both tables are asked for the same key, and both have it or neither
  rw [← hkey]
  rcases find?_forall₂ e.key hy with ⟨hnone, hnone'⟩ | ⟨g, g', hg, hg', W, hW, hgW, hgW'⟩
  · rw [hnone, hnone']
  · rw [hg, hg']
    rcases ofOption_pair he hf with ⟨hev, hfv⟩ | ⟨x, x', hev, hfv, hx, hx'⟩ <;>
      rcases ofOption_pair hgW hgW' with ⟨hgv, hgv'⟩ | ⟨y, y', hgv, hgv', hy, hy'⟩ <;>
      simp only [hev, hfv, hgv, hgv', eqOptional]
    exact h V hV W hW x x' y y' hx hx' hy hy'

/-- Whether values of plain content are equal does not depend on the store. -/
theorem eqWithin_congr (hs : ∀ h, ((s.hash h).entries.map Entry.key).Nodup)
    (ht : ∀ h, ((t.hash h).entries.map Entry.key).Nodup) (hT : T.Plain) (hU : U.Plain)
    (hv : s.contentWithin j v = some T) (hv' : t.contentWithin k v' = some T)
    (hw : s.contentWithin j w = some U) (hw' : t.contentWithin k w' = some U) :
    s.eqWithin j v w = t.eqWithin k v' w' := by
  induction hT generalizing j k v v' w w' U with
  | flat x hx =>
    obtain ⟨rfl, hflat⟩ := eq_of_contentWithin_flat hv
    obtain ⟨rfl, -⟩ := eq_of_contentWithin_flat hv'
    rw [eqWithin_flat (.inl hflat), eqWithin_flat (.inl hflat), eqFlat_congr hU hflat hw hw']
  | unset => exact absurd hv contentWithin_ne_unset
  | array Ts hTs ih =>
    obtain ⟨a, l, rfl, rfl, ha⟩ := contentWithin_eq_array hv
    obtain ⟨a', m, rfl, rfl, ha'⟩ := contentWithin_eq_array hv'
    cases hU with
    | flat y _ =>
      obtain ⟨rfl, hflat⟩ := eq_of_contentWithin_flat hw
      obtain ⟨rfl, -⟩ := eq_of_contentWithin_flat hw'
      rw [eqWithin_flat (.inr hflat), eqWithin_flat (.inr hflat)]
      cases w' <;> rfl
    | unset => exact absurd hw contentWithin_ne_unset
    | array Us hUs =>
      -- with one content the handles may be the same on one side only
      by_cases hTU : Ts = Us
      · subst hTU
        rw [eqWithin_of_content hs (.array Ts hTs) hv hw, eqWithin_of_content ht (.array Ts hTs) hv' hw']
      · obtain ⟨b, l', rfl, hl, hb⟩ := contentWithin_eq_array hw
        obtain ⟨b', m', rfl, hm, hb'⟩ := contentWithin_eq_array hw'
        cases hl
        cases hm
        -- of two contents, neither side can have the same array twice
        have hab : a ≠ b := by
          rintro rfl
          exact hTU (Content.array.inj (Option.some.inj (hv.symm.trans hw)))
        have hab' : a' ≠ b' := by
          rintro rfl
          exact hTU (Content.array.inj (Option.some.inj (hv'.symm.trans hw')))
        simp only [eqWithin, if_neg hab, if_neg hab']
        refine eqElements_congr (forall₂_join ha ha') (forall₂_join hb hb') ?_
        rintro x x' y y' ⟨V, hV, hx, hx'⟩ ⟨W, hW, hy, hy'⟩
        exact ih V hV (hUs W hW) hx hx' hy hy'
    | hash heads next Us _ =>
      obtain ⟨i, -, rfl, -⟩ := contentWithin_eq_hash hw
      obtain ⟨i', -, rfl, -⟩ := contentWithin_eq_hash hw'
      rw [eqWithin_array_hash, eqWithin_array_hash]
  | hash heads next Ts hTs ih =>
    obtain ⟨i, l, rfl, rfl, hi⟩ := contentWithin_eq_hash hv
    obtain ⟨i', m, rfl, rfl, hi'⟩ := contentWithin_eq_hash hv'
    cases hU with
    | flat y _ =>
      obtain ⟨rfl, hflat⟩ := eq_of_contentWithin_flat hw
      obtain ⟨rfl, -⟩ := eq_of_contentWithin_flat hw'
      rw [eqWithin_flat (.inr hflat), eqWithin_flat (.inr hflat)]
      cases w' <;> rfl
    | unset => exact absurd hw contentWithin_ne_unset
    | array Us _ =>
      obtain ⟨b, -, rfl, -⟩ := contentWithin_eq_array hw
      obtain ⟨b', -, rfl, -⟩ := contentWithin_eq_array hw'
      rw [eqWithin_hash_array, eqWithin_hash_array]
    | hash heads' next' Us hUs =>
      by_cases hTU : Content.hash heads next Ts = .hash heads' next' Us
      · rw [← hTU] at hw hw'
        rw [eqWithin_of_content hs (.hash _ _ Ts hTs) hv hw, eqWithin_of_content ht (.hash _ _ Ts hTs) hv' hw']
      · obtain ⟨d, l', rfl, hl, hd⟩ := contentWithin_eq_hash hw
        obtain ⟨d', m', rfl, hm, hd'⟩ := contentWithin_eq_hash hw'
        cases hl
        cases hm
        have hid : i ≠ d := by
          rintro rfl
          exact hTU (Option.some.inj (hv.symm.trans hw))
        have hid' : i' ≠ d' := by
          rintro rfl
          exact hTU (Option.some.inj (hv'.symm.trans hw'))
        simp only [eqWithin, if_neg hid, if_neg hid']
        refine eqTables_congr (forall₂_entries hi hi') (forall₂_entries hd hd') ?_
        intro V hV W hW x x' y y' hx hx' hy hy'
        exact ih V hV (hUs W hW) hx hx' hy hy'

end Store

end CopyOnBind
