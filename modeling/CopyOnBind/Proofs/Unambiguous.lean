import CopyOnBind.Proofs.Equality
import CopyOnBind.Proofs.KeyOrder
import CopyOnBind.Proofs.Telling
/-!
# Data and their texts

Data are integers, booleans, characters, strings, the void value, arrays of data, and
hashes of data that have a value in every entry. A datum is shown by a text that tells
what it is: the first character tells the kind, and of a container every part is told in
turn. Hashes list their entries by key, so hashes that were filled in different orders
are shown alike.

`inspect_eq_iff`: two data have the same text exactly if they are equal, and so it is
whichever characters of their strings are written as they are.
-/

namespace CopyOnBind

open Text

/-! ## Texts -/

namespace Value

/-- Integers, booleans, characters, strings and the void value. -/
def isScalar : Value → Bool
  | int _ | bool _ | char _ | str _ | void => true
  | _ => false

/-- The text of a value that is neither a container nor a reference, when strings show the
characters in `shown` as they are. -/
def textShowing (shown : Char → Bool) : Value → String
  | str s => quotedWith shown s
  | v => v.inspectFlat

theorem textShowing_isPrintable : textShowing isPrintable = inspectFlat := by
  funext v
  cases v <;> rfl

end Value

/-- The text of an entry, given those of values. -/
def Entry.showRow (text : Value → Option String) (e : Entry) : Option String :=
  (text e.written).bind fun key => (text (e.value.getD .void)).map fun value => key ++ ": " ++ value

namespace Store

/-- The text of a value, given those of flat values, following at most `n` handles on each path. -/
def showWithin (text : Value → String) (s : Store) : Nat → Value → Option String
  | 0, .array _ | 0, .hash _ | 0, .ref .. => none
  | n + 1, .array a =>
    ((s.array a).elements.toList.mapM (s.showWithin text n)).map fun items => "[" ++ ", ".intercalate items ++ "]"
  | n + 1, .hash h =>
    ((s.hash h).sorted.mapM (Entry.showRow (s.showWithin text n))).map fun rows =>
      "\x7b " ++ ", ".intercalate rows ++ " \x7d"
  | n + 1, .ref slot _ constant =>
    (s.showWithin text n ((s.slotValue? slot).getD .void)).map fun value =>
      (if constant then "Const " else "") ++ "Reference: " ++ value
  | _, v => some (text v)

/-- The text of a value, when strings show the characters in `shown` as they are. -/
def inspectShowing (shown : Char → Bool) (s : Store) (v : Value) : Option String :=
  s.showWithin (Value.textShowing shown) s.span v

/-- Values that are put together from scalars, arrays and hashes that have a value in every entry. -/
inductive IsData (s : Store) : Value → Prop
  | scalar (v : Value) : v.isScalar = true → IsData s v
  | array (a : ArrayId) : (∀ w ∈ (s.array a).elements.toList, IsData s w) → IsData s (.array a)
  | hash (h : HashId) : (∀ e ∈ (s.hash h).entries, e.value.isSome) → (∀ w ∈ (s.hash h).values, IsData s w) →
    IsData s (.hash h)

variable {s : Store} {v w : Value} {k : Nat} {x y r r' : List Char} {shown : Char → Bool} {text : Value → String}
  {a : ArrayId} {h : HashId}

theorem showWithin_inspectFlat (s : Store) (k : Nat) : s.showWithin Value.inspectFlat k = s.inspectWithin k := by
  induction k with
  | zero =>
    funext v
    cases v <;> rfl
  | succ k ih =>
    funext v
    cases v with
    | array a =>
      simp only [showWithin, inspectWithin, ih, Option.map_eq_bind]
      rfl
    | hash h =>
      have hrow : Entry.showRow (s.inspectWithin k) = fun e => do
          let key ← s.inspectWithin k e.written
          let value ← s.inspectWithin k (e.value.getD .void)
          return key ++ ": " ++ value := by
        funext e
        simp only [Entry.showRow, Option.map_eq_bind]
        rfl
      simp only [showWithin, inspectWithin, ih, hrow, Option.map_eq_bind]
      rfl
    | ref slot index constant =>
      simp only [showWithin, inspectWithin, ih, Option.map_eq_bind]
      rfl
    | _ => rfl

theorem inspectShowing_isPrintable : s.inspectShowing isPrintable v = s.inspect v := by
  unfold inspectShowing inspect
  rw [Value.textShowing_isPrintable, showWithin_inspectFlat]

theorem showWithin_scalar (hv : v.isScalar = true) : s.showWithin text k v = some (text v) := by
  cases v <;> cases hv <;> cases k <;> rfl

/-! ## Data have a text -/

theorem IsData.grounded (h : s.IsData v) : s.Grounded v := by
  induction h with
  | scalar v hv => exact grounded_of_node?_none (by cases v <;> first | rfl | cases hv)
  | array a _ ih => exact grounded_of_children ih
  | hash i _ _ ih => exact grounded_of_children ih

theorem isScalar_of_key? {key : Key} (h : v.key? = some key) : v.isScalar = true := by
  cases v <;> first | rfl | cases h

theorem showWithin_flat (h : v.node? = none) : s.showWithin text k v = some (text v) := by
  cases k <;> cases v <;> first | rfl | simp [Value.node?] at h

theorem isSome_showRow {text : Value → Option String} {e : Entry} :
    (e.showRow text).isSome ↔ (text e.written).isSome ∧ (text (e.value.getD .void)).isSome := by
  unfold Entry.showRow
  cases text e.written <;> simp

/-- A text has the steps it needs exactly if all paths are as short. -/
theorem isSome_showWithin (hs : s.Keyed) : (s.showWithin text k v).isSome ↔ s.Within k v := by
  induction k generalizing v with
  | zero => cases v <;> simp [showWithin, Within, Value.node?]
  | succ k ih =>
    cases v with
    | array a => simp [showWithin, isSome_mapM, ih, Within, children, Value.node?, held]
    | hash i =>
      rw [showWithin, Option.isSome_map, isSome_mapM]
      constructor
      · intro hrows w hw
        obtain ⟨e, he, hval⟩ := List.mem_filterMap.1 hw
        have hshown := (isSome_showRow.1 (hrows e (Table.mem_sorted.2 he))).2
        rwa [hval, Option.getD_some, ih] at hshown
      · intro hwithin e he
        have he : e ∈ (s.hash i).entries := Table.mem_sorted.1 he
        rw [isSome_showRow, showWithin_flat (node?_of_key?_eq_some (hs i e he))]
        refine ⟨rfl, ?_⟩
        cases hval : e.value with
        | none =>
          rw [Option.getD_none, showWithin_flat rfl]
          rfl
        | some w => exact ih.2 (hwithin w (List.mem_filterMap.2 ⟨e, he, hval⟩))
    | ref slot index constant =>
      rw [showWithin, Option.isSome_map]
      cases hval : s.slotValue? slot with
      | none => simp [showWithin_flat (v := .void) rfl, Within, children, Value.node?, held, hval]
      | some w => simp [ih, Within, children, Value.node?, held, hval]
    | _ => simp [showWithin, Within, children, Value.node?]

/-! ## Equal data are shown alike -/

theorem IsData.eq_of_eqFlat (hv : s.IsData v) (h : v.eqFlat w = true) : v = w := by
  cases hv with
  | scalar _ hv =>
    have hkind := Value.kind_eq_of_eqFlat h
    cases v <;> cases hv <;> cases w <;> cases hkind
    case int.refl.int.refl m n => rw [show m = n from eq_of_beq h]
    case bool.refl.bool.refl a b => rw [show a = b from eq_of_beq h]
    case char.refl.char.refl c d => rw [show c = d from eq_of_beq h]
    case str.refl.str.refl s t => rw [show s = t from eq_of_beq h]
    case void.refl.void.refl => rfl
  | array | hash => cases (Value.isContainer_of_eqFlat h).1

theorem mapM_eq_of_forall₂ {α β γ : Type} {f : α → Option γ} {g : β → Option γ} {l : List α} {l' : List β}
    (h : List.Forall₂ (fun a b => f a = g b) l l') : l.mapM f = l'.mapM g := by
  induction h with
  | nil => rfl
  | cons hab _ ih => rw [List.mapM_cons, List.mapM_cons, hab, ih]

/-- Entries with the same key value, and related values or none on both sides. -/
def RowsBy (R : Value → Value → Prop) (e f : Entry) : Prop := e.written = f.written ∧ Option.Rel R e.value f.value

/-- Tables agree if they do side by side in the order of their keys. -/
theorem tablesBy_iff_sorted {R : Value → Value → Prop} {t u : Table} (ht : t.Filed) (hu : u.Filed) :
    TablesBy R t u ↔ List.Forall₂ (RowsBy R) t.sorted u.sorted := by
  constructor
  · intro h
    have hkeys := Table.map_key_sorted_eq_of_perm (h.keys_perm ht.distinct)
    rw [← List.forall₂_eq_eq_eq, List.forall₂_map_left_iff, List.forall₂_map_right_iff, List.forall₂_iff_zip] at hkeys
    refine List.forall₂_iff_zip.2 ⟨hkeys.1, fun {e f} hef => ?_⟩
    have hkey : e.key = f.key := hkeys.2 hef
    have he : e ∈ t.entries := Table.mem_sorted.1 (List.of_mem_zip hef).1
    have hf : f ∈ u.entries := Table.mem_sorted.1 (List.of_mem_zip hef).2
    have hwritten : e.written.key? = f.written.key? := by rw [ht.keyed e he, hu.keyed f hf, hkey]
    obtain ⟨g, hg, hrel⟩ := h.entry e he
    rw [hkey, Table.find?_of_mem hu.distinct hf] at hg
    cases hg
    exact ⟨(Value.key?_eq_iff (by rw [ht.keyed e he]; rfl)).1 hwritten, hrel⟩
  · intro h
    refine ⟨by simpa [Table.sorted, Table.size] using h.length_eq, fun e he => ?_⟩
    obtain ⟨f, hf, hwritten, hrel⟩ := exists_of_forall₂ h (Table.mem_sorted.2 he)
    have hf : f ∈ u.entries := Table.mem_sorted.1 hf
    have hkey : e.key = f.key := Option.some.inj (by rw [← ht.keyed e he, hwritten, hu.keyed f hf])
    exact ⟨f, by rw [hkey, Table.find?_of_mem hu.distinct hf], hrel⟩

/-- Rows are shown alike if their parts are. -/
theorem RowsBy.showRow_eq {R : Value → Value → Prop} {text text' : Value → Option String} {e f : Entry}
    (h : RowsBy R e f) (hwritten : text e.written = text' e.written) (hvoid : text .void = text' .void)
    (hR : ∀ v w, e.value = some v → f.value = some w → R v w → text v = text' w) : e.showRow text = f.showRow text' := by
  obtain ⟨heq, hrel⟩ := h
  rw [Entry.showRow, Entry.showRow, ← heq, hwritten]
  generalize e.value = x, f.value = y at hrel hR
  cases hrel with
  | none => rw [Option.getD_none, hvoid]
  | some hvw => rw [Option.getD_some, Option.getD_some, hR _ _ rfl rfl hvw]

/-- Data that are equal within `k` steps have one text, whatever the texts of flat values are. -/
theorem showWithin_eq_of_eqWithin (hs : s.WellFormed) (hv : s.IsData v) (hw : s.IsData w)
    (h : s.eqWithin k v w = some true) : s.showWithin text k v = s.showWithin text k w := by
  induction k generalizing v w with
  | zero =>
    rcases eqWithin_zero.1 h with h | ⟨rfl, -⟩
    · rw [hv.eq_of_eqFlat h]
    · rfl
  | succ k ih =>
    cases eqWithin_succ.1 h with
    | flat _ _ h => rw [hv.eq_of_eqFlat h]
    | same _ _ => rfl
    | array a b hab =>
      cases hv with | scalar _ hv => cases hv | array _ ha =>
      cases hw with | scalar _ hw => cases hw | array _ hb =>
      have hitems : (s.array a).elements.toList.mapM (s.showWithin text k) =
          (s.array b).elements.toList.mapM (s.showWithin text k) := by
        rw [List.forall₂_iff_zip] at hab
        refine mapM_eq_of_forall₂ (List.forall₂_iff_zip.2 ⟨hab.1, fun {x y} hxy => ?_⟩)
        exact ih (ha x (List.of_mem_zip hxy).1) (hb y (List.of_mem_zip hxy).2) (hab.2 hxy)
      rw [showWithin, showWithin, hitems]
    | hash i j hij =>
      cases hv with | scalar _ hv => cases hv | hash _ _ hi =>
      cases hw with | scalar _ hw => cases hw | hash _ _ hj =>
      have hrows : (s.hash i).sorted.mapM (Entry.showRow (s.showWithin text k)) =
          (s.hash j).sorted.mapM (Entry.showRow (s.showWithin text k)) := by
        have hsorted := (tablesBy_iff_sorted (hs.filed i) (hs.filed j)).1 hij
        rw [List.forall₂_iff_zip] at hsorted
        refine mapM_eq_of_forall₂ (List.forall₂_iff_zip.2 ⟨hsorted.1, fun {e f} hef => ?_⟩)
        have he : e ∈ (s.hash i).entries := Table.mem_sorted.1 (List.of_mem_zip hef).1
        have hf : f ∈ (s.hash j).entries := Table.mem_sorted.1 (List.of_mem_zip hef).2
        refine (hsorted.2 hef).showRow_eq rfl rfl fun x y hx hy hxy => ?_
        exact ih (hi x (List.mem_filterMap.2 ⟨e, he, hx⟩)) (hj y (List.mem_filterMap.2 ⟨f, hf, hy⟩)) hxy
      rw [showWithin, showWithin, hrows]

/-! ## Data of one text are equal -/

/-- The kind of a datum whose text begins with `c`. -/
def leadKind (c : Char) : Option Kind :=
  if c = '-' ∨ c.isDigit then some .integer
  else if c = 't' ∨ c = 'f' then some .boolean
  else if c = '\'' then some .character
  else if c = '"' then some .string
  else if c = 'v' then some .void
  else if c = '[' then some .array
  else if c = '\x7b' then some .hash
  else none

/-- `x` begins as the texts of data of this kind do. -/
def Leads (kind : Kind) (x : List Char) : Prop := ∃ c x', x = c :: x' ∧ leadKind c = some kind

theorem Leads.append {kind : Kind} (h : Leads kind x) (r : List Char) : Leads kind (x ++ r) := by
  obtain ⟨c, x, rfl, hc⟩ := h
  exact ⟨c, x ++ r, rfl, hc⟩

theorem Leads.unique {kind kind' : Kind} (h : Leads kind x) (h' : Leads kind' x) : kind = kind' := by
  obtain ⟨c, x, rfl, hc⟩ := h
  obtain ⟨d, y, hcons, hd⟩ := h'
  rw [(List.cons.inj hcons).1, hd] at hc
  exact (Option.some.inj hc).symm

theorem Leads.exists_cons_ne {kind : Kind} {close : Char} (h : Leads kind x) (hclose : leadKind close = none) :
    ∃ c x', x = c :: x' ∧ c ≠ close := by
  obtain ⟨c, x, rfl, hc⟩ := h
  refine ⟨c, x, rfl, ?_⟩
  rintro rfl
  rw [hclose] at hc
  cases hc

theorem toList_false : (toString false).toList = ['f', 'a', 'l', 's', 'e'] := by decide

theorem toList_true : (toString true).toList = ['t', 'r', 'u', 'e'] := by decide

theorem leads_scalar (shown : Char → Bool) (hv : v.isScalar = true) : Leads v.kind (v.textShowing shown).toList := by
  cases v with
  | int n =>
    change Leads .integer (toString n.toInt).toList
    rw [toList_int]
    split
    · obtain ⟨c, x, h, hc⟩ := exists_digit_toDigits n.toInt.toNat
      exact ⟨c, x, h, if_pos (.inr hc)⟩
    · exact ⟨'-', _, rfl, rfl⟩
  | bool b =>
    cases b with
    | false => exact ⟨'f', _, toList_false, rfl⟩
    | true => exact ⟨'t', _, toList_true, rfl⟩
  | char c => exact ⟨'\'', _, String.toList_ofList, rfl⟩
  | str t => exact ⟨'"', _, String.toList_ofList, rfl⟩
  | void => exact ⟨'v', ['o', 'i', 'd'], by change "void".toList = _; decide, rfl⟩
  | _ => cases hv

/-- Scalars are told by their texts. -/
theorem tells_scalar (shown : Char → Bool) :
    Tells (fun (v : Value) x => v.isScalar = true ∧ x = (v.textShowing shown).toList) Eq := by
  rintro v w x y r r' ⟨hv, rfl⟩ ⟨hw, rfl⟩ hr hr' h
  have hkind : v.kind = w.kind := ((leads_scalar shown hv).append r).unique (h ▸ (leads_scalar shown hw).append r')
  cases v with
  | int m =>
    cases w with
    | int n =>
      obtain ⟨hmn, hrest⟩ := tells_int _ _ _ _ _ _ rfl rfl hr hr' h
      exact ⟨by rw [Int64.toInt_inj.1 hmn], hrest⟩
    | _ => cases hkind
  | bool a =>
    cases w with
    | bool b =>
      change (toString a).toList ++ r = (toString b).toList ++ r' at h
      cases a <;> cases b <;> simp_all [toList_false, toList_true]
    | _ => cases hkind
  | char c =>
    cases w with
    | char d =>
      change (String.ofList ['\'', c, '\'']).toList ++ r = (String.ofList ['\'', d, '\'']).toList ++ r' at h
      simpa using h
    | _ => cases hkind
  | str s =>
    cases w with
    | str t =>
      obtain ⟨hst, hrest⟩ := tells_quoted _ _ _ _ _ _ rfl rfl hr hr' h
      exact ⟨by rw [hst], hrest⟩
    | _ => cases hkind
  | void =>
    cases w with
    | void => exact ⟨rfl, List.append_cancel_left h⟩
    | _ => cases hkind
  | _ => cases hv

/-- `x` is the text of the datum `v`, read with `k` steps. -/
def Reads (s : Store) (shown : Char → Bool) (k : Nat) (v : Value) (x : List Char) : Prop :=
  s.IsData v ∧ ∃ t, s.showWithin (Value.textShowing shown) k v = some t ∧ t.toList = x

/-- `x` is the text of an entry that has a value. -/
def RowReads (s : Store) (shown : Char → Bool) (k : Nat) (e : Entry) (x : List Char) : Prop :=
  ∃ v y, e.value = some v ∧ e.written.isScalar = true ∧ s.Reads shown k v y ∧
    x = (e.written.textShowing shown).toList ++ ':' :: ' ' :: y

theorem Reads.array (h : s.Reads shown (k + 1) (.array a) x) :
    ∃ xs, List.Forall₂ (s.Reads shown k) (s.array a).elements.toList xs ∧
      x = '[' :: ([',', ' '].intercalate xs ++ [']']) := by
  obtain ⟨hdata, t, ht, rfl⟩ := h
  cases hdata with | scalar _ hv => cases hv | array _ ha =>
  rw [showWithin, Option.map_eq_some_iff] at ht
  obtain ⟨items, hitems, rfl⟩ := ht
  refine ⟨items.map String.toList, ?_, ?_⟩
  · rw [List.forall₂_map_right_iff]
    refine ((List.forall₂_and_left _ _).2 ⟨ha, mapM_eq_some.1 hitems⟩).imp ?_
    rintro w t ⟨hw, ht⟩
    exact ⟨hw, t, ht, rfl⟩
  · simp [String.toList_intercalate]

theorem Reads.hash (hs : s.Keyed) (hx : s.Reads shown (k + 1) (.hash h) x) :
    ∃ xs, List.Forall₂ (s.RowReads shown k) (s.hash h).sorted xs ∧
      x = '\x7b' :: ' ' :: ([',', ' '].intercalate xs ++ [' ', '\x7d']) := by
  obtain ⟨hdata, t, ht, rfl⟩ := hx
  cases hdata with | scalar _ hv => cases hv | hash _ hset hvalues =>
  rw [showWithin, Option.map_eq_some_iff] at ht
  obtain ⟨rows, hrows, rfl⟩ := ht
  refine ⟨rows.map String.toList, ?_, ?_⟩
  · rw [List.forall₂_map_right_iff]
    have hmem : ∀ e ∈ (s.hash h).sorted, e ∈ (s.hash h).entries := fun e he => Table.mem_sorted.1 he
    refine ((List.forall₂_and_left _ _).2 ⟨hmem, mapM_eq_some.1 hrows⟩).imp ?_
    rintro e row ⟨he, hrow⟩
    obtain ⟨v, hv⟩ := Option.isSome_iff_exists.1 (hset e he)
    have hscalar := isScalar_of_key? (hs h e he)
    rw [Entry.showRow, showWithin_scalar hscalar, hv, Option.getD_some, Option.bind_some, Option.map_eq_some_iff] at hrow
    obtain ⟨t, ht, rfl⟩ := hrow
    exact ⟨v, t.toList, hv, hscalar, ⟨hvalues v (List.mem_filterMap.2 ⟨e, he, hv⟩), t, ht, rfl⟩, by simp⟩
  · simp [String.toList_intercalate]

theorem Reads.leads (h : s.Reads shown k v x) : Leads v.kind x := by
  obtain ⟨hdata, t, ht, rfl⟩ := h
  cases hdata with
  | scalar _ hv =>
    rw [showWithin_scalar hv] at ht
    cases ht
    exact leads_scalar shown hv
  | array a _ =>
    cases k with
    | zero => cases ht
    | succ k =>
      obtain ⟨items, -, rfl⟩ := Option.map_eq_some_iff.1 ht
      exact ⟨'[', _, by simp only [String.toList_append]; rfl, rfl⟩
  | hash i _ _ =>
    cases k with
    | zero => cases ht
    | succ k =>
      obtain ⟨rows, -, rfl⟩ := Option.map_eq_some_iff.1 ht
      exact ⟨'\x7b', _, by simp only [String.toList_append]; rfl, rfl⟩

/-- Entries are told by their texts if their values are. -/
theorem tells_row {R : Value → Value → Prop} (h : Tells (s.Reads shown k) R) :
    Tells (s.RowReads shown k) (RowsBy R) := by
  rintro e f x y r r' ⟨v, x, hv, he, hx, rfl⟩ ⟨w, y, hw, hf, hy, rfl⟩ hr hr' heq
  rw [List.append_assoc, List.append_assoc] at heq
  obtain ⟨hwritten, hrest⟩ := tells_scalar shown _ _ _ _ _ _ ⟨he, rfl⟩ ⟨hf, rfl⟩ (stops_cons rfl) (stops_cons rfl) heq
  obtain ⟨hR, hrest⟩ := h _ _ _ _ _ _ hx hy hr hr' (List.cons.inj (List.cons.inj hrest).2).2
  exact ⟨⟨hwritten, by rw [hv, hw]; exact .some hR⟩, hrest⟩

theorem RowReads.leads {e : Entry} (h : s.RowReads shown k e x) : Leads e.written.kind x := by
  obtain ⟨v, y, -, he, -, rfl⟩ := h
  exact (leads_scalar shown he).append _

theorem Reads.kind_eq (hv : s.Reads shown k v x) (hw : s.Reads shown k w y) (h : x ++ r = y ++ r') :
    v.kind = w.kind :=
  (hv.leads.append r).unique (h ▸ hw.leads.append r')

theorem Reads.tells_scalar (hv : s.Reads shown k v x) (hw : s.Reads shown k w y) (hscalar : v.isScalar = true)
    (hr : Stops r) (hr' : Stops r') (h : x ++ r = y ++ r') : s.eqWithin k v w = some true ∧ r = r' := by
  have hkind := hv.kind_eq hw h
  have hscalar' : w.isScalar = true := by cases v <;> cases hscalar <;> cases w <;> first | rfl | cases hkind
  obtain ⟨-, t, ht, rfl⟩ := hv
  obtain ⟨-, u, hu, rfl⟩ := hw
  rw [showWithin_scalar hscalar, Option.some.injEq] at ht
  rw [showWithin_scalar hscalar', Option.some.injEq] at hu
  subst ht hu
  obtain ⟨rfl, hrest⟩ := Store.tells_scalar shown _ _ _ _ _ _ ⟨hscalar, rfl⟩ ⟨hscalar', rfl⟩ hr hr' h
  exact ⟨eqWithin_self.2 (by rintro x rfl; cases hscalar), hrest⟩

/-- Data are told by their texts, up to equality. -/
theorem tells_data (hs : s.WellFormed) (shown : Char → Bool) (k : Nat) :
    Tells (s.Reads shown k) fun v w => s.eqWithin k v w = some true := by
  induction k with
  | zero =>
    rintro v w x y r r' hv hw hr hr' h
    have hscalar : v.isScalar = true := by
      obtain ⟨hdata, t, ht, -⟩ := hv
      cases hdata with
      | scalar _ hv => exact hv
      | array | hash => cases ht
    exact hv.tells_scalar hw hscalar hr hr' h
  | succ k ih =>
    rintro v w x y r r' hv hw hr hr' h
    have hkind := hv.kind_eq hw h
    cases hv.1 with
    | scalar _ hscalar => exact hv.tells_scalar hw hscalar hr hr' h
    | array a _ =>
      cases w with
      | array b =>
        obtain ⟨xs, hxs, rfl⟩ := hv.array
        obtain ⟨ys, hys, rfl⟩ := hw.array
        simp only [List.cons_append, List.append_assoc, List.nil_append, List.cons.injEq, true_and] at h
        obtain ⟨hitems, hrest⟩ :=
          ih.joined (by decide) (by decide) (fun _ _ hx => hx.leads.exists_cons_ne rfl) hxs hys h
        exact ⟨eqWithin_succ.2 (.array a b hitems), hrest⟩
      | _ => cases hkind
    | hash i _ _ =>
      cases w with
      | hash j =>
        obtain ⟨xs, hxs, rfl⟩ := hv.hash hs.keyed
        obtain ⟨ys, hys, rfl⟩ := hw.hash hs.keyed
        simp only [List.cons_append, List.append_assoc, List.nil_append, List.cons.injEq, true_and] at h
        obtain ⟨hrows, hrest⟩ :=
          (tells_row ih).joined (by decide) (by decide) (fun _ _ hx => hx.leads.exists_cons_ne rfl) hxs hys h
        exact ⟨eqWithin_succ.2 (.hash i j ((tablesBy_iff_sorted (hs.filed i) (hs.filed j)).2 hrows)), (List.cons.inj hrest).2⟩
      | _ => cases hkind

/-! ## Texts and equality -/

theorem showing_eq_iff (hs : s.WellFormed) (hv : s.IsData v) (hw : s.IsData w) (shown : Char → Bool) :
    ∃ x y, s.inspectShowing shown v = some x ∧ s.inspectShowing shown w = some y ∧
      (x = y ↔ s.eq v w = some true) := by
  obtain ⟨x, hx⟩ := Option.isSome_iff_exists.1 ((isSome_showWithin hs.keyed).2 (within_span hv.grounded))
  obtain ⟨y, hy⟩ := Option.isSome_iff_exists.1 ((isSome_showWithin hs.keyed).2 (within_span hw.grounded))
  refine ⟨x, y, hx, hy, ?_, fun heq => ?_⟩
  · rintro rfl
    exact (tells_data hs shown s.span v w _ _ [] [] ⟨hv, _, hx, rfl⟩ ⟨hw, _, hy, rfl⟩ nofun nofun rfl).1
  · rw [showWithin_eq_of_eqWithin hs hv hw heq, hy] at hx
    exact (Option.some.inj hx).symm

/-- Data have the same text exactly if they are equal, whichever characters of strings are
written as they are. -/
theorem inspect_eq_iff (hs : s.WellFormed) (hv : s.IsData v) (hw : s.IsData w) :
    ∃ same x y, s.eq v w = some same ∧ s.inspect v = some x ∧ s.inspect w = some y ∧ (x = y ↔ same = true) ∧
      ∀ shown, ∃ x y, s.inspectShowing shown v = some x ∧ s.inspectShowing shown w = some y ∧
        (x = y ↔ same = true) := by
  obtain ⟨same, hsame⟩ := Option.isSome_iff_exists.1 (isSome_eq (w := w) hv.grounded)
  have key : ∀ shown, ∃ x y, s.inspectShowing shown v = some x ∧ s.inspectShowing shown w = some y ∧
      (x = y ↔ same = true) := by
    intro shown
    obtain ⟨x, y, hx, hy, hiff⟩ := showing_eq_iff hs hv hw shown
    rw [hsame, Option.some.injEq] at hiff
    exact ⟨x, y, hx, hy, hiff⟩
  obtain ⟨x, y, hx, hy, hiff⟩ := key isPrintable
  rw [inspectShowing_isPrintable] at hx hy
  exact ⟨same, x, y, hsame, hx, hy, hiff, key⟩

/-- Two hashes with the same entries, filled in different orders, and two arrays of the same elements. -/
theorem inspect_eq_iff_orders :
    let s : Store := {
      arrays := #[{ elements := #[.char '\'', .str "\", ", .void] }, { elements := #[.char '\'', .str "\", ", .void] }]
      hashes := #[
        { entries := [⟨.str "a", .str "a", some (.array ⟨0⟩), 0⟩, ⟨.int (-1), .int (-1), some (.bool true), 1⟩]
          nextGeneration := 2 },
        { entries := [⟨.int (-1), .int (-1), some (.bool true), 0⟩, ⟨.str "a", .str "a", some (.array ⟨1⟩), 1⟩]
          nextGeneration := 2 }] }
    s.WellFormed ∧ s.IsData (.hash ⟨0⟩) ∧ s.IsData (.hash ⟨1⟩) ∧
      ∀ shown, ∃ x, s.inspectShowing shown (.hash ⟨0⟩) = some x ∧ s.inspectShowing shown (.hash ⟨1⟩) = some x := by
  intro s
  have hs : s.WellFormed := by decide +kernel
  have harray : ∀ a, (∀ w ∈ (s.array a).elements.toList, w.isScalar = true) → s.IsData (.array a) := fun a ha =>
    .array a fun w hw => .scalar w (ha w hw)
  have hv : s.IsData (.hash ⟨0⟩) := .hash _ (by decide)
    (List.forall_mem_cons.2 ⟨harray ⟨0⟩ (by decide), List.forall_mem_singleton.2 (.scalar _ rfl)⟩)
  have hw : s.IsData (.hash ⟨1⟩) := .hash _ (by decide)
    (List.forall_mem_cons.2 ⟨.scalar _ rfl, List.forall_mem_singleton.2 (harray ⟨1⟩ (by decide))⟩)
  refine ⟨hs, hv, hw, fun shown => ?_⟩
  obtain ⟨same, x, y, hsame, -, -, -, hall⟩ := inspect_eq_iff hs hv hw
  obtain ⟨x, y, hx, hy, hiff⟩ := hall shown
  have heq : s.eq (.hash ⟨0⟩) (.hash ⟨1⟩) = some true := by decide +kernel
  rw [heq, Option.some.injEq] at hsame
  rw [hiff.2 hsame.symm] at hx
  exact ⟨y, hx, hy⟩

end Store

end CopyOnBind
