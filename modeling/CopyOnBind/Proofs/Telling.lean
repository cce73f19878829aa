import CopyOnBind.Text.Quoted
import Mathlib.Data.List.Forall2
/-!
# Texts that tell

A text in the middle of a longer one tells what it is the text of if no other text
of its sort, with something else after it, looks the same. Numbers only tell when no digit
comes after them, so what follows a text is always taken to begin with no digit (`Stops`).

Integers tell their value and quoted strings their characters, whichever characters
are escaped (`tells_int`, `tells_quoted`). Texts that tell and are joined with commas
tell the list, if the bracket after it can begin no text of an item
(`Tells.joined`).
-/

namespace CopyOnBind.Text

variable {α : Type} {r r' x y : List Char} {c d close : Char} {m n : Nat} {shown : Char → Bool}

/-- `r` begins with no digit. -/
def Stops (r : List Char) : Prop := ∀ c ∈ r.head?, c.isDigit = false

/-- Texts that look the same, whatever comes after them, are texts of related things. -/
def Tells (T : α → List Char → Prop) (R : α → α → Prop) : Prop :=
  ∀ a b x y r r', T a x → T b y → Stops r → Stops r' → x ++ r = y ++ r' → R a b ∧ r = r'

theorem stops_cons (h : c.isDigit = false) : Stops (c :: r) := by
  rintro d hd
  cases hd
  exact h

/-- Two lists that go on up to the first character outside `p` end at the same place. -/
theorem append_inj_of_head {p : Char → Bool} (hx : ∀ c ∈ x, p c = true) (hy : ∀ c ∈ y, p c = true)
    (hr : ∀ c ∈ r.head?, p c = false) (hr' : ∀ c ∈ r'.head?, p c = false) (h : x ++ r = y ++ r') : x = y ∧ r = r' := by
  have ends : ∀ r : List Char, (∀ c ∈ r.head?, p c = false) → r.takeWhile p = [] := by
    rintro (_ | ⟨c, r⟩) hr
    · rfl
    · rw [List.takeWhile_cons, hr c rfl]
      rfl
  have htake := congrArg (List.takeWhile p) h
  rw [List.takeWhile_append_of_pos hx, List.takeWhile_append_of_pos hy, ends r hr, ends r' hr',
    List.append_nil, List.append_nil] at htake
  subst htake
  exact ⟨rfl, List.append_cancel_left h⟩

/-! ## Numbers -/

theorem exists_digit_toDigits (n : Nat) : ∃ c cs, Nat.toDigits 10 n = c :: cs ∧ c.isDigit = true := by
  obtain ⟨c, cs, h⟩ := List.exists_cons_of_ne_nil (Nat.toDigits_ne_nil (n := n) (b := 10))
  exact ⟨c, cs, h, Nat.isDigit_of_mem_toDigits (by decide) (by decide) (h ▸ List.mem_cons_self)⟩

theorem toDigits_ten_append_inj (hr : Stops r) (hr' : Stops r')
    (h : Nat.toDigits 10 m ++ r = Nat.toDigits 10 n ++ r') : m = n ∧ r = r' := by
  have digits : ∀ n, ∀ c ∈ Nat.toDigits 10 n, c.isDigit = true := fun n c hc =>
    Nat.isDigit_of_mem_toDigits (by decide) (by decide) hc
  obtain ⟨heq, rfl⟩ := append_inj_of_head (digits m) (digits n) hr hr' h
  refine ⟨?_, rfl⟩
  rw [← Nat.ofDigitChars_ten_toDigits (n := m), heq, Nat.ofDigitChars_ten_toDigits]

theorem toList_int (i : Int) :
    (toString i).toList = if 0 ≤ i then Nat.toDigits 10 i.toNat else '-' :: Nat.toDigits 10 (-i).toNat := by
  rw [show toString i = i.repr from rfl, Int.repr_eq_if]
  split
  · exact Nat.toList_repr
  · rw [String.toList_append, Nat.toList_repr]
    rfl

theorem tells_int : Tells (fun (i : Int) x => x = (toString i).toList) Eq := by
  intro i j x y r r' hx hy hr hr' h
  rw [hx, hy, toList_int, toList_int] at h
  -- a minus sign is no digit
  have sign : ∀ n l, ¬ Nat.toDigits 10 n ++ r = '-' :: l ∧ ¬ '-' :: l = Nat.toDigits 10 n ++ r' := by
    intro n l
    obtain ⟨c, cs, hc, hdigit⟩ := exists_digit_toDigits n
    rw [hc, List.cons_append, List.cons_append]
    constructor
    · intro h
      rw [(List.cons.inj h).1] at hdigit
      cases hdigit
    · intro h
      rw [← (List.cons.inj h).1] at hdigit
      cases hdigit
  split at h <;> split at h
  · obtain ⟨heq, hrest⟩ := toDigits_ten_append_inj hr hr' h
    exact ⟨by omega, hrest⟩
  · exact absurd h (sign _ _).1
  · exact absurd h (sign _ _).2
  · obtain ⟨heq, hrest⟩ := toDigits_ten_append_inj hr hr' (List.cons.inj h).2
    exact ⟨by omega, hrest⟩

/-! ## Escapes -/

theorem digitChar_inj : ∀ m < 16, ∀ n < 16, m.digitChar = n.digitChar → m = n := by decide

theorem hex_inj (h : hex m = hex n) : m = n := by
  unfold hex at h
  induction m using Nat.strongRecOn generalizing n with
  | ind m ih =>
    rw [Nat.toDigits_eq_if (n := m) (by decide), Nat.toDigits_eq_if (n := n) (by decide)] at h
    split at h <;> split at h
    · next hm hn => exact digitChar_inj m hm n hn (List.cons.inj h).1
    · exact absurd (List.append_eq_singleton_iff.1 h.symm) (by simp [Nat.toDigits_ne_nil])
    · exact absurd (List.append_eq_singleton_iff.1 h) (by simp [Nat.toDigits_ne_nil])
    · next hm hn =>
      obtain ⟨hhigh, hlow⟩ := List.append_inj' h rfl
      have hdiv : m / 16 = n / 16 := ih (m / 16) (by omega) hhigh
      have hmod : m % 16 = n % 16 := digitChar_inj _ (by omega) _ (by omega) (List.cons.inj hlow).1
      omega

theorem digitChar_ne_brace : ∀ n < 16, n.digitChar ≠ '\x7d' := by decide

theorem ne_brace_of_mem_hex (hc : c ∈ hex n) : c ≠ '\x7d' := by
  unfold hex at hc
  induction n using Nat.strongRecOn with
  | ind n ih =>
    rw [Nat.toDigits_eq_if (by decide)] at hc
    split at hc
    · next hn =>
      rw [List.mem_singleton.1 hc]
      exact digitChar_ne_brace n hn
    · rcases List.mem_append.1 hc with hc | hc
      · exact ih (n / 16) (by omega) hc
      · rw [List.mem_singleton.1 hc]
        exact digitChar_ne_brace _ (by omega)

/-- The character that a letter after a backslash stands for. -/
def ofShort (e : Char) : Char :=
  if e = 'n' then '\n' else if e = 'r' then '\r' else if e = 't' then '\t' else if e = '0' then Char.ofNat 0 else e

/-- The forms in which a character is written between double quotes. -/
inductive Escape (c : Char) : List Char → Prop
  | plain : c ≠ '"' → c ≠ '\\' → Escape c [c]
  | short (e : Char) : e ≠ 'u' → ofShort e = c → Escape c ['\\', e]
  | code : Escape c ('\\' :: 'u' :: '\x7b' :: (hex c.toNat ++ ['\x7d']))

theorem escape_escapeWith (shown : Char → Bool) (c : Char) : Escape c (escapeWith shown '"' c) := by
  unfold escapeWith
  split
  · next h => rcases h with rfl | rfl <;> exact .short _ (by decide) (by decide)
  next hplain =>
  rw [not_or] at hplain
  split
  · next h => exact .short 'n' (by decide) h.symm
  split
  · next h => exact .short 'r' (by decide) h.symm
  split
  · next h => exact .short 't' (by decide) h.symm
  split
  · next h => exact .short '0' (by decide) (Char.toNat_inj.1 h.symm)
  split
  · exact .plain hplain.1 hplain.2
  · exact .code

theorem Escape.exists_cons (h : Escape c x) : ∃ e x', x = e :: x' ∧ e ≠ '"' := by
  cases h with
  | plain hquote _ => exact ⟨c, [], rfl, hquote⟩
  | short e _ _ => exact ⟨'\\', [e], rfl, by decide⟩
  | code => exact ⟨'\\', _, rfl, by decide⟩

theorem Escape.append_inj (hx : Escape c x) (hy : Escape d y) (h : x ++ r = y ++ r') : c = d ∧ r = r' := by
  cases hx with
  | plain _ hc =>
    cases hy with
    | plain => exact ⟨(List.cons.inj h).1, (List.cons.inj h).2⟩
    | short | code => exact absurd (List.cons.inj h).1 hc
  | short e he hec =>
    cases hy with
    | plain _ hd => exact absurd (List.cons.inj h).1.symm hd
    | short f _ hfd =>
      obtain ⟨hef, hrest⟩ := List.cons.inj (List.cons.inj h).2
      exact ⟨by rw [← hec, ← hfd, hef], hrest⟩
    | code => exact absurd (List.cons.inj (List.cons.inj h).2).1 he
  | code =>
    cases hy with
    | plain _ hd => exact absurd (List.cons.inj h).1.symm hd
    | short f hf _ => exact absurd (List.cons.inj (List.cons.inj h).2).1.symm hf
    | code =>
      simp only [List.cons_append, List.cons.injEq, true_and, List.append_assoc, List.nil_append] at h
      have digits : ∀ n, ∀ c ∈ hex n, (c != '\x7d') = true := fun n c hc => bne_iff_ne.2 (ne_brace_of_mem_hex hc)
      obtain ⟨hhex, hrest⟩ := append_inj_of_head (digits c.toNat) (digits d.toNat) (by simp) (by simp) h
      exact ⟨Char.toNat_inj.1 (hex_inj hhex), (List.cons.inj hrest).2⟩

theorem escaped_append_inj {cs ds : List Char}
    (h : cs.flatMap (escapeWith shown '"') ++ '"' :: r = ds.flatMap (escapeWith shown '"') ++ '"' :: r') :
    cs = ds ∧ r = r' := by
  -- no escape begins with the quote that ends the string
  have quote : ∀ c (l l' : List Char), '"' :: l ≠ escapeWith shown '"' c ++ l' := by
    intro c l l' h
    obtain ⟨e, x, hx, he⟩ := (escape_escapeWith shown c).exists_cons
    rw [hx] at h
    exact he (List.cons.inj h).1.symm
  induction cs generalizing ds with
  | nil =>
    cases ds with
    | nil => exact ⟨rfl, (List.cons.inj h).2⟩
    | cons d ds =>
      rw [List.flatMap_cons, List.append_assoc] at h
      exact absurd h (quote _ _ _)
  | cons c cs ih =>
    rw [List.flatMap_cons, List.append_assoc] at h
    cases ds with
    | nil => exact absurd h.symm (quote _ _ _)
    | cons d ds =>
      rw [List.flatMap_cons, List.append_assoc] at h
      obtain ⟨rfl, htail⟩ := (escape_escapeWith shown c).append_inj (escape_escapeWith shown d) h
      obtain ⟨rfl, hrest⟩ := ih htail
      exact ⟨rfl, hrest⟩

theorem tells_quoted : Tells (fun s x => x = (quotedWith shown s).toList) Eq := by
  intro s t x y r r' hx hy _ _ h
  simp only [hx, hy, quotedWith, String.toList_ofList, List.cons_append, List.append_assoc, List.nil_append,
    List.cons.injEq, true_and] at h
  obtain ⟨hst, hrest⟩ := escaped_append_inj h
  exact ⟨String.toList_inj.1 hst, hrest⟩

/-! ## Lists -/

theorem intercalate_cons (xs : List (List Char)) :
    [',', ' '].intercalate (x :: xs) = x ++ xs.flatMap fun y => ',' :: ' ' :: y := by
  induction xs generalizing x with
  | nil => simp
  | cons y xs ih => rw [List.intercalate_cons_cons, ih, List.flatMap_cons, List.append_assoc, List.cons_append,
      List.cons_append, List.nil_append, List.cons_append, List.cons_append]

section Lists

variable {T : α → List Char → Prop} {R : α → α → Prop} {l l' : List α} {xs ys : List (List Char)}

theorem stops_rest (hclose : close.isDigit = false) : Stops (xs.flatMap (fun y => ',' :: ' ' :: y) ++ close :: r) := by
  cases xs with
  | nil => exact stops_cons hclose
  | cons y xs => exact stops_cons rfl

theorem Tells.rest (h : Tells T R) (hclose : close.isDigit = false) (hcomma : close ≠ ',') (hx : List.Forall₂ T l xs)
    (hy : List.Forall₂ T l' ys) (heq : xs.flatMap (fun y => ',' :: ' ' :: y) ++ close :: r =
      ys.flatMap (fun y => ',' :: ' ' :: y) ++ close :: r') : List.Forall₂ R l l' ∧ r = r' := by
  induction hx generalizing l' ys with
  | nil =>
    cases hy with
    | nil => exact ⟨.nil, (List.cons.inj heq).2⟩
    | cons => exact absurd (List.cons.inj heq).1 hcomma
  | cons hx _ ih =>
    cases hy with
    | nil => exact absurd (List.cons.inj heq).1.symm hcomma
    | cons hy hys =>
      simp only [List.flatMap_cons, List.cons_append, List.append_assoc, List.cons.injEq, true_and] at heq
      obtain ⟨hR, hrest⟩ := h _ _ _ _ _ _ hx hy (stops_rest hclose) (stops_rest hclose) heq
      obtain ⟨hRs, hrest⟩ := ih hys hrest
      exact ⟨.cons hR hRs, hrest⟩

/-- Items between commas tell their list, if none of them begins like the bracket after the list. -/
theorem Tells.joined (h : Tells T R) (hclose : close.isDigit = false) (hcomma : close ≠ ',')
    (hlead : ∀ a x, T a x → ∃ c x', x = c :: x' ∧ c ≠ close) (hx : List.Forall₂ T l xs) (hy : List.Forall₂ T l' ys)
    (heq : [',', ' '].intercalate xs ++ close :: r = [',', ' '].intercalate ys ++ close :: r') :
    List.Forall₂ R l l' ∧ r = r' := by
  -- an item is not the end
  have lead : ∀ a x, T a x → ∀ r r', close :: r ≠ x ++ r' := by
    intro a x hx r r' h
    obtain ⟨c, x', rfl, hc⟩ := hlead a x hx
    exact hc (List.cons.inj h).1.symm
  cases hx with
  | nil =>
    cases hy with
    | nil => exact ⟨.nil, (List.cons.inj heq).2⟩
    | cons hy _ =>
      rw [intercalate_cons, List.append_assoc] at heq
      exact absurd heq (lead _ _ hy _ _)
  | cons hx hxs =>
    rw [intercalate_cons, List.append_assoc] at heq
    cases hy with
    | nil => exact absurd heq.symm (lead _ _ hx _ _)
    | cons hy hys =>
      rw [intercalate_cons, List.append_assoc] at heq
      obtain ⟨hR, hrest⟩ := h _ _ _ _ _ _ hx hy (stops_rest hclose) (stops_rest hclose) heq
      obtain ⟨hRs, hrest⟩ := h.rest hclose hcomma hxs hys hrest
      exact ⟨.cons hR hRs, hrest⟩

end Lists

end CopyOnBind.Text
