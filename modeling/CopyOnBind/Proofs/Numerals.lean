import CopyOnBind.Decimal.Layout
import CopyOnBind.Proofs.Telling
import Mathlib.Algebra.Order.Field.Power
import Mathlib.Data.List.Induction
import Mathlib.Data.Nat.Digits.Defs
import Mathlib.Tactic.FieldSimp
import Mathlib.Tactic.Ring
/-!
# Numerals

A decimal numeral has a sign, digits with or without a point among them, and perhaps a power of
ten. Its text can be read in one way only (`Numeral.text_injective`), so it has one value.

Both notations for a decimal are numerals, and their value is that of the decimal: positional
notation fills up with zeros, which count for nothing before the digits and move them up after
them (`Decimal.Proper.exists_writtenAs`).
-/

namespace CopyOnBind

namespace Text

variable {cs ds : List Char} {c : Char} {n : Nat}

/-- The digit that a character stands for. -/
def digit (c : Char) : Nat := c.toNat - '0'.toNat

/-- The number that a string of digits stands for; the last digit counts once, the one before ten
times, and so on. -/
def number (cs : List Char) : Nat := Nat.ofDigits 10 (cs.reverse.map digit)

@[simp] theorem number_singleton : number [c] = digit c := Nat.ofDigits_singleton

theorem number_append : number (cs ++ ds) = number cs * 10 ^ ds.length + number ds := by
  simp only [number, List.reverse_append, List.map_append, Nat.ofDigits_append, List.length_map, List.length_reverse]
  ring

theorem number_eq_ofDigitChars : number cs = Nat.ofDigitChars 10 cs 0 := by
  induction cs using List.reverseRecOn with
  | nil => rfl
  | append_singleton cs c ih =>
    rw [number_append, ih, Nat.ofDigitChars_append, Nat.ofDigitChars_cons, Nat.ofDigitChars_nil, number_singleton,
      List.length_singleton, pow_one, Nat.mul_comm]
    rfl

@[simp] theorem number_toDigits : number (Nat.toDigits 10 n) = n := by
  rw [number_eq_ofDigitChars, Nat.ofDigitChars_ten_toDigits]

@[simp] theorem number_zeros : number (Decimal.zeros n) = 0 := by
  rw [number_eq_ofDigitChars, Decimal.zeros, Nat.ofDigitChars_replicate_zero, Nat.mul_zero]

theorem digitChar_digit (hc : c.isDigit = true) : (digit c).digitChar = c := by
  obtain ⟨hlow, hhigh⟩ := Char.isDigit_iff_toNat.1 hc
  have h9 : '9'.toNat = '0'.toNat + 9 := rfl
  have hlt : digit c < 10 := by unfold digit; omega
  rw [← Char.toNat_inj, Nat.toNat_digitChar_of_lt_ten hlt]
  exact Nat.add_sub_cancel' hlow

theorem digit_digitChar (hn : n < 10) : digit n.digitChar = n := by
  rw [digit, Nat.toNat_digitChar_of_lt_ten hn]
  exact Nat.add_sub_cancel_left 48 n

end Text

/-! ## Texts of numerals -/

/-- A decimal numeral: a sign if it is negative, digits before the point, digits after it, and
perhaps a power of ten, with the sign and the digits of the power. -/
@[ext] structure Numeral where
  negative : Bool
  whole : List Char
  fraction : List Char
  power : Option (Bool × List Char)
  whole_ne_nil : whole ≠ []
  digits : ∀ c ∈ whole ++ fraction, c.isDigit = true
  power_digits : ∀ p ∈ power, p.2 ≠ [] ∧ ∀ c ∈ p.2, c.isDigit = true

namespace Numeral

/-- A numeral without digits after the point has no point. -/
def pointText (fraction : List Char) : List Char := if fraction = [] then [] else '.' :: fraction

/-- A power of ten has a sign also if it is positive. -/
def powerText : Option (Bool × List Char) → List Char
  | none => []
  | some (negative, ds) => 'e' :: (if negative then '-' else '+') :: ds

def text (n : Numeral) : List Char :=
  (if n.negative then ['-'] else []) ++ (n.whole ++ (pointText n.fraction ++ powerText n.power))

/-- The exponent of the power of ten; nought if none is written. -/
def exponent : Option (Bool × List Char) → Int
  | none => 0
  | some (negative, ds) => if negative then -(Text.number ds : Int) else Text.number ds

/-- The number that a numeral denotes. -/
def value (n : Numeral) : ℚ :=
  (if n.negative then -1 else 1) * (Text.number n.whole + Text.number n.fraction / 10 ^ n.fraction.length) *
    10 ^ exponent n.power

open Text

theorem stops_powerText (p : Option (Bool × List Char)) : Stops (powerText p) := by
  cases p with
  | none => rintro c ⟨⟩
  | some p => exact stops_cons rfl

theorem stops_point_power (fraction : List Char) (p : Option (Bool × List Char)) :
    Stops (pointText fraction ++ powerText p) := by
  unfold pointText
  split
  · exact stops_powerText p
  · exact stops_cons rfl

theorem powerText_injective {p p' : Option (Bool × List Char)} (h : powerText p = powerText p') : p = p' := by
  rcases p with _ | ⟨_ | _, ds⟩ <;> rcases p' with _ | ⟨_ | _, ds'⟩ <;> simp_all [powerText]

theorem pointText_append_inj {f f' : List Char} {p p' : Option (Bool × List Char)} (hf : ∀ c ∈ f, c.isDigit = true)
    (hf' : ∀ c ∈ f', c.isDigit = true) (h : pointText f ++ powerText p = pointText f' ++ powerText p') :
    f = f' ∧ p = p' := by
  -- a power of ten does not begin with a point
  have point : ∀ (l : List Char) (p : Option (Bool × List Char)), '.' :: l ≠ powerText p := by
    intro l p hp
    cases p with
    | none => cases hp
    | some p => exact absurd (List.cons.inj hp).1 (by decide)
  unfold pointText at h
  split at h <;> split at h
  · next hnil hnil' => exact ⟨hnil.trans hnil'.symm, powerText_injective h⟩
  · exact absurd h.symm (point _ _)
  · exact absurd h (point _ _)
  · obtain ⟨hff', hpp'⟩ :=
      append_inj_of_head hf hf' (stops_powerText p) (stops_powerText p') (List.cons.inj h).2
    exact ⟨hff', powerText_injective hpp'⟩

/-- A text is the text of one numeral only. -/
theorem text_injective {n m : Numeral} (h : n.text = m.text) : n = m := by
  -- the digits before the point begin with no sign
  have sign : ∀ (n : Numeral) (l l' : List Char), '-' :: l ≠ n.whole ++ l' := by
    intro n l l' h
    obtain ⟨c, cs, hwhole⟩ := List.exists_cons_of_ne_nil n.whole_ne_nil
    have hdigit := n.digits c (by simp [hwhole])
    rw [hwhole] at h
    rw [← (List.cons.inj h).1] at hdigit
    cases hdigit
  have rest : ∀ {n m : Numeral}, n.whole ++ (pointText n.fraction ++ powerText n.power) =
      m.whole ++ (pointText m.fraction ++ powerText m.power) →
      n.whole = m.whole ∧ n.fraction = m.fraction ∧ n.power = m.power := by
    intro n m h
    obtain ⟨hwhole, hrest⟩ := append_inj_of_head (fun c hc => n.digits c (List.mem_append_left _ hc))
      (fun c hc => m.digits c (List.mem_append_left _ hc)) (stops_point_power _ _) (stops_point_power _ _) h
    exact ⟨hwhole, pointText_append_inj (fun c hc => n.digits c (List.mem_append_right _ hc))
      (fun c hc => m.digits c (List.mem_append_right _ hc)) hrest⟩
  have signs : n.negative = m.negative ∧ n.whole ++ (pointText n.fraction ++ powerText n.power) =
      m.whole ++ (pointText m.fraction ++ powerText m.power) := by
    unfold text at h
    cases hn : n.negative <;> cases hm : m.negative <;> rw [hn, hm] at h
    · exact ⟨rfl, h⟩
    · exact absurd h.symm (sign _ _ _)
    · exact absurd h (sign _ _ _)
    · exact ⟨rfl, (List.cons.inj h).2⟩
  obtain ⟨hnegative, hrest⟩ := signs
  obtain ⟨hwhole, hfraction, hpower⟩ := rest hrest
  exact Numeral.ext hnegative hwhole hfraction hpower

/-- The digits count as one number, with the point moved to their end. -/
theorem value_eq (n : Numeral) : n.value = (if n.negative then -1 else 1) * number (n.whole ++ n.fraction) *
    10 ^ (exponent n.power - n.fraction.length) := by
  have hten : (10 : ℚ) ^ n.fraction.length ≠ 0 := pow_ne_zero _ (by norm_num)
  rw [value, number_append, zpow_sub₀ (by norm_num), zpow_natCast]
  push_cast
  field_simp

/-- The numeral that has the point after the first `k` digits of `cs`. -/
def placed (negative : Bool) (k : Nat) (cs : List Char) (power : Option (Bool × List Char)) (hk : k ≠ 0) (hcs : cs ≠ [])
    (hdigits : ∀ c ∈ cs, c.isDigit = true) (hpower : ∀ p ∈ power, p.2 ≠ [] ∧ ∀ c ∈ p.2, c.isDigit = true) : Numeral where
  negative
  whole := cs.take k
  fraction := cs.drop k
  power
  whole_ne_nil := by simp [List.take_eq_nil_iff, hk, hcs]
  digits := by rwa [List.take_append_drop]
  power_digits := hpower

section placed

variable {negative : Bool} {k : Nat} {cs : List Char} {power : Option (Bool × List Char)} {hk : k ≠ 0} {hcs : cs ≠ []}
  {hdigits : ∀ c ∈ cs, c.isDigit = true} {hpower : ∀ p ∈ power, p.2 ≠ [] ∧ ∀ c ∈ p.2, c.isDigit = true}

theorem text_placed : (placed negative k cs power hk hcs hdigits hpower).text =
    (if negative then ['-'] else []) ++ (Decimal.pointed k cs ++ powerText power) := by
  have hpoint : Decimal.pointed k cs = cs.take k ++ pointText (cs.drop k) := by
    unfold Decimal.pointed pointText
    by_cases h : cs.length ≤ k
    · rw [if_pos h, if_pos (List.drop_eq_nil_of_le h), List.append_nil, List.take_of_length_le h]
    · rw [if_neg h, if_neg (mt List.drop_eq_nil_iff.1 h)]
  rw [hpoint, List.append_assoc]
  rfl

theorem value_placed : (placed negative k cs power hk hcs hdigits hpower).value =
    (if negative then -1 else 1) * (number cs * 10 ^ (exponent power - (cs.length - k : Nat))) := by
  have hdigits : (cs.take k ++ cs.drop k) = cs := List.take_append_drop k cs
  rw [value_eq, mul_assoc, ← List.length_drop]
  congr 3
  exact congrArg _ hdigits

end placed

end Numeral

/-! ## Written decimals -/

namespace Decimal

open Text

/-- A decimal has a digit, and digits are below ten. -/
structure Proper (d : Decimal) : Prop where
  ne_nil : d.digits ≠ []
  lt_ten : ∀ a ∈ d.digits, a < 10

/-- The number `d.ddd * 10 ^ exponent`. -/
def value (d : Decimal) : ℚ :=
  (Nat.ofDigits 10 d.digits.reverse : Nat) / 10 ^ (d.digits.length - 1) * 10 ^ d.exponent

/-- The numeral writes the decimal with a sign. Unless the exponent is from -4 to 5, its digits are those of the decimal,
with a point after the first, and a power of ten follows that has two digits at least. -/
structure WrittenAs (d : Decimal) (negative : Bool) (n : Numeral) : Prop where
  sign : n.negative = negative
  value : n.value = (if negative then -1 else 1) * d.value
  positional : -4 ≤ d.exponent ∧ d.exponent < 6 → n.power = none
  exponential : ¬(-4 ≤ d.exponent ∧ d.exponent < 6) → n.whole.length = 1 ∧ n.whole ++ n.fraction = digitChars d.digits ∧
    ∃ ds, n.power = some (decide (d.exponent < 0), ds) ∧ 2 ≤ ds.length ∧ number ds = d.exponent.natAbs

variable {d : Decimal} {n : Nat} {e : Int}

theorem isDigit_zeros : ∀ c ∈ zeros n, c.isDigit = true := by
  intro c hc
  rw [List.eq_of_mem_replicate hc]
  rfl

theorem digitChars_digitsOf : digitChars (digitsOf n) = Nat.toDigits 10 n := by
  rw [digitChars, digitsOf, List.map_map]
  refine (List.map_congr_left fun c hc => ?_).trans (List.map_id _)
  exact digitChar_digit (Nat.isDigit_of_mem_toDigits (by decide) (by decide) hc)

/-! ### Powers of ten -/

/-- The digits of an exponent, two at least. -/
def exponentDigits (e : Int) : List Char := zeros (2 - (Nat.toDigits 10 e.natAbs).length) ++ Nat.toDigits 10 e.natAbs

theorem exponentChars_eq : exponentChars e = Numeral.powerText (some (decide (e < 0), exponentDigits e)) := by
  simp only [exponentChars, digitChars_digitsOf, Numeral.powerText, decide_eq_true_eq]
  rfl

theorem isDigit_exponentDigits : ∀ c ∈ exponentDigits e, c.isDigit = true := by
  intro c hc
  rcases List.mem_append.1 hc with hc | hc
  · exact isDigit_zeros c hc
  · exact Nat.isDigit_of_mem_toDigits (by decide) (by decide) hc

theorem two_le_length_exponentDigits : 2 ≤ (exponentDigits e).length := by
  simp only [exponentDigits, zeros, List.length_append, List.length_replicate]
  omega

theorem number_exponentDigits : number (exponentDigits e) = e.natAbs := by
  rw [exponentDigits, number_append, number_zeros, Nat.zero_mul, Nat.zero_add, number_toDigits]

theorem exponent_exponentDigits : Numeral.exponent (some (decide (e < 0), exponentDigits e)) = e := by
  simp only [Numeral.exponent, number_exponentDigits, decide_eq_true_eq]
  split <;> omega

namespace Proper

theorem length_pos (h : d.Proper) : 0 < d.digits.length := List.length_pos_of_ne_nil h.ne_nil

theorem value_eq (h : d.Proper) : d.value =
    (Nat.ofDigits 10 d.digits.reverse : Nat) * 10 ^ (d.exponent + 1 - d.digits.length) := by
  have hpos := h.length_pos
  have hexp : d.exponent + 1 - d.digits.length = d.exponent - (d.digits.length - 1 : Nat) := by omega
  rw [value, hexp, zpow_sub₀ (by norm_num), zpow_natCast]
  ring

theorem isDigit (h : d.Proper) : ∀ c ∈ digitChars d.digits, c.isDigit = true := by
  intro c hc
  obtain ⟨a, ha, rfl⟩ := List.mem_map.1 hc
  rw [Nat.isDigit_digitChar]
  exact decide_eq_true (h.lt_ten a ha)

theorem number_digitChars (h : d.Proper) : number (digitChars d.digits) = Nat.ofDigits 10 d.digits.reverse := by
  rw [number, digitChars, ← List.map_reverse, List.map_map]
  congr 1
  refine (List.map_congr_left fun a ha => ?_).trans (List.map_id _)
  exact digit_digitChar (h.lt_ten a (List.mem_reverse.1 ha))

theorem digitChars_ne_nil (h : d.Proper) : digitChars d.digits ≠ [] := mt List.map_eq_nil_iff.1 h.ne_nil

/-- Positional notation has a point among the digits and the zeros before or after them. -/
theorem exists_positional (h : d.Proper) : ∃ k cs, k ≠ 0 ∧ cs ≠ [] ∧ (∀ c ∈ cs, c.isDigit = true) ∧
    d.positional = pointed k cs ∧ (number cs : ℚ) * 10 ^ (0 - (cs.length - k : Nat) : Int) = d.value := by
  have hpos := h.length_pos
  have hlen : (digitChars d.digits).length = d.digits.length := List.length_map ..
  rw [h.value_eq]
  unfold positional
  split
  · next k hexp =>
    refine ⟨1, zeros (k + 1) ++ digitChars d.digits, one_ne_zero, ?_, ?_, ?_, ?_⟩
    · exact List.append_ne_nil_of_right_ne_nil _ h.digitChars_ne_nil
    · rw [List.forall_mem_append]
      exact ⟨isDigit_zeros, h.isDigit⟩
    · rw [pointed, if_neg (by simp [zeros, hlen]; omega)]
      rfl
    · rw [number_append, number_zeros, Nat.zero_mul, Nat.zero_add, h.number_digitChars, hexp]
      congr 2
      simp only [zeros, List.length_append, List.length_replicate, hlen]
      omega
  · next k hexp =>
    refine ⟨k + 1, digitChars d.digits ++ zeros (k + 1 - d.digits.length), k.succ_ne_zero, ?_, ?_, rfl, ?_⟩
    · exact List.append_ne_nil_of_left_ne_nil h.digitChars_ne_nil _
    · rw [List.forall_mem_append]
      exact ⟨h.isDigit, isDigit_zeros⟩
    · have hzeros : (zeros (k + 1 - d.digits.length)).length = k + 1 - d.digits.length := List.length_replicate
      rw [number_append, number_zeros, Nat.add_zero, h.number_digitChars, List.length_append, hlen, hzeros, hexp]
      push_cast
      rw [mul_assoc, ← zpow_natCast, ← zpow_add₀ (by norm_num)]
      congr 2
      rw [Int.ofNat_eq_natCast]
      omega

/-- A decimal is written as a numeral of the same value. -/
theorem exists_writtenAs (h : d.Proper) (negative : Bool) :
    ∃ n : Numeral, (signed negative d.inspect).toList = n.text ∧ d.WrittenAs negative n := by
  have htext : ∀ cs : List Char, (signed negative cs).toList = (if negative then ['-'] else []) ++ cs := by
    intro cs
    rw [signed, String.toList_ofList]
    cases negative <;> rfl
  have hmoderate : isModerate d.exponent = true ↔ -4 ≤ d.exponent ∧ d.exponent < 6 := by simp [isModerate]
  by_cases he : -4 ≤ d.exponent ∧ d.exponent < 6
  · obtain ⟨k, cs, hk, hcs, hdigits, heq, hvalue⟩ := h.exists_positional
    refine ⟨.placed negative k cs none hk hcs hdigits nofun, ?_, rfl, ?_, fun _ => rfl, absurd he⟩
    · rw [htext, Numeral.text_placed, inspect, if_pos (hmoderate.2 he), heq, Numeral.powerText, List.append_nil]
    · rw [Numeral.value_placed, Numeral.exponent, hvalue]
  · refine ⟨.placed negative 1 (digitChars d.digits) (some (decide (d.exponent < 0), exponentDigits d.exponent))
      one_ne_zero h.digitChars_ne_nil h.isDigit ?_, ?_, rfl, ?_, fun h => absurd h he, fun _ => ⟨?_, ?_, ?_⟩⟩
    · rintro p ⟨⟩
      exact ⟨List.ne_nil_of_length_pos (Nat.lt_of_lt_of_le two_pos two_le_length_exponentDigits), isDigit_exponentDigits⟩
    · rw [htext, Numeral.text_placed, inspect, if_neg (mt hmoderate.1 he), exponential, exponentChars_eq]
    · have hlen : (digitChars d.digits).length = d.digits.length := List.length_map ..
      have hpos := h.length_pos
      rw [Numeral.value_placed, exponent_exponentDigits, h.number_digitChars, h.value_eq, hlen]
      congr 3
      omega
    · have hpos := List.length_pos_of_ne_nil h.digitChars_ne_nil
      exact (List.length_take ..).trans (Nat.min_eq_left hpos)
    · exact List.take_append_drop ..
    · exact ⟨_, rfl, two_le_length_exponentDigits, number_exponentDigits⟩

end Proper

end Decimal

end CopyOnBind
