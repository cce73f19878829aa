import CopyOnBind.Proofs.Numerals
import Mathlib.Tactic.Linarith
import Mathlib.Tactic.Positivity
/-!
# Rounding

The reals that are read as one number of the binary format form an interval around it, `Interval.Holds`; the sign is left
out here. Two numbers have no real in common (`Fits.unique`): where their intervals meet, one has an even `m` and the
common end, and the other does not.

The decimals with `n` digits and the number's magnitude form a grid, and if any of them is in the interval, a neighbour
of the number is (`Interval.withDigits?_spec`). So the search finds the least number of digits that will do, and it has
ended by seventeen (`Fits.exists_holds`).

`Fits.isShortest`: what is found is in the interval, and no decimal with fewer digits is.
-/

namespace CopyOnBind.Decimal

variable {n k num den : Nat} {e : Int}

/-! ## Powers and digits -/

theorem pow_toNat_div {b : ℚ} (hb : b ≠ 0) (z : Int) : b ^ z.toNat / b ^ (-z).toNat = b ^ z := by
  rw [← zpow_natCast, ← zpow_natCast, ← zpow_sub₀ hb]
  congr 1
  omega

theorem digitCount_pos (hn : 0 < n) : 0 < digitCount n := by
  rw [digitCount, if_neg hn.ne']
  exact Nat.length_toDigits_pos

theorem digitCount_le_iff (hn : 0 < n) (hk : 0 < k) : digitCount n ≤ k ↔ n < 10 ^ k := by
  rw [digitCount, if_neg hn.ne']
  exact Nat.length_toDigits_le_iff (by decide) hk

theorem digitCount_spec (hn : 0 < n) : ∃ c, digitCount n = c + 1 ∧ 10 ^ c ≤ n ∧ n < 10 ^ (c + 1) := by
  obtain ⟨c, hc⟩ : ∃ c, digitCount n = c + 1 := Nat.exists_eq_add_one.2 (digitCount_pos hn)
  refine ⟨c, hc, ?_, (digitCount_le_iff hn c.succ_pos).1 hc.le⟩
  rcases Nat.eq_zero_or_pos c with rfl | hpos
  · exact hn
  · by_contra hlt
    have hle := (digitCount_le_iff hn hpos).2 (Nat.lt_of_not_le hlt)
    omega

/-- The magnitude of a fraction is the exponent of its first digit. -/
theorem magnitude_spec (hnum : 0 < num) (hden : 0 < den) :
    (10 : ℚ) ^ magnitude num den ≤ num / den ∧ (num / den : ℚ) < 10 ^ (magnitude num den + 1) := by
  have hden' : (0 : ℚ) < den := by exact_mod_cast hden
  rw [le_div_iff₀ hden', div_lt_iff₀ hden']
  unfold magnitude
  split
  · next h =>
    obtain ⟨c, hc, hlow, hhigh⟩ := digitCount_spec (Nat.div_pos h hden)
    rw [Nat.le_div_iff_mul_le hden] at hlow
    rw [Nat.div_lt_iff_lt_mul hden] at hhigh
    have hexp : ((c + 1 : Nat) : Int) - 1 = c := by omega
    have hexp' : (c : Int) + 1 = (c + 1 : Nat) := by omega
    rw [hc, hexp, hexp', zpow_natCast, zpow_natCast]
    exact ⟨by exact_mod_cast hlow, by exact_mod_cast hhigh⟩
  · next h =>
    -- below one, the digits of the inverse are counted
    obtain ⟨c, hc, hlow, hhigh⟩ := digitCount_spec (Nat.div_pos (by omega : num ≤ den - 1) hnum)
    rw [Nat.le_div_iff_mul_le hnum] at hlow
    rw [Nat.div_lt_iff_lt_mul hnum] at hhigh
    have hexp : -((c + 1 : Nat) : Int) + 1 = -(c : Int) := by omega
    have hlow' : 10 ^ c * num < den := by omega
    have hhigh' : den ≤ 10 ^ (c + 1) * num := by omega
    rw [hc, hexp, zpow_neg, zpow_neg, zpow_natCast, zpow_natCast, inv_mul_le_iff₀ (by positivity),
      lt_inv_mul_iff₀ (by positivity)]
    exact ⟨by exact_mod_cast hhigh', by exact_mod_cast hlow'⟩

theorem proper_digitsOf : (⟨digitsOf k, e⟩ : Decimal).Proper where
  ne_nil := mt List.map_eq_nil_iff.1 Nat.toDigits_ne_nil
  lt_ten := by
    intro a ha
    obtain ⟨c, hc, rfl⟩ := List.mem_map.1 ha
    have hdigit := Char.isDigit_iff_toNat.1 (Nat.isDigit_of_mem_toDigits (by decide) (by decide) hc)
    have h9 : '9'.toNat = '0'.toNat + 9 := rfl
    omega

theorem ofDigits_digitsOf : Nat.ofDigits 10 (digitsOf k).reverse = k := by
  rw [digitsOf, ← List.map_reverse]
  exact Text.number_toDigits

theorem length_digitsOf (hn : 0 < n) (hlow : 10 ^ (n - 1) ≤ k) (hhigh : k < 10 ^ n) : (digitsOf k).length = n := by
  have hk : 0 < k := Nat.lt_of_lt_of_le (Nat.pow_pos (by decide)) hlow
  have hcount : (digitsOf k).length = digitCount k := by rw [digitsOf, List.length_map, digitCount, if_neg hk.ne']
  have hle := (digitCount_le_iff hk hn).2 hhigh
  have hpos := digitCount_pos hk
  have hge : ¬ (0 < n - 1 ∧ digitCount k ≤ n - 1) := fun h =>
    Nat.not_lt_of_le hlow ((digitCount_le_iff hk h.1).1 h.2)
  omega

/-! ## Intervals -/

namespace Interval

variable {i : Interval} {v w x : ℚ}

/-- The fractions of an interval are in order. -/
structure Ordered (i : Interval) : Prop where
  den_pos : 0 < i.den
  num_pos : 0 < i.num
  below_lt : i.below < i.num
  lt_above : i.num < i.above

/-- The real is in the interval. -/
def Holds (i : Interval) (v : ℚ) : Prop :=
  if i.closed = true then (i.below / i.den : ℚ) ≤ v ∧ v ≤ i.above / i.den
  else (i.below / i.den : ℚ) < v ∧ v < i.above / i.den

theorem holds_of_lt (hlow : (i.below / i.den : ℚ) < v) (hhigh : v < i.above / i.den) : i.Holds v := by
  unfold Holds
  split
  · exact ⟨hlow.le, hhigh.le⟩
  · exact ⟨hlow, hhigh⟩

theorem Holds.lower (hv : i.Holds v) :
    (i.below / i.den : ℚ) ≤ v ∧ (¬ i.closed = true → (i.below / i.den : ℚ) < v) := by
  unfold Holds at hv
  split at hv
  · next hclosed => exact ⟨hv.1, absurd hclosed⟩
  · exact ⟨hv.1.le, fun _ => hv.1⟩

theorem Holds.upper (hv : i.Holds v) :
    v ≤ (i.above / i.den : ℚ) ∧ (¬ i.closed = true → v < (i.above / i.den : ℚ)) := by
  unfold Holds at hv
  split at hv
  · next hclosed => exact ⟨hv.2, absurd hclosed⟩
  · exact ⟨hv.2.le, fun _ => hv.2⟩

theorem Holds.between (hv : i.Holds v) (hx : i.Holds x) (hvw : v ≤ w) (hwx : w ≤ x) : i.Holds w := by
  unfold Holds at *
  by_cases hclosed : i.closed = true
  · rw [if_pos hclosed] at *
    exact ⟨hv.1.trans hvw, hwx.trans hx.2⟩
  · rw [if_neg hclosed] at *
    exact ⟨hv.1.trans_le hvw, hwx.trans_lt hx.2⟩

theorem Ordered.holds (hi : i.Ordered) : i.Holds (i.num / i.den) := by
  have hden : (0 : ℚ) < i.den := by exact_mod_cast hi.den_pos
  exact holds_of_lt (div_lt_div_of_pos_right (by exact_mod_cast hi.below_lt) hden)
    (div_lt_div_of_pos_right (by exact_mod_cast hi.lt_above) hden)

theorem covers_iff (hi : i.Ordered) {step one : Nat} (hone : 0 < one) :
    i.covers k step one = true ↔ i.Holds (k * (step / one)) := by
  have hden : (0 : ℚ) < i.den := by exact_mod_cast hi.den_pos
  have hone' : (0 : ℚ) < one := by exact_mod_cast hone
  have hmul : (k * (step / one) : ℚ) = (k * step : Nat) / one := by push_cast; ring
  unfold covers Holds
  rw [hmul, div_le_div_iff₀ hden hone', div_le_div_iff₀ hone' hden, div_lt_div_iff₀ hden hone',
    div_lt_div_iff₀ hone' hden]
  norm_cast
  split <;> simp

/-! ### Grids -/

/-- The distance between decimals with `n` digits and magnitude `e`. -/
def spacing (e : Int) (n : Nat) : ℚ := 10 ^ (e - n + 1)

/-- The neighbour of the number on the grid, the one that is not above it. -/
def down (i : Interval) (e : Int) (n : Nat) : Nat :=
  i.num * Nat.pow 10 (-(e - (n : Int) + 1)).toNat / (Nat.pow 10 (e - (n : Int) + 1).toNat * i.den)

/-- The decimal for the point `k` of a grid. -/
def gridPoint (e : Int) (n k : Nat) : Decimal := if k = 10 ^ n then ⟨[1], e + 1⟩ else ⟨digitsOf k, e⟩

theorem spacing_pos : 0 < spacing e n := zpow_pos (by norm_num) _

theorem spacing_eq :
    spacing e n = (Nat.pow 10 (e - (n : Int) + 1).toNat : Nat) / (Nat.pow 10 (-(e - (n : Int) + 1)).toNat : Nat) := by
  rw [spacing, ← pow_toNat_div (by norm_num), Nat.pow_eq, Nat.pow_eq]
  push_cast
  rfl

theorem first_mul_spacing (hn : 0 < n) : 10 ^ (n - 1) * spacing e n = 10 ^ e := by
  rw [spacing, ← zpow_natCast, ← zpow_add₀ (by norm_num)]
  congr 1
  omega

theorem last_mul_spacing : 10 ^ n * spacing e n = 10 ^ (e + 1) := by
  rw [spacing, ← zpow_natCast, ← zpow_add₀ (by norm_num)]
  congr 1
  omega

/-- A grid point is a decimal with `n` digits at most. -/
theorem gridPoint_spec (hn : 0 < n) (hlow : 10 ^ (n - 1) ≤ k) (hhigh : k ≤ 10 ^ n) :
    (gridPoint e n k).Proper ∧ (gridPoint e n k).digits.length ≤ n ∧ (gridPoint e n k).value = k * spacing e n := by
  unfold gridPoint
  split
  · next hk =>
    refine ⟨⟨by simp, by simp⟩, hn, ?_⟩
    rw [hk]
    push_cast
    rw [last_mul_spacing]
    simp [value]
  · next hk =>
    have hlen := length_digitsOf hn hlow (Nat.lt_of_le_of_ne hhigh hk)
    refine ⟨proper_digitsOf, hlen.le, ?_⟩
    have hexp : e + 1 - (n : Int) = e - n + 1 := by omega
    rw [proper_digitsOf.value_eq, hlen, ofDigits_digitsOf, spacing, hexp]

theorem down_spec (hi : i.Ordered) :
    i.down e n * spacing e n ≤ i.num / i.den ∧ (i.num / i.den : ℚ) < (i.down e n + 1) * spacing e n := by
  have hden : (0 : ℚ) < i.den := by exact_mod_cast hi.den_pos
  rw [spacing_eq]
  unfold down
  have hstep : 0 < Nat.pow 10 (e - (n : Int) + 1).toNat := Nat.pow_pos (by decide)
  have hone : 0 < Nat.pow 10 (-(e - (n : Int) + 1)).toNat := Nat.pow_pos (by decide)
  generalize Nat.pow 10 (e - (n : Int) + 1).toNat = step at *
  generalize Nat.pow 10 (-(e - (n : Int) + 1)).toNat = one at *
  have hone' : (0 : ℚ) < one := by exact_mod_cast hone
  have hlow := Nat.div_mul_le_self (i.num * one) (step * i.den)
  have hhigh := Nat.lt_mul_div_succ (i.num * one) (Nat.mul_pos hstep hi.den_pos)
  generalize i.num * one / (step * i.den) = d at *
  have hlow' : d * step * i.den ≤ i.num * one := by rwa [Nat.mul_assoc]
  have hhigh' : i.num * one < (d + 1) * step * i.den := by rwa [Nat.mul_assoc, Nat.mul_comm (d + 1)]
  have hdiv : ∀ y : ℚ, y * (step / one) = y * step / one := fun y => (mul_div_assoc ..).symm
  rw [hdiv, hdiv, div_le_div_iff₀ hone' hden, div_lt_div_iff₀ hden hone']
  exact ⟨by exact_mod_cast hlow', by exact_mod_cast hhigh'⟩

theorem down_bounds (hi : i.Ordered) (hn : 0 < n) (he : e = magnitude i.num i.den) :
    10 ^ (n - 1) ≤ i.down e n ∧ i.down e n + 1 ≤ 10 ^ n := by
  obtain ⟨hlow, hhigh⟩ := down_spec hi (e := e) (n := n)
  obtain ⟨hmag, hmag'⟩ := magnitude_spec hi.num_pos hi.den_pos
  rw [← he, ← first_mul_spacing hn] at hmag
  rw [← he, ← last_mul_spacing (n := n)] at hmag'
  have hge := lt_of_mul_lt_mul_right (hmag.trans_lt hhigh) spacing_pos.le
  have hle := lt_of_mul_lt_mul_right (hlow.trans_lt hmag') spacing_pos.le
  exact ⟨Nat.le_of_lt_succ (by exact_mod_cast hge), by exact_mod_cast hle⟩

/-- A neighbour of the number is taken that is in the interval, if there is one. -/
theorem withDigits?_eq (hi : i.Ordered) : ∃ c : Option Nat, i.withDigits? e n = c.map (gridPoint e n) ∧
    (∀ k ∈ c, (k = i.down e n ∨ k = i.down e n + 1) ∧ i.Holds (k * spacing e n)) ∧
    (c = none → ¬ i.Holds (i.down e n * spacing e n) ∧ ¬ i.Holds ((i.down e n + 1 : Nat) * spacing e n)) := by
  have hcovers : ∀ k : Nat, i.Holds (k * spacing e n) ↔
      i.covers k (Nat.pow 10 (e - n + 1).toNat) (Nat.pow 10 (-(e - n + 1)).toNat) = true := by
    intro k
    rw [spacing_eq]
    exact (covers_iff hi (Nat.pow_pos (Nat.succ_pos 9))).symm
  simp only [hcovers]
  refine ⟨_, rfl, fun k hk => ?_, fun hc => ?_⟩
  · split at hk
    · next hdown hup =>
      split at hk <;> cases hk
      · exact ⟨.inl rfl, hdown⟩
      · exact ⟨.inr rfl, hup⟩
    · next hdown _ =>
      cases hk
      exact ⟨.inl rfl, hdown⟩
    · next _ hup =>
      cases hk
      exact ⟨.inr rfl, hup⟩
    · cases hk
  · split at hc
    · split at hc <;> cases hc
    · cases hc
    · cases hc
    · next hdown hup => exact ⟨ne_true_of_eq_false hdown, ne_true_of_eq_false hup⟩

theorem withDigits?_spec (hi : i.Ordered) (hn : 0 < n) (he : e = magnitude i.num i.den) :
    match i.withDigits? e n with
    | none => ∀ k : Nat, ¬ i.Holds (k * spacing e n)
    | some d => ∃ k : Nat, 10 ^ (n - 1) ≤ k ∧ k ≤ 10 ^ n ∧ i.Holds (k * spacing e n) ∧ d = gridPoint e n k := by
  obtain ⟨hlow, hhigh⟩ := down_spec hi (e := e) (n := n)
  obtain ⟨hge, hle⟩ := down_bounds hi hn he
  obtain ⟨c, hc, hsome, hnone⟩ := withDigits?_eq hi (e := e) (n := n)
  rw [hc]
  cases c with
  | none =>
    obtain ⟨hdown, hup⟩ := hnone rfl
    intro k hk
    -- between the number and any other point there is a neighbour
    rcases Nat.lt_or_ge (i.down e n) k with h | h
    · refine hup (hi.holds.between hk ?_ ?_)
      · exact_mod_cast hhigh.le
      · exact mul_le_mul_of_nonneg_right (by exact_mod_cast h) spacing_pos.le
    · refine hdown (hk.between hi.holds ?_ hlow)
      exact mul_le_mul_of_nonneg_right (by exact_mod_cast h) spacing_pos.le
  | some k =>
    obtain ⟨hk, hholds⟩ := hsome k rfl
    exact ⟨k, by omega, by omega, hholds, rfl⟩

/-- The search stops at the first number of digits with a decimal. -/
theorem search_spec (i : Interval) (e : Int) (tries n : Nat) :
    match i.search e tries n with
    | none => ∀ j, n ≤ j → j < n + tries → i.withDigits? e j = none
    | some d => ∃ j, n ≤ j ∧ i.withDigits? e j = some d ∧ ∀ l, n ≤ l → l < j → i.withDigits? e l = none := by
  induction tries generalizing n with
  | zero =>
    intro j hj hlt
    omega
  | succ tries ih =>
    rw [search]
    cases hn : i.withDigits? e n with
    | some d => exact ⟨n, le_rfl, hn, fun l hl hlt => absurd hl (Nat.not_le_of_lt hlt)⟩
    | none =>
      have extend : ∀ j, (∀ l, n + 1 ≤ l → l < j → i.withDigits? e l = none) →
          ∀ l, n ≤ l → l < j → i.withDigits? e l = none := by
        intro j h l hl hlt
        rcases Nat.eq_or_lt_of_le hl with rfl | hl
        · exact hn
        · exact h l hl hlt
      have ih := ih (n + 1)
      rw [Option.orElse_none]
      cases hs : i.search e tries (n + 1) with
      | none =>
        rw [hs] at ih
        exact extend _ fun j hj hlt => ih j hj (by omega)
      | some d =>
        rw [hs] at ih
        obtain ⟨j, hj, hd, hnone⟩ := ih
        exact ⟨j, by omega, hd, extend j hnone⟩

/-- If a decimal is in the interval, so is a point of the grid for its number of digits. -/
theorem Holds.exists_gridPoint (hi : i.Ordered) {d : Decimal} (hd : d.Proper) (hholds : i.Holds d.value)
    (he : e = magnitude i.num i.den) : ∃ k : Nat, i.Holds (k * spacing e d.digits.length) := by
  have hpos := hd.length_pos
  obtain ⟨hmag, -⟩ := magnitude_spec hi.num_pos hi.den_pos
  rw [← he, ← first_mul_spacing hpos] at hmag
  rw [hd.value_eq] at hholds
  have hlt : Nat.ofDigits 10 d.digits.reverse < 10 ^ d.digits.length := by
    have := Nat.ofDigits_lt_base_pow_length (b := 10) (l := d.digits.reverse) (by decide) fun a ha =>
      hd.lt_ten a (List.mem_reverse.1 ha)
    rwa [List.length_reverse] at this
  generalize Nat.ofDigits 10 d.digits.reverse = k at *
  rcases lt_or_ge d.exponent e with hexp | hexp
  · -- a decimal of less magnitude: the first point lies between it and the number
    refine ⟨10 ^ (d.digits.length - 1), hholds.between hi.holds ?_ (by exact_mod_cast hmag)⟩
    push_cast
    rw [first_mul_spacing hpos]
    calc (k : ℚ) * 10 ^ (d.exponent + 1 - d.digits.length)
        ≤ 10 ^ d.digits.length * 10 ^ (d.exponent + 1 - d.digits.length) := by
          refine mul_le_mul_of_nonneg_right ?_ (zpow_nonneg (by norm_num) _)
          exact_mod_cast hlt.le
      _ = 10 ^ (d.exponent + 1) := by
          rw [← zpow_natCast, ← zpow_add₀ (by norm_num)]
          congr 1
          omega
      _ ≤ 10 ^ e := zpow_le_zpow_right₀ (by norm_num) hexp
  · -- otherwise the decimal is a point itself
    obtain ⟨j, hj⟩ := Int.eq_ofNat_of_zero_le (Int.sub_nonneg_of_le hexp)
    refine ⟨k * 10 ^ j, ?_⟩
    have hpoint : ((k * 10 ^ j : Nat) * spacing e d.digits.length : ℚ) =
        k * 10 ^ (d.exponent + 1 - d.digits.length) := by
      push_cast
      rw [mul_assoc, spacing, ← zpow_natCast, ← zpow_add₀ (by norm_num)]
      congr 2
      omega
    rwa [hpoint]

/-- A decimal that is in the interval, and no decimal with fewer digits is. -/
structure IsShortest (i : Interval) (d : Decimal) : Prop where
  proper : d.Proper
  holds : i.Holds d.value
  fewest : ∀ d' : Decimal, d'.Proper → i.Holds d'.value → d.digits.length ≤ d'.digits.length

theorem IsShortest.of_search (hi : i.Ordered) (he : e = magnitude i.num i.den) {tries : Nat} {d : Decimal}
    (hd : i.search e tries 1 = some d) : i.IsShortest d := by
  have hsearch := search_spec i e tries 1
  rw [hd] at hsearch
  obtain ⟨j, hj, hd, hfewer⟩ := hsearch
  have hspec := withDigits?_spec hi hj he
  rw [hd] at hspec
  obtain ⟨k, hlow, hhigh, hholds, rfl⟩ := hspec
  obtain ⟨hproper, hlen, hvalue⟩ := gridPoint_spec (e := e) hj hlow hhigh
  refine ⟨hproper, hvalue ▸ hholds, fun d' hd' hholds' => hlen.trans ?_⟩
  by_contra hlt
  have hnone := withDigits?_spec hi hd'.length_pos he
  rw [hfewer _ hd'.length_pos (Nat.lt_of_not_le hlt)] at hnone
  obtain ⟨k', hk'⟩ := hholds'.exists_gridPoint hi hd' he
  exact hnone k' hk'

/-! ### Intervals of binary numbers -/

section ofBinary

variable {m m' : Nat} {q : Int} {closerBelow closerBelow' : Bool}

/-- How far an interval reaches down, in quarters of `2 ^ q`. -/
def reach (closerBelow : Bool) : Nat := if closerBelow then 1 else 2

theorem ofBinary_fraction (a : Nat) :
    ((a * Nat.pow 2 (q - 2).toNat : Nat) / (Nat.pow 2 (2 - q).toNat : Nat) : ℚ) = a * 2 ^ (q - 2) := by
  have hneg : 2 - q = -(q - 2) := by omega
  rw [← pow_toNat_div (by norm_num), hneg, Nat.pow_eq, Nat.pow_eq]
  push_cast
  ring

theorem below_ofBinary : ((ofBinary m q closerBelow).below / (ofBinary m q closerBelow).den : ℚ) =
    (4 * m - reach closerBelow : Nat) * 2 ^ (q - 2) := ofBinary_fraction _

theorem num_ofBinary : ((ofBinary m q closerBelow).num / (ofBinary m q closerBelow).den : ℚ) =
    (4 * m : Nat) * 2 ^ (q - 2) := ofBinary_fraction _

theorem above_ofBinary : ((ofBinary m q closerBelow).above / (ofBinary m q closerBelow).den : ℚ) =
    (4 * m + 2 : Nat) * 2 ^ (q - 2) := ofBinary_fraction _

theorem closed_ofBinary : (ofBinary m q closerBelow).closed = true ↔ m % 2 = 0 := beq_iff_eq

theorem ordered_ofBinary (hm : 0 < m) : (ofBinary m q closerBelow).Ordered := by
  have hscale : 0 < Nat.pow 2 (q - 2).toNat := Nat.pow_pos (by decide)
  refine ⟨Nat.pow_pos (by decide), Nat.mul_pos (by omega) hscale, ?_, ?_⟩
  · exact Nat.mul_lt_mul_of_pos_right (by split <;> omega) hscale
  · exact Nat.mul_lt_mul_of_pos_right (by omega) hscale

/-- If a real is read as two numbers, the end of the second interval is not above that of the first, nor do they
coincide unless both belong to their intervals. -/
theorem ends_of_holds (k : Nat) (hv : (ofBinary m q closerBelow).Holds v)
    (hv' : (ofBinary m' (q + k) closerBelow').Holds v) :
    (4 * m' - reach closerBelow') * 2 ^ k ≤ 4 * m + 2 ∧
      (¬ (m % 2 = 0 ∧ m' % 2 = 0) → (4 * m' - reach closerBelow') * 2 ^ k < 4 * m + 2) := by
  have hu : (0 : ℚ) < 2 ^ (q - 2) := zpow_pos (by norm_num) _
  have hscale : (2 : ℚ) ^ (q + k - 2) = (2 ^ k : Nat) * 2 ^ (q - 2) := by
    push_cast
    rw [← zpow_natCast, ← zpow_add₀ (by norm_num)]
    congr 1
    omega
  obtain ⟨hupper, hupper'⟩ := hv.upper
  obtain ⟨hlower, hlower'⟩ := hv'.lower
  rw [above_ofBinary] at hupper hupper'
  rw [below_ofBinary, hscale, ← mul_assoc, ← Nat.cast_mul] at hlower hlower'
  rw [closed_ofBinary] at hupper' hlower'
  constructor
  · exact_mod_cast le_of_mul_le_mul_right (hlower.trans hupper) hu
  · intro hodd
    rw [not_and_or] at hodd
    rcases hodd with hodd | hodd
    · exact_mod_cast lt_of_mul_lt_mul_right (hlower.trans_lt (hupper' hodd)) hu.le
    · exact_mod_cast lt_of_mul_lt_mul_right ((hlower' hodd).trans_le hupper) hu.le

end ofBinary

end Interval

/-! ## Numbers of the format -/

/-- The number `m * 2 ^ q` is in the binary format, and `closerBelow` is right about it. -/
structure Fits (m : Nat) (q : Int) (closerBelow : Bool) : Prop where
  lt : m < Nat.pow 2 53
  least : -1074 ≤ q
  full : -1074 < q → Nat.pow 2 52 ≤ m
  closer : closerBelow = true ↔ m = Nat.pow 2 52 ∧ -1074 < q

namespace Fits

open Decimal.Interval

variable {m m' : Nat} {q q' : Int} {closerBelow closerBelow' : Bool} {v : ℚ}

theorem reach_eq (h : Fits m q closerBelow) : reach closerBelow = if m = Nat.pow 2 52 ∧ -1074 < q then 1 else 2 := by
  simp only [reach, h.closer]

/-- Decimals with seventeen digits are closer together than the ends of the interval. -/
theorem spacing_lt (h : Fits m q closerBelow) (hm : 0 < m)
    (he : e = magnitude (ofBinary m q closerBelow).num (ofBinary m q closerBelow).den) :
    spacing e 17 < (2 + reach closerBelow : Nat) * 2 ^ (q - 2) := by
  have hi : (ofBinary m q closerBelow).Ordered := ordered_ofBinary hm
  obtain ⟨hmag, -⟩ := magnitude_spec hi.num_pos hi.den_pos
  rw [← he, num_ofBinary, ← first_mul_spacing (n := 17) (by decide)] at hmag
  have hu : (0 : ℚ) < 2 ^ (q - 2) := zpow_pos (by norm_num) _
  push_cast at hmag
  cases closerBelow with
  | false =>
    have hlt : (m : ℚ) < 2 ^ 53 := by exact_mod_cast h.lt
    have hlt' := mul_lt_mul_of_pos_right hlt hu
    norm_num [reach] at hlt' hmag ⊢
    linarith
  | true =>
    -- the interval is shorter here, but the number is the least with its `q`
    have hm' : (m : ℚ) = 2 ^ 52 := by exact_mod_cast (h.closer.1 rfl).1
    rw [hm'] at hmag
    norm_num [reach] at hmag ⊢
    linarith

/-- So one of them is in the interval. -/
theorem exists_holds (h : Fits m q closerBelow) (hm : 0 < m)
    (he : e = magnitude (ofBinary m q closerBelow).num (ofBinary m q closerBelow).den) :
    ∃ k : Nat, (ofBinary m q closerBelow).Holds (k * spacing e 17) := by
  have hbelow := @below_ofBinary m q closerBelow
  have habove := @above_ofBinary m q closerBelow
  obtain ⟨hlow, hhigh⟩ := down_spec (ordered_ofBinary hm : (ofBinary m q closerBelow).Ordered) (e := e) (n := 17)
  have hs := h.spacing_lt hm he
  rw [num_ofBinary] at hlow hhigh
  have hu : (0 : ℚ) < 2 ^ (q - 2) := zpow_pos (by norm_num) _
  generalize (ofBinary m q closerBelow).down e 17 = d at *
  generalize spacing e 17 = s at *
  by_cases hd : ((4 * m - reach closerBelow : Nat) * 2 ^ (q - 2) : ℚ) < d * s
  · refine ⟨d, holds_of_lt (hbelow ▸ hd) (habove ▸ hlow.trans_lt ?_)⟩
    push_cast
    linarith
  · refine ⟨d + 1, holds_of_lt (hbelow ▸ ?_) (habove ▸ ?_)⟩
    · push_cast
      refine lt_of_le_of_lt (mul_le_mul_of_nonneg_right ?_ hu.le) hhigh
      exact_mod_cast Nat.sub_le _ _
    · have hreach : reach closerBelow ≤ 4 * m := by unfold reach; split <;> omega
      rw [Nat.cast_sub hreach] at hd
      push_cast at hd hs ⊢
      linarith

/-- A real that is read as one number is not read as a greater one. -/
theorem not_holds_of_lt (h : Fits m q closerBelow) (h' : Fits m' q' closerBelow') (hlt : q < q' ∨ q = q' ∧ m < m')
    (hv : (ofBinary m q closerBelow).Holds v) : ¬ (ofBinary m' q' closerBelow').Holds v := by
  intro hv'
  obtain ⟨k, rfl⟩ : ∃ k : Nat, q' = q + k := ⟨(q' - q).toNat, by omega⟩
  obtain ⟨hle, hstrict⟩ := ends_of_holds k hv hv'
  have h52 : Nat.pow 2 52 = 4503599627370496 := rfl
  have h53 : Nat.pow 2 53 = 9007199254740992 := rfl
  have hm := h.lt
  have hfull := h'.full
  have hleast := h.least
  have hreach := h'.reach_eq
  generalize reach closerBelow' = b at *
  rcases Nat.eq_zero_or_pos k with rfl | hpos
  · rw [pow_zero, Nat.mul_one] at hle hstrict
    split at hreach <;> omega
  · have hpow : 2 ≤ 2 ^ k := Nat.le_self_pow hpos.ne' 2
    have htwo := Nat.mul_le_mul_left (4 * m' - b) hpow
    split at hreach <;> omega

/-- No real is read as two numbers. -/
theorem unique (h : Fits m q closerBelow) (h' : Fits m' q' closerBelow') (hv : (ofBinary m q closerBelow).Holds v)
    (hv' : (ofBinary m' q' closerBelow').Holds v) : m = m' ∧ q = q' := by
  by_contra hne
  rcases lt_trichotomy q q' with hq | hq | hq
  · exact h.not_holds_of_lt h' (.inl hq) hv hv'
  · rcases lt_trichotomy m m' with hm | hm | hm
    · exact h.not_holds_of_lt h' (.inr ⟨hq, hm⟩) hv hv'
    · exact hne ⟨hm, hq⟩
    · exact h'.not_holds_of_lt h (.inr ⟨hq.symm, hm⟩) hv' hv
  · exact h'.not_holds_of_lt h (.inl hq) hv' hv

/-- The shortest decimal of a number is in its interval, and no decimal with fewer digits is. -/
theorem isShortest (h : Fits m q closerBelow) : (ofBinary m q closerBelow).IsShortest (shortest m q closerBelow) := by
  rcases Nat.eq_zero_or_pos m with rfl | hm
  · refine ⟨⟨by simp [shortest], by simp [shortest]⟩, ?_, fun d hd _ => hd.length_pos⟩
    have hu : (0 : ℚ) < 2 ^ (q - 2) := zpow_pos (by norm_num) _
    have hzero : (shortest 0 q closerBelow).value = 0 := by simp [shortest, value]
    rw [hzero, Holds, if_pos (closed_ofBinary.2 rfl), below_ofBinary, above_ofBinary, Nat.mul_zero, Nat.zero_sub,
      Nat.cast_zero, zero_mul]
    exact ⟨le_rfl, by positivity⟩
  have hi : (ofBinary m q closerBelow).Ordered := ordered_ofBinary hm
  rw [shortest, if_neg hm.ne']
  dsimp only
  cases hs : (ofBinary m q closerBelow).search
      (magnitude (ofBinary m q closerBelow).num (ofBinary m q closerBelow).den) 17 1 with
  | none =>
    have hsearch := search_spec (ofBinary m q closerBelow)
      (magnitude (ofBinary m q closerBelow).num (ofBinary m q closerBelow).den) 17 1
    rw [hs] at hsearch
    have hnone := withDigits?_spec hi (n := 17) (by decide) rfl
    rw [hsearch 17 (by decide) (by decide)] at hnone
    obtain ⟨k, hk⟩ := h.exists_holds hm rfl
    exact absurd hk (hnone k)
  | some d => exact .of_search hi rfl hs

end Fits

end CopyOnBind.Decimal
