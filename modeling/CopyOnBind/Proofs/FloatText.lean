import CopyOnBind.Proofs.Rounding
/-!
# Texts of numbers

The text of a finite number is a numeral for the shortest decimal that is read as the number, in positional notation for
moderate magnitudes and with a power of ten beyond. The decimal tells the number, and the sign is in the text, so
numbers with one text are the same.

`Binary64.inspect_denotes` says what the text denotes, and that no two numbers share one.
-/

namespace CopyOnBind

namespace Binary64

variable {x y : Binary64} {negative : Bool} {m : Nat} {q : Int}

/-! ## Bits -/

theorem fraction_lt (x : Binary64) : x.fraction < Nat.pow 2 52 := Nat.mod_lt _ (Nat.pow_pos (by decide))

/-- The bits are the sign, the biased exponent and the fraction. -/
theorem toNat_bits (x : Binary64) :
    x.bits.toNat = (if x.isNegative then Nat.pow 2 63 else 0) + x.biased * Nat.pow 2 52 + x.fraction := by
  have hlt := x.bits.toNat_lt
  have h52 : Nat.pow 2 52 = 4503599627370496 := rfl
  have h63 : Nat.pow 2 63 = 9223372036854775808 := rfl
  have h11 : Nat.pow 2 11 = 2048 := rfl
  simp only [isNegative, biased, fraction, h52, h63, h11, decide_eq_true_eq]
  split <;> omega

theorem ext_fields (hnegative : x.isNegative = y.isNegative) (hbiased : x.biased = y.biased)
    (hfraction : x.fraction = y.fraction) : x = y := by
  have h := x.toNat_bits
  rw [hnegative, hbiased, hfraction, ← y.toNat_bits] at h
  exact congrArg mk (UInt64.toNat_inj.1 h)

theorem reading_eq_infinite (h : x.reading = .infinite negative) :
    x.biased = 2047 ∧ x.fraction = 0 ∧ x.isNegative = negative := by
  unfold reading at h
  split at h
  · next hb =>
    split at h <;> cases h
    exact ⟨hb, by assumption, rfl⟩
  · split at h <;> cases h

theorem reading_eq_finite (h : x.reading = .finite negative m q) : x.biased ≠ 2047 ∧ x.isNegative = negative ∧
    (x.biased = 0 ∧ m = x.fraction ∧ q = -1074 ∨ x.biased ≠ 0 ∧ m = Nat.pow 2 52 + x.fraction ∧ q = x.biased - 1075) := by
  unfold reading at h
  split at h
  · split at h <;> cases h
  · next hb =>
    split at h
    · next hzero =>
      cases h
      exact ⟨hb, rfl, .inl ⟨hzero, rfl, rfl⟩⟩
    · next hzero =>
      cases h
      exact ⟨hb, rfl, .inr ⟨hzero, rfl, rfl⟩⟩

/-- What the bits stand for tells them, except for a NaN. -/
theorem reading_injective (hx : x.isNaN = false) (h : x.reading = y.reading) : x = y := by
  cases hr : x.reading with
  | nan => simp [(isNaN_iff x).2 hr] at hx
  | infinite negative =>
    obtain ⟨hb, hf, hn⟩ := reading_eq_infinite hr
    obtain ⟨hb', hf', hn'⟩ := reading_eq_infinite (h ▸ hr)
    exact ext_fields (hn.trans hn'.symm) (hb.trans hb'.symm) (hf.trans hf'.symm)
  | finite negative m q =>
    obtain ⟨-, hn, hmq⟩ := reading_eq_finite hr
    obtain ⟨-, hn', hmq'⟩ := reading_eq_finite (h ▸ hr)
    have hf := x.fraction_lt
    have hf' := y.fraction_lt
    exact ext_fields (hn.trans hn'.symm) (by omega) (by omega)

theorem fits_of_reading (h : x.reading = .finite negative m q) : Decimal.Fits m q x.closerBelow := by
  obtain ⟨-, -, hmq⟩ := reading_eq_finite h
  have hf := x.fraction_lt
  have h52 : Nat.pow 2 52 = 4503599627370496 := rfl
  have h53 : Nat.pow 2 53 = 9007199254740992 := rfl
  refine ⟨by omega, by omega, by omega, ?_⟩
  simp only [closerBelow, Bool.and_eq_true, beq_iff_eq, decide_eq_true_eq]
  omega

/-! ## Texts -/

theorem inspect_infinite (h : x.reading = .infinite negative) : x.inspect = if negative then "-Inf" else "+Inf" := by
  rw [inspect, h]

/-- A finite number is shown as a numeral for its shortest decimal. -/
theorem exists_numeral (h : x.reading = .finite negative m q) :
    ∃ n : Numeral, x.inspect.toList = n.text ∧ (Decimal.shortest m q x.closerBelow).WrittenAs negative n := by
  have hinspect : x.inspect = Decimal.signed negative (Decimal.shortest m q x.closerBelow).inspect := by
    rw [inspect, h]
  rw [hinspect]
  exact (fits_of_reading h).isShortest.proper.exists_writtenAs negative

end Binary64

/-- No numeral has a letter with which the text of an infinite number goes on. -/
theorem Numeral.not_mem_text (n : Numeral) : 'I' ∉ n.text := by
  have hno : ∀ cs : List Char, (∀ c ∈ cs, c.isDigit = true) → 'I' ∉ cs := fun cs h hI => absurd (h _ hI) (by decide)
  have hwhole := hno n.whole fun c hc => n.digits c (List.mem_append_left _ hc)
  have hfraction := hno n.fraction fun c hc => n.digits c (List.mem_append_right _ hc)
  have hpower : 'I' ∉ Numeral.powerText n.power := by
    cases hp : n.power with
    | none => exact List.not_mem_nil
    | some p =>
      have hdigits := hno p.2 (n.power_digits p hp).2
      obtain ⟨_ | _, ds⟩ := p <;> simpa [Numeral.powerText] using hdigits
  have hpoint : 'I' ∉ Numeral.pointText n.fraction := by
    unfold Numeral.pointText
    split
    · exact List.not_mem_nil
    · simpa using hfraction
  have hsign : 'I' ∉ (if n.negative then ['-'] else []) := by split <;> decide
  simp only [Numeral.text, List.mem_append, not_or]
  exact ⟨hsign, hwhole, hpoint, hpower⟩

namespace Binary64

variable {x y : Binary64} {b b' : Bool} {m m' : Nat} {q q' : Int}

theorem inspect_ne_of_infinite (hx : x.reading = .infinite b) (hy : y.reading = .finite b' m q) :
    x.inspect ≠ y.inspect := by
  intro h
  obtain ⟨n, hn, -⟩ := exists_numeral hy
  refine n.not_mem_text ?_
  rw [← hn, ← h, inspect_infinite hx]
  cases b <;> decide

/-- Finite numbers with one text are written by one numeral, so one value is read as both of them. -/
theorem finite_of_inspect (hx : x.reading = .finite b m q) (hy : y.reading = .finite b' m' q')
    (h : x.inspect = y.inspect) : b = b' ∧ m = m' ∧ q = q' := by
  obtain ⟨n, hn, hwritten⟩ := exists_numeral hx
  obtain ⟨n', hn', hwritten'⟩ := exists_numeral hy
  obtain rfl : n = n' := Numeral.text_injective (hn ▸ hn' ▸ congrArg String.toList h)
  obtain rfl : b = b' := hwritten.sign.symm.trans hwritten'.sign
  have hvalue := hwritten.value.symm.trans hwritten'.value
  have hfactor : (if b then -1 else 1 : ℚ) ≠ 0 := by split <;> norm_num
  have hfits := fits_of_reading hx
  have hfits' := fits_of_reading hy
  have hholds := hfits'.isShortest.holds
  rw [← mul_left_cancel₀ hfactor hvalue] at hholds
  exact ⟨rfl, hfits.unique hfits' hfits.isShortest.holds hholds⟩

/-- Numbers with one text are the same. -/
theorem inspect_injective (hx : x.isNaN = false) (hy : y.isNaN = false) (h : x.inspect = y.inspect) : x = y := by
  refine reading_injective hx ?_
  cases hrx : x.reading with
  | nan => simp [(isNaN_iff x).2 hrx] at hx
  | infinite b =>
    cases hry : y.reading with
    | nan => simp [(isNaN_iff y).2 hry] at hy
    | infinite b' =>
      rw [inspect_infinite hrx, inspect_infinite hry] at h
      revert h
      cases b <;> cases b' <;> decide
    | finite => exact absurd h (inspect_ne_of_infinite hrx hry)
  | finite b m q =>
    cases hry : y.reading with
    | nan => simp [(isNaN_iff y).2 hry] at hy
    | infinite => exact absurd h.symm (inspect_ne_of_infinite hry hrx)
    | finite b' m' q' =>
      obtain ⟨rfl, rfl, rfl⟩ := finite_of_inspect hrx hry h
      rfl

/-- The text of a finite number is a numeral that writes the shortest decimal that is read as the number, and can be
taken for no other numeral. Different numbers have different texts, the two zeros and the infinite numbers among them. -/
theorem inspect_denotes (x : Binary64) :
    (∀ negative m q, x.reading = .finite negative m q →
      (Decimal.Interval.ofBinary m q x.closerBelow).IsShortest (Decimal.shortest m q x.closerBelow) ∧
      ∃ n : Numeral, x.inspect.toList = n.text ∧ (Decimal.shortest m q x.closerBelow).WrittenAs negative n ∧
        ∀ n' : Numeral, x.inspect.toList = n'.text → n' = n) ∧
    ∀ y : Binary64, x.isNaN = false → y.isNaN = false → x ≠ y → x.inspect ≠ y.inspect := by
  constructor
  · intro negative m q h
    obtain ⟨n, hn, hwritten⟩ := exists_numeral h
    exact ⟨(fits_of_reading h).isShortest, n, hn, hwritten, fun n' hn' => Numeral.text_injective (hn' ▸ hn)⟩
  · intro y hx hy hne heq
    exact hne (inspect_injective hx hy heq)

/-- Two neighbours on either side of the bound between the notations. -/
theorem inspect_denotes_neighbours :
    let x : Binary64 := ⟨0x3F1A36E2EB1C432C⟩
    let y : Binary64 := ⟨0x3F1A36E2EB1C432D⟩
    x.reading = .finite false 7378697629483820 (-66) ∧
      (∃ n : Numeral, x.inspect.toList = n.text ∧
        (⟨[9, 9, 9, 9, 9, 9, 9, 9, 9, 9, 9, 9, 9, 9, 9, 9], -5⟩ : Decimal).WrittenAs false n) ∧
      x.isNaN = false ∧ y.isNaN = false ∧ x ≠ y ∧ x.inspect ≠ y.inspect := by
  intro x y
  have hreading : x.reading = .finite false 7378697629483820 (-66) := by decide +kernel
  have hshortest : Decimal.shortest 7378697629483820 (-66) x.closerBelow =
      ⟨[9, 9, 9, 9, 9, 9, 9, 9, 9, 9, 9, 9, 9, 9, 9, 9], -5⟩ := by decide +kernel
  have hx : x.isNaN = false := by decide +kernel
  have hy : y.isNaN = false := by decide +kernel
  have hne : x ≠ y := by decide
  obtain ⟨-, n, hn, hwritten, -⟩ := (inspect_denotes x).1 _ _ _ hreading
  exact ⟨hreading, ⟨n, hn, hshortest ▸ hwritten⟩, hx, hy, hne, (inspect_denotes x).2 y hx hy hne⟩

end Binary64

end CopyOnBind
