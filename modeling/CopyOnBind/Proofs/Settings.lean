import CopyOnBind.Policy
import CopyOnBind.Proofs.Numerals
import Mathlib.Data.List.TakeWhile
/-!
# Settings

The texts that stand for the value of a setting: words for a flag, and numerals for a limit, with blanks around them.
`TrimsTo` says what is left of a text without the blanks at its ends, whichever way they are taken off, and digits
denote the number that they denote everywhere, `Text.number`.

`Policy.read_settings`: the policy is read exactly if each text stands for a value, and has these values; otherwise the
first text that stands for none is reported.
-/

namespace CopyOnBind

/-! ## Blanks -/

namespace Text

variable {cs core : List Char} {s w : String}

/-- `core` is what is left of `cs` without the blanks at its ends. -/
def TrimsTo (cs core : List Char) : Prop :=
  ∃ before after, cs = before ++ (core ++ after) ∧ (∀ c ∈ before, isBlank c = true) ∧ (∀ c ∈ after, isBlank c = true) ∧
    (∀ c ∈ core.head?, isBlank c = false) ∧ ∀ c ∈ core.getLast?, isBlank c = false

theorem head?_dropWhile_isBlank (cs : List Char) : ∀ c ∈ (cs.dropWhile isBlank).head?, isBlank c = false := by
  intro c hc
  have h := List.head?_dropWhile_not isBlank cs
  rw [hc] at h
  simpa using h

theorem dropWhile_append_of_head {x r : List Char} (hx : ∀ c ∈ x, isBlank c = true)
    (hr : ∀ c ∈ r.head?, isBlank c = false) : (x ++ r).dropWhile isBlank = r := by
  rw [List.dropWhile_append_of_pos hx]
  cases r with
  | nil => rfl
  | cons c r => exact List.dropWhile_cons_of_neg (by simp [hr c rfl])

theorem trimsTo_trimBlanks (cs : List Char) : TrimsTo cs (trimBlanks cs) := by
  have hsplit : trimBlanks cs ++ ((cs.dropWhile isBlank).reverse.takeWhile isBlank).reverse = cs.dropWhile isBlank := by
    rw [trimBlanks, ← List.reverse_append, List.takeWhile_append_dropWhile, List.reverse_reverse]
  refine ⟨cs.takeWhile isBlank, ((cs.dropWhile isBlank).reverse.takeWhile isBlank).reverse, ?_,
    fun c hc => List.mem_takeWhile_imp hc, fun c hc => List.mem_takeWhile_imp (List.mem_reverse.1 hc),
    fun c hc => ?_, fun c hc => ?_⟩
  · rw [hsplit, List.takeWhile_append_dropWhile]
  · refine head?_dropWhile_isBlank cs c ?_
    rw [← hsplit, List.head?_append, hc]
    rfl
  · rw [trimBlanks, List.getLast?_reverse] at hc
    exact head?_dropWhile_isBlank _ c hc

theorem TrimsTo.trimBlanks_eq (h : TrimsTo cs core) : trimBlanks cs = core := by
  obtain ⟨before, after, rfl, hbefore, hafter, hhead, hlast⟩ := h
  unfold trimBlanks
  cases core with
  | nil =>
    have hblank : ∀ c ∈ before ++ after, isBlank c = true := List.forall_mem_append.2 ⟨hbefore, hafter⟩
    rw [List.nil_append, List.dropWhile_eq_nil_iff.2 hblank]
    rfl
  | cons c core =>
    have hfront : (before ++ (c :: core ++ after)).dropWhile isBlank = c :: core ++ after :=
      dropWhile_append_of_head hbefore hhead
    rw [hfront, List.reverse_append, dropWhile_append_of_head, List.reverse_reverse]
    · exact fun d hd => hafter d (List.mem_reverse.1 hd)
    · rwa [List.head?_reverse]

theorem trimBlanks_eq_iff : trimBlanks cs = core ↔ TrimsTo cs core :=
  ⟨fun h => h ▸ trimsTo_trimBlanks cs, TrimsTo.trimBlanks_eq⟩

theorem trim_eq_iff : trim s = w ↔ TrimsTo s.toList w.toList := by
  rw [← trimBlanks_eq_iff, trim, ← String.toList_inj, String.toList_ofList]

end Text

/-! ## What the texts stand for -/

theorem Setting.variable_injective : Function.Injective Setting.variable := by
  intro s t h
  cases s with
  | copyElision =>
    cases t with
    | copyElision => rfl
    | maxCallDepth => exact absurd h (by decide)
  | maxCallDepth =>
    cases t with
    | copyElision => exact absurd h (by decide)
    | maxCallDepth => rfl

namespace Policy

open Text

variable {α : Type} {text : String} {b : Bool} {n : Nat} {cs : List Char}

/-- The text stands for a flag. -/
def FlagText (text : String) (b : Bool) : Prop :=
  ∃ word ∈ if b then ["1", "true"] else ["0", "false"], TrimsTo text.toList word.toList

/-- The text stands for a limit: decimal digits, with or without a sign, for a number of 64 bits. -/
def LimitText (text : String) (n : Nat) : Prop :=
  ∃ digits, (TrimsTo text.toList digits ∨ TrimsTo text.toList ('+' :: digits)) ∧ digits ≠ [] ∧
    (∀ c ∈ digits, c.isDigit = true) ∧ number digits = n ∧ n < UInt64.size

/-- The value of a setting: what its text stands for, or the default without a text. -/
def SetTo (Stands : String → α → Prop) (default : α) : Option String → α → Prop
  | none, a => a = default
  | some text, a => Stands text a

/-! ## What is read -/

theorem readFlag?_eq_some_iff : readFlag? text = some b ↔ FlagText text b := by
  simp only [FlagText, ← trim_eq_iff, exists_eq_right']
  unfold readFlag?
  generalize trim text = word
  split <;> cases b <;> simp_all

theorem readDigits_eq : readDigits 0 cs = number cs := number_eq_ofDigitChars.symm

theorem readNumeral?_eq_some_iff : readNumeral? cs = some n ↔
    ∃ digits, (cs = digits ∨ cs = '+' :: digits) ∧ digits ≠ [] ∧ (∀ c ∈ digits, c.isDigit = true) ∧ number digits = n := by
  simp only [readNumeral?, readDigits_eq, Option.ite_none_right_eq_some, List.all_eq_true, Option.some.injEq]
  constructor
  · rintro ⟨⟨hne, hdigits⟩, hn⟩
    refine ⟨_, ?_, hne, hdigits, hn⟩
    split
    · exact .inr rfl
    · exact .inl rfl
  · rintro ⟨digits, rfl | rfl, hne, hdigits, rfl⟩
    · split
      -- the sign is no digit
      · exact absurd (hdigits '+' List.mem_cons_self) (by decide)
      · exact ⟨⟨hne, hdigits⟩, rfl⟩
    · exact ⟨⟨hne, hdigits⟩, rfl⟩

theorem readDepth?_eq_some_iff : readDepth? text = some n ↔ LimitText text n := by
  have hlimit : wordLimit = UInt64.size := rfl
  simp only [LimitText, ← trimBlanks_eq_iff, readDepth?, Option.filter_eq_some_iff, readNumeral?_eq_some_iff, hlimit]
  constructor
  · rintro ⟨⟨digits, hcs, hne, hdigits, rfl⟩, hn⟩
    exact ⟨digits, hcs, hne, hdigits, rfl, of_decide_eq_true hn⟩
  · rintro ⟨digits, hcs, hne, hdigits, rfl, hn⟩
    exact ⟨⟨digits, hcs, hne, hdigits, rfl⟩, decide_eq_true hn⟩

example : readDepth? "\t+0018446744073709551615 " = some 18446744073709551615 := by decide +kernel

example : readDepth? "18446744073709551616" = none := by decide +kernel

section Family

variable {name : Setting} {parse : String → Option α} {Stands : String → α → Prop} {default a : α} {t : Option String}
  {e : PolicyError}

theorem readSetting_eq_ok_iff (h : ∀ s a, parse s = some a ↔ Stands s a) :
    readSetting name parse default t = .ok a ↔ SetTo Stands default t a := by
  cases t with
  | none =>
    simp only [readSetting, SetTo, Except.ok.injEq]
    exact eq_comm
  | some text =>
    simp only [readSetting, SetTo, ← h]
    cases parse text <;> simp

theorem readSetting_eq_error_iff (h : ∀ s a, parse s = some a ↔ Stands s a) :
    readSetting name parse default t = .error e ↔ e.setting = name ∧ t = some e.text ∧ ∀ a, ¬ Stands e.text a := by
  obtain ⟨setting, text⟩ := e
  cases t with
  | none => simp [readSetting]
  | some s =>
    simp only [readSetting, ← h, Option.some.injEq, ← Option.eq_none_iff_forall_ne_some]
    cases hs : parse s with
    | some a =>
      refine iff_of_false (by simp) ?_
      rintro ⟨-, rfl, hnone⟩
      exact absurd (hs.symm.trans hnone) (by simp)
    | none =>
      simp only [Except.error.injEq, PolicyError.mk.injEq]
      constructor
      · rintro ⟨rfl, rfl⟩
        exact ⟨rfl, rfl, hs⟩
      · rintro ⟨rfl, rfl, -⟩
        exact ⟨rfl, rfl⟩

end Family

theorem read_eq (lookup : Setting → Option String) :
    read lookup = (do
      let copyElision ← readSetting .copyElision readFlag? false (lookup .copyElision)
      let maxCallDepth ← readSetting .maxCallDepth readDepth? 1024 (lookup .maxCallDepth)
      return { copyElision, maxCallDepth }) := rfl

theorem read_eq_ok_iff {lookup : Setting → Option String} {p : Policy} :
    read lookup = .ok p ↔ readSetting .copyElision readFlag? false (lookup .copyElision) = .ok p.copyElision ∧
      readSetting .maxCallDepth readDepth? 1024 (lookup .maxCallDepth) = .ok p.maxCallDepth := by
  rw [read_eq]
  obtain ⟨copyElision, maxCallDepth⟩ := p
  cases readSetting .copyElision readFlag? false (lookup .copyElision) with
  | error e => simp [bind, Except.bind]
  | ok b =>
    cases readSetting .maxCallDepth readDepth? 1024 (lookup .maxCallDepth) <;>
      simp [bind, Except.bind, pure, Except.pure]

/-- The limit is read only if the flag could be. -/
theorem read_eq_error_iff {lookup : Setting → Option String} {e : PolicyError} :
    read lookup = .error e ↔ readSetting .copyElision readFlag? false (lookup .copyElision) = .error e ∨
      (∃ b, readSetting .copyElision readFlag? false (lookup .copyElision) = .ok b) ∧
        readSetting .maxCallDepth readDepth? 1024 (lookup .maxCallDepth) = .error e := by
  rw [read_eq]
  cases readSetting .copyElision readFlag? false (lookup .copyElision) with
  | error e => simp [bind, Except.bind]
  | ok b =>
    cases readSetting .maxCallDepth readDepth? 1024 (lookup .maxCallDepth) <;>
      simp [bind, Except.bind, pure, Except.pure]

theorem read_settings (lookup : Setting → Option String) :
    (∀ p, read lookup = .ok p ↔ SetTo FlagText false (lookup .copyElision) p.copyElision ∧
      SetTo LimitText 1024 (lookup .maxCallDepth) p.maxCallDepth) ∧
    ∀ e, read lookup = .error e ↔
      (e.setting.variable = "TLANG_COPY_ELISION" ∧ lookup .copyElision = some e.text ∧ ∀ b, ¬ FlagText e.text b) ∨
      (∃ b, SetTo FlagText false (lookup .copyElision) b) ∧
        e.setting.variable = "TLANG_MAX_DEPTH" ∧ lookup .maxCallDepth = some e.text ∧ ∀ n, ¬ LimitText e.text n := by
  have hflag : ∀ s b, readFlag? s = some b ↔ FlagText s b := fun _ _ => readFlag?_eq_some_iff
  have hlimit : ∀ s n, readDepth? s = some n ↔ LimitText s n := fun _ _ => readDepth?_eq_some_iff
  have helision : ∀ s : Setting, s.variable = "TLANG_COPY_ELISION" ↔ s = .copyElision :=
    fun s => Setting.variable_injective.eq_iff (b := .copyElision)
  have hdepth : ∀ s : Setting, s.variable = "TLANG_MAX_DEPTH" ↔ s = .maxCallDepth :=
    fun s => Setting.variable_injective.eq_iff (b := .maxCallDepth)
  constructor
  · intro p
    rw [read_eq_ok_iff, readSetting_eq_ok_iff hflag, readSetting_eq_ok_iff hlimit]
  · intro e
    simp only [read_eq_error_iff, readSetting_eq_error_iff hflag, readSetting_eq_error_iff hlimit,
      readSetting_eq_ok_iff hflag, helision, hdepth]

end Policy

end CopyOnBind
