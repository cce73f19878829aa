import CopyOnBind.Store.Table
import Mathlib.Order.Defs.Unbundled
/-!
# The order of keys

Keys are totally ordered, and only a key itself is at its place in the order, so that
a list of keys has one sorted form (`Key.sort_eq_of_perm`). Tables with the same keys
list them in the same order, however they were filled (`Table.map_key_sorted_eq_of_perm`).

`Key.lt_iff_before` says which order it is.
-/

namespace CopyOnBind

namespace Key

variable {k l m : Key}

theorem compare_of_rank_ne (h : k.rank ≠ l.rank) : k.compare l = Ord.compare k.rank l.rank := by
  cases k <;> cases l <;> first | rfl | exact absurd rfl h

instance : Std.OrientedCmp Key.compare where
  eq_swap {k l} := by
    by_cases hr : k.rank = l.rank
    · cases k <;> cases l <;> cases hr <;> (simp only [compare]; exact Std.OrientedCmp.eq_swap)
    · rw [compare_of_rank_ne hr, compare_of_rank_ne (Ne.symm hr)]
      exact Std.OrientedCmp.eq_swap

theorem rank_le_of_isLE (h : (k.compare l).isLE) : k.rank ≤ l.rank := by
  by_cases hr : k.rank = l.rank
  · exact Nat.le_of_eq hr
  · rw [compare_of_rank_ne hr] at h
    exact Nat.isLE_compare.1 h

instance : Std.TransCmp Key.compare where
  isLE_trans {k l m} h h' := by
    have hkl := rank_le_of_isLE h
    have hlm := rank_le_of_isLE h'
    by_cases hr : k.rank = m.rank
    · -- the three keys are of one kind, and compared by their values
      have hr' : k.rank = l.rank := Nat.le_antisymm hkl (hr ▸ hlm)
      cases k <;> cases m <;> cases hr <;> cases l <;> cases hr' <;>
        (simp only [compare] at h h' ⊢; exact Std.TransCmp.isLE_trans h h')
    · rw [compare_of_rank_ne hr]
      exact Nat.isLE_compare.2 (Nat.le_trans hkl hlm)

instance : Std.LawfulEqCmp Key.compare where
  eq_of_compare {k l} h := by
    by_cases hr : k.rank = l.rank
    · cases k with
      | int m =>
        cases l with
        | int n =>
          have hmn : Ord.compare m.toInt n.toInt = .eq := h
          rw [Int64.toInt_inj.1 (Std.LawfulEqCmp.eq_of_compare hmn)]
        | _ => cases hr
      | bool a =>
        cases l with
        | bool b =>
          have hab : Ord.compare a.toNat b.toNat = .eq := h
          cases a <;> cases b <;> first | rfl | cases hab
        | _ => cases hr
      | char c =>
        cases l with
        | char d =>
          have hcd : Ord.compare c.toNat d.toNat = .eq := h
          rw [Char.toNat_inj.1 (Std.LawfulEqCmp.eq_of_compare hcd)]
        | _ => cases hr
      | str s =>
        cases l with
        | str t =>
          have hst : Ord.compare s.toUTF8.data.toList t.toUTF8.data.toList = .eq := h
          have hbytes := Array.toList_inj.1 (Std.LawfulEqCmp.eq_of_compare hst)
          rw [String.toByteArray_inj.1 (ByteArray.ext hbytes)]
        | _ => cases hr
    · rw [compare_of_rank_ne hr] at h
      exact absurd (Std.LawfulEqCmp.eq_of_compare h) hr

theorem le_trans (k l m : Key) (h : k.le l) (h' : l.le m) : k.le m := Std.TransCmp.isLE_trans h h'

theorem le_total (k l : Key) : (k.le l || l.le k) = true := by
  rw [Bool.or_eq_true]
  have hswap : k.compare l = (l.compare k).swap := Std.OrientedCmp.eq_swap
  unfold le
  rw [hswap]
  cases l.compare k <;> decide

theorem le_antisymm (h : k.le l) (h' : l.le k) : k = l :=
  Std.LawfulEqCmp.eq_of_compare (Std.OrientedCmp.isLE_antisymm h h')

/-! ## Which order it is -/

/-- Integers come before booleans, booleans before characters and characters before strings; within a
kind keys go by their values, strings by the bytes of their UTF-8 form. -/
inductive Before : Key → Key → Prop
  | kind {k l : Key} : k.rank < l.rank → Before k l
  | int {m n : Int64} : m < n → Before (int m) (int n)
  | bool : Before (bool false) (bool true)
  | char {c d : Char} : c < d → Before (char c) (char d)
  | str {s t : String} : s.toUTF8.data.toList < t.toUTF8.data.toList → Before (str s) (str t)

theorem rank_le_of_before (h : Before k l) : k.rank ≤ l.rank := by
  cases h with
  | kind h => exact Nat.le_of_lt h
  | _ => exact Nat.le_refl _

theorem compare_bytes_eq_lt {xs ys : List UInt8} : Ord.compare xs ys = .lt ↔ xs < ys := by
  induction xs generalizing ys with
  | nil => cases ys <;> simp
  | cons x xs ih =>
    cases ys with
    | nil => simp
    | cons y ys =>
      rw [List.compare_eq_compareLex] at ih ⊢
      rw [List.compareLex_cons_cons, Ordering.then_eq_lt, Std.compare_eq_lt, Std.LawfulEqOrd.compare_eq_iff_eq, ih,
        List.cons_lt_cons_iff]

theorem compare_eq_lt_iff : k.compare l = .lt ↔ Before k l := by
  by_cases hr : k.rank = l.rank
  · cases k <;> cases l <;> cases hr
    case int.int.refl m n =>
      refine Int.compare_eq_lt.trans (Int64.lt_iff_toInt_lt.symm.trans ⟨.int, fun h => ?_⟩)
      cases h with
      | kind h => exact absurd h (Nat.lt_irrefl _)
      | int h => exact h
    case bool.bool.refl a b =>
      refine Nat.compare_eq_lt.trans ⟨fun h => ?_, fun h => ?_⟩
      · cases a <;> cases b <;> first | exact .bool | exact absurd h (by decide)
      · cases h with
        | kind h => exact absurd h (Nat.lt_irrefl _)
        | bool => decide
    case char.char.refl c d =>
      refine Nat.compare_eq_lt.trans ⟨fun h => .char (UInt32.lt_iff_toNat_lt.2 h), fun h => ?_⟩
      cases h with
      | kind h => exact absurd h (Nat.lt_irrefl _)
      | char h => exact UInt32.lt_iff_toNat_lt.1 h
    case str.str.refl s t =>
      refine compare_bytes_eq_lt.trans ⟨.str, fun h => ?_⟩
      cases h with
      | kind h => exact absurd h (Nat.lt_irrefl _)
      | str h => exact h
  · rw [compare_of_rank_ne hr, Nat.compare_eq_lt]
    exact ⟨.kind, fun h => Nat.lt_of_le_of_ne (rank_le_of_before h) hr⟩

theorem lt_iff_before : k.lt l = true ↔ Before k l := by
  rw [← compare_eq_lt_iff]
  unfold lt
  cases k.compare l <;> decide

theorem before_irrefl (k : Key) : ¬ Before k k := by
  have hself : k.compare k = .eq := Std.ReflCmp.compare_self
  rw [← compare_eq_lt_iff, hself]
  decide

theorem Before.trans (h : Before k l) (h' : Before l m) : Before k m := by
  rw [← compare_eq_lt_iff] at h h' ⊢
  exact Std.TransCmp.lt_trans h h'

theorem before_trichotomy (k l : Key) : Before k l ∨ k = l ∨ Before l k := by
  rw [← compare_eq_lt_iff, ← compare_eq_lt_iff]
  cases h : k.compare l with
  | lt => exact .inl rfl
  | eq => exact .inr (.inl (Std.LawfulEqCmp.eq_of_compare h))
  | gt => exact .inr (.inr (Std.OrientedCmp.gt_iff_lt.1 h))

instance : IsStrictTotalOrder Key Before where
  irrefl := before_irrefl
  trans _ _ _ := Before.trans
  trichotomous k l hkl hlk := by
    rcases before_trichotomy k l with h | h | h
    · exact absurd h hkl
    · exact h
    · exact absurd h hlk

theorem before_of_le_of_ne (h : k.le l) (hne : k ≠ l) : Before k l := by
  rcases before_trichotomy k l with hkl | rfl | hlk
  · exact hkl
  · exact absurd rfl hne
  · refine absurd (le_antisymm h ?_) hne
    rw [le, compare_eq_lt_iff.2 hlk]
    rfl

theorem sort_eq_of_perm {ks ls : List Key} (h : ks.Perm ls) : sort ks = sort ls :=
  have sorted : ∀ ks : List Key, (sort ks).Pairwise fun k l => k.le l := fun ks =>
    List.pairwise_mergeSort le_trans le_total ks
  List.Perm.eq_of_pairwise (fun _ _ _ _ => le_antisymm) (sorted ks) (sorted ls)
    (((List.mergeSort_perm ks _).trans h).trans (List.mergeSort_perm ls _).symm)

end Key

namespace Table

theorem mem_sorted {t : Table} {e : Entry} : e ∈ t.sorted ↔ e ∈ t.entries := (List.mergeSort_perm _ _).mem_iff

theorem map_key_sorted (t : Table) : t.sorted.map Entry.key = Key.sort (t.entries.map Entry.key) :=
  List.map_mergeSort fun _ _ _ _ => rfl

theorem map_key_sorted_eq_of_perm {t u : Table} (h : (t.entries.map Entry.key).Perm (u.entries.map Entry.key)) :
    t.sorted.map Entry.key = u.sorted.map Entry.key := by
  rw [map_key_sorted, map_key_sorted, Key.sort_eq_of_perm h]

end Table

end CopyOnBind
