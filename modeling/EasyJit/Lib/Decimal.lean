import Mathlib.Data.List.Basic
import Mathlib.Data.List.Nodup
import Mathlib.Data.List.Perm.Subperm
import Mathlib.Logic.Function.Basic

/-!
# Decimal numbers

A number is read back from its digits, so that different numbers are written differently.
-/

namespace Decimal

theorem toList_toString (n : ℕ) : (toString n).toList = Nat.toDigits 10 n := by
  rw [Nat.toString_eq_repr, Nat.toList_repr]

theorem toString_injective : Function.Injective (toString : ℕ → String) := by
  intro m n h
  have hdigits : Nat.toDigits 10 m = Nat.toDigits 10 n := by
    rw [← toList_toString, ← toList_toString, h]
  rw [← Nat.ofDigitChars_ten_toDigits (n := m), hdigits, Nat.ofDigitChars_ten_toDigits]

theorem not_mem_toDigits {c : Char} (hc : c.isDigit = false) (n : ℕ) : c ∉ Nat.toDigits 10 n := by
  intro h
  have := Nat.isDigit_of_mem_toDigits (by decide) (by decide) h
  rw [hc] at this
  cases this

/-- The number of a numeral; nothing for other texts, and for numerals that start with a zero they
do not need. -/
def read (numeral : List Char) : Option ℕ :=
  let n := Nat.ofDigitChars 10 numeral 0
  if Nat.toDigits 10 n = numeral then some n else none

theorem read_toDigits (n : ℕ) : read (Nat.toDigits 10 n) = some n := by
  rw [read, Nat.ofDigitChars_ten_toDigits, if_pos rfl]

/-- Numbers behind a text make different texts. -/
theorem append_toString_injective (text : String) :
    Function.Injective fun k : ℕ => text ++ toString k := by
  intro j k hjk
  have := congrArg String.toList hjk
  simp only [String.toList_append, List.append_cancel_left_eq, String.toList_inj] at this
  exact toString_injective this

/-- There are more candidates than names in use. -/
theorem exists_unused {α : Type*} [DecidableEq α] {f : ℕ → α} (hf : Function.Injective f)
    (used : List α) : ∃ k, ((List.range (used.length + 1)).map f).find? (· ∉ used) = some (f k)
      ∧ f k ∉ used := by
  have hnodup : ((List.range (used.length + 1)).map f).Nodup := List.nodup_range.map hf
  have hsome : (((List.range (used.length + 1)).map f).find? (· ∉ used)).isSome = true := by
    rw [List.find?_isSome]
    by_contra hall
    simp only [decide_eq_true_eq, not_exists, not_and, not_not] at hall
    have hle := (hnodup.subperm fun x hx => hall x hx).length_le
    rw [List.length_map, List.length_range] at hle
    omega
  obtain ⟨x, hx⟩ := Option.isSome_iff_exists.1 hsome
  obtain ⟨k, -, rfl⟩ := List.mem_map.1 (List.mem_of_find?_eq_some hx)
  exact ⟨k, hx, by simpa using List.find?_some hx⟩

end Decimal
