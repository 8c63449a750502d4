import Mathlib.Tactic.Common
import Mathlib.Algebra.Order.Ring.Int

/-! # Integers as decimal text

An integer is written as an optional minus sign and its decimal digits. Reading
accepts a sign of either kind and any positive number of digits. Numbers with a
separator behind each can be told apart.
-/

namespace List

/-- A text up to its first separator. -/
theorem append_separator_inj {α : Type*} {separator : α} {first second rest others : List α}
    (hfirst : separator ∉ first) (hsecond : separator ∉ second)
    (heq : first ++ separator :: rest = second ++ separator :: others) :
    first = second ∧ rest = others := by
  induction first generalizing second with
  | nil =>
      cases second with
      | nil => exact ⟨rfl, (List.cons.inj heq).2⟩
      | cons head tail => exact absurd ((List.cons.inj heq).1 ▸ List.mem_cons_self) hsecond
  | cons head tail ih =>
      cases second with
      | nil => exact absurd ((List.cons.inj heq).1 ▸ List.mem_cons_self) hfirst
      | cons other second =>
          obtain ⟨rfl, htail⟩ := List.cons.inj heq
          obtain ⟨rfl, hrest⟩ := ih (List.not_mem_of_not_mem_cons hfirst)
            (List.not_mem_of_not_mem_cons hsecond) htail
          exact ⟨rfl, hrest⟩

end List

namespace Decimal

/-- One more digit behind the ones that were read. -/
def readDigit (value : Nat) (char : Char) : Option Nat :=
  if char.isDigit then some (10 * value + (char.toNat - 48)) else none

def readNat (chars : List Char) : Option Nat :=
  if chars = [] then none else chars.foldlM readDigit 0

def readInt : List Char → Option Int
  | '-' :: digits => (readNat digits).map fun value : Nat => -Int.ofNat value
  | '+' :: digits => (readNat digits).map Int.ofNat
  | digits => (readNat digits).map Int.ofNat

theorem readDigit_digitChar (value : Nat) {digit : Nat} (hdigit : digit < 10) :
    readDigit value digit.digitChar = some (10 * value + digit) := by
  rw [readDigit, if_pos (by simp [Nat.isDigit_digitChar, hdigit]),
    Nat.toNat_digitChar_sub_48_of_lt_ten hdigit]

theorem foldlM_toDigits (value : Nat) :
    (Nat.toDigits 10 value).foldlM readDigit 0 = some value := by
  induction value using Nat.strongRecOn with
  | ind value ih =>
      by_cases hsmall : value < 10
      · rw [Nat.toDigits_of_lt_base hsmall]
        simp [readDigit_digitChar 0 hsmall]
      · rw [Nat.toDigits_of_base_le (by decide) (by omega), List.foldlM_append,
          ih (value / 10) (by omega)]
        have hdigit : value % 10 < 10 := Nat.mod_lt _ (by decide)
        simp [readDigit_digitChar _ hdigit]
        omega

theorem readNat_toDigits (value : Nat) : readNat (Nat.toDigits 10 value) = some value := by
  rw [readNat, if_neg Nat.toDigits_ne_nil, foldlM_toDigits]

/-- What is read are digits, and the number that they stand for. -/
theorem foldlM_readDigit_eq_some_iff {chars : List Char} {start value : Nat} :
    chars.foldlM readDigit start = some value ↔
      (∀ char ∈ chars, char.isDigit = true) ∧ Nat.ofDigitChars 10 chars start = value := by
  induction chars generalizing start with
  | nil => simp
  | cons char chars ih =>
      rw [List.foldlM_cons, readDigit, List.forall_mem_cons, Nat.ofDigitChars_cons]
      split
      next hdigit =>
        rw [Option.bind_eq_bind, Option.bind_some, ih]
        simp [hdigit]
      next hother => simp [hother]

theorem readNat_eq_some_iff {chars : List Char} {value : Nat} :
    readNat chars = some value ↔
      chars ≠ [] ∧ (∀ char ∈ chars, char.isDigit = true) ∧ Nat.ofDigitChars 10 chars 0 = value := by
  rw [readNat]
  split
  next hempty => simp [hempty]
  next hsome => simp [hsome, foldlM_readDigit_eq_some_iff]

theorem readInt_of_unsigned {chars : List Char} (hminus : chars.head? ≠ some '-')
    (hplus : chars.head? ≠ some '+') : readInt chars = (readNat chars).map Int.ofNat := by
  unfold readInt
  split
  next => exact absurd rfl hminus
  next => exact absurd rfl hplus
  next => rfl

/-- The first digit of a number is not a sign. -/
theorem readInt_toDigits (value : Nat) :
    readInt (Nat.toDigits 10 value) = some (value : Int) := by
  have hsign : ∀ sign : Char, sign.isDigit = false → (Nat.toDigits 10 value).head? ≠ some sign := by
    intro sign hsign hhead
    obtain ⟨tail, htail⟩ := List.head?_eq_some_iff.mp hhead
    have hdigit := Nat.isDigit_of_mem_toDigits (b := 10) (by decide) (by decide)
      (htail ▸ List.mem_cons_self)
    exact Bool.false_ne_true (hsign.symm.trans hdigit)
  rw [readInt_of_unsigned (hsign '-' rfl) (hsign '+' rfl), readNat_toDigits]
  rfl

/-- A minus sign and the digits of the absolute value. -/
theorem toList_toString (value : Int) :
    (toString value).toList =
      if value < 0 then '-' :: Nat.toDigits 10 value.natAbs
      else Nat.toDigits 10 value.natAbs := by
  cases value with
  | ofNat value => exact Nat.toList_repr
  | negSucc value =>
      change ("-" ++ Nat.repr (value + 1)).toList = _
      rw [String.toList_append, Nat.toList_repr, show "-".toList = ['-'] from rfl,
        List.singleton_append, if_pos (Int.negSucc_lt_zero value), Int.natAbs_negSucc]

/-- What was written is read back. -/
theorem readInt_toString (value : Int) : readInt (toString value).toList = some value := by
  rw [toList_toString]
  split
  next hnegative =>
    rw [readInt, readNat_toDigits, Option.map_some, Int.ofNat_eq_natCast, Option.some.injEq]
    omega
  next hnonneg =>
    rw [readInt_toDigits, Option.some.injEq]
    omega

theorem toString_injective : Function.Injective (toString : Int → String) := by
  intro first second heq
  have hread := readInt_toString first
  rw [heq, readInt_toString] at hread
  exact (Option.some.inj hread).symm

theorem isDigit_of_mem_toString {value : Int} {char : Char}
    (hchar : char ∈ (toString value).toList) (hminus : char ≠ '-') : char.isDigit = true := by
  have hdigits : char ∈ Nat.toDigits 10 value.natAbs := by
    rw [toList_toString] at hchar
    split at hchar
    next => exact (List.mem_cons.mp hchar).resolve_left hminus
    next => exact hchar
  exact Nat.isDigit_of_mem_toDigits (by decide) (by decide) hdigits

end Decimal
