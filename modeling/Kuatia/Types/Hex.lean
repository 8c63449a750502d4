import Mathlib.Data.List.Lex
import Mathlib.Data.String.Basic
import Kuatia.Types.Ids

/-! # Hex text

Hex text determines the bytes, keeps their order, and has no other characters
than the sixteen digits.
-/

namespace Kuatia

theorem toList_hex (bytes : List UInt8) : (hex bytes).toList =
    bytes.flatMap fun byte => [hexDigit (byte.toNat / 16), hexDigit (byte.toNat % 16)] := by
  rw [hex, String.toList_ofList]

theorem hexDigit_lt_iff {first second : Nat} (hfirst : first < 16) (hsecond : second < 16) :
    hexDigit first < hexDigit second ↔ first < second := by
  have hall : ∀ first second : Fin 16,
      hexDigit first.val < hexDigit second.val ↔ first.val < second.val := by decide
  exact hall ⟨first, hfirst⟩ ⟨second, hsecond⟩

theorem hexDigit_inj {first second : Nat} (hfirst : first < 16) (hsecond : second < 16) :
    hexDigit first = hexDigit second ↔ first = second := by
  have hall : ∀ first second : Fin 16,
      hexDigit first.val = hexDigit second.val ↔ first.val = second.val := by decide
  exact hall ⟨first, hfirst⟩ ⟨second, hsecond⟩

theorem hexDigit_ne_colon {digit : Nat} (hdigit : digit < 16) : hexDigit digit ≠ ':' := by
  have hall : ∀ digit : Fin 16, hexDigit digit.val ≠ ':' := by decide
  exact hall ⟨digit, hdigit⟩

/-- Hex text is ordered like the bytes. -/
theorem hex_lt_iff {first second : List UInt8} : hex first < hex second ↔ first < second := by
  rw [String.lt_iff_toList_lt, toList_hex, toList_hex]
  induction first generalizing second with
  | nil => cases second <;> simp
  | cons byte first ih =>
      cases second with
      | nil => simp
      | cons other second =>
          have hbyte := byte.toNat_lt
          have hother := other.toNat_lt
          simp only [List.flatMap_cons, List.cons_append, List.nil_append, List.cons_lt_cons_iff, ih]
          rw [hexDigit_lt_iff (by omega) (by omega), hexDigit_lt_iff (by omega) (by omega),
            hexDigit_inj (by omega) (by omega), hexDigit_inj (by omega) (by omega),
            UInt8.lt_iff_toNat_lt, ← UInt8.toNat_inj]
          by_cases hrest : first < second <;> simp only [hrest, and_true, and_false, or_false] <;> omega

theorem hex_injective : Function.Injective hex := by
  intro first
  induction first with
  | nil =>
      intro second heq
      have hlist := congrArg String.toList heq
      rw [toList_hex, toList_hex] at hlist
      cases second with
      | nil => rfl
      | cons => cases hlist
  | cons byte first ih =>
      intro second heq
      have hlist := congrArg String.toList heq
      rw [toList_hex, toList_hex] at hlist
      cases second with
      | nil => cases hlist
      | cons other second =>
          have hbyte := byte.toNat_lt
          have hother := other.toNat_lt
          simp only [List.flatMap_cons, List.cons_append, List.nil_append, List.cons.injEq] at hlist
          obtain ⟨hhigh, hlow, hrest⟩ := hlist
          rw [hexDigit_inj (by omega) (by omega)] at hhigh hlow
          have htail : hex first = hex second := by
            rw [← String.toList_inj, toList_hex, toList_hex]
            exact hrest
          rw [ih htail, UInt8.toNat_inj.mp (show byte.toNat = other.toNat by omega)]

theorem colon_notMem_hex (bytes : List UInt8) : ':' ∉ (hex bytes).toList := by
  rw [toList_hex, List.mem_flatMap]
  rintro ⟨byte, _, hmem⟩
  have hlt := byte.toNat_lt
  rcases List.mem_cons.mp hmem with hhigh | hmem
  · exact hexDigit_ne_colon (by omega) hhigh.symm
  · exact hexDigit_ne_colon (by omega) (List.mem_singleton.mp hmem).symm

end Kuatia
