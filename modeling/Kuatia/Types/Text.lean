import Mathlib.Algebra.Ring.Nat
import Mathlib.Data.List.DropRight
import Mathlib.Tactic.Common

/-! # Texts

Texts are lists of characters. The standard library counts the bytes of a text,
cuts it at byte offsets and takes whitespace off its ends.
-/

namespace Kuatia

/-! ## Whitespace -/

/-- `char::is_whitespace`. -/
def isWhitespace (c : Char) : Bool :=
  let n := c.toNat
  (9 ≤ n && n ≤ 13) || n == 0x20 || n == 0x85 || n == 0xA0 || n == 0x1680 ||
    (0x2000 ≤ n && n ≤ 0x200A) || n == 0x2028 || n == 0x2029 || n == 0x202F || n == 0x205F ||
    n == 0x3000

/-- `str::trim`. -/
def trim (text : List Char) : List Char := (text.dropWhile isWhitespace).rdropWhile isWhitespace

/-! ## Bytes -/

/-- Cut a text at a byte offset; `none` inside a character, where a slice panics. -/
def sliceAt : (offset : Nat) → List Char → Option (List Char × List Char)
  | 0, text => some ([], text)
  | _ + 1, [] => none
  | offset + 1, c :: text =>
      if c.utf8Size ≤ offset + 1 then
        (sliceAt (offset + 1 - c.utf8Size) text).map fun (before, after) => (c :: before, after)
      else none

/-- The length of a text in UTF-8. -/
def byteLength (text : List Char) : Nat := (text.map Char.utf8Size).sum

@[simp] theorem byteLength_nil : byteLength [] = 0 := rfl

@[simp] theorem byteLength_cons (c : Char) (text : List Char) :
    byteLength (c :: text) = c.utf8Size + byteLength text := rfl

@[simp] theorem byteLength_append (before after : List Char) :
    byteLength (before ++ after) = byteLength before + byteLength after := by
  simp [byteLength]

theorem byteLength_of_forall {text : List Char} (hone : ∀ c ∈ text, c.utf8Size = 1) :
    byteLength text = text.length := by
  induction text with
  | nil => rfl
  | cons c text ih =>
      rw [List.forall_mem_cons] at hone
      rw [byteLength_cons, hone.1, ih hone.2, List.length_cons, Nat.add_comm]

theorem isDigit_iff (c : Char) : c.isDigit = true ↔ 48 ≤ c.toNat ∧ c.toNat ≤ 57 := by
  simp only [Char.isDigit, Bool.and_eq_true, decide_eq_true_eq, ge_iff_le, UInt32.le_iff_toNat_le]
  rfl

theorem utf8Size_of_isDigit {c : Char} (hc : c.isDigit = true) : c.utf8Size = 1 := by
  have hrange := (isDigit_iff c).mp hc
  rw [Char.utf8Size_eq_one_iff, UInt32.le_iff_toNat_le]
  exact hrange.2.trans (by decide)

/-- A cut succeeds exactly at the beginning of a character. -/
theorem sliceAt_eq_some_iff {offset : Nat} {text before after : List Char} :
    sliceAt offset text = some (before, after) ↔
      text = before ++ after ∧ byteLength before = offset := by
  induction text generalizing offset before with
  | nil => cases offset <;> cases before <;> simp [sliceAt, eq_comm]
  | cons c text ih =>
      have hpos := c.utf8Size_pos
      cases offset with
      | zero =>
          cases before with
          | nil => simp [sliceAt, eq_comm]
          | cons first before => simp [sliceAt, first.utf8Size_pos.ne']
      | succ offset =>
          rw [sliceAt]
          split
          next hfits =>
            cases before with
            | nil => simp
            | cons first before =>
                have hrest := @ih (offset + 1 - c.utf8Size) before
                simp only [Option.map_eq_some_iff, Prod.mk.injEq, Prod.exists, List.cons.injEq,
                  List.cons_append, byteLength_cons]
                constructor
                · rintro ⟨_, _, hcut, ⟨rfl, rfl⟩, rfl⟩
                  obtain ⟨rfl, hlength⟩ := hrest.mp hcut
                  exact ⟨⟨rfl, rfl⟩, by omega⟩
                · rintro ⟨⟨rfl, rfl⟩, hlength⟩
                  exact ⟨before, after, hrest.mpr ⟨rfl, by omega⟩, ⟨rfl, rfl⟩, rfl⟩
          next htooLong =>
            cases before with
            | nil => simp
            | cons first before =>
                simp only [reduceCtorEq, List.cons_append, List.cons.injEq, byteLength_cons,
                  false_iff, not_and]
                rintro ⟨rfl, -⟩
                omega

/-- Letters are the only characters that change, and both cases take one byte. -/
theorem utf8Size_toUpper (c : Char) : c.toUpper.utf8Size = c.utf8Size := by
  by_cases hlower : 'a'.val ≤ c.val ∧ c.val ≤ 'z'.val
  · rw [UInt32.le_iff_toNat_le, UInt32.le_iff_toNat_le] at hlower
    have hrange : 97 ≤ c.toNat ∧ c.toNat ≤ 122 := hlower
    have hall : ∀ letter : Fin 26, (Char.ofNat (97 + letter.val)).toUpper.utf8Size =
        (Char.ofNat (97 + letter.val)).utf8Size := by decide +kernel
    have hletter := hall ⟨c.toNat - 97, by omega⟩
    rwa [Nat.add_sub_cancel' hrange.1, Char.ofNat_toNat] at hletter
  · have hsame : c.toUpper = c := dif_neg hlower
    rw [hsame]

theorem byteLength_map_toUpper (text : List Char) :
    byteLength (text.map Char.toUpper) = byteLength text := by
  rw [byteLength, List.map_map, byteLength]
  exact congrArg List.sum (List.map_congr_left fun c _ => utf8Size_toUpper c)

end Kuatia
