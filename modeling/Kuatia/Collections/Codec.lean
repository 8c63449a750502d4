import Mathlib.Algebra.Group.Nat.Defs
import Mathlib.Tactic.Common

/-! # Writing values as bytes and reading them back

A codec reads exactly what it has written, whatever bytes follow. Codecs of
records and of lists are put together from those of their parts.
-/

universe u v

structure Codec (α : Type u) where
  write : α → List UInt8
  read : List UInt8 → Option (α × List UInt8)
  read_write : ∀ value rest, read (write value ++ rest) = some (value, rest)

namespace Codec

variable {α : Type u} {β : Type v}

/-- Write a value by way of another one, from which it can be computed back. -/
def via (codec : Codec α) (into : β → α) (back : α → β)
    (hback : ∀ value, back (into value) = value) : Codec β where
  write value := codec.write (into value)
  read bytes := (codec.read bytes).map (Prod.map back id)
  read_write value rest := by simp [codec.read_write, hback]

def pair (first : Codec α) (second : Codec β) : Codec (α × β) where
  write value := first.write value.1 ++ second.write value.2
  read bytes := (first.read bytes).bind fun (left, rest) =>
    (second.read rest).map fun (right, rest) => ((left, right), rest)
  read_write value rest := by simp [first.read_write, second.read_write]

/-- One byte says which of the two follows. -/
def sum (first : Codec α) (second : Codec β) : Codec (α ⊕ β) where
  write
    | .inl left => 0 :: first.write left
    | .inr right => 1 :: second.write right
  read
    | [] => none
    | tag :: bytes =>
        if tag = 0 then (first.read bytes).map (Prod.map .inl id)
        else (second.read bytes).map (Prod.map .inr id)
  read_write value rest := by
    cases value with
    | inl left => simp [first.read_write]
    | inr right => simp [second.read_write]

def byte : Codec UInt8 where
  write value := [value]
  read
    | [] => none
    | head :: rest => some (head, rest)
  read_write _ _ := rfl

/-- A number of `width` bytes, the most significant one first. -/
def word : (width : Nat) → Codec (Fin (256 ^ width))
  | 0 => {
      write _ := []
      read bytes := some (0, bytes)
      read_write value rest := by simp [Fin.fin_one_eq_zero] }
  | width + 1 =>
      (byte.pair (word width)).via
        (fun value => (.ofNat (value / 256 ^ width),
          ⟨value % 256 ^ width, Nat.mod_lt _ (Nat.pow_pos (by decide))⟩))
        (fun parts => ⟨parts.1.toNat * 256 ^ width + parts.2, by
          have hhigh : (parts.1.toNat + 1) * 256 ^ width ≤ 256 * 256 ^ width :=
            Nat.mul_le_mul_right _ parts.1.toNat_lt
          have hlow := parts.2.isLt
          rw [Nat.add_one_mul] at hhigh
          rw [Nat.pow_succ']
          omega⟩)
        (fun value => by
          have hlt : value.val / 256 ^ width < 256 := by
            apply Nat.div_lt_of_lt_mul
            rw [← Nat.pow_succ]
            exact value.isLt
          apply Fin.ext
          simp [Nat.mod_eq_of_lt hlt, Nat.div_add_mod'])

/-! ## Lists -/

section Lists

variable (codec : Codec α)

/-- A byte 1 before each element, and a byte 0 at the end. -/
def writeList : List α → List UInt8
  | [] => [0]
  | head :: tail => 1 :: (codec.write head ++ writeList tail)

/-- Read at most `fuel` elements. -/
def readList : (fuel : Nat) → List UInt8 → Option (List α × List UInt8)
  | 0, _ => none
  | _ + 1, [] => none
  | fuel + 1, tag :: bytes =>
      if tag = 0 then some ([], bytes)
      else (codec.read bytes).bind fun (head, rest) =>
        (readList fuel rest).map fun (tail, rest) => (head :: tail, rest)

theorem length_lt_writeList (values : List α) : values.length < (codec.writeList values).length := by
  induction values with
  | nil => simp [writeList]
  | cons head tail ih =>
      simp only [writeList, List.length_cons, List.length_append]
      omega

theorem readList_writeList {values : List α} {fuel : Nat} (hfuel : values.length < fuel)
    (rest : List UInt8) :
    codec.readList fuel (codec.writeList values ++ rest) = some (values, rest) := by
  induction values generalizing fuel with
  | nil =>
      obtain ⟨fuel, rfl⟩ := Nat.exists_eq_add_one.mpr hfuel
      simp [writeList, readList]
  | cons head tail ih =>
      obtain ⟨fuel, rfl⟩ := Nat.exists_eq_add_one.mpr (Nat.zero_lt_of_lt hfuel)
      simp [writeList, readList, codec.read_write, ih (Nat.lt_of_succ_lt_succ hfuel)]

/-- The list is no longer than its bytes, so their number is enough fuel. -/
def list : Codec (List α) where
  write := codec.writeList
  read bytes := codec.readList bytes.length bytes
  read_write values rest := by
    apply codec.readList_writeList
    have hlength := codec.length_lt_writeList values
    rw [List.length_append]
    omega

end Lists

end Codec
