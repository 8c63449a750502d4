import Mathlib.Data.List.Sort
import Mathlib.Data.List.Nodup

/-! # ORDER BY

A query with an `ORDER BY` returns its rows sorted by a column. Rows with
different values have one order only; among rows with the same value the order
in which they were found stays.
-/

instance Sql.int64Order : LinearOrder Int64 where
  le_refl := Int64.le_refl
  le_trans _ _ _ := Int64.le_trans
  le_antisymm _ _ := Int64.le_antisymm
  le_total := Int64.le_total
  lt_iff_le_not_ge first second := by
    rw [Int64.lt_iff_toInt_lt, Int64.le_iff_toInt_le, Int64.le_iff_toInt_le]
    omega
  toDecidableLE := inferInstance
  toDecidableLT := inferInstance

instance Sql.int16Order : LinearOrder Int16 where
  le_refl := Int16.le_refl
  le_trans _ _ _ := Int16.le_trans
  le_antisymm _ _ := Int16.le_antisymm
  le_total := Int16.le_total
  lt_iff_le_not_ge first second := by
    rw [Int16.lt_iff_toInt_lt, Int16.le_iff_toInt_le, Int16.le_iff_toInt_le]
    omega
  toDecidableLE := inferInstance
  toDecidableLT := inferInstance

instance Sql.uint16Order : LinearOrder UInt16 where
  le_refl := UInt16.le_refl
  le_trans _ _ _ := UInt16.le_trans
  le_antisymm _ _ := UInt16.le_antisymm
  le_total := UInt16.le_total
  lt_iff_le_not_ge first second := by
    rw [UInt16.lt_iff_toNat_lt, UInt16.le_iff_toNat_le, UInt16.le_iff_toNat_le]
    omega
  toDecidableLE := inferInstance
  toDecidableLT := inferInstance

instance Sql.uint32Order : LinearOrder UInt32 where
  le_refl := UInt32.le_refl
  le_trans _ _ _ := UInt32.le_trans
  le_antisymm _ _ := UInt32.le_antisymm
  le_total := UInt32.le_total
  lt_iff_le_not_ge first second := by
    rw [UInt32.lt_iff_toNat_lt, UInt32.le_iff_toNat_le, UInt32.le_iff_toNat_le]
    omega
  toDecidableLE := inferInstance
  toDecidableLT := inferInstance

instance Sql.uint8Order : LinearOrder UInt8 where
  le_refl := UInt8.le_refl
  le_trans _ _ _ := UInt8.le_trans
  le_antisymm _ _ := UInt8.le_antisymm
  le_total := UInt8.le_total
  lt_iff_le_not_ge first second := by
    rw [UInt8.lt_iff_toNat_lt, UInt8.le_iff_toNat_le, UInt8.le_iff_toNat_le]
    omega
  toDecidableLE := inferInstance
  toDecidableLT := inferInstance

namespace Sql

variable {Row β : Type*} [LinearOrder β] {column : Row → β} {rows : List Row}

def orderBy (column : Row → β) (rows : List Row) : List Row :=
  rows.insertionSort fun first second => column first ≤ column second

theorem orderBy_perm (column : Row → β) (rows : List Row) : (orderBy column rows).Perm rows :=
  List.perm_insertionSort _ rows

@[simp] theorem mem_orderBy {row : Row} : row ∈ orderBy column rows ↔ row ∈ rows :=
  (orderBy_perm column rows).mem_iff

theorem orderBy_pairwise (column : Row → β) (rows : List Row) :
    (orderBy column rows).Pairwise (column · ≤ column ·) := by
  have : Std.Total fun first second : Row => column first ≤ column second :=
    ⟨fun first second => le_total (column first) (column second)⟩
  have : IsTrans Row fun first second => column first ≤ column second :=
    ⟨fun _ _ _ => le_trans⟩
  exact List.pairwise_insertionSort _ rows

/-- Rows with different values are sorted strictly. -/
theorem orderBy_strict (hnodup : (rows.map column).Nodup) :
    (orderBy column rows).Pairwise (column · < column ·) := by
  have hdistinct := ((orderBy_perm column rows).map column).nodup_iff.mpr hnodup
  exact (orderBy_pairwise column rows).imp₂ (fun _ _ hle hne => lt_of_le_of_ne hle hne)
    (List.pairwise_map.mp hdistinct)

theorem eq_of_strict {first second : List Row} (hfirst : first.Pairwise (column · < column ·))
    (hsecond : second.Pairwise (column · < column ·)) (hperm : first.Perm second) :
    first = second := by
  apply hperm.eq_of_pairwise _ hfirst hsecond
  intro row other _ _ hlt hgt
  exact absurd hlt hgt.not_gt

/-- A strictly sorted list of the same rows is their order. -/
theorem orderBy_eq_of_perm {list : List Row} (hsorted : list.Pairwise (column · < column ·))
    (hperm : list.Perm rows) : orderBy column rows = list := by
  have hnodup : (rows.map column).Nodup := by
    apply (hperm.map column).nodup_iff.mp
    rw [List.Nodup, List.pairwise_map]
    exact hsorted.imp ne_of_lt
  exact eq_of_strict (orderBy_strict hnodup) hsorted ((orderBy_perm column rows).trans hperm.symm)

/-- A sort by any relation that compares the values of a column. -/
theorem insertionSort_eq_orderBy {related : Row → Row → Prop} [DecidableRel related]
    (hrelated : ∀ first second, related first second ↔ column first ≤ column second) :
    rows.insertionSort related = orderBy column rows := by
  have hsame := List.map_insertionSort (r := related)
    (s := fun first second => column first ≤ column second) id rows
    fun first _ second _ => hrelated first second
  rwa [List.map_id, List.map_id] at hsame

/-- With different values it does not matter in which order the rows were found. -/
theorem orderBy_congr {other : List Row} (hnodup : (rows.map column).Nodup)
    (hperm : rows.Perm other) : orderBy column rows = orderBy column other :=
  (orderBy_eq_of_perm (orderBy_strict hnodup) ((orderBy_perm column rows).trans hperm)).symm

/-- With different values it does not matter whether rows are sorted or selected
first. -/
theorem orderBy_filter (hnodup : (rows.map column).Nodup) (matching : Row → Bool) :
    orderBy column (rows.filter matching) = (orderBy column rows).filter matching :=
  orderBy_eq_of_perm ((orderBy_strict hnodup).filter _) ((orderBy_perm column rows).filter _)

end Sql
