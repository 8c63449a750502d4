import Kuatia.Sql.Table
import Mathlib.Data.List.Perm.Basic

/-! # Inserting a selection

`INSERT INTO .. SELECT` adds all selected rows or, where one of their keys is
taken, fails and changes nothing.
-/

namespace Sql.Table

variable {Row Key : Type} {key : Row → Key} [DecidableEq Key] {table : Table key} {rows : List Row}

/-- `INSERT INTO .. SELECT`; `none` where the primary key rejects it. -/
def insertAll (rows : List Row) (table : Table key) : Option (Table key) :=
  if hnodup : ((table.rows ++ rows).map key).Nodup then some ⟨table.rows ++ rows, hnodup⟩ else none

theorem insertAll_of_nodup (hnodup : ((table.rows ++ rows).map key).Nodup) :
    table.insertAll rows = some ⟨table.rows ++ rows, hnodup⟩ := dif_pos hnodup

/-- Rows with distinct keys may be inserted into a new table. -/
theorem empty_insertAll (hnodup : (rows.map key).Nodup) :
    (empty : Table key).insertAll rows = some ⟨rows, hnodup⟩ := insertAll_of_nodup hnodup

end Sql.Table
