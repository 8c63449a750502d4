import Kuatia.Collections.HashMap
import Mathlib.Data.List.Nodup

/-! # Tables with a primary key

A table is a list of rows with distinct keys. A statement says by a condition on
rows what it selects or changes, and reports how many rows it has changed. A
statement over a set of items that no changed row matches again has the effect of
the same statement for one item after the other.
-/

namespace Sql

variable {Row Key : Type}

/-! ## One statement for each item -/

section ForEach

variable {α State : Type}

/-- Run a statement for each item, and add up the rows that it has changed. -/
def forEach (statement : α → State → Nat × State) (items : List α) (state : State) :
    Nat × State :=
  items.foldl (fun (count, state) item =>
    let (changed, next) := statement item state
    (count + changed, next)) (0, state)

variable {statement : α → State → Nat × State}

theorem foldl_forEach (items : List α) (count : Nat) (state : State) :
    items.foldl (fun (count, state) item =>
      let (changed, next) := statement item state
      (count + changed, next)) (count, state) =
      (count + (forEach statement items state).1, (forEach statement items state).2) := by
  suffices ∀ earlier, items.foldl (fun (count, state) item =>
      let (changed, next) := statement item state
      (count + changed, next)) (count + earlier, state) =
      (count + (items.foldl (fun (count, state) item =>
        let (changed, next) := statement item state
        (count + changed, next)) (earlier, state)).1,
      (items.foldl (fun (count, state) item =>
        let (changed, next) := statement item state
        (count + changed, next)) (earlier, state)).2) from this 0
  induction items generalizing state with
  | nil => exact fun _ => rfl
  | cons item items ih =>
      intro earlier
      simp only [List.foldl_cons, Nat.add_assoc]
      exact ih _ _

@[simp] theorem forEach_nil (state : State) : forEach statement [] state = (0, state) := rfl

theorem forEach_cons (item : α) (items : List α) (state : State) :
    forEach statement (item :: items) state =
      ((statement item state).1 + (forEach statement items (statement item state).2).1,
        (forEach statement items (statement item state).2).2) := by
  simp only [forEach, List.foldl_cons, Nat.zero_add]
  exact foldl_forEach items _ _

theorem forEach_append (first second : List α) (state : State) :
    forEach statement (first ++ second) state =
      ((forEach statement first state).1 +
          (forEach statement second (forEach statement first state).2).1,
        (forEach statement second (forEach statement first state).2).2) := by
  rw [forEach, List.foldl_append, ← forEach]
  exact foldl_forEach second _ _

/-- A statement that handles its items one after the other may be given them in
chunks, cut anywhere. -/
theorem forEach_flatten {chunked : List α → State → Nat × State}
    (hchunked : ∀ items state, chunked items state = forEach statement items state)
    (chunks : List (List α)) (state : State) :
    forEach chunked chunks state = forEach statement chunks.flatten state := by
  induction chunks generalizing state with
  | nil => rfl
  | cons chunk chunks ih => rw [List.flatten_cons, forEach_cons, forEach_append, hchunked, ih]

end ForEach

/-! ## Tables -/

/-- The rows of a table with the given primary key. -/
@[ext] structure Table (key : Row → Key) where
  rows : List Row
  nodup : (rows.map key).Nodup

namespace Table

variable {key : Row → Key}

def empty : Table key := ⟨[], List.nodup_nil⟩

/-- `SELECT`: the rows that match. -/
def select (table : Table key) (matching : Row → Bool) : List Row := table.rows.filter matching

/-- `UPDATE .. SET`: change the rows that match, but not their keys. -/
def updateWhere (matching : Row → Bool) (set : Row → Row) (hkey : ∀ row, key (set row) = key row)
    (table : Table key) : Nat × Table key :=
  (table.rows.countP matching,
    { rows := table.rows.map fun row => if matching row then set row else row
      nodup := by
        have hkeys : (table.rows.map fun row => if matching row then set row else row).map key =
            table.rows.map key := by
          rw [List.map_map]
          apply List.map_congr_left
          intro row _
          rw [Function.comp_apply]
          split
          next => exact hkey row
          next => rfl
        rw [hkeys]
        exact table.nodup })

/-- `DELETE`: remove the rows that match. -/
def deleteWhere (matching : Row → Bool) (table : Table key) : Nat × Table key :=
  (table.rows.countP matching,
    { rows := table.rows.filter fun row => !matching row
      nodup := table.nodup.sublist ((List.filter_sublist).map key) })

section Effects

variable {table : Table key} {matching : Row → Bool} {row : Row}

theorem key_of_mem_update {set : Row → Row} {hkey : ∀ row, key (set row) = key row}
    (hrow : row ∈ (table.updateWhere matching set hkey).2.rows) :
    ∃ old ∈ table.rows, key row = key old := by
  obtain ⟨old, hold, rfl⟩ := List.mem_map.mp hrow
  refine ⟨old, hold, ?_⟩
  split
  next => exact hkey old
  next => rfl

theorem key_of_mem_delete (hrow : row ∈ (table.deleteWhere matching).2.rows) :
    ∃ old ∈ table.rows, key row = key old :=
  ⟨row, (List.mem_filter.mp hrow).1, rfl⟩

/-- An update that finds no row leaves the table as it is. -/
theorem updateWhere_of_countP_eq_zero {set : Row → Row} {hkey : ∀ row, key (set row) = key row}
    (hzero : table.rows.countP matching = 0) : (table.updateWhere matching set hkey).2 = table := by
  apply Table.ext
  calc
    _ = table.rows.map id := by
        apply List.map_congr_left
        intro row hrow
        rw [if_neg (List.countP_eq_zero.mp hzero row hrow), id_eq]
    _ = table.rows := List.map_id _

/-- A deletion that finds no row leaves the table as it is. -/
theorem deleteWhere_of_countP_eq_zero (hzero : table.rows.countP matching = 0) :
    (table.deleteWhere matching).2 = table := by
  apply Table.ext
  apply List.filter_eq_self.mpr
  intro row hrow
  simpa using List.countP_eq_zero.mp hzero row hrow

end Effects

variable [DecidableEq Key]

/-- The row under a key. -/
def lookup (table : Table key) (k : Key) : Option Row := table.rows.find? fun row => key row = k

/-- `INSERT .. ON CONFLICT DO NOTHING`: a row whose key is taken is left out. -/
def insertIgnore (row : Row) (table : Table key) : Nat × Table key :=
  if hfree : key row ∈ table.rows.map key then (0, table)
  else (1,
    { rows := row :: table.rows
      nodup := List.nodup_cons.mpr ⟨hfree, table.nodup⟩ })

/-! ## Looking up a row -/

variable {table : Table key}

theorem lookup_eq_some_iff {k : Key} {row : Row} :
    table.lookup k = some row ↔ row ∈ table.rows ∧ key row = k := by
  constructor
  · intro hlookup
    exact ⟨List.mem_of_find?_eq_some hlookup, by simpa using List.find?_some hlookup⟩
  · rintro ⟨hmem, rfl⟩
    cases hfound : table.lookup (key row) with
    | none => exact absurd (decide_eq_true rfl) (List.find?_eq_none.mp hfound row hmem)
    | some other =>
        have hkey : key other = key row := by simpa using List.find?_some hfound
        exact congrArg some (List.inj_on_of_nodup_map table.nodup
          (List.mem_of_find?_eq_some hfound) hmem hkey)

theorem lookup_of_mem {row : Row} (hmem : row ∈ table.rows) :
    table.lookup (key row) = some row := lookup_eq_some_iff.mpr ⟨hmem, rfl⟩

theorem lookup_eq_none_iff {k : Key} : table.lookup k = none ↔ k ∉ table.rows.map key := by
  rw [lookup, List.find?_eq_none, List.mem_map]
  simp

@[simp] theorem lookup_empty (k : Key) : (empty : Table key).lookup k = none := rfl

theorem lookup_insertIgnore (row : Row) (table : Table key) (k : Key) :
    (table.insertIgnore row).2.lookup k =
      (table.lookup k).or (if k = key row then some row else none) := by
  unfold insertIgnore
  split
  next htaken =>
    by_cases hk : k = key row
    · cases hlookup : table.lookup k with
      | none => exact absurd (hk ▸ htaken) (lookup_eq_none_iff.mp hlookup)
      | some _ => rfl
    · simp [hk]
  next hfree =>
    have hnone := lookup_eq_none_iff.mpr hfree
    by_cases hk : k = key row
    · subst hk
      rw [hnone, if_pos rfl]
      simp [lookup]
    · have hne : ¬key row = k := fun heq => hk heq.symm
      rw [if_neg hk, Option.or_none]
      simp [lookup, hne]

/-- Among rows of the table that include the one under a key, it is the only one
with this key. -/
theorem getLast?_filter_key {rows : List Row} {k : Key} (hrows : ∀ row ∈ rows, row ∈ table.rows)
    (hfound : ∀ row, table.lookup k = some row → row ∈ rows) :
    (rows.filter fun row => key row = k).getLast? = table.lookup k := by
  cases hlast : (rows.filter fun row => key row = k).getLast? with
  | none =>
      rw [List.getLast?_eq_none_iff, List.filter_eq_nil_iff] at hlast
      cases hlookup : table.lookup k with
      | none => rfl
      | some row =>
          have hkey := (lookup_eq_some_iff.mp hlookup).2
          exact absurd (decide_eq_true hkey) (hlast row (hfound row hlookup))
  | some row =>
      obtain ⟨hmem, hkey⟩ := List.mem_filter.mp (List.mem_of_getLast? hlast)
      exact (lookup_eq_some_iff.mpr ⟨hrows row hmem, of_decide_eq_true hkey⟩).symm

theorem eq_or_mem_of_mem_insertIgnore {row new : Row}
    (hrow : row ∈ (table.insertIgnore new).2.rows) : row = new ∨ row ∈ table.rows := by
  unfold insertIgnore at hrow
  split at hrow
  next => exact .inr hrow
  next => exact List.mem_cons.mp hrow

theorem insertIgnore_of_taken {row : Row} (htaken : (table.lookup (key row)).isSome) :
    table.insertIgnore row = (0, table) := by
  rw [insertIgnore, dif_pos]
  by_contra hfree
  rw [lookup_eq_none_iff.mpr hfree] at htaken
  cases htaken

theorem mem_insertIgnore_of_free {row new : Row} (hfree : table.lookup (key new) = none) :
    row ∈ (table.insertIgnore new).2.rows ↔ row = new ∨ row ∈ table.rows := by
  rw [insertIgnore, dif_neg (lookup_eq_none_iff.mp hfree)]
  exact List.mem_cons

/-- Where the whole row is the key, inserting adds exactly the given rows. -/
theorem mem_foldl_insertIgnore [DecidableEq Row] (rowOf : α → Row) (items : List α)
    {table : Table (id : Row → Row)} {row : Row} :
    row ∈ (items.foldl (fun table item => (table.insertIgnore (rowOf item)).2) table).rows ↔
      row ∈ table.rows ∨ ∃ item ∈ items, row = rowOf item := by
  induction items generalizing table with
  | nil => simp
  | cons head tail ih =>
      have hhead : row ∈ (table.insertIgnore (rowOf head)).2.rows ↔
          row ∈ table.rows ∨ row = rowOf head := by
        cases hlookup : table.lookup (id (rowOf head)) with
        | none => rw [mem_insertIgnore_of_free hlookup, or_comm]
        | some taken =>
            obtain ⟨hmem, hsame⟩ := lookup_eq_some_iff.mp hlookup
            rw [insertIgnore_of_taken (by rw [hlookup]; rfl)]
            refine ⟨.inl, fun hrow => hrow.elim id fun hrow => ?_⟩
            rw [hrow, ← show taken = rowOf head from hsame]
            exact hmem
      rw [List.foldl_cons, ih, hhead, or_assoc]
      simp only [List.mem_cons, exists_eq_or_imp]

theorem insertIgnore_count (row : Row) (table : Table key) :
    (table.insertIgnore row).1 = if (table.lookup (key row)).isSome then 0 else 1 := by
  unfold insertIgnore
  split
  next htaken =>
    cases hlookup : table.lookup (key row) with
    | none => exact absurd htaken (lookup_eq_none_iff.mp hlookup)
    | some _ => rfl
  next hfree => rw [lookup_eq_none_iff.mpr hfree]; rfl

theorem lookup_updateWhere (matching : Row → Bool) (set : Row → Row)
    (hkey : ∀ row, key (set row) = key row) (table : Table key) (k : Key) :
    (table.updateWhere matching set hkey).2.lookup k =
      (table.lookup k).map fun row => if matching row then set row else row := by
  have hkeys : ∀ row, key (if matching row then set row else row) = key row := by
    intro row
    split
    next => exact hkey row
    next => rfl
  rw [lookup, updateWhere, List.find?_map]
  congr 1
  apply congrArg fun condition => List.find? condition table.rows
  funext row
  rw [Function.comp_apply, hkeys]

theorem lookup_deleteWhere (matching : Row → Bool) (table : Table key) (k : Key) :
    (table.deleteWhere matching).2.lookup k = (table.lookup k).filter fun row => !matching row := by
  apply Option.ext
  intro row
  rw [lookup_eq_some_iff, Option.filter_eq_some_iff, lookup_eq_some_iff]
  simp only [deleteWhere, List.mem_filter]
  tauto

/-- At most one row has a given key, so a condition on it counts one row or none. -/
theorem countP_key (k : Key) (condition : Row → Bool) :
    table.rows.countP (fun row => key row = k && condition row) =
      if (table.lookup k).any condition then 1 else 0 := by
  have hsplit : table.rows.countP (fun row => key row = k && condition row) =
      (table.rows.filter fun row => key row = k).countP condition := by
    rw [List.countP_filter]
    apply List.countP_congr
    intro row _
    simp [and_comm]
  have hone : table.rows.filter (fun row => key row = k) = (table.lookup k).toList := by
    cases hlookup : table.lookup k with
    | none =>
        apply List.filter_eq_nil_iff.mpr
        exact List.find?_eq_none.mp hlookup
    | some row =>
        obtain ⟨hmem, rfl⟩ := lookup_eq_some_iff.mp hlookup
        have hnodup : (table.rows.filter fun other => key other = key row).Nodup :=
          (List.Nodup.of_map key table.nodup).filter _
        apply List.perm_singleton.mp
        rw [List.perm_ext_iff_of_nodup hnodup (List.nodup_singleton row)]
        intro other
        rw [List.mem_filter, List.mem_singleton]
        constructor
        · rintro ⟨hother, hkey⟩
          exact List.inj_on_of_nodup_map table.nodup hother hmem (of_decide_eq_true hkey)
        · rintro rfl
          exact ⟨hmem, decide_eq_true rfl⟩
  rw [hsplit, hone]
  cases table.lookup k with
  | none => rfl
  | some row => simp [List.countP_cons]

/-! ## Statements over a set of items -/

section Sets

omit [DecidableEq Key]

variable {α : Type} {among : α → Row → Bool} {state : Row → Bool}

/-- An update that makes its own condition false can be done item by item. -/
theorem updateWhere_any {set : Row → Row} {hkey : ∀ row, key (set row) = key row}
    (hleaves : ∀ row, state row = true → state (set row) = false) (items : List α)
    (table : Table key) :
    table.updateWhere (fun row => items.any (among · row) && state row) set hkey =
      forEach (fun item => updateWhere (fun row => among item row && state row) set hkey)
        items table := by
  induction items generalizing table with
  | nil => exact Prod.ext (by simp [updateWhere]) (Table.ext (by simp [updateWhere]))
  | cons item items ih =>
      rw [forEach_cons, ← ih]
      refine Prod.ext ?_ (Table.ext ?_)
      · simp only [updateWhere]
        induction table.rows with
        | nil => rfl
        | cons row rows ihrows =>
            rw [List.countP_cons, List.countP_cons, List.map_cons, List.countP_cons, ihrows]
            by_cases hitem : among item row = true <;> by_cases hstate : state row = true <;>
              simp [hitem, hstate, hleaves, Nat.add_assoc, Nat.add_comm]
      · simp only [updateWhere, List.map_map]
        apply List.map_congr_left
        intro row _
        rw [Function.comp_apply]
        by_cases hitem : among item row = true <;> by_cases hstate : state row = true <;>
          simp [hitem, hstate, hleaves]

/-- A deletion can be done item by item. -/
theorem deleteWhere_any (items : List α) (table : Table key) :
    table.deleteWhere (fun row => items.any (among · row) && state row) =
      forEach (fun item => deleteWhere (fun row => among item row && state row)) items table := by
  induction items generalizing table with
  | nil => exact Prod.ext (by simp [deleteWhere]) (Table.ext (by simp [deleteWhere]))
  | cons item items ih =>
      rw [forEach_cons, ← ih]
      refine Prod.ext ?_ (Table.ext ?_)
      · simp only [deleteWhere]
        induction table.rows with
        | nil => rfl
        | cons row rows ihrows =>
            rw [List.countP_cons, List.countP_cons, List.filter_cons, ihrows]
            cases hitem : among item row <;> cases hstate : state row <;>
              simp [hitem, hstate, Nat.add_assoc, Nat.add_comm, List.countP_cons]
      · simp only [deleteWhere, List.filter_filter]
        apply List.filter_congr
        intro row _
        cases hitem : among item row <;> cases state row <;> simp [hitem]

end Sets

end Table

end Sql
