import Kuatia.Sql.InsertSelect
import Kuatia.SqlStore.Postings

/-! # From a status column to the live postings

Migration 004 copies the active and the reserved postings into a table each and
drops the status; migration 008 merges the two tables into the live postings.
The migrations between them leave these tables alone.
-/

namespace Kuatia

open Sql

/-- A row of `postings` before migration 004. -/
structure PostingStatusRow where
  row : PostingRow
  status : Int16
  reservation : Option Int64
  deriving DecidableEq

def PostingStatusRow.key (old : PostingStatusRow) : PostingKey := old.row.key

/-- A row of `reserved_postings`; its reservation is not null. -/
structure ReservedPostingRow where
  row : PostingRow
  reservation : Int64

def ReservedPostingRow.key (reserved : ReservedPostingRow) : PostingKey := reserved.row.key

/-- The tables between migrations 004 and 008. -/
structure IndexTables where
  active : Table PostingRow.key
  reserved : Table ReservedPostingRow.key
  postings : Table PostingRow.key

/-- `status = 1 AND reservation IS NOT NULL`, and the columns that are selected then. -/
def PostingStatusRow.asReserved (old : PostingStatusRow) : Option ReservedPostingRow :=
  if old.status = 1 then old.reservation.map (⟨old.row, ·⟩) else none

def migration004 (postings : Table PostingStatusRow.key) : Option IndexTables := do
  let active ← Table.empty.insertAll ((postings.select fun old => old.status = 0).map (·.row))
  let reserved ← Table.empty.insertAll (postings.rows.filterMap (·.asReserved))
  let postings ← Table.empty.insertAll (postings.rows.map (·.row))
  some { active, reserved, postings }

/-- The tables it leaves are those of the store. -/
def migration008 (tables : IndexTables) : Option SqlPostings := do
  let live ← Table.empty.insertAll (tables.active.rows.map (⟨·, none⟩))
  let live ← live.insertAll (tables.reserved.rows.map fun reserved =>
    ⟨reserved.row, some reserved.reservation⟩)
  some { postings := tables.postings, live }

def upgradePostings (postings : Table PostingStatusRow.key) : Option SqlPostings :=
  (migration004 postings).bind migration008

/-! ## What the upgrade leaves -/

/-- The live posting that an old row becomes. -/
def PostingStatusRow.asLive (old : PostingStatusRow) : Option LivePostingRow :=
  if old.status = 0 then some ⟨old.row, none⟩
  else if old.status = 1 then old.reservation.map fun reservation => ⟨old.row, some reservation⟩
  else none

theorem PostingStatusRow.row_of_asLive {old : PostingStatusRow} {live : LivePostingRow}
    (hlive : old.asLive = some live) : live.row = old.row := by
  unfold asLive at hlive
  split at hlive
  next => cases hlive; rfl
  next =>
    split at hlive
    next =>
      obtain ⟨_, _, rfl⟩ := Option.map_eq_some_iff.mp hlive
      rfl
    next => cases hlive

/-- The two selections of migration 004 are disjoint, and make up the live postings. -/
theorem merged_perm (rows : List PostingStatusRow) :
    (((rows.filter fun old => old.status = 0).map (·.row)).map (LivePostingRow.mk · none) ++
      (rows.filterMap (·.asReserved)).map fun reserved =>
        LivePostingRow.mk reserved.row (some reserved.reservation)).Perm
    (rows.filterMap (·.asLive)) := by
  induction rows with
  | nil => exact .refl _
  | cons old rows ih =>
      by_cases hactive : old.status = 0
      · have hreserved : old.asReserved = none := by
          rw [PostingStatusRow.asReserved, if_neg (by rw [hactive]; decide)]
        simp only [List.filter_cons, List.filterMap_cons, PostingStatusRow.asLive, hactive,
          hreserved, decide_true, if_true, List.map_cons, List.cons_append]
        exact ih.cons _
      · by_cases hreserved : old.status = 1
        · cases hreservation : old.reservation with
          | none => simpa [PostingStatusRow.asLive, PostingStatusRow.asReserved, hactive, hreserved,
              hreservation] using ih
          | some reservation =>
              have hskip : (old :: rows).filter (fun old => old.status = 0) =
                  rows.filter fun old => old.status = 0 :=
                List.filter_cons_of_neg (by simp [hactive])
              have hcopy : old.asReserved = some ⟨old.row, reservation⟩ := by
                rw [PostingStatusRow.asReserved, if_pos hreserved, hreservation]
                rfl
              have hlive : old.asLive = some ⟨old.row, some reservation⟩ := by
                rw [PostingStatusRow.asLive, if_neg hactive, if_pos hreserved, hreservation]
                rfl
              rw [hskip, List.filterMap_cons_some hcopy, List.filterMap_cons_some hlive, List.map_cons]
              exact List.perm_middle.trans (ih.cons _)
        · simpa [PostingStatusRow.asLive, PostingStatusRow.asReserved, hactive, hreserved] using ih

theorem nodup_asLive (postings : Table PostingStatusRow.key) :
    ((postings.rows.filterMap (·.asLive)).map LivePostingRow.key).Nodup := by
  have hsublist : ((postings.rows.filterMap (·.asLive)).map LivePostingRow.key).Sublist
      (postings.rows.map PostingStatusRow.key) := by
    induction postings.rows with
    | nil => exact .slnil
    | cons old rows ih =>
        cases hlive : old.asLive with
        | none => rw [List.filterMap_cons_none hlive]; exact ih.cons _
        | some live =>
            have hkey : live.key = old.key := congrArg PostingRow.key (old.row_of_asLive hlive)
            rw [List.filterMap_cons_some hlive, List.map_cons, List.map_cons, hkey]
            exact ih.cons_cons _
  exact postings.nodup.sublist hsublist

/-- Migration 004 succeeds: each posting has a key of its own. -/
theorem migration004_eq_some (postings : Table PostingStatusRow.key) :
    ∃ tables, migration004 postings = some tables ∧
      tables.active.rows = (postings.select fun old => old.status = 0).map (·.row) ∧
      tables.reserved.rows = postings.rows.filterMap (·.asReserved) ∧
      tables.postings.rows = postings.rows.map (·.row) := by
  have hmerged := (merged_perm postings.rows).map LivePostingRow.key |>.nodup_iff.mpr
    (nodup_asLive postings)
  rw [List.map_append, List.nodup_append, List.map_map] at hmerged
  have hactive : (((postings.select fun old => old.status = 0).map (·.row)).map
      PostingRow.key).Nodup := hmerged.1
  have hreserved : ((postings.rows.filterMap (·.asReserved)).map ReservedPostingRow.key).Nodup := by
    have hkeys := hmerged.2.1
    rwa [List.map_map] at hkeys
  have hvalues : ((postings.rows.map (·.row)).map PostingRow.key).Nodup := by
    rw [List.map_map]
    exact postings.nodup
  refine ⟨⟨⟨_, hactive⟩, ⟨_, hreserved⟩, ⟨_, hvalues⟩⟩, ?_, rfl, rfl, rfl⟩
  rw [migration004, Table.empty_insertAll hactive, Table.empty_insertAll hreserved,
    Table.empty_insertAll hvalues]
  rfl

/-- Migration 008 succeeds where no posting is in both tables. -/
theorem migration008_eq_some (tables : IndexTables)
    (hnodup : ((tables.active.rows.map (LivePostingRow.mk · none) ++
      tables.reserved.rows.map fun reserved =>
        LivePostingRow.mk reserved.row (some reserved.reservation)).map LivePostingRow.key).Nodup) :
    migration008 tables = some ⟨tables.postings, ⟨_, hnodup⟩⟩ := by
  have hactive : ((tables.active.rows.map (LivePostingRow.mk · none)).map
      LivePostingRow.key).Nodup := by
    rw [List.map_append] at hnodup
    exact (List.nodup_append.mp hnodup).1
  have hlive : Table.insertAll (tables.reserved.rows.map fun reserved =>
      LivePostingRow.mk reserved.row (some reserved.reservation))
      (⟨_, hactive⟩ : Table LivePostingRow.key) = some ⟨_, hnodup⟩ := Table.insertAll_of_nodup hnodup
  rw [migration008, Table.empty_insertAll hactive, Option.bind_eq_bind, Option.bind_some, hlive]
  rfl

/-- The upgrade succeeds: the live postings are those of the old rows that are
active or reserved, and the other table keeps all rows. -/
theorem upgradePostings_eq_some (postings : Table PostingStatusRow.key) :
    ∃ store, upgradePostings postings = some store ∧
      store.live.rows.Perm (postings.rows.filterMap (·.asLive)) ∧
      store.postings.rows = postings.rows.map (·.row) := by
  obtain ⟨tables, h004, hactive, hreserved, hvalues⟩ := migration004_eq_some postings
  have hperm := merged_perm postings.rows
  have hmerged : (tables.active.rows.map (LivePostingRow.mk · none) ++
      tables.reserved.rows.map fun reserved =>
        LivePostingRow.mk reserved.row (some reserved.reservation)).Perm
      (postings.rows.filterMap (·.asLive)) := by
    rw [hactive, hreserved]
    exact hperm
  have hnodup := (hmerged.map LivePostingRow.key).nodup_iff.mpr (nodup_asLive postings)
  refine ⟨⟨tables.postings, ⟨_, hnodup⟩⟩, ?_, hmerged, hvalues⟩
  rw [upgradePostings, h004, Option.bind_some, migration008_eq_some tables hnodup]

/-! ## States and totals -/

/-- The state that the old columns show. Status 1 says nothing without a reservation. -/
def PostingStatusRow.state (old : PostingStatusRow) : PostingState :=
  if old.status = 0 then .active
  else if old.status = 1 then
    match old.reservation with
    | some reservation => .reserved ⟨reservation⟩
    | none => .spent
  else .spent

/-- The sum of what the values stand for, over the rows that match. -/
def totalOf (amount : String → Int) (matching : PostingRow → Bool) (rows : List PostingRow) : Int :=
  ((rows.filter matching).map fun row => amount row.value).sum

/-- A key of the old table leads to what its row has become. -/
theorem lookup_live {postings : Table PostingStatusRow.key} {live : Table LivePostingRow.key}
    (hlive : live.rows.Perm (postings.rows.filterMap (·.asLive))) {old : PostingStatusRow}
    (hold : old ∈ postings.rows) : live.lookup old.key = old.asLive := by
  have hkey : ∀ {other : PostingStatusRow} {row}, other.asLive = some row → row.key = other.key :=
    fun hother => congrArg PostingRow.key (PostingStatusRow.row_of_asLive hother)
  cases hasLive : old.asLive with
  | some row =>
      apply Table.lookup_eq_some_iff.mpr
      exact ⟨hlive.mem_iff.mpr (List.mem_filterMap.mpr ⟨old, hold, hasLive⟩), hkey hasLive⟩
  | none =>
      cases hlookup : live.lookup old.key with
      | none => rfl
      | some row =>
          obtain ⟨hrow, hsame⟩ := Table.lookup_eq_some_iff.mp hlookup
          obtain ⟨other, hother, hotherLive⟩ := List.mem_filterMap.mp (hlive.mem_iff.mp hrow)
          have heq : other = old := List.inj_on_of_nodup_map postings.nodup hother hold
            ((hkey hotherLive).symm.trans hsame)
          rw [heq, hasLive] at hotherLive
          cases hotherLive

/-- The old columns and the new row show the same state. -/
theorem stateAt_upgraded {postings : Table PostingStatusRow.key} {store : SqlPostings}
    (hlive : store.live.rows.Perm (postings.rows.filterMap (·.asLive)))
    (hvalues : store.postings.rows = postings.rows.map (·.row)) {old : PostingStatusRow}
    (hold : old ∈ postings.rows) : store.stateAt old.key = old.state := by
  have hrecorded : store.postings.lookup old.key = some old.row :=
    Table.lookup_eq_some_iff.mpr ⟨hvalues ▸ List.mem_map_of_mem hold, rfl⟩
  rw [SqlPostings.stateAt, lookup_live hlive hold, hrecorded, PostingStatusRow.state,
    PostingStatusRow.asLive]
  by_cases hactive : old.status = 0
  · simp [hactive]
  · by_cases hreserved : old.status = 1
    · cases hreservation : old.reservation <;> simp [hreserved]
    · simp [hactive, hreserved]

/-- An old row whose posting stays live. -/
def PostingStatusRow.isLive (old : PostingStatusRow) : Bool :=
  old.status = 0 || old.status = 1 && old.reservation.isSome

theorem PostingStatusRow.isSome_asLive (old : PostingStatusRow) :
    old.asLive.isSome = old.isLive := by
  unfold asLive isLive
  by_cases hactive : old.status = 0
  · simp [hactive]
  · by_cases hreserved : old.status = 1 <;> simp [hactive, hreserved]

theorem map_row_asLive (rows : List PostingStatusRow) :
    (rows.filterMap (·.asLive)).map (·.row) = (rows.filter (·.isLive)).map (·.row) := by
  induction rows with
  | nil => rfl
  | cons old rows ih =>
      have hkept := old.isSome_asLive
      cases hlive : old.asLive with
      | some live =>
          rw [hlive] at hkept
          rw [List.filterMap_cons_some hlive, List.filter_cons_of_pos hkept.symm, List.map_cons,
            List.map_cons, ih, PostingStatusRow.row_of_asLive hlive]
      | none =>
          rw [hlive] at hkept
          rw [List.filterMap_cons_none hlive, List.filter_cons_of_neg (by simp [← hkept]), ih]

/-- Every old row keeps the state that its columns show, where status 1 without a
reservation shows a spent posting; and the live postings of any kind are worth what
the old rows of that kind were worth that are active or reserved by something. -/
theorem upgradePostings_preserves (postings : Table PostingStatusRow.key) :
    ∃ store, upgradePostings postings = some store ∧
      (∀ old ∈ postings.rows, store.stateAt old.key = old.state) ∧
      ∀ (amount : String → Int) (matching : PostingRow → Bool),
        totalOf amount matching (store.live.rows.map (·.row)) =
          totalOf amount matching ((postings.rows.filter (·.isLive)).map (·.row)) := by
  obtain ⟨store, hupgrade, hlive, hvalues⟩ := upgradePostings_eq_some postings
  refine ⟨store, hupgrade, fun old hold => stateAt_upgraded hlive hvalues hold,
    fun amount matching => ?_⟩
  have hrows := hlive.map LivePostingRow.row
  rw [map_row_asLive] at hrows
  exact ((hrows.filter matching).map _).sum_eq

/-- A posting that is reserved, but by nothing. -/
def orphanedPosting : PostingStatusRow where
  row := ⟨"aa", 0, 1, 0, 840, "100"⟩
  status := 1
  reservation := none

/-- It is spent afterwards, and its value is no longer among the live postings. -/
theorem orphanedPosting_spent :
    let postings : Table PostingStatusRow.key := ⟨[orphanedPosting], List.nodup_singleton _⟩
    let amount := fun text : String => (Decimal.readInt text.toList).getD 0
    (upgradePostings postings).map (fun store =>
        (store.stateAt orphanedPosting.key,
          totalOf amount (·.owner = 1) (store.live.rows.map (·.row)))) = some (.spent, 0) ∧
      totalOf amount (·.owner = 1) ((postings.rows.filter fun old =>
        old.status = 0 || old.status = 1).map (·.row)) = 100 := by
  decide +kernel

end Kuatia
