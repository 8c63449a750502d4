import Kuatia.Sql.Ordering
import Kuatia.SqlStore.Store

/-! # Transfer queries in SQL

The predicates of a query are in its `WHERE` clause; the participants are joined
in only when an account is asked for. Rows of the same millisecond come in no
particular order.
-/

namespace Kuatia

open Sql

variable [MoneyWidth] [Json]

namespace SqlStore

/-- `transfers INNER JOIN transfer_accounts`: a transfer for each of its index
rows that match. -/
def joinedTransfers (account : Int64) (sub : Option Int64) (store : SqlStore) : List TransferRow :=
  store.transfers.rows.flatMap fun row =>
    (store.transferAccounts.rows.filter fun index =>
      row.id = index.transferId && index.accountId = account &&
        sub.all (fun s => index.subaccount = s)).map fun _ => row

def getTransfersForAccount (order : IterationOrder) (account : Int64) (sub : Option Int64)
    (store : SqlStore) : Except StoreError (List EnvelopeRecord) :=
  (orderBy TransferRow.createdAt (order.arrange (store.joinedTransfers account sub))).mapM
    rowToRecord

/-- The bounds on the time and the book. -/
def inWindow (query : TransferQuery) (row : TransferRow) : Bool :=
  query.fromTs.all (fun start => start ≤ row.createdAt) &&
    query.toTs.all (fun stop => row.createdAt < stop) &&
    query.book.all (fun book => row.book = book.id)

/-- The rows that the `FROM` and `WHERE` clauses select. -/
def matchingTransfers (query : TransferQuery) (store : SqlStore) : List TransferRow :=
  (match query.account with
    | some account => store.joinedTransfers account query.sub
    | none => store.transfers.rows).filter (inWindow query)

def queryTransfers (order : IterationOrder) (query : TransferQuery) (store : SqlStore) :
    Except StoreError (Page EnvelopeRecord) := do
  let rows := store.matchingTransfers query
  let (offset, limit) := window query.offset query.limit
  let sorted := orderBy TransferRow.createdAt (order.arrange rows)
  let items ← ((sorted.drop offset.toNat).take limit.toNat).mapM rowToRecord
  .ok { items, total := .ofNat rows.length }

/-! ## Reading the rows back -/

variable {store : SqlStore} {query : TransferQuery}

theorem mem_rows_of_joined {account : Int64} {sub : Option Int64} {row : TransferRow}
    (hrow : row ∈ store.joinedTransfers account sub) : row ∈ store.transfers.rows := by
  obtain ⟨joined, hjoined, hmem⟩ := List.mem_flatMap.mp hrow
  obtain ⟨_, _, rfl⟩ := List.mem_map.mp hmem
  exact hjoined

theorem mem_rows_of_matching {row : TransferRow} (hrow : row ∈ store.matchingTransfers query) :
    row ∈ store.transfers.rows := by
  have hmem := List.mem_of_mem_filter hrow
  cases haccount : query.account with
  | none =>
      rw [haccount] at hmem
      exact hmem
  | some account =>
      rw [haccount] at hmem
      exact mem_rows_of_joined hmem

/-- A query over rows that can be read returns the page of its sorted result. -/
theorem exists_page (order : IterationOrder)
    (hreadable : ∀ row ∈ store.matchingTransfers query, ∃ record, rowToRecord row = .ok record) :
    ∃ page, store.queryTransfers order query = .ok page ∧
      page.total = .ofNat (store.matchingTransfers query).length ∧
      page.items.map .ok =
        (((orderBy TransferRow.createdAt (order.arrange (store.matchingTransfers query))).drop
          (window query.offset query.limit).1.toNat).take
            (window query.offset query.limit).2.toNat).map rowToRecord := by
  let rows := ((orderBy TransferRow.createdAt (order.arrange (store.matchingTransfers query))).drop
    (window query.offset query.limit).1.toNat).take (window query.offset query.limit).2.toNat
  have hrows : ∀ row ∈ rows, ∃ record, rowToRecord row = .ok record := by
    intro row hrow
    apply hreadable
    have hmem := mem_orderBy.mp (List.mem_of_mem_drop (List.mem_of_mem_take hrow))
    exact (order.mem_arrange).mp hmem
  obtain ⟨items, hitems⟩ := List.exists_mapM_eq_ok hrows
  refine ⟨⟨items, .ofNat (store.matchingTransfers query).length⟩, ?_, rfl,
    (List.mapM_eq_ok_iff_map.mp hitems).symm⟩
  rw [SqlStore.queryTransfers, Except.bind_eq_ok_iff]
  exact ⟨items, hitems, rfl⟩

end SqlStore

omit [Json] in
theorem map_ok_perm_iff {first second : List EnvelopeRecord} :
    (first.map (Except.ok (ε := StoreError))).Perm (second.map .ok) ↔ first.Perm second :=
  List.map_perm_map_iff fun _ _ heq => Except.ok.inj heq

end Kuatia
