import Kuatia.Sql.Paging
import Kuatia.SqlStore.Sample
import Kuatia.SqlStore.Commit
import Kuatia.SqlStore.Transfer

/-! # Paging through transfers

The pages of a query are cut from results that are sorted by the millisecond
alone. They show every matching row once, whatever order the database chooses
for each page, exactly when no cut falls among different transfers of one
millisecond.
-/

namespace Kuatia

open Sql

section Theory

variable [MoneyWidth] [Json]

namespace SqlStore

/-- The query for one page. -/
def pageQuery (query : TransferQuery) (size : UInt32) (index : Nat) : TransferQuery :=
  { query with limit := some size, offset := some (.ofNat (index * size.toNat)) }

/-- The number of pages whose offset is an `u32`. -/
def pageCount (size : UInt32) : Nat := (2 ^ 32 - 1) / size.toNat + 1

/-- With any order chosen for each page, the pages at offsets `0, n, 2n, ..` show
every matching row once. -/
def PagesPartition (store : SqlStore) (query : TransferQuery) (size : UInt32) : Prop :=
  ∃ records, (store.matchingTransfers query).mapM rowToRecord = .ok records ∧
    ∀ orders : Nat → IterationOrder, ∃ pages : Nat → Page EnvelopeRecord,
      (∀ index < pageCount size,
        store.queryTransfers (orders index) (pageQuery query size index) = .ok (pages index)) ∧
      ((List.range (pageCount size)).flatMap fun index => (pages index).items).Perm records

/-- All matching rows can be read and reached by an offset, and no cut falls among
different transfers of one millisecond. -/
structure PagesSafe (store : SqlStore) (query : TransferQuery) (size : UInt32) : Prop where
  readable : ∀ row ∈ store.matchingTransfers query, ∃ record, rowToRecord row = .ok record
  reached : (store.matchingTransfers query).length ≤ pageCount size * size.toNat
  unsplit : ∀ index < pageCount size, ¬SplitsTie TransferRow.createdAt rowToRecord
    (store.matchingTransfers query) (index * size.toNat)

omit [MoneyWidth] [Json] in
theorem offset_lt {size : UInt32} {index : Nat} (hindex : index < pageCount size) :
    index * size.toNat < 2 ^ 32 := by
  have hle : index ≤ (2 ^ 32 - 1) / size.toNat := Nat.lt_succ_iff.mp hindex
  have hmul := (Nat.mul_le_mul_right size.toNat hle).trans (Nat.div_mul_le_self _ _)
  omega

variable {store : SqlStore} {query : TransferQuery} {size : UInt32}

/-- A page can be read, and shows its part of the result. -/
theorem page_rows (order : IterationOrder) {index : Nat} (hindex : index < pageCount size)
    (hreadable : ∀ row ∈ store.matchingTransfers query, ∃ record, rowToRecord row = .ok record) :
    ∃ page, store.queryTransfers order (pageQuery query size index) = .ok page ∧
      page.items.map .ok =
        (((orderBy TransferRow.createdAt (order.arrange (store.matchingTransfers query))).drop
          (index * size.toNat)).take size.toNat).map rowToRecord := by
  have hoffset : (UInt32.ofNat (index * size.toNat)).toNat = index * size.toNat := by
    rw [UInt32.toNat_ofNat', Nat.mod_eq_of_lt (offset_lt hindex)]
  obtain ⟨page, hpage, _, hitems⟩ := @exists_page _ _ store (pageQuery query size index) order
    hreadable
  simp only [window, pageQuery, Option.getD_some, hoffset] at hitems
  exact ⟨page, hpage, hitems⟩

/-- Of one query, all pages together are the pages of its results. -/
theorem items_eq_pages {orders : Nat → IterationOrder}
    (hreadable : ∀ row ∈ store.matchingTransfers query, ∃ record, rowToRecord row = .ok record)
    {pages : Nat → Page EnvelopeRecord} (hpages : ∀ index < pageCount size,
      store.queryTransfers (orders index) (pageQuery query size index) = .ok (pages index)) :
    ((List.range (pageCount size)).flatMap fun index => (pages index).items).map .ok =
      (Sql.pages size.toNat (fun index => orderBy TransferRow.createdAt
        ((orders index).arrange (store.matchingTransfers query))) (pageCount size)).map
          rowToRecord := by
  rw [List.map_flatMap, Sql.pages, List.map_flatMap]
  apply List.flatMap_congr
  intro index hindex
  have hlt := List.mem_range.mp hindex
  obtain ⟨page, hpage, hitems⟩ := page_rows (orders index) hlt hreadable
  rw [hpages index hlt] at hpage
  cases hpage
  exact hitems

theorem pagesSafe_of_partition (hpartition : PagesPartition store query size) :
    PagesSafe store query size := by
  obtain ⟨records, hrecords, hpages⟩ := hpartition
  have hmap := List.mapM_eq_ok_iff_map.mp hrecords
  have hreadable : ∀ row ∈ store.matchingTransfers query,
      ∃ record, rowToRecord row = .ok record := by
    intro row hrow
    obtain ⟨record, _, hread⟩ := (List.mapM_eq_ok_iff.mp hrecords).exists_of_mem_left hrow
    exact ⟨record, hread⟩
  -- What any choice of orders shows, as rows.
  have hall : ∀ orders : Nat → IterationOrder,
      ((Sql.pages size.toNat (fun index => orderBy TransferRow.createdAt
        ((orders index).arrange (store.matchingTransfers query))) (pageCount size)).map
          rowToRecord).Perm ((store.matchingTransfers query).map rowToRecord) := by
    intro orders
    obtain ⟨pages, hquery, hperm⟩ := hpages orders
    rw [← items_eq_pages hreadable hquery, hmap]
    exact map_ok_perm_iff.mpr hperm
  have hreached : (store.matchingTransfers query).length ≤ pageCount size * size.toNat := by
    have hlength := (hall fun _ => .listed).length_eq
    have hconst := pages_const size.toNat (orderBy TransferRow.createdAt
      (IterationOrder.listed.arrange (store.matchingTransfers query))) (pageCount size)
    rw [hconst, List.length_map, List.length_map, List.length_take] at hlength
    omega
  refine ⟨hreadable, hreached, fun index hindex hsplit => ?_⟩
  obtain ⟨results, hresults, hnot⟩ := exists_pages_not_perm hindex hsplit hreached
  have horders : ∀ index, ∃ order : IterationOrder,
      order.arrange (store.matchingTransfers query) = results index :=
    fun index => IterationOrder.exists_arrange (hresults index).perm
  obtain ⟨orders, harrange⟩ := Classical.skolem.mp horders
  have hsame : (fun index => orderBy TransferRow.createdAt
      ((orders index).arrange (store.matchingTransfers query))) = results := by
    funext index
    rw [harrange, orderBy_of_sorted (hresults index).sorted]
  exact hnot (hsame ▸ hall orders)

theorem partition_of_pagesSafe (hsafe : PagesSafe store query size) :
    PagesPartition store query size := by
  obtain ⟨records, hrecords⟩ := List.exists_mapM_eq_ok hsafe.readable
  refine ⟨records, hrecords, fun orders => ?_⟩
  have hpage : ∀ index, ∃ page, index < pageCount size →
      store.queryTransfers (orders index) (pageQuery query size index) = .ok page := by
    intro index
    by_cases hindex : index < pageCount size
    · obtain ⟨page, hpage, _⟩ := page_rows (orders index) hindex hsafe.readable
      exact ⟨page, fun _ => hpage⟩
    · exact ⟨⟨[], 0⟩, fun hlt => absurd hlt hindex⟩
  obtain ⟨pages, hpages⟩ := Classical.skolem.mp hpage
  refine ⟨pages, hpages, ?_⟩
  have hresults : ∀ index, IsOrder TransferRow.createdAt (store.matchingTransfers query)
      (orderBy TransferRow.createdAt ((orders index).arrange (store.matchingTransfers query))) :=
    fun index => isOrder_orderBy ((orders index).arrange_perm _)
  have hshown := pages_perm hresults hsafe.unsplit hsafe.reached
  rw [← items_eq_pages hsafe.readable hpages, List.mapM_eq_ok_iff_map.mp hrecords] at hshown
  exact map_ok_perm_iff.mp hshown

/-- For any order chosen for each page, the pages show each matching row once
exactly when the cuts are safe. -/
theorem pages_partition_iff (store : SqlStore) (query : TransferQuery) (size : UInt32) :
    PagesPartition store query size ↔ PagesSafe store query size :=
  ⟨pagesSafe_of_partition, partition_of_pagesSafe⟩

end SqlStore

end Theory

namespace Sample

/-- Two transfers of one millisecond, committed one after the other. -/
def sameMillisecondStore : SqlStore :=
  let first := (SqlStore.empty.commitEnvelope .listed (some 0) (commitOf 1 5 [] [] [])).2
  (first.commitEnvelope .listed (some 0) (commitOf 2 5 [] [] [])).2

def everything : TransferQuery := ⟨none, none, none, none, none, none, none⟩

def rowOf (byte : UInt8) : TransferRow := (commitOf byte 5 [] [] []).record.toRow (transferOf byte)

theorem matching_sameMillisecond :
    sameMillisecondStore.matchingTransfers everything = [rowOf 2, rowOf 1] := by rfl

theorem splitsTie_sameMillisecond : SplitsTie TransferRow.createdAt rowToRecord
    (sameMillisecondStore.matchingTransfers everything) 1 := by
  rw [matching_sameMillisecond]
  refine ⟨rowOf 2, by simp, rowOf 1, by simp, ?_, rfl, by decide +kernel, by decide +kernel⟩
  rw [rowOf, rowOf, rowToRecord_toRow, rowToRecord_toRow]
  intro hsame
  have hreceipt := congrArg EnvelopeRecord.receipt (Except.ok.inj hsame)
  exact absurd hreceipt (by decide +kernel)

end Sample

open Sample in
/-- Pages of one row, over two transfers of one millisecond. -/
theorem same_millisecond_pages : ¬SqlStore.PagesPartition sameMillisecondStore everything 1 := by
  intro hpartition
  have hsafe := SqlStore.pagesSafe_of_partition hpartition
  exact hsafe.unsplit 1 (by decide) splitsTie_sameMillisecond

end Kuatia
