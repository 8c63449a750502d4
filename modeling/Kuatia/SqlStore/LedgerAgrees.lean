import Kuatia.Ledger.CachedBalance
import Kuatia.SqlStore.AccountsAgree

/-! # The stores agree on what they are asked

Called in the same way, the SQL store and the in-memory store give the same answers
about accounts, books and balance projections, up to the order of what is not ordered
and to the numbers of cached balances. Each store has a clock and a generator of its
own, and its numbers have to ascend: of cached balances with the same watermark the
one with the greatest number is the closest.
-/

namespace Kuatia

open Sql

/-- The first row in order, one row after the other. -/
theorem head?_orderBy_cons {Row β : Type*} [LinearOrder β] (column : Row → β) (row : Row)
    (rows : List Row) :
    (orderBy column (row :: rows)).head? = some (match (orderBy column rows).head? with
      | none => row
      | some other => if column row ≤ column other then row else other) := by
  rw [orderBy, List.insertionSort_cons, ← orderBy]
  cases orderBy column rows with
  | nil => rfl
  | cons other rest =>
      rw [List.orderedInsert_cons]
      dsimp only [List.head?_cons]
      split <;> rfl

variable [MoneyWidth]

/-! ## Calls on accounts leave the rest -/

namespace InMemoryStore

theorem createAccount_frame (account : Account) (memory : InMemoryStore) :
    (memory.createAccount account).2.books = memory.books ∧
      (memory.createAccount account).2.projections = memory.projections := by
  unfold createAccount
  split <;> exact ⟨rfl, rfl⟩

theorem appendAccountVersion_frame (account : Account) (memory : InMemoryStore) :
    (memory.appendAccountVersion account).2.books = memory.books ∧
      (memory.appendAccountVersion account).2.projections = memory.projections := by
  unfold appendAccountVersion
  cases memory.accounts.lookup account.id with
  | none => exact ⟨rfl, rfl⟩
  | some versions =>
      dsimp only
      split
      next => exact ⟨rfl, rfl⟩
      next => split <;> exact ⟨rfl, rfl⟩

theorem commitTransition_frame (clock : Clock) (next : Account)
    (event : LedgerEvent) (memory : InMemoryStore) :
    (memory.commitTransition clock next event).2.books = memory.books ∧
      (memory.commitTransition clock next event).2.projections = memory.projections := by
  rcases memory.commitTransition_cases clock next event with
    ⟨hsame, _⟩ | ⟨hsame, _⟩ | ⟨_, _, _, _, _, hsame⟩
  · rw [hsame]
    exact ⟨rfl, rfl⟩
  · rw [hsame]
    exact ⟨appendEventLocked_books .., appendEventLocked_projections ..⟩
  · rw [hsame]
    exact ⟨appendEventLocked_books .., appendEventLocked_projections ..⟩

theorem forall_pointsOf {memory : InMemoryStore} {holds : BalanceProjection → Prop}
    (hall : ∀ points ∈ memory.projections.values, ∀ point ∈ points, holds point)
    (key : BalanceKey) : ∀ point ∈ memory.pointsOf key, holds point := by
  rw [pointsOf]
  cases hlookup : memory.projections.lookup key with
  | none => exact fun _ hpoint => absurd hpoint List.not_mem_nil
  | some points => exact hall points (HashMap.mem_values_iff.mpr ⟨key, hlookup⟩)

end InMemoryStore

/-! ## Closest balance projections -/

/-- A row and a point say the same of a balance, under numbers of their own. -/
structure SamePoint (row : BalanceProjectionRow) (point : BalanceProjection) : Prop where
  balance : row.balance = point.balance.toText
  watermark : row.watermark = point.watermark

/-- Both stores take the newest of the rows and points that correspond. -/
theorem closest_of_same {rows : List BalanceProjectionRow} {points : List BalanceProjection}
    (hsame : List.Forall₂ SamePoint rows points) (hrows : rows.Pairwise (·.id > ·.id))
    (hpoints : points.Pairwise (·.id > ·.id)) :
    Option.Rel SamePoint (orderBy BalanceProjectionRow.newestFirst rows).head?
      (InMemoryStore.latestProjection points.reverse) := by
  induction hsame with
  | nil => exact .none
  | @cons row point rows points hpoint _ ih =>
      have hnewer : ∀ other ∈ (orderBy BalanceProjectionRow.newestFirst rows).head?,
          (row.newestFirst ≤ other.newestFirst ↔ other.watermark ≤ row.watermark) := by
        intro other hother
        have hlt := List.rel_of_pairwise_cons hrows (mem_orderBy.mp (List.mem_of_mem_head? hother))
        rw [BalanceProjectionRow.newestFirst, BalanceProjectionRow.newestFirst,
          OrderDual.toDual_le_toDual, Prod.Lex.toLex_le_toLex]
        exact ⟨fun hle => hle.elim le_of_lt fun hboth => hboth.1.le,
          fun hle => hle.lt_or_eq.imp id fun heq => ⟨heq, le_of_lt hlt⟩⟩
      have hlater : ∀ other ∈ InMemoryStore.latestProjection points.reverse,
          (InMemoryStore.projectionLe other point ↔ other.watermark ≤ point.watermark) := by
        intro other hother
        have hlt := List.rel_of_pairwise_cons hpoints
          (List.mem_reverse.mp (mem_of_latestProjection hother))
        exact ⟨fun hle => hle.elim le_of_lt fun hboth => hboth.1.le,
          fun hle => hle.lt_or_eq.imp id fun heq => ⟨heq, le_of_lt hlt⟩⟩
      specialize ih hrows.of_cons hpoints.of_cons
      rw [head?_orderBy_cons, List.reverse_cons, InMemoryStore.latestProjection,
        List.foldl_concat, ← InMemoryStore.latestProjection]
      generalize (orderBy BalanceProjectionRow.newestFirst rows).head? = found at ih hnewer
      generalize InMemoryStore.latestProjection points.reverse = latest at ih hlater
      cases ih with
      | none => exact .some hpoint
      | @some otherRow other hother =>
          dsimp only
          simp only [hnewer otherRow rfl, hlater other rfl, hother.watermark, hpoint.watermark]
          split
          next => exact .some hpoint
          next => exact .some hother

variable [Json]

/-! ## The same balance projections -/

/-- The rows of an account and asset. -/
def SqlLedger.projectionsOf (store : SqlLedger) (account : AccountId) (asset : AssetId) :
    List BalanceProjectionRow :=
  store.projections.select fun row =>
    row.account = account.id && row.subaccount = account.sub && row.asset = asset.id.toInt32

/-- Every cached balance is in both stores, and each numbers them upwards. -/
structure SameProjections (store : SqlLedger) (memory : InMemoryStore) : Prop where
  rows : ∀ account asset, List.Forall₂ SamePoint (store.projectionsOf account asset)
    (memory.pointsOf (account, asset)).reverse
  descending : store.projections.rows.Pairwise (·.id > ·.id)
  ascending : ∀ key, (memory.pointsOf key).Pairwise (·.id < ·.id)
  keyed : ∀ account asset, ∀ point ∈ memory.pointsOf (account, asset),
    point.account = account ∧ point.asset = asset

omit [MoneyWidth] [Json] in
/-- An account and an asset are told by their columns. -/
theorem columns_eq_iff {account other : AccountId} {asset otherAsset : AssetId} :
    (account.id = other.id && account.sub = other.sub &&
        asset.id.toInt32 = otherAsset.id.toInt32 : Bool) = true ↔
      (other, otherAsset) = (account, asset) := by
  simp only [Bool.and_eq_true, decide_eq_true_eq, toInt32_eq_iff]
  constructor
  · rintro ⟨⟨hid, hsub⟩, hnumber⟩
    exact Prod.ext (AccountId.key_inj.mp (Prod.ext hid.symm hsub.symm))
      (congrArg AssetId.mk hnumber.symm)
  · rintro ⟨⟩
    exact ⟨⟨rfl, rfl⟩, rfl⟩

section Projections

variable {store : SqlLedger} {memory : InMemoryStore} {account : AccountId} {asset : AssetId}

/-- A cached balance without its number. -/
def BalanceProjection.numberless (point : BalanceProjection) : BalanceProjection :=
  { point with id := 0 }

theorem SameProjections.closest (hsame : SameProjections store memory) (account : AccountId)
    (asset : AssetId) (asOf : Int64) :
    ∃ found, store.getClosestBalanceProjection account asset asOf = .ok found ∧
      found.map (·.numberless) =
        (memory.getClosestBalanceProjection account asset asOf).map (·.numberless) := by
  have hselect : (store.projections.select fun row =>
      row.account = account.id && row.subaccount = account.sub && row.asset = asset.id.toInt32 &&
        row.watermark ≤ asOf) =
      (store.projectionsOf account asset).filter (·.watermark ≤ asOf) := by
    rw [SqlLedger.projectionsOf, Table.select, Table.select, List.filter_filter]
    exact List.filter_congr fun row _ => Bool.and_comm _ _
  have hrows := List.rel_filter (p := fun row : BalanceProjectionRow => row.watermark ≤ asOf)
    (q := fun point : BalanceProjection => point.watermark ≤ asOf)
    (fun _ _ hpoint => by simp [hpoint.watermark]) (hsame.rows account asset)
  have hclosest := closest_of_same hrows ((hsame.descending.filter _).filter _)
    ((List.pairwise_reverse.mpr (hsame.ascending _)).filter _)
  rw [← List.filter_reverse, List.reverse_reverse] at hclosest
  rw [SqlLedger.getClosestBalanceProjection, hselect]
  change ∃ found, _ ∧ _ = (InMemoryStore.latestProjection
    ((memory.pointsOf (account, asset)).filter (·.watermark ≤ asOf))).map _
  generalize (orderBy BalanceProjectionRow.newestFirst ((store.projectionsOf account asset).filter
    (·.watermark ≤ asOf))).head? = found at hclosest
  generalize hlatest : InMemoryStore.latestProjection ((memory.pointsOf (account, asset)).filter
    (·.watermark ≤ asOf)) = latest at hclosest
  cases hclosest with
  | none => exact ⟨none, rfl, rfl⟩
  | @some row point hpoint =>
      have hmem := (List.mem_filter.mp (mem_of_latestProjection hlatest)).1
      obtain ⟨haccount, hasset⟩ := hsame.keyed account asset point hmem
      dsimp only
      rw [hpoint.balance, Cent.fromStr_toText, hpoint.watermark, ← haccount, ← hasset]
      exact ⟨_, rfl, rfl⟩

theorem SameProjections.append (hsame : SameProjections store memory) {clock sqlClock : Clock}
    (hrows : ∀ row ∈ store.projections.rows, row.id < (AutoId.next sqlClock store.autoid).1)
    (hpoints : ∀ key, ∀ point ∈ memory.pointsOf key,
      point.id < (AutoId.next clock memory.autoid).1)
    (account : AccountId) (asset : AssetId) (balance : Cent) (watermark : Int64) :
    (store.appendBalanceProjection sqlClock account asset balance watermark).1 = .ok () ∧
      SameProjections (store.appendBalanceProjection sqlClock account asset balance watermark).2
        (memory.appendBalanceProjection clock account asset balance watermark) := by
  have hfree : (AutoId.next sqlClock store.autoid).1 ∉ store.projections.rows.map (·.id) := by
    intro hmem
    obtain ⟨row, hrow, hid⟩ := List.mem_map.mp hmem
    have hlt := hrows row hrow
    rw [hid] at hlt
    exact absurd hlt Int64.lt_irrefl
  have hlookup := Table.lookup_eq_none_iff.mpr hfree
  set row : BalanceProjectionRow := ⟨(AutoId.next sqlClock store.autoid).1, account.id, account.sub,
    asset.id.toInt32, balance.toText, watermark⟩ with hrow
  have hinserted : (store.projections.insertIgnore row).2.rows = row :: store.projections.rows := by
    rw [Table.insertIgnore, dif_neg hfree]
  have happended : store.appendBalanceProjection sqlClock account asset balance watermark =
      (.ok (), { store with
        projections := (store.projections.insertIgnore row).2
        autoid := (AutoId.next sqlClock store.autoid).2 }) := by
    rw [SqlLedger.appendBalanceProjection]
    dsimp only
    rw [hlookup]
    rfl
  have hpointsOf : ∀ key,
      (memory.appendBalanceProjection clock account asset balance watermark).pointsOf key =
        if key = (account, asset) then memory.pointsOf (account, asset) ++
          [⟨(AutoId.next clock memory.autoid).1, account, asset, balance, watermark⟩]
        else memory.pointsOf key := by
    intro key
    rw [InMemoryStore.pointsOf, InMemoryStore.appendBalanceProjection, HashMap.lookup_insert_eq]
    split <;> rfl
  rw [happended]
  refine ⟨rfl, ?_, ?_, ?_, ?_⟩
  · intro other otherAsset
    rw [hpointsOf, SqlLedger.projectionsOf, Table.select]
    change List.Forall₂ _ ((store.projections.insertIgnore row).2.rows.filter _) _
    rw [hinserted, List.filter_cons]
    simp only [hrow, columns_eq_iff]
    split
    next hkey =>
      cases hkey
      rw [List.reverse_append]
      exact .cons ⟨rfl, rfl⟩ (hsame.rows account asset)
    next => exact hsame.rows other otherAsset
  · change List.Pairwise _ (store.projections.insertIgnore row).2.rows
    rw [hinserted]
    exact .cons hrows hsame.descending
  · intro key
    rw [hpointsOf]
    split
    next =>
      exact List.pairwise_append.mpr ⟨hsame.ascending _, List.pairwise_singleton _ _,
        fun point hpoint last hlast => List.mem_singleton.mp hlast ▸ hpoints _ point hpoint⟩
    next => exact hsame.ascending key
  · intro other otherAsset point hpoint
    rw [hpointsOf] at hpoint
    split at hpoint
    next hkey =>
      cases hkey
      rcases List.mem_append.mp hpoint with hold | hlast
      · exact hsame.keyed account asset point hold
      · rw [List.mem_singleton.mp hlast]
        exact ⟨rfl, rfl⟩
    next => exact hsame.keyed other otherAsset point hpoint

theorem SameProjections.congr (hsame : SameProjections store memory) {next : SqlLedger}
    {after : InMemoryStore} (hprojections : next.projections = store.projections)
    (hmemory : after.projections = memory.projections) : SameProjections next after := by
  have hrows : next.projectionsOf = store.projectionsOf := by
    funext account asset
    rw [SqlLedger.projectionsOf, hprojections]
    rfl
  have hpoints : after.pointsOf = memory.pointsOf := by
    funext key
    rw [InMemoryStore.pointsOf, hmemory]
    rfl
  constructor
  · rw [hrows, hpoints]
    exact hsame.rows
  · rw [hprojections]
    exact hsame.descending
  · rw [hpoints]
    exact hsame.ascending
  · rw [hpoints]
    exact hsame.keyed

end Projections

variable [BookJson]

/-! ## Books -/

/-- Every book has its row. -/
structure SameBooks (store : SqlLedger) (memory : InMemoryStore) : Prop where
  rows : ∀ id : BookId, store.books.lookup id.id = (memory.books.lookup id).map Book.toRow
  keyed : ∀ id book, memory.books.lookup id = some book → book.id = id

section Books

variable {store : SqlLedger} {memory : InMemoryStore}

theorem SameBooks.getBook (hsame : SameBooks store memory) (id : BookId) :
    store.getBook id = memory.getBook id := by
  rw [SqlLedger.getBook, hsame.rows, InMemoryStore.getBook]
  cases memory.books.lookup id with
  | none => rfl
  | some book => exact BookJson.book.read_write book

/-- A row is that of the book under its id. -/
theorem SameBooks.of_mem (hsame : SameBooks store memory) {row : BookRow}
    (hrow : row ∈ store.books.rows) :
    ∃ book, memory.books.lookup ⟨row.id⟩ = some book ∧ book.toRow = row := by
  have hlookup := hsame.rows ⟨row.id⟩
  rw [Table.lookup_of_mem hrow] at hlookup
  exact Option.map_eq_some_iff.mp hlookup.symm

theorem SameBooks.listBooks (hsame : SameBooks store memory) (order other : IterationOrder) :
    ∃ books, store.listBooks order = .ok books ∧ books.Perm (memory.listBooks other) := by
  let bookOf (row : BookRow) : Option Book := memory.books.lookup ⟨row.id⟩
  have hread : ∀ row ∈ order.arrange store.books.rows,
      ∃ book, bookOf row = some book ∧ rowToBook row = .ok book := by
    intro row hrow
    obtain ⟨book, hlookup, rfl⟩ := hsame.of_mem (order.mem_arrange.mp hrow)
    exact ⟨book, hlookup, BookJson.book.read_write book⟩
  refine ⟨_, mapM_eq_filterMap hread, ?_⟩
  have hids : ((order.arrange store.books.rows).filterMap bookOf).map (·.id.id) =
      (order.arrange store.books.rows).map BookRow.id := by
    rw [List.map_filterMap, ← List.filterMap_eq_map]
    refine List.filterMap_congr fun row hrow => ?_
    obtain ⟨book, hlookup, rfl⟩ := hsame.of_mem (order.mem_arrange.mp hrow)
    simp only [bookOf, hlookup]
    rfl
  have hdistinct : ((order.arrange store.books.rows).map BookRow.id).Nodup :=
    ((order.arrange_perm _).map _).nodup_iff.mpr store.books.nodup
  have hvalues : (memory.listBooks other).Nodup :=
    (other.arrange_perm _).nodup_iff.mpr (.of_map (·.id) (HashMap.nodup_map_values hsame.keyed))
  rw [List.perm_ext_iff_of_nodup (.of_map (·.id.id) (hids ▸ hdistinct)) hvalues]
  intro book
  simp only [InMemoryStore.listBooks, List.mem_filterMap, IterationOrder.mem_arrange,
    HashMap.mem_values_iff]
  constructor
  · rintro ⟨row, _, hlookup⟩
    exact ⟨_, hlookup⟩
  · rintro ⟨id, hlookup⟩
    have hrow := hsame.rows id
    rw [hlookup] at hrow
    refine ⟨book.toRow, (Table.lookup_eq_some_iff.mp hrow).1, ?_⟩
    rw [← hsame.keyed id book hlookup] at hlookup
    exact hlookup

theorem SameBooks.createBook (hsame : SameBooks store memory) (book : Book) :
    (store.createBook book).1 = (memory.createBook book).1 ∧
      SameBooks (store.createBook book).2 (memory.createBook book).2 := by
  have hrow := hsame.rows book.id
  by_cases hknown : book.id ∈ memory.books
  · obtain ⟨found, hfound⟩ := HashMap.mem_iff_exists_lookup.mp hknown
    rw [hfound] at hrow
    rw [SqlLedger.createBook, hrow, InMemoryStore.createBook, if_pos hknown]
    exact ⟨rfl, hsame⟩
  · rw [AList.lookup_eq_none.mpr hknown] at hrow
    have hcount : (store.books.insertIgnore book.toRow).1 = 1 := by
      rw [Table.insertIgnore_count, show store.books.lookup book.toRow.id = none from hrow]
      rfl
    rw [SqlLedger.createBook, hrow, InMemoryStore.createBook, if_neg hknown]
    refine ⟨hcount, fun id => ?_, fun id other hother => ?_⟩
    · change (store.books.insertIgnore book.toRow).2.lookup id.id = _
      rw [Table.lookup_insertIgnore, HashMap.lookup_insert_eq]
      by_cases hid : id = book.id
      · rw [hid, hrow, if_pos rfl]
        exact if_pos rfl
      · have hcolumn : ¬id.id = book.toRow.id := fun heq => hid (congrArg BookId.mk heq)
        rw [if_neg hcolumn, if_neg hid, Option.or_none, hsame.rows]
    · dsimp only at hother
      rw [HashMap.lookup_insert_eq] at hother
      split at hother
      next hid =>
        cases hother
        exact hid.symm
      next => exact hsame.keyed id other hother

end Books

/-! ## Every call -/

/-- The two stores hold the same accounts, books and cached balances. -/
structure SameLedger (store : SqlLedger) (memory : InMemoryStore) : Prop where
  accounts : SameAccounts store.toSqlStore memory
  chained : Chained memory
  books : SameBooks store memory
  projections : SameProjections store memory

/-- Two answers say the same. Listings come in any order, and a cached balance has a
number of its own in each store. -/
inductive LedgerAnswer.Same : LedgerAnswer → LedgerAnswer → Prop where
  | equal (answer : LedgerAnswer) : Same answer answer
  | accountList {first second : List Account} (hperm : first.Perm second) :
      Same (.accountList (.ok first)) (.accountList (.ok second))
  | bookList {first second : List Book} (hperm : first.Perm second) :
      Same (.bookList (.ok first)) (.bookList (.ok second))
  | closest {first second : Option BalanceProjection}
      (hsame : first.map (·.numberless) = second.map (·.numberless)) :
      Same (.closest (.ok first)) (.closest (.ok second))

/-- One call to both stores, each in surroundings of its own. -/
structure TwinCall where
  call : LedgerCall
  sql : Surroundings
  memory : Surroundings

/-- What the call asks of the stores: versions stay below the end of `i64`, and new
numbers are free and ascend. -/
def TwinCall.Admitted (store : SqlLedger) (memory : InMemoryStore) (twin : TwinCall) : Prop :=
  match twin.call with
  | .createAccount account | .appendAccountVersion account => account.version.toNat + 1 < 2 ^ 63
  | .commitTransition next event =>
      next.version.toNat + 1 < 2 ^ 63 ∧ store.NumberFree twin.sql.clock event
  | .appendBalanceProjection .. =>
      (∀ row ∈ store.projections.rows, row.id < (AutoId.next twin.sql.clock store.autoid).1) ∧
        ∀ points ∈ memory.projections.values, ∀ point ∈ points,
          point.id < (AutoId.next twin.memory.clock memory.autoid).1
  | _ => True

section Calls

variable {store : SqlLedger} {memory : InMemoryStore}

/-- A call that touches accounts alone. -/
theorem SameLedger.of_accounts (hsame : SameLedger store memory) {accounts : SqlStore}
    {after : InMemoryStore} (haccounts : SameAccounts accounts after) (hchained : Chained after)
    (hbooks : after.books = memory.books) (hprojections : after.projections = memory.projections) :
    SameLedger { store with toSqlStore := accounts } after where
  accounts := haccounts
  chained := hchained
  books := ⟨fun id => hbooks ▸ hsame.books.rows id, fun id => hbooks ▸ hsame.books.keyed id⟩
  projections := hsame.projections.congr rfl hprojections

theorem SameLedger.createAccount (hsame : SameLedger store memory) {account : Account}
    (hsmall : account.version.toNat + 1 < 2 ^ 63) :
    (store.toSqlStore.createAccount account).1 = (memory.createAccount account).1 ∧
      SameLedger { store with toSqlStore := (store.toSqlStore.createAccount account).2 }
        (memory.createAccount account).2 := by
  obtain ⟨hbooks, hprojections⟩ := memory.createAccount_frame account
  have hchained := hsame.chained.createAccount hsmall
  have hhead := hsame.accounts.head account.id
  by_cases hknown : account.id ∈ memory.accounts
  · have hsome := hsame.chained.known account.id hknown
    have hstored : (store.accountHead.lookup account.id.key).isSome := by
      rw [hhead, Option.isSome_map, InMemoryStore.latest, List.getLast?_isSome]
      exact hsome
    rw [SqlStore.createAccount, if_pos hstored, InMemoryStore.createAccount, if_pos hknown]
    exact ⟨rfl, hsame⟩
  · refine ⟨?_, hsame.of_accounts (hsame.accounts.createAccount hknown) hchained hbooks
      hprojections⟩
    rw [InMemoryStore.latest, InMemoryStore.versions, AList.lookup_eq_none.mpr hknown] at hhead
    rw [SqlStore.createAccount, hhead, InMemoryStore.createAccount, if_neg hknown]
    rfl

theorem SameLedger.createBook (hsame : SameLedger store memory) (book : Book) :
    (store.createBook book).1 = (memory.createBook book).1 ∧
      SameLedger (store.createBook book).2 (memory.createBook book).2 := by
  obtain ⟨hcount, hbooks⟩ := hsame.books.createBook book
  have hsql : (store.createBook book).2.toSqlStore = store.toSqlStore ∧
      (store.createBook book).2.projections = store.projections := by
    unfold SqlLedger.createBook
    split <;> exact ⟨rfl, rfl⟩
  have hmemory : (memory.createBook book).2.accounts = memory.accounts ∧
      (memory.createBook book).2.projections = memory.projections := by
    unfold InMemoryStore.createBook
    split <;> exact ⟨rfl, rfl⟩
  refine ⟨hcount, ?_, hsame.chained.congr hmemory.1, hbooks, ?_⟩
  · exact hsame.accounts.congr (congrArg _ hsql.1) (congrArg _ hsql.1) hmemory.1
  · exact hsame.projections.congr hsql.2 hmemory.2

theorem SameLedger.appendBalanceProjection (hsame : SameLedger store memory)
    {clock sqlClock : Clock}
    (hrows : ∀ row ∈ store.projections.rows, row.id < (AutoId.next sqlClock store.autoid).1)
    (hpoints : ∀ key, ∀ point ∈ memory.pointsOf key,
      point.id < (AutoId.next clock memory.autoid).1)
    (account : AccountId) (asset : AssetId) (balance : Cent) (watermark : Int64) :
    (store.appendBalanceProjection sqlClock account asset balance watermark).1 = .ok () ∧
      SameLedger (store.appendBalanceProjection sqlClock account asset balance watermark).2
        (memory.appendBalanceProjection clock account asset balance watermark) := by
  obtain ⟨hok, hprojections⟩ :=
    hsame.projections.append hrows hpoints account asset balance watermark
  have hsql : (store.appendBalanceProjection sqlClock account asset balance watermark).2.accounts =
        store.accounts ∧
      (store.appendBalanceProjection sqlClock account asset balance watermark).2.accountHead =
        store.accountHead ∧
      (store.appendBalanceProjection sqlClock account asset balance watermark).2.books =
        store.books := by
    unfold SqlLedger.appendBalanceProjection
    dsimp only
    split <;> exact ⟨rfl, rfl, rfl⟩
  refine ⟨hok, hsame.accounts.congr hsql.1 hsql.2.1 rfl, hsame.chained.congr rfl, ?_,
    hprojections⟩
  exact ⟨fun id => hsql.2.2 ▸ hsame.books.rows id, hsame.books.keyed⟩

theorem SameLedger.empty : SameLedger SqlLedger.empty InMemoryStore.new where
  accounts := SameStores.empty.accounts
  chained := chained_new
  books := ⟨fun _ => rfl, nofun⟩
  projections := ⟨fun _ _ => .nil, .nil, fun _ => .nil, nofun⟩

/-- Each call is answered alike and keeps the stores alike. -/
theorem SameLedger.call (hsame : SameLedger store memory) {twin : TwinCall}
    (hadmitted : twin.Admitted store memory) :
    LedgerAnswer.Same (twin.call.inSql twin.sql store).1
        (twin.call.inMemory twin.memory memory).1 ∧
      SameLedger (twin.call.inSql twin.sql store).2
        (twin.call.inMemory twin.memory memory).2 := by
  obtain ⟨call, sqlAround, around⟩ := twin
  cases call with
  | getAccount id =>
      refine ⟨?_, hsame⟩
      simp only [LedgerCall.inSql, LedgerCall.inMemory, hsame.accounts.getAccount]
      exact .equal _
  | getAccounts ids =>
      refine ⟨?_, hsame⟩
      simp only [LedgerCall.inSql, LedgerCall.inMemory, hsame.accounts.getAccounts]
      exact .equal _
  | getAccountHistory id =>
      refine ⟨?_, hsame⟩
      simp only [LedgerCall.inSql, LedgerCall.inMemory,
        hsame.accounts.getAccountHistory hsame.chained]
      exact .equal _
  | listAccounts =>
      refine ⟨?_, hsame⟩
      simp only [LedgerCall.inSql, LedgerCall.inMemory, hsame.accounts.listAccounts_eq]
      exact .accountList (hsame.accounts.listAccounts_perm _ _)
  | createAccount account =>
      obtain ⟨hcount, hafter⟩ := hsame.createAccount hadmitted
      refine ⟨?_, hafter⟩
      simp only [LedgerCall.inSql, LedgerCall.inMemory, Prod.map_fst, hcount]
      exact .equal _
  | appendAccountVersion account =>
      obtain ⟨hcount, haccounts, hchained⟩ :=
        hsame.accounts.appendAccountVersion hsame.chained hadmitted
      obtain ⟨hbooks, hprojections⟩ := memory.appendAccountVersion_frame account
      refine ⟨?_, hsame.of_accounts haccounts hchained hbooks hprojections⟩
      simp only [LedgerCall.inSql, LedgerCall.inMemory, Prod.map_fst, hcount]
      exact .equal _
  | commitTransition next event =>
      obtain ⟨houtcome, haccounts, hchained⟩ :=
        hsame.accounts.commitTransition hsame.chained hadmitted.1 hadmitted.2 around.clock
      obtain ⟨hbooks, hprojections⟩ := memory.commitTransition_frame around.clock next event
      refine ⟨?_, hsame.of_accounts haccounts hchained hbooks hprojections⟩
      simp only [LedgerCall.inSql, LedgerCall.inMemory, Prod.map_fst, houtcome]
      exact .equal _
  | createBook book =>
      obtain ⟨hcount, hafter⟩ := hsame.createBook book
      refine ⟨?_, hafter⟩
      simp only [LedgerCall.inSql, LedgerCall.inMemory, Prod.map_fst, Function.comp_apply, hcount]
      exact .equal _
  | getBook id =>
      refine ⟨?_, hsame⟩
      simp only [LedgerCall.inSql, LedgerCall.inMemory, hsame.books.getBook]
      exact .equal _
  | listBooks =>
      refine ⟨?_, hsame⟩
      obtain ⟨books, hlist, hperm⟩ := hsame.books.listBooks sqlAround.order around.order
      simp only [LedgerCall.inSql, LedgerCall.inMemory, hlist]
      exact .bookList hperm
  | appendBalanceProjection account asset balance watermark =>
      obtain ⟨hok, hafter⟩ := hsame.appendBalanceProjection hadmitted.1
        (InMemoryStore.forall_pointsOf hadmitted.2) account asset balance watermark
      refine ⟨?_, hafter⟩
      simp only [LedgerCall.inSql, LedgerCall.inMemory, Prod.map_fst, hok]
      exact .equal _
  | getClosestBalanceProjection account asset asOf =>
      refine ⟨?_, hsame⟩
      obtain ⟨found, hfound, hclosest⟩ := hsame.projections.closest account asset asOf
      simp only [LedgerCall.inSql, LedgerCall.inMemory, hfound]
      exact .closest hclosest

/-- The calls as each store gets them. -/
def TwinCall.inSql (twin : TwinCall) : Surroundings × LedgerCall := (twin.sql, twin.call)

def TwinCall.inMemory (twin : TwinCall) : Surroundings × LedgerCall := (twin.memory, twin.call)

/-- Every call meets what is asked of the stores that it gets to. -/
def AllAdmitted : List TwinCall → SqlLedger → InMemoryStore → Prop
  | [], _, _ => True
  | twin :: twins, store, memory => twin.Admitted store memory ∧
      AllAdmitted twins (twin.call.inSql twin.sql store).2
        (twin.call.inMemory twin.memory memory).2

theorem SameLedger.calls (hsame : SameLedger store memory) {twins : List TwinCall}
    (hadmitted : AllAdmitted twins store memory) :
    List.Forall₂ LedgerAnswer.Same
        (LedgerCall.runInSql (twins.map TwinCall.inSql) store).1
        (LedgerCall.runInMemory (twins.map TwinCall.inMemory) memory).1 ∧
      SameLedger (LedgerCall.runInSql (twins.map TwinCall.inSql) store).2
        (LedgerCall.runInMemory (twins.map TwinCall.inMemory) memory).2 := by
  induction twins generalizing store memory with
  | nil => exact ⟨.nil, hsame⟩
  | cons twin twins ih =>
      obtain ⟨hanswer, hnext⟩ := hsame.call hadmitted.1
      obtain ⟨hanswers, hlast⟩ := ih hnext hadmitted.2
      exact ⟨.cons hanswer hanswers, hlast⟩

end Calls

/-- From the empty stores on, whatever the calls are, the stores answer alike. -/
theorem ledger_calls_agree (twins : List TwinCall)
    (hadmitted : AllAdmitted twins SqlLedger.empty InMemoryStore.new) :
    List.Forall₂ LedgerAnswer.Same
      (LedgerCall.runInSql (twins.map TwinCall.inSql) SqlLedger.empty).1
      (LedgerCall.runInMemory (twins.map TwinCall.inMemory) InMemoryStore.new).1 :=
  (SameLedger.empty.calls hadmitted).1

end Kuatia

/-! ## A run of both stores -/

namespace Kuatia.Shelf

scoped instance : MoneyWidth := ⟨.i64⟩

/-- A text is the value that was written, which may be a book. -/
inductive Written where
  | metadata (value : Metadata)
  | envelope (value : Envelope)
  | receipt (value : Receipt)
  | event (value : LedgerEvent)
  | book (value : Book)

scoped instance : Json where
  Text := Written
  metadata := ⟨.metadata, fun text => match text with
    | .metadata value => .ok value
    | _ => .error (.internal "invalid JSON"), fun _ => rfl⟩
  envelope := ⟨.envelope, fun text => match text with
    | .envelope value => .ok value
    | _ => .error (.internal "invalid JSON"), fun _ => rfl⟩
  receipt := ⟨.receipt, fun text => match text with
    | .receipt value => .ok value
    | _ => .error (.internal "invalid JSON"), fun _ => rfl⟩
  event := ⟨.event, fun text => match text with
    | .event value => .ok value
    | _ => .error (.internal "invalid JSON"), fun _ => rfl⟩

scoped instance : BookJson where
  book := ⟨.book, fun text => match text with
    | .book value => .ok value
    | _ => .error (.internal "invalid JSON"), fun _ => rfl⟩

/-- The clock of the in-memory store is ahead. -/
def twinOf (time : Int64) (call : LedgerCall) : TwinCall :=
  ⟨call, ⟨some time, .listed⟩, ⟨some (time + 60000), .listed⟩⟩

def alice : Account := .debitMustNotExceedCredit Sample.alice

def frozenAlice : Account :=
  { alice with version := alice.version + 1, flags := alice.flags.insert .FROZEN }

/-- An account and a book are created, the account is frozen, and two balances are cached. -/
def shelved : List TwinCall :=
  [twinOf 1767225600000 (.createAccount alice),
   twinOf 1767225600001 (.createBook ⟨⟨7⟩, "shelf", ⟨[], .empty, []⟩⟩),
   twinOf 1767225600002 (.commitTransition frozenAlice ⟨0, 1767225600002,
    .accountFrozen alice.id frozenAlice.version⟩),
   twinOf 1767225600003 (.appendBalanceProjection alice.id Sample.usd (.ofI64 5) 20),
   twinOf 1767225600004 (.appendBalanceProjection alice.id Sample.usd (.ofI64 7) 20),
   twinOf 1767225600005 (.getClosestBalanceProjection alice.id Sample.usd 30),
   twinOf 1767225600006 .listAccounts]

theorem shelved_admitted : AllAdmitted shelved SqlLedger.empty InMemoryStore.new := by
  refine ⟨?_, trivial, ⟨?_, ?_⟩, ⟨?_, ?_⟩, ⟨?_, ?_⟩, trivial, trivial, trivial⟩
  · change alice.version.toNat + 1 < 2 ^ 63
    decide
  · decide
  · exact .inr (by decide +kernel)
  · decide +kernel
  · decide +kernel
  · decide +kernel
  · decide +kernel

theorem ledger_calls_agree_shelved :
    List.Forall₂ LedgerAnswer.Same
      (LedgerCall.runInSql (shelved.map TwinCall.inSql) SqlLedger.empty).1
      (LedgerCall.runInMemory (shelved.map TwinCall.inMemory) InMemoryStore.new).1 :=
  ledger_calls_agree shelved shelved_admitted

end Kuatia.Shelf
