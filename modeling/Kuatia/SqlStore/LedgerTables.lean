import Kuatia.SqlStore.AccountMigration
import Kuatia.SqlStore.Commit
import Kuatia.Sql.Ordering
import Kuatia.Storage.Calls
import Kuatia.Storage.Reads
import Kuatia.Types.Orders

/-! # Accounts, books and balance projections

What the two stores answer about accounts, books and cached balances. The SQL store
keeps books as JSON texts and cached amounts as decimal texts. The versions of an
account are rows that are only inserted; its head is deleted and inserted anew.
-/

namespace Kuatia

open Sql

variable [MoneyWidth]

/-- The JSON library, for books. -/
class BookJson [Json] where
  book : JsonCodec Json.Text Book

variable [Json]

/-! ## Accounts -/

namespace SqlStore

def getAccounts (store : SqlStore) (ids : List AccountId) : Except StoreError (List Account) :=
  ids.mapM store.getAccount

def getAccountHistory (store : SqlStore) (id : AccountId) : Except StoreError (List Account) :=
  let rows := orderBy AccountRow.version
    (store.accounts.select fun row => row.id = id.id && row.subaccount = id.sub)
  if rows.isEmpty then .error (.notFound s!"account {id.debug}") else rows.mapM rowToAccount

/-- One row for each head, joined with the version it points at. -/
def listAccounts (order : IterationOrder) (store : SqlStore) : Except StoreError (List Account) :=
  ((order.arrange store.accountHead.rows).filterMap fun head =>
    store.accounts.lookup (head.id, head.subaccount, head.version)).mapM rowToAccount

/-- Delete the head of an account and insert one that points at this version. -/
def moveHead (account : Account) (store : SqlStore) : SqlStore :=
  { store with accountHead :=
      ((store.accountHead.deleteWhere fun head => head.key = account.id.key).2.insertIgnore
        account.toHead).2 }

/-- Append a version that is one past the head. The numbers are compared as `i64`. -/
def appendAccountVersion (account : Account) (store : SqlStore) :
    Except StoreError Nat × SqlStore :=
  match store.accountHead.lookup account.id.key with
  | none => (.ok 0, store)
  | some head =>
      if head.version.toInt + 1 = 2 ^ 63 then
        (.error (.internal "account version overflow"), store)
      else if account.version.toInt64 ≠ head.version + 1 then (.ok 0, store)
      else
        let (inserted, accounts) := store.accounts.insertIgnore account.toRow
        if inserted = 0 then (.ok 0, store) else (.ok 1, { store with accounts }.moveHead account)

/-- Append one account version and its event, if it extends the chain. -/
def commitTransition (clock : Clock) (next : Account) (event : LedgerEvent) (store : SqlStore) :
    Except StoreError TransitionOutcome × SqlStore :=
  let finish (outcome : TransitionOutcome) (written : SqlStore) :
      Except StoreError TransitionOutcome × SqlStore :=
    match written.appendEventTx clock event with
    | .error err => (.error err, { store with autoid := store.autoid + 1 })
    | .ok after => (.ok outcome, after)
  match store.lockedAccount next.id with
  | .error err => (.error err, store)
  | .ok none => (.error (.internal s!"transition: account {next.id.debug} missing"), store)
  | .ok (some current) =>
      if current.isClosed then (.ok (.rejected (.alreadyClosed next.id)), store)
      else if next.version ≤ current.version then finish .alreadyApplied store
      else if current.version.toNat + 1 = 2 ^ 64 then
        (.error (.internal "account version overflow"), store)
      else if next.version ≠ current.version + 1 then
        (.ok (.rejected (.versionConflict next.id next.version)), store)
      else finish .applied
        ({ store with accounts := (store.accounts.insertIgnore next.toRow).2 }.moveHead next)

end SqlStore

/-! ## Books and balance projections -/

structure BookRow where
  id : Int64
  name : String
  data : Json.Text

structure BalanceProjectionRow where
  id : Int64
  account : Int64
  subaccount : Int64
  asset : Int32
  balance : String
  watermark : Int64
  deriving DecidableEq

/-- `ORDER BY watermark DESC, id DESC`. -/
def BalanceProjectionRow.newestFirst (row : BalanceProjectionRow) : OrderDual (Int64 ×ₗ Int64) :=
  .toDual (toLex (row.watermark, row.id))

/-- All tables of the SQL store. -/
structure SqlLedger extends SqlStore where
  books : Table BookRow.id
  projections : Table BalanceProjectionRow.id

variable [BookJson]

def Book.toRow (book : Book) : BookRow := ⟨book.id.id, book.name, BookJson.book.write book⟩

/-- A book is read back from its text alone. -/
def rowToBook (row : BookRow) : Except StoreError Book := BookJson.book.read row.data

namespace SqlLedger

def empty : SqlLedger := ⟨.empty, .empty, .empty⟩

def createBook (book : Book) (store : SqlLedger) : Nat × SqlLedger :=
  if (store.books.lookup book.id.id).isSome then (0, store)
  else
    let (inserted, books) := store.books.insertIgnore book.toRow
    (inserted, { store with books })

def getBook (store : SqlLedger) (id : BookId) : Except StoreError Book :=
  match store.books.lookup id.id with
  | some row => rowToBook row
  | none => .error (.notFound s!"book {id.debug}")

def listBooks (order : IterationOrder) (store : SqlLedger) : Except StoreError (List Book) :=
  (order.arrange store.books.rows).mapM rowToBook

/-- The number of the next row is its primary key. -/
def appendBalanceProjection (clock : Clock) (account : AccountId) (asset : AssetId)
    (balance : Cent) (watermark : Int64) (store : SqlLedger) : Except StoreError Unit × SqlLedger :=
  let (id, autoid) := AutoId.next clock store.autoid
  if (store.projections.lookup id).isSome then
    (.error (.internal "UNIQUE constraint failed: balance_projection.id"), { store with autoid })
  else
    (.ok (), { store with
      projections := (store.projections.insertIgnore
        ⟨id, account.id, account.sub, asset.id.toInt32, balance.toText, watermark⟩).2
      autoid })

/-- The first row, if any. -/
def getClosestBalanceProjection (store : SqlLedger) (account : AccountId) (asset : AssetId)
    (asOf : Int64) : Except StoreError (Option BalanceProjection) :=
  let rows := store.projections.select fun row =>
    row.account = account.id && row.subaccount = account.sub && row.asset = asset.id.toInt32 &&
      row.watermark ≤ asOf
  match (orderBy BalanceProjectionRow.newestFirst rows).head? with
  | none => .ok none
  | some row =>
      match Cent.fromStr row.balance with
      | some balance => .ok (some ⟨row.id, account, asset, balance, row.watermark⟩)
      | none => .error (.internal "invalid monetary amount")

end SqlLedger

/-! ## Calls -/

/-- A call about accounts, books or balance projections. -/
inductive LedgerCall where
  | getAccount (id : AccountId)
  | getAccounts (ids : List AccountId)
  | getAccountHistory (id : AccountId)
  | listAccounts
  | createAccount (account : Account)
  | appendAccountVersion (account : Account)
  | commitTransition (next : Account) (event : LedgerEvent)
  | createBook (book : Book)
  | getBook (id : BookId)
  | listBooks
  | appendBalanceProjection (account : AccountId) (asset : AssetId) (balance : Cent)
      (watermark : Int64)
  | getClosestBalanceProjection (account : AccountId) (asset : AssetId) (asOf : Int64)

inductive LedgerAnswer where
  | account (result : Except StoreError Account)
  | accounts (result : Except StoreError (List Account))
  | accountList (result : Except StoreError (List Account))
  | count (result : Except StoreError Nat)
  | outcome (result : Except StoreError TransitionOutcome)
  | book (result : Except StoreError Book)
  | bookList (result : Except StoreError (List Book))
  | appended (result : Except StoreError Unit)
  | closest (result : Except StoreError (Option BalanceProjection))

/-- What a store is told by the world outside: the clock, and the order of what is not
ordered. -/
structure Surroundings where
  clock : Clock
  order : IterationOrder

namespace LedgerCall

def inMemory (around : Surroundings) (store : InMemoryStore) :
    LedgerCall → LedgerAnswer × InMemoryStore
  | getAccount id => (.account (store.getAccount id), store)
  | getAccounts ids => (.accounts (store.getAccounts ids), store)
  | getAccountHistory id => (.accounts (store.getAccountHistory id), store)
  | listAccounts => (.accountList (.ok (store.listAccounts around.order)), store)
  | createAccount account => (store.createAccount account).map (.count ∘ .ok) id
  | appendAccountVersion account => (store.appendAccountVersion account).map .count id
  | commitTransition next event =>
      (store.commitTransition around.clock next event).map .outcome id
  | createBook book => (store.createBook book).map (.count ∘ .ok) id
  | getBook id => (.book (store.getBook id), store)
  | listBooks => (.bookList (.ok (store.listBooks around.order)), store)
  | appendBalanceProjection account asset balance watermark =>
      (.appended (.ok ()),
        store.appendBalanceProjection around.clock account asset balance watermark)
  | getClosestBalanceProjection account asset asOf =>
      (.closest (.ok (store.getClosestBalanceProjection account asset asOf)), store)

def inSql (around : Surroundings) (store : SqlLedger) : LedgerCall → LedgerAnswer × SqlLedger
  | getAccount id => (.account (store.getAccount id), store)
  | getAccounts ids => (.accounts (store.getAccounts ids), store)
  | getAccountHistory id => (.accounts (store.getAccountHistory id), store)
  | listAccounts => (.accountList (store.toSqlStore.listAccounts around.order), store)
  | createAccount account =>
      (store.toSqlStore.createAccount account).map (.count ∘ .ok) ({ store with toSqlStore := · })
  | appendAccountVersion account =>
      (store.toSqlStore.appendAccountVersion account).map .count ({ store with toSqlStore := · })
  | commitTransition next event =>
      (store.toSqlStore.commitTransition around.clock next event).map .outcome
        ({ store with toSqlStore := · })
  | createBook book => (store.createBook book).map (.count ∘ .ok) id
  | getBook id => (.book (store.getBook id), store)
  | listBooks => (.bookList (store.listBooks around.order), store)
  | appendBalanceProjection account asset balance watermark =>
      (store.appendBalanceProjection around.clock account asset balance watermark).map .appended id
  | getClosestBalanceProjection account asset asOf =>
      (.closest (store.getClosestBalanceProjection account asset asOf), store)

/-- Run the calls one after the other, and collect what they return. -/
def runInMemory : List (Surroundings × LedgerCall) → InMemoryStore →
    List LedgerAnswer × InMemoryStore
  | [], store => ([], store)
  | (around, call) :: calls, store =>
      let (answer, next) := call.inMemory around store
      let (answers, last) := runInMemory calls next
      (answer :: answers, last)

def runInSql : List (Surroundings × LedgerCall) → SqlLedger → List LedgerAnswer × SqlLedger
  | [], store => ([], store)
  | (around, call) :: calls, store =>
      let (answer, next) := call.inSql around store
      let (answers, last) := runInSql calls next
      (answer :: answers, last)

end LedgerCall

end Kuatia
