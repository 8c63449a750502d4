import Kuatia.SqlStore.Postings

/-! # The tables of the SQL store

Accounts are rows for every version with a head that points at the latest one;
transfers have their participants in an index table; events are keyed by number.
-/

namespace Kuatia

open Sql

variable [MoneyWidth] [Json]

/-! ## Accounts -/

structure AccountRow where
  id : Int64
  subaccount : Int64
  version : Int64
  flags : Int32
  book : Int64
  metadata : Json.Text

structure AccountHeadRow where
  id : Int64
  subaccount : Int64
  version : Int64
  deriving DecidableEq

def AccountRow.key (row : AccountRow) : Int64 × Int64 × Int64 := (row.id, row.subaccount, row.version)

omit [MoneyWidth] [Json] in
def AccountHeadRow.key (row : AccountHeadRow) : Int64 × Int64 := (row.id, row.subaccount)

def AccountId.key (id : AccountId) : Int64 × Int64 := (id.id, id.sub)

omit [MoneyWidth] [Json] in
theorem AccountId.key_inj {first second : AccountId} : first.key = second.key ↔ first = second := by
  constructor
  · intro heq
    cases first
    cases second
    simp_all [AccountId.key]
  · exact congrArg _

def Account.toRow (account : Account) : AccountRow where
  id := account.id.id
  subaccount := account.id.sub
  version := account.version.toInt64
  flags := account.flags.bits.toInt32
  book := account.book.id
  metadata := Json.metadata.write account.metadata

def Account.toHead (account : Account) : AccountHeadRow :=
  ⟨account.id.id, account.id.sub, account.version.toInt64⟩

/-- Every flag bit has a name, so none is lost in reading. -/
def rowToAccount (row : AccountRow) : Except StoreError Account := do
  let metadata ← Json.metadata.read row.metadata
  .ok { id := ⟨row.id, row.subaccount⟩
        version := row.version.toUInt64
        flags := ⟨row.flags.toUInt32⟩
        book := ⟨row.book⟩
        metadata }

@[simp] theorem rowToAccount_toRow (account : Account) : rowToAccount account.toRow = .ok account := by
  simp [rowToAccount, Account.toRow, Json.metadata.read_write, bind, Except.bind]

/-! ## Transfers -/

structure TransferRow where
  id : String
  transfer : Json.Text
  receipt : Json.Text
  createdAt : Int64
  book : Int64

structure TransferAccountRow where
  transferId : String
  accountId : Int64
  subaccount : Int64
  deriving DecidableEq

/-- The columns of a transfer that is stored under an id. -/
def EnvelopeRecord.toRow (id : EnvelopeId) (record : EnvelopeRecord) : TransferRow where
  id := envelopeIdToHex id
  transfer := Json.envelope.write record.envelope
  receipt := Json.receipt.write record.receipt
  createdAt := record.createdAt
  book := record.envelope.book.id

def rowToRecord (row : TransferRow) : Except StoreError EnvelopeRecord := do
  let envelope ← Json.envelope.read row.transfer
  let receipt ← Json.receipt.read row.receipt
  .ok { envelope, receipt, createdAt := row.createdAt }

@[simp] theorem rowToRecord_toRow (id : EnvelopeId) (record : EnvelopeRecord) :
    rowToRecord (record.toRow id) = .ok record := by
  simp [rowToRecord, EnvelopeRecord.toRow, Json.envelope.read_write, Json.receipt.read_write, bind,
    Except.bind]

/-! ## Events -/

structure EventRow where
  seq : Int64
  timestamp : Int64
  data : Json.Text
  dedupKey : Option String

def LedgerEvent.toRow (seq : Int64) (event : LedgerEvent) : EventRow where
  seq := seq
  timestamp := event.timestamp
  data := Json.event.write event
  dedupKey := eventDedupKey event.kind

/-- The number of a row is its column, not the one in the payload. -/
def rowToEvent (row : EventRow) : Except StoreError LedgerEvent := do
  let event ← Json.event.read row.data
  .ok { event with seq := row.seq.toUInt64 }

@[simp] theorem rowToEvent_toRow (seq : Int64) (event : LedgerEvent) :
    rowToEvent (event.toRow seq) = .ok { event with seq := seq.toUInt64 } := by
  simp [rowToEvent, LedgerEvent.toRow, Json.event.read_write, bind, Except.bind]

/-! ## The store -/

structure SqlStore where
  postings : SqlPostings
  accounts : Table AccountRow.key
  accountHead : Table AccountHeadRow.key
  transfers : Table TransferRow.id
  transferAccounts : Table (id : TransferAccountRow → TransferAccountRow)
  events : Table EventRow.seq
  autoid : UInt32

namespace SqlStore

def empty : SqlStore where
  postings := .empty
  accounts := .empty
  accountHead := .empty
  transfers := .empty
  transferAccounts := .empty
  events := .empty
  autoid := 0

/-- The head of the account, joined with the version it points at. -/
def lockedAccount (store : SqlStore) (id : AccountId) : Except StoreError (Option Account) :=
  match (store.accountHead.lookup id.key).bind fun head =>
      store.accounts.lookup (head.id, head.subaccount, head.version) with
  | some row => (rowToAccount row).map some
  | none => .ok none

/-- Append the first version of an account and point the head at it, unless the
account has a head. -/
def createAccount (account : Account) (store : SqlStore) : Nat × SqlStore :=
  if (store.accountHead.lookup account.id.key).isSome then (0, store)
  else
    (1, { store with
      accounts := (store.accounts.insertIgnore account.toRow).2
      accountHead := (store.accountHead.insertIgnore account.toHead).2 })

/-- Sum the live postings of one account and asset, reserved or not. -/
def liveBalance (store : SqlStore) (order : IterationOrder) (key : BalanceKey) :
    Except StoreError Cent := do
  let rows := order.arrange <| store.postings.live.select fun live =>
    live.row.owner = key.1.id && live.row.subaccount = key.1.sub &&
      live.row.asset = key.2.id.toInt32
  let values ← rows.mapM fun live => match Cent.fromStr live.row.value with
    | some value => .ok value
    | none => .error (.internal "invalid monetary amount")
  (Cent.checkedSum values).mapError fun _ => .internal "monetary amount overflow"

/-- Insert an event under the next number, unless its key is present. The
counter moves on even if the transaction does not commit. -/
def appendEventTx (clock : Clock) (event : LedgerEvent) (store : SqlStore) :
    Except StoreError SqlStore :=
  let (seq, autoid) := AutoId.next clock store.autoid
  let row := event.toRow seq
  if row.dedupKey.isSome && store.events.rows.any (·.dedupKey = row.dedupKey) then
    .ok { store with autoid }
  else if (store.events.lookup seq).isSome then
    .error (.internal "UNIQUE constraint failed: events.seq")
  else .ok { store with events := (store.events.insertIgnore row).2, autoid }

end SqlStore

/-! ## The same accounts and transfers -/

/-- The account table has exactly the versions of the in-memory store, and each
head points at the latest one. -/
structure SameAccounts (store : SqlStore) (memory : InMemoryStore) : Prop where
  versions : ∀ row, row ∈ store.accounts.rows ↔
    ∃ id, ∃ account ∈ memory.versions id, account.toRow = row
  head : ∀ id : AccountId,
    store.accountHead.lookup id.key = (memory.latest id).map Account.toHead
  keyed : ∀ id, ∀ account ∈ memory.versions id, account.id = id

/-- The transfer table has exactly the stored transfers, and the index table
their participants. -/
structure SameTransfers (store : SqlStore) (memory : InMemoryStore) : Prop where
  stored : ∀ row, row ∈ store.transfers.rows ↔
    ∃ id record, memory.transfers.lookup id = some record ∧ record.toRow id = row
  involved : ∀ row, row ∈ store.transferAccounts.rows ↔
    ∃ id accounts, memory.transferAccounts.lookup id = some accounts ∧
      ∃ account ∈ accounts, row = ⟨envelopeIdToHex id, account.id, account.sub⟩
  indexed : ∀ id, id ∈ memory.transferAccounts ↔ id ∈ memory.transfers

/-- The two stores hold the same accounts, postings and transfers. -/
structure SameStores (store : SqlStore) (memory : InMemoryStore) : Prop where
  accounts : SameAccounts store memory
  postings : SamePostings store.postings memory.postings
  transfers : SameTransfers store memory

theorem SameAccounts.lockedAccount {store : SqlStore} {memory : InMemoryStore}
    (hsame : SameAccounts store memory) (id : AccountId) :
    store.lockedAccount id = .ok (memory.latest id) := by
  unfold SqlStore.lockedAccount
  rw [hsame.head]
  cases hlatest : memory.latest id with
  | none => rfl
  | some account =>
      have hmem := InMemoryStore.mem_versions_of_latest hlatest
      have hrow : store.accounts.lookup
          (account.toHead.id, account.toHead.subaccount, account.toHead.version) =
          some account.toRow :=
        Table.lookup_of_mem ((hsame.versions _).mpr ⟨id, account, hmem, rfl⟩)
      rw [Option.map_some, Option.bind_some, hrow]
      simp only [rowToAccount_toRow]
      rfl

/-- A new account is created in both stores. -/
theorem SameAccounts.createAccount {store : SqlStore} {memory : InMemoryStore}
    (hsame : SameAccounts store memory) {account : Account} (hnew : account.id ∉ memory.accounts) :
    SameAccounts (store.createAccount account).2 (memory.createAccount account).2 := by
  have hlookup : memory.accounts.lookup account.id = none := AList.lookup_eq_none.mpr hnew
  have hhead : store.accountHead.lookup account.id.key = none := by
    rw [hsame.head, InMemoryStore.latest, InMemoryStore.versions, hlookup]
    rfl
  have hrow : store.accounts.lookup account.toRow.key = none := by
    apply Table.lookup_eq_none_iff.mpr
    intro hmem
    obtain ⟨row, hrow, hkey⟩ := List.mem_map.mp hmem
    obtain ⟨id, other, hother, rfl⟩ := (hsame.versions row).mp hrow
    have hid : other.id = account.id := by
      have hparts := Prod.mk.inj hkey
      exact AccountId.key_inj.mp (Prod.ext hparts.1 (Prod.mk.inj hparts.2).1)
    rw [hsame.keyed id other hother] at hid
    rw [hid, InMemoryStore.versions, hlookup] at hother
    cases hother
  have hcreate : store.createAccount account = (1, { store with
      accounts := (store.accounts.insertIgnore account.toRow).2
      accountHead := (store.accountHead.insertIgnore account.toHead).2 }) := by
    rw [SqlStore.createAccount, hhead]
    rfl
  have hversions : ∀ id, (memory.createAccount account).2.versions id =
      if id = account.id then [account] else memory.versions id := by
    intro id
    rw [InMemoryStore.createAccount, if_neg hnew, InMemoryStore.versions,
      HashMap.lookup_insert_eq]
    split <;> rfl
  rw [hcreate]
  constructor
  · intro row
    rw [Table.mem_insertIgnore_of_free hrow, hsame.versions]
    simp only [hversions]
    constructor
    · rintro (rfl | ⟨id, other, hother, rfl⟩)
      · exact ⟨account.id, account, by simp, rfl⟩
      · refine ⟨id, other, ?_, rfl⟩
        rw [if_neg]
        · exact hother
        · rintro rfl
          rw [InMemoryStore.versions, hlookup] at hother
          cases hother
    · rintro ⟨id, other, hother, rfl⟩
      split at hother
      next =>
        rw [List.mem_singleton.mp hother]
        exact .inl rfl
      next => exact .inr ⟨id, other, hother, rfl⟩
  · intro id
    have hkey : id.key = account.toHead.key ↔ id = account.id := AccountId.key_inj
    rw [InMemoryStore.latest, hversions, Table.lookup_insertIgnore, hsame.head]
    simp only [hkey]
    by_cases hid : id = account.id
    · subst hid
      simp [InMemoryStore.latest, InMemoryStore.versions, hlookup]
    · simp [hid, InMemoryStore.latest]
  · intro id other hother
    rw [hversions] at hother
    split at hother
    next heq =>
      rw [List.mem_singleton.mp hother, heq]
    next => exact hsame.keyed id other hother

/-! ## Stores that differ elsewhere -/

theorem SameAccounts.congr {store next : SqlStore} {memory after : InMemoryStore}
    (hsame : SameAccounts store memory) (haccounts : next.accounts = store.accounts)
    (hhead : next.accountHead = store.accountHead) (hmemory : after.accounts = memory.accounts) :
    SameAccounts next after := by
  have hversions : after.versions = memory.versions := by
    funext id
    rw [InMemoryStore.versions, hmemory]
    rfl
  have hlatest : after.latest = memory.latest := by
    funext id
    rw [InMemoryStore.latest, hversions]
    rfl
  constructor
  · rw [haccounts, hversions]
    exact hsame.versions
  · rw [hhead, hlatest]
    exact hsame.head
  · rw [hversions]
    exact hsame.keyed

theorem SameTransfers.congr {store next : SqlStore} {memory after : InMemoryStore}
    (hsame : SameTransfers store memory) (htransfers : next.transfers = store.transfers)
    (hindex : next.transferAccounts = store.transferAccounts)
    (hmemory : after.transfers = memory.transfers)
    (hmemoryIndex : after.transferAccounts = memory.transferAccounts) :
    SameTransfers next after := by
  constructor
  · rw [htransfers, hmemory]
    exact hsame.stored
  · rw [hindex, hmemoryIndex]
    exact hsame.involved
  · rw [hmemory, hmemoryIndex]
    exact hsame.indexed

theorem SameStores.empty : SameStores .empty .new where
  accounts := ⟨by simp [SqlStore.empty, Table.empty, InMemoryStore.new, InMemoryStore.versions],
    fun _ => rfl, fun _ _ haccount => nomatch haccount⟩
  postings := samePostings_empty
  transfers := ⟨by simp [SqlStore.empty, Table.empty, InMemoryStore.new],
    by simp [SqlStore.empty, Table.empty, InMemoryStore.new], fun _ => .rfl⟩

theorem SameTransfers.lookup {store : SqlStore} {memory : InMemoryStore}
    (hsame : SameTransfers store memory) (id : EnvelopeId) :
    store.transfers.lookup (envelopeIdToHex id) =
      (memory.transfers.lookup id).map (EnvelopeRecord.toRow id) := by
  cases hlookup : memory.transfers.lookup id with
  | some record =>
      exact Table.lookup_of_mem ((hsame.stored _).mpr ⟨id, record, hlookup, rfl⟩)
  | none =>
      apply Table.lookup_eq_none_iff.mpr
      intro hmem
      obtain ⟨row, hrow, hkey⟩ := List.mem_map.mp hmem
      obtain ⟨other, record, hother, rfl⟩ := (hsame.stored row).mp hrow
      rw [envelopeIdToHex_inj.mp hkey, hlookup] at hother
      cases hother

end Kuatia
