import Kuatia.SqlStore.Store

/-! # The atomic commit in SQL

The transaction checks and writes step by step: it deletes the consumed rows and
inserts the created ones before it looks at the balances, and is rolled back when
a check fails. A rejected commit therefore leaves the store as it was.
-/

namespace Kuatia

open Sql
open InMemoryStore (Refusal)

variable [MoneyWidth]

def LivePostingRow.balanceKey (live : LivePostingRow) : BalanceKey :=
  (⟨live.row.owner, live.row.subaccount⟩, ⟨live.row.asset.toUInt32⟩)

namespace SqlPostings

/-- The rows among the ids that are still active, chunk by chunk. -/
def activeRows (order : IterationOrder) (ids : List PostingId) (store : SqlPostings) :
    List LivePostingRow :=
  (ids.chunks MAX_IDS_PER_QUERY).flatMap fun chunk =>
    order.arrange (store.live.select fun live =>
      idPredicate chunk live.row && live.reservation = none)

/-- Record and activate a created posting, each unless its id is taken. -/
def createPosting (store : SqlPostings) (posting : Posting) : SqlPostings where
  postings := (store.postings.insertIgnore posting.toRow).2
  live := (store.live.insertIgnore ⟨posting.toRow, none⟩).2

/-- Delete what is consumed and insert what is created. -/
def write (req : CommitRequest) (store : SqlPostings) : SqlPostings :=
  req.create.foldl createPosting (store.deactivatePostings req.consume none).2

end SqlPostings

variable [Json]

namespace SqlStore

/-- No involved account is frozen or closed. -/
def freezeGuard (store : SqlStore) (req : CommitRequest) : Except Refusal Unit :=
  req.involved.forM fun id => do
    let account ← (store.lockedAccount id).mapError Refusal.fault
    match account with
    | none => .error (.fault (.internal s!"commit: account {id.debug} missing"))
    | some account =>
        if account.isFrozen then .error (.rejected (.accountFrozen id))
        else if account.isClosed then .error (.rejected (.accountClosed id))
        else .ok ()

/-- Every consumed posting is among the active rows. -/
def doubleSpendGuard (store : SqlStore) (order : IterationOrder) (req : CommitRequest) :
    Except Refusal Unit :=
  let present := (store.postings.activeRows order req.consume).map LivePostingRow.key
  match req.consume.find? fun id => id.key ∉ present with
  | some missing => .error (.rejected (.doubleSpend missing))
  | none => .ok ()

/-- The balances that the commit touches: those of consumed and created postings. -/
def touched (store : SqlStore) (order : IterationOrder) (req : CommitRequest) : List BalanceKey :=
  ((store.postings.activeRows order req.consume).map LivePostingRow.balanceKey ++
    req.create.map Posting.key).dedup

/-- No touched balance of an account that forbids overdraft is below zero. -/
def overdraftFloor (store : SqlStore) (order : IterationOrder) (keys : List BalanceKey) :
    Except Refusal Unit :=
  (order.arrange keys).forM fun key => do
    let account ← (store.lockedAccount key.1).mapError Refusal.fault
    if !(account.map Account.forbidsOverdraft).getD false then .ok ()
    else do
      let projected ← (store.liveBalance order key).mapError Refusal.fault
      if projected.isNegative then .error (.rejected (.overdraftExceeded key.1 key.2 projected))
      else .ok ()

/-- The store as the transaction sees it after its writes to the postings. -/
def written (store : SqlStore) (req : CommitRequest) : SqlStore :=
  { store with postings := store.postings.write req }

def commitGuards (store : SqlStore) (order : IterationOrder) (req : CommitRequest) :
    Except Refusal Unit := do
  store.freezeGuard req
  store.doubleSpendGuard order req
  (store.written req).overdraftFloor order (store.touched order req)

/-- Write the postings, store the transfer and index its accounts. -/
def applyCommit (req : CommitRequest) (store : SqlStore) : SqlStore :=
  { store.written req with
    transfers := (store.transfers.insertIgnore (req.record.toRow req.transferId)).2
    transferAccounts := req.involved.foldl (fun table account =>
      (table.insertIgnore
        ⟨envelopeIdToHex req.transferId, account.id, account.sub⟩).2) store.transferAccounts }

def commitEnvelope (order : IterationOrder) (clock : Clock) (req : CommitRequest)
    (store : SqlStore) : Except StoreError CommitOutcome × SqlStore :=
  match store.transfers.lookup (envelopeIdToHex req.transferId) with
  | some row => ((Json.receipt.read row.receipt).map .alreadyCommitted, store)
  | none =>
      match store.commitGuards order req with
      | .error (.fault err) => (.error err, store)
      | .error (.rejected reason) => (.ok (.rejected reason), store)
      | .ok () =>
          match (store.applyCommit req).appendEventTx clock req.event with
          | .error err => (.error err, { store with autoid := store.autoid + 1 })
          | .ok after => (.ok (.committed req.record.receipt), after)

/-- The next event can be numbered: its key is present, or the number is free. -/
def NumberFree (store : SqlStore) (clock : Clock) (event : LedgerEvent) : Prop :=
  (∃ key, eventDedupKey event.kind = some key ∧ ∃ row ∈ store.events.rows, row.dedupKey = some key) ∨
    store.events.lookup (AutoId.next clock store.autoid).1 = none

end SqlStore

end Kuatia
