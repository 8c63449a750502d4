import Kuatia.SqlStore.Postings

/-! # Commits as transactions of separate statements

On PostgreSQL a commit is a transaction under READ COMMITTED: each of its
statements sees what has been committed before it starts, with what its own
transaction has written, and between two of them any other transaction may run.
A row that a statement locks, deletes or inserts is held until the transaction
ends, and a statement of another one that needs it waits.

Rows are kept as the values that their columns encode. No commit reserves a
posting, so the reservation stays null and is left out, as are the index of the
transfers and the events, which no statement of a commit reads.
-/

namespace Kuatia.ReadCommitted

variable [MoneyWidth]

/-- What is committed. -/
structure Database where
  accounts : HashMap AccountId Account
  transfers : HashMap EnvelopeId EnvelopeRecord
  postings : HashMap PostingId Posting
  live : HashMap PostingId Posting

def Database.empty : Database := ⟨∅, ∅, ∅, ∅⟩

/-! ## The transaction -/

/-- The statement that comes next, with what is left of the loop it belongs to. -/
inductive Phase where
  | lookup
  | guard (accounts : List AccountId)
  | select (chunks : List (List PostingId))
  | lockRows (rows : List Posting) (chunks : List (List PostingId))
  | delete (chunks : List (List PostingId))
  | insert (postings : List Posting)
  | activate (posting : Posting) (postings : List Posting)
  | owner (keys : List BalanceKey)
  | floor (key : BalanceKey) (keys : List BalanceKey)
  | record
  | commit
  | ended (result : Except StoreError CommitOutcome)

/-- A transaction with the accounts and the live rows that it has locked, and what
it has written: the live rows that it has deleted, those that it has inserted into
either table, and whether it has inserted the transfer. -/
structure Transaction where
  req : CommitRequest
  phase : Phase
  accounts : List AccountId
  rows : List Posting
  deleted : List PostingId
  inserted : List Posting
  activated : List Posting
  stored : Bool

namespace Transaction

def begin (req : CommitRequest) : Transaction := ⟨req, .lookup, [], [], [], [], [], false⟩

/-- A transaction that has ended holds nothing. -/
def finish (result : Except StoreError CommitOutcome) (tx : Transaction) : Transaction :=
  ⟨tx.req, .ended result, [], [], [], [], [], false⟩

/-- The live postings as the transaction sees them. -/
def live (tx : Transaction) (db : Database) : HashMap PostingId Posting :=
  (db.live.eraseAll tx.deleted).insertAll (·.id) tx.activated

/-- The balances that the commit touches. -/
def touched (tx : Transaction) : List BalanceKey :=
  (tx.rows.map Posting.key ++ tx.req.create.map Posting.key).dedup

/-- The next statement of an open transaction beside the others. There is none
while it waits for a row that another one holds. -/
def statement (order : IterationOrder) (db : Database) (others : List Transaction)
    (tx : Transaction) : Option Transaction :=
  match tx.phase with
  | .lookup =>
      match db.transfers.lookup tx.req.transferId with
      | some record => some (tx.finish (.ok (.alreadyCommitted record.receipt)))
      | none => some { tx with phase := .guard tx.req.involved }
  | .guard [] => some { tx with phase := .select (tx.req.consume.chunks MAX_IDS_PER_QUERY) }
  | .guard (id :: rest) =>
      if ∃ other ∈ others, id ∈ other.accounts then none
      else match db.accounts.lookup id with
        | none => some (tx.finish (.error (.internal s!"commit: account {id.debug} missing")))
        | some account =>
            if account.isFrozen then some (tx.finish (.ok (.rejected (.accountFrozen id))))
            else if account.isClosed then some (tx.finish (.ok (.rejected (.accountClosed id))))
            else some { tx with accounts := id :: tx.accounts, phase := .guard rest }
  | .select [] =>
      match tx.req.consume.find? fun id => id ∉ tx.rows.map (·.id) with
      | some missing => some (tx.finish (.ok (.rejected (.doubleSpend missing))))
      | none => some { tx with phase := .delete (tx.req.consume.chunks MAX_IDS_PER_QUERY) }
  | .select (chunk :: chunks) =>
      let found := order.arrange (db.live.values.filter fun posting => posting.id ∈ chunk)
      some { tx with phase := .lockRows found chunks }
  | .lockRows [] chunks => some { tx with phase := .select chunks }
  | .lockRows (row :: rest) chunks =>
      if ∃ other ∈ others, row.id ∈ other.rows.map (·.id) then none
      -- a row that is gone once its lock is free is left out
      else match db.live.lookup row.id with
        | some found => some { tx with rows := found :: tx.rows, phase := .lockRows rest chunks }
        | none => some { tx with phase := .lockRows rest chunks }
  | .delete [] => some { tx with phase := .insert tx.req.create }
  | .delete (chunk :: chunks) =>
      if ∃ other ∈ others, ∃ id ∈ chunk, id ∈ other.rows.map (·.id) then none
      else some { tx with
        deleted := tx.deleted ++ chunk.filter (· ∈ db.live)
        phase := .delete chunks }
  | .insert [] => some { tx with phase := .owner (order.arrange tx.touched) }
  | .insert (posting :: rest) =>
      if ∃ other ∈ others, posting.id ∈ other.inserted.map (·.id) then none
      else if posting.id ∈ db.postings ∨ posting.id ∈ tx.inserted.map (·.id) then
        some { tx with phase := .activate posting rest }
      else some { tx with
        inserted := tx.inserted ++ [posting]
        phase := .activate posting rest }
  | .activate posting rest =>
      if ∃ other ∈ others, posting.id ∈ other.activated.map (·.id) ∨ posting.id ∈ other.deleted then
        none
      else if posting.id ∈ tx.live db then some { tx with phase := .insert rest }
      else some { tx with activated := tx.activated ++ [posting], phase := .insert rest }
  | .owner [] => some { tx with phase := .record }
  | .owner (key :: keys) =>
      if ∃ other ∈ others, key.1 ∈ other.accounts then none
      else match db.accounts.lookup key.1 with
        | none => some { tx with phase := .owner keys }
        | some account => some { tx with
            accounts := key.1 :: tx.accounts
            phase := if account.forbidsOverdraft then .floor key keys else .owner keys }
  | .floor key keys =>
      let values := (order.arrange ((tx.live db).values.filter (·.key = key))).map (·.value)
      match Cent.checkedSum values with
      | .error _ => some (tx.finish (.error (.internal "monetary amount overflow")))
      | .ok projected =>
          if projected.isNegative then
            some (tx.finish (.ok (.rejected (.overdraftExceeded key.1 key.2 projected))))
          else some { tx with phase := .owner keys }
  | .record =>
      if ∃ other ∈ others, other.req.transferId = tx.req.transferId ∧ other.stored then none
      else some { tx with stored := decide (tx.req.transferId ∉ db.transfers), phase := .commit }
  | .commit | .ended _ => none

/-- What is committed once the writes of the transaction are. -/
def apply (tx : Transaction) (db : Database) : Database where
  accounts := db.accounts
  transfers := if tx.stored then db.transfers.insert tx.req.transferId tx.req.record else db.transfers
  postings := db.postings.insertAll (·.id) tx.inserted
  live := tx.live db

end Transaction

/-! ## The server -/

/-- What is committed, and every transaction begun so far. -/
structure Server where
  db : Database
  transactions : List Transaction

/-- What may happen next: a commit is called, one of the transactions sends its
next statement or is rolled back, as when its connection is lost, or an account is
created or given a new version. -/
inductive Action where
  | start (req : CommitRequest)
  | advance (index : Nat) (order : IterationOrder)
  | abort (index : Nat) (message : String)
  | putAccount (account : Account)

namespace Server

def empty : Server := ⟨.empty, []⟩

/-- The next step of a transaction beside the others. -/
def advance (order : IterationOrder) (db : Database) (others : List Transaction)
    (tx : Transaction) : Option (Database × Transaction) :=
  match tx.phase with
  | .commit => some (tx.apply db, tx.finish (.ok (.committed tx.req.record.receipt)))
  | _ => (tx.statement order db others).map (db, ·)

def act (server : Server) : Action → Server
  | .start req => { server with transactions := server.transactions ++ [.begin req] }
  | .advance index order =>
      match server.transactions[index]? with
      | none => server
      | some tx =>
          match advance order server.db (server.transactions.eraseIdx index) tx with
          | none => server
          | some (db, next) => ⟨db, server.transactions.set index next⟩
  | .abort index message =>
      match server.transactions[index]? with
      | none => server
      | some tx =>
          match tx.phase with
          | .ended _ => server
          | _ => { server with
              transactions := server.transactions.set index
                (tx.finish (.error (.internal message))) }
  | .putAccount account =>
      if ∃ tx ∈ server.transactions, account.id ∈ tx.accounts then server
      else { server with
        db := { server.db with accounts := server.db.accounts.insert account.id account } }

def run (server : Server) (actions : List Action) : Server := actions.foldl act server

@[simp] theorem run_nil (server : Server) : server.run [] = server := rfl

@[simp] theorem run_cons (server : Server) (action : Action) (actions : List Action) :
    server.run (action :: actions) = (server.act action).run actions := rfl

theorem run_append (server : Server) (first second : List Action) :
    server.run (first ++ second) = (server.run first).run second := List.foldl_append

end Server

end Kuatia.ReadCommitted
