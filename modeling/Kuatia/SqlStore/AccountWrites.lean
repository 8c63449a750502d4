import Kuatia.Interleaving.Transactions
import Kuatia.Storage.Calls

/-! # Account writes as transactions of separate statements

An account is created, extended or moved along its lifecycle in a transaction under
READ COMMITTED. The versions of an account are rows that are never changed, and its
head says which one is the latest. The head is moved by a delete and an insert, so a
statement that has waited for its lock no longer finds the row that it has seen.

Rows are kept as the values that their columns encode. The event of a transition is
left out, as no statement reads it; a commit that locks a head only delays the others.
-/

namespace Kuatia.AccountWrites

open Interleaving

/-- What is committed: the versions by account and number, and the heads. -/
structure Database where
  versions : HashMap (AccountId × UInt64) Account
  head : HashMap AccountId UInt64

namespace Database

def empty : Database := ⟨∅, ∅⟩

/-- `get_account` joins the head with its version. -/
def getAccount (db : Database) (id : AccountId) : Except StoreError Account :=
  match (db.head.lookup id).bind fun version => db.versions.lookup (id, version) with
  | some account => .ok account
  | none => .error (.notFound s!"account {id.debug}")

end Database

/-- What is called: `create_account`, `append_account_version` or `commit_transition`. -/
inductive Call where
  | create (account : Account)
  | append (account : Account)
  | transition (next : Account) (event : LedgerEvent)
  deriving DecidableEq

def Call.account : Call → Account
  | .create account | .append account | .transition account _ => account

/-- What is returned: a number of rows, or the outcome of a transition. -/
inductive Answer where
  | rows (count : Nat)
  | outcome (outcome : TransitionOutcome)
  deriving DecidableEq

/-- The statement that comes next. A head that has been seen has to be locked. -/
inductive Phase where
  | read
  | lock (version : UInt64)
  | insertVersion
  | deleteHead
  | insertHead
  | commit
  | ended (result : Except StoreError Answer)

/-- A transaction, with whether it has locked the head and what it has written. -/
structure Transaction where
  call : Call
  phase : Phase
  locked : Bool
  written : Bool
  deleted : Bool
  headed : Bool

namespace Transaction

def begin (call : Call) : Transaction := ⟨call, .read, false, false, false, false⟩

def id (tx : Transaction) : AccountId := tx.call.account.id

/-- The key of the version that is inserted. -/
def key (tx : Transaction) : AccountId × UInt64 := (tx.id, tx.call.account.version)

/-- A transaction that has ended holds nothing. -/
def finish (result : Except StoreError Answer) (tx : Transaction) : Transaction :=
  ⟨tx.call, .ended result, false, false, false, false⟩

def missing (id : AccountId) : StoreError := .internal s!"transition: account {id.debug} missing"

def overflow : StoreError := .internal "account version overflow"

/-- What the database says when a head is inserted beside another one. -/
def uniqueViolation : StoreError := .internal "UNIQUE constraint failed: account_head"

/-- The head that the first statement finds. That of a transition joins the version. -/
def headOf (db : Database) (tx : Transaction) : Option UInt64 :=
  match tx.call with
  | .create _ | .append _ => db.head.lookup tx.id
  | .transition _ _ => (db.head.lookup tx.id).filter fun version => (tx.id, version) ∈ db.versions

/-- No head is found. -/
def absent (tx : Transaction) : Transaction :=
  match tx.call with
  | .create _ => { tx with phase := .insertVersion }
  | .append _ => tx.finish (.ok (.rows 0))
  | .transition next _ => tx.finish (.error (missing next.id))

/-- The head is found, and locked if the version is to be moved on. -/
def found (db : Database) (version : UInt64) (tx : Transaction) : Transaction :=
  match tx.call with
  | .create _ => tx.finish (.ok (.rows 0))
  | .append account =>
      if version.toInt64 = Int64.maxValue then tx.finish (.error overflow)
      else if account.version ≠ version + 1 then tx.finish (.ok (.rows 0))
      else { tx with locked := true, phase := .insertVersion }
  | .transition next _ =>
      match db.versions.lookup (next.id, version) with
      | none => tx.finish (.error (missing next.id))
      | some current =>
          if current.isClosed then
            tx.finish (.ok (.outcome (.rejected (.alreadyClosed next.id))))
          else if next.version ≤ current.version then tx.finish (.ok (.outcome .alreadyApplied))
          else if current.version.toNat + 1 = 2 ^ 64 then tx.finish (.error overflow)
          else if next.version ≠ current.version + 1 then
            tx.finish (.ok (.outcome (.rejected (.versionConflict next.id next.version))))
          else { tx with locked := true, phase := .insertVersion }

/-- The version is there already. Only an appended one is counted. -/
def taken (tx : Transaction) : Transaction :=
  match tx.call with
  | .create _ => { tx with phase := .insertHead }
  | .append _ => tx.finish (.ok (.rows 0))
  | .transition _ _ => { tx with phase := .deleteHead }

/-- The statement after the version has been inserted. -/
def afterVersion (call : Call) : Phase :=
  match call with
  | .create _ => .insertHead
  | .append _ | .transition _ _ => .deleteHead

/-- The head of another version is in the way. -/
def occupied (tx : Transaction) : Transaction :=
  match tx.call with
  | .create _ => tx.finish (.ok (.rows 0))
  | .append _ | .transition _ _ => tx.finish (.error uniqueViolation)

/-- The next statement of an open transaction beside the others. There is none while
it waits for a row that another one holds. -/
def statement (db : Database) (others : List Transaction) (tx : Transaction) :
    Option Transaction :=
  match tx.phase with
  | .read =>
      match tx.headOf db with
      | none => some tx.absent
      | some version => some { tx with phase := .lock version }
  | .lock version =>
      if ∃ other ∈ others, other.id = tx.id ∧ other.locked then none
      -- a head that has been moved meanwhile is gone
      else if db.head.lookup tx.id = some version then some (tx.found db version)
      else some tx.absent
  | .insertVersion =>
      if ∃ other ∈ others, other.key = tx.key ∧ other.written then none
      else if tx.key ∈ db.versions then some tx.taken
      else some { tx with written := true, phase := afterVersion tx.call }
  | .deleteHead =>
      if ∃ other ∈ others, other.id = tx.id ∧ other.locked then none
      else some { tx with deleted := true, phase := .insertHead }
  | .insertHead =>
      if ∃ other ∈ others, other.id = tx.id ∧ (other.deleted ∨ other.headed) then none
      else if tx.id ∈ db.head ∧ ¬tx.deleted then some tx.occupied
      else some { tx with headed := true, phase := .commit }
  | .commit | .ended _ => none

/-- What is committed once the writes of the transaction are. -/
def apply (tx : Transaction) (db : Database) : Database where
  versions := if tx.written then db.versions.insert tx.key tx.call.account else db.versions
  head := if tx.headed then db.head.insert tx.id tx.call.account.version else db.head

/-- The answer of a transaction that is committed. -/
def success : Call → Answer
  | .create _ | .append _ => .rows 1
  | .transition _ _ => .outcome .applied

/-- The next step: a statement, the commit, or a rollback for some reason, as when the
connection is lost. A commit records its call. -/
def step (failure : Option String) (db : Database) (others : List Transaction)
    (tx : Transaction) : Option (Database × Transaction × Option Call) :=
  match tx.phase, failure with
  | .ended _, _ => none
  | _, some message => some (db, tx.finish (.error (.internal message)), none)
  | .commit, none => some (tx.apply db, tx.finish (.ok (success tx.call)), some tx.call)
  | _, none => (tx.statement db others).map fun next => (db, next, none)

end Transaction

/-- The transactions of any number of clients on one database. -/
def system : TransactionSystem Database Transaction Call (Option String) Call :=
  ⟨.begin, Transaction.step⟩

abbrev Server := TransactionServer Database Transaction Call

abbrev Action := TransactionAction Call (Option String)

def Server.empty : Server := ⟨.empty, [], []⟩

end Kuatia.AccountWrites
