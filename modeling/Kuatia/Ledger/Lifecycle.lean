import Kuatia.Ledger.Actions

/-! # Account lifecycle

Freeze, unfreeze and close each append one account version with changed flags,
together with the matching event.
-/

namespace Kuatia

variable [MoneyWidth]

open LedgerM

def createAccount (account : Account) : LedgerM Unit := do
  let inserted ← act fun _ store => store.createAccount account
  if inserted = 0 then throw (.accountAlreadyExists account.id)
  else do
    let now ← nowMillis
    let _ ← act fun choice store => store.appendEvent choice.clock
      { seq := 0, timestamp := now, kind := .accountCreated account.id }
    return ()

/-- The kinds of version a transition appends. -/
inductive LifecycleChange where
  | freeze
  | unfreeze
  | close
  deriving DecidableEq

namespace LifecycleChange

def mutate : LifecycleChange → AccountFlags → AccountFlags
  | .freeze, flags => flags.insert .FROZEN
  | .unfreeze, flags => flags.remove .FROZEN
  | .close, flags => (flags.insert .CLOSED).remove .FROZEN

def makeEvent : LifecycleChange → AccountId → UInt64 → LedgerEventKind
  | .freeze => .accountFrozen
  | .unfreeze => .accountUnfrozen
  | .close => .accountClosed

/-- The version that a change appends after `current`. -/
def nextVersion (change : LifecycleChange) (current : Account) : Account :=
  { current with version := current.version + 1, flags := change.mutate current.flags }

end LifecycleChange

def transitionResult : TransitionOutcome → Except LedgerError Unit
  | .applied | .alreadyApplied => .ok ()
  | .rejected (.alreadyClosed account) => .error (.accountAlreadyClosed account)
  | .rejected (.versionConflict account expected) =>
      .error (.accountVersionConflict account expected)

/-- Append one version to an account that is not closed. -/
def transition (id : AccountId) (change : LifecycleChange) : LedgerM Unit := do
  let current ← read fun _ store => store.getAccount id
  let current ← attempt (current.mapError fun _ => .accountNotFound id)
  if current.isClosed then throw (.accountAlreadyClosed id)
  else if current.version.toNat + 1 = 2 ^ 64 then throw .overflow
  else do
    let next := change.nextVersion current
    let now ← nowMillis
    let outcome ← act fun choice store => store.commitTransition choice.clock next
      { seq := 0, timestamp := now, kind := change.makeEvent id next.version }
    let outcome ← attempt (outcome.mapError .store)
    attempt (transitionResult outcome)

def freeze (id : AccountId) : LedgerM Unit := transition id .freeze

def unfreeze (id : AccountId) : LedgerM Unit := transition id .unfreeze

def hasLivePostings (account : AccountId) : LedgerM Bool := do
  let postings ← read fun order store =>
    store.getPostingsByAccount order account.id (some account.sub) none .live
  return !postings.isEmpty

/-- Close an account that owns no live posting. -/
def close (id : AccountId) : LedgerM Unit := do
  let live ← hasLivePostings id
  if live then throw (.accountNotEmpty id) else transition id .close

def createBook (book : Book) : LedgerM Unit := do
  let inserted ← act fun _ store => store.createBook book
  if inserted = 0 then throw (.bookAlreadyExists book.id) else return ()

end Kuatia
