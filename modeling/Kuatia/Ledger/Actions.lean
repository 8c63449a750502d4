import Kuatia.Interleaving.Pool
import Kuatia.Core.PostingResolution
import Kuatia.Storage.MemStore

/-! # The actions of a ledger client

A ledger operation is a program whose actions are single store operations or
readings of the clock; all other work happens between them. Each action finds
the store as the other clients have left it, and comes with the choices it does
not make itself: what the clock shows and how hash maps are iterated.
-/

namespace Kuatia

variable [MoneyWidth]

inductive LedgerError where
  | validation (err : ValidationError)
  | store (err : StoreError)
  | selection (err : InsufficientFunds)
  | transferNotFound (id : EnvelopeId)
  | doubleSpend (id : PostingId)
  | accountNotFound (account : AccountId)
  | accountNotEmpty (account : AccountId)
  | accountAlreadyClosed (account : AccountId)
  | accountAlreadyExists (account : AccountId)
  | accountVersionConflict (account : AccountId) (expected : UInt64)
  | bookNotFound (book : BookId)
  | bookAlreadyExists (book : BookId)
  | inflightNotFound (id : EnvelopeId)
  | notInflightTransaction (id : EnvelopeId)
  | inflightAlreadyOpen (account : AccountId)
  | inflightLegNotFound (destination : AccountId) (asset : AssetId)
  | inflightSelfMovement (account : AccountId)
  | overflow
  | underFetchedState (account : AccountId) (asset : AssetId)
  | compensationFailed (original compensation : LedgerError)
  deriving DecidableEq

namespace LedgerError

/-- `From<OverflowError> for LedgerError`. -/
def ofOverflow (_ : OverflowError) : LedgerError := .overflow

/-- `From<ResolveError> for LedgerError`. -/
def ofResolve : ResolveError → LedgerError
  | .selection insufficient => .selection insufficient
  | .overflow => .overflow

end LedgerError

/-- What an action does not decide itself. -/
structure Choice where
  order : IterationOrder
  clock : Clock

instance : Nonempty Choice := ⟨⟨.listed, none⟩⟩

/-- The shared store, and what the clock showed at the last action. -/
structure World where
  store : InMemoryStore
  clock : Clock

/-- A ledger operation that may fail. -/
abbrev LedgerM (α : Type) := ExceptT LedgerError (Async Choice World) α

namespace LedgerM

/-- One store operation. -/
def act {α : Type} (body : Choice → InMemoryStore → α × InMemoryStore) : LedgerM α :=
  ExceptT.lift <| Async.atomic fun choice world =>
    ((body choice world.store).1, ⟨(body choice world.store).2, choice.clock⟩)

/-- One store operation that changes nothing. -/
def read {α : Type} (query : IterationOrder → InMemoryStore → α) : LedgerM α :=
  act fun choice store => (query choice.order store, store)

/-- Go on with the value of a local computation, or fail with its error. -/
def attempt {α : Type} (result : Except LedgerError α) : LedgerM α :=
  ExceptT.mk (.done result)

/-- A local computation that iterates hash maps. -/
def compute {α : Type} (result : IterationOrder → Except LedgerError α) : LedgerM α := do
  let result ← read fun order _ => result order
  attempt result

/-- Milliseconds since the Unix epoch. -/
def nowMillis : LedgerM Int64 := do
  let clock ← act fun choice store => (choice.clock, store)
  match clock with
  | some ms => return ms
  | none => throw .overflow

/-- What a program returns, failures included. -/
def outcome {α : Type} (program : LedgerM α) : LedgerM (Except LedgerError α) :=
  ExceptT.lift program.run

end LedgerM

end Kuatia
