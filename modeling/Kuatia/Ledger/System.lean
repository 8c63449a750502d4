import Kuatia.Ledger.Commit
import Kuatia.Ledger.Lifecycle

/-! # Clients of one ledger

Any number of clients call the ledger at the same time. A run is a sequence of
actions of their calls over the shared store, starting from the empty store.
-/

namespace Kuatia

open Interleaving

variable [MoneyWidth] [Sha256]

/-- What a client may ask for. `spawnAppend` is the background task of a balance
read; `resolve` and `balance` only read. -/
inductive Request where
  | createAccount (account : Account)
  | createBook (book : Book)
  | resolve (transfer : Transfer)
  | commit (transfer : Transfer)
  | commitEnvelope (envelope : Envelope)
  | reverse (id : EnvelopeId)
  | freeze (id : AccountId)
  | unfreeze (id : AccountId)
  | close (id : AccountId)
  | computeBalance (account : AccountId) (asset : AssetId)
  | balance (account : AccountId) (asset : AssetId)
  | spawnAppend (account : AccountId) (asset : AssetId)
  | appendCachePoint (account : AccountId) (asset : AssetId)
  deriving DecidableEq

/-- What a call returns. -/
inductive Response where
  | unit
  | receipt (receipt : Receipt)
  | envelope (envelope : Envelope)
  | cent (value : Cent)

namespace Ledger

variable (ledger : Ledger)

/-- The program that answers a request. -/
def operation : Request → LedgerM Response
  | .createAccount account => do Kuatia.createAccount account; return .unit
  | .createBook book => do Kuatia.createBook book; return .unit
  | .resolve transfer => return .envelope (← Kuatia.resolve transfer)
  | .commit transfer => return .receipt (← Kuatia.commit transfer)
  | .commitEnvelope envelope => return .receipt (← Kuatia.commitEnvelope envelope)
  | .reverse id => return .receipt (← Kuatia.reverse id)
  | .freeze id => do Kuatia.freeze id; return .unit
  | .unfreeze id => do Kuatia.unfreeze id; return .unit
  | .close id => do Kuatia.close id; return .unit
  | .computeBalance account asset => return .cent (← Kuatia.computeBalance account asset)
  | .balance account asset => return .cent (← Ledger.balance account asset)
  | .spawnAppend account asset => do ledger.spawnAppend account asset; return .unit
  | .appendCachePoint account asset => do ledger.appendCachePoint account asset; return .unit

def program (request : Request) : Async Choice World (Except LedgerError Response) :=
  (ledger.operation request).run

end Ledger

/-- The shared world and the calls in progress. -/
abbrev LedgerPool := Pool Request Choice World (Except LedgerError Response)

abbrev LedgerAction := Action Request Choice

/-- The empty store, before any call. -/
def LedgerPool.initial : LedgerPool := ⟨⟨.new, none⟩, []⟩

/-- The pool after a run from the empty store. -/
def LedgerPool.after (ledger : Ledger) (actions : List LedgerAction) : LedgerPool :=
  Pool.run ledger.program LedgerPool.initial actions

end Kuatia
