import Kuatia.Inflight.Operations
import Kuatia.Ledger.System
import Kuatia.Saga.RunMovements

/-! # Clients of the whole service

Besides the operations of the ledger itself, the clients may hold funds inflight
and run workflows of several transfers, all over one shared store.
-/

namespace Kuatia

open Interleaving LedgerM

variable [MoneyWidth] [Sha256] [Cbor]

inductive ServiceRequest where
  | ledger (request : Request)
  | authorize (transfer : Transfer)
  | confirmAll (inflight : EnvelopeId)
  | confirm (inflight : EnvelopeId) (confirms : Transfer)
  | void (inflight : EnvelopeId)
  | inflightStatus (inflight : EnvelopeId)
  | runMovements (movements : List Saga.Movement)
  deriving DecidableEq

inductive ServiceResponse where
  | ledger (response : Response)
  | authorization (authorization : Authorization)
  | receipts (receipts : List Receipt)
  | status (status : InflightStatus)

namespace Ledger

variable (ledger : Ledger)

/-- The program that answers a request. -/
def serve : ServiceRequest → LedgerM ServiceResponse
  | .ledger request => return .ledger (← ledger.operation request)
  | .authorize transfer => return .authorization (← Kuatia.authorize transfer)
  | .confirmAll inflight => return .receipts (← Kuatia.confirmAll inflight)
  | .confirm inflight confirms => return .receipts (← Kuatia.confirm inflight confirms)
  | .void inflight => return .receipts (← Kuatia.void inflight)
  | .inflightStatus inflight => return .status (← Kuatia.inflightStatus inflight)
  | .runMovements movements => return .receipts (← Saga.runMovements movements)

def service (request : ServiceRequest) : Async Choice World (Except LedgerError ServiceResponse) :=
  (ledger.serve request).run

end Ledger

abbrev ServicePool := Pool ServiceRequest Choice World (Except LedgerError ServiceResponse)

abbrev ServiceAction := Action ServiceRequest Choice

/-- The empty store, before any call. -/
def ServicePool.initial : ServicePool := ⟨⟨.new, none⟩, []⟩

/-- The pool after a run from the empty store. -/
def ServicePool.after (ledger : Ledger) (actions : List ServiceAction) : ServicePool :=
  Pool.run ledger.service ServicePool.initial actions

/-- The store after a run. -/
abbrev servedStore (ledger : Ledger) (actions : List ServiceAction) : InMemoryStore :=
  (ServicePool.after ledger actions).shared.store

end Kuatia
