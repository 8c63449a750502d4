import Kuatia.Ledger.Commit

/-! # Several transfers as one workflow

The movements are committed one after the other. At the first commit that fails,
the transfers committed before it are reversed, the last one first.
-/

namespace Kuatia

open LedgerM

variable [MoneyWidth]

namespace Saga

structure PayInput where
  fromAccount : AccountId
  toAccount : AccountId
  asset : AssetId
  amount : Cent
  deriving DecidableEq

structure DepositInput where
  toAccount : AccountId
  asset : AssetId
  amount : Cent
  external : AccountId
  deriving DecidableEq

inductive Movement where
  | pay (input : PayInput)
  | deposit (input : DepositInput)
  deriving DecidableEq

/-- The transfer that a movement commits. A deposit takes the negated amount from
the external account first. -/
def Movement.build : Movement → Except LedgerError Transfer
  | .pay input => .ok {
      movements := [⟨input.fromAccount, input.toAccount, input.asset, input.amount⟩]
      book := DEFAULT_BOOK
      metadata := .empty }
  | .deposit input => do
      let negated ← input.amount.checkedNeg.mapError .ofOverflow
      return {
        movements := [⟨input.external, input.external, input.asset, negated⟩,
          ⟨input.external, input.toAccount, input.asset, input.amount⟩]
        book := DEFAULT_BOOK
        metadata := .empty }

variable [Sha256]

/-- Reverse the transfers in this order, then fail with `original`. -/
def compensate (original : LedgerError) : List Receipt → LedgerM (List Receipt)
  | [] => throw original
  | receipt :: rest => do
      let reversed ← outcome (reverse receipt.transferId)
      match reversed with
      | .error compensation => throw (.compensationFailed original compensation)
      | .ok _ => compensate original rest

/-- Go on after the transfers that are committed already. -/
def runFrom (receipts : List Receipt) : List Movement → LedgerM (List Receipt)
  | [] => return receipts
  | movement :: rest => do
      let transfer ← attempt movement.build
      let committed ← outcome (commit transfer)
      match committed with
      | .ok receipt => runFrom (receipts ++ [receipt]) rest
      | .error err => compensate err receipts.reverse

def runMovements (movements : List Movement) : LedgerM (List Receipt) := runFrom [] movements

end Saga

end Kuatia
