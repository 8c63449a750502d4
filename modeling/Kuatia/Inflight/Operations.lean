import Kuatia.Inflight.Projection
import Kuatia.Ledger.Commit
import Kuatia.Ledger.Lifecycle
import Kuatia.Types.AccountCode

/-! # Inflight holds

Authorizing a trade pays every movement into a hold of its destination, a fresh
subaccount that forbids overdraft. Confirming and voiding are ordinary commits
that pay out of the holds, to the destinations or back to the funders. A hold is
closed once it is drained.
-/

namespace Kuatia

open LedgerM

variable [MoneyWidth] [Sha256] [Cbor]

structure Authorization where
  inflight : EnvelopeId
  legs : List InflightLeg

inductive SettleRole where
  | confirm
  | void
  deriving DecidableEq

/-- The payload of a settling transfer. -/
def SettleRole.payload (inflight : EnvelopeId) (destination : AccountId) : SettleRole → InflightMeta
  | .confirm => .confirm inflight destination
  | .void => .void inflight destination

/-- The subaccount that the holds of a trade share. -/
def inflightSubaccount (transfer : Transfer) : Int64 :=
  let hash := doubleSha256 (Cbor.writeTransfer transfer)
  let first := (hash.toList.take 8).foldl (fun value byte => value * 256 + byte.toNat) 0
  (UInt64.ofNat first &&& (((1 : UInt64) <<< SUB_BITS) - 1)).toInt64

/-! ## Authorizing -/

/-- The hold of a destination. It shares the base id only. -/
def holdOf (sub : Int64) (destination : AccountId) : AccountId := ⟨destination.id, sub⟩

/-- The destinations of a trade in the order in which their holds are created. -/
def destinationsOf (transfer : Transfer) : List AccountId :=
  (transfer.movements.map (·.toAccount)).sortDedup (· ≤ ·)

def holdAccount (book : BookId) (hold destination : AccountId) : Except LedgerError Account := do
  let metadata ← metaMap (.hold destination)
  return { Account.new hold with
    flags := AccountFlags.INFLIGHT.insert .DEBIT_MUST_NOT_EXCEED_CREDIT, book, metadata }

/-- An account that exists already means that the trade is inflight. -/
def openedAs (hold : AccountId) : LedgerError → LedgerError
  | .accountAlreadyExists _ => .inflightAlreadyOpen hold
  | err => err

def openHold (book : BookId) (sub : Int64) (destination : AccountId) : LedgerM Unit := do
  let hold := holdOf sub destination
  let account ← attempt (holdAccount book hold destination)
  ExceptT.adapt (openedAs hold) (createAccount account)

def legOf (sub : Int64) (movement : Movement) : InflightLeg where
  destination := movement.toAccount
  hold := holdOf sub movement.toAccount
  funder := movement.fromAccount
  asset := movement.asset
  amount := movement.amount

/-- The movement into the hold instead of the destination. -/
def parked (sub : Int64) (movement : Movement) : Movement :=
  { movement with toAccount := holdOf sub movement.toAccount }

/-- The transfer that parks the funds of a trade and records its legs. -/
def parkingTransfer (transfer : Transfer) (sub : Int64) (payload : List UInt8) : Transfer where
  movements := transfer.movements.map (parked sub)
  book := transfer.book
  metadata := transfer.metadata.insert K_INFLIGHT payload

def authorize (transfer : Transfer) : LedgerM Authorization := do
  let sub := inflightSubaccount transfer
  match transfer.movements.find? (fun movement => movement.fromAccount = movement.toAccount) with
  | some movement => throw (.inflightSelfMovement movement.fromAccount)
  | none => do
      (destinationsOf transfer).forM (openHold transfer.book sub)
      let legs := transfer.movements.map (legOf sub)
      let payload ← attempt (encodeMeta (.authorize legs))
      let receipt ← commit (parkingTransfer transfer sub payload)
      return ⟨receipt.transferId, legs⟩

/-! ## Settling -/

/-- The authorize transfer and its leg table. -/
def loadInflight (inflight : EnvelopeId) : LedgerM (EnvelopeRecord × List InflightLeg) := do
  let record ← read fun _ store => store.getTransfer inflight
  match record with
  | none => throw (.inflightNotFound inflight)
  | some record =>
      match readMeta record.envelope.metadata with
      | some (.authorize legs) => return (record, legs)
      | _ => throw (.notInflightTransaction inflight)

/-- Pay out of a hold. -/
def settle (book : BookId) (inflight : EnvelopeId) (hold target destination : AccountId)
    (asset : AssetId) (amount : Cent) (role : SettleRole) : LedgerM Receipt := do
  let metadata ← attempt (metaMap (role.payload inflight destination))
  commit { movements := [⟨hold, target, asset, amount⟩], book, metadata }

/-- Close a hold that owns no live posting. -/
def closeIfDrained (hold : AccountId) : LedgerM Unit := do
  let live ← hasLivePostings hold
  if live then return ()
  else do
    let account ← read fun _ store => store.getAccount hold
    let account ← attempt (account.mapError fun _ => .accountNotFound hold)
    if account.isClosed then return () else close hold

/-- Pay what is left of one asset of a hold to its destination. -/
def sweepAsset (book : BookId) (inflight : EnvelopeId) (group : HoldGroup)
    (receipts : List Receipt) (asset : AssetId) : LedgerM (List Receipt) := do
  let balance ← Ledger.balance group.hold asset
  if balance.isPositive then do
    let receipt ← settle book inflight group.hold group.destination group.destination asset
      balance .confirm
    return receipts ++ [receipt]
  else return receipts

/-- Pay everything left in a hold to its destination, and close it. -/
def sweepGroup (book : BookId) (inflight : EnvelopeId) (receipts : List Receipt)
    (group : HoldGroup) : LedgerM (List Receipt) := do
  let receipts ← group.assets.foldlM (sweepAsset book inflight group) receipts
  closeIfDrained group.hold
  return receipts

def confirmAll (inflight : EnvelopeId) : LedgerM (List Receipt) := do
  let (record, legs) ← loadInflight inflight
  let groups ← attempt (groupHolds legs inflight)
  groups.foldlM (sweepGroup record.envelope.book inflight) []

/-- Settle one movement of a partial confirm, and remember its hold. -/
def confirmMovement (book : BookId) (inflight : EnvelopeId) (legs : List InflightLeg)
    (state : List Receipt × List AccountId) (movement : Movement) :
    LedgerM (List Receipt × List AccountId) := do
  match legs.find? (fun leg => leg.funder = movement.fromAccount ∧
      leg.destination = movement.toAccount ∧ leg.asset = movement.asset) with
  | none => throw (.inflightLegNotFound movement.toAccount movement.asset)
  | some leg => do
      let held ← Ledger.balance leg.hold movement.asset
      if held < movement.amount then throw (.selection ⟨held, movement.amount⟩)
      else do
        let receipt ← settle book inflight leg.hold movement.toAccount movement.toAccount
          movement.asset movement.amount .confirm
        return (state.1 ++ [receipt], state.2 ++ [leg.hold])

def confirm (inflight : EnvelopeId) (confirms : Transfer) : LedgerM (List Receipt) := do
  let (record, legs) ← loadInflight inflight
  let (receipts, touched) ←
    confirms.movements.foldlM (confirmMovement record.envelope.book inflight legs) ([], [])
  (touched.sortDedup (· ≤ ·)).forM closeIfDrained
  return receipts

/-- Give what is left of one asset of a hold back to its funders. -/
def returnAsset (book : BookId) (inflight : EnvelopeId) (legs : List InflightLeg)
    (group : HoldGroup) (receipts : List Receipt) (asset : AssetId) :
    LedgerM (List Receipt) := do
  let remaining ← Ledger.balance group.hold asset
  let payouts ← attempt
    ((distributeToFunders legs group.hold asset remaining).mapError .ofOverflow)
  payouts.foldlM (fun receipts payout => do
    let receipt ← settle book inflight group.hold payout.funder group.destination asset
      payout.give .void
    return receipts ++ [receipt]) receipts

/-- Give everything left in a hold back to its funders, and close it. -/
def returnGroup (book : BookId) (inflight : EnvelopeId) (legs : List InflightLeg)
    (receipts : List Receipt) (group : HoldGroup) : LedgerM (List Receipt) := do
  let receipts ← group.assets.foldlM (returnAsset book inflight legs group) receipts
  closeIfDrained group.hold
  return receipts

def void (inflight : EnvelopeId) : LedgerM (List Receipt) := do
  let (record, legs) ← loadInflight inflight
  let groups ← attempt (groupHolds legs inflight)
  groups.foldlM (returnGroup record.envelope.book inflight legs) []

/-! ## The status -/

def history (account : AccountId) : LedgerM (List EnvelopeRecord) :=
  read fun order store => store.getTransfersForAccount order account.id (some account.sub)

/-- Fetch the history of a hold and the balances of its assets. -/
def fetchGroup (fetched : List (AccountId × List EnvelopeRecord) × Totals BalanceKey)
    (group : HoldGroup) : LedgerM (List (AccountId × List EnvelopeRecord) × Totals BalanceKey) := do
  let records ← history group.hold
  let held ← group.assets.foldlM (fun held asset => do
    let balance ← Ledger.balance group.hold asset
    return held.insert (group.hold, asset) balance) fetched.2
  return (fetched.1 ++ [(group.hold, records)], held)

def inflightStatus (inflight : EnvelopeId) : LedgerM InflightStatus := do
  let (_, legs) ← loadInflight inflight
  let groups ← attempt (groupHolds legs inflight)
  let (holdHistory, held) ← groups.foldlM fetchGroup ([], ∅)
  attempt (deriveStatus { inflight, legs, holdHistory, held })

end Kuatia
