import Kuatia.Ledger.Actions

/-! # The inflight projection

The authorize transfer carries its leg table in the metadata, and every settling
transfer names the inflight it settles. Grouping the legs by hold, the status of
an inflight and the shares of its funders are derived from these records. The
CBOR encoding of the records is a parameter.
-/

namespace Kuatia

variable [MoneyWidth]

/-- An amount of an asset that `funder` has parked in `hold` for `destination`. -/
structure InflightLeg where
  destination : AccountId
  hold : AccountId
  funder : AccountId
  asset : AssetId
  amount : Cent
  deriving DecidableEq

def InflightLeg.key (leg : InflightLeg) : BalanceKey := (leg.hold, leg.asset)

/-- What the metadata of a transfer or of a holding account says about its part
in an inflight. -/
inductive InflightMeta where
  | authorize (legs : List InflightLeg)
  | hold (destination : AccountId)
  | confirm (tx : EnvelopeId) (destination : AccountId)
  | void (tx : EnvelopeId) (destination : AccountId)
  deriving DecidableEq

/-- The CBOR library. Writing a payload never fails, and reading takes it back. -/
class Cbor where
  writeMeta : InflightMeta → Except String (List UInt8)
  readMeta : List UInt8 → Option InflightMeta
  writeTransfer : Transfer → List UInt8
  read_write : ∀ payload, ∃ bytes, writeMeta payload = .ok bytes ∧ readMeta bytes = some payload

def K_INFLIGHT : String := "inflight"

/-! ## Metadata -/

section Metadata

variable [Cbor]

def encodeMeta (payload : InflightMeta) : Except LedgerError (List UInt8) :=
  (Cbor.writeMeta payload).mapError fun message => .store (.internal message)

/-- A fresh map that holds one payload. -/
def metaMap (payload : InflightMeta) : Except LedgerError Metadata := do
  let bytes ← encodeMeta payload
  return Metadata.empty.insert K_INFLIGHT bytes

/-- The payload of a metadata map; nothing if it is absent or malformed. -/
def readMeta (metadata : Metadata) : Option InflightMeta := do
  let bytes ← metadata.get K_INFLIGHT
  Cbor.readMeta bytes

/-- A payload that was written into a map is read back from it. -/
theorem exists_encodeMeta (payload : InflightMeta) : ∃ bytes, encodeMeta payload = .ok bytes ∧
    ∀ metadata : Metadata, readMeta (metadata.insert K_INFLIGHT bytes) = some payload := by
  obtain ⟨bytes, hwrite, hread⟩ := Cbor.read_write payload
  refine ⟨bytes, by rw [encodeMeta, hwrite]; rfl, fun metadata => ?_⟩
  rw [readMeta, Metadata.get_insert_self]
  exact hread

theorem readMeta_of_encodeMeta {payload : InflightMeta} {bytes : List UInt8}
    (hbytes : encodeMeta payload = .ok bytes) (metadata : Metadata) :
    readMeta (metadata.insert K_INFLIGHT bytes) = some payload := by
  obtain ⟨written, hwritten, hread⟩ := exists_encodeMeta payload
  cases hbytes.symm.trans hwritten
  exact hread metadata

theorem readMeta_of_metaMap {payload : InflightMeta} {metadata : Metadata}
    (hmap : metaMap payload = .ok metadata) : readMeta metadata = some payload := by
  obtain ⟨bytes, hbytes, hpure⟩ := Except.bind_eq_ok_iff.mp hmap
  cases hpure
  exact readMeta_of_encodeMeta hbytes _

end Metadata

/-! ## Grouping the legs by hold -/

/-- A holding account with its destination and the assets it carries. -/
structure HoldGroup where
  hold : AccountId
  destination : AccountId
  assets : List AssetId

def holdsOf (legs : List InflightLeg) : List AccountId := (legs.map (·.hold)).sortDedup (· ≤ ·)

def assetsOf (legs : List InflightLeg) (hold : AccountId) : List AssetId :=
  ((legs.filter (·.hold = hold)).map (·.asset)).sortDedup fun a b => a.id ≤ b.id

def destinationOf (legs : List InflightLeg) (hold : AccountId) (inflight : EnvelopeId) :
    Except LedgerError AccountId :=
  match legs.find? (·.hold = hold) with
  | some leg => .ok leg.destination
  | none => .error (.notInflightTransaction inflight)

def groupHolds (legs : List InflightLeg) (inflight : EnvelopeId) :
    Except LedgerError (List HoldGroup) :=
  (holdsOf legs).mapM fun hold => do
    let destination ← destinationOf legs hold inflight
    return { hold, destination, assets := assetsOf legs hold }

/-! ## The status -/

/-- The status of one hold and asset. -/
structure InflightLegStatus where
  destination : AccountId
  hold : AccountId
  asset : AssetId
  authorized : Cent
  confirmed : Cent
  voided : Cent
  held : Cent
  deriving DecidableEq

inductive InflightState where
  | held
  | partiallyConfirmed
  | confirmed
  | voided
  | mixed
  deriving DecidableEq

structure InflightStatus where
  inflight : EnvelopeId
  legs : List InflightLegStatus
  state : InflightState
  deriving DecidableEq

def overallState (lines : List InflightLegStatus) : InflightState :=
  let anyHeld := lines.any (·.held.isPositive)
  let anyConfirmed := lines.any (·.confirmed.isPositive)
  let anyVoided := lines.any (·.voided.isPositive)
  match anyHeld, anyConfirmed, anyVoided with
  | true, false, false => .held
  | true, _, _ => .partiallyConfirmed
  | false, true, true => .mixed
  | false, false, true => .voided
  | false, _, false => .confirmed

/-- What has been settled so far, per hold and asset. -/
structure SettledTotals where
  confirmed : Totals BalanceKey
  voided : Totals BalanceKey

/-- What a transfer gives to accounts other than the hold; the rest is change. -/
def settledPostings (hold : AccountId) (record : EnvelopeRecord) : List NewPosting :=
  record.envelope.creates.filter (·.owner ≠ hold)

variable [Cbor]

/-- Count one transfer of a hold, if its metadata says that it settles. -/
def countRecord (hold : AccountId) (totals : SettledTotals) (record : EnvelopeRecord) :
    Except OverflowError SettledTotals :=
  match readMeta record.envelope.metadata with
  | some (.confirm _ _) => do
      let confirmed ← totals.confirmed.addAll (fun posting => (hold, posting.asset))
        NewPosting.value (settledPostings hold record)
      return { totals with confirmed }
  | some (.void _ _) => do
      let voided ← totals.voided.addAll (fun posting => (hold, posting.asset))
        NewPosting.value (settledPostings hold record)
      return { totals with voided }
  | _ => .ok totals

/-- What the status is derived from. -/
structure StatusInput where
  inflight : EnvelopeId
  legs : List InflightLeg
  holdHistory : List (AccountId × List EnvelopeRecord)
  held : Totals BalanceKey

/-- The transfers that were fetched for a hold. -/
def StatusInput.historyOf (input : StatusInput) (hold : AccountId) : List EnvelopeRecord :=
  (((HashMap.insertAll ∅ Prod.fst input.holdHistory).lookup hold).map Prod.snd).getD []

def deriveStatus (input : StatusInput) : Except LedgerError InflightStatus := do
  let groups ← groupHolds input.legs input.inflight
  let authorized ← (Totals.addAll ∅ InflightLeg.key InflightLeg.amount input.legs).mapError
    .ofOverflow
  let totals ← (groups.foldlM (fun totals group =>
    (input.historyOf group.hold).foldlM (countRecord group.hold) totals)
    (⟨∅, ∅⟩ : SettledTotals)).mapError .ofOverflow
  let lines := groups.flatMap fun group => group.assets.map fun asset => {
    destination := group.destination
    hold := group.hold
    asset
    authorized := authorized.get (group.hold, asset)
    confirmed := totals.confirmed.get (group.hold, asset)
    voided := totals.voided.get (group.hold, asset)
    held := input.held.get (group.hold, asset) : InflightLegStatus }
  return { inflight := input.inflight, legs := lines, state := overallState lines }

/-! ## The shares of the funders -/

structure FunderPayout where
  funder : AccountId
  give : Cent
  deriving DecidableEq

/-- Raise the cap of the last funder. -/
def liftLast : List (AccountId × Cent) → List (AccountId × Cent)
  | [] => []
  | [(funder, _)] => [(funder, .ofI64 Int64.maxValue)]
  | head :: tail => head :: liftLast tail

def payOut : List (AccountId × Cent) → Cent → Except OverflowError (List FunderPayout)
  | [], _ => .ok []
  | (funder, cap) :: rest, remaining =>
      if !remaining.isPositive then .ok []
      else
        let give := if cap < remaining then cap else remaining
        if give.isPositive then do
          let remaining ← remaining.checkedSub give
          let payouts ← payOut rest remaining
          return ⟨funder, give⟩ :: payouts
        else payOut rest remaining

/-- Split what remains in a hold among its funders in the order of the legs, each
up to what it funded, and the last one without that limit. -/
def distributeToFunders (legs : List InflightLeg) (hold : AccountId) (asset : AssetId)
    (remaining : Cent) : Except OverflowError (List FunderPayout) :=
  payOut (liftLast ((legs.filter fun leg => leg.hold = hold ∧ leg.asset = asset).map
    fun leg => (leg.funder, leg.amount))) remaining

end Kuatia
