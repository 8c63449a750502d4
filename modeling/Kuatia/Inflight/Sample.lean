import Kuatia.Collections.Codec
import Kuatia.Ledger.Sample
import Kuatia.Service.System

/-! # A service to compute with

A plain encoding of the inflight payloads that reads back what it writes. What it
writes for a trade ends in 32 bytes that start with the amount, so the holds of a
payment are the subaccounts named after its amount.
-/

namespace Kuatia.Sample

def int64Codec : Codec Int64 :=
  (Codec.word 8).via (fun value => ⟨value.toUInt64.toNat, value.toUInt64.toNat_lt⟩)
    (fun word => (UInt64.ofNat word).toInt64) fun value => by simp

def accountCodec : Codec AccountId :=
  (int64Codec.pair int64Codec).via (fun account => (account.id, account.sub))
    (fun parts => ⟨parts.1, parts.2⟩) fun _ => rfl

def assetCodec : Codec AssetId :=
  (Codec.word 4).via (fun asset => ⟨asset.id.toNat, asset.id.toNat_lt⟩)
    (fun word => ⟨UInt32.ofNat word⟩) fun asset => by simp

def centCodec : Codec Cent :=
  int64Codec.via (fun amount => Int64.ofInt amount.val) Cent.ofI64 fun amount => by
    have hmin : -2 ^ 63 ≤ amount.val := amount.min_le
    have hmax : amount.val ≤ 2 ^ 63 - 1 := amount.le_max
    apply Cent.ext
    change (Int64.ofInt amount.val).toInt = amount.val
    exact Int64.toInt_ofInt_of_le hmin (by omega)

/-- The id of thirty-two zeros stands for lists of another length. -/
def envelopeIdCodec : Codec EnvelopeId :=
  (Codec.byte.list).via (fun id => id.bytes.toList)
    (fun bytes => if hlength : bytes.length = 32 then ⟨⟨bytes.toArray, hlength⟩⟩
      else ⟨.replicate 32 0⟩) fun id => by
    obtain ⟨⟨bytes, hsize⟩⟩ := id
    simp [hsize]

def legCodec : Codec InflightLeg :=
  ((accountCodec.pair accountCodec).pair (accountCodec.pair (assetCodec.pair centCodec))).via
    (fun leg => ((leg.destination, leg.hold), (leg.funder, (leg.asset, leg.amount))))
    (fun parts => ⟨parts.1.1, parts.1.2, parts.2.1, parts.2.2.1, parts.2.2.2⟩) fun _ => rfl

def metaCodec : Codec InflightMeta :=
  ((legCodec.list.sum accountCodec).sum
    ((envelopeIdCodec.pair accountCodec).sum (envelopeIdCodec.pair accountCodec))).via
    (fun
      | .authorize legs => .inl (.inl legs)
      | .hold destination => .inl (.inr destination)
      | .confirm tx destination => .inr (.inl (tx, destination))
      | .void tx destination => .inr (.inr (tx, destination)))
    (fun
      | .inl (.inl legs) => .authorize legs
      | .inl (.inr destination) => .hold destination
      | .inr (.inl (tx, destination)) => .confirm tx destination
      | .inr (.inr (tx, destination)) => .void tx destination)
    fun payload => by cases payload <;> rfl

/-- The amount, the destination and the asset of each movement. -/
def writeTransfer (transfer : Transfer) : List UInt8 :=
  transfer.movements.flatMap fun movement =>
    centCodec.write movement.amount ++ accountCodec.write movement.toAccount ++
      (Codec.word 8).write ⟨movement.asset.id.toNat, by
        have := movement.asset.id.toNat_lt
        omega⟩

scoped instance : Cbor where
  writeMeta payload := .ok (metaCodec.write payload)
  readMeta bytes := (metaCodec.read bytes).map Prod.fst
  writeTransfer
  read_write payload := by
    have hread := metaCodec.read_write payload []
    rw [List.append_nil] at hread
    exact ⟨_, rfl, by simp [hread]⟩

/-- The requests as calls that run one after the other. -/
def inTurn (requests : List ServiceRequest) : List ServiceAction :=
  requests.zipIdx.flatMap fun (request, index) =>
    .start request :: List.replicate 60 (.advance index noon)

def pay (fromAccount toAccount : AccountId) (amount : Int64) : Transfer where
  movements := [⟨fromAccount, toAccount, usd, .ofI64 amount⟩]
  book := DEFAULT_BOOK
  metadata := .empty

def opening : List ServiceRequest :=
  [.ledger (.createAccount (.new external)), .ledger (.createAccount (.debitMustNotExceedCredit alice)),
    .ledger (.createAccount (.new bob))]

/-- One more request is started when all others have returned. -/
theorem inTurn_append (requests : List ServiceRequest) (request : ServiceRequest) :
    inTurn (requests ++ [request]) = inTurn requests ++
      .start request :: (List.replicate 60 noon).map (.advance requests.length) := by
  simp [inTurn, List.zipIdx_append]

theorem mem_of_start_inTurn {requests : List ServiceRequest} {request : ServiceRequest}
    (hstart : .start request ∈ inTurn requests) : request ∈ requests := by
  obtain ⟨⟨other, index⟩, hmem, haction⟩ := List.mem_flatMap.mp hstart
  rcases List.mem_cons.mp haction with heq | hadvance
  · cases heq
    exact (List.mem_zipIdx' hmem).2 ▸ List.getElem_mem _
  · cases List.eq_of_mem_replicate hadvance

/-- The trades that are to be authorized. -/
def tradesOf (requests : List ServiceRequest) : List Transfer :=
  requests.filterMap fun
    | .authorize transfer => some transfer
    | _ => none

/-- The id of some stored transfer; in a run that stores one it is the only one. -/
def storedIn (actions : List ServiceAction) : EnvelopeId :=
  (servedStore ledger actions).transfers.keys.headD ⟨.replicate 32 0⟩

/-- The error of a call that failed. -/
def failure {α : Type} : Except LedgerError α → Option LedgerError
  | .ok _ => none
  | .error err => some err

theorem exists_of_no_failure {α : Type} {result : Except LedgerError α}
    (hfailure : failure result = none) : ∃ value, result = .ok value := by
  cases result with
  | ok value => exact ⟨value, rfl⟩
  | error err => cases hfailure

theorem eq_error_of_failure {α : Type} {result : Except LedgerError α} {err : LedgerError}
    (hfailure : failure result = some err) : result = .error err := by
  cases result with
  | ok value => cases hfailure
  | error other =>
      cases hfailure
      rfl

end Kuatia.Sample
