import Kuatia.Ledger.Runs
import Kuatia.Storage.Sample

/-! # A small ledger to compute with

The hash keeps the last 32 bytes of its input, which tell the envelopes below
apart. Requests run one after the other, each with enough actions to return.
-/

namespace Kuatia.Sample

/-- The last 32 bytes, after as many zeros as are missing. -/
def lastBytes (data : List UInt8) : List UInt8 :=
  ((data.reverse ++ List.replicate 32 0).take 32).reverse

theorem length_lastBytes (data : List UInt8) : (lastBytes data).length = 32 := by
  simp [lastBytes]

scoped instance : Sha256 := ⟨fun data => ⟨(lastBytes data).toArray, length_lastBytes data⟩⟩

theorem lastBytes_append (before : List UInt8) {value : List UInt8} (hlength : value.length = 32) :
    lastBytes (before ++ value) = value := by
  simp [lastBytes, hlength]

/-- The hash depends on the last 32 bytes only. -/
theorem doubleSha256_append (before : List UInt8) {value : List UInt8}
    (hlength : value.length = 32) : doubleSha256 (before ++ value) = doubleSha256 value := by
  have hdigest : Sha256.digest (before ++ value) = Sha256.digest value := by
    apply Vector.toList_inj.mp
    exact (lastBytes_append before hlength).trans (lastBytes_append [] hlength).symm
  rw [doubleSha256, doubleSha256, hdigest]

theorem suffix_toBytes_single (key : String) (value : List UInt8) :
    value <:+ toBytes (Metadata.single key value) := by
  refine List.suffix_append_of_suffix ?_
  rw [Metadata.single, List.flatMap_singleton]
  exact List.suffix_append _ _

/-- An envelope whose metadata ends in 32 bytes has these bytes for an id. -/
theorem envelopeId_of_metadata {envelope : Envelope} {key : String} {value : List UInt8}
    (hmetadata : envelope.metadata = .single key value) (hlength : value.length = 32) :
    (envelopeId envelope).bytes.toList = value := by
  have hsuffix : value <:+ toBytes envelope := by
    refine List.suffix_append_of_suffix ?_
    rw [hmetadata]
    exact suffix_toBytes_single key value
  obtain ⟨before, hbytes⟩ := hsuffix
  have hdigest : (Sha256.digest (before ++ value)).toList = value := lastBytes_append before hlength
  have hagain : (Sha256.digest value).toList = value := lastBytes_append [] hlength
  rw [envelopeId, contentHash, doubleSha256, ← hbytes, hdigest, hagain]

def ledger : Ledger := ⟨60000, 128⟩

/-- The choice of a client at some fixed time. -/
def noon : Choice := ⟨.listed, some 1800000000000⟩

/-- The requests as calls that run one after the other. -/
def sequentially (requests : List Request) : List LedgerAction :=
  requests.zipIdx.flatMap fun (request, index) =>
    .start request :: List.replicate 40 (.advance index noon)

def accounts : List Request :=
  [.createAccount (.new external), .createAccount (.debitMustNotExceedCredit alice)]

/-- Money enters the ledger: the external account goes negative by `amount`. -/
def deposit (amount : Int64) : Transfer where
  movements := [⟨external, external, usd, .ofI64 (-amount)⟩, ⟨external, alice, usd, .ofI64 amount⟩]
  book := DEFAULT_BOOK
  metadata := .empty

def funded : List LedgerAction := sequentially (accounts ++ [.commit (deposit 5)])

/-- What a computed result tells of the value in it. -/
theorem exists_ok_of_any {α : Type} {result : Except LedgerError α} {check : α → Prop}
    [DecidablePred check] (hany : result.toOption.any (fun value => decide (check value)) = true) :
    ∃ value, result = .ok value ∧ check value := by
  cases result with
  | error err => cases hany
  | ok value => exact ⟨value, rfl, of_decide_eq_true hany⟩

end Kuatia.Sample
