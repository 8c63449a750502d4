import Kuatia.Storage.Records

/-! # A few accounts, postings and commits to compute with

Amounts are `i64`. A commit is built from what it consumes and creates; it
involves the given accounts.
-/

namespace Kuatia.Sample

scoped instance : MoneyWidth := ⟨.i64⟩

/-- An account that may be overdrawn. -/
def external : AccountId := ⟨1, 0⟩

/-- An account that forbids overdraft. -/
def alice : AccountId := ⟨2, 0⟩

/-- Another account that may be overdrawn. -/
def bob : AccountId := ⟨3, 0⟩

def usd : AssetId := ⟨840⟩

/-- The id whose bytes are all the same. -/
def transferOf (byte : UInt8) : EnvelopeId := ⟨.replicate 32 byte⟩

/-- A posting of some usd. -/
def postingOf (transfer : UInt8) (index : UInt16) (owner : AccountId) (value : Int64) : Posting :=
  ⟨⟨transferOf transfer, index⟩, owner, usd, .ofI64 value⟩

/-- The commit of a transfer at some millisecond. -/
def commitOf (transfer : UInt8) (createdAt : Int64) (consume : List PostingId)
    (create : List Posting) (involved : List AccountId) : CommitRequest where
  transferId := transferOf transfer
  consume := consume
  create := create
  record :=
    { envelope :=
        { consumes := consume
          creates := create.map fun posting => ⟨posting.owner, posting.asset, posting.value, none⟩
          accountSnapshots := []
          book := DEFAULT_BOOK
          metadata := .empty }
      receipt := ⟨transferOf transfer⟩
      createdAt }
  involved := involved
  event := ⟨0, createdAt, .transferCommitted (transferOf transfer)⟩

end Kuatia.Sample
