import Kuatia.Types.Envelope

/-! # Canonical bytes and content hashes

Integers are big-endian, sequences are prefixed with their `u32` length, and
the preimages of envelopes and accounts start with a version byte. The `payer`
of a created posting is left out. SHA-256 is a parameter.
-/

namespace Kuatia

/-- The low `width` bytes of `v`, the most significant one first. -/
def beBytes : (width : Nat) → Nat → List UInt8
  | 0, _ => []
  | width + 1, v => UInt8.ofNat (v / 256 ^ width) :: beBytes width v

@[simp] theorem length_beBytes (width v : Nat) : (beBytes width v).length = width := by
  induction width with
  | zero => rfl
  | succ width ih => rw [beBytes, List.length_cons, ih]

class ToBytes (α : Type) where
  toBytes : α → List UInt8

export ToBytes (toBytes)

def CANONICAL_VERSION : UInt8 := 5

def writeU16 (v : UInt16) : List UInt8 := beBytes 2 v.toNat

def writeU32 (v : UInt32) : List UInt8 := beBytes 4 v.toNat

def writeU64 (v : UInt64) : List UInt8 := beBytes 8 v.toNat

def writeI64 (v : Int64) : List UInt8 := beBytes 8 v.toUInt64.toNat

/-- A `u32` length followed by the elements. -/
def writeList {α : Type} (write : α → List UInt8) (list : List α) : List UInt8 :=
  writeU32 (.ofNat list.length) ++ list.flatMap write

instance : ToBytes AccountId := ⟨fun account => writeI64 account.id ++ writeI64 account.sub⟩

instance : ToBytes AccountSnapshotId :=
  ⟨fun snapshot => toBytes snapshot.account ++ snapshot.snapshotId.toList⟩

instance : ToBytes AssetId := ⟨fun asset => writeU32 asset.id⟩

instance : ToBytes EnvelopeId := ⟨fun id => id.bytes.toList⟩

instance : ToBytes PostingId := ⟨fun id => id.transfer.bytes.toList ++ writeU16 id.index⟩

instance : ToBytes AccountFlags := ⟨fun flags => writeU32 flags.bits⟩

instance : ToBytes BookId := ⟨fun book => writeI64 book.id⟩

instance : ToBytes Metadata := ⟨fun metadata =>
  writeList (fun (key, value) =>
    let keyBytes := key.toUTF8.toList
    writeU32 (.ofNat keyBytes.length) ++ keyBytes ++ writeU32 (.ofNat value.length) ++ value)
    metadata.entries⟩

instance : ToBytes Account := ⟨fun account =>
  [CANONICAL_VERSION] ++ toBytes account.id ++ writeU64 account.version ++ toBytes account.flags ++
    toBytes account.book ++ toBytes account.metadata⟩

section Money

variable [MoneyWidth]

/-- The amount sign-extended to 16 bytes, whatever its backing. -/
instance : ToBytes Cent := ⟨fun amount => beBytes 16 (amount.val % 2 ^ 128).toNat⟩

instance : ToBytes NewPosting :=
  ⟨fun posting => toBytes posting.owner ++ toBytes posting.asset ++ toBytes posting.value⟩

instance : ToBytes Envelope := ⟨fun envelope =>
  [CANONICAL_VERSION] ++ writeList toBytes envelope.consumes ++ writeList toBytes envelope.creates ++
    writeList toBytes envelope.accountSnapshots ++ toBytes envelope.book ++
    toBytes envelope.metadata⟩

end Money

/-! ## Content hashes -/

/-- The hash function behind every content id. -/
class Sha256 where
  digest : List UInt8 → Vector UInt8 32

variable [Sha256]

def doubleSha256 (data : List UInt8) : Vector UInt8 32 :=
  Sha256.digest (Sha256.digest data).toList

def contentHash (data : List UInt8) : EnvelopeId := ⟨doubleSha256 data⟩

def envelopeId [MoneyWidth] (envelope : Envelope) : EnvelopeId := contentHash (toBytes envelope)

def accountHash (account : Account) : Vector UInt8 32 := doubleSha256 (toBytes account)

/-- The snapshot id of an account version. -/
def accountSnapshotId (account : Account) : AccountSnapshotId :=
  ⟨account.id, accountHash account⟩

end Kuatia
