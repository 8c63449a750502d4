import Kuatia.Amount
import Kuatia.Collections.Loops
import Kuatia.Sql.Table
import Kuatia.Storage.Records
import Kuatia.Types.Hex

/-! # Rows and their codecs

Ids are stored as lower-case hex text, amounts as decimal text, indexes, assets
and flags as signed integers of the same width, and payloads as JSON text. The
JSON library is a parameter: it reads what it has written.
-/

namespace Kuatia

/-! ## Ids as hex -/

section Hex

def hexValue (char : Char) : Option Nat :=
  if '0' ≤ char ∧ char ≤ '9' then some (char.toNat - '0'.toNat)
  else if 'a' ≤ char ∧ char ≤ 'f' then some (char.toNat - 'a'.toNat + 10)
  else if 'A' ≤ char ∧ char ≤ 'F' then some (char.toNat - 'A'.toNat + 10)
  else none

/-- `u8::from_str_radix(pair, 16)`: a plus sign counts as no digit. -/
def hexPair (high low : Char) : Option UInt8 :=
  if high = '+' then (hexValue low).map UInt8.ofNat
  else (hexValue high).bind fun high => (hexValue low).map fun low => .ofNat (16 * high + low)

def hexPairs : List Char → Except StoreError (List UInt8)
  | high :: low :: rest =>
      match hexPair high low with
      | some byte => (hexPairs rest).map (byte :: ·)
      | none => .error (.internal "bad hex: invalid digit found in string")
  | _ => .ok []

def fromHex (text : String) : Except StoreError (List UInt8) :=
  if text.length % 2 ≠ 0 then .error (.internal s!"odd-length hex: {repr text}")
  else hexPairs text.toList

def envelopeIdToHex (id : EnvelopeId) : String := hex id.bytes.toList

def envelopeIdFromHex (text : String) : Except StoreError EnvelopeId := do
  let bytes ← fromHex text
  if hlength : bytes.length = 32 then
    .ok ⟨⟨bytes.toArray, by simpa using hlength⟩⟩
  else .error (.internal s!"expected 32-byte id, got {bytes.length} bytes")

theorem hexPair_hexDigit (byte : UInt8) :
    hexPair (hexDigit (byte.toNat / 16)) (hexDigit (byte.toNat % 16)) = some byte := by
  have hall : ∀ value : Fin 256,
      hexPair (hexDigit (value.val / 16)) (hexDigit (value.val % 16)) = some (.ofNat value.val) := by
    decide +kernel
  rw [hall ⟨byte.toNat, byte.toNat_lt⟩, UInt8.ofNat_toNat]

theorem hexPairs_hex (bytes : List UInt8) : hexPairs (hex bytes).toList = .ok bytes := by
  rw [toList_hex]
  induction bytes with
  | nil => rfl
  | cons byte bytes ih =>
      rw [List.flatMap_cons]
      simp only [List.cons_append, List.nil_append, hexPairs, hexPair_hexDigit, ih]
      rfl

theorem length_hex (bytes : List UInt8) : (hex bytes).length = 2 * bytes.length := by
  rw [← String.length_toList, toList_hex, List.length_flatMap]
  simp [Nat.mul_comm]

theorem fromHex_hex (bytes : List UInt8) : fromHex (hex bytes) = .ok bytes := by
  rw [fromHex, if_neg (by simp [length_hex]), hexPairs_hex]

theorem envelopeIdFromHex_toHex (id : EnvelopeId) :
    envelopeIdFromHex (envelopeIdToHex id) = .ok id := by
  rw [envelopeIdFromHex, envelopeIdToHex, fromHex_hex, Except.bind_eq_ok_iff]
  refine ⟨_, rfl, ?_⟩
  rw [dif_pos (by simp)]
  have hbytes : Vector.mk id.bytes.toList.toArray (by simp) = id.bytes :=
    Vector.toArray_inj.mp (Array.toArray_toList ..)
  rw [hbytes]

theorem envelopeIdToHex_inj {first second : EnvelopeId} :
    envelopeIdToHex first = envelopeIdToHex second ↔ first = second := by
  constructor
  · intro heq
    have hread := envelopeIdFromHex_toHex first
    rw [heq, envelopeIdFromHex_toHex] at hread
    exact (Except.ok.inj hread).symm
  · exact congrArg _

end Hex

variable [MoneyWidth]

/-! ## Payloads as JSON -/

/-- Writing a value as text and reading it back. -/
structure JsonCodec (Text α : Type) where
  write : α → Text
  read : Text → Except StoreError α
  read_write : ∀ value, read (write value) = .ok value

/-- The JSON library, for the payloads that the store keeps. -/
class Json where
  Text : Type
  metadata : JsonCodec Text Metadata
  envelope : JsonCodec Text Envelope
  receipt : JsonCodec Text Receipt
  event : JsonCodec Text LedgerEvent

/-! ## Postings -/

/-- The primary key of a posting: `(transfer_id, idx)`. -/
abbrev PostingKey := String × Int16

instance PostingKey.lawfulBEq : LawfulBEq PostingKey := inferInstance

structure PostingRow where
  transferId : String
  idx : Int16
  owner : Int64
  subaccount : Int64
  asset : Int32
  value : String
  deriving DecidableEq

/-- A live posting; `reservation` is null while it is active. -/
structure LivePostingRow where
  row : PostingRow
  reservation : Option Int64
  deriving DecidableEq

def PostingRow.key (row : PostingRow) : PostingKey := (row.transferId, row.idx)

def LivePostingRow.key (live : LivePostingRow) : PostingKey := live.row.key

def PostingId.key (id : PostingId) : PostingKey := (envelopeIdToHex id.transfer, id.index.toInt16)

/-- The columns that an insert binds for a posting. -/
def Posting.toRow (posting : Posting) : PostingRow where
  transferId := envelopeIdToHex posting.id.transfer
  idx := posting.id.index.toInt16
  owner := posting.owner.id
  subaccount := posting.owner.sub
  asset := posting.asset.id.toInt32
  value := posting.value.toText

def rowToPosting (row : PostingRow) : Except StoreError Posting := do
  let value ← match Cent.fromStr row.value with
    | some value => .ok value
    | none => .error (.internal "invalid monetary amount")
  let transfer ← envelopeIdFromHex row.transferId
  .ok { id := ⟨transfer, row.idx.toUInt16⟩
        owner := ⟨row.owner, row.subaccount⟩
        asset := ⟨row.asset.toUInt32⟩
        value }

omit [MoneyWidth] in
theorem PostingId.key_inj {first second : PostingId} : first.key = second.key ↔ first = second := by
  constructor
  · intro heq
    have htransfer := envelopeIdToHex_inj.mp (congrArg Prod.fst heq)
    have hindex : first.index = second.index := by
      have hidx : first.index.toInt16 = second.index.toInt16 := congrArg Prod.snd heq
      rw [← UInt16.toUInt16_toInt16 first.index, hidx, UInt16.toUInt16_toInt16]
    cases first
    cases second
    simp_all
  · exact congrArg _

@[simp] theorem Posting.key_toRow (posting : Posting) : posting.toRow.key = posting.id.key := rfl

/-- A stored posting is read back as it was. -/
@[simp] theorem rowToPosting_toRow (posting : Posting) : rowToPosting posting.toRow = .ok posting := by
  simp [rowToPosting, Posting.toRow, Cent.fromStr_toText, envelopeIdFromHex_toHex, bind,
    Except.bind]

end Kuatia
