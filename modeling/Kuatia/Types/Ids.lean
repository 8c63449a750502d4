import Mathlib.Order.Defs.LinearOrder
import Mathlib.Tactic.Common

/-! # Identifiers

Each identifier wraps an integer or a byte array. The orders are the derived,
lexicographic ones; the texts are what the identifiers print in error messages.
-/

namespace Kuatia

/-- A subaccount of a base account. `sub = 0` is the main account. -/
structure AccountId where
  id : Int64
  sub : Int64
  deriving DecidableEq

/-- The asset a posting is denominated in. -/
structure AssetId where
  id : UInt32
  deriving DecidableEq

/-- The content hash of an envelope. -/
structure EnvelopeId where
  bytes : Vector UInt8 32
  deriving DecidableEq

/-- A posting is named by the transfer that created it and its position there. -/
structure PostingId where
  transfer : EnvelopeId
  index : UInt16
  deriving DecidableEq

structure BookId where
  id : Int64
  deriving DecidableEq

structure ReservationId where
  id : Int64
  deriving DecidableEq

/-- The hash of one account version. -/
structure AccountSnapshotId where
  account : AccountId
  snapshotId : Vector UInt8 32
  deriving DecidableEq

def DEFAULT_BOOK : BookId := ⟨0⟩

/-- A balance is kept per subaccount and asset. -/
abbrev BalanceKey := AccountId × AssetId

namespace AccountId

/-- The main account of the same base id. -/
def base (account : AccountId) : AccountId := { account with sub := 0 }

instance : LE AccountId := ⟨fun a b => a.id < b.id ∨ a.id = b.id ∧ a.sub ≤ b.sub⟩

instance : DecidableRel fun a b : AccountId => a ≤ b := fun a b =>
  inferInstanceAs (Decidable (a.id < b.id ∨ a.id = b.id ∧ a.sub ≤ b.sub))

def debug (account : AccountId) : String :=
  if account.sub = 0 then s!"AccountId({account.id})"
  else s!"AccountId({account.id}.{account.sub})"

end AccountId

namespace BalanceKey

def le (a b : BalanceKey) : Prop := a.1 ≠ b.1 ∧ a.1 ≤ b.1 ∨ a.1 = b.1 ∧ a.2.id ≤ b.2.id

instance : DecidableRel le := fun a b =>
  inferInstanceAs (Decidable (a.1 ≠ b.1 ∧ a.1 ≤ b.1 ∨ a.1 = b.1 ∧ a.2.id ≤ b.2.id))

end BalanceKey

def hexDigit (digit : Nat) : Char := "0123456789abcdef".toList.getD digit '?'

/-- Two lower-case digits for every byte. -/
def hex (bytes : List UInt8) : String :=
  String.ofList <| bytes.flatMap fun byte => [hexDigit (byte.toNat / 16), hexDigit (byte.toNat % 16)]

def EnvelopeId.debug (id : EnvelopeId) : String := s!"EnvelopeId({hex id.bytes.toList})"

namespace PostingId

def le (a b : PostingId) : Prop :=
  a.transfer.bytes.toList < b.transfer.bytes.toList ∨ a.transfer = b.transfer ∧ a.index ≤ b.index

instance : DecidableRel le := fun a b =>
  inferInstanceAs (Decidable (a.transfer.bytes.toList < b.transfer.bytes.toList ∨
    a.transfer = b.transfer ∧ a.index ≤ b.index))

def debug (id : PostingId) : String :=
  s!"PostingId \x7b transfer: {id.transfer.debug}, index: {id.index} \x7d"

end PostingId

def BookId.debug (book : BookId) : String := s!"BookId({book.id})"

end Kuatia
