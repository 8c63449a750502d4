import Kuatia.Types.Canonical

/-! # What a store holds and answers

The records of the store, the instructions a commit hands to it, and the
verdicts it returns. The time-window filter and the page cut of transfer
queries are shared by every backend.
-/

namespace Kuatia

variable [MoneyWidth]

inductive StoreError where
  | notFound (message : String)
  | internal (message : String)
  deriving DecidableEq

/-! ## Events -/

inductive LedgerEventKind where
  | transferCommitted (transferId : EnvelopeId)
  | accountCreated (account : AccountId)
  | accountFrozen (account : AccountId) (version : UInt64)
  | accountUnfrozen (account : AccountId) (version : UInt64)
  | accountClosed (account : AccountId) (version : UInt64)
  deriving DecidableEq

structure LedgerEvent where
  seq : UInt64
  timestamp : Int64
  kind : LedgerEventKind
  deriving DecidableEq

/-- The idempotency key of an event: appending an event whose key is present is
a no-op. A created account has no key. -/
def eventDedupKey : LedgerEventKind → Option String
  | .transferCommitted transferId => some (hex transferId.bytes.toList)
  | .accountFrozen account version | .accountUnfrozen account version
  | .accountClosed account version => some s!"acct:{account.id}:{account.sub}:{version}"
  | .accountCreated _ => none

/-! ## Transfers -/

structure EnvelopeRecord where
  envelope : Envelope
  receipt : Receipt
  createdAt : Int64
  deriving DecidableEq

structure TransferQuery where
  account : Option Int64
  sub : Option Int64
  fromTs : Option Int64
  toTs : Option Int64
  book : Option BookId
  limit : Option UInt32
  offset : Option UInt32

structure Page (α : Type) where
  items : List α
  total : UInt64

/-- Keep the transfers in the time window `[fromTs, toTs)` and the book. -/
def filterTransfers (records : List EnvelopeRecord) (query : TransferQuery) :
    List EnvelopeRecord :=
  records.filter fun record =>
    query.fromTs.all (fun start => start ≤ record.createdAt) &&
      query.toTs.all (fun stop => record.createdAt < stop) &&
      query.book.all (fun book => record.envelope.book = book)

/-- An absent offset is zero; an absent limit is the largest `u32`. -/
def window (offset limit : Option UInt32) : UInt32 × UInt32 :=
  (offset.getD 0, limit.getD (.ofNat (2 ^ 32 - 1)))

def paginate {α : Type} (records : List α) (offset limit : Option UInt32) : Page α :=
  let (offset, limit) := window offset limit
  { items := (records.drop offset.toNat).take limit.toNat
    total := .ofNat records.length }

/-! ## The cached balance -/

/-- A balance that covers every transfer up to its watermark. -/
structure BalanceProjection where
  id : Int64
  account : AccountId
  asset : AssetId
  balance : Cent
  watermark : Int64
  deriving DecidableEq

/-! ## The atomic commit -/

/-- The validated effects that the store applies in one transaction. -/
structure CommitRequest where
  transferId : EnvelopeId
  consume : List PostingId
  create : List Posting
  record : EnvelopeRecord
  involved : List AccountId
  event : LedgerEvent

inductive CommitRejection where
  | doubleSpend (id : PostingId)
  | accountFrozen (account : AccountId)
  | accountClosed (account : AccountId)
  | overdraftExceeded (account : AccountId) (asset : AssetId) (projected : Cent)
  deriving DecidableEq

inductive CommitOutcome where
  | committed (receipt : Receipt)
  | alreadyCommitted (receipt : Receipt)
  | rejected (reason : CommitRejection)
  deriving DecidableEq

inductive TransitionRejection where
  | alreadyClosed (account : AccountId)
  | versionConflict (account : AccountId) (expected : UInt64)
  deriving DecidableEq

inductive TransitionOutcome where
  | applied
  | alreadyApplied
  | rejected (reason : TransitionRejection)
  deriving DecidableEq

end Kuatia
