import Kuatia.Collections.Sorting
import Kuatia.Money
import Kuatia.Types.Account

/-! # Postings, envelopes and transfers

A posting is a signed amount of one asset owned by one account; it is created
once and consumed at most once. An envelope lists the postings it consumes and
creates. A transfer says what should move, without naming postings.
-/

namespace Kuatia

variable [MoneyWidth]

structure Posting where
  id : PostingId
  owner : AccountId
  asset : AssetId
  value : Cent
  deriving DecidableEq

/-- A posting before it has an id. `payer` records provenance only. -/
structure NewPosting where
  owner : AccountId
  asset : AssetId
  value : Cent
  payer : Option AccountId
  deriving DecidableEq

/-- Which of the postings of an account a query asks for. -/
inductive PostingFilter where
  | active
  | reserved
  | live
  | all
  deriving DecidableEq

/-- The resolved, atomic unit of change. -/
structure Envelope where
  consumes : List PostingId
  creates : List NewPosting
  accountSnapshots : List AccountSnapshotId
  book : BookId
  metadata : Metadata
  deriving DecidableEq

namespace Envelope

/-- The accounts that receive a posting. -/
def referencedAccounts (envelope : Envelope) : List AccountId :=
  (envelope.creates.map (·.owner)).sortDedup (· ≤ ·)

def setAccountSnapshots (envelope : Envelope) (snapshots : List AccountSnapshotId) : Envelope :=
  { envelope with accountSnapshots := snapshots }

end Envelope

/-- Proof of a committed transfer. -/
structure Receipt where
  transferId : EnvelopeId
  deriving DecidableEq

/-- Move `amount` of `asset` between two accounts. -/
structure Movement where
  fromAccount : AccountId
  toAccount : AccountId
  asset : AssetId
  amount : Cent
  deriving DecidableEq

/-- What a client asks for. -/
structure Transfer where
  movements : List Movement
  book : BookId
  metadata : Metadata
  deriving DecidableEq

end Kuatia
