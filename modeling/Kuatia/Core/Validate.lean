import Kuatia.Types.Canonical

/-! # Validation

`validateAndPlan` decides from loaded state whether an envelope may be applied,
and says what applying it consumes and creates. It is pure; the only choice it
leaves open is the order in which its hash maps and sets are iterated, which
can change the reported error but not whether there is one.
-/

namespace Kuatia

variable [MoneyWidth]

/-- The loaded state that validation reads. -/
structure PlanInput where
  envelope : Envelope
  consumedPostings : List Posting
  accounts : HashMap AccountId Account
  balances : HashMap BalanceKey Cent
  book : Option Book

structure Plan where
  transferId : EnvelopeId
  postingsToDeactivate : List PostingId
  postingsToCreate : List Posting
  deriving DecidableEq

namespace Posting

def key (posting : Posting) : BalanceKey := (posting.owner, posting.asset)

end Posting

namespace NewPosting

def key (posting : NewPosting) : BalanceKey := (posting.owner, posting.asset)

end NewPosting

/-! ## The state that validation needs -/

structure RequiredState where
  consumedPostings : List PostingId
  accounts : List AccountId
  balances : List BalanceKey

structure PostingKeys where
  owners : List AccountId
  balances : List BalanceKey

def postingKeys (envelope : Envelope) (consumedPostings : List Posting) : PostingKeys where
  owners := (envelope.creates.map (·.owner) ++ consumedPostings.map (·.owner)).sortDedup (· ≤ ·)
  balances := (envelope.creates.map (·.key) ++ consumedPostings.map (·.key)).sortDedup BalanceKey.le

def requiredState (envelope : Envelope) (consumedPostings : List Posting) : RequiredState :=
  let keys := postingKeys envelope consumedPostings
  { consumedPostings := envelope.consumes
    accounts := (keys.owners ++ envelope.accountSnapshots.map (·.account)).sortDedup (· ≤ ·)
    balances := keys.balances }

/-! ## Errors -/

inductive ValidationError where
  | emptyTransfer
  | duplicateConsumedPosting (id : PostingId)
  | postingNotFound (id : PostingId)
  | accountNotFound (account : AccountId)
  | accountFrozen (account : AccountId)
  | accountClosed (account : AccountId)
  | conservationViolation (asset : AssetId) (consumedSum createdSum : Cent)
  | overdraftExceeded (account : AccountId) (asset : AssetId) (projected : Cent)
  | accountVersionMismatch (account : AccountId) (expected actual : Vector UInt8 32)
  | negativePostingOnNonSystemAccount (account : AccountId) (asset : AssetId) (value : Cent)
  | bookAssetNotAllowed (book : BookId) (asset : AssetId)
  | bookAccountNotAllowed (book : BookId) (account : AccountId)
  | overflow
  deriving DecidableEq

/-- `From<OverflowError> for ValidationError`. -/
def ValidationError.ofOverflow (_ : OverflowError) : ValidationError := .overflow

/-! ## The checks, in their order -/

/-- 1. Non-empty. -/
def checkNonEmpty (envelope : Envelope) : Except ValidationError Unit :=
  if envelope.consumes = [] ∧ envelope.creates = [] then .error .emptyTransfer else .ok ()

/-- 2. No posting is consumed twice. -/
def checkNoDuplicates : (seen consumes : List PostingId) → Except ValidationError Unit
  | _, [] => .ok ()
  | seen, pid :: rest =>
      if pid ∈ seen then .error (.duplicateConsumedPosting pid)
      else checkNoDuplicates (pid :: seen) rest

/-- The consumed postings by id; of two postings with one id the later one stays. -/
def consumedById (consumedPostings : List Posting) : HashMap PostingId Posting :=
  HashMap.insertAll ∅ (·.id) consumedPostings

/-- 3. Every consumed posting exists. The later checks index the postings by the
consumed ids again, so the postings found here are what they see. -/
def findConsumed (input : PlanInput) : Except ValidationError (List Posting) :=
  input.envelope.consumes.mapM fun pid =>
    match (consumedById input.consumedPostings).lookup pid with
    | some posting => .ok posting
    | none => .error (.postingNotFound pid)

/-- A loaded account; after check 5 the owners of all postings are loaded. -/
def PlanInput.account (input : PlanInput) (account : AccountId) : Except ValidationError Account :=
  match input.accounts.lookup account with
  | some version => .ok version
  | none => .error (.accountNotFound account)

def PlanInput.owners (input : PlanInput) : List AccountId :=
  (postingKeys input.envelope input.consumedPostings).owners

/-- 5. Every owner exists and is neither frozen nor closed. -/
def checkAccounts (input : PlanInput) : Except ValidationError Unit :=
  input.owners.forM fun id => do
    let account ← input.account id
    if account.isFrozen then .error (.accountFrozen id)
    else if account.isClosed then .error (.accountClosed id)
    else .ok ()

/-- 5b. Every pinned account version is the loaded one. -/
def checkSnapshots [Sha256] (input : PlanInput) : Except ValidationError Unit :=
  input.envelope.accountSnapshots.forM fun snapshot => do
    let account ← input.account snapshot.account
    let actual := accountHash account
    if snapshot.snapshotId ≠ actual then
      .error (.accountVersionMismatch snapshot.account snapshot.snapshotId actual)
    else .ok ()

def checkBookAssets (order : IterationOrder) (envelope : Envelope) (consumed : List Posting)
    (book : Book) : Except ValidationError Unit :=
  if book.policy.allowedAssets = [] then .ok ()
  else
    let referencedAssets := (consumed.map (·.asset) ++ envelope.creates.map (·.asset)).dedup
    (order.arrange referencedAssets).forM fun asset =>
      if asset ∈ book.policy.allowedAssets then .ok ()
      else .error (.bookAssetNotAllowed book.id asset)

def checkBookAccounts (input : PlanInput) (book : Book) : Except ValidationError Unit :=
  if book.policy.allowedAccounts = [] ∧ book.policy.allowedFlags.isEmpty then .ok ()
  else
    input.owners.forM fun id => do
      let account ← input.account id
      let listed := decide (id.base ∈ book.policy.allowedAccounts)
      let flagMatch := !book.policy.allowedFlags.isEmpty &&
        account.flags.intersects book.policy.allowedFlags
      if listed || flagMatch then .ok () else .error (.bookAccountNotAllowed book.id id)

/-- 5c. A loaded book restricts the assets and the accounts. -/
def checkBook (order : IterationOrder) (input : PlanInput) (consumed : List Posting) :
    Except ValidationError Unit :=
  match input.book with
  | none => .ok ()
  | some book => do
      checkBookAssets order input.envelope consumed book
      checkBookAccounts input book

/-- 6. Per asset, what is consumed equals what is created. -/
def checkConservation (order : IterationOrder) (envelope : Envelope) (consumed : List Posting) :
    Except ValidationError Unit := do
  let consumedByAsset ← (Totals.addAll ∅ (·.asset) (·.value) consumed).mapError
    ValidationError.ofOverflow
  let createdByAsset ← (Totals.addAll ∅ (·.asset) (·.value) envelope.creates).mapError
    ValidationError.ofOverflow
  let allAssets := (consumedByAsset.keys ++ createdByAsset.keys).dedup
  (order.arrange allAssets).forM fun asset =>
    if consumedByAsset.get asset = createdByAsset.get asset then .ok ()
    else .error (.conservationViolation asset (consumedByAsset.get asset) (createdByAsset.get asset))

/-- 7. A negative posting needs an owner that may be overdrawn. -/
def checkNegativePostings (input : PlanInput) : Except ValidationError Unit :=
  input.envelope.creates.forM fun posting =>
    if posting.value.isNegative then do
      let account ← input.account posting.owner
      if account.forbidsOverdraft then
        .error (.negativePostingOnNonSystemAccount posting.owner posting.asset posting.value)
      else .ok ()
    else .ok ()

/-- How the envelope changes each balance it touches. -/
def balanceDeltas (envelope : Envelope) (consumed : List Posting) :
    Except OverflowError (Totals BalanceKey) := do
  let totals ← Totals.subAll ∅ Posting.key Posting.value consumed
  totals.addAll NewPosting.key NewPosting.value envelope.creates

/-- 8. No account that forbids overdraft is projected below zero. A balance that
was not loaded counts as zero. -/
def checkOverdraft (order : IterationOrder) (input : PlanInput) (consumed : List Posting) :
    Except ValidationError Unit := do
  let deltas ← (balanceDeltas input.envelope consumed).mapError ValidationError.ofOverflow
  (order.arrange deltas.entries).forM fun entry => do
    let account ← input.account entry.1.1
    if !account.forbidsOverdraft then .ok ()
    else
      let current := (input.balances.lookup entry.1).getD .ZERO
      let projected ← (current.checkedAdd entry.2).mapError ValidationError.ofOverflow
      if projected.isNegative then .error (.overdraftExceeded entry.1.1 entry.1.2 projected)
      else .ok ()

/-- The postings an envelope creates. Their index is a `u16`, so it wraps. -/
def createdPostings (tid : EnvelopeId) (creates : List NewPosting) : List Posting :=
  creates.mapIdx fun i posting =>
    ⟨⟨tid, UInt16.ofNat i⟩, posting.owner, posting.asset, posting.value⟩

/-- The ids of the postings that a transfer created, by position. -/
def createdPostingIds (tid : EnvelopeId) (creates : List NewPosting) : List PostingId :=
  creates.mapIdx fun i _ => ⟨tid, UInt16.ofNat i⟩

def planOf [Sha256] (envelope : Envelope) : Plan where
  transferId := envelopeId envelope
  postingsToDeactivate := envelope.consumes
  postingsToCreate := createdPostings (envelopeId envelope) envelope.creates

/-- The single entry point for all ledger invariant checks. -/
def validateAndPlan [Sha256] (order : IterationOrder) (input : PlanInput) :
    Except ValidationError Plan := do
  checkNonEmpty input.envelope
  checkNoDuplicates [] input.envelope.consumes
  let consumed ← findConsumed input
  checkAccounts input
  checkSnapshots input
  checkBook order input consumed
  checkConservation order input.envelope consumed
  checkNegativePostings input
  checkOverdraft order input consumed
  return planOf input.envelope

end Kuatia
