import Kuatia.Ledger.Balance

/-! # Resolve, validate, commit, reverse

Every commit resolves a transfer into an envelope, validates it against loaded
state, and hands the effects to the store, which checks the stateful guards
again in the same step that applies them.
-/

namespace Kuatia

variable [MoneyWidth] [Sha256]

open LedgerM

/-- The state that validation reads. -/
structure LoadedState where
  consumedPostings : List Posting
  accounts : HashMap AccountId Account
  balances : HashMap BalanceKey Cent
  book : Option Book

def getPostings (ids : List PostingId) : LedgerM (List Posting) := do
  if ids = [] then return []
  let postings ← read fun _ store => store.getPostings ids
  attempt (postings.mapError .store)

def getAccounts (ids : List AccountId) : LedgerM (List Account) := do
  let accounts ← read fun _ store => store.getAccounts ids
  attempt (accounts.mapError .store)

def loadBalances (keys : List BalanceKey) : LedgerM (HashMap BalanceKey Cent) :=
  keys.foldlM (fun balances key => do
    let balance ← computeBalance key.1 key.2
    return balances.insert key balance) ∅

/-- A missing default book restricts nothing; any other missing book is an error. -/
def loadBook (id : BookId) : LedgerM (Option Book) := do
  let book ← read fun _ store => store.getBook id
  match book with
  | .ok book => return some book
  | .error (.notFound _) => if id = DEFAULT_BOOK then return none else throw (.bookNotFound id)
  | .error err => throw (.store err)

/-- Load everything that validation reads. -/
def load (envelope : Envelope) : LedgerM LoadedState := do
  let consumedPostings ← getPostings envelope.consumes
  let required := requiredState envelope consumedPostings
  let accounts ← getAccounts required.accounts
  let balances ← loadBalances required.balances
  let book ← loadBook envelope.book
  return ⟨consumedPostings, HashMap.insertAll ∅ (·.id) accounts, balances, book⟩

/-- Validate the loaded state. A balance that was not loaded is an error. -/
def plan (order : IterationOrder) (envelope : Envelope) (loaded : LoadedState) :
    Except LedgerError Plan :=
  match (requiredState envelope loaded.consumedPostings).balances.find?
      (fun key => decide (key ∉ loaded.balances)) with
  | some key => .error (.underFetchedState key.1 key.2)
  | none => (validateAndPlan order {
      envelope
      consumedPostings := loaded.consumedPostings
      accounts := loaded.accounts
      balances := loaded.balances
      book := loaded.book }).mapError .validation

/-- Pin the current version of each account. -/
def resolveSnapshots (ids : List AccountId) : LedgerM (List AccountSnapshotId) := do
  let accounts ← getAccounts ids
  return accounts.map accountSnapshotId

/-- What the second pass of resolution reads for the debits. -/
structure ResolveState where
  available : HashMap BalanceKey (List Posting)
  accounts : HashMap AccountId Account

def loadDebit (state : ResolveState) (debit : Debit) : LedgerM ResolveState := do
  let postings ← read fun order store =>
    store.getPostingsByAccount order debit.account.id (some debit.account.sub) (some debit.asset)
      .active
  let available := state.available.insert debit.key postings
  if debit.account ∈ state.accounts then return { state with available }
  let account ← read fun _ store => store.getAccount debit.account
  let account ← attempt (account.mapError .store)
  return ⟨available, state.accounts.insert debit.account account⟩

/-- Turn a transfer into an envelope by selecting postings. -/
def resolve (transfer : Transfer) : LedgerM Envelope := do
  let draft ← compute fun order => (draftMovements order transfer).mapError .ofOverflow
  let state ← draft.debits.foldlM loadDebit ⟨∅, ∅⟩
  let envelope ← attempt
    ((resolveEnvelope transfer draft state.available state.accounts).mapError .ofResolve)
  let snapshots ← resolveSnapshots envelope.referencedAccounts
  return envelope.setAccountSnapshots snapshots

def mapRejection : CommitRejection → LedgerError
  | .doubleSpend id => .doubleSpend id
  | .accountFrozen account => .validation (.accountFrozen account)
  | .accountClosed account => .validation (.accountClosed account)
  | .overdraftExceeded account asset projected =>
      .validation (.overdraftExceeded account asset projected)

/-- The accounts that the store checks again and indexes the transfer under. -/
def involvedAccounts (plan : Plan) (loaded : LoadedState) : List AccountId :=
  (plan.postingsToCreate.map (·.owner) ++ loaded.consumedPostings.map (·.owner)).sortDedup (· ≤ ·)

/-- The instruction that hands a validated plan to the store. -/
def commitRequest (envelope : Envelope) (plan : Plan) (loaded : LoadedState) (ts : Int64) :
    CommitRequest where
  transferId := plan.transferId
  consume := plan.postingsToDeactivate
  create := plan.postingsToCreate
  record := { envelope, receipt := ⟨plan.transferId⟩, createdAt := ts }
  involved := involvedAccounts plan loaded
  event := { seq := 0, timestamp := ts, kind := .transferCommitted plan.transferId }

/-- Pin the owners of the created postings unless something is pinned already. -/
def pinSnapshots (envelope : Envelope) : LedgerM Envelope := do
  if envelope.accountSnapshots = [] then do
    let snapshots ← resolveSnapshots envelope.referencedAccounts
    return envelope.setAccountSnapshots snapshots
  else return envelope

def applyOutcome : CommitOutcome → Except LedgerError Receipt
  | .committed receipt | .alreadyCommitted receipt => .ok receipt
  | .rejected reason => .error (mapRejection reason)

/-- Validate a pinned envelope that is not stored yet, and apply it. -/
def commitPinned (envelope : Envelope) : LedgerM Receipt := do
  let loaded ← load envelope
  let plan ← compute fun order => plan order envelope loaded
  let ts ← nowMillis
  let outcome ← act fun choice store =>
    store.commitEnvelope choice.order choice.clock (commitRequest envelope plan loaded ts)
  let outcome ← attempt (outcome.mapError .store)
  attempt (applyOutcome outcome)

/-- An envelope that is stored already is not validated again. -/
def commitUnlessStored (envelope : Envelope) : LedgerM Receipt := do
  let existing ← read fun _ store => store.getTransfer (envelopeId envelope)
  match existing with
  | some record => return record.receipt
  | none => commitPinned envelope

/-- The single commit path. -/
def commitEnvelope (envelope : Envelope) : LedgerM Receipt := do
  let envelope ← pinSnapshots envelope
  commitUnlessStored envelope

def commit (transfer : Transfer) : LedgerM Receipt := do
  let envelope ← resolve transfer
  commitEnvelope envelope

/-- The envelope that takes back a stored transfer. -/
def reverseEnvelope (record : EnvelopeRecord) (originalConsumed : List Posting) : Envelope where
  consumes := createdPostingIds record.receipt.transferId record.envelope.creates
  creates := originalConsumed.map fun posting => ⟨posting.owner, posting.asset, posting.value, none⟩
  accountSnapshots := []
  book := record.envelope.book
  metadata := record.envelope.metadata

def reverse (id : EnvelopeId) : LedgerM Receipt := do
  let record ← read fun _ store => store.getTransfer id
  match record with
  | none => throw (.transferNotFound id)
  | some record => do
      let originalConsumed ← getPostings record.envelope.consumes
      commitEnvelope (reverseEnvelope record originalConsumed)

end Kuatia
