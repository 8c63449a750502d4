import Kuatia.Types.Envelope

/-! # Resolving a transfer into an envelope

Resolution has two pure passes. The first credits every movement's destination
and adds up what each source owes. The second covers each positive debt with
postings of the debtor, taking the largest first, and makes change; an account
that may be overdrawn covers a shortfall with a negative posting.
-/

namespace Kuatia

variable [MoneyWidth]

/-- The postings of a debtor that may be overdrawn no further do not suffice. -/
structure InsufficientFunds where
  available : Cent
  requested : Cent
  deriving DecidableEq

inductive ResolveError where
  | selection (insufficient : InsufficientFunds)
  | overflow
  deriving DecidableEq

/-- A positive net debit that has to be covered with postings. -/
structure Debit where
  account : AccountId
  asset : AssetId
  amount : Cent
  deriving DecidableEq

namespace Debit

def key (debit : Debit) : BalanceKey := (debit.account, debit.asset)

end Debit

structure MovementDraft where
  creates : List NewPosting
  debits : List Debit
  deriving DecidableEq

namespace Movement

/-- The posting that a movement credits to its destination. -/
def credit (movement : Movement) : NewPosting where
  owner := movement.toAccount
  asset := movement.asset
  value := movement.amount
  payer := if movement.fromAccount ≠ movement.toAccount then some movement.fromAccount else none

def source (movement : Movement) : BalanceKey := (movement.fromAccount, movement.asset)

def destination (movement : Movement) : BalanceKey := (movement.toAccount, movement.asset)

end Movement

/-- What each source owes over all movements. -/
def netDebits (movements : List Movement) : Except OverflowError (Totals BalanceKey) :=
  Totals.addAll ∅ Movement.source Movement.amount movements

/-- The first pass. Only what is positive on balance has to be covered. -/
def draftMovements (order : IterationOrder) (transfer : Transfer) :
    Except OverflowError MovementDraft := do
  let totals ← netDebits transfer.movements
  let debits := ((order.arrange totals.entries).filter (·.2.isPositive)).map fun entry =>
    { account := entry.1.1, asset := entry.1.2, amount := entry.2 : Debit }
  return {
    creates := transfer.movements.map Movement.credit
    debits := debits.insertionSort fun a b => BalanceKey.le a.key b.key }

/-- Take postings until their sum reaches `amount`. -/
def takeUntilCovered (amount : Cent) :
    List Posting → Cent → Except OverflowError (List PostingId × Cent)
  | [], sum => .ok ([], sum)
  | posting :: rest, sum => do
      let sum ← sum.checkedAdd posting.value
      if amount ≤ sum then return ([posting.id], sum)
      let (ids, total) ← takeUntilCovered amount rest sum
      return (posting.id :: ids, total)

/-- What resolution has decided so far. -/
structure Selection where
  consumes : List PostingId
  creates : List NewPosting
  deriving DecidableEq

def positives (postings : List Posting) : List Posting := postings.filter (·.value.isPositive)

/-- Largest value first; equal values keep their order. -/
def largestFirst (postings : List Posting) : List Posting :=
  postings.insertionSort fun a b => b.value ≤ a.value

/-- Cover one debit, or fail when its account forbids the shortfall. An account
that was not loaded counts as forbidding it. -/
def resolveDebit (available : HashMap BalanceKey (List Posting))
    (accounts : HashMap AccountId Account) (selection : Selection) (debit : Debit) :
    Except ResolveError Selection := do
  let avail := (available.lookup debit.key).getD []
  let totalPositive ← (Cent.checkedSum ((positives avail).map (·.value))).mapError
    fun _ => .overflow
  if debit.amount ≤ totalPositive then
    let (ids, consumedSum) ← (takeUntilCovered debit.amount (largestFirst (positives avail))
      .ZERO).mapError fun _ => .overflow
    let change ← (consumedSum.checkedSub debit.amount).mapError fun _ => .overflow
    return {
      consumes := selection.consumes ++ ids
      creates := selection.creates ++
        if change.isPositive then [⟨debit.account, debit.asset, change, none⟩] else [] }
  else if (accounts.lookup debit.account).any (!·.forbidsOverdraft) then
    let shortfall ← (debit.amount.checkedSub totalPositive).mapError fun _ => .overflow
    let offset ← shortfall.checkedNeg.mapError fun _ => .overflow
    return {
      consumes := selection.consumes ++ (positives avail).map (·.id)
      creates := selection.creates ++ [⟨debit.account, debit.asset, offset, none⟩] }
  else .error (.selection ⟨totalPositive, debit.amount⟩)

/-- The second pass. No account version is pinned yet. -/
def resolveEnvelope (transfer : Transfer) (draft : MovementDraft)
    (available : HashMap BalanceKey (List Posting)) (accounts : HashMap AccountId Account) :
    Except ResolveError Envelope := do
  let selection ← draft.debits.foldlM (resolveDebit available accounts) ⟨[], draft.creates⟩
  return {
    consumes := selection.consumes
    creates := selection.creates
    accountSnapshots := []
    book := transfer.book
    metadata := transfer.metadata }

end Kuatia
