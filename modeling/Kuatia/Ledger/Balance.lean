import Kuatia.Ledger.Actions

/-! # Balances

`computeBalance` sums the live postings of an account and asset. `balance` is
the everyday read: the closest cache point plus the transfers committed after
its watermark. Cache points lag behind the clock by a grace period.
-/

namespace Kuatia

variable [MoneyWidth]

/-- The configuration of a ledger. -/
structure Ledger where
  projectionGraceMs : Int64
  snapshotInterval : UInt64

open LedgerM

/-- `i64::saturating_add`. -/
def saturatingAdd (a b : Int64) : Int64 :=
  .ofInt (max Int64.minValue.toInt (min Int64.maxValue.toInt (a.toInt + b.toInt)))

/-- `i64::saturating_sub`. -/
def saturatingSub (a b : Int64) : Int64 :=
  .ofInt (max Int64.minValue.toInt (min Int64.maxValue.toInt (a.toInt - b.toInt)))

/-- The sum of the live postings of one account and asset. -/
def computeBalance (account : AccountId) (asset : AssetId) : LedgerM Cent := do
  let postings ← read fun order store =>
    store.getPostingsByAccount order account.id (some account.sub) (some asset) .live
  attempt ((Cent.checkedSum (postings.map (·.value))).mapError .ofOverflow)

/-- The net value of some postings of one account and asset, and their number. -/
structure Delta where
  value : Cent
  count : UInt64
  deriving DecidableEq

def Delta.credit (delta : Delta) (value : Cent) : Except OverflowError Delta := do
  return ⟨← delta.value.checkedAdd value, delta.count + 1⟩

def Delta.debit (delta : Delta) (value : Cent) : Except OverflowError Delta := do
  return ⟨← delta.value.checkedSub value, delta.count + 1⟩

def foldCredits (key : BalanceKey) (records : List EnvelopeRecord) :
    Except OverflowError Delta :=
  (records.flatMap (·.envelope.creates)).foldlM (fun delta posting =>
    if posting.key = key then delta.credit posting.value else .ok delta) ⟨.ZERO, 0⟩

def foldDebits (key : BalanceKey) (delta : Delta) (postings : List Posting) :
    Except OverflowError Delta :=
  postings.foldlM (fun delta posting =>
    if posting.key = key then delta.debit posting.value else .ok delta) delta

/-- What a set of committed transfers changed for one account and asset. The
consumed postings are looked up in the immutable table. -/
def foldAccountDelta (account : AccountId) (asset : AssetId) (records : List EnvelopeRecord) :
    LedgerM Delta := do
  let credits ← attempt ((foldCredits (account, asset) records).mapError .ofOverflow)
  let consumedIds := (records.flatMap (·.envelope.consumes)).dedupFirst
  if consumedIds = [] then return credits
  let postings ← read fun _ store => store.getPostings consumedIds
  let consumed ← attempt (postings.mapError .store)
  attempt ((foldDebits (account, asset) credits consumed).mapError .ofOverflow)

/-- The transfers of one account committed in `[fromTs, toTs)`. -/
def tailQuery (account : AccountId) (fromTs toTs : Option Int64) : TransferQuery :=
  { account := some account.id, sub := some account.sub, fromTs, toTs,
    book := none, limit := none, offset := none }

def foldTail (account : AccountId) (asset : AssetId) (fromTs toTs : Option Int64) :
    LedgerM Delta := do
  let page ← read fun order store => store.queryTransfers order (tailQuery account fromTs toTs)
  foldAccountDelta account asset page.items

/-- Fold the transfers since the closest cache point up to `now - grace` onto
it, and append the result unless too little is new. -/
def appendCachePointWith (graceMs : Int64) (minNew : UInt64) (debounceMs : Int64)
    (account : AccountId) (asset : AssetId) : LedgerM Unit := do
  let now ← nowMillis
  let newWatermark := saturatingSub now graceMs
  let closest ← read fun _ store => store.getClosestBalanceProjection account asset newWatermark
  match closest with
  | some point =>
      if saturatingSub newWatermark point.watermark < debounceMs then return ()
      else if newWatermark ≤ point.watermark then return ()
      else appendFrom point.balance (some (saturatingAdd point.watermark 1)) newWatermark
  | none => appendFrom .ZERO none newWatermark
where
  appendFrom (snapshot : Cent) (fromTs : Option Int64) (newWatermark : Int64) : LedgerM Unit := do
    let delta ← foldTail account asset fromTs (some (saturatingAdd newWatermark 1))
    if delta.count < minNew then return ()
    let balance ← attempt ((snapshot.checkedAdd delta.value).mapError .ofOverflow)
    act fun choice store =>
      ((), store.appendBalanceProjection choice.clock account asset balance newWatermark)

namespace Ledger

variable (ledger : Ledger)

/-- The cached balance. The background append that a read may spawn is a client
of its own. -/
def balance (account : AccountId) (asset : AssetId) : LedgerM Cent := do
  let now ← nowMillis
  let closest ← read fun _ store => store.getClosestBalanceProjection account asset now
  match closest with
  | some point => do
      let tail ← foldTail account asset (some (saturatingAdd point.watermark 1)) none
      attempt ((point.balance.checkedAdd tail.value).mapError .ofOverflow)
  | none => computeBalance account asset

/-- The append that a balance read spawns in the background. -/
def spawnAppend (account : AccountId) (asset : AssetId) : LedgerM Unit :=
  appendCachePointWith ledger.projectionGraceMs ledger.snapshotInterval ledger.projectionGraceMs
    account asset

/-- Append a cache point now, without a minimum and without debounce. -/
def appendCachePoint (account : AccountId) (asset : AssetId) : LedgerM Unit :=
  appendCachePointWith ledger.projectionGraceMs 0 0 account asset

end Ledger

end Kuatia
