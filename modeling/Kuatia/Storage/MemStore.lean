import Kuatia.Storage.Records
import Kuatia.Core.Validate

/-! # The in-memory store

Each operation takes all the locks it needs before it reads anything, so it is
one function from store to store. Operations that iterate a hash map take the
order in which that happens, and operations that draw an id take the clock.
-/

namespace Kuatia

/-! ## Generated ids -/

/-- What the system clock shows: milliseconds since the Unix epoch, or nothing
when it is set before the epoch. -/
abbrev Clock := Option Int64

namespace AutoId

def TIMESTAMP_BITS : UInt64 := 40

def TAIL_BITS : UInt64 := 23

def TAIL_MASK : UInt32 := ((1 : UInt32) <<< 23) - 1

def KUATIA_EPOCH_MS : UInt64 := 1767225600000

def nowMs (clock : Clock) : UInt64 :=
  let unixMs := (clock.getD 0).toUInt64
  if unixMs < KUATIA_EPOCH_MS then 0 else unixMs - KUATIA_EPOCH_MS

def pack (ms : UInt64) (tail : UInt32) : Int64 :=
  (((ms &&& (((1 : UInt64) <<< TIMESTAMP_BITS) - 1)) <<< TAIL_BITS) ||| tail.toUInt64).toInt64

/-- The next id of a generator with the given counter, and its new counter. -/
def next (clock : Clock) (counter : UInt32) : Int64 × UInt32 :=
  (pack (nowMs clock) (counter &&& TAIL_MASK), counter + 1)

end AutoId

variable [MoneyWidth]

/-- An immutable record table and the two live sets, which hold full copies. -/
structure PostingTables where
  immutable : HashMap PostingId Posting
  active : HashMap PostingId Posting
  reserved : HashMap PostingId (Posting × ReservationId)

structure InMemoryStore where
  postings : PostingTables
  accounts : HashMap AccountId (List Account)
  transfers : HashMap EnvelopeId EnvelopeRecord
  transferAccounts : HashMap EnvelopeId (List AccountId)
  events : List LedgerEvent
  books : HashMap BookId Book
  projections : HashMap BalanceKey (List BalanceProjection)
  autoid : UInt32

namespace InMemoryStore

def new : InMemoryStore where
  postings := ⟨∅, ∅, ∅⟩
  accounts := ∅
  transfers := ∅
  transferAccounts := ∅
  events := []
  books := ∅
  projections := ∅
  autoid := 0

/-! ## Accounts -/

/-- The versions of an account, oldest first. -/
def versions (store : InMemoryStore) (id : AccountId) : List Account :=
  (store.accounts.lookup id).getD []

/-- The latest version of an account. -/
def latest (store : InMemoryStore) (id : AccountId) : Option Account :=
  (store.versions id).getLast?

def getAccount (store : InMemoryStore) (id : AccountId) : Except StoreError Account :=
  match store.latest id with
  | some account => .ok account
  | none => .error (.notFound s!"account {id.debug}")

def getAccounts (store : InMemoryStore) (ids : List AccountId) :
    Except StoreError (List Account) :=
  ids.mapM store.getAccount

/-- The number of inserted rows: an existing account is left alone. -/
def createAccount (account : Account) (store : InMemoryStore) : Nat × InMemoryStore :=
  if account.id ∈ store.accounts then (0, store)
  else (1, { store with accounts := store.accounts.insert account.id [account] })

/-! ## Postings -/

def getPostings (store : InMemoryStore) (ids : List PostingId) :
    Except StoreError (List Posting) :=
  ids.mapM fun id =>
    match store.postings.immutable.lookup id with
    | some posting => .ok posting
    | none => .error (.notFound s!"posting {id.debug}")

/-- The postings of the chosen set, in no particular order. -/
def postingsOf (store : InMemoryStore) (order : IterationOrder) : PostingFilter → List Posting
  | .active => order.arrange store.postings.active.values
  | .reserved => (order.arrange store.postings.reserved.values).map Prod.fst
  | .live => order.arrange store.postings.active.values ++
      (order.arrange store.postings.reserved.values).map Prod.fst
  | .all => order.arrange store.postings.immutable.values

def getPostingsByAccount (store : InMemoryStore) (order : IterationOrder) (id : Int64)
    (sub : Option Int64) (asset : Option AssetId) (filter : PostingFilter) : List Posting :=
  ((store.postingsOf order filter).filter fun posting =>
    posting.owner.id = id && sub.all (fun s => posting.owner.sub = s) &&
      asset.all (fun a => posting.asset = a)).insertionSort fun a b => PostingId.le a.id b.id

/-! ## Transfers -/

def getTransfer (store : InMemoryStore) (id : EnvelopeId) : Option EnvelopeRecord :=
  store.transfers.lookup id

def getTransfersForAccount (store : InMemoryStore) (order : IterationOrder) (id : Int64)
    (sub : Option Int64) : List EnvelopeRecord :=
  let participates (owner : AccountId) : Bool := owner.id = id && sub.all (fun s => owner.sub = s)
  let matching := (order.arrange store.transferAccounts.entries).filter fun entry =>
    entry.2.any participates
  (matching.filterMap fun entry => store.transfers.lookup entry.1).insertionSort
    fun a b => a.createdAt ≤ b.createdAt

def queryTransfers (store : InMemoryStore) (order : IterationOrder) (query : TransferQuery) :
    Page EnvelopeRecord :=
  let candidates := match query.account with
    | some account => store.getTransfersForAccount order account query.sub
    | none => (order.arrange store.transfers.values).insertionSort
        fun a b => a.createdAt ≤ b.createdAt
  paginate (filterTransfers candidates query) query.offset query.limit

/-! ## Balance projections -/

def appendBalanceProjection (clock : Clock) (account : AccountId) (asset : AssetId)
    (balance : Cent) (watermark : Int64) (store : InMemoryStore) : InMemoryStore :=
  let (id, autoid) := AutoId.next clock store.autoid
  let points := (store.projections.lookup (account, asset)).getD []
  { store with
    projections := store.projections.insert (account, asset)
      (points ++ [⟨id, account, asset, balance, watermark⟩])
    autoid }

/-- `(watermark, id)` of the left is at most that of the right. -/
def projectionLe (a b : BalanceProjection) : Prop :=
  a.watermark < b.watermark ∨ a.watermark = b.watermark ∧ a.id ≤ b.id

instance : DecidableRel projectionLe := fun a b =>
  inferInstanceAs (Decidable (a.watermark < b.watermark ∨ a.watermark = b.watermark ∧ a.id ≤ b.id))

/-- `max_by_key`: of several greatest elements the last one. -/
def latestProjection (points : List BalanceProjection) : Option BalanceProjection :=
  points.foldl (fun best point => match best with
    | none => some point
    | some other => if projectionLe other point then some point else some other) none

def getClosestBalanceProjection (store : InMemoryStore) (account : AccountId) (asset : AssetId)
    (asOf : Int64) : Option BalanceProjection :=
  latestProjection
    (((store.projections.lookup (account, asset)).getD []).filter (·.watermark ≤ asOf))

/-! ## Events -/

/-- The position of an event with the same idempotency key, if it has one. -/
def findEvent (events : List LedgerEvent) (kind : LedgerEventKind) : Option LedgerEvent :=
  match eventDedupKey kind with
  | none => none
  | some key => events.find? fun event => eventDedupKey event.kind = some key

def appendEventLocked (clock : Clock) (event : LedgerEvent) (store : InMemoryStore) :
    InMemoryStore :=
  match findEvent store.events event.kind with
  | some _ => store
  | none =>
      let (seq, autoid) := AutoId.next clock store.autoid
      { store with events := store.events ++ [{ event with seq := seq.toUInt64 }], autoid }

def appendEvent (clock : Clock) (event : LedgerEvent) (store : InMemoryStore) :
    UInt64 × InMemoryStore :=
  match findEvent store.events event.kind with
  | some existing => (existing.seq, store)
  | none => ((AutoId.next clock store.autoid).1.toUInt64, store.appendEventLocked clock event)

/-! ## Books -/

def createBook (book : Book) (store : InMemoryStore) : Nat × InMemoryStore :=
  if book.id ∈ store.books then (0, store)
  else (1, { store with books := store.books.insert book.id book })

def getBook (store : InMemoryStore) (id : BookId) : Except StoreError Book :=
  match store.books.lookup id with
  | some book => .ok book
  | none => .error (.notFound s!"book {id.debug}")

/-! ## The atomic commit -/

/-- Why a commit applies nothing: an internal fault, or a rejection. -/
inductive Refusal where
  | fault (err : StoreError)
  | rejected (reason : CommitRejection)
  deriving DecidableEq

/-- The latest version of an account that a commit involves. -/
def accountOf (store : InMemoryStore) (id : AccountId) : Except Refusal Account :=
  match store.latest id with
  | some account => .ok account
  | none => .error (.fault (.internal s!"commit: account {id.debug} missing"))

def commitOverflow (_ : OverflowError) : Refusal := .fault (.internal "commit: monetary overflow")

/-- No involved account is frozen or closed. -/
def freezeGuard (store : InMemoryStore) (req : CommitRequest) : Except Refusal Unit :=
  req.involved.forM fun id => do
    let account ← store.accountOf id
    if account.isFrozen then .error (.rejected (.accountFrozen id))
    else if account.isClosed then .error (.rejected (.accountClosed id))
    else .ok ()

/-- Every consumed posting is still active. -/
def doubleSpendGuard (store : InMemoryStore) (req : CommitRequest) : Except Refusal Unit :=
  req.consume.forM fun id =>
    if id ∈ store.postings.active then .ok () else .error (.rejected (.doubleSpend id))

/-- The balance that one account and asset would have after the commit. -/
def projectedBalance (store : InMemoryStore) (order : IterationOrder) (req : CommitRequest)
    (key : BalanceKey) : Except OverflowError Cent := do
  let liveSum ← Cent.checkedSum <|
    ((order.arrange store.postings.active.values).filter fun posting =>
      posting.key = key && posting.id ∉ req.consume).map (·.value)
  let createdSum ← Cent.checkedSum ((req.create.filter (·.key = key)).map (·.value))
  liveSum.checkedAdd createdSum

/-- The assets in which the commit touches an account. -/
def touchedAssets (store : InMemoryStore) (req : CommitRequest) (id : AccountId) : List AssetId :=
  ((req.create.filter (·.owner = id)).map (·.asset) ++
    ((req.consume.filterMap store.postings.active.lookup).filter (·.owner = id)).map
      (·.asset)).dedup

/-- No involved account that forbids overdraft ends below zero. -/
def overdraftFloor (store : InMemoryStore) (order : IterationOrder) (req : CommitRequest) :
    Except Refusal Unit :=
  req.involved.forM fun id => do
    let account ← store.accountOf id
    if !account.forbidsOverdraft then .ok ()
    else
      (order.arrange (store.touchedAssets req id)).forM fun asset => do
        let projected ← (store.projectedBalance order req (id, asset)).mapError commitOverflow
        if projected.isNegative then .error (.rejected (.overdraftExceeded id asset projected))
        else .ok ()

def commitGuards (store : InMemoryStore) (order : IterationOrder) (req : CommitRequest) :
    Except Refusal Unit := do
  store.freezeGuard req
  store.doubleSpendGuard req
  store.overdraftFloor order req

/-- Insert each posting unless its id is taken. -/
def insertMissing (map : HashMap PostingId Posting) (postings : List Posting) :
    HashMap PostingId Posting :=
  postings.foldl (fun map posting =>
    if posting.id ∈ map then map else map.insert posting.id posting) map

/-- Spend the consumed postings, insert and activate the created ones, store
and index the transfer, and append the event. -/
def applyCommit (clock : Clock) (req : CommitRequest) (store : InMemoryStore) : InMemoryStore :=
  let postings : PostingTables := {
    immutable := insertMissing store.postings.immutable req.create
    active := (store.postings.active.eraseAll req.consume).insertAll (·.id) req.create
    reserved := store.postings.reserved }
  appendEventLocked clock req.event { store with
    postings
    transfers := store.transfers.insert req.transferId req.record
    transferAccounts := store.transferAccounts.insert req.transferId req.involved }

def commitEnvelope (order : IterationOrder) (clock : Clock) (req : CommitRequest)
    (store : InMemoryStore) : Except StoreError CommitOutcome × InMemoryStore :=
  match store.transfers.lookup req.transferId with
  | some existing => (.ok (.alreadyCommitted existing.receipt), store)
  | none =>
      match store.commitGuards order req with
      | .error (.fault err) => (.error err, store)
      | .error (.rejected reason) => (.ok (.rejected reason), store)
      | .ok () => (.ok (.committed req.record.receipt), store.applyCommit clock req)

/-- Append one account version and its event, if it extends the chain. -/
def commitTransition (clock : Clock) (next : Account) (event : LedgerEvent)
    (store : InMemoryStore) : Except StoreError TransitionOutcome × InMemoryStore :=
  match store.accounts.lookup next.id with
  | none => (.error (.internal s!"transition: account {next.id.debug} missing"), store)
  | some versions =>
      match versions.getLast? with
      | none => (.error (.internal s!"transition: account {next.id.debug} has no version"), store)
      | some current =>
          if current.isClosed then (.ok (.rejected (.alreadyClosed next.id)), store)
          else if next.version ≤ current.version then
            (.ok .alreadyApplied, store.appendEventLocked clock event)
          else if current.version.toNat + 1 = 2 ^ 64 then
            (.error (.internal "account version overflow"), store)
          else if next.version ≠ current.version + 1 then
            (.ok (.rejected (.versionConflict next.id next.version)), store)
          else
            (.ok .applied, appendEventLocked clock event
              { store with accounts := store.accounts.insert next.id (versions ++ [next]) })

end InMemoryStore

end Kuatia
