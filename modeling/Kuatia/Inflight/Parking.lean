import Kuatia.Inflight.Accepting
import Kuatia.Inflight.Opening
import Kuatia.Inflight.Status
import Kuatia.Inflight.Sweeping
import Kuatia.Ledger.Applying
import Kuatia.Ledger.Retiring

/-! # What an authorization parks

An authorization that runs alone opens its holds and commits the parking transfer. The
funds of the trade are then in its holds, which have nothing else in them, and
everything else is as after any other transfer from the funders.
-/

namespace Kuatia

open LedgerM

variable [MoneyWidth]

/-! ## Opening the holds -/

/-- The transfers and the cache points are as before. -/
def SameLog (before after : InMemoryStore) : Prop :=
  after.transfers = before.transfers ∧ after.projections = before.projections

theorem SameLog.trans {first second third : InMemoryStore} (hfirst : SameLog first second)
    (hsecond : SameLog second third) : SameLog first third :=
  ⟨hsecond.1.trans hfirst.1, hsecond.2.trans hfirst.2⟩

variable {before after : World}

theorem createAccount_sameLog {account : Account} {result : Except LedgerError Unit}
    (halone : Alone (createAccount account) before result after) :
    SameLog before.store after.store := by
  obtain ⟨inserted, middle, hact, hrest⟩ | ⟨_, hact, _⟩ := alone_bind_iff.mp halone
  swap
  · obtain ⟨_, hvalue, _⟩ := alone_act_iff.mp hact
    cases hvalue
  obtain ⟨choice, hinserted, rfl⟩ := alone_act_iff.mp hact
  cases hinserted
  have hcreate : SameLog before.store (before.store.createAccount account).2 := by
    unfold InMemoryStore.createAccount
    split <;> exact ⟨rfl, rfl⟩
  refine hcreate.trans ?_
  split at hrest
  next =>
    obtain ⟨_, rfl⟩ := alone_throw_iff.mp hrest
    exact ⟨rfl, rfl⟩
  next =>
    obtain ⟨now, second, hnow, hrest⟩ | ⟨_, hnow, rfl⟩ := alone_bind_iff.mp hrest
    · have hsame := ReadOnly.nowMillis.store_eq hnow
      obtain ⟨_, third, hevent, hrest⟩ | ⟨_, hevent, _⟩ := alone_bind_iff.mp hrest
      · obtain ⟨_, hvalue, rfl⟩ := alone_act_iff.mp hevent
        obtain ⟨_, rfl⟩ := alone_pure_iff.mp hrest
        dsimp only
        rw [InMemoryStore.appendEvent_store, hsame]
        exact ⟨by simp, by simp⟩
      · obtain ⟨_, hvalue, _⟩ := alone_act_iff.mp hevent
        cases hvalue
    · rw [ReadOnly.nowMillis.store_eq hnow]
      exact ⟨rfl, rfl⟩

section Holds

variable [Cbor] {book : BookId} {sub : Int64}

/-- The account is the hold that was opened for the destination. -/
def HoldsFor (store : InMemoryStore) (book : BookId) (sub : Int64) (destination : AccountId) :
    Prop :=
  ∃ account, holdAccount book (holdOf sub destination) destination = .ok account ∧
    store.latest (holdOf sub destination) = some account

/-- A hold that was opened may hold funds, and be closed. -/
theorem HoldsFor.opened {store : InMemoryStore} {destination : AccountId}
    (hholds : HoldsFor store book sub destination) :
    HoldsFunds store (holdOf sub destination) ∧ MayChange store (holdOf sub destination) := by
  obtain ⟨account, haccount, hlatest⟩ := hholds
  obtain ⟨_, hforbids⟩ := holdAccount_eq_ok haccount
  obtain ⟨metadata, _, hpure⟩ := Except.bind_eq_ok_iff.mp haccount
  cases hpure
  have hflags : ∀ flag ∈ [AccountFlags.FROZEN, .CLOSED],
      (AccountFlags.INFLIGHT.insert .DEBIT_MUST_NOT_EXCEED_CREDIT).contains flag = false := by
    decide
  have hversion : (Account.new (holdOf sub destination)).version.toNat + 1 < 2 ^ 64 := by
    change (1 : UInt64).toNat + 1 < 2 ^ 64
    decide
  exact ⟨⟨_, hlatest, hflags _ (by simp), hflags _ (by simp), hforbids⟩,
    _, hlatest, hflags _ (by simp), hversion⟩

theorem openHold_holdsFor {destination : AccountId} {value : Unit}
    (halone : Alone (openHold book sub destination) before (.ok value) after) :
    OnlyOpened before.store after.store ∧ SameLog before.store after.store ∧
      HoldsFor after.store book sub destination := by
  obtain ⟨account, middle, hattempt, hrest⟩ := alone_bind_ok_iff.mp halone
  obtain ⟨haccount, rfl⟩ := alone_attempt_iff.mp hattempt
  obtain ⟨returned, hcreate, hreturned⟩ := alone_adapt_iff.mp hrest
  have hlog := createAccount_sameLog hcreate
  obtain ⟨_, rfl, _⟩ | ⟨hcreates, _⟩ := createAccount_alone hcreate
  · cases hreturned
  obtain ⟨hid, _⟩ := holdAccount_eq_ok haccount.symm
  refine ⟨hcreates.opened, hlog, account, haccount.symm, ?_⟩
  rw [InMemoryStore.latest, ← hid, hcreates.versions]
  rfl

theorem openHolds_holdsFor {destinations : List AccountId} {value : PUnit}
    (halone : Alone (destinations.forM (openHold book sub)) before (.ok value) after) :
    OnlyOpened before.store after.store ∧ SameLog before.store after.store ∧
      ∀ destination ∈ destinations, HoldsFor after.store book sub destination := by
  induction destinations generalizing before with
  | nil =>
      obtain ⟨_, rfl⟩ := alone_pure_iff.mp halone
      exact ⟨.refl _, ⟨rfl, rfl⟩, by simp⟩
  | cons first rest ih =>
      obtain ⟨_, middle, hopen, hlater⟩ := alone_bind_ok_iff.mp halone
      obtain ⟨hopened, hlog, account, haccount, hlatest⟩ := openHold_holdsFor hopen
      obtain ⟨hothers, hsame, hholds⟩ := ih hlater
      refine ⟨hopened.trans hothers, hlog.trans hsame, ?_⟩
      exact List.forall_mem_cons.mpr ⟨⟨account, haccount, hothers.latest _ _ hlatest⟩, hholds⟩

end Holds

/-! ## The parking transfer -/

/-- What goes into a hold is what the trade gives its destination. -/
theorem incoming_parkingTransfer_hold {transfer : Transfer} (hdistinct : DistinctBases transfer)
    {movement : Movement} (hmovement : movement ∈ transfer.movements) (sub : Int64)
    (payload : List UInt8) (asset : AssetId) :
    (parkingTransfer transfer sub payload).incoming (holdOf sub movement.toAccount, asset) =
      transfer.incoming (movement.toAccount, asset) := by
  rw [Transfer.incoming, Transfer.incoming, parkingTransfer, keyTotal_map, keyTotal_eq_sum,
    keyTotal_eq_sum]
  refine congrArg List.sum (List.map_congr_left fun other hother => ?_)
  refine if_congr ?_ rfl rfl
  simp only [Movement.destination, parked, Prod.mk.injEq]
  refine and_congr_left fun _ => ⟨fun hsame => ?_, fun hsame => by rw [hsame]⟩
  have hbase : (holdOf sub other.toAccount).id = (holdOf sub movement.toAccount).id := by rw [hsame]
  exact hdistinct other hother movement hmovement hbase

theorem incoming_parkingTransfer_other {transfer : Transfer} {sub : Int64} {key : BalanceKey}
    (hother : ∀ movement ∈ transfer.movements, holdOf sub movement.toAccount ≠ key.1)
    (payload : List UInt8) : (parkingTransfer transfer sub payload).incoming key = 0 := by
  rw [Transfer.incoming, parkingTransfer, keyTotal_map]
  exact keyTotal_eq_zero fun movement hmovement hkey =>
    hother movement hmovement (congrArg Prod.fst hkey)

theorem outgoing_parkingTransfer (transfer : Transfer) (sub : Int64) (payload : List UInt8)
    (key : BalanceKey) : (parkingTransfer transfer sub payload).outgoing key =
      transfer.outgoing key := by
  rw [Transfer.outgoing, Transfer.outgoing, parkingTransfer, keyTotal_map]
  rfl

variable [Sha256]

/-- What every state that can be reached has in common. -/
structure Reached (store : InMemoryStore) : Prop where
  accounted : Accounted store
  safe : OverdraftSafe store
  spends : SpendsOnce store
  owned : Owned store

theorem Reached.of_evolves {first second : InMemoryStore} (hreached : Reached first)
    (hevolves : Evolves first second) : Reached second where
  accounted := hevolves.keep _ (fun _ _ hstep => hstep.accounted) hreached.accounted
  safe := hevolves.keep _ (fun _ _ hstep => hstep.overdraftSafe) hreached.safe
  spends := hevolves.keep _ (fun _ _ hstep => hstep.spendsOnce) hreached.spends
  owned := hevolves.keep _ (fun _ _ hstep => hstep.owned) hreached.owned

variable [Cbor]

theorem reached_served (ledger : Ledger) (actions : List ServiceAction) :
    Reached (servedStore ledger actions) where
  accounted := accounted_served ledger actions
  safe := overdraftSafe_served ledger actions
  spends := spendsOnce_served ledger actions
  owned := owned_served ledger actions

/-- The hold of the destination of a movement. -/
def Transfer.hold (transfer : Transfer) (movement : Movement) : AccountId :=
  holdOf (inflightSubaccount transfer) movement.toAccount

/-- The holds of the trade are open, and nothing else has happened. -/
structure HoldsOpened (start store : InMemoryStore) (transfer : Transfer) : Prop extends
    OnlyOpened start store where
  reached : Reached start
  evolves : Evolves start store
  log : SameLog start store
  distinct : DistinctBases transfer
  fresh : ∀ movement ∈ transfer.movements, transfer.hold movement ∉ start.accounts
  holds : ∀ movement ∈ transfer.movements,
    HoldsFor store transfer.book (inflightSubaccount transfer) movement.toAccount

/-- The transfer that parks the trade. -/
def Transfer.parking (transfer : Transfer) (payload : List UInt8) : Transfer :=
  parkingTransfer transfer (inflightSubaccount transfer) payload

namespace HoldsOpened

variable {start store : InMemoryStore} {transfer : Transfer}
  (hopened : HoldsOpened start store transfer)

include hopened

theorem reached_after : Reached store := hopened.reached.of_evolves hopened.evolves

theorem ownsNothing {movement : Movement} (hmovement : movement ∈ transfer.movements) :
    OwnsNothing store (transfer.hold movement) := by
  rw [ownsNothing_congr hopened.postings]
  exact hopened.reached.owned.ownsNothing hopened.reached.accounted.consistent.reserved
    (InMemoryStore.versions_of_notMem (hopened.fresh movement hmovement))

theorem holdsFunds {movement : Movement} (hmovement : movement ∈ transfer.movements) :
    HoldsFunds store (transfer.hold movement) := (hopened.holds movement hmovement).opened.1

/-! ### Once the parking transfer is applied -/

variable {payload : List UInt8} {spent : List Posting} {extra : List NewPosting}
  {req : CommitRequest} {consumed : List Posting}
  (happlies : Applies store (transfer.parking payload) spent extra req consumed)
  (hpositive : ∀ movement ∈ transfer.movements, 0 < movement.amount.val)

include happlies hpositive

/-- No hold is debited. -/
theorem outgoing_hold {movement : Movement} (hmovement : movement ∈ transfer.movements)
    (asset : AssetId) : transfer.outgoing (transfer.hold movement, asset) = 0 := by
  have hnonneg : 0 ≤ transfer.outgoing (transfer.hold movement, asset) :=
    keyTotal_nonneg fun other hother _ => (hpositive other hother).le
  have hforbids : ∀ account, store.latest (transfer.hold movement) = some account →
      account.forbidsOverdraft = true := by
    intro account hlatest
    obtain ⟨found, hfound, _, _, hflag⟩ := hopened.holdsFunds hmovement
    rw [hlatest] at hfound
    cases hfound
    exact hflag
  have hnonpos := happlies.outgoing_nonpos (hopened.ownsNothing hmovement)
    hopened.reached_after.accounted.consistent hforbids asset
  rw [Transfer.parking, outgoing_parkingTransfer] at hnonpos
  exact le_antisymm hnonpos hnonneg

theorem payer_ne {movement other : Movement} (hmovement : movement ∈ transfer.movements)
    (hother : other ∈ transfer.movements) : other.fromAccount ≠ transfer.hold movement := by
  intro hsame
  have hzero := hopened.outgoing_hold happlies hpositive hmovement other.asset
  have hpays : 0 < transfer.outgoing (transfer.hold movement, other.asset) := by
    refine keyTotal_pos_of_key (fun paid hpaid _ => hpositive paid hpaid) ?_
    exact List.mem_map.mpr ⟨other, hother, Prod.ext hsame rfl⟩
  omega

/-- No hold is given change. -/
theorem owner_ne_of_extra {movement : Movement} (hmovement : movement ∈ transfer.movements)
    {posting : NewPosting} (hposting : posting ∈ extra) : posting.owner ≠ transfer.hold movement := by
  intro howner
  have howes := happlies.madeUp.owed posting hposting
  rw [Transfer.parking, outgoing_parkingTransfer] at howes
  have hzero := hopened.outgoing_hold happlies hpositive hmovement posting.asset
  rw [← howner] at hzero
  exact absurd howes (not_lt_of_ge (le_of_eq hzero))

/-- What the parking transfer makes for a hold are the credits of its destination. -/
theorem movement_of_created {movement : Movement} (hmovement : movement ∈ transfer.movements)
    {posting : NewPosting} (hposting : posting ∈ req.record.envelope.creates)
    (howner : posting.owner = transfer.hold movement) :
    ∃ other ∈ transfer.movements, posting.value = other.amount := by
  rw [happlies.resolved.creates, List.mem_append] at hposting
  rcases hposting with hcredit | hextra
  · obtain ⟨parkedMovement, hparked, rfl⟩ := List.mem_map.mp hcredit
    obtain ⟨other, hother, rfl⟩ := List.mem_map.mp hparked
    exact ⟨other, hother, rfl⟩
  · exact absurd howner (hopened.owner_ne_of_extra happlies hpositive hmovement hextra)

/-- What the trade gives a destination has been summed up as its hold was credited. -/
theorem holds_incoming {movement : Movement} (hmovement : movement ∈ transfer.movements) :
    Cent.Holds (transfer.incoming movement.destination) := by
  obtain ⟨account, hlatest, _, _, hforbids⟩ := hopened.holdsFunds hmovement
  have hcredit : (parked (inflightSubaccount transfer) movement).credit ∈
      req.record.envelope.creates := by
    rw [happlies.resolved.creates]
    exact List.mem_append_left _ (List.mem_map_of_mem (List.mem_map_of_mem hmovement))
  have hholds := happlies.holds_created hcredit hlatest hforbids
  have hextra : keyTotal NewPosting.key NewPosting.value extra
      (parked (inflightSubaccount transfer) movement).credit.key = 0 :=
    keyTotal_eq_zero fun posting hposting hkey =>
      hopened.owner_ne_of_extra happlies hpositive hmovement hposting (congrArg Prod.fst hkey)
  rw [happlies.resolved.creates, keyTotal_append, keyTotal_credits, hextra, add_zero] at hholds
  have hsame := incoming_parkingTransfer_hold hopened.distinct hmovement
    (inflightSubaccount transfer) payload movement.asset
  rw [Movement.destination, ← hsame]
  exact hholds

variable (hsmall : transfer.movements.length ≤ 32768) (clock : Clock)

include hsmall

theorem liveBalance (key : BalanceKey) : (store.applyCommit clock req).liveBalance key =
    start.liveBalance key + (transfer.parking payload).incoming key - transfer.outgoing key := by
  have hfew : (transfer.parking payload).movements.length ≤ 32768 := by
    rwa [Transfer.parking, parkingTransfer, List.length_map]
  rw [happlies.liveBalance hopened.reached_after.accounted.consistent hfew ?_ clock key,
    hopened.liveBalance_eq, Transfer.parking, outgoing_parkingTransfer]
  intro movement hmovement
  obtain ⟨original, horiginal, rfl⟩ := List.mem_map.mp hmovement
  exact (hpositive original horiginal).le

theorem filled {movement : Movement} (hmovement : movement ∈ transfer.movements)
    (asset : AssetId) : (store.applyCommit clock req).liveBalance (transfer.hold movement, asset) =
      transfer.incoming (movement.toAccount, asset) := by
  rw [hopened.liveBalance happlies hpositive hsmall clock,
    hopened.outgoing_hold happlies hpositive hmovement, ← hopened.liveBalance_eq,
    (hopened.ownsNothing hmovement).liveBalance, zero_add, sub_zero]
  exact incoming_parkingTransfer_hold hopened.distinct hmovement _ payload asset

theorem active_of_hold {movement : Movement} (hmovement : movement ∈ transfer.movements)
    {pid : PostingId} {posting : Posting}
    (hlookup : (store.applyCommit clock req).postings.active.lookup pid = some posting)
    (howner : posting.owner = transfer.hold movement) : 0 ≤ posting.value.val ∧
      (store.applyCommit clock req).postings.immutable.lookup posting.id = some posting := by
  have hfew : (transfer.parking payload).movements.length ≤ 32768 := by
    rwa [Transfer.parking, parkingTransfer, List.length_map]
  obtain ⟨hmade, hrecorded⟩ := happlies.active_of_fresh (hopened.ownsNothing hmovement)
    hopened.reached_after.accounted.consistent hfew clock hlookup howner
  refine ⟨?_, hrecorded⟩
  rw [happlies.valid.create] at hmade
  obtain ⟨source, hsource, hsame, _, hvalue⟩ := exists_of_mem_createdPostings hmade
  obtain ⟨other, hother, hamount⟩ := hopened.movement_of_created happlies hpositive hmovement
    hsource (hsame.symm.trans howner)
  rw [hvalue, hamount]
  exact (hpositive other hother).le

theorem sumsUp_hold {movement : Movement} (hmovement : movement ∈ transfer.movements)
    (hconsistent : Consistent (store.applyCommit clock req)) (order : IterationOrder) :
    SumsUp (store.applyCommit clock req) order (transfer.hold movement, movement.asset) := by
  refine sumsUp_of_nonneg (fun posting hposting hkey => ?_) ?_ order
  · obtain ⟨pid, hlookup⟩ := (InMemoryStore.mem_livePostings hconsistent.reserved).mp hposting
    exact (hopened.active_of_hold happlies hpositive hsmall clock hmovement hlookup
      (congrArg Prod.fst hkey)).1
  · rw [hopened.filled happlies hpositive hsmall clock hmovement]
    exact hopened.holds_incoming happlies hpositive hmovement

end HoldsOpened

/-- The trade has been authorized, and its funds are in its holds. -/
structure Parked (start store : InMemoryStore) (transfer : Transfer)
    (authorization : Authorization) : Prop where
  evolves : Evolves start store
  projections : store.projections = start.projections
  books : store.books = start.books
  latest : ∀ id account, start.latest id = some account → store.latest id = some account
  distinct : DistinctBases transfer
  fresh : ∀ movement ∈ transfer.movements, transfer.hold movement ∉ start.accounts
  legs : authorization.legs = transfer.movements.map (legOf (inflightSubaccount transfer))
  stored : ∃ record, store.transfers.lookup authorization.inflight = some record ∧
    readMeta record.envelope.metadata = some (.authorize authorization.legs) ∧
      record.envelope.book = transfer.book
  holds : ∀ movement ∈ transfer.movements,
    HoldsFor store transfer.book (inflightSubaccount transfer) movement.toAccount
  payers : ∀ movement ∈ transfer.movements, ∀ other ∈ transfer.movements,
    other.fromAccount ≠ transfer.hold movement
  recorded : ∀ movement ∈ transfer.movements, ∀ asset,
    Recorded store (transfer.hold movement, asset)
  sums : ∀ movement ∈ transfer.movements, ∀ order,
    SumsUp store order (transfer.hold movement, movement.asset)
  filled : ∀ movement ∈ transfer.movements, ∀ asset,
    store.liveBalance (transfer.hold movement, asset) = transfer.incoming (movement.toAccount, asset)
  charged : ∀ key, (∀ movement ∈ transfer.movements, transfer.hold movement ≠ key.1) →
    store.liveBalance key = start.liveBalance key - transfer.outgoing key

/-- Applying the parking transfer parks the trade. -/
theorem HoldsOpened.parked {start store : InMemoryStore} {transfer : Transfer}
    {payload : List UInt8} {spent : List Posting} {extra : List NewPosting} {req : CommitRequest}
    {consumed : List Posting} {clock : Clock} (hopened : HoldsOpened start store transfer)
    (happlies : Applies store (transfer.parking payload) spent extra req consumed)
    (hpositive : ∀ movement ∈ transfer.movements, 0 < movement.amount.val)
    (hsmall : transfer.movements.length ≤ 32768)
    (hpayload : encodeMeta (.authorize
      (transfer.movements.map (legOf (inflightSubaccount transfer)))) = .ok payload)
    (hevolves : Evolves store (store.applyCommit clock req)) :
    Parked start (store.applyCommit clock req) transfer
      ⟨req.transferId, transfer.movements.map (legOf (inflightSubaccount transfer))⟩ where
  evolves := hopened.evolves.trans hevolves
  projections := by rw [InMemoryStore.applyCommit_projections, hopened.log.2]
  books := by rw [InMemoryStore.applyCommit_books, hopened.books]
  latest id account hlatest := by
    rw [InMemoryStore.latest, InMemoryStore.versions_congr (InMemoryStore.applyCommit_accounts ..)]
    exact hopened.latest id account hlatest
  distinct := hopened.distinct
  fresh := hopened.fresh
  legs := rfl
  stored := by
    refine ⟨req.record, ?_, ?_, happlies.resolved.book⟩
    · rw [InMemoryStore.applyCommit_transfers, HashMap.lookup_insert_eq, if_pos rfl]
    · rw [happlies.resolved.metadata]
      exact readMeta_of_encodeMeta hpayload transfer.metadata
  holds movement hmovement := by
    obtain ⟨account, haccount, hlatest⟩ := hopened.holds movement hmovement
    refine ⟨account, haccount, ?_⟩
    rw [InMemoryStore.latest, InMemoryStore.versions_congr (InMemoryStore.applyCommit_accounts ..)]
    exact hlatest
  payers movement hmovement other hother :=
    hopened.payer_ne happlies hpositive hmovement hother
  recorded movement hmovement asset posting hposting hkey := by
    obtain ⟨pid, hlookup⟩ := HashMap.mem_values_iff.mp (List.mem_filter.mp hposting).1
    exact (hopened.active_of_hold happlies hpositive hsmall clock hmovement hlookup
      (congrArg Prod.fst hkey)).2
  sums movement hmovement order := by
    have hconsistent := (hopened.reached_after.of_evolves hevolves).accounted.consistent
    exact hopened.sumsUp_hold happlies hpositive hsmall clock hmovement hconsistent order
  filled movement hmovement asset :=
    hopened.filled happlies hpositive hsmall clock hmovement asset
  charged key hother := by
    rw [hopened.liveBalance happlies hpositive hsmall clock, Transfer.parking,
      incoming_parkingTransfer_other hother, add_zero]

/-- An authorization that runs alone and stores its transfer parks the trade. -/
theorem authorize_parks {transfer : Transfer} {authorization : Authorization}
    (hreached : Reached before.store)
    (hpositive : ∀ movement ∈ transfer.movements, 0 < movement.amount.val)
    (hsmall : transfer.movements.length ≤ 32768)
    (halone : Alone (authorize transfer) before (.ok authorization) after)
    (hnew : authorization.inflight ∉ before.store.transfers) :
    Parked before.store after.store transfer authorization := by
  rw [authorize_eq] at halone
  split at halone
  next => cases (alone_throw_iff.mp halone).1
  obtain ⟨_, middle, hopen, hpark⟩ := alone_bind_ok_iff.mp halone
  obtain ⟨hbases, hunopened⟩ := openHolds_nodup hopen
  obtain ⟨honly, hlog, hholds⟩ := openHolds_holdsFor hopen
  have hdestined : ∀ movement ∈ transfer.movements,
      movement.toAccount ∈ destinationsOf transfer := fun movement hmovement =>
    List.mem_sortDedup.mpr (List.mem_map_of_mem hmovement)
  have hopened : HoldsOpened before.store middle.store transfer := {
    honly with
    reached := hreached
    evolves := (Moves.forM fun destination _ =>
      openHold_moves transfer.book (inflightSubaccount transfer) destination).evolves
        hreached.accounted.wellFormed hopen
    log := hlog
    distinct := nodup_destinations_iff.mp hbases
    fresh := fun movement hmovement => hunopened _ (hdestined movement hmovement)
    holds := fun movement hmovement => hholds _ (hdestined movement hmovement) }
  obtain ⟨payload, first, hencode, hrest⟩ := alone_bind_ok_iff.mp hpark
  obtain ⟨hpayload, rfl⟩ := alone_attempt_iff.mp hencode
  obtain ⟨receipt, last, hcommit, hpure⟩ := alone_bind_ok_iff.mp hrest
  obtain ⟨hvalue, rfl⟩ := alone_pure_iff.mp hpure
  cases hvalue
  have haccounted := hopened.reached_after.accounted
  have hunstored : receipt.transferId ∉ first.store.transfers := by
    rw [hlog.1]
    exact hnew
  obtain ⟨clock, spent, extra, req, consumed, happlies, hreceipt, hstore⟩ :=
    commit_applies haccounted hcommit hunstored
  have hmoves : Moves (fun _ => True) (fun _ => True) (fun _ => True)
      (commit (parkingTransfer transfer (inflightSubaccount transfer) payload)) :=
    .of_steps fun _ hwell => commit_steps _ hwell fun _ => trivial
  have hevolves := hmoves.evolves haccounted.wellFormed hcommit
  rw [hreceipt]
  rw [hstore] at hevolves ⊢
  exact hopened.parked happlies hpositive hsmall hpayload.symm hevolves

end Kuatia
