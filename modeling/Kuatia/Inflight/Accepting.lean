import Kuatia.Inflight.Atomicity
import Kuatia.Inflight.Orderly
import Kuatia.Ledger.Validating

/-! # Trades that are accepted for authorization

The hold of a destination keeps its base id and nothing else of it. Two
destinations with one base id share a hold, which cannot be created twice.
Otherwise a trade that could be committed directly can be authorized: its holds
are new, and the parking transfer takes the same funds.
-/

namespace Kuatia

open LedgerM

section Theory

variable [MoneyWidth] [Sha256] [Cbor] {before after : World}

/-! ## Opening the holds -/

omit [Sha256] in
/-- Holds are opened one after the other. With different base ids they do not get
in each other's way, and only the clock can fail. -/
theorem openHolds_alone {book : BookId} {sub : Int64} {destinations : List AccountId}
    (hdistinct : (destinations.map (·.id)).Nodup)
    (hfresh : ∀ destination ∈ destinations, holdOf sub destination ∉ before.store.accounts)
    {result : Except LedgerError PUnit}
    (halone : Alone (destinations.forM (openHold book sub)) before result after) :
    (∃ value, result = .ok value ∧ OnlyOpened before.store after.store ∧
      ∀ destination ∈ destinations, Participates after.store (holdOf sub destination)) ∨
    ∃ err, result = .error err ∧ after.clock = none := by
  induction destinations generalizing before with
  | nil =>
      obtain ⟨rfl, rfl⟩ := alone_pure_iff.mp halone
      exact .inl ⟨_, rfl, .refl _, fun _ hnone => by cases hnone⟩
  | cons first rest ih =>
      rw [List.map_cons, List.nodup_cons] at hdistinct
      obtain ⟨hother, hrest⟩ := hdistinct
      have hnew := hfresh first List.mem_cons_self
      obtain ⟨_, middle, hopen, hlater⟩ | ⟨err, hopen, rfl⟩ := alone_bind_iff.mp halone
      · obtain ⟨hexists, _⟩ | ⟨account, hid, hfrozen, hclosed, hcreates, _⟩ := openHold_alone hopen
        · exact absurd hexists hnew
        have hstill : ∀ destination ∈ rest, holdOf sub destination ∉ middle.store.accounts := by
          intro destination hmem hexists
          obtain hsame | hold := (hcreates.accounts _).mp hexists
          · have hbase : (holdOf sub destination).id = (holdOf sub first).id := by
              rw [hsame, hid]
            exact hother (List.mem_map.mpr ⟨destination, hmem, hbase⟩)
          · exact hfresh destination (List.mem_cons_of_mem _ hmem) hold
        obtain ⟨value, hvalue, hopened, hholds⟩ | hfails := ih hrest hstill hlater
        · refine .inl ⟨value, hvalue, hcreates.opened.trans hopened, fun destination hmem => ?_⟩
          rcases List.mem_cons.mp hmem with rfl | hmem
          · refine ⟨account, hopened.latest _ account ?_, hfrozen, hclosed⟩
            rw [InMemoryStore.latest, ← hid, hcreates.versions]
            rfl
          · exact hholds destination hmem
        · exact .inr hfails
      · obtain ⟨hexists, _⟩ | ⟨_, _, _, _, _, hok | ⟨_, hclock⟩⟩ := openHold_alone hopen
        · exact absurd hexists hnew
        · cases hok
        · exact .inr ⟨err, rfl, hclock⟩

omit [Sha256] in
/-- If all holds are opened, the base ids are different. -/
theorem openHolds_nodup {book : BookId} {sub : Int64} {destinations : List AccountId}
    {value : PUnit}
    (halone : Alone (destinations.forM (openHold book sub)) before (.ok value) after) :
    (destinations.map (·.id)).Nodup ∧
      ∀ destination ∈ destinations, holdOf sub destination ∉ before.store.accounts := by
  induction destinations generalizing before with
  | nil => simp
  | cons first rest ih =>
      obtain ⟨_, middle, hopen, hlater⟩ := alone_bind_ok_iff.mp halone
      obtain ⟨_, herror, _⟩ | ⟨account, hid, _, _, hcreates, _⟩ := openHold_alone hopen
      · cases herror
      obtain ⟨hdistinct, hstill⟩ := ih hlater
      have hnew := hcreates.fresh
      rw [hid] at hnew
      refine ⟨?_, ?_⟩
      · rw [List.map_cons, List.nodup_cons]
        refine ⟨fun hmem => ?_, hdistinct⟩
        obtain ⟨destination, hmem, hsame⟩ := List.mem_map.mp hmem
        -- the later hold would be the one that has just been created
        refine hstill destination hmem ((hcreates.accounts _).mpr (.inl ?_))
        rw [hid, holdOf, holdOf, hsame]
      · intro destination hmem
        rcases List.mem_cons.mp hmem with rfl | hmem
        · exact hnew
        · exact fun hold => hstill destination hmem ((hcreates.accounts _).mpr (.inr hold))

/-! ## Parking the funds -/

omit [Sha256] [Cbor] in
/-- The parking transfer takes the same funds. -/
theorem sameDebits_parkingTransfer (transfer : Transfer) (sub : Int64) (payload : List UInt8) :
    transfer.SameDebits (parkingTransfer transfer sub payload) := by
  simp [Transfer.SameDebits, parkingTransfer, parked, Movement.source]

omit [Sha256] [Cbor] in
theorem mem_parkingTransfer {transfer : Transfer} {sub : Int64} {payload : List UInt8}
    {movement : Movement} (hmem : movement ∈ (parkingTransfer transfer sub payload).movements) :
    ∃ original ∈ transfer.movements, movement.toAccount = holdOf sub original.toAccount ∧
      movement.amount = original.amount := by
  obtain ⟨original, horiginal, rfl⟩ := List.mem_map.mp hmem
  exact ⟨original, horiginal, rfl, rfl⟩

omit [Cbor] in
/-- What a parked trade is resolved to spends what the trade itself would spend. -/
theorem Examined.resolved_parking {first second : InMemoryStore} {transfer other : Transfer}
    {envelope diverted : Envelope} {spent others : List Posting}
    {extra differences parked : List NewPosting} {order : IterationOrder} {loaded : LoadedState}
    (hexamined : Examined first transfer envelope spent extra order loaded)
    (hconsistent : Consistent first ∧ Consistent second) (hopened : OnlyOpened first second)
    (hdiverted : Resolved second other diverted others parked)
    (hconsumes : diverted.consumes = envelope.consumes)
    (hcreates : envelope.creates = transfer.movements.map Movement.credit ++ differences)
    (hparked : diverted.creates = other.movements.map Movement.credit ++ differences) :
    Resolved second other diverted spent extra := by
  have hsame : second.activeOf diverted.consumes = first.activeOf envelope.consumes := by
    rw [hconsumes, InMemoryStore.activeOf, hopened.postings]
    rfl
  rw [hdiverted.activeOf_consumes hconsistent.2,
    hexamined.resolved.activeOf_consumes hconsistent.1] at hsame
  rw [hexamined.resolved.creates] at hcreates
  rw [hdiverted.creates] at hparked
  cases hsame
  cases List.append_cancel_left hcreates
  cases List.append_cancel_left hparked
  exact hdiverted

/-- The trade could be committed before its holds were opened, and opening them is
all that has happened since. -/
structure Parkable (before after : InMemoryStore) (transfer : Transfer) : Prop where
  consistent : Consistent before ∧ Consistent after
  wellFormed : WellFormed before ∧ WellFormed after
  safe : OverdraftSafe before
  owned : Owned before
  opened : OnlyOpened before after
  fresh : ∀ movement ∈ transfer.movements,
    holdOf (inflightSubaccount transfer) movement.toAccount ∉ before.accounts
  holds : ∀ movement ∈ transfer.movements,
    Participates after (holdOf (inflightSubaccount transfer) movement.toAccount)
  positive : ∀ movement ∈ transfer.movements, 0 < movement.amount.val
  book : AllowsAll before transfer.book
  recorded : ∀ key, 0 < transfer.outgoing key → Recorded before key
  validates : Validates before transfer

theorem Parkable.paysNew {first second : InMemoryStore} {transfer : Transfer}
    (hparkable : Parkable first second transfer) (payload : List UInt8) :
    PaysNew first second transfer
      (parkingTransfer transfer (inflightSubaccount transfer) payload) where
  debits := sameDebits_parkingTransfer _ _ _
  positive movement hmem := by
    obtain ⟨original, horiginal, _, hamount⟩ := mem_parkingTransfer hmem
    rw [hamount]
    exact hparkable.positive original horiginal
  fresh movement hmem := by
    obtain ⟨original, horiginal, hto, _⟩ := mem_parkingTransfer hmem
    rw [hto]
    exact InMemoryStore.versions_of_notMem (hparkable.fresh original horiginal)
  opened movement hmem := by
    obtain ⟨original, horiginal, hto, _⟩ := mem_parkingTransfer hmem
    rw [hto]
    exact hparkable.holds original horiginal
  book := hparkable.book

/-- The parking transfer is committed, unless the clock fails. -/
theorem Parkable.commit {store : InMemoryStore} {transfer : Transfer}
    (hparkable : Parkable store before.store transfer) {payload : List UInt8}
    {result : Except LedgerError Receipt}
    (halone : Alone (commit (parkingTransfer transfer (inflightSubaccount transfer) payload)) before
      result after) :
    (∃ receipt, result = .ok receipt) ∨ ∃ err, result = .error err ∧ after.clock = none := by
  have hpays := hparkable.paysNew payload
  have hpayees : ∀ movement ∈
      (parkingTransfer transfer (inflightSubaccount transfer) payload).movements, ∃ account,
        before.store.latest movement.toAccount = some account := by
    intro movement hmem
    obtain ⟨account, hlatest, _⟩ := hpays.opened movement hmem
    exact ⟨account, hlatest⟩
  obtain ⟨clock, envelope, _, spent, extra, order, loaded, hresolve, hexamined⟩ :=
    hparkable.validates.exists_examined hparkable.wellFormed.1 hparkable.consistent.1
      hparkable.recorded
  have hreroutes : ∀ {outcome middle}, Alone (resolve (parkingTransfer transfer
      (inflightSubaccount transfer) payload)) before outcome middle →
      ∃ diverted, outcome = .ok diverted ∧ Deliverable before.store diverted := by
    intro outcome middle hdivert
    obtain ⟨differences, diverted, rfl, hconsumes, hcreates, hparked⟩ :=
      resolve_rerouted hparkable.opened hparkable.consistent.1 hpays.debits hpayees hresolve hdivert
    obtain ⟨others, parked, hdiverted⟩ := resolve_alone hdivert
    have hsame := hexamined.resolved_parking hparkable.consistent hparkable.opened hdiverted
      hconsumes hcreates hparked
    have hdiverts : Diverts store before.store transfer _ envelope diverted spent extra order
        loaded := ⟨hexamined, hparkable.consistent, hparkable.wellFormed.2, hparkable.safe,
      hparkable.owned, hparkable.opened, hpays, hsame⟩
    exact ⟨diverted, rfl, hdiverts.deliverable⟩
  obtain ⟨_, middle, hdivert, hrest⟩ | ⟨_, hdivert, _⟩ := alone_bind_iff.mp halone
  · obtain ⟨diverted, hok, hdeliverable⟩ := hreroutes hdivert
    cases hok
    rw [← (resolve_readOnly _).store_eq hdivert] at hdeliverable
    exact hdeliverable.commitEnvelope hrest
  · obtain ⟨_, hok, _⟩ := hreroutes hdivert
    cases hok

theorem Parkable.park {store : InMemoryStore} {transfer : Transfer}
    (hparkable : Parkable store before.store transfer) {result : Except LedgerError Authorization}
    (halone : Alone (park transfer) before result after) :
    (∃ authorization, result = .ok authorization) ∨
      ∃ err, result = .error err ∧ after.clock = none := by
  obtain ⟨payload, hpayload, _⟩ := exists_encodeMeta
    (.authorize (transfer.movements.map (legOf (inflightSubaccount transfer))))
  obtain ⟨_, middle, hencode, hrest⟩ | ⟨err, hencode, _⟩ := alone_bind_iff.mp halone
  all_goals
    obtain ⟨hvalue, hworld⟩ := alone_attempt_iff.mp hencode
    rw [hpayload] at hvalue
    cases hvalue
  rw [← hworld] at hparkable
  obtain ⟨receipt, last, hcommit, hpure⟩ | ⟨err, hcommit, rfl⟩ := alone_bind_iff.mp hrest
  · exact .inl ⟨_, (alone_pure_iff.mp hpure).1⟩
  · obtain ⟨_, hok⟩ | ⟨_, _, hclock⟩ := hparkable.commit hcommit
    · cases hok
    · exact .inr ⟨err, rfl, hclock⟩

/-! ## Exactly when a trade is accepted -/

/-- No two different destinations share a base id. -/
def DistinctBases (transfer : Transfer) : Prop :=
  ∀ first ∈ transfer.movements, ∀ second ∈ transfer.movements,
    first.toAccount.id = second.toAccount.id → first.toAccount = second.toAccount

omit [Sha256] [Cbor] in
theorem nodup_destinations_iff {transfer : Transfer} :
    ((destinationsOf transfer).map (·.id)).Nodup ↔ DistinctBases transfer := by
  rw [destinationsOf, List.nodup_map_iff_inj_on (AccountId.nodup_sortDedup _)]
  simp only [List.mem_sortDedup, List.forall_mem_map]
  rfl

/-- A direct commit returns a receipt. If it is the receipt of an older transfer, the
trade would pass validation once more. -/
def Committable (world : World) (transfer : Transfer) : Prop :=
  ∃ receipt later, Alone (commit transfer) world (.ok receipt) later ∧
    (receipt.transferId ∈ world.store.transfers → Validates world.store transfer)

omit [Cbor] in
theorem Committable.validates {world : World} {transfer : Transfer}
    (hcommits : Committable world transfer) (hkeyed : KeyedByContent world.store) :
    Validates world.store transfer := by
  obtain ⟨receipt, later, hcommit, holder⟩ := hcommits
  exact (validates_of_commit hkeyed hcommit).elim holder id

theorem keyedByContent_served (ledger : Ledger) (actions : List ServiceAction) :
    KeyedByContent (servedStore ledger actions) :=
  served_induction ledger (fun _ _ hlookup => by cases hlookup)
    (fun _ _ _ hstep => hstep.keyed) actions

theorem owned_served (ledger : Ledger) (actions : List ServiceAction) :
    Owned (servedStore ledger actions) :=
  served_induction ledger owned_new (fun _ _ _ hstep => hstep.owned) actions

/-- In every reachable state, a trade that could be committed directly, under a book
that restricts nothing, and whose holds do not exist yet, can be authorized exactly
when no two of its destinations share a base id. The clock must not fail, and what
is active under the debited keys must be what is recorded there, which only a
transfer that creates more than 65536 postings can change. -/
theorem authorize_accepts_iff (ledger : Ledger) (actions : List ServiceAction)
    (transfer : Transfer)
    (hpositive : ∀ movement ∈ transfer.movements, 0 < movement.amount.val)
    (hmoves : ∀ movement ∈ transfer.movements, movement.fromAccount ≠ movement.toAccount)
    (hbook : AllowsAll (servedStore ledger actions) transfer.book)
    (hcommits : Committable (ServicePool.after ledger actions).shared transfer)
    (hunopened : ∀ movement ∈ transfer.movements,
      holdOf (inflightSubaccount transfer) movement.toAccount ∉
        (servedStore ledger actions).accounts)
    (hrecorded : ∀ key, 0 < transfer.outgoing key → Recorded (servedStore ledger actions) key)
    (result : Except LedgerError Authorization) (after : World)
    (halone : Alone (authorize transfer) (ServicePool.after ledger actions).shared result after)
    (hclock : after.clock ≠ none) :
    (∃ authorization, result = .ok authorization) ↔ DistinctBases transfer := by
  have hnone : transfer.movements.find? (fun movement => movement.fromAccount = movement.toAccount) =
      none := by
    rw [List.find?_eq_none]
    intro movement hmem heq
    exact hmoves movement hmem (of_decide_eq_true heq)
  rw [authorize_eq, hnone] at halone
  dsimp only at halone
  rw [← nodup_destinations_iff]
  constructor
  · rintro ⟨authorization, rfl⟩
    obtain ⟨_, _, hopen, _⟩ := alone_bind_ok_iff.mp halone
    exact (openHolds_nodup hopen).1
  · intro hdistinct
    have hfresh : ∀ destination ∈ destinationsOf transfer,
        holdOf (inflightSubaccount transfer) destination ∉
          (ServicePool.after ledger actions).shared.store.accounts := by
      intro destination hmem
      obtain ⟨movement, hmovement, rfl⟩ := List.mem_map.mp (List.mem_sortDedup.mp hmem)
      exact hunopened movement hmovement
    -- opening fails only with the clock, and then there is no later reading of it
    obtain ⟨_, middle, hopen, hpark⟩ | ⟨err, hopen, _⟩ := alone_bind_iff.mp halone
    swap
    · obtain ⟨_, hok, _⟩ | ⟨_, _, hfails⟩ := openHolds_alone hdistinct hfresh hopen
      · cases hok
      · exact absurd hfails hclock
    obtain ⟨_, _, hopened, hholds⟩ | ⟨_, herror, _⟩ := openHolds_alone hdistinct hfresh hopen
    swap
    · cases herror
    have hwell := wellFormed_served ledger actions
    have hconsistent := (accounted_served ledger actions).consistent
    have hevolves := (Moves.forM fun destination _ =>
      openHold_moves transfer.book (inflightSubaccount transfer) destination).evolves hwell hopen
    have hparkable : Parkable (servedStore ledger actions) middle.store transfer := {
      consistent := ⟨hconsistent, hevolves.keep _ (fun _ _ hstep => hstep.consistent) hconsistent⟩
      wellFormed := ⟨hwell, hevolves.wellFormed hwell⟩
      safe := overdraftSafe_served ledger actions
      owned := owned_served ledger actions
      opened := hopened
      fresh := hunopened
      holds := fun movement hmem => hholds _ (List.mem_sortDedup.mpr (List.mem_map_of_mem hmem))
      positive := hpositive
      book := hbook
      recorded := hrecorded
      validates := hcommits.validates (keyedByContent_served ledger actions) }
    exact (hparkable.park hpark).resolve_right fun ⟨_, _, hfails⟩ => hclock hfails

end Theory

open Sample in
theorem committable_of_any {actions : List ServiceAction} {transfer : Transfer}
    (hcommits : (Async.runWith noon (commit transfer).run
      (ServicePool.after ledger actions).shared).1.toOption.any (fun receipt =>
        decide (receipt.transferId ∉ (servedStore ledger actions).transfers.keys)) = true) :
    Committable (ServicePool.after ledger actions).shared transfer := by
  obtain ⟨receipt, hreceipt, hnew⟩ := exists_ok_of_any hcommits
  have hruns := Async.runs_runWith noon (commit transfer).run
    (ServicePool.after ledger actions).shared
  rw [hreceipt] at hruns
  exact ⟨receipt, _, hruns, fun hstored => absurd (AList.mem_keys.mp hstored) hnew⟩

open Sample in
theorem allowsAll_of_keys {actions : List ServiceAction}
    (hbooks : (servedStore ledger actions).books.keys = []) :
    AllowsAll (servedStore ledger actions) DEFAULT_BOOK := by
  left
  rw [AList.mem_keys, hbooks]
  exact ⟨List.not_mem_nil, rfl⟩

open Sample in
/-- Alice has been paid 8. -/
@[irreducible] def provided : List ServiceAction :=
  inTurn (opening ++ [.ledger (.commit (deposit 8))])

open Sample in
/-- Alice spends all that she has on two destinations. -/
def spread : Transfer where
  movements := [⟨alice, bob, usd, .ofI64 5⟩, ⟨alice, external, usd, .ofI64 3⟩]
  book := DEFAULT_BOOK
  metadata := .empty

open Sample in
/-- Two destinations with base ids of their own are authorized. -/
theorem authorize_accepts_spread : ∃ authorization after,
    Alone (authorize spread) (ServicePool.after ledger provided).shared (.ok authorization) after := by
  have hruns := Async.runs_runWith noon (authorize spread).run
    (ServicePool.after ledger provided).shared
  have hclock : (Async.runWith noon (authorize spread).run
      (ServicePool.after ledger provided).shared).2.clock ≠ none := by decide +kernel
  have hunopened : ∀ movement ∈ spread.movements,
      holdOf (inflightSubaccount spread) movement.toAccount ∉
        (servedStore ledger provided).accounts.keys := by
    decide +kernel
  have hrecorded : ∀ posting ∈ positives (servedStore ledger provided).postings.active.values,
      (servedStore ledger provided).postings.immutable.lookup posting.id = some posting := by
    decide +kernel
  have hdistinct : DistinctBases spread := by
    unfold DistinctBases
    decide
  generalize Async.runWith _ _ _ = outcome at hruns hclock
  obtain ⟨authorization, hok⟩ := (authorize_accepts_iff ledger provided spread (by decide)
    (by decide) (allowsAll_of_keys (by decide +kernel)) (committable_of_any (by decide +kernel))
    (fun movement hmem hexists => hunopened movement hmem (AList.mem_keys.mp hexists))
    (fun _ _ posting hposting _ => hrecorded posting hposting) _ _ hruns hclock).mpr hdistinct
  exact ⟨authorization, outcome.2, hok ▸ hruns⟩

open Sample in
/-- Bob has a second account with the same base id. -/
@[irreducible] def doubled : List ServiceAction :=
  inTurn (opening ++ [.ledger (.createAccount (.new ⟨3, 1⟩))])

open Sample in
/-- Both accounts of bob are paid. -/
def shared : Transfer where
  movements := [⟨external, bob, usd, .ofI64 5⟩, ⟨external, ⟨3, 1⟩, usd, .ofI64 3⟩]
  book := DEFAULT_BOOK
  metadata := .empty

open Sample in
/-- Paying both accounts of bob can be committed directly, and no hold of the trade
exists. It cannot be authorized: both destinations have the same hold. -/
theorem authorize_refuses_shared : ∃ actions after,
    (∀ movement ∈ shared.movements, 0 < movement.amount.val) ∧
    (∀ movement ∈ shared.movements, movement.fromAccount ≠ movement.toAccount) ∧
    AllowsAll (servedStore ledger actions) shared.book ∧
    Committable (ServicePool.after ledger actions).shared shared ∧
    (∀ movement ∈ shared.movements, holdOf (inflightSubaccount shared) movement.toAccount ∉
      (servedStore ledger actions).accounts) ∧
    Alone (authorize shared) (ServicePool.after ledger actions).shared
      (.error (.inflightAlreadyOpen ⟨3, 3⟩)) after := by
  have hruns := Async.runs_runWith noon (authorize shared).run
    (ServicePool.after ledger doubled).shared
  have hfailure : failure (Async.runWith noon (authorize shared).run
      (ServicePool.after ledger doubled).shared).1 = some (.inflightAlreadyOpen ⟨3, 3⟩) := by
    decide +kernel
  rw [eq_error_of_failure hfailure] at hruns
  refine ⟨doubled, _, by decide, by decide, allowsAll_of_keys (by decide +kernel),
    committable_of_any (by decide +kernel), ?_, hruns⟩
  have hholds : ∀ movement ∈ shared.movements,
      holdOf (inflightSubaccount shared) movement.toAccount ∉
        (servedStore ledger doubled).accounts.keys := by
    decide +kernel
  exact fun movement hmem hexists => hholds movement hmem (AList.mem_keys.mp hexists)

end Kuatia
