import Kuatia.Inflight.Atomicity
import Kuatia.Inflight.Holding
import Kuatia.Inflight.Sample
import Kuatia.Ledger.Feasible

/-! # Holds are in balance

In an orderly run whose authorize transfers do not wrap the posting index, what a
hold was funded with is what its settlements have paid out and what is left in it.
A trade of 65536 movements is enough to wrap the index: of its funds some are lost.
-/

namespace Kuatia

open Async Interleaving LedgerM
open MoneyWidth (backing)

section Theory

variable [MoneyWidth] [Sha256] [Cbor]

/-- The transfer settles the hold, to an account that the leg table of an authorize
transfer of the hold names as destination or as funder. -/
def OwedBy (store : InMemoryStore) (hold : AccountId) (record : EnvelopeRecord)
    (account : AccountId) : Prop :=
  ∃ tid funding legs, store.transfers.lookup tid = some funding ∧ Funds hold funding ∧
    readMeta funding.envelope.metadata = some (.authorize legs) ∧ ∃ leg ∈ legs, leg.hold = hold ∧
      match readMeta record.envelope.metadata with
      | some (.confirm inflight destination) =>
          inflight = tid ∧ destination = leg.destination ∧ account = leg.destination
      | some (.void inflight _) => inflight = tid ∧ account = leg.funder
      | _ => False

/-- One authorize transfer at most funds the hold, settlements pay out to its
destination or its funders, and for every asset the amounts add up. -/
structure InBalance (store : InMemoryStore) (hold : AccountId) : Prop where
  once : ∀ tid tid' record record', store.transfers.lookup tid = some record →
    store.transfers.lookup tid' = some record' → Funds hold record → Funds hold record' → tid = tid'
  owed : ∀ record ∈ store.transfersOf hold,
    (∃ legs, readMeta record.envelope.metadata = some (.authorize legs)) ∨
      ∀ posting ∈ settledPostings hold record, OwedBy store hold record posting.owner
  balanced : ∀ asset, store.settledOut hold asset .confirm + store.settledOut hold asset .void +
    store.liveBalance (hold, asset) = store.authorizedInto hold asset
  nonneg : ∀ asset, 0 ≤ store.liveBalance (hold, asset)

variable {ledger : Ledger} {actions : List ServiceAction} {hold : AccountId}

/-- The authorize transfer that a settlement refers to has funded its hold. -/
theorem funds_of_found (horderly : Orderly ledger actions) {inflight : EnvelopeId}
    (hnamed : Named actions inflight) {record : EnvelopeRecord} {legs : List InflightLeg}
    (hfound : Found (SeenIn ledger actions) inflight record legs) {leg : InflightLeg}
    (hleg : leg ∈ legs) (hhold : leg.hold = hold) : Funds hold record := by
  refine ⟨⟨legs, hfound.2⟩, ?_⟩
  obtain ⟨transfer, _, hparks, rfl⟩ := trade_of_found horderly hnamed hfound
  obtain ⟨movement, hmovement, rfl⟩ := List.mem_map.mp hleg
  obtain ⟨extra, hcreates, _⟩ := hparks.creates
  rw [hcreates]
  exact ⟨_, List.mem_append_left _ (List.mem_map_of_mem hmovement), hhold⟩

/-- Whoever a settlement pays is owed it. -/
theorem owedBy_of_settles (horderly : Orderly ledger actions) {inflight : EnvelopeId}
    (hnamed : Named actions inflight) {found record : EnvelopeRecord} {legs : List InflightLeg}
    {target : AccountId} {asset : AssetId} {role : SettleRole}
    (hsettles : Settles (SeenIn ledger actions) inflight found legs hold target asset role
      record.envelope) {posting : NewPosting} (hposting : posting ∈ settledPostings hold record) :
    OwedBy (servedStore ledger actions) hold record posting.owner := by
  obtain ⟨⟨world, hseen, hlookup⟩, hlegs⟩ := hsettles.found
  have hstored := hseen.evolves.lookup_transfers hlookup
  obtain ⟨hcreated, hother⟩ := List.mem_filter.mp hposting
  have howner : posting.owner = target :=
    (hsettles.creates.2 posting hcreated).2.resolve_right (of_decide_eq_true hother)
  obtain ⟨destination, hpayable, hpayload⟩ := hsettles.payable
  cases role with
  | confirm =>
      obtain ⟨leg, hleg, hhold, hdestination⟩ := hpayable.destined
      have htarget : target = destination := hpayable.target
      refine ⟨inflight, found, legs, hstored, funds_of_found horderly hnamed hsettles.found hleg
        hhold, hlegs, leg, hleg, hhold, ?_⟩
      rw [hpayload]
      exact ⟨rfl, hdestination.symm, by rw [howner, htarget, hdestination]⟩
  | void =>
      obtain ⟨leg, hleg, hhold, _, hfunder⟩ := hpayable.target
      refine ⟨inflight, found, legs, hstored, funds_of_found horderly hnamed hsettles.found hleg
        hhold, hlegs, leg, hleg, hhold, ?_⟩
      rw [hpayload]
      exact ⟨rfl, by rw [howner, hfunder]⟩

/-- A hold is never overdrawn. -/
theorem IsHold.nonneg (hhold : IsHold ledger actions hold) (asset : AssetId) :
    0 ≤ (servedStore ledger actions).liveBalance (hold, asset) := by
  have hsafe := overdraftSafe_served ledger actions
  have hconsistent := (accounted_served ledger actions).consistent
  obtain ⟨account, haccount, hforbids⟩ := hhold.forbids
  apply keyTotal_nonneg
  intro posting hposting hkey
  obtain ⟨id, hlookup⟩ := (InMemoryStore.mem_livePostings hconsistent.reserved).mp hposting
  by_contra hnegative
  obtain ⟨other, hother, hpermits⟩ := hsafe.negatives id posting hlookup (by omega)
  have howner : posting.owner = hold := congrArg Prod.fst hkey
  rw [howner] at hother
  have hsame := hsafe.uniform hold account haccount other hother
  rw [hforbids, hpermits] at hsame
  cases hsame

/-- In every orderly run whose authorize transfers create at most 65536 postings,
every hold is in balance. -/
theorem holds_in_balance (ledger : Ledger) (actions : List ServiceAction)
    (horderly : Orderly ledger actions) (hindexed : ParkedIndexed (servedStore ledger actions))
    (hold : AccountId) (hhold : IsHold ledger actions hold) :
    InBalance (servedStore ledger actions) hold where
  once _ _ _ _ := funded_once horderly hhold
  owed record hrecord := by
    obtain ⟨tid, hstored, hfiled⟩ := InMemoryStore.mem_transfersOf.mp hrecord
    cases origin_of_stored horderly hstored with
    | other _ haway => exact absurd hhold (haway hold hfiled)
    | parks transfer _ hparks => exact .inl ⟨_, hparks.payload⟩
    | settles inflight hnamed hsettles =>
        right
        have hsource := source_of_settles (indexedFor_hold horderly hhold hindexed) hsettles
          horderly hnamed hhold hstored hfiled
        subst hsource
        exact fun _ => owedBy_of_settles horderly hnamed hsettles
  balanced asset := (authorizedInto_eq (indexedFor_hold horderly hhold hindexed) horderly hhold
    asset).symm
  nonneg := hhold.nonneg

end Theory

namespace Sample

/-- No trade names what may be a hold of one of them. -/
def TradesApart (trades : List Transfer) : Prop :=
  ∀ transfer ∈ trades, ∀ other ∈ trades, ∀ movement ∈ transfer.movements,
    ¬HoldOf other movement.fromAccount ∧ ¬HoldOf other movement.toAccount

instance (trades : List Transfer) : Decidable (TradesApart trades) :=
  inferInstanceAs (Decidable (∀ transfer ∈ trades, _))

theorem orderly_of_started {actions : List ServiceAction} {requests : List ServiceRequest}
    (hstarted : ∀ request, .start request ∈ actions → request ∈ requests)
    (hothers : ∀ request ∈ requests, request.isOther = true → request.mayStore = false)
    (hapart : TradesApart (tradesOf requests)) : Orderly ledger actions := by
  have htrade : ∀ transfer, .start (.authorize transfer) ∈ actions →
      transfer ∈ tradesOf requests := by
    intro transfer hrequested
    exact List.mem_filterMap.mpr ⟨_, hstarted _ hrequested, rfl⟩
  apply orderly_of_requests
  · exact fun request hrequested => hothers request (hstarted _ hrequested)
  · exact fun transfer other hfirst hsecond =>
      hapart transfer (htrade transfer hfirst) other (htrade other hsecond)

theorem orderly_inTurn {requests : List ServiceRequest}
    (hothers : ∀ request ∈ requests, request.isOther = true → request.mayStore = false)
    (hapart : TradesApart (tradesOf requests)) : Orderly ledger (inTurn requests) :=
  orderly_of_started (fun _ => mem_of_start_inTurn) hothers hapart

/-- The external account pays bob 5, and the funds are parked. -/
@[irreducible] def parked5 : List ServiceAction :=
  inTurn (opening ++ [.authorize (pay external bob 5)])

/-- Then 2 of them are confirmed. -/
@[irreducible] def confirmed2 : List ServiceAction :=
  inTurn (opening ++ [.authorize (pay external bob 5),
    .confirm (storedIn parked5) (pay external bob 2)])

theorem confirmed2_orderly : Orderly ledger confirmed2 := by
  unfold confirmed2
  exact orderly_inTurn (by decide +kernel) (by decide +kernel)

theorem confirmed2_isHold : IsHold ledger confirmed2 ⟨3, 5⟩ := by
  let trade := pay external bob 5
  have hcalls : (ServicePool.after ledger (inTurn opening)).calls.length = opening.length := by
    decide +kernel
  have hnone : (servedStore ledger (inTurn opening)).versions ⟨3, 5⟩ = [] := by decide +kernel
  have hsome : (servedStore ledger (inTurn (opening ++ [.authorize trade]))).versions ⟨3, 5⟩ ≠ [] := by
    decide +kernel
  rw [inTurn_append, ← hcalls] at hsome
  have hhold : IsHold ledger (inTurn (opening ++ [.authorize trade])) ⟨3, 5⟩ := by
    rw [inTurn_append, ← hcalls]
    exact isHold_of_alone (by decide +kernel) hnone _ hsome
  unfold confirmed2
  have hsplit : opening ++ [.authorize trade, .confirm (storedIn parked5) (pay external bob 2)] =
      (opening ++ [.authorize trade]) ++ [.confirm (storedIn parked5) (pay external bob 2)] := rfl
  rw [hsplit, inTurn_append]
  exact hhold.append _

end Sample

open Sample in
/-- After 2 of the 5 have been confirmed, the hold of bob is in balance. -/
theorem holds_in_balance_confirmed : Orderly ledger confirmed2 ∧
    ParkedIndexed (servedStore ledger confirmed2) ∧ IsHold ledger confirmed2 ⟨3, 5⟩ ∧
      InBalance (servedStore ledger confirmed2) ⟨3, 5⟩ := by
  have hindexed : ParkedIndexed (servedStore ledger confirmed2) := by
    have hsmall : ∀ record ∈ (servedStore ledger confirmed2).transfers.values,
        record.envelope.creates.length ≤ 65536 := by decide +kernel
    intro tid record legs hlookup _
    exact hsmall record (HashMap.mem_values_iff.mpr ⟨tid, hlookup⟩)
  exact ⟨confirmed2_orderly, hindexed, confirmed2_isHold,
    holds_in_balance ledger confirmed2 confirmed2_orderly hindexed _ confirmed2_isHold⟩

namespace Sample

/-- Bob is paid 5 and then 7, with many payments of nothing between. -/
@[irreducible] def crowdedTrade : Transfer where
  movements := ⟨external, bob, usd, .ofI64 5⟩ :: List.replicate 65534 ⟨external, bob, usd, .ZERO⟩ ++
    [⟨external, bob, usd, .ofI64 7⟩]
  book := DEFAULT_BOOK
  metadata := .empty

theorem movements_crowdedTrade : crowdedTrade.movements =
    ⟨external, bob, usd, .ofI64 5⟩ :: List.replicate 65534 ⟨external, bob, usd, .ZERO⟩ ++
      [⟨external, bob, usd, .ofI64 7⟩] := by
  unfold crowdedTrade
  rfl

theorem sub_crowdedTrade : inflightSubaccount crowdedTrade = 7 := by
  have hlast : inflightSubaccount (pay external bob 7) = 7 := by decide +kernel
  have hbytes : ∃ before, writeTransfer crowdedTrade =
      before ++ writeTransfer (pay external bob 7) := by
    rw [writeTransfer, movements_crowdedTrade, List.flatMap_append]
    exact ⟨_, rfl⟩
  obtain ⟨before, hbytes⟩ := hbytes
  have hlength : (writeTransfer (pay external bob 7)).length = 32 := by decide +kernel
  have hhash : doubleSha256 (Cbor.writeTransfer crowdedTrade) =
      doubleSha256 (Cbor.writeTransfer (pay external bob 7)) := by
    change doubleSha256 (writeTransfer crowdedTrade) = doubleSha256 (writeTransfer _)
    rw [hbytes, doubleSha256_append before hlength]
  rw [← hlast, inflightSubaccount, inflightSubaccount, hhash]

theorem mem_crowdedTrade {movement : Movement} (hmovement : movement ∈ crowdedTrade.movements) :
    movement.fromAccount = external ∧ movement.toAccount = bob ∧ movement.asset = usd ∧
      0 ≤ movement.amount.val := by
  rw [movements_crowdedTrade] at hmovement
  rcases List.mem_append.mp hmovement with hmovement | hmovement
  · rcases List.mem_cons.mp hmovement with rfl | hmovement
    · exact ⟨rfl, rfl, rfl, by decide⟩
    · rw [List.eq_of_mem_replicate hmovement]
      exact ⟨rfl, rfl, rfl, le_rfl⟩
  · rw [List.mem_singleton.mp hmovement]
    exact ⟨rfl, rfl, rfl, by decide⟩

theorem destinationsOf_crowdedTrade : destinationsOf crowdedTrade = [bob] := by
  apply List.sortDedup_of_forall
  · rw [movements_crowdedTrade]
    exact List.cons_ne_nil _ _
  · intro destination hdestination
    obtain ⟨movement, hmovement, rfl⟩ := List.mem_map.mp hdestination
    exact (mem_crowdedTrade hmovement).2.1

theorem holdOf_crowdedTrade {hold : AccountId} : HoldOf crowdedTrade hold ↔ hold = ⟨3, 7⟩ := by
  rw [HoldOf, destinationsOf_crowdedTrade, sub_crowdedTrade]
  simp only [List.mem_singleton, exists_eq_left]
  exact eq_comm

/-- The service after the hold of bob has been opened. -/
@[irreducible] def openedHold : Except LedgerError Unit × World :=
  Async.runWith noon (openHold DEFAULT_BOOK 7 bob).run
    (ServicePool.after ledger (inTurn opening)).shared

theorem openedHold_alone : Alone (openHold DEFAULT_BOOK 7 bob)
    (ServicePool.after ledger (inTurn opening)).shared (.ok ()) openedHold.2 := by
  have hruns : Alone (openHold DEFAULT_BOOK 7 bob)
      (ServicePool.after ledger (inTurn opening)).shared openedHold.1 openedHold.2 := by
    unfold openedHold
    exact Async.runs_runWith ..
  obtain ⟨value, hok⟩ := exists_of_no_failure (by decide +kernel : failure openedHold.1 = none)
  rwa [hok] at hruns

theorem openedHold_tables : openedHold.2.store.postings.active = ∅ ∧
    openedHold.2.store.postings.reserved = ∅ ∧ openedHold.2.store.transfers = ∅ ∧
    openedHold.2.store.books = ∅ := by
  have hentries : openedHold.2.store.postings.active.entries = [] ∧
      openedHold.2.store.postings.reserved.entries = [] ∧
      openedHold.2.store.transfers.entries = [] ∧ openedHold.2.store.books.entries = [] := by
    decide +kernel
  obtain ⟨hactive, hreserved, htransfers, hbooks⟩ := hentries
  exact ⟨AList.ext hactive, AList.ext hreserved, AList.ext htransfers, AList.ext hbooks⟩

theorem openedHold_accounts :
    ((openedHold.2.store.latest external).any fun account =>
      !account.isFrozen && !account.isClosed && !account.forbidsOverdraft) = true ∧
    ((openedHold.2.store.latest ⟨3, 7⟩).any fun account =>
      !account.isFrozen && !account.isClosed) = true := by
  decide +kernel

theorem crowded_feasible (payload : List UInt8) :
    Feasible openedHold.2.store (parkingTransfer crowdedTrade 7 payload) := by
  obtain ⟨hactive, hreserved, _, hbooks⟩ := openedHold_tables
  obtain ⟨hexternal, hhold⟩ := openedHold_accounts
  obtain ⟨payer, hpayer, hflags⟩ := Option.any_eq_true _ _ |>.mp hexternal
  obtain ⟨payee, hpayee, hfree⟩ := Option.any_eq_true _ _ |>.mp hhold
  simp only [Bool.and_eq_true, Bool.not_eq_true'] at hflags hfree
  -- every parked movement goes from the external account to the one hold
  have hparked : ∀ moved ∈ (parkingTransfer crowdedTrade 7 payload).movements,
      moved.fromAccount = external ∧ moved.toAccount = ⟨3, 7⟩ ∧ moved.asset = usd ∧
        0 ≤ moved.amount.val := by
    intro moved hmoved
    obtain ⟨movement, hmovement, rfl⟩ := List.mem_map.mp hmoved
    obtain ⟨hfrom, hto, hasset, hamount⟩ := mem_crowdedTrade hmovement
    exact ⟨hfrom, by rw [parked, hto]; rfl, hasset, hamount⟩
  constructor
  case movements =>
    rw [parkingTransfer, movements_crowdedTrade]
    exact List.cons_ne_nil _ _
  case amounts => exact fun moved hmoved => (hparked moved hmoved).2.2.2
  case payers =>
    intro moved hmoved
    rw [(hparked moved hmoved).1]
    exact ⟨payer, hpayer, hflags.1.1, hflags.1.2⟩
  case payees =>
    intro moved hmoved
    rw [(hparked moved hmoved).2.1]
    exact ⟨payee, hpayee, hfree.1, hfree.2⟩
  case affordable =>
    intro key houtgoing
    obtain ⟨moved, hmoved, rfl⟩ := exists_source_of_outgoing houtgoing
    have hkey : moved.source.1 = external := (hparked moved hmoved).1
    rw [Affordable, hkey]
    exact .inr ⟨payer, hpayer, hflags.2⟩
  case recorded =>
    intro key _ posting hposting
    rw [hactive] at hposting
    cases hposting
  case book =>
    refine .inl ⟨?_, ?_⟩
    · rw [hbooks]
      exact AList.notMem_empty _
    · unfold parkingTransfer crowdedTrade
      rfl
  case room =>
    have hnone : openedHold.2.store.liveMagnitude = 0 := by
      rw [InMemoryStore.liveMagnitude, InMemoryStore.livePostings_of_reserved hreserved, hactive]
      rfl
    have hamounts : (parkingTransfer crowdedTrade 7 payload).magnitude = 12 := by
      rw [Transfer.magnitude, parkingTransfer, List.map_map, movements_crowdedTrade,
        List.map_append, List.map_cons, List.map_replicate, Cent.magnitude_append,
        Cent.magnitude_cons, Cent.magnitude, List.map_replicate, List.sum_replicate]
      rfl
    rw [hnone, hamounts]
    decide

/-- What the parking of the crowded trade credits to the hold, but for the first posting. -/
@[irreducible] def laterCredits : List NewPosting :=
  List.replicate 65534 ⟨⟨3, 7⟩, usd, .ZERO, some external⟩ ++
    [⟨⟨3, 7⟩, usd, .ofI64 7, some external⟩]

theorem credits_crowdedTrade (payload : List UInt8) :
    (parkingTransfer crowdedTrade 7 payload).movements.map Movement.credit =
      ⟨⟨3, 7⟩, usd, .ofI64 5, some external⟩ :: laterCredits := by
  rw [parkingTransfer, movements_crowdedTrade, List.map_map, List.map_append, List.map_cons,
    List.map_replicate, List.cons_append, laterCredits]
  rfl

theorem length_laterCredits : laterCredits.length = 65535 := by
  rw [laterCredits, List.length_append, List.length_replicate, List.length_singleton]

theorem keyTotal_laterCredits :
    keyTotal NewPosting.key NewPosting.value laterCredits (⟨3, 7⟩, usd) = 7 := by
  have hkey : ∀ posting ∈ laterCredits, posting.key = (⟨3, 7⟩, usd) := by
    intro posting hposting
    rw [laterCredits] at hposting
    rcases List.mem_append.mp hposting with hposting | hposting
    · rw [List.eq_of_mem_replicate hposting]
      rfl
    · rw [List.mem_singleton.mp hposting]
      rfl
  rw [keyTotal_of_key hkey, if_pos rfl, laterCredits, List.map_append, List.map_replicate,
    List.sum_append, List.sum_replicate]
  rfl

/-- The debt of the external account is the last posting of the crowded parking. -/
theorem exists_debt {payload : List UInt8} {envelope : Envelope} {spent : List Posting}
    {extra : List NewPosting}
    (hresolved : Resolved openedHold.2.store (parkingTransfer crowdedTrade 7 payload) envelope spent
      extra) (hmadeUp : MadeUp (parkingTransfer crowdedTrade 7 payload) extra) :
    envelope.consumes = [] ∧ ∃ debt : NewPosting, debt.owner = external ∧
      envelope.creates = ⟨⟨3, 7⟩, usd, .ofI64 5, some external⟩ :: laterCredits ++ [debt] := by
  have hspent : spent = [] := by
    have hsubperm := hresolved.subperm
    rw [openedHold_tables.1] at hsubperm
    exact List.subperm_nil.mp hsubperm
  have hsource : ∀ moved ∈ (parkingTransfer crowdedTrade 7 payload).movements,
      moved.source = (external, usd) := by
    intro moved hmoved
    obtain ⟨movement, hmovement, rfl⟩ := List.mem_map.mp hmoved
    obtain ⟨hfrom, _, hasset, _⟩ := mem_crowdedTrade hmovement
    exact Prod.ext hfrom hasset
  have hkeys : ∀ posting ∈ extra, posting.key = (external, usd) := by
    intro posting hposting
    obtain ⟨moved, hmoved, heq⟩ := exists_source_of_outgoing (hmadeUp.owed posting hposting)
    exact heq.symm.trans (hsource moved hmoved)
  have houtgoing : (parkingTransfer crowdedTrade 7 payload).outgoing (external, usd) = 12 := by
    rw [Transfer.outgoing, keyTotal_of_key hsource, if_pos rfl, parkingTransfer, List.map_map,
      movements_crowdedTrade, List.map_append, List.map_cons, List.map_replicate, List.sum_append,
      List.sum_cons, List.sum_replicate]
    rfl
  have hexact := hresolved.exact (external, usd)
  rw [hspent, houtgoing] at hexact
  refine ⟨by rw [hresolved.consumes, hspent]; rfl, ?_⟩
  have hnodup := hmadeUp.keys
  rw [hresolved.creates, credits_crowdedTrade]
  cases extra with
  | nil => exact absurd hexact (by decide)
  | cons debt rest =>
      cases rest with
      | nil => exact ⟨debt, congrArg Prod.fst (hkeys debt (List.mem_singleton.mpr rfl)), rfl⟩
      | cons second rest =>
          rw [List.map_cons, List.map_cons, hkeys debt (by simp), hkeys second (by simp)] at hnodup
          simp at hnodup

/-- Bob's hold has been opened in a store that is in order. -/
theorem openedHold_sound : WellFormed openedHold.2.store ∧ Consistent openedHold.2.store ∧
    Catalogued openedHold.2.store ∧ OverdraftSafe openedHold.2.store := by
  have haccounted : Accounted (servedStore ledger (inTurn opening)) := accounted_served ledger _
  have hsafe : OverdraftSafe (servedStore ledger (inTurn opening)) := overdraftSafe_served ledger _
  have hmoves : Moves (fun _ => True) (fun _ => True) (fun _ => True)
      (openHold DEFAULT_BOOK 7 bob) := openHold_moves _ _ _
  have hevolves : Evolves (servedStore ledger (inTurn opening)) openedHold.2.store :=
    ((hmoves _ haccounted.wellFormed).since.of_alone openedHold_alone).2
  have hopened : Accounted openedHold.2.store :=
    hevolves.keep Accounted (fun _ _ hstep => hstep.accounted) haccounted
  exact ⟨hopened.wellFormed, hopened.consistent, hopened.catalogued,
    hevolves.keep OverdraftSafe (fun _ _ hstep => hstep.overdraftSafe) hsafe⟩

/-- The request that parks the crowded trade in the hold of bob. -/
structure CrowdedParking (req : CommitRequest) (payload : List UInt8) (debt : NewPosting) : Prop where
  read : ∀ metadata : Metadata, readMeta (metadata.insert K_INFLIGHT payload) =
    some (.authorize (crowdedTrade.movements.map (legOf 7)))
  metadata : req.record.envelope.metadata = crowdedTrade.metadata.insert K_INFLIGHT payload
  owner : debt.owner = external
  creates : req.record.envelope.creates =
    ⟨⟨3, 7⟩, usd, .ofI64 5, some external⟩ :: laterCredits ++ [debt]
  create : req.create = createdPostings req.transferId req.record.envelope.creates
  consume : req.consume = []
  involved : ⟨3, 7⟩ ∈ req.involved

/-- Alone, an authorization of the crowded trade opens the hold and parks. -/
theorem authorize_crowded_alone {world : World}
    {payload : List UInt8} {receipt : Receipt}
    (hpayload : encodeMeta (.authorize (crowdedTrade.movements.map (legOf 7))) = .ok payload)
    (hcommit : Alone (commit (parkingTransfer crowdedTrade 7 payload)) openedHold.2 (.ok receipt)
      world) :
    Alone (authorize crowdedTrade) (ServicePool.after ledger (inTurn opening)).shared
      (.ok ⟨receipt.transferId, crowdedTrade.movements.map (legOf 7)⟩) world := by
  have hbook : crowdedTrade.book = DEFAULT_BOOK := by
    unfold crowdedTrade
    rfl
  have hnone : crowdedTrade.movements.find?
      (fun movement => movement.fromAccount = movement.toAccount) = none := by
    apply List.find?_eq_none.mpr
    intro movement hmovement
    obtain ⟨hfrom, hto, _⟩ := mem_crowdedTrade hmovement
    rw [hfrom, hto]
    decide
  have hopens : Alone ((destinationsOf crowdedTrade).forM (openHold DEFAULT_BOOK 7))
      (ServicePool.after ledger (inTurn opening)).shared (.ok ()) openedHold.2 := by
    rw [destinationsOf_crowdedTrade]
    exact alone_bind_ok_iff.mpr ⟨(), _, openedHold_alone, alone_pure_iff.mpr ⟨rfl, rfl⟩⟩
  rw [← sub_crowdedTrade] at hpayload hcommit
  have hpark := park_ok hpayload hcommit
  rw [sub_crowdedTrade] at hpark
  rw [authorize_eq, hnone, hbook, sub_crowdedTrade]
  exact alone_bind_ok_iff.mpr ⟨(), _, hopens, hpark⟩

theorem exists_crowdedParking : ∃ authorization req payload debt clock,
    CrowdedParking req payload debt ∧
      Alone (authorize crowdedTrade) (ServicePool.after ledger (inTurn opening)).shared
        (.ok authorization) ⟨openedHold.2.store.applyCommit clock req, clock⟩ := by
  obtain ⟨payload, hpayload, hread⟩ := exists_encodeMeta
    (.authorize (crowdedTrade.movements.map (legOf 7)))
  obtain ⟨hwell, hconsistent, _, hsafe⟩ := openedHold_sound
  have hunstored : ∀ tid, tid ∉ openedHold.2.store.transfers := by
    intro tid
    rw [openedHold_tables.2.2.1]
    exact AList.notMem_empty _
  obtain ⟨envelope, spent, extra, loaded, hresolved, hmadeUp, hloaded, hcommit⟩ :=
    (crowded_feasible payload).exists_commit hwell hconsistent hsafe
      (fun _ _ _ _ => hunstored _) openedHold.2.clock 1800000000000
  obtain ⟨hconsumes, debt, howner, hcreates⟩ := exists_debt hresolved hmadeUp
  have hinvolved : ⟨3, 7⟩ ∈ involvedAccounts (planOf envelope) loaded := by
    have howners : (planOf envelope).postingsToCreate.map (·.owner) =
        envelope.creates.map (·.owner) := map_createdPostings _ _ fun owner _ _ => owner
    have hfirst : (⟨3, 7⟩ : AccountId) ∈ envelope.creates.map (·.owner) := by
      rw [hcreates]
      exact List.mem_cons_self
    rw [involvedAccounts, howners]
    simp [hfirst]
  refine ⟨_, commitRequest envelope (planOf envelope) loaded 1800000000000, payload, debt, _,
    ⟨hread, ?_, howner, hcreates, rfl, hconsumes, hinvolved⟩,
    authorize_crowded_alone hpayload hcommit⟩
  rw [commitRequest, hresolved.metadata, parkingTransfer]

theorem crowded_orderly (index : Nat) (choices : List Choice) :
    Orderly ledger (inTurn opening ++ .start (.authorize crowdedTrade) ::
      choices.map (.advance index)) := by
  have hrequests : ∀ request, .start request ∈ inTurn opening ++
      .start (.authorize crowdedTrade) :: choices.map (.advance index) →
      request ∈ opening ∨ request = .authorize crowdedTrade := by
    intro request hstarted
    rcases List.mem_append.mp hstarted with hstarted | hstarted
    · exact .inl (mem_of_start_inTurn hstarted)
    rcases List.mem_cons.mp hstarted with heq | hstarted
    · cases heq
      exact .inr rfl
    · obtain ⟨_, _, heq⟩ := List.mem_map.mp hstarted
      cases heq
  have hopening : ∀ request ∈ opening, request.mayStore = false := by decide
  have htrade : ∀ transfer, .start (.authorize transfer) ∈ inTurn opening ++
      .start (.authorize crowdedTrade) :: choices.map (.advance index) →
      transfer = crowdedTrade := by
    intro transfer hstarted
    rcases hrequests _ hstarted with hopens | heq
    · have hquiet := hopening _ hopens
      cases hquiet
    · exact ServiceRequest.authorize.inj heq
  apply orderly_of_requests
  · intro request hstarted hother
    rcases hrequests request hstarted with hopens | rfl
    · exact hopening request hopens
    · cases hother
  · intro transfer other hfirst hsecond movement hmovement
    rw [htrade transfer hfirst] at hmovement
    rw [htrade other hsecond, holdOf_crowdedTrade, holdOf_crowdedTrade]
    obtain ⟨hfrom, hto, _⟩ := mem_crowdedTrade hmovement
    rw [hfrom, hto]
    decide

section Totals

variable {req : CommitRequest} {payload : List UInt8} {debt : NewPosting} {clock : Clock}

theorem CrowdedParking.transfersOf (hparking : CrowdedParking req payload debt) :
    (openedHold.2.store.applyCommit clock req).transfersOf ⟨3, 7⟩ = [req.record] := by
  have hnew : req.transferId ∉ openedHold.2.store.transfers := by
    rw [openedHold_tables.2.2.1]
    exact AList.notMem_empty _
  have hnone : openedHold.2.store.transfersOf ⟨3, 7⟩ = [] := by
    apply List.eq_nil_iff_forall_not_mem.mpr
    intro record hrecord
    obtain ⟨tid, hstored, _⟩ := InMemoryStore.mem_transfersOf.mp hrecord
    rw [openedHold_tables.2.2.1] at hstored
    cases hstored
  rw [transfersOf_applyCommit openedHold_sound.2.2.1 hnew, if_pos hparking.involved, hnone]
  rfl

theorem CrowdedParking.readMeta (hparking : CrowdedParking req payload debt) :
    readMeta req.record.envelope.metadata =
      some (.authorize (crowdedTrade.movements.map (legOf 7))) := by
  rw [hparking.metadata]
  exact hparking.read _

theorem CrowdedParking.authorizedInto (hparking : CrowdedParking req payload debt) :
    (openedHold.2.store.applyCommit clock req).authorizedInto ⟨3, 7⟩ usd = 12 := by
  have hdebt : debt.key ≠ (⟨3, 7⟩, usd) := by
    intro hkey
    have howner : external = ⟨3, 7⟩ := hparking.owner.symm.trans (congrArg Prod.fst hkey)
    exact absurd howner (by decide)
  rw [InMemoryStore.authorizedInto, hparking.transfersOf, List.map_singleton, List.sum_singleton,
    parkedBy, hparking.readMeta]
  change keyTotal _ _ _ _ = _
  rw [hparking.creates, List.cons_append, keyTotal_cons, keyTotal_append, keyTotal_laterCredits,
    keyTotal_cons, if_neg hdebt]
  rfl

theorem CrowdedParking.settledOut (hparking : CrowdedParking req payload debt) (role : SettleRole) :
    (openedHold.2.store.applyCommit clock req).settledOut ⟨3, 7⟩ usd role = 0 := by
  rw [InMemoryStore.settledOut, hparking.transfersOf, List.map_singleton, List.sum_singleton]
  unfold settledBy
  rw [hparking.readMeta]
  cases role <;> rfl

theorem CrowdedParking.liveBalance (hparking : CrowdedParking req payload debt) :
    (openedHold.2.store.applyCommit clock req).liveBalance (⟨3, 7⟩, usd) = 7 := by
  obtain ⟨hactive, hreserved, _⟩ := openedHold_tables
  have hkept : (openedHold.2.store.applyCommit clock req).postings.reserved = ∅ := by
    rw [InMemoryStore.applyCommit_reserved, hreserved]
  have hvalues : (openedHold.2.store.applyCommit clock req).postings.active.values =
      activated req.create := by
    rw [InMemoryStore.applyCommit_active, hactive, hparking.consume]
    rfl
  have hdebt : debt.key ≠ (⟨3, 7⟩, usd) := by
    intro hkey
    have howner : external = ⟨3, 7⟩ := hparking.owner.symm.trans (congrArg Prod.fst hkey)
    exact absurd howner (by decide)
  rw [InMemoryStore.liveBalance, InMemoryStore.livePostings_of_reserved hkept, hvalues,
    hparking.create, hparking.creates, keyTotal_activated_wrapped _ _ _ length_laterCredits,
    keyTotal_cons, keyTotal_laterCredits, if_neg hdebt]
  rfl

end Totals

end Sample

open Sample in
/-- Bob's hold has been funded with 12 and nothing was settled, and 7 are in it:
the debt of the external account has taken the place of the first posting. -/
theorem crowded_hold_loses_funds : ∃ actions, Orderly ledger actions ∧
    IsHold ledger actions ⟨3, 7⟩ ∧ ¬InBalance (servedStore ledger actions) ⟨3, 7⟩ := by
  obtain ⟨authorization, req, payload, debt, clock, hparking, halone⟩ := exists_crowdedParking
  have hserved : Async.Runs (ledger.service (.authorize crowdedTrade))
      (ServicePool.after ledger (inTurn opening)).shared (.ok (.authorization authorization))
      ⟨openedHold.2.store.applyCommit clock req, clock⟩ :=
    alone_bind_ok_iff.mpr ⟨authorization, _, halone, alone_pure_iff.mpr ⟨rfl, rfl⟩⟩
  obtain ⟨choices, hafter⟩ := exists_served_alone ledger (inTurn opening) _ hserved
  have hstore : servedStore ledger _ = openedHold.2.store.applyCommit clock req :=
    congrArg World.store hafter
  have hnone : (servedStore ledger (inTurn opening)).versions ⟨3, 7⟩ = [] := by decide +kernel
  have hsome : (openedHold.2.store.applyCommit clock req).versions ⟨3, 7⟩ ≠ [] := by
    obtain ⟨account, hlatest, _⟩ := Option.any_eq_true _ _ |>.mp openedHold_accounts.2
    rw [InMemoryStore.versions_congr InMemoryStore.applyCommit_accounts]
    exact List.ne_nil_of_mem (InMemoryStore.mem_versions_of_latest hlatest)
  rw [← hstore] at hsome
  refine ⟨_, crowded_orderly _ choices,
    isHold_of_alone (holdOf_crowdedTrade.mpr rfl) hnone choices hsome, ?_⟩
  intro hbalance
  have hbalanced := hbalance.balanced usd
  rw [hstore, hparking.settledOut, hparking.settledOut, hparking.liveBalance,
    hparking.authorizedInto] at hbalanced
  cases hbalanced

end Kuatia
