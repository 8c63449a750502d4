import Kuatia.Inflight.Draining
import Kuatia.Types.Orders

/-! # Settling completes an inflight

After `confirmAll` or `void` a hold is closed and owns nothing, unless it owns a
posting that is not positive, which no settlement ever takes, or unless a void is
cut off by the `i64` limit of the last funder.
-/

namespace Kuatia

open Async Interleaving LedgerM

section Theory

variable [MoneyWidth] [Sha256] [Cbor]

/-! ## The whole call -/

section Call

variable {start : InMemoryStore} {legs : List InflightLeg} {receipts : List Receipt}
  {before after : World} {role : SettleRole} {inflight : EnvelopeId} {record : EnvelopeRecord}

omit [MoneyWidth] [Sha256] [Cbor] in
theorem nodup_keysOf {groups : List HoldGroup} (hholds : (groups.map (·.hold)).Nodup)
    (hassets : ∀ group ∈ groups, group.assets.Nodup) : (groups.flatMap keysOf).Nodup := by
  rw [List.nodup_flatMap]
  constructor
  · intro group hgroup
    exact (hassets group hgroup).map fun _ _ heq => congrArg Prod.snd heq
  · refine (List.pairwise_map.mp hholds).imp fun hne key hfirst hsecond => hne ?_
    obtain ⟨_, _, rfl⟩ := List.mem_map.mp hfirst
    obtain ⟨_, _, heq⟩ := List.mem_map.mp hsecond
    exact (congrArg Prod.fst heq).symm

/-- Settling a whole inflight draws what is due under every key of its holds, and
closes the holds that pay out everything. -/
theorem settleAll_alone (hready : Ready before.store legs receipts)
    (hstored : before.store.transfers.lookup inflight = some record)
    (hlegs : readMeta record.envelope.metadata = some (.authorize legs))
    (halone : Alone (settleAll role inflight) before (.ok receipts) after) :
    ∃ drawn, Since before.store legs receipts drawn after.store ∧
      (∀ leg ∈ legs, takenFrom drawn leg.key =
        due role legs leg.key (before.store.liveBalance leg.key)) ∧
      ∀ leg ∈ legs, Drainable before.store legs role leg.hold →
        Closed after.store leg.hold ∧ OwnsNothing after.store leg.hold := by
  rw [settleAll_eq] at halone
  obtain ⟨⟨found, others⟩, first, hload, hrest⟩ := alone_bind_ok_iff.mp halone
  obtain ⟨hfound, hothers, hfirst⟩ := loadInflight_alone hload
  rw [hstored] at hfound
  cases hfound
  rw [hlegs] at hothers
  cases hothers
  obtain ⟨groups, second, hgroups, hloop⟩ := alone_bind_ok_iff.mp hrest
  obtain ⟨hvalue, rfl⟩ := alone_attempt_iff.mp hgroups
  obtain ⟨hholds, hassets⟩ := groupHolds_eq_ok hvalue.symm
  have hnodup : ([] ++ groups.flatMap keysOf).Nodup := by
    rw [List.nil_append]
    apply nodup_keysOf
    · rw [hholds]
      exact AccountId.nodup_sortDedup _
    · intro group hgroup
      rw [hassets group hgroup]
      exact AssetId.nodup_sortDedup _
  have hsame : PaidOut (OfTrade legs) [] before.store before.store := .of_same rfl rfl rfl rfl
  have hsince : Since before.store legs [] [] second.store := by
    rw [hfirst]
    exact ⟨.refl _, fun _ => .inl, hsame, rfl⟩
  have hsettled : Settled before.store legs role [] [] := ⟨nofun, nofun⟩
  obtain ⟨drawn, hafter, hall, hclosed⟩ := hsince.drainGroups hready hsettled nofun
    (fun group hgroup => group_of_groupHolds hvalue.symm hgroup) hnodup hloop List.prefix_rfl
  rw [List.nil_append] at hall
  have hgroup : ∀ leg ∈ legs, ∃ group ∈ groups, group.hold = leg.hold := by
    intro leg hleg
    have hmem := mem_holdsOf.mpr ⟨leg, hleg, rfl⟩
    rw [← hholds] at hmem
    exact List.mem_map.mp hmem
  have hkeys : ∀ leg ∈ legs, leg.key ∈ groups.flatMap keysOf := by
    intro leg hleg
    obtain ⟨group, hmem, hhold⟩ := hgroup leg hleg
    exact List.mem_flatMap.mpr ⟨group, hmem, mem_keysOf_of_leg (hassets group hmem) hleg hhold.symm⟩
  have hcarried : ∀ key ∈ groups.flatMap keysOf, ∃ leg ∈ legs, leg.key = key := by
    intro key hkey
    obtain ⟨group, hmem, hkey⟩ := List.mem_flatMap.mp hkey
    exact leg_of_mem_keysOf (hassets group hmem) hkey
  refine ⟨drawn, hafter, fun leg hleg => hall.exact _ (hkeys leg hleg), ?_⟩
  intro leg hleg hdrainable
  obtain ⟨group, hmem, hhold⟩ := hgroup leg hleg
  rw [← hhold] at hdrainable ⊢
  exact ⟨hclosed group hmem hdrainable, hafter.ownsNothing hready hall hcarried
    (fun other hother _ => hkeys other hother) ⟨leg, hleg, hhold.symm⟩ hdrainable⟩

/-- After the call the holds of the trade are closed and own nothing exactly when they
pay out everything. -/
theorem settleAll_completes_iff (hready : Ready before.store legs receipts)
    (hstored : before.store.transfers.lookup inflight = some record)
    (hlegs : readMeta record.envelope.metadata = some (.authorize legs))
    (halone : Alone (settleAll role inflight) before (.ok receipts) after) :
    (∀ leg ∈ legs, Closed after.store leg.hold ∧ OwnsNothing after.store leg.hold) ↔
      ∀ leg ∈ legs, Drainable before.store legs role leg.hold := by
  obtain ⟨drawn, hsince, htaken, hcloses⟩ := settleAll_alone hready hstored hlegs halone
  constructor
  · intro hcomplete leg hleg
    constructor
    · intro posting hposting howner
      by_contra hvalue
      exact (hcomplete leg hleg).2 posting (hsince.paid.kept posting hposting hvalue) howner
    · rintro rfl other hother _
      have hbalance := hsince.paid.balances other.key ⟨other, hother, rfl⟩
      have hempty : after.store.liveBalance other.key = 0 :=
        keyTotal_eq_zero fun posting hposting hkey =>
          (hcomplete other hother).2 posting hposting (congrArg Prod.fst hkey)
      have hroom : 0 ≤ totalFunded (fundingLegs legs other.hold other.asset).dropLast := by
        refine List.sum_nonneg fun value hvalue => ?_
        obtain ⟨funding, hfunding, rfl⟩ := List.mem_map.mp hvalue
        exact hready.amounts funding (List.mem_filter.mp (List.mem_of_mem_dropLast hfunding)).1
      rw [htaken other hother, hempty, due, InflightLeg.key] at hbalance
      dsimp only at hbalance
      rw [InflightLeg.key]
      omega
  · exact fun hdrainable leg hleg => hcloses leg hleg (hdrainable leg hleg)

end Call

/-! ## The holds of an orderly run -/

/-- Whoever was given something negative permits overdraft. -/
def CreatesPermitted (store : InMemoryStore) : Prop :=
  ∀ tid record, store.transfers.lookup tid = some record → ∀ posting ∈ record.envelope.creates,
    posting.value.val < 0 → ∃ account ∈ store.versions posting.owner,
      account.forbidsOverdraft = false

omit [Cbor] in
theorem StoreStep.createsPermitted {submits : Envelope → Prop} {before after : InMemoryStore}
    (hstep : StoreStep submits before after) (hpermitted : CreatesPermitted before) :
    CreatesPermitted after := by
  intro tid record hlookup posting hposting hnegative
  have hbefore : ∃ account ∈ before.versions posting.owner, account.forbidsOverdraft = false := by
    obtain ⟨_, htransfers, _⟩ | ⟨_, _, req, _, hvalid, _, _, _, rfl⟩ := hstep.postings_cases
    · exact hpermitted tid record (htransfers ▸ hlookup) posting hposting hnegative
    · rw [lookup_transfers_applyCommit] at hlookup
      split at hlookup
      next =>
        cases hlookup
        exact hvalid.negatives posting hposting hnegative
      next => exact hpermitted tid record hlookup posting hposting hnegative
  obtain ⟨account, hmem, hflag⟩ := hbefore
  exact ⟨account, (hstep.versions_prefix _).subset hmem, hflag⟩

theorem createsPermitted_served (ledger : Ledger) (actions : List ServiceAction) :
    CreatesPermitted (servedStore ledger actions) :=
  served_induction ledger (fun _ _ hlookup => nomatch hlookup)
    (fun _ _ _ hstep => hstep.createsPermitted) actions

section Holds

variable {ledger : Ledger} {actions : List ServiceAction} {inflight : EnvelopeId}
  {record : EnvelopeRecord} {legs : List InflightLeg}

/-- What a trade puts into its holds is not negative. -/
theorem amounts_of_trade (horderly : Orderly ledger actions) (hnamed : Named actions inflight)
    (hstored : (servedStore ledger actions).transfers.lookup inflight = some record)
    (hlegs : readMeta record.envelope.metadata = some (.authorize legs)) :
    ∀ leg ∈ legs, 0 ≤ leg.amount.val := by
  obtain ⟨transfer, _, hparks, rfl, hholds⟩ := authorized_trade horderly hnamed hstored hlegs
  intro leg hleg
  have hhold := hholds leg hleg
  obtain ⟨movement, hmovement, rfl⟩ := List.mem_map.mp hleg
  obtain ⟨extra, hcreates, _⟩ := hparks.creates
  have hcredit : (parked (inflightSubaccount transfer) movement).credit ∈
      record.envelope.creates := by
    rw [hcreates]
    exact List.mem_append_left _ (List.mem_map_of_mem hmovement)
  by_contra hnegative
  obtain ⟨other, hother, hpermits⟩ := createsPermitted_served ledger actions inflight record hstored
    _ hcredit (not_le.mp hnegative)
  obtain ⟨account, haccount, hforbids⟩ := hhold.forbids
  have hsame := (overdraftSafe_served ledger actions).uniform _ account haccount other hother
  rw [hforbids, hpermits] at hsame
  cases hsame

/-- Whatever a hold of the trade owns is of an asset that a leg has put into it. -/
theorem carried_by_leg (horderly : Orderly ledger actions) (hnamed : Named actions inflight)
    (hstored : (servedStore ledger actions).transfers.lookup inflight = some record)
    (hlegs : readMeta record.envelope.metadata = some (.authorize legs)) {posting : Posting}
    (hposting : posting ∈ (servedStore ledger actions).livePostings)
    (howner : OfTrade legs posting.owner) : ∃ leg ∈ legs, leg.key = posting.key := by
  obtain ⟨first, hfirst, hof⟩ := howner
  have haccounted := accounted_served ledger actions
  obtain ⟨_, _, _, _, hholds⟩ := authorized_trade horderly hnamed hstored hlegs
  have hhold : IsHold ledger actions posting.owner := hof ▸ hholds first hfirst
  have hfound : Found (SeenIn ledger actions) inflight record legs :=
    ⟨⟨_, ⟨actions, [], (List.append_nil _).symm, rfl⟩, hstored⟩, hlegs⟩
  have hfunds := funds_of_found horderly hnamed hfound hfirst hof
  -- the transfer that has created the posting is the authorize transfer or a settlement of it
  obtain ⟨id, hlookup⟩ :=
    (InMemoryStore.mem_livePostings haccounted.consistent.reserved).mp hposting
  obtain ⟨creator, hcreator, hcreated⟩ := haccounted.sourced.active id posting hlookup
  obtain ⟨source, hsource, hsame, hasset, _⟩ := exists_of_mem_createdPostings hcreated
  have hfiled := haccounted.catalogued.creates _ creator hcreator source hsource
  have hkey : posting.key = source.key := by rw [Posting.key, NewPosting.key, hsame, hasset]
  rw [← hsame] at hfiled
  rw [hkey]
  cases origin_of_stored horderly hcreator with
  | other _ haway => exact absurd hhold (haway _ hfiled)
  | parks transfer hrequested hparks =>
      have hfundsToo : Funds posting.owner creator :=
        ⟨⟨_, hparks.payload⟩, source, hsource, hsame.symm⟩
      have htid := funded_once horderly hhold hcreator hstored hfundsToo hfunds
      rw [htid, hstored] at hcreator
      cases hcreator
      have hpayload := hparks.payload
      rw [hlegs] at hpayload
      cases hpayload
      obtain ⟨extra, hcreates, hextra⟩ := hparks.creates
      rw [hcreates] at hsource
      rcases List.mem_append.mp hsource with hcredit | hchange
      · obtain ⟨movement, hmovement, rfl⟩ := List.mem_map.mp hcredit
        exact ⟨_, List.mem_map_of_mem hmovement, rfl⟩
      · obtain ⟨movement, hmovement, hfrom⟩ := hextra source hchange
        have hnot := (horderly.trades transfer hrequested movement hmovement).1
        rw [← hfrom, ← hsame] at hnot
        exact absurd hhold hnot
  | settles settled hsettledNamed hsettles =>
      obtain ⟨hassetSame, hto⟩ := hsettles.creates.2 source hsource
      obtain ⟨destination, hpayable, _⟩ := hsettles.payable
      rcases hto with htarget | hhere
      · have hnot := target_not_hold horderly hsettledNamed hsettles.found hpayable
        rw [← htarget, ← hsame] at hnot
        exact absurd hhold hnot
      · obtain ⟨leg, hleg, hlegHold, hlegAsset⟩ := hpayable.carried
        have hlegOwner : leg.hold = posting.owner := by rw [hlegHold, ← hhere, hsame]
        obtain ⟨⟨world, hseen, hworld⟩, hothers⟩ := hsettles.found
        have hearlier := hseen.evolves.lookup_transfers hworld
        have hfundsToo := funds_of_found horderly hsettledNamed hsettles.found hleg hlegOwner
        have htid := funded_once horderly hhold hearlier hstored hfundsToo hfunds
        subst htid
        rw [hstored] at hearlier
        cases hearlier
        rw [hlegs] at hothers
        cases hothers
        exact ⟨leg, hleg, by rw [InflightLeg.key, NewPosting.key, hlegHold, hlegAsset, hhere,
          hassetSame]⟩

end Holds

/-- The request that settles a whole inflight. -/
def SettleRole.request (role : SettleRole) (inflight : EnvelopeId) : ServiceRequest :=
  match role with
  | .confirm => .confirmAll inflight
  | .void => .void inflight

/-- Every settlement of the call has stored a transfer of its own. -/
structure AllNew (store : InMemoryStore) (receipts : List Receipt) : Prop where
  unstored : ∀ receipt ∈ receipts, receipt.transferId ∉ store.transfers
  nodup : (receipts.map (·.transferId)).Nodup

instance (store : InMemoryStore) (receipts : List Receipt) : Decidable (AllNew store receipts) :=
  decidable_of_iff ((∀ receipt ∈ receipts, receipt.transferId ∉ store.transfers) ∧
    (receipts.map (·.transferId)).Nodup) ⟨fun ⟨hunstored, hnodup⟩ => ⟨hunstored, hnodup⟩,
      fun hnew => ⟨hnew.unstored, hnew.nodup⟩⟩

/-- In an orderly run, a call that settles an inflight with exact cache points and runs
alone leaves all holds of the trade closed and empty exactly when each of them pays out
everything. -/
theorem settling_completes_iff (ledger : Ledger) (actions : List ServiceAction)
    (inflight : EnvelopeId) (role : SettleRole)
    (horderly : Orderly ledger (actions ++ [.start (role.request inflight)]))
    (receipts : List Receipt) (after : World)
    (halone : Alone (settleAll role inflight) (ServicePool.after ledger actions).shared
      (.ok receipts) after) (hnew : AllNew (servedStore ledger actions) receipts)
    (record : EnvelopeRecord) (legs : List InflightLeg)
    (hstored : (servedStore ledger actions).transfers.lookup inflight = some record)
    (hlegs : readMeta record.envelope.metadata = some (.authorize legs))
    (hsound : ∀ leg ∈ legs, CacheSound (servedStore ledger actions) leg.key receipts.length) :
    (∀ leg ∈ legs, Closed after.store leg.hold ∧ OwnsNothing after.store leg.hold) ↔
      ∀ leg ∈ legs, Drainable (servedStore ledger actions) legs role leg.hold := by
  -- the call is started, and nothing has happened since
  have hsame : servedStore ledger (actions ++ [.start (role.request inflight)]) =
      servedStore ledger actions := by
    rw [servedStore, ServicePool.after, Pool.run_append]
    rfl
  have hnamed : Named (actions ++ [.start (role.request inflight)]) inflight := by
    refine ⟨role.request inflight, List.mem_append_right _ List.mem_cons_self, ?_⟩
    cases role <;> rfl
  rw [← hsame] at hstored
  obtain ⟨transfer, hrequested, hparks, hmade, hholds⟩ :=
    authorized_trade horderly hnamed hstored hlegs
  have hparties : ∀ leg ∈ legs, ¬OfTrade legs leg.destination ∧ ¬OfTrade legs leg.funder := by
    intro leg hleg
    rw [hmade] at hleg
    obtain ⟨movement, hmovement, rfl⟩ := List.mem_map.mp hleg
    have htrades := horderly.trades transfer hrequested movement hmovement
    constructor
    · rintro ⟨other, hother, hhold⟩
      have hdestination : other.hold = movement.toAccount := hhold
      exact htrades.2 (hdestination ▸ hholds other hother)
    · rintro ⟨other, hother, hhold⟩
      have hfunder : other.hold = movement.fromAccount := hhold
      exact htrades.1 (hfunder ▸ hholds other hother)
  have hready : Ready (servedStore ledger actions) legs receipts := by
    rw [← hsame] at hsound hnew ⊢
    exact ⟨accounted_served ledger _, spendsOnce_served ledger _, overdraftSafe_served ledger _,
      fun leg hleg => (hholds leg hleg).forbids, amounts_of_trade horderly hnamed hstored hlegs,
      hparties, hsound, fun posting => carried_by_leg horderly hnamed hstored hlegs, hnew.unstored,
      hnew.nodup⟩
  rw [hsame] at hstored
  exact settleAll_completes_iff hready hstored hlegs halone

end Theory

section Settled

namespace Sample

/-- One more call is started after the others. -/
theorem orderly_start {requests : List ServiceRequest} {request : ServiceRequest}
    (hothers : ∀ other ∈ requests ++ [request], other.isOther = true → other.mayStore = false)
    (hapart : TradesApart (tradesOf (requests ++ [request]))) :
    Orderly ledger (inTurn requests ++ [.start request]) := by
  refine orderly_of_started (fun other hstart => ?_) hothers hapart
  rcases List.mem_append.mp hstart with hearlier | hlast
  · exact List.mem_append_left _ (mem_of_start_inTurn hearlier)
  · cases List.mem_singleton.mp hlast
    exact List.mem_append_right _ List.mem_cons_self

/-- Bob is paid nothing and then 5. -/
def padded : Transfer where
  movements := [⟨external, bob, usd, .ZERO⟩, ⟨external, bob, usd, .ofI64 5⟩]
  book := DEFAULT_BOOK
  metadata := .empty

def paddedRequests : List ServiceRequest := opening ++ [.authorize padded]

def parkedRequests : List ServiceRequest := opening ++ [.authorize (pay external bob 5)]

/-- The authorize transfer and the legs of the only inflight. -/
def parkedLegs (requests : List ServiceRequest) : Option (EnvelopeRecord × List InflightLeg) :=
  (servedStore ledger (inTurn requests)).transfers.lookup parkedId |>.bind fun record =>
    match readMeta record.envelope.metadata with
    | some (.authorize legs) => some (record, legs)
    | _ => none

theorem parkedLegs_eq_some {requests : List ServiceRequest} {record : EnvelopeRecord}
    {legs : List InflightLeg} (hparked : parkedLegs requests = some (record, legs)) :
    (servedStore ledger (inTurn requests)).transfers.lookup parkedId = some record ∧
      readMeta record.envelope.metadata = some (.authorize legs) := by
  obtain ⟨found, hfound, hlegs⟩ := Option.bind_eq_some_iff.mp hparked
  split at hlegs
  next others hothers =>
    cases hlegs
    exact ⟨hfound, hothers⟩
  next => cases hlegs

/-- All settlements are new, and some hold is left open with what it owns. -/
def staysOpen (requests : List ServiceRequest) (legs : List InflightLeg)
    (outcome : Except LedgerError (List Receipt) × World) : Bool :=
  outcome.1.toOption.any fun receipts =>
    decide (AllNew (servedStore ledger (inTurn requests)) receipts ∧
      ∃ leg ∈ legs, ¬Closed outcome.2.store leg.hold ∧ ¬OwnsNothing outcome.2.store leg.hold)

theorem pointsOf_of_none {store : InMemoryStore} (hnone : store.projections.entries = [])
    (key : BalanceKey) : store.pointsOf key = [] := by
  have hempty : store.projections = ∅ := AList.ext hnone
  rw [InMemoryStore.pointsOf, hempty]
  rfl

end Sample

open Sample

/-- Confirming the 5 parked for bob closes the hold. -/
theorem settling_completes_parked : ∃ receipts after record legs,
    Alone (settleAll .confirm parkedId) (ServicePool.after ledger (inTurn parkedRequests)).shared
        (.ok receipts) after ∧
      (servedStore ledger (inTurn parkedRequests)).transfers.lookup parkedId = some record ∧
      readMeta record.envelope.metadata = some (.authorize legs) ∧ legs ≠ [] ∧
      ∀ leg ∈ legs, Closed after.store leg.hold ∧ OwnsNothing after.store leg.hold := by
  have hruns := Async.runs_runWith noon (settleAll .confirm parkedId).run
    (ServicePool.after ledger (inTurn parkedRequests)).shared
  obtain ⟨receipts, hok, hnew⟩ := exists_ok_of_any (show ((Async.runWith noon
    (settleAll .confirm parkedId).run (ServicePool.after ledger (inTurn parkedRequests)).shared).1
      |>.toOption.any fun receipts =>
        decide (AllNew (servedStore ledger (inTurn parkedRequests)) receipts)) = true by
    decide +kernel)
  obtain ⟨⟨record, legs⟩, hparked, hsome, hpositive⟩ : ∃ parked,
      parkedLegs parkedRequests = some parked ∧ parked.2 ≠ [] ∧ ∀ leg ∈ parked.2,
        ∀ posting ∈ (servedStore ledger (inTurn parkedRequests)).livePostings,
          posting.owner = leg.hold → 0 < posting.value.val := by
    have hany : (parkedLegs parkedRequests).any (fun parked => decide (parked.2 ≠ [] ∧
        ∀ leg ∈ parked.2, ∀ posting ∈ (servedStore ledger (inTurn parkedRequests)).livePostings,
          posting.owner = leg.hold → 0 < posting.value.val)) = true := by
      decide +kernel
    obtain ⟨parked, hparked, hholds⟩ := (Option.any_eq_true _ _).mp hany
    exact ⟨parked, hparked, of_decide_eq_true hholds⟩
  obtain ⟨hstored, hlegs⟩ := parkedLegs_eq_some hparked
  rw [hok] at hruns
  have horderly : Orderly ledger
      (inTurn parkedRequests ++ [.start (SettleRole.confirm.request parkedId)]) :=
    orderly_start (by decide +kernel) (by decide +kernel)
  have hnone : (servedStore ledger (inTurn parkedRequests)).projections.entries = [] := by
    decide +kernel
  refine ⟨receipts, _, record, legs, hruns, hstored, hlegs, hsome, ?_⟩
  refine (settling_completes_iff ledger (inTurn parkedRequests) parkedId .confirm horderly receipts _
    hruns hnew record legs hstored hlegs fun leg _ => ?_).mpr fun leg hleg => ?_
  · exact .of_none (pointsOf_of_none hnone leg.key) _
  · exact ⟨hpositive leg hleg, nofun⟩

/-- With a leg of 0 beside the one of 5, confirming everything pays bob the 5 and leaves
the hold open. -/
theorem padded_hold_stays_open : ∃ receipts after record legs,
    Orderly ledger (inTurn paddedRequests ++ [.start (SettleRole.confirm.request parkedId)]) ∧
      Alone (settleAll .confirm parkedId) (ServicePool.after ledger (inTurn paddedRequests)).shared
        (.ok receipts) after ∧ AllNew (servedStore ledger (inTurn paddedRequests)) receipts ∧
      (servedStore ledger (inTurn paddedRequests)).transfers.lookup parkedId = some record ∧
      readMeta record.envelope.metadata = some (.authorize legs) ∧
      (∀ leg ∈ legs,
        CacheSound (servedStore ledger (inTurn paddedRequests)) leg.key receipts.length) ∧
      ∃ leg ∈ legs, ¬Closed after.store leg.hold ∧ ¬OwnsNothing after.store leg.hold := by
  have hruns := Async.runs_runWith noon (settleAll .confirm parkedId).run
    (ServicePool.after ledger (inTurn paddedRequests)).shared
  have hcheck : ((parkedLegs paddedRequests).any fun parked =>
      staysOpen paddedRequests parked.2 (Async.runWith noon (settleAll .confirm parkedId).run
        (ServicePool.after ledger (inTurn paddedRequests)).shared)) = true := by
    decide +kernel
  obtain ⟨⟨record, legs⟩, hparked, hcheck⟩ := (Option.any_eq_true _ _).mp hcheck
  obtain ⟨hstored, hlegs⟩ := parkedLegs_eq_some hparked
  generalize Async.runWith _ _ _ = outcome at hruns hcheck
  obtain ⟨result, after⟩ := outcome
  obtain ⟨receipts, rfl, hnew, hopen⟩ := exists_ok_of_any hcheck
  have hnone : (servedStore ledger (inTurn paddedRequests)).projections.entries = [] := by
    decide +kernel
  refine ⟨receipts, after, record, legs, orderly_start (by decide +kernel) (by decide +kernel), hruns,
    hnew, hstored, hlegs, fun leg _ => ?_, hopen⟩
  exact .of_none (pointsOf_of_none hnone leg.key) _

end Settled

end Kuatia
