import Kuatia.Inflight.Payouts
import Kuatia.Inflight.Settling
import Kuatia.Inflight.Status

/-! # Draining holds

`confirmAll` and `void` go through the holds of a trade, read what is left of each
asset and pay it out. Both are loops of settlements; what they take from a hold is
what the balance read says, up to the limit of the split.
-/

namespace Kuatia

open Async Interleaving LedgerM

section Theory

variable [MoneyWidth] [Sha256] [Cbor]

/-! ## One loop for both -/

/-- Confirm or void a whole inflight. -/
def settleAll (role : SettleRole) (inflight : EnvelopeId) : LedgerM (List Receipt) :=
  match role with
  | .confirm => confirmAll inflight
  | .void => void inflight

/-- Pay out what is left of one asset of a hold. -/
def drainAsset (role : SettleRole) (book : BookId) (inflight : EnvelopeId)
    (legs : List InflightLeg) (group : HoldGroup) : List Receipt → AssetId → LedgerM (List Receipt) :=
  match role with
  | .confirm => sweepAsset book inflight group
  | .void => returnAsset book inflight legs group

/-- Pay out everything left in a hold, and close it. -/
def drainGroup (role : SettleRole) (book : BookId) (inflight : EnvelopeId)
    (legs : List InflightLeg) (receipts : List Receipt) (group : HoldGroup) :
    LedgerM (List Receipt) := do
  let receipts ← group.assets.foldlM (drainAsset role book inflight legs group) receipts
  closeIfDrained group.hold
  return receipts

theorem settleAll_eq (role : SettleRole) (inflight : EnvelopeId) :
    settleAll role inflight = (do
      let (record, legs) ← loadInflight inflight
      let groups ← attempt (groupHolds legs inflight)
      groups.foldlM (drainGroup role record.envelope.book inflight legs) []) := by
  cases role <;> rfl

/-- The receipt of one more payout. -/
def payNext (role : SettleRole) (book : BookId) (inflight : EnvelopeId) (group : HoldGroup)
    (asset : AssetId) (receipts : List Receipt) (payout : FunderPayout) : LedgerM (List Receipt) := do
  let receipt ← settle book inflight group.hold payout.funder group.destination asset payout.give
    role
  return receipts ++ [receipt]

/-- What is left of an asset is paid out by a list of payouts. -/
def payoutsOf (role : SettleRole) (legs : List InflightLeg) (group : HoldGroup) (asset : AssetId)
    (balance : Cent) : Except OverflowError (List FunderPayout) :=
  match role with
  | .confirm => .ok (if balance.isPositive then [⟨group.destination, balance⟩] else [])
  | .void => distributeToFunders legs group.hold asset balance

theorem drainAsset_eq (role : SettleRole) (book : BookId) (inflight : EnvelopeId)
    (legs : List InflightLeg) (group : HoldGroup) (receipts : List Receipt) (asset : AssetId) :
    drainAsset role book inflight legs group receipts asset = (do
      let balance ← Ledger.balance group.hold asset
      let payouts ← attempt ((payoutsOf role legs group asset balance).mapError .ofOverflow)
      payouts.foldlM (payNext role book inflight group asset) receipts) := by
  cases role with
  | void => rfl
  | confirm =>
      refine bind_congr fun balance => ?_
      rw [payoutsOf]
      split
      next => exact (bind_pure _).symm
      next => rfl

/-- What a hold pays out of a balance: all of it on confirm, and on void at most what
the legs before the last one have funded and an `i64` of the last one. -/
def due (role : SettleRole) (legs : List InflightLeg) (key : BalanceKey) (balance : Int) : Int :=
  match role with
  | .confirm => max 0 balance
  | .void => min (max 0 balance)
      (totalFunded (fundingLegs legs key.1 key.2).dropLast + (2 ^ 63 - 1))

omit [Sha256] [Cbor] in
/-- The payouts are positive, come to what is due, and go to the parties of the trade. -/
theorem payoutsOf_eq_ok {role : SettleRole} {legs : List InflightLeg} {group : HoldGroup}
    {asset : AssetId} {balance : Cent} {payouts : List FunderPayout}
    (hamounts : ∀ leg ∈ legs, 0 ≤ leg.amount.val)
    (hcarried : ∃ leg ∈ legs, leg.hold = group.hold ∧ leg.asset = asset)
    (hpayouts : payoutsOf role legs group asset balance = .ok payouts) :
    (∀ payout ∈ payouts, 0 < payout.give.val) ∧
      (payouts.map (·.give.val)).sum = due role legs (group.hold, asset) balance.val ∧
      ∀ payout ∈ payouts, payout.funder = group.destination ∨
        ∃ leg ∈ legs, leg.funder = payout.funder := by
  cases role with
  | confirm =>
      cases hpayouts
      rw [due]
      split
      next hpositive =>
        have hpositive := Cent.isPositive_iff.mp hpositive
        refine ⟨?_, ?_, ?_⟩
        · exact List.forall_mem_singleton.mpr hpositive
        · simp only [List.map_cons, List.map_nil, List.sum_cons, List.sum_nil]
          omega
        · exact List.forall_mem_singleton.mpr (.inl rfl)
      next hnegative =>
        have hnegative := mt Cent.isPositive_iff.mpr hnegative
        refine ⟨nofun, ?_, nofun⟩
        rw [List.map_nil, List.sum_nil]
        omega
  | void =>
      have hparties : ∀ payout ∈ payouts, payout.funder = group.destination ∨
          ∃ leg ∈ legs, leg.funder = payout.funder := by
        intro payout hpayout
        obtain ⟨leg, hleg, _, _, hfunder⟩ := leg_of_mem_payouts hpayouts hpayout
        exact .inr ⟨leg, hleg, hfunder⟩
      have hsplit : payOut (liftLast (capsOf (fundingLegs legs group.hold asset))) balance =
          .ok payouts := hpayouts
      have hnonempty : fundingLegs legs group.hold asset ≠ [] := by
        obtain ⟨leg, hleg, hmatch⟩ := hcarried
        exact List.ne_nil_of_mem (List.mem_filter.mpr ⟨hleg, decide_eq_true hmatch⟩)
      have hcaps : ∀ cap ∈ liftLast (capsOf (fundingLegs legs group.hold asset)), 0 ≤ cap.2.val := by
        refine nonneg_liftLast fun cap hcap => ?_
        obtain ⟨leg, hleg, rfl⟩ := List.mem_map.mp hcap
        exact hamounts leg (List.mem_filter.mp hleg).1
      have hlimit := capTotal_liftLast_capsOf hnonempty
      have hroom := capTotal_nonneg hcaps
      rw [due, ← hlimit]
      by_cases hpositive : 0 < balance.val
      · obtain ⟨others, hothers, hgives, hsum, _⟩ := exists_payOut hcaps hpositive.le
        rw [hsplit] at hothers
        cases hothers
        exact ⟨hgives, by rw [hsum]; omega, hparties⟩
      · rw [payOut_of_nothing hpositive] at hsplit
        cases hsplit
        refine ⟨nofun, ?_, nofun⟩
        rw [List.map_nil, List.sum_nil]
        omega

/-! ## The loop over the payouts -/

/-- The account is a hold of the trade. -/
def OfTrade (legs : List InflightLeg) (account : AccountId) : Prop :=
  ∃ leg ∈ legs, leg.hold = account

/-- The store in which an inflight is settled: no party of the trade is a hold of it, the
cache points of the holds are exact, and the receipts will be of new transfers. -/
structure Ready (start : InMemoryStore) (legs : List InflightLeg) (last : List Receipt) : Prop where
  accounted : Accounted start
  spends : SpendsOnce start
  safe : OverdraftSafe start
  forbids : ∀ leg ∈ legs, ∃ account ∈ start.versions leg.hold, account.forbidsOverdraft = true
  amounts : ∀ leg ∈ legs, 0 ≤ leg.amount.val
  parties : ∀ leg ∈ legs, ¬OfTrade legs leg.destination ∧ ¬OfTrade legs leg.funder
  caches : ∀ leg ∈ legs, CacheSound start leg.key last.length
  carried : ∀ posting ∈ start.livePostings, OfTrade legs posting.owner →
    ∃ leg ∈ legs, leg.key = posting.key
  unstored : ∀ receipt ∈ last, receipt.transferId ∉ start.transfers
  nodup : (last.map (·.transferId)).Nodup

/-- The store after the settlements with these receipts. -/
structure Since (start : InMemoryStore) (legs : List InflightLeg) (receipts : List Receipt)
    (drawn : List (BalanceKey × Cent)) (store : InMemoryStore) : Prop where
  evolves : Evolves start store
  logged : ∀ tid ∈ store.transfers, tid ∈ start.transfers ∨ tid ∈ receipts.map (·.transferId)
  paid : PaidOut (OfTrade legs) drawn start store
  counted : drawn.length = receipts.length

section Loops

variable {start : InMemoryStore} {legs : List InflightLeg} {last receipts later : List Receipt}
  {drawn : List (BalanceKey × Cent)} {before after : World} {role : SettleRole} {book : BookId}
  {inflight : EnvelopeId} {group : HoldGroup} {asset : AssetId}

/-- A settlement commits its transfer, and stores no other one. -/
theorem settle_alone {hold target destination : AccountId} {amount : Cent} {receipt : Receipt}
    (hwell : WellFormed before.store)
    (halone : Alone (settle book inflight hold target destination asset amount role) before
      (.ok receipt) after) :
    (∃ metadata, Alone (commit (settlingTransfer book hold target asset amount metadata)) before
      (.ok receipt) after) ∧ Evolves before.store after.store ∧
      ∀ tid ∈ after.store.transfers, tid ∈ before.store.transfers ∨ tid = receipt.transferId := by
  obtain ⟨metadata, middle, hmetadata, hcommit⟩ := alone_bind_ok_iff.mp halone
  obtain ⟨_, rfl⟩ := alone_attempt_iff.mp hmetadata
  have hmoves : Moves (fun _ => True) (fun _ => True) (fun _ => True)
      (commit (settlingTransfer book hold target asset amount metadata)) :=
    .of_steps fun _ hwell => commit_steps _ hwell fun _ => trivial
  refine ⟨⟨metadata, hcommit⟩, hmoves.evolves hwell hcommit, ?_⟩
  obtain ⟨_, herror, _⟩ | ⟨_, _, _, _, _, _, _, _, hends⟩ := commit_alone hwell hcommit
  · cases herror
  generalize after.store = store at hends ⊢
  cases hends with
  | stored => exact fun _ => .inl
  | applied clock hvalid henvelope hfresh hguards =>
      intro tid htid
      rw [InMemoryStore.applyCommit_transfers, AList.mem_insert] at htid
      exact htid.symm

/-- One more payout of a hold of the trade. -/
theorem Since.payNext (hready : Ready start legs last)
    (hsince : Since start legs receipts drawn before.store) (hgroup : OfTrade legs group.hold)
    {payout : FunderPayout} (hgive : 0 < payout.give.val) (hparty : ¬OfTrade legs payout.funder)
    (halone : Alone (payNext role book inflight group asset receipts payout) before (.ok later)
      after) (hlater : later <+: last) :
    Since start legs later (drawn ++ [((group.hold, asset), payout.give)]) after.store := by
  obtain ⟨receipt, middle, hsettle, hpure⟩ := alone_bind_ok_iff.mp halone
  obtain ⟨hvalue, rfl⟩ := alone_pure_iff.mp hpure
  cases hvalue
  have haccounted : Accounted before.store :=
    hsince.evolves.keep Accounted (fun _ _ hstep => hstep.accounted) hready.accounted
  have hsafe : OverdraftSafe before.store :=
    hsince.evolves.keep OverdraftSafe (fun _ _ hstep => hstep.overdraftSafe) hready.safe
  obtain ⟨⟨metadata, hcommit⟩, hevolves, hstored⟩ := settle_alone haccounted.wellFormed hsettle
  have hforbids : ∃ account ∈ before.store.versions group.hold, account.forbidsOverdraft = true := by
    obtain ⟨leg, hleg, hhold⟩ := hgroup
    obtain ⟨account, hmem, hflag⟩ := hready.forbids leg hleg
    exact ⟨account, hsince.evolves.mem_versions (hhold ▸ hmem), hflag⟩
  have hnew : receipt.transferId ∉ before.store.transfers := by
    have hmem : receipt ∈ last := hlater.subset (List.mem_append_right _ List.mem_cons_self)
    intro hbefore
    rcases hsince.logged _ hbefore with hstart | hearlier
    · exact hready.unstored receipt hmem hstart
    · have hnodup := hready.nodup.sublist (hlater.sublist.map (·.transferId))
      rw [List.map_append, List.nodup_append] at hnodup
      exact hnodup.2.2 _ hearlier _ (List.mem_singleton.mpr rfl) rfl
  constructor
  · exact hsince.evolves.trans hevolves
  · intro tid htid
    rw [List.map_append, List.mem_append, ← or_assoc]
    rcases hstored tid htid with hbefore | rfl
    · exact .inl (hsince.logged tid hbefore)
    · exact .inr (List.mem_singleton.mpr rfl)
  · exact hsince.paid.trans (commit_paidOut haccounted hsafe hforbids hgive hparty hcommit hnew)
  · rw [List.length_append, List.length_append, hsince.counted]
    rfl

/-! ## Receipts only grow -/

omit [Sha256] [Cbor] in
theorem prefix_of_foldlM {α : Type} {step : List Receipt → α → LedgerM (List Receipt)}
    (hstep : ∀ receipts item later before after,
      Alone (step receipts item) before (.ok later) after → receipts <+: later) {items : List α}
    (halone : Alone (items.foldlM step receipts) before (.ok later) after) :
    receipts <+: later := by
  induction items generalizing receipts before with
  | nil =>
      cases (alone_pure_iff.mp halone).1
      exact List.prefix_rfl
  | cons head tail ih =>
      obtain ⟨next, middle, hnext, hrest⟩ := alone_bind_ok_iff.mp halone
      exact (hstep _ _ _ _ _ hnext).trans (ih hrest)

theorem payouts_grow {payouts : List FunderPayout}
    (halone : Alone (payouts.foldlM (payNext role book inflight group asset) receipts) before
      (.ok later) after) : receipts <+: later := by
  apply prefix_of_foldlM _ halone
  intro receipts payout later before after hpay
  obtain ⟨receipt, middle, _, hpure⟩ := alone_bind_ok_iff.mp hpay
  cases (alone_pure_iff.mp hpure).1
  exact List.prefix_append _ _

theorem assets_grow {assets : List AssetId}
    (halone : Alone (assets.foldlM (drainAsset role book inflight legs group) receipts) before
      (.ok later) after) : receipts <+: later := by
  apply prefix_of_foldlM _ halone
  intro receipts asset later before after hdrain
  rw [drainAsset_eq] at hdrain
  obtain ⟨_, _, _, hrest⟩ := alone_bind_ok_iff.mp hdrain
  obtain ⟨_, _, _, hpay⟩ := alone_bind_ok_iff.mp hrest
  exact payouts_grow hpay

theorem groups_grow {groups : List HoldGroup}
    (halone : Alone (groups.foldlM (drainGroup role book inflight legs) receipts) before
      (.ok later) after) : receipts <+: later := by
  apply prefix_of_foldlM _ halone
  intro receipts group later before after hdrain
  obtain ⟨drained, _, hassets, hrest⟩ := alone_bind_ok_iff.mp hdrain
  obtain ⟨_, _, _, hpure⟩ := alone_bind_ok_iff.mp hrest
  cases (alone_pure_iff.mp hpure).1
  exact assets_grow hassets

/-! ## The loops over payouts, assets and holds -/

/-- All payouts of one key, and nothing else. -/
def payoutsUnder (key : BalanceKey) (payouts : List FunderPayout) : List (BalanceKey × Cent) :=
  payouts.map fun payout => (key, payout.give)

omit [Sha256] [Cbor] in
theorem takenFrom_payoutsUnder (key : BalanceKey) (payouts : List FunderPayout) :
    takenFrom (payoutsUnder key payouts) key = (payouts.map (·.give.val)).sum := by
  have hkeys : ∀ entry ∈ payoutsUnder key payouts, entry.1 = key := by
    intro entry hentry
    obtain ⟨payout, _, rfl⟩ := List.mem_map.mp hentry
    rfl
  rw [takenFrom, keyTotal_of_key hkeys, if_pos rfl, payoutsUnder, List.map_map]
  rfl

theorem Since.payouts (hready : Ready start legs last)
    (hsince : Since start legs receipts drawn before.store) (hgroup : OfTrade legs group.hold)
    {payouts : List FunderPayout} (hgives : ∀ payout ∈ payouts, 0 < payout.give.val)
    (hparties : ∀ payout ∈ payouts, ¬OfTrade legs payout.funder)
    (halone : Alone (payouts.foldlM (Kuatia.payNext role book inflight group asset) receipts) before
      (.ok later) after) (hlater : later <+: last) :
    Since start legs later (drawn ++ payoutsUnder (group.hold, asset) payouts) after.store := by
  induction payouts generalizing receipts drawn before with
  | nil =>
      obtain ⟨hvalue, rfl⟩ := alone_pure_iff.mp halone
      cases hvalue
      rwa [payoutsUnder, List.map_nil, List.append_nil]
  | cons payout payouts ih =>
      obtain ⟨next, middle, hnext, hrest⟩ := alone_bind_ok_iff.mp halone
      rw [List.forall_mem_cons] at hgives hparties
      have hmiddle := hsince.payNext hready hgroup hgives.1 hparties.1 hnext
        ((payouts_grow hrest).trans hlater)
      have hafter := ih hmiddle hgives.2 hparties.2 hrest
      rwa [List.append_assoc] at hafter

/-- What is left of one asset is paid out: the balance read is exact. -/
theorem Since.drainAsset (hready : Ready start legs last)
    (hsince : Since start legs receipts drawn before.store)
    (hgroup : ∃ leg ∈ legs, leg.hold = group.hold ∧ leg.destination = group.destination)
    (hcarried : ∃ leg ∈ legs, leg.hold = group.hold ∧ leg.asset = asset)
    (hundrawn : (group.hold, asset) ∉ drawn.map Prod.fst)
    (halone : Alone (Kuatia.drainAsset role book inflight legs group receipts asset) before
      (.ok later) after) (hlater : later <+: last) :
    ∃ payouts, Since start legs later (drawn ++ payoutsUnder (group.hold, asset) payouts)
        after.store ∧
      takenFrom (payoutsUnder (group.hold, asset) payouts) (group.hold, asset) =
        due role legs (group.hold, asset) (start.liveBalance (group.hold, asset)) := by
  have hhold : OfTrade legs group.hold := by
    obtain ⟨leg, hleg, hhold, _⟩ := hgroup
    exact ⟨leg, hleg, hhold⟩
  rw [drainAsset_eq] at halone
  obtain ⟨balance, first, hbalance, hrest⟩ := alone_bind_ok_iff.mp halone
  obtain ⟨payouts, second, hpayouts, hpay⟩ := alone_bind_ok_iff.mp hrest
  obtain ⟨hvalue, rfl⟩ := alone_attempt_iff.mp hpayouts
  have hfirst := (balance_readOnly group.hold asset).store_eq hbalance
  obtain ⟨hgives, hsum, hto⟩ := payoutsOf_eq_ok hready.amounts hcarried
    (Except.mapError_eq_ok_iff.mp hvalue.symm)
  have hparties : ∀ payout ∈ payouts, ¬OfTrade legs payout.funder := by
    intro payout hpayout
    rcases hto payout hpayout with hdestination | ⟨leg, hleg, hfunder⟩
    · obtain ⟨leg, hleg, _, hsame⟩ := hgroup
      rw [hdestination, ← hsame]
      exact (hready.parties leg hleg).1
    · rw [← hfunder]
      exact (hready.parties leg hleg).2
  -- the settlements so far have been of other keys, so the cache points are still exact
  have hsound : CacheSound before.store (group.hold, asset) 0 := by
    obtain ⟨leg, hleg, hlegHold, hlegAsset⟩ := hcarried
    have hkey : leg.key = (group.hold, asset) := by rw [InflightLeg.key, hlegHold, hlegAsset]
    have hroom : drawn.length ≤ last.length := by
      rw [hsince.counted]
      exact ((payouts_grow hpay).trans hlater).length_le
    have hstart := hready.caches leg hleg
    rw [hkey, ← Nat.sub_add_cancel hroom] at hstart
    have hkept := hsince.paid.caches (group.hold, asset) _ hhold hundrawn hstart
    exact ⟨hkept.indexed, hkept.covers, fun point hpoint =>
      Nat.lt_of_le_of_lt (Nat.le_add_right _ _) (hkept.short point hpoint)⟩
  have hexact := balance_alone hbalance
    (hsince.evolves.keep Accounted (fun _ _ hstep => hstep.accounted) hready.accounted)
    (hsince.evolves.keep SpendsOnce (fun _ _ hstep => hstep.spendsOnce) hready.spends) hsound
  have huntaken : takenFrom drawn (group.hold, asset) = 0 :=
    keyTotal_eq_zero fun entry hentry hkey => hundrawn (hkey ▸ List.mem_map_of_mem hentry)
  rw [hsince.paid.balances (group.hold, asset) hhold, huntaken, sub_zero] at hexact
  refine ⟨payouts, (hfirst ▸ hsince).payouts hready hhold hgives hparties hpay hlater, ?_⟩
  rw [takenFrom_payoutsUnder, hsum, hexact]

/-- What has been drawn under the keys is what is due, and it was drawn under no other. -/
structure Settled (start : InMemoryStore) (legs : List InflightLeg) (role : SettleRole)
    (keys : List BalanceKey) (drawn : List (BalanceKey × Cent)) : Prop where
  only : ∀ entry ∈ drawn, entry.1 ∈ keys
  exact : ∀ key ∈ keys, takenFrom drawn key = due role legs key (start.liveBalance key)

omit [Sha256] [Cbor] in
theorem Settled.takenFrom_eq_zero {keys : List BalanceKey}
    (hsettled : Settled start legs role keys drawn) {key : BalanceKey} (hkey : key ∉ keys) :
    takenFrom drawn key = 0 :=
  keyTotal_eq_zero fun entry hentry heq => hkey (heq ▸ hsettled.only entry hentry)

omit [Sha256] [Cbor] in
theorem Settled.append {keys others : List BalanceKey} {more : List (BalanceKey × Cent)}
    (hsettled : Settled start legs role keys drawn) (hmore : Settled start legs role others more)
    (hdisjoint : ∀ key ∈ keys, key ∉ others) :
    Settled start legs role (keys ++ others) (drawn ++ more) where
  only entry hentry := List.mem_append.mpr
    ((List.mem_append.mp hentry).imp (hsettled.only entry) (hmore.only entry))
  exact key hkey := by
    have hsum : takenFrom (drawn ++ more) key = takenFrom drawn key + takenFrom more key :=
      keyTotal_append _ _
    rw [hsum]
    rcases List.mem_append.mp hkey with hfirst | hsecond
    · rw [hsettled.exact key hfirst, hmore.takenFrom_eq_zero (hdisjoint key hfirst), add_zero]
    · have hnot : key ∉ keys := fun hfirst => hdisjoint key hfirst hsecond
      rw [hsettled.takenFrom_eq_zero hnot, hmore.exact key hsecond, zero_add]

/-- All assets of a hold are settled, one after the other. -/
theorem Since.drainAssets (hready : Ready start legs last) {done : List BalanceKey}
    (hsince : Since start legs receipts drawn before.store)
    (hsettled : Settled start legs role done drawn)
    (hgroup : ∃ leg ∈ legs, leg.hold = group.hold ∧ leg.destination = group.destination)
    {assets : List AssetId}
    (hcarried : ∀ asset ∈ assets, ∃ leg ∈ legs, leg.hold = group.hold ∧ leg.asset = asset)
    (hnodup : (done ++ assets.map (group.hold, ·)).Nodup)
    (halone : Alone (assets.foldlM (Kuatia.drainAsset role book inflight legs group) receipts) before
      (.ok later) after) (hlater : later <+: last) :
    ∃ more, Since start legs later more after.store ∧
      Settled start legs role (done ++ assets.map (group.hold, ·)) more := by
  induction assets generalizing receipts drawn done before with
  | nil =>
      obtain ⟨hvalue, rfl⟩ := alone_pure_iff.mp halone
      cases hvalue
      exact ⟨drawn, hsince, by rwa [List.map_nil, List.append_nil]⟩
  | cons asset assets ih =>
      obtain ⟨next, middle, hnext, hrest⟩ := alone_bind_ok_iff.mp halone
      rw [List.forall_mem_cons] at hcarried
      have hnew : (group.hold, asset) ∉ done := by
        rw [List.nodup_append] at hnodup
        exact fun hmem => hnodup.2.2 _ hmem _ List.mem_cons_self rfl
      have hundrawn : (group.hold, asset) ∉ drawn.map Prod.fst := by
        intro hmem
        obtain ⟨entry, hentry, hkey⟩ := List.mem_map.mp hmem
        exact hnew (hkey ▸ hsettled.only entry hentry)
      obtain ⟨payouts, hmiddle, htaken⟩ := hsince.drainAsset hready hgroup hcarried.1 hundrawn hnext
        ((assets_grow hrest).trans hlater)
      have hone : Settled start legs role [(group.hold, asset)]
          (payoutsUnder (group.hold, asset) payouts) := by
        constructor
        · intro entry hentry
          obtain ⟨payout, _, rfl⟩ := List.mem_map.mp hentry
          exact List.mem_cons_self
        · exact List.forall_mem_singleton.mpr htaken
      have hboth := hsettled.append hone fun key hkey hmem =>
        hnew (List.mem_singleton.mp hmem ▸ hkey)
      rw [List.map_cons, List.append_cons] at hnodup ⊢
      exact ih hmiddle hboth hcarried.2 hnodup hrest

/-- The hold pays out everything: what it owns is positive, and on void no balance of it
exceeds what the legs before the last one have funded and an `i64` of the last one. -/
structure Drainable (start : InMemoryStore) (legs : List InflightLeg) (role : SettleRole)
    (hold : AccountId) : Prop where
  positive : ∀ posting ∈ start.livePostings, posting.owner = hold → 0 < posting.value.val
  within : role = .void → ∀ leg ∈ legs, leg.hold = hold → start.liveBalance leg.key ≤
    totalFunded (fundingLegs legs leg.hold leg.asset).dropLast + (2 ^ 63 - 1)

omit [Sha256] [Cbor] in
theorem Drainable.le_due {hold : AccountId} (hdrainable : Drainable start legs role hold)
    {leg : InflightLeg} (hleg : leg ∈ legs) (hhold : leg.hold = hold) :
    start.liveBalance leg.key ≤ due role legs leg.key (start.liveBalance leg.key) := by
  cases role with
  | confirm => exact le_max_right _ _
  | void => exact le_min (le_max_right _ _) (hdrainable.within rfl leg hleg hhold)

omit [Cbor] in
/-- A hold that pays out everything owns nothing once its assets are settled. -/
theorem Since.ownsNothing {store : InMemoryStore} {keys : List BalanceKey} {hold : AccountId}
    (hready : Ready start legs last) (hsince : Since start legs receipts drawn store)
    (hsettled : Settled start legs role keys drawn)
    (hkeys : ∀ key ∈ keys, ∃ leg ∈ legs, leg.key = key)
    (hdone : ∀ leg ∈ legs, leg.hold = hold → leg.key ∈ keys) (hhold : OfTrade legs hold)
    (hdrainable : Drainable start legs role hold) : OwnsNothing store hold := by
  have hpositive : ∀ posting ∈ store.livePostings, posting.owner = hold → 0 < posting.value.val := by
    intro posting hposting howner
    obtain hearlier | ⟨hchange, _⟩ := hsince.paid.fresh posting hposting (howner ▸ hhold)
    · exact hdrainable.positive posting hearlier howner
    · exact hchange
  intro posting hposting howner
  obtain ⟨leg, hleg, hkey⟩ : ∃ leg ∈ legs, leg.key = posting.key := by
    obtain hearlier | ⟨_, hdrawn⟩ := hsince.paid.fresh posting hposting (howner ▸ hhold)
    · exact hready.carried posting hearlier (howner ▸ hhold)
    · obtain ⟨entry, hentry, heq⟩ := List.mem_map.mp hdrawn
      exact hkeys _ (heq ▸ hsettled.only entry hentry)
  have hlegHold : leg.hold = hold := (congrArg Prod.fst hkey).trans howner
  have hbalance := hsince.paid.balances leg.key ⟨leg, hleg, rfl⟩
  rw [hsettled.exact _ (hdone leg hleg hlegHold)] at hbalance
  have hdue := hdrainable.le_due hleg hlegHold
  have hsome : 0 < store.liveBalance leg.key := by
    refine keyTotal_pos_of_key (fun other hother heq => ?_)
      (hkey ▸ List.mem_map_of_mem hposting)
    exact hpositive other hother ((congrArg Prod.fst heq).trans hlegHold)
  omega

/-! ## The loop over the holds -/

theorem drainGroup_moves (role : SettleRole) (book : BookId) (inflight : EnvelopeId)
    (legs : List InflightLeg) (receipts : List Receipt) (group : HoldGroup) :
    Moves (fun _ => True) (fun _ => True) (fun _ => True)
      (drainGroup role book inflight legs receipts group) := by
  refine .bind (.loop fun receipts asset _ => ?_) fun drained _ =>
    (closeIfDrained_moves group.hold).bind fun _ _ => .pure trivial
  rw [drainAsset_eq]
  refine (Moves.of_readOnly (balance_readOnly group.hold asset)).bind fun balance _ => ?_
  refine (Moves.attempt fun _ _ => trivial).bind fun payouts _ => .loop fun receipts payout _ => ?_
  have hsettle : Moves (fun _ => True) (fun _ => True) (fun _ => True) (settle book inflight group.hold
      payout.funder group.destination asset payout.give role) :=
    (Moves.attempt fun _ _ => trivial).bind fun metadata _ =>
      .of_steps fun _ hwell => commit_steps _ hwell fun _ => trivial
  exact hsettle.bind fun _ _ => .pure trivial

/-- The keys of a hold. -/
def keysOf (group : HoldGroup) : List BalanceKey := group.assets.map (group.hold, ·)

omit [Sha256] [Cbor] in
theorem leg_of_mem_keysOf (hassets : group.assets = assetsOf legs group.hold) {key : BalanceKey}
    (hkey : key ∈ keysOf group) : ∃ leg ∈ legs, leg.key = key := by
  obtain ⟨asset, hasset, rfl⟩ := List.mem_map.mp hkey
  obtain ⟨leg, hleg, hhold, rfl⟩ := mem_assetsOf.mp (hassets ▸ hasset)
  exact ⟨leg, hleg, by rw [InflightLeg.key, hhold]⟩

omit [Sha256] [Cbor] in
theorem mem_keysOf_of_leg (hassets : group.assets = assetsOf legs group.hold) {leg : InflightLeg}
    (hleg : leg ∈ legs) (hhold : leg.hold = group.hold) : leg.key ∈ keysOf group := by
  refine List.mem_map.mpr ⟨leg.asset, ?_, ?_⟩
  · rw [hassets]
    exact mem_assetsOf.mpr ⟨leg, hleg, hhold, rfl⟩
  · rw [InflightLeg.key, hhold]

/-- A hold is settled, and closed if it pays out everything. -/
theorem Since.drainGroup (hready : Ready start legs last) {done : List BalanceKey}
    (hsince : Since start legs receipts drawn before.store)
    (hsettled : Settled start legs role done drawn)
    (hkeys : ∀ key ∈ done, ∃ leg ∈ legs, leg.key = key)
    (hgroup : ∃ leg ∈ legs, leg.hold = group.hold ∧ leg.destination = group.destination)
    (hassets : group.assets = assetsOf legs group.hold) (hnodup : (done ++ keysOf group).Nodup)
    (halone : Alone (Kuatia.drainGroup role book inflight legs receipts group) before (.ok later)
      after) (hlater : later <+: last) :
    ∃ more, Since start legs later more after.store ∧
      Settled start legs role (done ++ keysOf group) more ∧
      (Drainable start legs role group.hold → Closed after.store group.hold) := by
  obtain ⟨drained, middle, hdrain, hrest⟩ := alone_bind_ok_iff.mp halone
  obtain ⟨_, third, hclose, hpure⟩ := alone_bind_ok_iff.mp hrest
  obtain ⟨hvalue, rfl⟩ := alone_pure_iff.mp hpure
  cases hvalue
  have hcarried : ∀ asset ∈ group.assets, ∃ leg ∈ legs, leg.hold = group.hold ∧ leg.asset = asset :=
    fun asset hasset => mem_assetsOf.mp (hassets ▸ hasset)
  obtain ⟨more, hmiddle, hmore⟩ := hsince.drainAssets hready hsettled hgroup hcarried hnodup hdrain
    hlater
  have hwell : WellFormed middle.store := hmiddle.evolves.wellFormed hready.accounted.wellFormed
  obtain ⟨hpaid, htransfers, hclosed⟩ := closeIfDrained_alone hwell hclose
  refine ⟨more, ⟨?_, ?_, ?_, hmiddle.counted⟩, hmore, fun hdrainable => hclosed ?_⟩
  · have hmoves : Moves (fun _ => True) (fun _ => True) (fun _ => True)
        (closeIfDrained group.hold) := closeIfDrained_moves group.hold
    exact hmiddle.evolves.trans (hmoves.evolves hwell hclose)
  · rw [htransfers]
    exact hmiddle.logged
  · have hboth := hmiddle.paid.trans hpaid
    rwa [List.append_nil] at hboth
  · obtain ⟨leg, hleg, hhold, _⟩ := hgroup
    refine hmiddle.ownsNothing hready hmore ?_ ?_ ⟨leg, hleg, hhold⟩ hdrainable
    · intro key hkey
      exact (List.mem_append.mp hkey).elim (hkeys key) (leg_of_mem_keysOf hassets)
    · exact fun other hother hsame =>
        List.mem_append_right _ (mem_keysOf_of_leg hassets hother hsame)

/-- All holds are settled, and those that pay out everything are closed. -/
theorem Since.drainGroups (hready : Ready start legs last) {done : List BalanceKey}
    (hsince : Since start legs receipts drawn before.store)
    (hsettled : Settled start legs role done drawn)
    (hkeys : ∀ key ∈ done, ∃ leg ∈ legs, leg.key = key) {groups : List HoldGroup}
    (hgroups : ∀ group ∈ groups,
      (∃ leg ∈ legs, leg.hold = group.hold ∧ leg.destination = group.destination) ∧
        group.assets = assetsOf legs group.hold)
    (hnodup : (done ++ groups.flatMap keysOf).Nodup)
    (halone : Alone (groups.foldlM (Kuatia.drainGroup role book inflight legs) receipts) before
      (.ok later) after) (hlater : later <+: last) :
    ∃ more, Since start legs later more after.store ∧
      Settled start legs role (done ++ groups.flatMap keysOf) more ∧
      ∀ group ∈ groups, Drainable start legs role group.hold → Closed after.store group.hold := by
  induction groups generalizing receipts drawn done before with
  | nil =>
      obtain ⟨hvalue, rfl⟩ := alone_pure_iff.mp halone
      cases hvalue
      exact ⟨drawn, hsince, by rwa [List.flatMap_nil, List.append_nil], nofun⟩
  | cons group groups ih =>
      obtain ⟨next, middle, hnext, hrest⟩ := alone_bind_ok_iff.mp halone
      rw [List.forall_mem_cons] at hgroups
      rw [List.flatMap_cons, ← List.append_assoc] at hnodup ⊢
      obtain ⟨more, hmiddle, hmore, hclosed⟩ := hsince.drainGroup hready hsettled hkeys hgroups.1.1
        hgroups.1.2 hnodup.of_append_left hnext ((groups_grow hrest).trans hlater)
      have hmoreKeys : ∀ key ∈ done ++ keysOf group, ∃ leg ∈ legs, leg.key = key := by
        intro key hkey
        exact (List.mem_append.mp hkey).elim (hkeys key) (leg_of_mem_keysOf hgroups.1.2)
      obtain ⟨all, hafter, hall, hothers⟩ := ih hmiddle hmore hmoreKeys hgroups.2 hnodup hrest
      refine ⟨all, hafter, hall, ?_⟩
      rw [List.forall_mem_cons]
      refine ⟨fun hdrainable => ?_, hothers⟩
      have hwell := hmiddle.evolves.wellFormed hready.accounted.wellFormed
      have hloop : Moves (fun _ => True) (fun _ => True) (fun _ => True)
          (groups.foldlM (Kuatia.drainGroup role book inflight legs) next) :=
        .loop fun receipts group _ => drainGroup_moves role book inflight legs receipts group
      exact (hloop.evolves hwell hrest).closed (hclosed hdrainable)

end Loops

end Theory

end Kuatia
