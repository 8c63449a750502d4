import Kuatia.Inflight.Settlements

/-! # Emptying the holds of an inflight

`confirmAll` and `void` go through the holds and their assets. When nobody has read the
balances of the holds before, each of them is the sum of its live postings, and what the
whole call moves is read off the state that it starts in.
-/

namespace Kuatia

open LedgerM

variable [MoneyWidth]

/-- One asset of a hold. -/
abbrev HoldItem := HoldGroup × AssetId

def HoldItem.key (item : HoldItem) : BalanceKey := (item.1.hold, item.2)

/-- The assets of the holds in the order in which they are settled. -/
def itemsOf (groups : List HoldGroup) : List HoldItem :=
  groups.flatMap fun group => group.assets.map (group, ·)

/-- A leg of the trade has put the asset into the hold. -/
structure HoldItem.Carried (legs : List InflightLeg) (item : HoldItem) : Prop where
  group : ∃ leg ∈ legs, leg.hold = item.1.hold ∧ leg.destination = item.1.destination
  asset : ∃ leg ∈ legs, leg.hold = item.1.hold ∧ leg.asset = item.2

def payoutMovements (item : HoldItem) (payouts : List FunderPayout) : List Movement :=
  payouts.map fun payout => ⟨item.1.hold, payout.funder, item.2, payout.give⟩

/-- The movements pay out what there is of one asset in a hold. -/
def PaysOut (role : SettleRole) (legs : List InflightLeg) (start : InMemoryStore)
    (item : HoldItem) (movements : List Movement) : Prop :=
  ∃ balance payouts, balance.val = start.liveBalance item.key ∧
    payoutsOf role legs item.1 item.2 balance = .ok payouts ∧
      movements = payoutMovements item payouts

/-- The holds of a trade can be closed, no party of it is a hold, and no balance of a
hold has been cached. -/
structure Awaiting (start : InMemoryStore) (legs : List InflightLeg) : Prop where
  accounted : Accounted start
  spends : SpendsOnce start
  amounts : ∀ leg ∈ legs, 0 ≤ leg.amount.val
  parties : ∀ leg ∈ legs, ¬OfTrade legs leg.destination ∧ ¬OfTrade legs leg.funder
  mayClose : ∀ leg ∈ legs, MayChange start leg.hold
  unread : ∀ leg ∈ legs, start.pointsOf leg.key = []

section Items

variable {role : SettleRole} {legs : List InflightLeg} {start : InMemoryStore} {item : HoldItem}
  {movements : List Movement}

theorem PaysOut.source_eq (hpays : PaysOut role legs start item movements) :
    ∀ movement ∈ movements, movement.source = item.key := by
  obtain ⟨_, payouts, _, _, rfl⟩ := hpays
  intro movement hmovement
  obtain ⟨payout, _, rfl⟩ := List.mem_map.mp hmovement
  rfl

/-- No hold of the trade is paid. -/
theorem PaysOut.party (hpays : PaysOut role legs start item movements)
    (hawaiting : Awaiting start legs) (hcarried : item.Carried legs) :
    ∀ movement ∈ movements, ¬OfTrade legs movement.toAccount := by
  obtain ⟨_, payouts, _, hpayouts, rfl⟩ := hpays
  intro movement hmovement
  obtain ⟨payout, hpayout, rfl⟩ := List.mem_map.mp hmovement
  obtain ⟨_, _, hto⟩ := payoutsOf_eq_ok hawaiting.amounts hcarried.asset hpayouts
  rcases hto payout hpayout with hdestination | ⟨leg, hleg, hfunder⟩
  · obtain ⟨leg, hleg, _, hsame⟩ := hcarried.group
    rw [hdestination, ← hsame]
    exact (hawaiting.parties leg hleg).1
  · rw [← hfunder]
    exact (hawaiting.parties leg hleg).2

/-- What has been paid out so far has left the assets that are still to come alone. -/
theorem key_notMem_of_forall₂ {items : List HoldItem} {parts : List (List Movement)}
    (hparts : List.Forall₂ (PaysOut role legs start) items parts) (hawaiting : Awaiting start legs)
    (hitems : ∀ item ∈ items, item.Carried legs) (hitem : item.Carried legs)
    (hnew : item.key ∉ items.map HoldItem.key) :
    item.key ∉ parts.flatten.map Movement.source ∧
      item.key ∉ parts.flatten.map Movement.destination := by
  constructor
  · intro hmem
    obtain ⟨movement, hmovement, hkey⟩ := List.mem_map.mp hmem
    obtain ⟨part, hpart, hmovement⟩ := List.mem_flatten.mp hmovement
    obtain ⟨other, hother, hpays⟩ := hparts.exists_of_mem_right hpart
    rw [hpays.source_eq movement hmovement] at hkey
    exact hnew (hkey ▸ List.mem_map_of_mem hother)
  · intro hmem
    obtain ⟨movement, hmovement, hkey⟩ := List.mem_map.mp hmem
    obtain ⟨part, hpart, hmovement⟩ := List.mem_flatten.mp hmovement
    obtain ⟨other, hother, hpays⟩ := hparts.exists_of_mem_right hpart
    obtain ⟨leg, hleg, hhold, _⟩ := hitem.group
    refine hpays.party hawaiting (hitems other hother) movement hmovement ⟨leg, hleg, ?_⟩
    exact hhold.trans (congrArg Prod.fst hkey).symm

end Items

variable [Sha256] [Cbor]

section Loops

variable {start : InMemoryStore} {legs : List InflightLeg} {receipts later : List Receipt}
  {moved : List Movement} {closed : List AccountId} {before after : World} {role : SettleRole}
  {book : BookId} {inflight : EnvelopeId} {group : HoldGroup} {asset : AssetId}

theorem Moved.payNext (hmoved : Moved start moved closed receipts before.store)
    (haccounted : Accounted start) {payout : FunderPayout} (hgive : 0 < payout.give.val)
    (halone : Alone (Kuatia.payNext role book inflight group asset receipts payout) before
      (.ok later) after) :
    Moved start (moved ++ [⟨group.hold, payout.funder, asset, payout.give⟩]) closed later
      after.store := by
  obtain ⟨receipt, middle, hsettle, hpure⟩ := alone_bind_ok_iff.mp halone
  obtain ⟨hvalue, rfl⟩ := alone_pure_iff.mp hpure
  cases hvalue
  have hwell := hmoved.evolves.wellFormed haccounted.wellFormed
  obtain ⟨⟨metadata, hcommit⟩, _⟩ := settle_alone hwell hsettle
  exact hmoved.settlement haccounted hgive hcommit

theorem Moved.payouts (hmoved : Moved start moved closed receipts before.store)
    (haccounted : Accounted start) {payouts : List FunderPayout}
    (hgives : ∀ payout ∈ payouts, 0 < payout.give.val)
    (halone : Alone (payouts.foldlM (Kuatia.payNext role book inflight group asset) receipts) before
      (.ok later) after) :
    Moved start (moved ++ payoutMovements (group, asset) payouts) closed later after.store := by
  induction payouts generalizing receipts moved before with
  | nil =>
      obtain ⟨hvalue, rfl⟩ := alone_pure_iff.mp halone
      cases hvalue
      rwa [payoutMovements, List.map_nil, List.append_nil]
  | cons payout payouts ih =>
      obtain ⟨next, middle, hnext, hrest⟩ := alone_bind_ok_iff.mp halone
      rw [List.forall_mem_cons] at hgives
      have hafter := ih (hmoved.payNext haccounted hgives.1 hnext) hgives.2 hrest
      rwa [List.append_assoc] at hafter

/-- An asset that nothing has been moved of yet is paid out as it was at the start. -/
theorem Moved.drainAsset (hawaiting : Awaiting start legs)
    (hmoved : Moved start moved closed receipts before.store)
    (hcarried : HoldItem.Carried legs (group, asset))
    (hsource : (group.hold, asset) ∉ moved.map Movement.source)
    (hparty : (group.hold, asset) ∉ moved.map Movement.destination)
    (halone : Alone (Kuatia.drainAsset role book inflight legs group receipts asset) before
      (.ok later) after) :
    ∃ movements, PaysOut role legs start (group, asset) movements ∧
      Moved start (moved ++ movements) closed later after.store := by
  rw [drainAsset_eq] at halone
  obtain ⟨balance, first, hbalance, hrest⟩ := alone_bind_ok_iff.mp halone
  obtain ⟨payouts, second, hpayouts, hpay⟩ := alone_bind_ok_iff.mp hrest
  obtain ⟨hvalue, rfl⟩ := alone_attempt_iff.mp hpayouts
  have hpaid := Except.mapError_eq_ok_iff.mp hvalue.symm
  have hfirst := (balance_readOnly group.hold asset).store_eq hbalance
  have hnow : Accounted before.store :=
    hmoved.evolves.keep Accounted (fun _ _ hstep => hstep.accounted) hawaiting.accounted
  have hnone : before.store.pointsOf (group.hold, asset) = [] := by
    obtain ⟨leg, hleg, hhold, hasset⟩ := hcarried.asset
    have hunread := hawaiting.unread leg hleg
    rwa [InflightLeg.key, hhold, hasset, InMemoryStore.pointsOf, ← hmoved.projections] at hunread
  have hexact := balance_alone hbalance hnow
    (hmoved.evolves.keep SpendsOnce (fun _ _ hstep => hstep.spendsOnce) hawaiting.spends)
    (.of_none hnone 0)
  rw [(hmoved.others _ hsource hparty).liveBalance_eq hawaiting.accounted.consistent
    hnow.consistent] at hexact
  obtain ⟨hgives, _, _⟩ := payoutsOf_eq_ok hawaiting.amounts hcarried.asset hpaid
  refine ⟨_, ⟨balance, payouts, hexact, hpaid, rfl⟩, ?_⟩
  exact (hfirst ▸ hmoved).payouts hawaiting.accounted hgives hpay

/-- All assets of a hold are paid out, one after the other. -/
theorem Moved.drainAssets (hawaiting : Awaiting start legs) {items : List HoldItem}
    {parts : List (List Movement)} (hparts : List.Forall₂ (PaysOut role legs start) items parts)
    (hmoved : Moved start parts.flatten closed receipts before.store)
    (hitems : ∀ item ∈ items, item.Carried legs) {assets : List AssetId}
    (hcarried : ∀ asset ∈ assets, HoldItem.Carried legs (group, asset))
    (hnodup : ((items ++ assets.map (group, ·)).map HoldItem.key).Nodup)
    (halone : Alone (assets.foldlM (Kuatia.drainAsset role book inflight legs group) receipts) before
      (.ok later) after) :
    ∃ more, List.Forall₂ (PaysOut role legs start) (items ++ assets.map (group, ·)) more ∧
      Moved start more.flatten closed later after.store := by
  induction assets generalizing receipts items parts before with
  | nil =>
      obtain ⟨hvalue, rfl⟩ := alone_pure_iff.mp halone
      cases hvalue
      exact ⟨parts, by rwa [List.map_nil, List.append_nil], hmoved⟩
  | cons asset assets ih =>
      obtain ⟨next, middle, hnext, hrest⟩ := alone_bind_ok_iff.mp halone
      rw [List.forall_mem_cons] at hcarried
      have hnew : HoldItem.key (group, asset) ∉ items.map HoldItem.key := by
        rw [List.map_append, List.nodup_append] at hnodup
        exact fun hmem => hnodup.2.2 _ hmem _ List.mem_cons_self rfl
      obtain ⟨hsource, hparty⟩ :=
        key_notMem_of_forall₂ hparts hawaiting hitems hcarried.1 hnew
      obtain ⟨movements, hpays, hmiddle⟩ :=
        hmoved.drainAsset hawaiting hcarried.1 hsource hparty hnext
      rw [List.map_cons, List.append_cons] at hnodup ⊢
      have hboth : List.Forall₂ (PaysOut role legs start) (items ++ [(group, asset)])
          (parts ++ [movements]) := List.rel_append hparts (.cons hpays .nil)
      refine ih hboth ?_ ?_ hcarried.2 hnodup hrest
      · rwa [List.flatten_append, List.flatten_singleton]
      · intro item hitem
        rcases List.mem_append.mp hitem with hearlier | hlast
        · exact hitems item hearlier
        · exact List.mem_singleton.mp hlast ▸ hcarried.1

/-- The hold and its assets are those of legs of the trade. -/
structure GroupOf (legs : List InflightLeg) (group : HoldGroup) : Prop where
  destined : ∃ leg ∈ legs, leg.hold = group.hold ∧ leg.destination = group.destination
  assets : group.assets = assetsOf legs group.hold

omit [Sha256] [Cbor] in
theorem GroupOf.carried (hgroup : GroupOf legs group) (hasset : asset ∈ group.assets) :
    HoldItem.Carried legs (group, asset) :=
  ⟨hgroup.destined, mem_assetsOf.mp (hgroup.assets ▸ hasset)⟩

omit [Sha256] [Cbor] in
theorem carried_of_mem_itemsOf {groups : List HoldGroup}
    (hgroups : ∀ group ∈ groups, GroupOf legs group) : ∀ item ∈ itemsOf groups, item.Carried legs := by
  intro item hitem
  obtain ⟨group, hgroup, hmem⟩ := List.mem_flatMap.mp hitem
  obtain ⟨asset, hasset, rfl⟩ := List.mem_map.mp hmem
  exact (hgroups group hgroup).carried hasset

omit [Sha256] [Cbor] in
/-- Every asset of every hold has its own key. -/
theorem nodup_itemsOf {groups : List HoldGroup} (hgroups : ∀ group ∈ groups, GroupOf legs group)
    (hholds : (groups.map (·.hold)).Nodup) :
    ((itemsOf groups).map HoldItem.key).Nodup := by
  have hkeys : (itemsOf groups).map HoldItem.key = groups.flatMap keysOf := by
    rw [itemsOf, List.map_flatMap]
    refine List.flatMap_congr fun group _ => ?_
    rw [List.map_map, keysOf]
    rfl
  rw [hkeys]
  refine nodup_keysOf hholds fun group hgroup => ?_
  rw [(hgroups group hgroup).assets]
  exact AssetId.nodup_sortDedup _

omit [Cbor] in
/-- A hold that is not closed yet is as it was at the start. -/
theorem Moved.mayClose (hmoved : Moved start moved closed receipts before.store)
    (hawaiting : Awaiting start legs) (hgroup : GroupOf legs group) (hopen : group.hold ∉ closed) :
    MayChange before.store group.hold := by
  obtain ⟨leg, hleg, hhold, _⟩ := hgroup.destined
  obtain ⟨account, hlatest, hmay⟩ := hawaiting.mayClose leg hleg
  exact ⟨account, by rw [hmoved.latest _ hopen, ← hhold, hlatest], hmay⟩

omit [MoneyWidth] [Sha256] [Cbor] in
theorem itemsOf_concat (done : List HoldGroup) (group : HoldGroup) :
    itemsOf (done ++ [group]) = itemsOf done ++ group.assets.map (group, ·) := by
  rw [itemsOf, List.flatMap_append, List.flatMap_singleton]
  rfl

omit [MoneyWidth] [Sha256] [Cbor] in
theorem hold_notMem_of_nodup {done : List HoldGroup} {group : HoldGroup}
    (hnodup : ((done ++ [group]).map (·.hold)).Nodup) : group.hold ∉ done.map (·.hold) := by
  rw [List.map_append, List.nodup_append] at hnodup
  exact fun hmem => hnodup.2.2 _ hmem _ List.mem_cons_self rfl

/-- A hold is paid out, and closed unless something is left in it. -/
theorem Moved.drainGroup (hawaiting : Awaiting start legs) {done : List HoldGroup}
    {parts : List (List Movement)}
    (hparts : List.Forall₂ (PaysOut role legs start) (itemsOf done) parts)
    (hmoved : Moved start parts.flatten (done.map (·.hold)) receipts before.store)
    (hgroups : ∀ other ∈ done ++ [group], GroupOf legs other)
    (hnodup : ((done ++ [group]).map (·.hold)).Nodup)
    (halone : Alone (Kuatia.drainGroup role book inflight legs receipts group) before (.ok later)
      after) :
    ∃ more, List.Forall₂ (PaysOut role legs start) (itemsOf (done ++ [group])) more ∧
      Moved start more.flatten ((done ++ [group]).map (·.hold)) later after.store := by
  obtain ⟨drained, second, hassets, hclosing⟩ := alone_bind_ok_iff.mp halone
  obtain ⟨_, third, hclose, hpure⟩ := alone_bind_ok_iff.mp hclosing
  obtain ⟨hvalue, rfl⟩ := alone_pure_iff.mp hpure
  cases hvalue
  have hgroup : GroupOf legs group := hgroups group (List.mem_append_right _ List.mem_cons_self)
  have hkeys := nodup_itemsOf hgroups hnodup
  rw [itemsOf_concat] at hkeys ⊢
  obtain ⟨more, hmore, hmiddle⟩ := hmoved.drainAssets hawaiting hparts
    (carried_of_mem_itemsOf fun other hother => hgroups other (List.mem_append_left _ hother))
    (fun asset hasset => hgroup.carried hasset) hkeys hassets
  have hwell := hmiddle.evolves.wellFormed hawaiting.accounted.wellFormed
  have hmay := hmiddle.mayClose hawaiting hgroup (hold_notMem_of_nodup hnodup)
  have honly := (closeIfDrained_cases hwell hmay hclose).1
  have hmoves : Moves (fun _ => True) (fun _ => True) (fun _ => True)
      (closeIfDrained group.hold) := closeIfDrained_moves group.hold
  have hclosed := hmiddle.close (hmoves.evolves hwell hclose) honly
  refine ⟨more, hmore, ?_⟩
  rwa [List.map_append, List.map_singleton]

/-- All holds are paid out, and closed unless something is left in them. -/
theorem Moved.drainGroups (hawaiting : Awaiting start legs) {done : List HoldGroup}
    {parts : List (List Movement)}
    (hparts : List.Forall₂ (PaysOut role legs start) (itemsOf done) parts)
    (hmoved : Moved start parts.flatten (done.map (·.hold)) receipts before.store)
    {groups : List HoldGroup} (hgroups : ∀ group ∈ done ++ groups, GroupOf legs group)
    (hnodup : ((done ++ groups).map (·.hold)).Nodup)
    (halone : Alone (groups.foldlM (Kuatia.drainGroup role book inflight legs) receipts) before
      (.ok later) after) :
    ∃ more, List.Forall₂ (PaysOut role legs start) (itemsOf (done ++ groups)) more ∧
      Moved start more.flatten ((done ++ groups).map (·.hold)) later after.store := by
  induction groups generalizing receipts done parts before with
  | nil =>
      obtain ⟨hvalue, rfl⟩ := alone_pure_iff.mp halone
      cases hvalue
      rw [List.append_nil]
      exact ⟨parts, hparts, hmoved⟩
  | cons group groups ih =>
      obtain ⟨next, middle, hdrain, hrest⟩ := alone_bind_ok_iff.mp halone
      rw [List.append_cons] at hgroups hnodup ⊢
      have hhere : ((done ++ [group]).map (·.hold)).Nodup := by
        rw [List.map_append] at hnodup
        exact hnodup.of_append_left
      obtain ⟨more, hmore, hmiddle⟩ := hmoved.drainGroup hawaiting hparts
        (fun other hother => hgroups other (List.mem_append_left _ hother)) hhere hdrain
      exact ih hmore hmiddle hgroups hnodup hrest

end Loops

/-- What a call moves that settles a whole inflight. -/
theorem settleAll_moved {before after : World} {role : SettleRole} {inflight : EnvelopeId}
    {record : EnvelopeRecord} {legs : List InflightLeg} {receipts : List Receipt}
    (hawaiting : Awaiting before.store legs)
    (hstored : before.store.transfers.lookup inflight = some record)
    (hlegs : readMeta record.envelope.metadata = some (.authorize legs))
    (halone : Alone (settleAll role inflight) before (.ok receipts) after) :
    ∃ groups parts, groupHolds legs inflight = .ok groups ∧
      List.Forall₂ (PaysOut role legs before.store) (itemsOf groups) parts ∧
      Moved before.store parts.flatten (groups.map (·.hold)) receipts after.store := by
  rw [settleAll_eq] at halone
  obtain ⟨⟨found, others⟩, first, hload, hrest⟩ := alone_bind_ok_iff.mp halone
  obtain ⟨hfound, hothers, hfirst⟩ := loadInflight_alone hload
  rw [hstored] at hfound
  cases hfound
  rw [hlegs] at hothers
  cases hothers
  obtain ⟨groups, second, hgroups, hloop⟩ := alone_bind_ok_iff.mp hrest
  obtain ⟨hvalue, rfl⟩ := alone_attempt_iff.mp hgroups
  obtain ⟨hholds, hassets⟩ := groupHolds_eq_ok hvalue.symm
  have hof : ∀ group ∈ [] ++ groups, GroupOf legs group := by
    intro group hgroup
    rw [List.nil_append] at hgroup
    exact ⟨(group_of_groupHolds hvalue.symm hgroup).1, hassets group hgroup⟩
  have hnodup : (([] ++ groups).map HoldGroup.hold).Nodup := by
    rw [List.nil_append, hholds]
    exact AccountId.nodup_sortDedup _
  rw [← hfirst] at hawaiting ⊢
  have hstart : Moved second.store ([] : List (List Movement)).flatten
      (([] : List HoldGroup).map (·.hold)) [] second.store := .refl second.store
  obtain ⟨parts, hparts, hmoved⟩ := hstart.drainGroups hawaiting .nil hof hnodup hloop
  exact ⟨groups, parts, hvalue.symm, hparts, hmoved⟩

end Kuatia
