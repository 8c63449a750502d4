import Kuatia.Inflight.Emptying
import Kuatia.Ledger.Turnover

/-! # Confirming everything

Each settlement of a `confirmAll` pays out a whole balance of a hold. When the
destinations take part in transfers and have room for what they are to get, none of
the settlements can fail, so the call fails only with the clock.
-/

namespace Kuatia

open LedgerM

variable [MoneyWidth]

/-- Every hold of the trade holds its funds, and its destination can take them. -/
structure Confirmable (start : InMemoryStore) (legs : List InflightLeg) (book : BookId) : Prop
    extends Awaiting start legs where
  safe : OverdraftSafe start
  book : AllowsAll start book
  payers : ∀ leg ∈ legs, HoldsFunds start leg.hold
  recorded : ∀ leg ∈ legs, Recorded start leg.key
  payees : ∀ leg ∈ legs, Participates start leg.destination
  sums : ∀ leg ∈ legs, ∀ order,
    SumsUp start order leg.key ∧ SumsUp start order (leg.destination, leg.asset)
  fits : ∀ leg ∈ legs, Cent.Holds
    (start.liveBalance (leg.destination, leg.asset) + start.liveBalance leg.key)
  agree : ∀ first ∈ legs, ∀ second ∈ legs,
    first.hold = second.hold ↔ first.destination = second.destination

/-- What is paid to the destination. -/
def HoldItem.target (item : HoldItem) : BalanceKey := (item.1.destination, item.2)

section Items

variable {legs : List InflightLeg} {start : InMemoryStore} {item : HoldItem} {book : BookId}

/-- A leg of the asset of a hold. -/
theorem Confirmable.exists_leg (hconfirmable : Confirmable start legs book)
    (hcarried : item.Carried legs) : ∃ leg ∈ legs, leg.key = item.key ∧ leg.hold = item.1.hold ∧
      leg.destination = item.1.destination ∧ leg.asset = item.2 := by
  obtain ⟨leg, hleg, hhold, hasset⟩ := hcarried.asset
  obtain ⟨other, hother, hsame, hdestination⟩ := hcarried.group
  refine ⟨leg, hleg, ?_, hhold, ?_, hasset⟩
  · rw [InflightLeg.key, hhold, hasset]
    rfl
  · rw [← hdestination]
    exact (hconfirmable.agree leg hleg other hother).mp (hhold.trans hsame.symm)

/-- Different assets of holds are paid out under different keys. -/
theorem Confirmable.target_ne (hconfirmable : Confirmable start legs book)
    (hitem : item.Carried legs) {other : HoldItem} (hother : other.Carried legs)
    (hne : other.key ≠ item.key) : other.target ≠ item.target := by
  intro hsame
  obtain ⟨leg, hleg, hkey, _, hdestination, hasset⟩ := hconfirmable.exists_leg hitem
  obtain ⟨second, hsecond, hsecondKey, _, hto, hsecondAsset⟩ := hconfirmable.exists_leg hother
  have hassets : other.2 = item.2 := (Prod.ext_iff.mp hsame).2
  have hhold : second.hold = leg.hold := by
    refine (hconfirmable.agree second hsecond leg hleg).mpr ?_
    rw [hto, hdestination]
    exact congrArg Prod.fst hsame
  refine hne ?_
  rw [← hkey, ← hsecondKey, InflightLeg.key, InflightLeg.key, hhold, hsecondAsset, hasset, hassets]

/-- All that is paid out on confirm goes to the destination. -/
theorem PaysOut.destination_eq {movements : List Movement}
    (hpays : PaysOut .confirm legs start item movements) :
    ∀ movement ∈ movements, movement.destination = item.target := by
  obtain ⟨balance, payouts, _, hpayouts, rfl⟩ := hpays
  cases hpayouts
  intro movement hmovement
  obtain ⟨payout, hpayout, rfl⟩ := List.mem_map.mp hmovement
  split at hpayout
  next =>
    cases List.mem_singleton.mp hpayout
    rfl
  next => cases hpayout

/-- Nothing has been moved under the key that is paid next. -/
theorem Confirmable.target_notMem (hconfirmable : Confirmable start legs book)
    {items : List HoldItem} {parts : List (List Movement)}
    (hparts : List.Forall₂ (PaysOut .confirm legs start) items parts)
    (hitems : ∀ item ∈ items, item.Carried legs) (hitem : item.Carried legs)
    (hnew : item.key ∉ items.map HoldItem.key) :
    item.target ∉ parts.flatten.map Movement.source ∧
      item.target ∉ parts.flatten.map Movement.destination := by
  constructor
  · intro hmem
    obtain ⟨movement, hmovement, hkey⟩ := List.mem_map.mp hmem
    obtain ⟨part, hpart, hmovement⟩ := List.mem_flatten.mp hmovement
    obtain ⟨other, hother, hpays⟩ := hparts.exists_of_mem_right hpart
    rw [hpays.source_eq movement hmovement] at hkey
    obtain ⟨leg, hleg, hhold, _⟩ := (hitems other hother).group
    obtain ⟨payee, hpayee, _, hdestination⟩ := hitem.group
    refine (hconfirmable.parties payee hpayee).1 ⟨leg, hleg, ?_⟩
    rw [hhold, hdestination]
    exact congrArg Prod.fst hkey
  · intro hmem
    obtain ⟨movement, hmovement, hkey⟩ := List.mem_map.mp hmem
    obtain ⟨part, hpart, hmovement⟩ := List.mem_flatten.mp hmovement
    obtain ⟨other, hother, hpays⟩ := hparts.exists_of_mem_right hpart
    rw [hpays.destination_eq movement hmovement] at hkey
    refine hconfirmable.target_ne hitem (hitems other hother) ?_ hkey
    exact fun hsame => hnew (hsame ▸ List.mem_map_of_mem hother)

end Items

/-- A balance that nobody has cached is read unless the clock fails. -/
theorem balance_returns {before after : World} {key : BalanceKey}
    {result : Except LedgerError Cent} (hconsistent : Consistent before.store)
    (hnone : before.store.pointsOf key = []) (hsums : ∀ order, SumsUp before.store order key)
    (halone : Alone (Ledger.balance key.1 key.2) before result after) :
    (∃ value, result = .ok value) ∨ after.clock = none := by
  by_cases hclock : after.clock = none
  · exact .inr hclock
  obtain ⟨now, point, order, hclosest, _⟩ | ⟨later, hcompute⟩ :=
    balance_cases hconsistent halone hclock
  · have hpoint := (mem_pointsOf_of_closest hclosest).1
    rw [hnone] at hpoint
    cases hpoint
  · obtain ⟨value, _, hresult, _⟩ | ⟨_, order, hoverflow⟩ := computeBalance_cases hcompute
    · exact .inl ⟨value, hresult⟩
    · exact absurd (hsums order) hoverflow

section Loops

variable [Sha256] [Cbor] {start : InMemoryStore} {legs : List InflightLeg}
  {receipts : List Receipt} {closed : List AccountId} {before after : World}
  {book : BookId} {inflight : EnvelopeId} {group : HoldGroup} {asset : AssetId}
  {items : List HoldItem} {parts : List (List Movement)}
  {result : Except LedgerError (List Receipt)}

omit [Cbor] in
/-- The next asset of a hold can be paid out in the state that has been reached. -/
theorem Confirmable.sweepable (hconfirmable : Confirmable start legs book)
    (hparts : List.Forall₂ (PaysOut .confirm legs start) items parts)
    (hmoved : Moved start parts.flatten closed receipts before.store)
    (hitems : ∀ item ∈ items, item.Carried legs) (hitem : HoldItem.Carried legs (group, asset))
    (hnew : (group.hold, asset) ∉ items.map HoldItem.key)
    (hopen : group.hold ∉ closed) (hclosed : ∀ id ∈ closed, OfTrade legs id) {amount : Cent}
    (hpositive : 0 < amount.val) (hamount : amount.val = before.store.liveBalance (group.hold, asset)) :
    Sweepable before.store book group.hold group.destination asset amount := by
  obtain ⟨leg, hleg, hkey, hhold, hdestination, hasset⟩ := hconfirmable.exists_leg hitem
  have hnow : Accounted before.store :=
    hmoved.evolves.keep Accounted (fun _ _ hstep => hstep.accounted) hconfirmable.accounted
  have hsafe : OverdraftSafe before.store :=
    hmoved.evolves.keep OverdraftSafe (fun _ _ hstep => hstep.overdraftSafe) hconfirmable.safe
  obtain ⟨hsource, hparty⟩ := key_notMem_of_forall₂ hparts hconfirmable.toAwaiting hitems hitem hnew
  obtain ⟨hfrom, hto⟩ := hconfirmable.target_notMem hparts hitems hitem hnew
  have hpayer := hmoved.others _ hsource hparty
  have hpayee := hmoved.others _ hfrom hto
  have hnotHold : ¬OfTrade legs group.destination := hdestination ▸ (hconfirmable.parties leg hleg).1
  have hsums := hconfirmable.sums leg hleg
  have hfits := hconfirmable.fits leg hleg
  rw [hkey, hdestination, hasset] at hsums hfits
  constructor
  case accounted => exact hnow
  case safe => exact hsafe
  case payer =>
    obtain ⟨account, hlatest, hfunds⟩ := hconfirmable.payers leg hleg
    exact ⟨account, by rw [hmoved.latest _ hopen, ← hlatest, hhold], hfunds⟩
  case recorded =>
    refine hpayer.recorded (fun _ _ => hmoved.evolves.lookup_immutable) ?_
    exact hkey ▸ hconfirmable.recorded leg hleg
  case payee =>
    obtain ⟨account, hlatest, htakes⟩ := hconfirmable.payees leg hleg
    refine ⟨account, ?_, htakes⟩
    rw [hmoved.latest _ fun hmem => hnotHold (hclosed _ hmem), ← hdestination, hlatest]
  case other =>
    rintro hsame
    exact hnotHold ⟨leg, hleg, hhold.trans hsame.symm⟩
  case positive => exact hpositive
  case whole => exact hamount.symm
  case book =>
    have hbook := hconfirmable.book
    rwa [AllowsAll, ← hmoved.books] at hbook
  case sums =>
    intro order
    exact ⟨hpayer.sumsUp hconfirmable.accounted.consistent hnow.consistent (hsums order).1,
      hpayee.sumsUp hconfirmable.accounted.consistent hnow.consistent (hsums order).2⟩
  case fits =>
    have htarget : before.store.liveBalance (group.destination, asset) =
        start.liveBalance (group.destination, asset) :=
      hpayee.liveBalance_eq hconfirmable.accounted.consistent hnow.consistent
    have hwhole := hpayer.liveBalance_eq hconfirmable.accounted.consistent hnow.consistent
    rw [hamount, htarget]
    rwa [← hwhole] at hfits

/-- Paying out the next asset fails only with the clock. -/
theorem Confirmable.sweepAsset (hconfirmable : Confirmable start legs book)
    (hparts : List.Forall₂ (PaysOut .confirm legs start) items parts)
    (hmoved : Moved start parts.flatten closed receipts before.store)
    (hitems : ∀ item ∈ items, item.Carried legs) (hitem : HoldItem.Carried legs (group, asset))
    (hnew : (group.hold, asset) ∉ items.map HoldItem.key)
    (hopen : group.hold ∉ closed) (hclosed : ∀ id ∈ closed, OfTrade legs id)
    (halone : Alone (Kuatia.sweepAsset book inflight group receipts asset) before result after) :
    (∃ later, result = .ok later) ∨ after.clock = none := by
  obtain ⟨leg, hleg, hkey, _, _, _⟩ := hconfirmable.exists_leg hitem
  have hnow : Accounted before.store :=
    hmoved.evolves.keep Accounted (fun _ _ hstep => hstep.accounted) hconfirmable.accounted
  have hnone : before.store.pointsOf (group.hold, asset) = [] := by
    have hunread := hconfirmable.unread leg hleg
    rwa [hkey, InMemoryStore.pointsOf, ← hmoved.projections] at hunread
  obtain ⟨hsource, hparty⟩ := key_notMem_of_forall₂ hparts hconfirmable.toAwaiting hitems hitem hnew
  have hsums : ∀ order, SumsUp before.store order (group.hold, asset) := fun order =>
    (hmoved.others _ hsource hparty).sumsUp hconfirmable.accounted.consistent hnow.consistent
      (hkey ▸ (hconfirmable.sums leg hleg order).1)
  obtain ⟨balance, first, hbalance, hrest⟩ | ⟨err, hbalance, rfl⟩ := alone_bind_iff.mp halone
  swap
  · obtain ⟨_, hok⟩ | hclock := balance_returns hnow.consistent hnone hsums hbalance
    · cases hok
    · exact .inr hclock
  have hfirst := (balance_readOnly group.hold asset).store_eq hbalance
  split at hrest
  next hpositive =>
    have hexact := balance_alone hbalance hnow
      (hmoved.evolves.keep SpendsOnce (fun _ _ hstep => hstep.spendsOnce) hconfirmable.spends)
      (.of_none hnone 0)
    have hsweepable := hconfirmable.sweepable hparts hmoved hitems hitem hnew hopen hclosed
      (Cent.isPositive_iff.mp hpositive) hexact
    obtain ⟨receipt, second, hsettle, hpure⟩ | ⟨err, hsettle, rfl⟩ := alone_bind_iff.mp hrest
    · exact .inl ⟨_, (alone_pure_iff.mp hpure).1⟩
    · obtain ⟨payload, hpayload, _⟩ :=
        exists_encodeMeta (SettleRole.confirm.payload inflight group.destination)
      obtain ⟨metadata, third, hmetadata, hcommit⟩ | ⟨_, hmetadata, _⟩ := alone_bind_iff.mp hsettle
      · obtain ⟨_, rfl⟩ := alone_attempt_iff.mp hmetadata
        obtain ⟨_, hok⟩ | ⟨_, _, hclock⟩ := (hfirst.symm ▸ hsweepable).commit hcommit
        · cases hok
        · exact .inr hclock
      · have hvalue := (alone_attempt_iff.mp hmetadata).1
        rw [metaMap, hpayload] at hvalue
        cases hvalue
  next => exact .inl ⟨_, (alone_pure_iff.mp hrest).1⟩

/-- Paying out the assets of a hold fails only with the clock. -/
theorem Confirmable.sweepAssets (hconfirmable : Confirmable start legs book)
    (hparts : List.Forall₂ (PaysOut .confirm legs start) items parts)
    (hmoved : Moved start parts.flatten closed receipts before.store)
    (hitems : ∀ item ∈ items, item.Carried legs) {assets : List AssetId}
    (hcarried : ∀ asset ∈ assets, HoldItem.Carried legs (group, asset))
    (hnodup : ((items ++ assets.map (group, ·)).map HoldItem.key).Nodup)
    (hopen : group.hold ∉ closed) (hclosed : ∀ id ∈ closed, OfTrade legs id)
    (halone : Alone (assets.foldlM (Kuatia.sweepAsset book inflight group) receipts) before result
      after) :
    (∃ later, result = .ok later) ∨ after.clock = none := by
  induction assets generalizing receipts items parts before with
  | nil => exact .inl ⟨_, (alone_pure_iff.mp halone).1⟩
  | cons asset assets ih =>
      rw [List.forall_mem_cons] at hcarried
      have hnew : HoldItem.key (group, asset) ∉ items.map HoldItem.key := by
        rw [List.map_append, List.nodup_append] at hnodup
        exact fun hmem => hnodup.2.2 _ hmem _ List.mem_cons_self rfl
      obtain ⟨next, middle, hnext, hrest⟩ | ⟨err, hnext, rfl⟩ := alone_bind_iff.mp halone
      · obtain ⟨hsource, hparty⟩ :=
          key_notMem_of_forall₂ hparts hconfirmable.toAwaiting hitems hcarried.1 hnew
        have hdrained : ∃ movements, PaysOut .confirm legs start (group, asset) movements ∧
            Moved start (parts.flatten ++ movements) closed next middle.store :=
          hmoved.drainAsset hconfirmable.toAwaiting hcarried.1 hsource hparty hnext
        obtain ⟨movements, hpays, hmiddle⟩ := hdrained
        rw [List.map_cons, List.append_cons] at hnodup
        have hboth : List.Forall₂ (PaysOut .confirm legs start) (items ++ [(group, asset)])
            (parts ++ [movements]) := List.rel_append hparts (.cons hpays .nil)
        refine ih hboth ?_ ?_ hcarried.2 hnodup hrest
        · rwa [List.flatten_append, List.flatten_singleton]
        · intro item hitem
          rcases List.mem_append.mp hitem with hearlier | hlast
          · exact hitems item hearlier
          · exact List.mem_singleton.mp hlast ▸ hcarried.1
      · obtain ⟨_, hok⟩ | hclock := hconfirmable.sweepAsset hparts hmoved hitems hcarried.1 hnew
          hopen hclosed hnext
        · cases hok
        · exact .inr hclock

/-- Paying out the holds and closing them fails only with the clock. -/
theorem Confirmable.sweepGroups (hconfirmable : Confirmable start legs book) {done : List HoldGroup}
    (hparts : List.Forall₂ (PaysOut .confirm legs start) (itemsOf done) parts)
    (hmoved : Moved start parts.flatten (done.map (·.hold)) receipts before.store)
    {groups : List HoldGroup} (hgroups : ∀ group ∈ done ++ groups, GroupOf legs group)
    (hnodup : ((done ++ groups).map (·.hold)).Nodup)
    (halone : Alone (groups.foldlM (drainGroup .confirm book inflight legs) receipts) before result
      after) :
    (∃ later, result = .ok later) ∨ after.clock = none := by
  induction groups generalizing receipts done parts before with
  | nil => exact .inl ⟨_, (alone_pure_iff.mp halone).1⟩
  | cons group groups ih =>
      rw [List.append_cons] at hgroups hnodup
      have hhere : ∀ other ∈ done ++ [group], GroupOf legs other :=
        fun other hother => hgroups other (List.mem_append_left _ hother)
      have hholds : ((done ++ [group]).map (·.hold)).Nodup := by
        rw [List.map_append] at hnodup
        exact hnodup.of_append_left
      obtain ⟨next, middle, hdrain, hrest⟩ | ⟨err, hdrain, rfl⟩ := alone_bind_iff.mp halone
      · obtain ⟨more, hmore, hmiddle⟩ :=
          hmoved.drainGroup hconfirmable.toAwaiting hparts hhere hholds hdrain
        exact ih hmore hmiddle hgroups hnodup hrest
      have hgroup : GroupOf legs group := hhere group (List.mem_append_right _ List.mem_cons_self)
      have hearlier : ∀ other ∈ done, GroupOf legs other :=
        fun other hother => hhere other (List.mem_append_left _ hother)
      have hkeys := nodup_itemsOf hhere hholds
      rw [itemsOf_concat] at hkeys
      have hopen := hold_notMem_of_nodup hholds
      have hclosed : ∀ id ∈ done.map (·.hold), OfTrade legs id := by
        intro id hid
        obtain ⟨other, hother, rfl⟩ := List.mem_map.mp hid
        obtain ⟨leg, hleg, hhold, _⟩ := (hearlier other hother).destined
        exact ⟨leg, hleg, hhold⟩
      obtain ⟨drained, second, hassets, hclosing⟩ | ⟨_, hassets, _⟩ := alone_bind_iff.mp hdrain
      · obtain ⟨_, third, hclose, hpure⟩ | ⟨_, hclose, _⟩ := alone_bind_iff.mp hclosing
        · cases (alone_pure_iff.mp hpure).1
        -- the hold is as it was at the start, so only the clock keeps it from being closed
        obtain ⟨more, hmore, hmiddle⟩ := hmoved.drainAssets hconfirmable.toAwaiting hparts
          (carried_of_mem_itemsOf hearlier) (fun asset hasset => hgroup.carried hasset) hkeys hassets
        have hwell := hmiddle.evolves.wellFormed hconfirmable.accounted.wellFormed
        have hmay := hmiddle.mayClose hconfirmable.toAwaiting hgroup hopen
        obtain hok | hclock := (closeIfDrained_cases hwell hmay hclose).2
        · cases hok
        · exact .inr hclock
      · obtain ⟨_, hok⟩ | hclock := hconfirmable.sweepAssets hparts hmoved
          (carried_of_mem_itemsOf hearlier) (fun asset hasset => hgroup.carried hasset) hkeys hopen
          hclosed hassets
        · cases hok
        · exact .inr hclock

end Loops

/-- The holds of a leg table are always grouped. -/
theorem exists_groupHolds (legs : List InflightLeg) (inflight : EnvelopeId) :
    ∃ groups, groupHolds legs inflight = .ok groups := by
  refine List.exists_mapM_eq_ok fun hold hhold => ?_
  obtain ⟨leg, hleg, hsame⟩ := mem_holdsOf.mp hhold
  have hfind : (legs.find? (·.hold = hold)).isSome := by
    rw [List.find?_isSome]
    exact ⟨leg, hleg, decide_eq_true hsame⟩
  obtain ⟨found, hfound⟩ := Option.isSome_iff_exists.mp hfind
  exact ⟨_, by rw [destinationOf, hfound]; rfl⟩

/-- Confirming everything fails only with the clock. -/
theorem Confirmable.confirmAll [Sha256] [Cbor] {before after : World} {inflight : EnvelopeId}
    {record : EnvelopeRecord} {legs : List InflightLeg}
    {result : Except LedgerError (List Receipt)}
    (hconfirmable : Confirmable before.store legs record.envelope.book)
    (hstored : before.store.transfers.lookup inflight = some record)
    (hlegs : readMeta record.envelope.metadata = some (.authorize legs))
    (halone : Alone (confirmAll inflight) before result after) :
    (∃ receipts, result = .ok receipts) ∨ after.clock = none := by
  change Alone (settleAll .confirm inflight) before result after at halone
  rw [settleAll_eq] at halone
  obtain ⟨⟨found, others⟩, first, hload, hrest⟩ | ⟨_, hload, _⟩ := alone_bind_iff.mp halone
  swap
  · obtain ⟨stored, second, hread, hrest⟩ | ⟨_, hread, _⟩ := alone_bind_iff.mp hload
    · obtain ⟨choice, hvalue, rfl⟩ := alone_read_iff.mp hread
      cases hvalue
      rw [InMemoryStore.getTransfer, hstored] at hrest
      dsimp only at hrest
      rw [hlegs] at hrest
      cases (alone_pure_iff.mp hrest).1
    · obtain ⟨_, hvalue, _⟩ := alone_read_iff.mp hread
      cases hvalue
  obtain ⟨hfound, hothers, hfirst⟩ := loadInflight_alone hload
  rw [hstored] at hfound
  cases hfound
  rw [hlegs] at hothers
  cases hothers
  obtain ⟨groups, hgroups⟩ := exists_groupHolds legs inflight
  obtain ⟨found, second, hattempt, hloop⟩ | ⟨_, hattempt, _⟩ := alone_bind_iff.mp hrest
  swap
  · have hvalue := (alone_attempt_iff.mp hattempt).1
    rw [hgroups] at hvalue
    cases hvalue
  obtain ⟨hvalue, rfl⟩ := alone_attempt_iff.mp hattempt
  rw [hgroups] at hvalue
  cases hvalue
  obtain ⟨hholds, hassets⟩ := groupHolds_eq_ok hgroups
  have hof : ∀ group ∈ [] ++ groups, GroupOf legs group := by
    intro group hgroup
    rw [List.nil_append] at hgroup
    exact ⟨(group_of_groupHolds hgroups hgroup).1, hassets group hgroup⟩
  have hnodup : (([] ++ groups).map HoldGroup.hold).Nodup := by
    rw [List.nil_append, hholds]
    exact AccountId.nodup_sortDedup _
  rw [← hfirst] at hconfirmable
  have hstart : Moved second.store ([] : List (List Movement)).flatten
      (([] : List HoldGroup).map (·.hold)) [] second.store := .refl second.store
  exact hconfirmable.sweepGroups .nil hstart hof hnodup hloop

end Kuatia
