import Kuatia.Inflight.Confirming
import Kuatia.Inflight.Parking

/-! # What an inflight comes to

A trade that is authorized and then confirmed comes to the same as the trade committed
directly, and a trade that is authorized and then voided comes to nothing: every
balance but those of the holds, which end empty, is the same.
-/

namespace Kuatia

open LedgerM

/-! ## Sums over the items -/

section Sums

variable {α γ K : Type} [DecidableEq K]

theorem sum_ite_of_notMem {items : List α} {keyOf : α → K} {key : K}
    (hnone : key ∉ items.map keyOf) (value : α → Int) :
    (items.map fun item => if keyOf item = key then value item else 0).sum = 0 := by
  refine List.sum_eq_zero fun amount hamount => ?_
  obtain ⟨item, hitem, rfl⟩ := List.mem_map.mp hamount
  rw [if_neg]
  rintro rfl
  exact hnone (List.mem_map_of_mem hitem)

/-- Under distinct keys, only the item of the key counts. -/
theorem sum_ite_of_nodup {items : List α} {keyOf : α → K} (hnodup : (items.map keyOf).Nodup)
    {item : α} (hitem : item ∈ items) (value : α → Int) :
    (items.map fun other => if keyOf other = keyOf item then value other else 0).sum =
      value item := by
  induction items with
  | nil => cases hitem
  | cons head tail ih =>
      rw [List.map_cons, List.nodup_cons] at hnodup
      rw [List.map_cons, List.sum_cons]
      rcases List.mem_cons.mp hitem with rfl | htail
      · rw [if_pos rfl, sum_ite_of_notMem hnodup.1, add_zero]
      · have hother : keyOf head ≠ keyOf item := fun hsame =>
          hnodup.1 (hsame ▸ List.mem_map_of_mem htail)
        rw [if_neg hother, zero_add, ih hnodup.2 htail]

/-- What is known of each part is known of all of them. -/
theorem keyTotal_flatten_of_forall₂ [MoneyWidth] {β : Type} {keyOf : β → K} {amountOf : β → Cent}
    {related : α → List β → Prop} {items : List α} {parts : List (List β)} {key : K}
    {value : α → Int} (hparts : List.Forall₂ related items parts)
    (hvalue : ∀ item ∈ items, ∀ part, related item part →
      keyTotal keyOf amountOf part key = value item) :
    keyTotal keyOf amountOf parts.flatten key = (items.map value).sum := by
  induction hparts with
  | nil => rfl
  | cons hhead _ ih =>
      rw [List.forall_mem_cons] at hvalue
      rw [List.flatten_cons, keyTotal_append, List.map_cons, List.sum_cons,
        hvalue.1 _ hhead, ih hvalue.2]

/-- Items with distinct keys that cover all keys of the parts split the parts. -/
theorem sum_fibers {items : List α} {keyOf : α → K} (hnodup : (items.map keyOf).Nodup)
    {partOf : γ → K} {legs : List γ} (hcovered : ∀ leg ∈ legs, partOf leg ∈ items.map keyOf)
    (weight : γ → Int) :
    (items.map fun item => ((legs.filter (partOf · = keyOf item)).map weight).sum).sum =
      (legs.map weight).sum := by
  induction legs with
  | nil => simp
  | cons leg legs ih =>
      rw [List.forall_mem_cons] at hcovered
      have hsplit : ∀ item, (((leg :: legs).filter (partOf · = keyOf item)).map weight).sum =
          (if keyOf item = partOf leg then weight leg else 0) +
            ((legs.filter (partOf · = keyOf item)).map weight).sum := by
        intro item
        by_cases hsame : partOf leg = keyOf item
        · rw [List.filter_cons_of_pos (by simp [hsame]), if_pos hsame.symm, List.map_cons,
            List.sum_cons]
        · rw [List.filter_cons_of_neg (by simp [hsame]), if_neg (Ne.symm hsame), zero_add]
      obtain ⟨found, hfound, hkey⟩ := List.mem_map.mp hcovered.1
      simp only [hsplit]
      rw [List.sum_map_add, ← hkey, sum_ite_of_nodup hnodup hfound fun _ => weight leg,
        ih hcovered.2, List.map_cons, List.sum_cons]

end Sums

section Theory

variable [MoneyWidth]

/-! ## The items of a leg table -/

/-- The groups are those of the legs, and leave none out. -/
structure Grouped (legs : List InflightLeg) (groups : List HoldGroup) : Prop where
  carried : ∀ item ∈ itemsOf groups, item.Carried legs
  nodup : ((itemsOf groups).map HoldItem.key).Nodup
  covered : ∀ leg ∈ legs, leg.key ∈ (itemsOf groups).map HoldItem.key

theorem grouped_of_groupHolds {legs : List InflightLeg} {inflight : EnvelopeId}
    {groups : List HoldGroup} (hgroups : groupHolds legs inflight = .ok groups) :
    Grouped legs groups := by
  obtain ⟨hholds, hassets⟩ := groupHolds_eq_ok hgroups
  have hof : ∀ group ∈ groups, GroupOf legs group := fun group hgroup =>
    ⟨(group_of_groupHolds hgroups hgroup).1, hassets group hgroup⟩
  have hnodup : (groups.map (·.hold)).Nodup := by
    rw [hholds]
    exact AccountId.nodup_sortDedup _
  refine ⟨carried_of_mem_itemsOf hof, nodup_itemsOf hof hnodup, fun leg hleg => ?_⟩
  have hhold : leg.hold ∈ groups.map (·.hold) := by
    rw [hholds]
    exact mem_holdsOf.mpr ⟨leg, hleg, rfl⟩
  obtain ⟨group, hgroup, hsame⟩ := List.mem_map.mp hhold
  have hasset : leg.asset ∈ group.assets := by
    rw [hassets group hgroup, hsame]
    exact mem_assetsOf.mpr ⟨leg, hleg, rfl, rfl⟩
  refine List.mem_map.mpr ⟨(group, leg.asset), ?_, Prod.ext hsame rfl⟩
  exact List.mem_flatMap.mpr ⟨group, hgroup, List.mem_map_of_mem hasset⟩

/-! ## What is paid out of the holds -/

section Paid

variable {role : SettleRole} {legs : List InflightLeg} {start : InMemoryStore}
  {groups : List HoldGroup} {parts : List (List Movement)}

/-- When all that there is of each asset is due, it is paid out of the holds. -/
theorem Awaiting.paid_out (hawaiting : Awaiting start legs)
    (hcarried : ∀ item ∈ itemsOf groups, item.Carried legs)
    (hparts : List.Forall₂ (PaysOut role legs start) (itemsOf groups) parts)
    (hdue : ∀ item ∈ itemsOf groups,
      due role legs item.key (start.liveBalance item.key) = start.liveBalance item.key)
    (key : BalanceKey) : keyTotal Movement.source Movement.amount parts.flatten key =
      ((itemsOf groups).map fun item =>
        if item.key = key then start.liveBalance item.key else 0).sum := by
  refine keyTotal_flatten_of_forall₂ hparts fun item hitem part hpays => ?_
  have hsource := hpays.source_eq
  obtain ⟨balance, payouts, hbalance, hpayouts, rfl⟩ := hpays
  obtain ⟨_, hsum, _⟩ := payoutsOf_eq_ok hawaiting.amounts (hcarried item hitem).asset hpayouts
  rw [keyTotal_of_key hsource]
  refine if_congr Iff.rfl ?_ rfl
  rw [payoutMovements, List.map_map]
  refine Eq.trans hsum ?_
  rw [hbalance]
  exact hdue item hitem

/-- On confirm the destinations are paid what is in the holds. -/
theorem received_on_confirm
    (hparts : List.Forall₂ (PaysOut .confirm legs start) (itemsOf groups) parts)
    (hnonneg : ∀ item ∈ itemsOf groups, 0 ≤ start.liveBalance item.key) (key : BalanceKey) :
    keyTotal Movement.destination Movement.amount parts.flatten key =
      ((itemsOf groups).map fun item =>
        if item.target = key then start.liveBalance item.key else 0).sum := by
  refine keyTotal_flatten_of_forall₂ hparts fun item hitem part hpays => ?_
  have htarget := hpays.destination_eq
  obtain ⟨balance, payouts, hbalance, hpayouts, rfl⟩ := hpays
  rw [keyTotal_of_key htarget]
  refine if_congr Iff.rfl ?_ rfl
  cases hpayouts
  have hleast := hnonneg item hitem
  rw [← hbalance] at hleast ⊢
  split
  next => simp [payoutMovements]
  next hnothing =>
    have hmost := mt Cent.isPositive_iff.mpr hnothing
    simp only [payoutMovements, List.map_nil, List.sum_nil]
    omega

/-- When the limits come to what is left, each funder is paid up to its limit. -/
theorem payOut_all {caps : List (AccountId × Cent)} (hcaps : ∀ cap ∈ caps, 0 < cap.2.val)
    {remaining : Cent} (hremaining : remaining.val = capTotal caps) :
    payOut caps remaining = .ok (caps.map fun cap => ⟨cap.1, cap.2⟩) := by
  induction caps generalizing remaining with
  | nil => rfl
  | cons head rest ih =>
      obtain ⟨funder, cap⟩ := head
      obtain ⟨hcap, hrest⟩ := List.forall_mem_cons.mp hcaps
      rw [capTotal_cons] at hremaining
      simp only at hcap hremaining
      have hothers := capTotal_nonneg fun other hother => (hrest other hother).le
      obtain ⟨give, left, hgive, hleft⟩ :=
        exists_share (show 0 ≤ cap.val by omega) (show 0 ≤ remaining.val by omega)
      obtain rfl : give = cap := by
        rw [Cent.ext_iff, hgive, min_eq_left (by omega)]
      rw [payOut_of_share hgive hcap hleft, ih hrest (by omega)]
      rfl

/-- An `i64` limit for the last leg is as good as its amount. -/
theorem totalFunded_le_liftLast {hold : AccountId} {asset : AssetId}
    (hsome : ∃ leg ∈ legs, leg.hold = hold ∧ leg.asset = asset)
    (hsmall : ∀ leg ∈ legs, leg.amount.val ≤ 2 ^ 63 - 1) :
    totalFunded (fundingLegs legs hold asset) ≤
      capTotal (liftLast (capsOf (fundingLegs legs hold asset))) := by
  have hnonempty : fundingLegs legs hold asset ≠ [] := by
    obtain ⟨leg, hleg, hmatch⟩ := hsome
    exact List.ne_nil_of_mem (List.mem_filter.mpr ⟨hleg, decide_eq_true hmatch⟩)
  have hlast := List.getLast_mem hnonempty
  have hamount := hsmall _ (List.mem_filter.mp hlast).1
  have hsplit := congrArg totalFunded (List.dropLast_append_getLast hnonempty)
  rw [totalFunded, List.map_append, List.sum_append, ← totalFunded] at hsplit
  simp only [List.map_cons, List.map_nil, List.sum_cons, List.sum_nil, add_zero] at hsplit
  rw [capTotal_liftLast_capsOf hnonempty]
  omega

/-- On void the legs that have funded an asset are paid back, when they have funded all
that is there. -/
theorem received_on_void (hgrouped : Grouped legs groups)
    (hparts : List.Forall₂ (PaysOut .void legs start) (itemsOf groups) parts)
    (hpositive : ∀ leg ∈ legs, 0 < leg.amount.val)
    (hsmall : ∀ leg ∈ legs, leg.amount.val ≤ 2 ^ 63 - 1)
    (hfunded : ∀ item ∈ itemsOf groups,
      start.liveBalance item.key = totalFunded (fundingLegs legs item.1.hold item.2))
    (key : BalanceKey) : keyTotal Movement.destination Movement.amount parts.flatten key =
      (legs.map fun leg => if (leg.funder, leg.asset) = key then leg.amount.val else 0).sum := by
  rw [← sum_fibers hgrouped.nodup hgrouped.covered]
  refine keyTotal_flatten_of_forall₂ hparts fun item hitem part hpays => ?_
  obtain ⟨balance, payouts, hbalance, hpayouts, rfl⟩ := hpays
  have hcarried := hgrouped.carried item hitem
  have hfunding : ∀ leg ∈ fundingLegs legs item.1.hold item.2, leg ∈ legs :=
    fun leg hleg => (List.mem_filter.mp hleg).1
  have hcaps : ∀ cap ∈ capsOf (fundingLegs legs item.1.hold item.2), 0 < cap.2.val := by
    intro cap hcap
    obtain ⟨leg, hleg, rfl⟩ := List.mem_map.mp hcap
    exact hpositive leg (hfunding leg hleg)
  have hbalanced : balance.val = capTotal (capsOf (fundingLegs legs item.1.hold item.2)) := by
    rw [hbalance, hfunded item hitem, capTotal_capsOf]
  have hpaid : payouts = (capsOf (fundingLegs legs item.1.hold item.2)).map
      fun cap => ⟨cap.1, cap.2⟩ := by
    have hnonneg := fun cap hcap => (hcaps cap hcap).le
    have hall := payOut_all hcaps hbalanced
    rw [← payOut_liftLast hnonneg (hbalanced ▸ capTotal_nonneg hnonneg) hbalanced.le] at hall
    · cases hpayouts.symm.trans hall
      rfl
    · rw [hbalanced, capTotal_capsOf]
      exact totalFunded_le_liftLast hcarried.asset hsmall
  rw [hpaid, capsOf, payoutMovements, List.map_map, List.map_map, keyTotal_map, keyTotal_eq_sum,
    fundingLegs]
  have hlegs : (legs.filter fun leg => leg.hold = item.1.hold ∧ leg.asset = item.2) =
      legs.filter (InflightLeg.key · = item.key) :=
    List.filter_congr fun leg _ =>
      decide_eq_decide.mpr (Prod.ext_iff (x := leg.key) (y := item.key)).symm
  rw [hlegs]
  refine congrArg List.sum (List.map_congr_left fun leg hleg => ?_)
  have hasset : leg.asset = item.2 :=
    (Prod.ext_iff.mp (of_decide_eq_true (List.mem_filter.mp hleg).2)).2
  rw [hasset]
  rfl

end Paid

/-! ## A parked trade -/

theorem Participates.mem_accounts {store : InMemoryStore} {id : AccountId}
    (hparticipates : Participates store id) : id ∈ store.accounts := by
  obtain ⟨account, hlatest, _⟩ := hparticipates
  by_contra hnone
  rw [InMemoryStore.latest, InMemoryStore.versions_of_notMem hnone] at hlatest
  cases hlatest

section Trade

variable [Sha256] [Cbor] {start store : InMemoryStore} {transfer : Transfer}
  {authorization : Authorization} (hparked : Parked start store transfer authorization)

include hparked

theorem Parked.mem_legs {leg : InflightLeg} : leg ∈ authorization.legs ↔
    ∃ movement ∈ transfer.movements, legOf (inflightSubaccount transfer) movement = leg := by
  rw [hparked.legs, List.mem_map]

/-- A leg of a hold goes to the destination that the hold is for. -/
theorem Parked.exists_movement {item : HoldItem} (hcarried : item.Carried authorization.legs) :
    ∃ movement ∈ transfer.movements, transfer.hold movement = item.1.hold ∧
      movement.toAccount = item.1.destination := by
  obtain ⟨leg, hleg, hhold, hdestination⟩ := hcarried.group
  obtain ⟨movement, hmovement, rfl⟩ := hparked.mem_legs.mp hleg
  exact ⟨movement, hmovement, hhold, hdestination⟩

/-- What is in a hold is what the trade gives its destination. -/
theorem Parked.liveBalance_item {item : HoldItem} (hcarried : item.Carried authorization.legs) :
    store.liveBalance item.key = transfer.incoming item.target := by
  obtain ⟨movement, hmovement, hhold, hdestination⟩ := hparked.exists_movement hcarried
  have hfilled := hparked.filled movement hmovement item.2
  rwa [hhold, hdestination] at hfilled

/-- What is in a hold has been funded by its legs. -/
theorem Parked.funded {item : HoldItem} (hcarried : item.Carried authorization.legs) :
    store.liveBalance item.key =
      totalFunded (fundingLegs authorization.legs item.1.hold item.2) := by
  obtain ⟨movement, hmovement, hhold, hdestination⟩ := hparked.exists_movement hcarried
  rw [hparked.liveBalance_item hcarried, HoldItem.target, ← hdestination, ← hhold,
    ← incoming_parkingTransfer_hold hparked.distinct hmovement (inflightSubaccount transfer) [],
    totalFunded, fundingLegs, hparked.legs, Transfer.incoming, parkingTransfer, keyTotal_map,
    keyTotal, List.filter_map, List.map_map]
  refine congrArg List.sum (congrArg _ (List.filter_congr fun other _ => ?_))
  exact decide_eq_decide.mpr Prod.mk_inj

theorem Parked.awaiting (hreached : Reached start)
    (hpositive : ∀ movement ∈ transfer.movements, 0 < movement.amount.val)
    (hknown : ∀ movement ∈ transfer.movements, movement.toAccount ∈ start.accounts)
    (hunread : ∀ movement ∈ transfer.movements,
      start.pointsOf (transfer.hold movement, movement.asset) = []) :
    Awaiting store authorization.legs where
  accounted := (hreached.of_evolves hparked.evolves).accounted
  spends := (hreached.of_evolves hparked.evolves).spends
  amounts leg hleg := by
    obtain ⟨movement, hmovement, rfl⟩ := hparked.mem_legs.mp hleg
    exact (hpositive movement hmovement).le
  parties leg hleg := by
    obtain ⟨movement, hmovement, rfl⟩ := hparked.mem_legs.mp hleg
    constructor
    · rintro ⟨other, hother, hhold⟩
      obtain ⟨held, hheld, rfl⟩ := hparked.mem_legs.mp hother
      refine hparked.fresh held hheld ?_
      have hsame : transfer.hold held = movement.toAccount := hhold
      rw [hsame]
      exact hknown movement hmovement
    · rintro ⟨other, hother, hhold⟩
      obtain ⟨held, hheld, rfl⟩ := hparked.mem_legs.mp hother
      exact hparked.payers held hheld movement hmovement hhold.symm
  mayClose leg hleg := by
    obtain ⟨movement, hmovement, rfl⟩ := hparked.mem_legs.mp hleg
    exact (hparked.holds movement hmovement).opened.2
  unread leg hleg := by
    obtain ⟨movement, hmovement, rfl⟩ := hparked.mem_legs.mp hleg
    rw [InMemoryStore.pointsOf, hparked.projections]
    exact hunread movement hmovement

/-- The parked trade can be confirmed. -/
theorem Parked.confirmable (hreached : Reached start)
    (hpositive : ∀ movement ∈ transfer.movements, 0 < movement.amount.val)
    (hbook : AllowsAll start transfer.book)
    (hpayees : ∀ movement ∈ transfer.movements, Participates start movement.toAccount)
    (hunread : ∀ movement ∈ transfer.movements,
      start.pointsOf (transfer.hold movement, movement.asset) = [])
    (hsums : ∀ movement ∈ transfer.movements, ∀ order, SumsUp store order movement.destination)
    (hfits : ∀ movement ∈ transfer.movements, Cent.Holds (start.liveBalance movement.destination +
      transfer.incoming movement.destination - transfer.outgoing movement.destination)) :
    Confirmable store authorization.legs transfer.book where
  toAwaiting := hparked.awaiting hreached hpositive
    (fun movement hmovement => (hpayees movement hmovement).mem_accounts) hunread
  safe := (hreached.of_evolves hparked.evolves).safe
  book := by
    rw [AllowsAll, hparked.books]
    exact hbook
  payers leg hleg := by
    obtain ⟨movement, hmovement, rfl⟩ := hparked.mem_legs.mp hleg
    exact (hparked.holds movement hmovement).opened.1
  recorded leg hleg := by
    obtain ⟨movement, hmovement, rfl⟩ := hparked.mem_legs.mp hleg
    exact hparked.recorded movement hmovement movement.asset
  payees leg hleg := by
    obtain ⟨movement, hmovement, rfl⟩ := hparked.mem_legs.mp hleg
    obtain ⟨account, hlatest, hopen⟩ := hpayees movement hmovement
    exact ⟨account, hparked.latest _ _ hlatest, hopen⟩
  sums leg hleg order := by
    obtain ⟨movement, hmovement, rfl⟩ := hparked.mem_legs.mp hleg
    exact ⟨hparked.sums movement hmovement order, hsums movement hmovement order⟩
  fits leg hleg := by
    obtain ⟨movement, hmovement, rfl⟩ := hparked.mem_legs.mp hleg
    have hholds := hfits movement hmovement
    have hfilled := hparked.filled movement hmovement movement.asset
    have hcharged := hparked.charged movement.destination fun other hother hsame => by
      refine hparked.fresh other hother ?_
      rw [hsame]
      exact (hpayees movement hmovement).mem_accounts
    change Cent.Holds (store.liveBalance movement.destination +
      store.liveBalance (transfer.hold movement, movement.asset))
    rw [hcharged, hfilled]
    rwa [sub_add_eq_add_sub]
  agree first hfirst second hsecond := by
    obtain ⟨movement, hmovement, rfl⟩ := hparked.mem_legs.mp hfirst
    obtain ⟨other, hother, rfl⟩ := hparked.mem_legs.mp hsecond
    constructor
    · intro hsame
      have hbase : (transfer.hold movement).id = (transfer.hold other).id := by
        rw [Transfer.hold, Transfer.hold]
        exact congrArg AccountId.id hsame
      exact hparked.distinct movement hmovement other hother hbase
    · intro hsame
      have hdestination : movement.toAccount = other.toAccount := hsame
      rw [legOf, legOf, hdestination]

/-! ## What a settled trade comes to -/

section Settled

variable {groups : List HoldGroup} {parts : List (List Movement)} {closed : List AccountId}
  {receipts : List Receipt} {after : InMemoryStore}

/-- Every movement of the trade has an item of its hold. -/
theorem Parked.exists_item (hgrouped : Grouped authorization.legs groups) {movement : Movement}
    (hmovement : movement ∈ transfer.movements) : ∃ item ∈ itemsOf groups,
      item.key = (transfer.hold movement, movement.asset) ∧ item.target = movement.destination := by
  have hleg := hparked.mem_legs.mpr ⟨movement, hmovement, rfl⟩
  obtain ⟨item, hitem, hkey⟩ := List.mem_map.mp (hgrouped.covered _ hleg)
  refine ⟨item, hitem, hkey, ?_⟩
  obtain ⟨other, hother, hhold, hdestination⟩ :=
    hparked.exists_movement (hgrouped.carried item hitem)
  have hbase : (transfer.hold other).id = (transfer.hold movement).id :=
    congrArg AccountId.id (hhold.trans (Prod.ext_iff.mp hkey).1)
  have hsame := hparked.distinct other hother movement hmovement hbase
  exact Prod.ext (hdestination.symm.trans hsame) (Prod.ext_iff.mp hkey).2

/-- The holds have nothing but what is paid out of their items. -/
theorem Parked.sum_items (hgrouped : Grouped authorization.legs groups) (key : BalanceKey) :
    ((itemsOf groups).map fun item =>
      if item.key = key then store.liveBalance item.key else 0).sum =
      if ∃ movement ∈ transfer.movements, transfer.hold movement = key.1 then
        store.liveBalance key else 0 := by
  by_cases hmem : key ∈ (itemsOf groups).map HoldItem.key
  · obtain ⟨item, hitem, rfl⟩ := List.mem_map.mp hmem
    obtain ⟨movement, hmovement, hhold, _⟩ :=
      hparked.exists_movement (hgrouped.carried item hitem)
    rw [sum_ite_of_nodup hgrouped.nodup hitem fun item => store.liveBalance item.key,
      if_pos ⟨movement, hmovement, hhold⟩]
  · rw [sum_ite_of_notMem hmem]
    split
    next hholds =>
      obtain ⟨movement, hmovement, hhold⟩ := hholds
      have hfilled := hparked.filled movement hmovement key.2
      have hnone : transfer.incoming (movement.toAccount, key.2) = 0 := by
        refine keyTotal_eq_zero fun other hother hkey => hmem ?_
        obtain ⟨item, hitem, hitemKey, _⟩ := hparked.exists_item hgrouped hother
        refine List.mem_map.mpr ⟨item, hitem, hitemKey.trans (Prod.ext ?_ ?_)⟩
        · have hto : other.toAccount = movement.toAccount := congrArg Prod.fst hkey
          rw [← hhold, Transfer.hold, Transfer.hold, hto]
        · exact (Prod.ext_iff.mp hkey).2
      rw [hhold, hnone] at hfilled
      exact hfilled.symm
    next => rfl

/-- When the holds have been paid out, every balance is what it was before the trade less
what its funders owe and with what has been received. -/
theorem Parked.settled {role : SettleRole} (hreached : Reached start)
    (hawaiting : Awaiting store authorization.legs)
    (hgrouped : Grouped authorization.legs groups)
    (hparts : List.Forall₂ (PaysOut role authorization.legs store) (itemsOf groups) parts)
    (hmoved : Moved store parts.flatten closed receipts after) (hnew : AllNew store receipts)
    (hdue : ∀ item ∈ itemsOf groups,
      due role authorization.legs item.key (store.liveBalance item.key) =
        store.liveBalance item.key)
    (key : BalanceKey) : after.liveBalance key = start.liveBalance key - transfer.outgoing key +
      keyTotal Movement.destination Movement.amount parts.flatten key := by
  rw [hmoved.exact hnew, netMoved, hawaiting.paid_out hgrouped.carried hparts hdue,
    hparked.sum_items hgrouped]
  split
  next hholds =>
    -- the hold had nothing before, and it owes nothing
    obtain ⟨movement, hmovement, hhold⟩ := hholds
    have hnothing := hreached.owned.ownsNothing hreached.accounted.consistent.reserved
      (InMemoryStore.versions_of_notMem (hparked.fresh movement hmovement))
    have hbefore := hnothing.liveBalance key.2
    have howes : transfer.outgoing key = 0 := keyTotal_eq_zero fun other hother hkey =>
      hparked.payers movement hmovement other hother ((congrArg Prod.fst hkey).trans hhold.symm)
    rw [hhold] at hbefore
    change start.liveBalance key = 0 at hbefore
    omega
  next hother =>
    have hcharged := hparked.charged key fun movement hmovement hhold =>
      hother ⟨movement, hmovement, hhold⟩
    omega

theorem Parked.nonneg_item (hpositive : ∀ movement ∈ transfer.movements, 0 < movement.amount.val)
    {item : HoldItem} (hcarried : item.Carried authorization.legs) :
    0 ≤ store.liveBalance item.key := by
  rw [hparked.liveBalance_item hcarried]
  exact keyTotal_nonneg fun movement hmovement _ => (hpositive movement hmovement).le

/-- On confirm the destinations receive what the trade gives them. -/
theorem Parked.received_on_confirm
    (hpositive : ∀ movement ∈ transfer.movements, 0 < movement.amount.val)
    (hconfirmable : Confirmable store authorization.legs transfer.book)
    (hgrouped : Grouped authorization.legs groups)
    (hparts : List.Forall₂ (PaysOut .confirm authorization.legs store) (itemsOf groups) parts)
    (key : BalanceKey) : keyTotal Movement.destination Movement.amount parts.flatten key =
      transfer.incoming key := by
  rw [Kuatia.received_on_confirm hparts
    fun item hitem => hparked.nonneg_item hpositive (hgrouped.carried item hitem)]
  have htargets : ((itemsOf groups).map HoldItem.target).Nodup := by
    refine (List.Nodup.of_map _ hgrouped.nodup).map_on fun item hitem other hother hsame => ?_
    by_contra hne
    refine hconfirmable.target_ne (hgrouped.carried other hother) (hgrouped.carried item hitem)
      (fun hkey => hne ?_) hsame
    exact List.inj_on_of_nodup_map hgrouped.nodup hitem hother hkey
  by_cases hmem : key ∈ (itemsOf groups).map HoldItem.target
  · obtain ⟨item, hitem, rfl⟩ := List.mem_map.mp hmem
    rw [sum_ite_of_nodup htargets hitem fun item => store.liveBalance item.key,
      hparked.liveBalance_item (hgrouped.carried item hitem)]
  · rw [sum_ite_of_notMem hmem]
    refine (keyTotal_eq_zero fun movement hmovement hkey => hmem ?_).symm
    obtain ⟨item, hitem, _, htarget⟩ := hparked.exists_item hgrouped hmovement
    exact List.mem_map.mpr ⟨item, hitem, htarget.trans hkey⟩

/-- On void the funders receive what they have paid. -/
theorem Parked.received_on_void
    (hpositive : ∀ movement ∈ transfer.movements, 0 < movement.amount.val)
    (hsmall : ∀ movement ∈ transfer.movements, movement.amount.val ≤ 2 ^ 63 - 1)
    (hgrouped : Grouped authorization.legs groups)
    (hparts : List.Forall₂ (PaysOut .void authorization.legs store) (itemsOf groups) parts)
    (key : BalanceKey) : keyTotal Movement.destination Movement.amount parts.flatten key =
      transfer.outgoing key := by
  rw [Kuatia.received_on_void hgrouped hparts, hparked.legs, List.map_map, Transfer.outgoing,
    keyTotal_eq_sum]
  · rfl
  · intro leg hleg
    obtain ⟨movement, hmovement, rfl⟩ := hparked.mem_legs.mp hleg
    exact hpositive movement hmovement
  · intro leg hleg
    obtain ⟨movement, hmovement, rfl⟩ := hparked.mem_legs.mp hleg
    exact hsmall movement hmovement
  · intro item hitem
    exact hparked.funded (hgrouped.carried item hitem)

end Settled

end Trade

/-! ## Confirming and voiding everything -/

section Outcomes

variable [Sha256] [Cbor]

/-- In every reachable state, authorizing a trade and confirming it all comes to the same
as committing it directly: the confirmation fails only with the clock, and after it
every balance is what the direct commit would have left. The book must restrict nothing,
nobody has asked for the balances of the holds before, the balances of the destinations
can be read, and there is room for what they are to have. -/
theorem confirm_refines_commit (ledger : Ledger) (actions : List ServiceAction)
    (transfer : Transfer) (hpositive : ∀ movement ∈ transfer.movements, 0 < movement.amount.val)
    (hsmall : transfer.movements.length ≤ 32768)
    (hbook : AllowsAll (servedStore ledger actions) transfer.book)
    (receipt : Receipt) (directed : World)
    (hdirect : Alone (commit transfer) (ServicePool.after ledger actions).shared (.ok receipt)
      directed)
    (hunstored : receipt.transferId ∉ (servedStore ledger actions).transfers)
    (authorization : Authorization) (authorized : World)
    (hauthorize : Alone (authorize transfer) (ServicePool.after ledger actions).shared
      (.ok authorization) authorized)
    (hnew : authorization.inflight ∉ (servedStore ledger actions).transfers)
    (hunread : ∀ movement ∈ transfer.movements,
      (servedStore ledger actions).pointsOf (transfer.hold movement, movement.asset) = [])
    (hsums : ∀ movement ∈ transfer.movements, ∀ order,
      SumsUp authorized.store order movement.destination)
    (hfits : ∀ movement ∈ transfer.movements,
      Cent.Holds (directed.store.liveBalance movement.destination))
    (result : Except LedgerError (List Receipt)) (after : World)
    (hconfirm : Alone (confirmAll authorization.inflight) authorized result after) :
    ((∃ receipts, result = .ok receipts) ∨ after.clock = none) ∧
    ∀ receipts, result = .ok receipts → AllNew authorized.store receipts →
      ∀ key, after.store.liveBalance key = directed.store.liveBalance key := by
  have hreached := reached_served ledger actions
  obtain ⟨clock, spent, extra, req, consumed, happlies, _, hstore⟩ :=
    commit_applies hreached.accounted hdirect hunstored
  have hdirected : ∀ key, directed.store.liveBalance key =
      (servedStore ledger actions).liveBalance key + transfer.incoming key -
        transfer.outgoing key := by
    intro key
    rw [hstore]
    exact happlies.liveBalance hreached.accounted.consistent hsmall
      (fun movement hmovement => (hpositive movement hmovement).le) clock key
  have hparked : Parked (servedStore ledger actions) authorized.store transfer authorization :=
    authorize_parks hreached hpositive hsmall hauthorize hnew
  have hconfirmable := hparked.confirmable hreached hpositive hbook happlies.payee hunread hsums
    fun movement hmovement => hdirected movement.destination ▸ hfits movement hmovement
  obtain ⟨record, hrecord, hlegs, hrecordBook⟩ := hparked.stored
  refine ⟨?_, fun receipts hresult hallNew key => ?_⟩
  · rw [← hrecordBook] at hconfirmable
    exact hconfirmable.confirmAll hrecord hlegs hconfirm
  · subst hresult
    obtain ⟨groups, parts, hgroups, hparts, hmoved⟩ :=
      settleAll_moved hconfirmable.toAwaiting hrecord hlegs
        (show Alone (settleAll .confirm authorization.inflight) authorized _ after from hconfirm)
    have hgrouped := grouped_of_groupHolds hgroups
    rw [hparked.settled hreached hconfirmable.toAwaiting hgrouped hparts hmoved hallNew
      (fun item hitem => max_eq_right (hparked.nonneg_item hpositive (hgrouped.carried item hitem))),
      hparked.received_on_confirm hpositive hconfirmable hgrouped hparts, hdirected]
    omega

/-- In every reachable state, authorizing a trade and voiding it comes to nothing: when all
settlements are new, every balance is what it was before. Every amount fits an `i64`, the
destinations exist, and nobody has asked for the balances of the holds before. -/
theorem void_restores_balances (ledger : Ledger) (actions : List ServiceAction)
    (transfer : Transfer) (hpositive : ∀ movement ∈ transfer.movements, 0 < movement.amount.val)
    (hlimited : ∀ movement ∈ transfer.movements, movement.amount.val ≤ 2 ^ 63 - 1)
    (hsmall : transfer.movements.length ≤ 32768)
    (hknown : ∀ movement ∈ transfer.movements,
      movement.toAccount ∈ (servedStore ledger actions).accounts)
    (authorization : Authorization) (authorized : World)
    (hauthorize : Alone (authorize transfer) (ServicePool.after ledger actions).shared
      (.ok authorization) authorized)
    (hnew : authorization.inflight ∉ (servedStore ledger actions).transfers)
    (hunread : ∀ movement ∈ transfer.movements,
      (servedStore ledger actions).pointsOf (transfer.hold movement, movement.asset) = [])
    (receipts : List Receipt) (after : World)
    (hvoid : Alone (void authorization.inflight) authorized (.ok receipts) after)
    (hallNew : AllNew authorized.store receipts) (key : BalanceKey) :
    after.store.liveBalance key = (servedStore ledger actions).liveBalance key := by
  have hreached := reached_served ledger actions
  have hparked : Parked (servedStore ledger actions) authorized.store transfer authorization :=
    authorize_parks hreached hpositive hsmall hauthorize hnew
  have hawaiting := hparked.awaiting hreached hpositive hknown hunread
  obtain ⟨record, hrecord, hlegs, _⟩ := hparked.stored
  obtain ⟨groups, parts, hgroups, hparts, hmoved⟩ :=
    settleAll_moved hawaiting hrecord hlegs
      (show Alone (settleAll .void authorization.inflight) authorized _ after from hvoid)
  have hgrouped := grouped_of_groupHolds hgroups
  have hlimits : ∀ leg ∈ authorization.legs, leg.amount.val ≤ 2 ^ 63 - 1 := by
    intro leg hleg
    obtain ⟨movement, hmovement, rfl⟩ := hparked.mem_legs.mp hleg
    exact hlimited movement hmovement
  have hdue : ∀ item ∈ itemsOf groups, due .void authorization.legs item.key
      (authorized.store.liveBalance item.key) = authorized.store.liveBalance item.key := by
    intro item hitem
    have hcarried := hgrouped.carried item hitem
    have hnonneg := hparked.nonneg_item hpositive hcarried
    have hlimit := totalFunded_le_liftLast hcarried.asset hlimits
    rw [capTotal_liftLast_capsOf, ← hparked.funded hcarried] at hlimit
    · rw [due, max_eq_right hnonneg]
      exact min_eq_left hlimit
    · obtain ⟨leg, hleg, hmatch⟩ := hcarried.asset
      exact List.ne_nil_of_mem (List.mem_filter.mpr ⟨hleg, decide_eq_true hmatch⟩)
  rw [hparked.settled hreached hawaiting hgrouped hparts hmoved hallNew hdue,
    hparked.received_on_void hpositive hlimited hgrouped hparts]
  omega

end Outcomes

end Theory

section Pledge

namespace Sample

/-- Bob is to be paid 5. -/
def pledge : Transfer := pay external bob 5

def pledgedDirectly : Except LedgerError Receipt × World :=
  Async.runWith noon (commit pledge).run (ServicePool.after ledger (inTurn opening)).shared

def pledged : Except LedgerError Authorization × World :=
  Async.runWith noon (authorize pledge).run (ServicePool.after ledger (inTurn opening)).shared

def pledgeSettled (role : SettleRole) : Except LedgerError (List Receipt) × World :=
  Async.runWith noon (settleAll role parkedId).run pledged.2

theorem pledge_tables : (servedStore ledger (inTurn opening)).transfers.keys = [] ∧
    (servedStore ledger (inTurn opening)).books.keys = [] ∧
    (servedStore ledger (inTurn opening)).projections.entries = [] ∧
    (servedStore ledger (inTurn opening)).accounts.keys = [bob, alice, external] := by
  decide +kernel

theorem pledge_balances :
    (∀ posting ∈ pledged.2.store.livePostings, posting.key = (bob, usd) → 0 ≤ posting.value.val) ∧
    pledged.2.store.liveBalance (bob, usd) = 0 ∧
    pledgedDirectly.2.store.liveBalance (bob, usd) = 5 := by
  decide +kernel

theorem pledge_movement {movement : Movement} (hmovement : movement ∈ pledge.movements) :
    movement = ⟨external, bob, usd, .ofI64 5⟩ := List.mem_singleton.mp hmovement

theorem pledge_unread : ∀ movement ∈ pledge.movements, (servedStore ledger (inTurn opening)).pointsOf
    (pledge.hold movement, movement.asset) = [] :=
  fun _ _ => pointsOf_of_none pledge_tables.2.2.1 _

theorem pledge_unstored (tid : EnvelopeId) :
    tid ∉ (servedStore ledger (inTurn opening)).transfers := by
  rw [AList.mem_keys, pledge_tables.1]
  exact List.not_mem_nil

theorem pledge_authorized : ∃ authorization, authorization.inflight = parkedId ∧
    Alone (authorize pledge) (ServicePool.after ledger (inTurn opening)).shared
      (.ok authorization) pledged.2 := by
  have hruns := Async.runs_runWith noon (authorize pledge).run
    (ServicePool.after ledger (inTurn opening)).shared
  obtain ⟨authorization, hok, hinflight⟩ := exists_ok_of_any (show (pledged.1.toOption.any
    fun authorization => decide (authorization.inflight = parkedId)) = true by decide +kernel)
  refine ⟨authorization, hinflight, ?_⟩
  rw [← hok]
  exact hruns

/-- The settlements of the pledge are new. -/
theorem pledge_settled (role : SettleRole) : ∃ receipts,
    Alone (settleAll role parkedId) pledged.2 (.ok receipts) (pledgeSettled role).2 ∧
      AllNew pledged.2.store receipts := by
  have hruns := Async.runs_runWith noon (settleAll role parkedId).run pledged.2
  have hall : ((pledgeSettled role).1.toOption.any fun receipts =>
      decide (AllNew pledged.2.store receipts)) = true := by
    cases role <;> decide +kernel
  obtain ⟨receipts, hok, hnew⟩ := exists_ok_of_any hall
  refine ⟨receipts, ?_, hnew⟩
  rw [← hok]
  exact hruns

end Sample

open Sample

/-- Bob gets the 5 either way. -/
theorem confirm_refines_commit_pledge : ∃ receipts after,
    Alone (confirmAll parkedId) pledged.2 (.ok receipts) after ∧
      ∀ key, after.store.liveBalance key = pledgedDirectly.2.store.liveBalance key := by
  obtain ⟨receipt, hdirect⟩ := exists_of_no_failure
    (show failure pledgedDirectly.1 = none by decide +kernel)
  have hdirected := Async.runs_runWith noon (commit pledge).run
    (ServicePool.after ledger (inTurn opening)).shared
  obtain ⟨authorization, hinflight, hauthorize⟩ := pledge_authorized
  obtain ⟨receipts, hconfirm, hnew⟩ := pledge_settled .confirm
  obtain ⟨hnonneg, hbefore, hafter⟩ := pledge_balances
  refine ⟨receipts, _, hconfirm, ?_⟩
  rw [← hinflight] at hconfirm
  refine (confirm_refines_commit ledger (inTurn opening) pledge (by decide) (by decide) ?_ receipt
    pledgedDirectly.2 (hdirect ▸ hdirected) (pledge_unstored _) authorization pledged.2 hauthorize
    (pledge_unstored _) pledge_unread ?_ ?_ _ _ hconfirm).2 receipts rfl hnew
  · refine .inl ⟨?_, rfl⟩
    rw [AList.mem_keys, pledge_tables.2.1]
    exact List.not_mem_nil
  · intro movement hmovement order
    rw [pledge_movement hmovement]
    exact sumsUp_of_nonneg hnonneg (hbefore ▸ ⟨by decide, by decide⟩) order
  · intro movement hmovement
    rw [pledge_movement hmovement]
    change Cent.Holds (pledgedDirectly.2.store.liveBalance (bob, usd))
    rw [hafter]
    exact ⟨by decide, by decide⟩

/-- Voiding takes the 5 back. -/
theorem void_restores_pledge : ∃ receipts after,
    Alone (void parkedId) pledged.2 (.ok receipts) after ∧
      ∀ key, after.store.liveBalance key =
        (servedStore ledger (inTurn opening)).liveBalance key := by
  obtain ⟨authorization, hinflight, hauthorize⟩ := pledge_authorized
  obtain ⟨receipts, hvoid, hnew⟩ := pledge_settled .void
  refine ⟨receipts, _, hvoid, fun key => ?_⟩
  rw [← hinflight] at hvoid
  refine void_restores_balances ledger (inTurn opening) pledge (by decide) (by decide) (by decide) ?_
    authorization pledged.2 hauthorize (pledge_unstored _) pledge_unread receipts _ hvoid hnew key
  intro movement hmovement
  rw [pledge_movement hmovement, AList.mem_keys, pledge_tables.2.2.2]
  exact List.mem_cons_self

end Pledge

end Kuatia
