import Kuatia.Inflight.Opening

/-! # What is in a hold

In an orderly run the transfers that involve a hold are its authorize transfer,
which only adds to it, and its settlements, which only take from it and give to
others. So the balance of the hold is the authorized amount less what has been
settled, and it is not negative because a hold forbids overdraft.
-/

namespace Kuatia

open LedgerM

variable [MoneyWidth] [Cbor]

/-! ## Totals of a hold -/

/-- What a transfer adds to a hold as an authorize transfer. -/
def parkedBy (hold : AccountId) (asset : AssetId) (record : EnvelopeRecord) : Int :=
  match readMeta record.envelope.metadata with
  | some (.authorize _) => keyTotal NewPosting.key NewPosting.value record.envelope.creates (hold, asset)
  | _ => 0

/-- What a transfer pays out of a hold as a settlement. -/
def settledBy (role : SettleRole) (hold : AccountId) (asset : AssetId) (record : EnvelopeRecord) :
    Int :=
  match role, readMeta record.envelope.metadata with
  | .confirm, some (.confirm _ _) | .void, some (.void _ _) =>
      keyTotal NewPosting.asset NewPosting.value (settledPostings hold record) asset
  | _, _ => 0

namespace InMemoryStore

variable (store : InMemoryStore) (hold : AccountId) (asset : AssetId)

/-- The amount that stored authorize transfers have put into a hold. -/
def authorizedInto : Int := ((store.transfersOf hold).map (parkedBy hold asset)).sum

/-- The amount that stored settlements have paid out of a hold. -/
def settledOut (role : SettleRole) : Int :=
  ((store.transfersOf hold).map (settledBy role hold asset)).sum

end InMemoryStore

/-- No authorize transfer creates more postings than a `u16` can index. -/
def ParkedIndexed (store : InMemoryStore) : Prop :=
  ∀ tid record legs, store.transfers.lookup tid = some record →
    readMeta record.envelope.metadata = some (.authorize legs) →
    record.envelope.creates.length ≤ 65536

omit [Cbor] in
/-- What a transfer creates of an asset goes to the hold or to others. -/
theorem keyTotal_asset_split (hold : AccountId) (asset : AssetId) (creates : List NewPosting) :
    keyTotal NewPosting.asset NewPosting.value creates asset =
      keyTotal NewPosting.key NewPosting.value creates (hold, asset) +
        keyTotal NewPosting.asset NewPosting.value (creates.filter (·.owner ≠ hold)) asset := by
  induction creates with
  | nil => rfl
  | cons head tail ih =>
      rw [keyTotal_cons, keyTotal_cons, List.filter_cons, ih]
      by_cases howner : head.owner = hold
      · simp only [howner, ne_eq, not_true_eq_false, decide_false, Bool.false_eq_true, if_false,
          NewPosting.key, Prod.mk.injEq, true_and]
        omega
      · have hkey : head.key ≠ (hold, asset) := fun heq => howner (congrArg Prod.fst heq)
        simp only [howner, ne_eq, not_false_eq_true, decide_true, if_true, hkey, if_false,
          keyTotal_cons]
        omega

omit [Cbor] in
/-- What is taken from the account alone is all that is taken of an asset. -/
theorem keyTotal_asset_of_owner {hold : AccountId} {postings : List Posting}
    (howner : ∀ posting ∈ postings, posting.owner = hold) (asset : AssetId) :
    keyTotal Posting.key Posting.value postings (hold, asset) =
      keyTotal Posting.asset Posting.value postings asset := by
  unfold keyTotal
  congr 2
  refine List.filter_congr fun posting hposting => ?_
  simp [Posting.key, howner posting hposting]

variable [Sha256] {ledger : Ledger} {actions : List ServiceAction} {hold : AccountId}

/-! ## The transfers of a hold -/

/-- The authorize transfer of a named inflight parks a trade of the run. -/
theorem trade_of_found (horderly : Orderly ledger actions) {inflight : EnvelopeId}
    (hnamed : Named actions inflight) {record : EnvelopeRecord} {legs : List InflightLeg}
    (hfound : Found (SeenIn ledger actions) inflight record legs) :
    ∃ transfer, .start (.authorize transfer) ∈ actions ∧
      Parks (SeenIn ledger actions) transfer record.envelope ∧
      legs = transfer.movements.map (legOf (inflightSubaccount transfer)) := by
  obtain ⟨⟨world, hseen, hlookup⟩, hlegs⟩ := hfound
  cases origin_of_stored horderly (hseen.evolves.lookup_transfers hlookup) with
  | other hunnamed => exact absurd hnamed hunnamed
  | parks transfer hrequested hparks =>
      have hpayload := hparks.payload
      rw [hlegs] at hpayload
      cases hpayload
      exact ⟨transfer, hrequested, hparks, rfl⟩
  | @settles _ _ _ _ _ _ _ role hsettles =>
      obtain ⟨_, _, hpayload⟩ := hsettles.payable
      rw [hlegs] at hpayload
      cases role <;> cases hpayload

/-- No settlement pays into a hold. -/
theorem target_not_hold (horderly : Orderly ledger actions) {inflight : EnvelopeId}
    (hnamed : Named actions inflight) {record : EnvelopeRecord} {legs : List InflightLeg}
    (hfound : Found (SeenIn ledger actions) inflight record legs) {target destination : AccountId}
    {asset : AssetId} {role : SettleRole}
    (hpayable : Payable legs hold target destination asset role) :
    ¬IsHold ledger actions target := by
  obtain ⟨transfer, hrequested, _, rfl⟩ := trade_of_found horderly hnamed hfound
  have htrades := horderly.trades transfer hrequested
  cases role with
  | confirm =>
      have htarget : target = destination := hpayable.target
      obtain ⟨leg, hleg, _, rfl⟩ := hpayable.destined
      obtain ⟨movement, hmovement, rfl⟩ := List.mem_map.mp hleg
      rw [htarget]
      exact (htrades movement hmovement).2
  | void =>
      obtain ⟨leg, hleg, _, _, rfl⟩ := hpayable.target
      obtain ⟨movement, hmovement, rfl⟩ := List.mem_map.mp hleg
      exact (htrades movement hmovement).1

/-- No transfer of a hold wraps the posting index. -/
theorem indexedFor_hold (horderly : Orderly ledger actions) (hhold : IsHold ledger actions hold)
    (hindexed : ParkedIndexed (servedStore ledger actions)) :
    IndexedFor (servedStore ledger actions) hold := by
  intro tid record hstored hfiled
  cases origin_of_stored horderly hstored with
  | other _ haway => exact absurd hhold (haway hold hfiled)
  | parks transfer _ hparks => exact hindexed tid record _ hstored hparks.payload
  | settles inflight _ hsettles => exact hsettles.creates.1.trans (by decide)

section Recorded

variable (hindexed : IndexedFor (servedStore ledger actions) hold)

include hindexed

/-- What a hold owns is recorded as it was active in any state of the run. -/
theorem SeenIn.eq_recorded {world : World} (hseen : SeenIn ledger actions world) {id : PostingId}
    {live recorded : Posting} (hlive : world.store.postings.active.lookup id = some live)
    (hrecorded : (servedStore ledger actions).postings.immutable.lookup id = some recorded)
    (howner : live.owner = hold ∨ recorded.owner = hold) : live = recorded := by
  have haccounted := hseen.accounted
  obtain ⟨earlier, hearlier⟩ := haccounted.lookup_recorded
    (HashMap.mem_iff_exists_lookup.mpr ⟨live, hlive⟩)
  have hsame := hseen.evolves.lookup_immutable hearlier
  rw [hrecorded] at hsame
  cases hsame
  exact haccounted.eq_recorded (hindexed.of_evolves hseen.evolves) hlive hearlier howner

/-- An authorize transfer takes nothing from a hold. -/
theorem changeBy_of_parks (horderly : Orderly ledger actions) (hhold : IsHold ledger actions hold)
    {transfer : Transfer} (hrequested : .start (.authorize transfer) ∈ actions)
    {record : EnvelopeRecord} (hparks : Parks (SeenIn ledger actions) transfer record.envelope)
    (asset : AssetId) : changeBy (servedStore ledger actions) record (hold, asset) =
      keyTotal NewPosting.key NewPosting.value record.envelope.creates (hold, asset) := by
  have hnone : keyTotal Posting.key Posting.value (record.envelope.consumes.filterMap
      (servedStore ledger actions).postings.immutable.lookup) (hold, asset) = 0 := by
    refine keyTotal_eq_zero fun recorded hrecorded hkey => ?_
    obtain ⟨id, hid, hlookup⟩ := List.mem_filterMap.mp hrecorded
    have howner : recorded.owner = hold := congrArg Prod.fst hkey
    obtain ⟨world, live, hseen, hlive, movement, hmovement, hfunder⟩ := hparks.consumes hid
    have hsame := hseen.eq_recorded hindexed hlive hlookup (.inr howner)
    have hfrom : movement.fromAccount = hold := by rw [← hfunder, hsame, howner]
    exact (horderly.trades transfer hrequested movement hmovement).1 (hfrom ▸ hhold)
  rw [changeBy, hnone, sub_zero]

section Settlement

variable {inflight : EnvelopeId} {found record : EnvelopeRecord} {legs : List InflightLeg}
  {source target : AccountId} {asset : AssetId} {role : SettleRole}
  (hsettles : Settles (SeenIn ledger actions) inflight found legs source target asset role
    record.envelope)

include hsettles

/-- What a settlement consumes belongs to the hold exactly when it settles the hold. -/
theorem owner_of_settles {id : PostingId} (hid : id ∈ record.envelope.consumes) {recorded : Posting}
    (hrecorded : (servedStore ledger actions).postings.immutable.lookup id = some recorded) :
    recorded.owner = hold ↔ source = hold := by
  obtain ⟨world, live, hseen, hlive, hkey⟩ := hsettles.consumes hid
  have howner : live.owner = source := congrArg Prod.fst hkey
  constructor
  · intro hrecordedOwner
    rw [← howner, hseen.eq_recorded hindexed hlive hrecorded (.inr hrecordedOwner), hrecordedOwner]
  · rintro rfl
    rw [← hseen.eq_recorded hindexed hlive hrecorded (.inl howner), howner]

/-- A settlement that involves a hold settles it. -/
theorem source_of_settles (horderly : Orderly ledger actions) (hnamed : Named actions inflight)
    (hhold : IsHold ledger actions hold) {tid : EnvelopeId}
    (hstored : (servedStore ledger actions).transfers.lookup tid = some record)
    (hfiled : hold ∈ (servedStore ledger actions).filedUnder tid) : source = hold := by
  have hcatalogued := (accounted_served ledger actions).catalogued
  obtain ⟨posting, hposting, howner⟩ | ⟨id, hid, posting, hrecorded, howner⟩ :=
    hcatalogued.only tid record hstored hold hfiled
  · obtain ⟨_, htarget | hsource⟩ := hsettles.creates.2 posting hposting
    · obtain ⟨destination, hpayable, _⟩ := hsettles.payable
      have hnot := target_not_hold horderly hnamed hsettles.found hpayable
      rw [← htarget, howner] at hnot
      exact absurd hhold hnot
    · exact hsource.symm.trans howner
  · exact (owner_of_settles hindexed hsettles hid hrecorded).mp howner

/-- A settlement takes from its hold what it gives to others. -/
theorem changeBy_of_settles (hsource : source = hold) {tid : EnvelopeId}
    (hstored : (servedStore ledger actions).transfers.lookup tid = some record) (asset : AssetId) :
    changeBy (servedStore ledger actions) record (hold, asset) =
      -keyTotal NewPosting.asset NewPosting.value (settledPostings hold record) asset := by
  have howner : ∀ recorded ∈ record.envelope.consumes.filterMap
      (servedStore ledger actions).postings.immutable.lookup, recorded.owner = hold := by
    intro recorded hrecorded
    obtain ⟨id, hid, hlookup⟩ := List.mem_filterMap.mp hrecorded
    exact (owner_of_settles hindexed hsettles hid hlookup).mpr hsource
  have hbalanced := (accounted_served ledger actions).balanced tid record hstored asset
  have hsplit := keyTotal_asset_split hold asset record.envelope.creates
  rw [changeBy, keyTotal_asset_of_owner howner, hbalanced, hsplit, settledPostings]
  omega

end Settlement

/-- Each transfer of a hold is counted for what it changes. -/
theorem parkedBy_eq (horderly : Orderly ledger actions) (hhold : IsHold ledger actions hold)
    {record : EnvelopeRecord} (hrecord : record ∈ (servedStore ledger actions).transfersOf hold)
    (asset : AssetId) : parkedBy hold asset record =
      settledBy .confirm hold asset record + settledBy .void hold asset record +
        changeBy (servedStore ledger actions) record (hold, asset) := by
  obtain ⟨tid, hstored, hfiled⟩ := InMemoryStore.mem_transfersOf.mp hrecord
  cases origin_of_stored horderly hstored with
  | other _ haway => exact absurd hhold (haway hold hfiled)
  | parks transfer hrequested hparks =>
      rw [changeBy_of_parks hindexed horderly hhold hrequested hparks]
      simp [parkedBy, settledBy, hparks.payload]
  | @settles inflight hnamed _ _ _ _ _ role hsettles =>
      have hsource := source_of_settles hindexed hsettles horderly hnamed hhold hstored hfiled
      obtain ⟨_, _, hpayload⟩ := hsettles.payable
      rw [changeBy_of_settles hindexed hsettles hsource hstored]
      cases role with
      | confirm =>
          rw [SettleRole.payload] at hpayload
          simp [parkedBy, settledBy, hpayload]
      | void =>
          rw [SettleRole.payload] at hpayload
          simp [parkedBy, settledBy, hpayload]

/-- The authorized amount is what has been settled and what is left. -/
theorem authorizedInto_eq (horderly : Orderly ledger actions) (hhold : IsHold ledger actions hold)
    (asset : AssetId) : (servedStore ledger actions).authorizedInto hold asset =
      (servedStore ledger actions).settledOut hold asset .confirm +
        (servedStore ledger actions).settledOut hold asset .void +
          (servedStore ledger actions).liveBalance (hold, asset) := by
  rw [(accounted_served ledger actions).adds hold hindexed asset, InMemoryStore.authorizedInto,
    List.map_congr_left fun record hrecord => parkedBy_eq hindexed horderly hhold hrecord asset,
    List.sum_map_add, List.sum_map_add]
  rfl

end Recorded

end Kuatia
