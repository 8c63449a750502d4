import Kuatia.Inflight.InBalance
import Kuatia.Ledger.CachedBalance
import Kuatia.Types.Orders

/-! # What the status of an inflight says

The status takes the authorized amounts from the leg table, adds up the settling
transfers of each hold, and asks for the balance of the hold. In an orderly run
these come from the same postings, and so each line adds up.
-/

namespace Kuatia

open Interleaving LedgerM

section Theory

variable [MoneyWidth]

/-! ## Deriving the lines -/

theorem mem_holdsOf {legs : List InflightLeg} {hold : AccountId} :
    hold ∈ holdsOf legs ↔ ∃ leg ∈ legs, leg.hold = hold := by
  simp [holdsOf]

theorem groupHolds_eq_ok {legs : List InflightLeg} {inflight : EnvelopeId}
    {groups : List HoldGroup} (hgroups : groupHolds legs inflight = .ok groups) :
    groups.map (·.hold) = holdsOf legs ∧
      ∀ group ∈ groups, group.assets = assetsOf legs group.hold := by
  rw [groupHolds, List.mapM_eq_ok_iff] at hgroups
  have hgroup : ∀ hold group, (do
      let destination ← destinationOf legs hold inflight
      return ({ hold, destination, assets := assetsOf legs hold } : HoldGroup)) = .ok group →
      hold = group.hold ∧ group.assets = assetsOf legs group.hold := by
    intro hold group heq
    obtain ⟨destination, _, hpure⟩ := Except.bind_eq_ok_iff.mp heq
    cases hpure
    exact ⟨rfl, rfl⟩
  constructor
  · rw [← List.forall₂_eq_eq_eq, List.forall₂_map_left_iff]
    exact hgroups.flip.imp fun group hold heq => ((hgroup hold group heq).1).symm
  · intro group hmem
    obtain ⟨hold, _, heq⟩ := hgroups.exists_of_mem_right hmem
    exact (hgroup hold group heq).2

variable [Cbor]

/-- What has been settled in one of the two ways. -/
def SettledTotals.settled (totals : SettledTotals) : SettleRole → Totals BalanceKey
  | .confirm => totals.confirmed
  | .void => totals.voided

/-- Counting a transfer of a hold adds what it settles of the hold. -/
theorem countRecord_val {hold : AccountId} {start totals : SettledTotals} {record : EnvelopeRecord}
    (hcount : countRecord hold start record = .ok totals) (role : SettleRole) (key : BalanceKey) :
    ((totals.settled role).get key).val = ((start.settled role).get key).val +
      if hold = key.1 then settledBy role hold key.2 record else 0 := by
  have hkey : ∀ postings : List NewPosting,
      keyTotal (fun posting => (hold, posting.asset)) NewPosting.value postings key =
        if hold = key.1 then keyTotal NewPosting.asset NewPosting.value postings key.2 else 0 := by
    intro postings
    obtain ⟨other, asset⟩ := key
    by_cases hsame : hold = other
    · subst hsame
      simp [keyTotal]
    · rw [if_neg hsame]
      exact keyTotal_eq_zero fun _ _ heq => hsame (congrArg Prod.fst heq)
  unfold countRecord at hcount
  split at hcount
  next _ _ hmeta =>
    obtain ⟨confirmed, hadd, hpure⟩ := Except.bind_eq_ok_iff.mp hcount
    cases hpure
    have hvalue := Totals.val_get_of_addAll hadd key
    cases role <;> simp_all [SettledTotals.settled, settledBy]
  next _ _ hmeta =>
    obtain ⟨voided, hadd, hpure⟩ := Except.bind_eq_ok_iff.mp hcount
    cases hpure
    have hvalue := Totals.val_get_of_addAll hadd key
    cases role <;> simp_all [SettledTotals.settled, settledBy]
  next hconfirm hvoid =>
    cases hcount
    have hnone : settledBy role hold key.2 record = 0 := by
      unfold settledBy
      split
      next hmeta => exact absurd hmeta (hconfirm _ _)
      next hmeta => exact absurd hmeta (hvoid _ _)
      next => rfl
    simp [hnone]

theorem countHistory_val {hold : AccountId} {start totals : SettledTotals}
    {records : List EnvelopeRecord}
    (hcount : records.foldlM (countRecord hold) start = .ok totals) (role : SettleRole)
    (key : BalanceKey) :
    ((totals.settled role).get key).val = ((start.settled role).get key).val +
      if hold = key.1 then (records.map (settledBy role hold key.2)).sum else 0 := by
  induction records generalizing start with
  | nil =>
      cases hcount
      simp
  | cons head tail ih =>
      obtain ⟨next, hhead, htail⟩ := Except.bind_eq_ok_iff.mp hcount
      rw [ih htail, countRecord_val hhead, List.map_cons, List.sum_cons]
      split <;> omega

/-- The groups are of different holds, and so each hold is counted once. -/
theorem countGroups_val {groups : List HoldGroup} (historyOf : AccountId → List EnvelopeRecord)
    (hnodup : (groups.map (·.hold)).Nodup) {start totals : SettledTotals}
    (hcount : groups.foldlM (fun totals group =>
      (historyOf group.hold).foldlM (countRecord group.hold) totals) start = .ok totals)
    (role : SettleRole) (key : BalanceKey) :
    ((totals.settled role).get key).val = ((start.settled role).get key).val +
      if key.1 ∈ groups.map (·.hold) then
        ((historyOf key.1).map (settledBy role key.1 key.2)).sum else 0 := by
  induction groups generalizing start with
  | nil =>
      cases hcount
      simp
  | cons head tail ih =>
      rw [List.map_cons, List.nodup_cons] at hnodup
      obtain ⟨next, hhead, htail⟩ := Except.bind_eq_ok_iff.mp hcount
      rw [ih hnodup.2 htail, countHistory_val hhead]
      by_cases hsame : head.hold = key.1
      · rw [← hsame, if_neg hnodup.1]
        simp
      · simp [hsame, Ne.symm hsame]

/-- Each line of a status adds up the legs and the settling transfers of its hold. -/
theorem deriveStatus_line {input : StatusInput} {status : InflightStatus}
    (hstatus : deriveStatus input = .ok status) {line : InflightLegStatus}
    (hline : line ∈ status.legs) :
    (∃ leg ∈ input.legs, leg.hold = line.hold) ∧ line.asset ∈ assetsOf input.legs line.hold ∧
    line.authorized.val =
      keyTotal InflightLeg.key InflightLeg.amount input.legs (line.hold, line.asset) ∧
    line.confirmed.val =
      ((input.historyOf line.hold).map (settledBy .confirm line.hold line.asset)).sum ∧
    line.voided.val =
      ((input.historyOf line.hold).map (settledBy .void line.hold line.asset)).sum ∧
    line.held = input.held.get (line.hold, line.asset) := by
  obtain ⟨groups, hgroups, hrest⟩ := Except.bind_eq_ok_iff.mp hstatus
  obtain ⟨authorized, hauthorized, hrest⟩ := Except.bind_eq_ok_iff.mp hrest
  obtain ⟨totals, htotals, hpure⟩ := Except.bind_eq_ok_iff.mp hrest
  obtain ⟨hholds, hassets⟩ := groupHolds_eq_ok hgroups
  cases hpure
  obtain ⟨group, hgroup, hmem⟩ := List.mem_flatMap.mp hline
  obtain ⟨asset, hasset, rfl⟩ := List.mem_map.mp hmem
  have hhold : group.hold ∈ groups.map (·.hold) := List.mem_map_of_mem hgroup
  have hnodup : (groups.map (·.hold)).Nodup := by
    rw [hholds]
    exact AccountId.nodup_sortDedup _
  have hsettled := countGroups_val input.historyOf hnodup (Except.mapError_eq_ok_iff.mp htotals)
  have hlegs := Totals.val_get_of_addAll (Except.mapError_eq_ok_iff.mp hauthorized)
    (group.hold, asset)
  refine ⟨mem_holdsOf.mp (hholds ▸ hhold), hassets group hgroup ▸ hasset, ?_, ?_, ?_, rfl⟩
  · simpa using hlegs
  · have hconfirmed := hsettled .confirm (group.hold, asset)
    rw [if_pos hhold] at hconfirmed
    simpa [SettledTotals.settled] using hconfirmed
  · have hvoided := hsettled .void (group.hold, asset)
    rw [if_pos hhold] at hvoided
    simpa [SettledTotals.settled] using hvoided

/-! ## Fetching what the status is derived from -/

/-- The histories and balances that have been fetched for some holds are those of
the store. -/
structure Fetched (store : InMemoryStore) (groups : List HoldGroup)
    (fetched : List (AccountId × List EnvelopeRecord) × Totals BalanceKey) : Prop where
  histories : ∀ entry ∈ fetched.1, entry.2.Perm (store.transfersOf entry.1)
  named : ∀ group ∈ groups, group.hold ∈ fetched.1.map Prod.fst
  held : Exact store fetched.2
  covered : ∀ group ∈ groups, ∀ asset ∈ group.assets, (group.hold, asset) ∈ fetched.2

omit [Cbor] in
/-- The history that is found for a hold is one that was fetched for it. -/
theorem Fetched.historyOf_perm {store : InMemoryStore} {groups : List HoldGroup}
    {input : StatusInput} (hfetched : Fetched store groups (input.holdHistory, input.held))
    {group : HoldGroup} (hgroup : group ∈ groups) :
    (input.historyOf group.hold).Perm (store.transfersOf group.hold) := by
  have hmem : group.hold ∈ HashMap.insertAll ∅ Prod.fst input.holdHistory := by
    obtain ⟨entry, hentry, hhold⟩ := List.mem_map.mp (hfetched.named group hgroup)
    exact HashMap.mem_insertAll.mpr (.inr ⟨entry, hentry, hhold⟩)
  obtain ⟨entry, hlookup⟩ := HashMap.mem_iff_exists_lookup.mp hmem
  rw [StatusInput.historyOf, hlookup]
  obtain ⟨hentry, hhold⟩ | ⟨hnone, _⟩ := HashMap.lookup_insertAll_cases hlookup
  · rw [← hhold]
    exact hfetched.histories entry hentry
  · cases hnone

theorem loadInflight_alone {before after : World} {inflight : EnvelopeId} {record : EnvelopeRecord}
    {legs : List InflightLeg}
    (halone : Alone (loadInflight inflight) before (.ok (record, legs)) after) :
    before.store.transfers.lookup inflight = some record ∧
      readMeta record.envelope.metadata = some (.authorize legs) ∧ after.store = before.store := by
  obtain ⟨found, middle, hread, hrest⟩ := alone_bind_ok_iff.mp halone
  obtain ⟨choice, hfound, rfl⟩ := alone_read_iff.mp hread
  cases hfound
  split at hrest
  next => cases (alone_throw_iff.mp hrest).1
  next found hfound =>
    split at hrest
    next others hothers =>
      obtain ⟨hvalue, rfl⟩ := alone_pure_iff.mp hrest
      cases hvalue
      exact ⟨hfound, hothers, rfl⟩
    next => cases (alone_throw_iff.mp hrest).1

section Fetching

variable [Sha256] {store : InMemoryStore} {before after : World} (haccounted : Accounted store)
  (hspends : SpendsOnce store)

include haccounted hspends

omit [Cbor] in
theorem fetchBalances_alone (hbefore : before.store = store) {hold : AccountId}
    {assets : List AssetId} (hsound : ∀ asset ∈ assets, CacheSound store (hold, asset) 0)
    {start held : Totals BalanceKey} (hstart : Exact store start)
    (halone : Alone (assets.foldlM (fun held asset => do
      let balance ← Ledger.balance hold asset
      return held.insert (hold, asset) balance) start) before (.ok held) after) :
    after.store = store ∧ Exact store held ∧ (∀ key ∈ start, key ∈ held) ∧
      ∀ asset ∈ assets, (hold, asset) ∈ held := by
  induction assets generalizing start before with
  | nil =>
      obtain ⟨hvalue, rfl⟩ := alone_pure_iff.mp halone
      cases hvalue
      exact ⟨hbefore, hstart, fun _ => id, fun _ hnone => by cases hnone⟩
  | cons asset assets ih =>
      obtain ⟨next, middle, hnext, hrest⟩ := alone_bind_ok_iff.mp halone
      obtain ⟨balance, second, hbalance, hpure⟩ := alone_bind_ok_iff.mp hnext
      obtain ⟨hvalue, rfl⟩ := alone_pure_iff.mp hpure
      cases hvalue
      have hmiddle := ((balance_readOnly hold asset).store_eq hbalance).trans hbefore
      subst hbefore
      have hexact := balance_alone hbalance haccounted hspends (hsound asset List.mem_cons_self)
      have hinserted : Exact before.store (start.insert (hold, asset) balance) := by
        intro key value hlookup
        rw [HashMap.lookup_insert_eq] at hlookup
        split at hlookup
        next heq =>
          cases hlookup
          rw [heq, hexact]
        next => exact hstart key value hlookup
      obtain ⟨hstore, hheld, hkept, hcovered⟩ := ih hmiddle
        (fun other hmem => hsound other (List.mem_cons_of_mem _ hmem)) hinserted hrest
      refine ⟨hstore, hheld, fun key hkey => hkept key ((AList.mem_insert _).mpr (.inr hkey)), ?_⟩
      intro other hmem
      rcases List.mem_cons.mp hmem with rfl | hmem
      · exact hkept _ ((AList.mem_insert _).mpr (.inl rfl))
      · exact hcovered other hmem

omit [Cbor] in
theorem fetchGroups_alone (hbefore : before.store = store) {groups done : List HoldGroup}
    {start fetched : List (AccountId × List EnvelopeRecord) × Totals BalanceKey}
    (hsound : ∀ group ∈ groups, ∀ asset ∈ group.assets, CacheSound store (group.hold, asset) 0)
    (hstart : Fetched store done start)
    (halone : Alone (groups.foldlM fetchGroup start) before (.ok fetched) after) :
    Fetched store (done ++ groups) fetched := by
  induction groups generalizing start before done with
  | nil =>
      cases (alone_pure_iff.mp halone).1
      rwa [List.append_nil]
  | cons group groups ih =>
      obtain ⟨next, middle, hnext, hrest⟩ := alone_bind_ok_iff.mp halone
      obtain ⟨records, second, hhistory, hnext⟩ := alone_bind_ok_iff.mp hnext
      obtain ⟨choice, hrecords, rfl⟩ := alone_read_iff.mp hhistory
      cases hrecords
      obtain ⟨held, third, hheld, hpure⟩ := alone_bind_ok_iff.mp hnext
      obtain ⟨hvalue, rfl⟩ := alone_pure_iff.mp hpure
      cases hvalue
      have hread : (World.mk before.store choice.clock).store = store := hbefore
      obtain ⟨hmiddle, hexact, hkept, hcovered⟩ := fetchBalances_alone haccounted hspends hread
        (hsound group List.mem_cons_self) hstart.held hheld
      have hgroup : Fetched store (done ++ [group])
          (start.1 ++ [(group.hold, before.store.getTransfersForAccount choice.order group.hold.id
            (some group.hold.sub))], held) := by
        constructor
        · intro entry hentry
          rcases List.mem_append.mp hentry with hold | hnew
          · exact hstart.histories entry hold
          · rw [List.mem_singleton.mp hnew, hbefore]
            exact InMemoryStore.getTransfersForAccount_perm choice.order group.hold
        · intro other hother
          rw [List.map_append, List.mem_append]
          rcases List.mem_append.mp hother with hold | hnew
          · exact .inl (hstart.named other hold)
          · rw [List.mem_singleton.mp hnew]
            exact .inr (List.mem_singleton.mpr rfl)
        · exact hexact
        · intro other hother asset hasset
          rcases List.mem_append.mp hother with hold | hnew
          · exact hkept _ (hstart.covered other hold asset hasset)
          · rw [List.mem_singleton.mp hnew] at hasset ⊢
            exact hcovered asset hasset
      have hall := ih hmiddle (fun other hmem => hsound other (List.mem_cons_of_mem _ hmem)) hgroup
        hrest
      rwa [List.append_assoc] at hall

/-- A status read alone has lines that add up the legs, the settling transfers in the
store, and the live postings. -/
theorem inflightStatus_alone (hbefore : before.store = store) {inflight : EnvelopeId}
    {status : InflightStatus}
    (halone : Alone (inflightStatus inflight) before (.ok status) after)
    (hsound : ∀ record legs, store.transfers.lookup inflight = some record →
      readMeta record.envelope.metadata = some (.authorize legs) →
      ∀ leg ∈ legs, CacheSound store leg.key 0) :
    ∃ record legs, store.transfers.lookup inflight = some record ∧
      readMeta record.envelope.metadata = some (.authorize legs) ∧
      ∀ line ∈ status.legs, (∃ leg ∈ legs, leg.hold = line.hold) ∧
        line.authorized.val =
          keyTotal InflightLeg.key InflightLeg.amount legs (line.hold, line.asset) ∧
        line.confirmed.val = store.settledOut line.hold line.asset .confirm ∧
        line.voided.val = store.settledOut line.hold line.asset .void ∧
        line.held.val = store.liveBalance (line.hold, line.asset) := by
  obtain ⟨⟨record, legs⟩, first, hload, hrest⟩ := alone_bind_ok_iff.mp halone
  obtain ⟨hstored, hlegs, hfirst⟩ := loadInflight_alone hload
  rw [hbefore] at hstored hfirst
  replace hsound := hsound record legs hstored hlegs
  dsimp only at hrest
  obtain ⟨groups, second, hattempt, hfetching⟩ := alone_bind_ok_iff.mp hrest
  obtain ⟨hgroups, rfl⟩ := alone_attempt_iff.mp hattempt
  obtain ⟨hholds, hassets⟩ := groupHolds_eq_ok hgroups.symm
  obtain ⟨fetched, third, hfetch, hderive⟩ := alone_bind_ok_iff.mp hfetching
  have hkey : ∀ group ∈ groups, ∀ asset ∈ group.assets, CacheSound store (group.hold, asset) 0 := by
    intro group hgroup asset hasset
    rw [hassets group hgroup] at hasset
    obtain ⟨leg, hleg, hhold, rfl⟩ := mem_assetsOf.mp hasset
    rw [← hhold]
    exact hsound leg hleg
  -- before the first group nothing has been fetched
  have hstart : Fetched store [] ([], ∅) := by
    constructor
    · simp
    · simp
    · intro _ _ hlookup
      cases hlookup
    · simp
  have hfetched := fetchGroups_alone haccounted hspends hfirst hkey hstart hfetch
  obtain ⟨hstatus, _⟩ := alone_attempt_iff.mp hderive
  refine ⟨record, legs, hstored, hlegs, fun line hline => ?_⟩
  obtain ⟨hleg, hasset, hauthorized, hconfirmed, hvoided, hheld⟩ :=
    deriveStatus_line hstatus.symm hline
  obtain ⟨group, hgroup, hhold⟩ : ∃ group ∈ groups, group.hold = line.hold := by
    have hmem := mem_holdsOf.mpr hleg
    rw [← hholds] at hmem
    exact List.mem_map.mp hmem
  -- both settled columns sum over one and the same history of the hold
  have hhistory : ∀ role, ((StatusInput.historyOf ⟨inflight, legs, fetched.1, fetched.2⟩
      line.hold).map (settledBy role line.hold line.asset)).sum =
        store.settledOut line.hold line.asset role := by
    intro role
    rw [← hhold]
    exact ((hfetched.historyOf_perm hgroup).map _).sum_eq
  refine ⟨hleg, hauthorized, hconfirmed.trans (hhistory .confirm), hvoided.trans (hhistory .void), ?_⟩
  have hcovered := hfetched.covered group hgroup line.asset (by rwa [hassets group hgroup, hhold])
  obtain ⟨value, hvalue⟩ := HashMap.mem_iff_exists_lookup.mp hcovered
  rw [hhold] at hvalue
  rw [hheld, Totals.get, hvalue]
  exact hfetched.held _ value hvalue

end Fetching

theorem spendsOnce_served [Sha256] (ledger : Ledger) (actions : List ServiceAction) :
    SpendsOnce (servedStore ledger actions) :=
  served_induction ledger spendsOnce_new (fun _ _ _ hstep => hstep.spendsOnce) actions

/-! ## What was authorized -/

section Authorized

variable [Sha256] {ledger : Ledger} {actions : List ServiceAction} {inflight : EnvelopeId}
  {record : EnvelopeRecord} {legs : List InflightLeg}

/-- The authorize transfer of a named inflight parks a trade, in holds that its call
has opened. -/
theorem authorized_trade (horderly : Orderly ledger actions) (hnamed : Named actions inflight)
    (hstored : (servedStore ledger actions).transfers.lookup inflight = some record)
    (hlegs : readMeta record.envelope.metadata = some (.authorize legs)) :
    ∃ transfer, .start (.authorize transfer) ∈ actions ∧
      Parks (SeenIn ledger actions) transfer record.envelope ∧
      legs = transfer.movements.map (legOf (inflightSubaccount transfer)) ∧
      ∀ leg ∈ legs, IsHold ledger actions leg.hold := by
  obtain ⟨first, index, choice, rest, call, hsplit, hcall, hdraws, hfresh, hlookup⟩ :=
    stored_by hstored
  have hmem := HashMap.mem_iff_exists_lookup.mpr ⟨record, hlookup⟩
  have hrequested : .start call.request ∈ actions := by
    rw [hsplit]
    exact List.mem_append_left _ (mem_start_of_call hcall)
  -- the payload of a settlement is no leg table
  have hsettles : ∀ settled, ¬∃ found others hold target asset role,
      Settles (SeenIn ledger actions) settled found others hold target asset role
        record.envelope := by
    rintro _ ⟨_, _, _, _, _, role, hsettles⟩
    obtain ⟨_, _, hpayload⟩ := hsettles.payable
    rw [hlegs] at hpayload
    cases role <;> cases hpayload
  by_cases hother : call.request.isOther = true
  · obtain ⟨hunnamed, _⟩ :=
      horderly.others first index choice rest call hsplit hcall hother inflight hfresh hmem
    exact absurd hnamed hunnamed
  have hopened : ∀ hold, Authorizes hold call.request → IsHold ledger actions hold :=
    fun hold hauthorizes => isHold_of_stored hsplit hcall hauthorizes hfresh hmem
  obtain ⟨request, remaining⟩ := call
  dsimp only at hdraws hrequested hother hopened
  cases request with
  | ledger request => exact absurd rfl hother
  | authorize transfer =>
      have hparks : Parks (SeenIn ledger actions) transfer record.envelope := hdraws
      have hpayload := hparks.payload
      rw [hlegs] at hpayload
      cases hpayload
      refine ⟨transfer, hrequested, hparks, rfl, fun leg hleg => hopened _ ⟨transfer, rfl, ?_⟩⟩
      obtain ⟨movement, hmovement, rfl⟩ := List.mem_map.mp hleg
      exact ⟨movement.toAccount, List.mem_sortDedup.mpr (List.mem_map_of_mem hmovement), rfl⟩
  | confirmAll settled => exact absurd hdraws (hsettles settled)
  | confirm settled confirms => exact absurd hdraws (hsettles settled)
  | void settled => exact absurd hdraws (hsettles settled)
  | inflightStatus settled => exact hdraws.elim
  | runMovements movements => exact absurd rfl hother

/-- What the legs put into a hold is what the authorize transfer creates there. -/
theorem keyTotal_legs (horderly : Orderly ledger actions) {transfer : Transfer}
    (hrequested : .start (.authorize transfer) ∈ actions)
    (hparks : Parks (SeenIn ledger actions) transfer record.envelope) {hold : AccountId}
    (hhold : IsHold ledger actions hold) (asset : AssetId) :
    keyTotal InflightLeg.key InflightLeg.amount
        (transfer.movements.map (legOf (inflightSubaccount transfer))) (hold, asset) =
      keyTotal NewPosting.key NewPosting.value record.envelope.creates (hold, asset) := by
  obtain ⟨extra, hcreates, hextra⟩ := hparks.creates
  have hchange : keyTotal NewPosting.key NewPosting.value extra (hold, asset) = 0 := by
    refine keyTotal_eq_zero fun posting hposting hkey => ?_
    obtain ⟨movement, hmovement, howner⟩ := hextra posting hposting
    have hfrom : movement.fromAccount = hold := by rw [← howner]; exact congrArg Prod.fst hkey
    exact (horderly.trades transfer hrequested movement hmovement).1 (hfrom ▸ hhold)
  rw [hcreates, keyTotal_append, hchange, add_zero, keyTotal_map, keyTotal_map]
  rfl

/-- Only its authorize transfer has put anything into a hold. -/
theorem authorizedInto_eq_legs (horderly : Orderly ledger actions) (hnamed : Named actions inflight)
    (hstored : (servedStore ledger actions).transfers.lookup inflight = some record)
    (hlegs : readMeta record.envelope.metadata = some (.authorize legs)) {leg : InflightLeg}
    (hleg : leg ∈ legs) (asset : AssetId) :
    (servedStore ledger actions).authorizedInto leg.hold asset =
      keyTotal InflightLeg.key InflightLeg.amount legs (leg.hold, asset) := by
  obtain ⟨transfer, hrequested, hparks, rfl, hholds⟩ :=
    authorized_trade horderly hnamed hstored hlegs
  have hhold := hholds leg hleg
  have hfunds := funds_of_found horderly hnamed ⟨⟨_, ⟨actions, [], (List.append_nil _).symm, rfl⟩,
    hstored⟩, hlegs⟩ hleg rfl
  have haccounted := accounted_served ledger actions
  obtain ⟨posting, hposting, howner⟩ := hfunds.2
  have hfiled : leg.hold ∈ (servedStore ledger actions).filedUnder inflight :=
    howner ▸ haccounted.catalogued.creates inflight record hstored posting hposting
  rw [keyTotal_legs horderly hrequested hparks hhold, InMemoryStore.authorizedInto,
    InMemoryStore.sum_transfersOf_of_single hstored hfiled]
  · rw [parkedBy, hlegs]
  · intro other found hfound hne
    unfold parkedBy
    split
    next others hothers =>
      -- another authorize transfer has nothing for the hold
      refine keyTotal_eq_zero fun posting hposting hkey => hne ?_
      exact funded_once horderly hhold hfound hstored
        ⟨⟨others, hothers⟩, posting, hposting, congrArg Prod.fst hkey⟩ hfunds
    next => rfl

end Authorized

/-- In every orderly run, the status of an inflight that the run is about has lines
that add up, and what it reports as held is in the hold. -/
theorem status_in_balance [Sha256] (ledger : Ledger) (actions : List ServiceAction)
    (horderly : Orderly ledger actions) (hindexed : ParkedIndexed (servedStore ledger actions))
    (inflight : EnvelopeId) (hnamed : Named actions inflight)
    (hsound : ∀ hold asset, IsHold ledger actions hold →
      CacheSound (servedStore ledger actions) (hold, asset) 0)
    (status : InflightStatus) (after : World)
    (halone : Alone (inflightStatus inflight) (ServicePool.after ledger actions).shared (.ok status)
      after) : ∀ line ∈ status.legs,
        line.authorized.val = line.confirmed.val + line.voided.val + line.held.val ∧
        line.held.val = (servedStore ledger actions).liveBalance (line.hold, line.asset) := by
  have hcaches : ∀ record legs,
      (servedStore ledger actions).transfers.lookup inflight = some record →
      readMeta record.envelope.metadata = some (.authorize legs) →
      ∀ leg ∈ legs, CacheSound (servedStore ledger actions) leg.key 0 := by
    intro record legs hstored hlegs leg hleg
    obtain ⟨_, _, _, _, hholds⟩ := authorized_trade horderly hnamed hstored hlegs
    exact hsound _ _ (hholds leg hleg)
  obtain ⟨record, legs, hstored, hlegs, hlines⟩ := inflightStatus_alone
    (accounted_served ledger actions) (spendsOnce_served ledger actions) rfl halone hcaches
  intro line hline
  obtain ⟨⟨leg, hleg, hhold⟩, hauthorized, hconfirmed, hvoided, hheld⟩ := hlines line hline
  obtain ⟨_, _, _, _, hholds⟩ := authorized_trade horderly hnamed hstored hlegs
  have hisHold := hholds leg hleg
  have hinto := authorizedInto_eq_legs horderly hnamed hstored hlegs hleg line.asset
  rw [hhold] at hisHold hinto
  have hbalanced := authorizedInto_eq (indexedFor_hold horderly hisHold hindexed) horderly hisHold
    line.asset
  exact ⟨by omega, hheld⟩

end Theory

section Confirmed

open Sample

/-- The id of the transfer that parks 5 for bob. -/
def parkedId : EnvelopeId :=
  ⟨#v[0, 0, 5, 0, 0, 0, 0, 0, 0, 0, 1, 0, 0, 0, 0, 0, 0, 0, 0, 0, 0, 3, 72, 0, 0, 0, 0, 0, 0, 0, 5,
    0]⟩

def statusRequests : List ServiceRequest :=
  opening ++ [.authorize (pay external bob 5), .confirm parkedId (pay external bob 2),
    .inflightStatus parkedId]

@[irreducible] def statusAsked : List ServiceAction := inTurn statusRequests

theorem statusAsked_named : Named statusAsked parkedId := by
  refine ⟨.inflightStatus parkedId, ?_, rfl⟩
  unfold statusAsked
  exact List.mem_flatMap.mpr ⟨(.inflightStatus parkedId, 5), by decide, List.mem_cons_self⟩

/-- After 2 of the 5 have been confirmed, the status adds up. -/
theorem status_in_balance_confirmed : ∃ status after,
    Alone (inflightStatus parkedId) (ServicePool.after ledger statusAsked).shared (.ok status)
        after ∧
      status.legs ≠ [] ∧ ∀ line ∈ status.legs,
        line.authorized.val = line.confirmed.val + line.voided.val + line.held.val ∧
        line.held.val = (servedStore ledger statusAsked).liveBalance (line.hold, line.asset) := by
  have hruns := Async.runs_runWith noon (inflightStatus parkedId).run
    (ServicePool.after ledger statusAsked).shared
  obtain ⟨status, hok, hlines⟩ : ∃ status, (Async.runWith noon (inflightStatus parkedId).run
      (ServicePool.after ledger statusAsked).shared).1 = .ok status ∧ status.legs ≠ [] := by
    have hlines : (Async.runWith noon (inflightStatus parkedId).run
        (ServicePool.after ledger statusAsked).shared).1.toOption.any (·.legs ≠ []) = true := by
      decide +kernel
    generalize (Async.runWith _ _ _).1 = result at hlines ⊢
    cases result with
    | ok status => exact ⟨status, rfl, of_decide_eq_true hlines⟩
    | error err => cases hlines
  rw [hok] at hruns
  have horderly : Orderly ledger statusAsked := by
    unfold statusAsked
    exact orderly_inTurn (by decide +kernel) (by decide +kernel)
  have htables : (∀ record ∈ (servedStore ledger statusAsked).transfers.values,
      record.envelope.creates.length ≤ 65536) ∧
      (servedStore ledger statusAsked).projections.entries = [] := by
    decide +kernel
  have hindexed : ParkedIndexed (servedStore ledger statusAsked) := fun tid record _ hlookup _ =>
    htables.1 record (HashMap.mem_values_iff.mpr ⟨tid, hlookup⟩)
  have hsound : ∀ hold asset, IsHold ledger statusAsked hold →
      CacheSound (servedStore ledger statusAsked) (hold, asset) 0 := by
    intro hold asset _
    have hnone : (servedStore ledger statusAsked).projections = ∅ := AList.ext htables.2
    apply CacheSound.of_none
    rw [InMemoryStore.pointsOf, hnone]
    rfl
  exact ⟨status, _, hruns, hlines, status_in_balance ledger statusAsked horderly hindexed parkedId
    statusAsked_named hsound status _ hruns⟩

end Confirmed

section TakenBack

open Sample

/-- A hash that depends on every byte. -/
def mixed (data : List UInt8) : Vector UInt8 32 :=
  let value := data.foldl (fun value byte => (value * 257 + byte.toNat + 1) % 2 ^ 256) 0
  .ofFn fun index => .ofNat (value / 256 ^ (31 - index.val))

local instance (priority := 2000) mixedSha256 : Sha256 := ⟨mixed⟩

/-- With this hash, the id of the transfer that parks 5 for bob. -/
def mixedId : EnvelopeId :=
  ⟨#v[202, 129, 34, 142, 250, 92, 89, 114, 130, 174, 56, 99, 88, 84, 26, 146, 85, 176, 74, 243, 97,
    18, 62, 105, 25, 63, 54, 128, 15, 165, 8, 224]⟩

@[irreducible] def takenBack : List ServiceAction :=
  inTurn (opening ++ [.authorize (pay external bob 5), .ledger (.reverse mixedId)])

/-- When the authorize transfer has been reversed, the hold is empty. The status still
reports 5 as authorized, and nothing as confirmed, voided or held. -/
theorem status_after_reversal : ∃ status after,
    Alone (inflightStatus mixedId) (ServicePool.after ledger takenBack).shared (.ok status) after ∧
      ∃ line ∈ status.legs,
        line.authorized.val ≠ line.confirmed.val + line.voided.val + line.held.val ∧
        line.held.val = 0 := by
  have hruns := Async.runs_runWith noon (inflightStatus mixedId).run
    (ServicePool.after ledger takenBack).shared
  have hlines : (Async.runWith noon (inflightStatus mixedId).run
      (ServicePool.after ledger takenBack).shared).1.toOption.any (fun status =>
        status.legs.any fun line => decide (line.authorized.val ≠ line.confirmed.val +
          line.voided.val + line.held.val ∧ line.held.val = 0)) = true := by
    decide +kernel
  generalize Async.runWith _ _ _ = outcome at hruns hlines
  obtain ⟨result, after⟩ := outcome
  cases result with
  | error err => cases hlines
  | ok status =>
      obtain ⟨line, hmem, hline⟩ := List.any_eq_true.mp hlines
      exact ⟨status, after, hruns, line, hmem, of_decide_eq_true hline⟩

end TakenBack

end Kuatia

