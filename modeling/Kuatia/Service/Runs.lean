import Kuatia.Ledger.Clients
import Kuatia.Ledger.Composed
import Kuatia.Service.System

/-! # Runs of the whole service

The inflight and workflow operations are made of ledger operations, so they move
the store in the same steps, and what every step keeps holds in every state that
the clients of the service may reach.
-/

namespace Kuatia

open Async Interleaving LedgerM

variable [MoneyWidth] [Sha256] [Cbor]

/-! ## The parts of the inflight operations -/

/-- In some state that was seen, `inflight` is an authorize transfer with these legs. -/
def Found (seen : World → Prop) (inflight : EnvelopeId) (record : EnvelopeRecord)
    (legs : List InflightLeg) : Prop :=
  (∃ world, seen world ∧ world.store.transfers.lookup inflight = some record) ∧
    readMeta record.envelope.metadata = some (.authorize legs)

/-- A leg table lets this amount of this asset out of the hold: on confirm to the
destination, on void to a funder. -/
structure Payable (legs : List InflightLeg) (hold target destination : AccountId)
    (asset : AssetId) (role : SettleRole) : Prop where
  carried : ∃ leg ∈ legs, leg.hold = hold ∧ leg.asset = asset
  destined : ∃ leg ∈ legs, leg.hold = hold ∧ leg.destination = destination
  target : match role with
    | .confirm => target = destination
    | .void => ∃ leg ∈ legs, leg.hold = hold ∧ leg.asset = asset ∧ leg.funder = target

omit [Sha256] [Cbor] in
/-- What a leg table says about the groups that are made of it. -/
theorem group_of_groupHolds {legs : List InflightLeg} {inflight : EnvelopeId}
    {groups : List HoldGroup} (hgroups : groupHolds legs inflight = .ok groups)
    {group : HoldGroup} (hgroup : group ∈ groups) :
    (∃ leg ∈ legs, leg.hold = group.hold ∧ leg.destination = group.destination) ∧
      group.assets = assetsOf legs group.hold := by
  obtain ⟨hold, _, hmake⟩ := (List.mapM_eq_ok_iff.mp hgroups).exists_of_mem_right hgroup
  obtain ⟨destination, hdestination, hpure⟩ := Except.bind_eq_ok_iff.mp hmake
  cases hpure
  refine ⟨?_, rfl⟩
  unfold destinationOf at hdestination
  cases hfind : legs.find? (·.hold = hold) with
  | none =>
      rw [hfind] at hdestination
      cases hdestination
  | some leg =>
      rw [hfind] at hdestination
      cases hdestination
      exact ⟨leg, List.mem_of_find?_eq_some hfind, of_decide_eq_true (List.find?_some hfind :), rfl⟩

omit [Sha256] [Cbor] in
theorem mem_assetsOf {legs : List InflightLeg} {hold : AccountId} {asset : AssetId} :
    asset ∈ assetsOf legs hold ↔ ∃ leg ∈ legs, leg.hold = hold ∧ leg.asset = asset := by
  simp [assetsOf, and_assoc]

omit [Sha256] [Cbor] in
theorem funder_of_mem_payOut {funders : List (AccountId × Cent)} {remaining : Cent}
    {payouts : List FunderPayout} (hpay : payOut funders remaining = .ok payouts)
    {payout : FunderPayout} (hpayout : payout ∈ payouts) :
    payout.funder ∈ funders.map Prod.fst := by
  induction funders generalizing remaining payouts with
  | nil =>
      cases hpay
      cases hpayout
  | cons head rest ih =>
      obtain ⟨funder, cap⟩ := head
      unfold payOut at hpay
      split at hpay
      next =>
        cases hpay
        cases hpayout
      next =>
        generalize (if cap < remaining then cap else remaining) = give at hpay
        dsimp only at hpay
        split at hpay
        next =>
          obtain ⟨left, _, hpay⟩ := Except.bind_eq_ok_iff.mp hpay
          obtain ⟨others, hothers, hpure⟩ := Except.bind_eq_ok_iff.mp hpay
          cases hpure
          rcases List.mem_cons.mp hpayout with rfl | hpayout
          · exact List.mem_cons_self
          · exact List.mem_cons_of_mem _ (ih hothers hpayout)
        next => exact List.mem_cons_of_mem _ (ih hpay hpayout)

omit [Sha256] [Cbor] in
theorem map_fst_liftLast (funders : List (AccountId × Cent)) :
    (liftLast funders).map Prod.fst = funders.map Prod.fst := by
  induction funders with
  | nil => rfl
  | cons head rest ih =>
      cases rest with
      | nil => rfl
      | cons second rest =>
          rw [liftLast, List.map_cons, ih]
          · rfl
          · simp

omit [Sha256] [Cbor] in
/-- The shares of a void go to accounts that have funded the hold in this asset. -/
theorem leg_of_mem_payouts {legs : List InflightLeg} {hold : AccountId} {asset : AssetId}
    {remaining : Cent} {payouts : List FunderPayout}
    (hpayouts : distributeToFunders legs hold asset remaining = .ok payouts)
    {payout : FunderPayout} (hpayout : payout ∈ payouts) :
    ∃ leg ∈ legs, leg.hold = hold ∧ leg.asset = asset ∧ leg.funder = payout.funder := by
  have hmem := funder_of_mem_payOut hpayouts hpayout
  rw [map_fst_liftLast] at hmem
  simpa [and_assoc] using hmem

section Parts

variable {seen : World → Prop} {submits : Envelope → Prop} {inflight : EnvelopeId}

theorem loadInflight_moves (inflight : EnvelopeId) :
    Moves seen submits (fun found => Found seen inflight found.1 found.2)
      (loadInflight inflight) := by
  have hread : Moves seen submits (fun record => ∀ found, record = some found →
      ∃ world, seen world ∧ world.store.transfers.lookup inflight = some found)
      (read fun _ store => store.getTransfer inflight) :=
    .read fun _ world hseen _ hfound => ⟨world, hseen, hfound⟩
  apply hread.bind
  intro record hrecord
  cases record with
  | none => exact .throw _
  | some record =>
      dsimp only
      split
      next legs hmeta => exact .pure ⟨hrecord record rfl, hmeta⟩
      next => exact .throw _

theorem openHold_moves (book : BookId) (sub : Int64) (destination : AccountId) :
    Moves seen submits (fun _ => True) (openHold book sub destination) :=
  .bind (.attempt fun _ _ => trivial) fun account _ =>
    .adapt (.of_steps fun _ _ => createAccount_steps account)

omit [Cbor] in
theorem closeIfDrained_moves (hold : AccountId) :
    Moves seen submits (fun _ => True) (closeIfDrained hold) := by
  apply Moves.bind (.of_readOnly (hasLivePostings_readOnly hold))
  intro live _
  cases live with
  | true => exact .pure trivial
  | false =>
      apply Moves.bind (.of_readOnly (.read _))
      intro account _
      apply Moves.bind (.attempt fun _ _ => trivial)
      intro account _
      by_cases hclosed : account.isClosed
      · simp only [hclosed, if_true]
        exact .pure trivial
      · simp only [hclosed, Bool.false_eq_true, if_false]
        exact .of_steps fun _ hwell => close_steps hold hwell

omit [Cbor] in
theorem groupHolds_moves (legs : List InflightLeg) (inflight : EnvelopeId) :
    Moves seen submits (fun groups => groupHolds legs inflight = .ok groups)
      (attempt (groupHolds legs inflight)) :=
  .attempt fun _ hgroups => hgroups

/-- Authorizing moves the store as the commit of the parking transfer does. -/
theorem authorize_moves {transfer : Transfer}
    (hcommit : ∀ payload,
      encodeMeta (.authorize (transfer.movements.map (legOf (inflightSubaccount transfer)))) =
          .ok payload →
        Moves seen submits (fun _ => True)
          (commit (parkingTransfer transfer (inflightSubaccount transfer) payload))) :
    Moves seen submits (fun _ => True) (authorize transfer) := by
  unfold authorize
  dsimp only
  split
  next => exact .throw _
  next =>
    apply Moves.bind (.forM fun destination _ => openHold_moves _ _ destination)
    intro _ _
    have hencode : ∀ legs, Moves seen submits (fun payload => encodeMeta legs = .ok payload)
        (attempt (encodeMeta legs)) := fun _ => .attempt fun _ hpayload => hpayload
    apply (hencode _).bind
    intro payload hpayload
    exact .bind (hcommit payload hpayload) fun _ _ => .pure trivial

section Settling

variable (hsettle : ∀ record legs, Found seen inflight record legs →
  ∀ hold target destination asset amount role, Payable legs hold target destination asset role →
    Moves seen submits (fun _ => True)
      (settle record.envelope.book inflight hold target destination asset amount role))

include hsettle

theorem confirmAll_moves : Moves seen submits (fun _ => True) (confirmAll inflight) := by
  apply Moves.bind (loadInflight_moves inflight)
  rintro ⟨record, legs⟩ hfound
  apply (groupHolds_moves legs inflight).bind
  intro groups hgroups
  apply Moves.loop
  intro receipts group hgroup
  obtain ⟨hdestined, hassets⟩ := group_of_groupHolds hgroups hgroup
  refine .bind (.loop ?_) fun _ _ =>
    .bind (closeIfDrained_moves _) fun _ _ => .pure trivial
  intro receipts asset hasset
  apply Moves.bind (.of_readOnly (balance_readOnly _ _))
  intro balance _
  split
  next =>
    have hcarried := mem_assetsOf.mp (hassets ▸ hasset)
    exact .bind (hsettle record legs hfound _ _ _ _ _ _ ⟨hcarried, hdestined, rfl⟩)
      fun _ _ => .pure trivial
  next => exact .pure trivial

theorem confirm_moves (confirms : Transfer) :
    Moves seen submits (fun _ => True) (confirm inflight confirms) := by
  apply Moves.bind (loadInflight_moves inflight)
  rintro ⟨record, legs⟩ hfound
  refine .bind (.loop ?_) fun state _ =>
    .bind (.forM fun hold _ => closeIfDrained_moves hold) fun _ _ => .pure trivial
  intro state movement _
  unfold confirmMovement
  split
  next => exact .throw _
  next leg hfind =>
    have hleg : leg ∈ legs := List.mem_of_find?_eq_some hfind
    obtain ⟨_, hdestination, hasset⟩ := of_decide_eq_true (List.find?_some hfind :)
    apply Moves.bind (.of_readOnly (balance_readOnly _ _))
    intro held _
    split
    next => exact .throw _
    next =>
      exact .bind (hsettle record legs hfound _ _ _ _ _ _
        ⟨⟨leg, hleg, rfl, hasset⟩, ⟨leg, hleg, rfl, hdestination⟩, rfl⟩) fun _ _ => .pure trivial

theorem void_moves : Moves seen submits (fun _ => True) (void inflight) := by
  apply Moves.bind (loadInflight_moves inflight)
  rintro ⟨record, legs⟩ hfound
  apply (groupHolds_moves legs inflight).bind
  intro groups hgroups
  apply Moves.loop
  intro receipts group hgroup
  obtain ⟨hdestined, hassets⟩ := group_of_groupHolds hgroups hgroup
  refine .bind (.loop ?_) fun _ _ =>
    .bind (closeIfDrained_moves _) fun _ _ => .pure trivial
  intro receipts asset hasset
  have hcarried := mem_assetsOf.mp (hassets ▸ hasset)
  apply Moves.bind (.of_readOnly (balance_readOnly _ _))
  intro remaining _
  have hdistribute : Moves seen submits
      (fun payouts => distributeToFunders legs group.hold asset remaining = .ok payouts)
      (attempt ((distributeToFunders legs group.hold asset remaining).mapError .ofOverflow)) :=
    .attempt fun _ hpayouts => Except.mapError_eq_ok_iff.mp hpayouts
  apply hdistribute.bind
  intro payouts hpayouts
  apply Moves.loop
  intro receipts payout hpayout
  have htarget := leg_of_mem_payouts hpayouts hpayout
  exact .bind (hsettle record legs hfound _ _ _ _ _ _ ⟨hcarried, hdestined, htarget⟩)
    fun _ _ => .pure trivial

end Settling

omit [Sha256] in
theorem inflightStatus_readOnly (inflight : EnvelopeId) : ReadOnly (inflightStatus inflight) := by
  apply ReadOnly.bind
  · apply (ReadOnly.read _).bind
    intro record
    cases record with
    | none => exact .throw _
    | some record =>
        dsimp only
        split
        next => exact .pure _
        next => exact .throw _
  · rintro ⟨_, legs⟩
    refine (ReadOnly.attempt _).bind fun groups => ?_
    refine (ReadOnly.foldlM (fun fetched group => ?_) _ _).bind fun _ => .attempt _
    refine (ReadOnly.read _).bind fun records => ?_
    refine (ReadOnly.foldlM (fun held asset => ?_) _ _).bind fun _ => .pure _
    exact (balance_readOnly _ _).bind fun _ => .pure _

omit [Cbor] in
theorem runMovements_moves (hsubmits : ∀ envelope, submits envelope)
    (movements : List Saga.Movement) :
    Moves seen submits (fun _ => True) (Saga.runMovements movements) := by
  have hcompensate : ∀ original receipts, Moves seen submits (fun _ => True)
      (Saga.compensate original receipts) := by
    intro original receipts
    induction receipts with
    | nil => exact .throw _
    | cons receipt rest ih =>
        apply Moves.bind (.outcome (.of_steps fun _ hwell => reverse_steps _ hwell hsubmits))
        intro reversed _
        cases reversed with
        | error compensation => exact .throw _
        | ok _ => exact ih
  suffices ∀ receipts, Moves seen submits (fun _ => True) (Saga.runFrom receipts movements) from
    this []
  induction movements with
  | nil => exact fun receipts => .pure trivial
  | cons movement rest ih =>
      intro receipts
      apply Moves.bind (.attempt fun _ _ => trivial)
      intro transfer _
      apply Moves.bind (.outcome (.of_steps fun _ hwell => commit_steps _ hwell hsubmits))
      intro committed _
      cases committed with
      | error err => exact hcompensate err receipts.reverse
      | ok receipt => exact ih _

end Parts

/-! ## Every request -/

variable (ledger : Ledger)

/-- Every request moves the store in its steps. -/
theorem serve_moves (request : ServiceRequest) :
    Moves (fun _ => True) (fun _ => True) (fun _ => True) (ledger.serve request) := by
  have hcommit : ∀ transfer, Moves (fun _ => True) (fun _ => True) (fun _ => True)
      (commit transfer) := fun transfer => .of_steps fun _ hwell =>
    commit_steps transfer hwell fun _ => trivial
  have hsettle : ∀ book inflight hold target destination asset amount role,
      Moves (fun _ => True) (fun _ => True) (fun _ => True)
        (settle book inflight hold target destination asset amount role) :=
    fun _ _ _ _ _ _ _ _ => .bind (.attempt fun _ _ => trivial) fun _ _ => hcommit _
  cases request with
  | ledger request =>
      exact .bind (.of_steps fun _ hwell => operation_steps ledger request hwell fun _ => trivial)
        fun _ _ => .pure trivial
  | authorize transfer =>
      exact .bind (authorize_moves fun _ _ => hcommit _) fun _ _ => .pure trivial
  | confirmAll inflight =>
      exact .bind (confirmAll_moves fun _ _ _ _ _ _ _ _ _ _ => hsettle _ _ _ _ _ _ _ _)
        fun _ _ => .pure trivial
  | confirm inflight confirms =>
      exact .bind (confirm_moves (fun _ _ _ _ _ _ _ _ _ _ => hsettle _ _ _ _ _ _ _ _) confirms)
        fun _ _ => .pure trivial
  | void inflight =>
      exact .bind (void_moves fun _ _ _ _ _ _ _ _ _ _ => hsettle _ _ _ _ _ _ _ _) fun _ _ => .pure trivial
  | inflightStatus inflight =>
      exact .bind (.of_readOnly (inflightStatus_readOnly inflight)) fun _ _ => .pure trivial
  | runMovements movements =>
      exact .bind (runMovements_moves (fun _ => trivial) movements) fun _ _ => .pure trivial

theorem serve_any : Commits ledger.serve (fun _ => anyAction) fun _ _ => True :=
  fun request state hwell => serve_moves ledger request state hwell

/-- Only of the creation of an account it is said here that it stores no transfer. -/
def ServiceRequest.mayStore : ServiceRequest → Bool
  | .ledger (.createAccount _) => false
  | _ => true

theorem serve_mayStore :
    Commits ledger.serve (fun _ => anyAction) fun request _ => request.mayStore = true := by
  intro request
  by_cases hcreate : ∃ account, request = .ledger (.createAccount account)
  · obtain ⟨account, rfl⟩ := hcreate
    have hoperation : Moves (fun _ => True) (fun _ => False) (fun _ => True)
        (ledger.operation (.createAccount account)) :=
      .bind (.of_steps fun _ _ => createAccount_steps account) fun _ _ => .pure trivial
    have hmoves : Moves (fun _ => True) (fun _ => False) (fun _ => True)
        (ledger.serve (.ledger (.createAccount account))) :=
      hoperation.bind fun _ _ => .pure trivial
    simp only [ServiceRequest.mayStore, Bool.false_eq_true]
    exact fun state hwell => hmoves state hwell
  · have hstores : request.mayStore = true := by
      unfold ServiceRequest.mayStore
      split
      next account => exact absurd ⟨account, rfl⟩ hcreate
      next => rfl
    simp only [hstores]
    exact fun state hwell => serve_moves ledger request state hwell

/-- One more action is one more step of the store, whatever the run. -/
theorem storeStep_served (actions : List ServiceAction) (action : ServiceAction) :
    StoreStep (fun _ => True) (servedStore ledger actions)
      (servedStore ledger (actions ++ [action])) := by
  obtain hsame | ⟨_, _, _, _, _, hstep⟩ := (serve_any ledger).step
    (Pool.respects_anyAction ledger.service ServicePool.initial (actions ++ [action]))
  · have hidle : servedStore ledger (actions ++ [action]) = servedStore ledger actions := hsame
    rw [hidle]
    exact .idle _
  · exact hstep

theorem wellFormed_served (actions : List ServiceAction) :
    WellFormed (servedStore ledger actions) :=
  ((serve_any ledger).sound
    (Pool.respects_anyAction ledger.service ServicePool.initial actions)).2

/-- Induction over the states that the service may reach. -/
theorem served_induction {inv : InMemoryStore → Prop} (hnew : inv .new)
    (hkeep : ∀ before after, WellFormed before → StoreStep (fun _ => True) before after →
      inv before → inv after) (actions : List ServiceAction) : inv (servedStore ledger actions) := by
  induction actions using List.reverseRecOn with
  | nil => exact hnew
  | append_singleton actions action ih =>
      exact hkeep _ _ (wellFormed_served ledger actions) (storeStep_served ledger actions action) ih

theorem evolves_served (first second : List ServiceAction) :
    Evolves (servedStore ledger first) (servedStore ledger (first ++ second)) := by
  induction second using List.reverseRecOn with
  | nil =>
      rw [List.append_nil]
      exact .refl _
  | append_singleton second action ih =>
      rw [← List.append_assoc]
      exact ih.trans (.of_step (storeStep_served ledger (first ++ second) action))

/-- What a call does when it runs alone is the end of some run. -/
theorem exists_served_alone (actions : List ServiceAction) (request : ServiceRequest)
    {result : Except LedgerError ServiceResponse} {after : World}
    (halone : Async.Runs (ledger.service request) (ServicePool.after ledger actions).shared result
      after) :
    ∃ choices : List Choice, (ServicePool.after ledger (actions ++ .start request :: choices.map
      (.advance (ServicePool.after ledger actions).calls.length))).shared = after := by
  let started := (ServicePool.after ledger actions).act ledger.service (.start request)
  have hcall : started.calls[(ServicePool.after ledger actions).calls.length]? =
      some ⟨request, ledger.service request⟩ := List.getElem?_concat_length
  obtain ⟨choices, hrun⟩ := Pool.exists_run_of_runs ledger.service hcall halone
  refine ⟨choices, ?_⟩
  rw [ServicePool.after, Pool.run_append, Pool.run_cons]
  exact congrArg Pool.shared hrun

end Kuatia
