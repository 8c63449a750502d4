import Kuatia.Interleaving.History
import Kuatia.Service.Drawing

/-! # Orderly runs

The holds of a run are the accounts that its authorizations have created. In an
orderly run no trade names a hold, and the transfers that the other operations
store keep away from the holds. Whatever involves a hold then comes from the
inflight operations, and so its balance is what they have parked less what they
have settled.
-/

namespace Kuatia

open Interleaving LedgerM

variable [MoneyWidth] [Sha256] [Cbor] (ledger : Ledger) (actions : List ServiceAction)

/-! ## States of a run -/

/-- The run has passed through this store. -/
def SeenIn (world : World) : Prop := ∃ first rest, actions = first ++ rest ∧
  world.store = servedStore ledger first

theorem respects_seen : Pool.Respects ledger.service (fun _ _ _ world => SeenIn ledger actions world)
    ServicePool.initial actions := by
  suffices ∀ first rest, actions = first ++ rest → Pool.Respects ledger.service
      (fun _ _ _ world => SeenIn ledger actions world) (ServicePool.after ledger first) rest from
    this [] actions rfl
  intro first rest
  induction rest generalizing first with
  | nil => exact fun _ => trivial
  | cons action rest ih =>
      intro hsplit
      refine ⟨fun _ _ _ _ _ => ⟨first, action :: rest, hsplit, rfl⟩, ?_⟩
      have hnext := ih (first ++ [action]) (by rw [hsplit, List.append_assoc]; rfl)
      rwa [ServicePool.after, Pool.run_append] at hnext

theorem accounted_served : Accounted (servedStore ledger actions) :=
  served_induction ledger accounted_new (fun _ _ _ hstep => hstep.accounted) actions

theorem overdraftSafe_served : OverdraftSafe (servedStore ledger actions) :=
  served_induction ledger overdraftSafe_new (fun _ _ _ hstep => hstep.overdraftSafe) actions

variable {ledger actions}

theorem SeenIn.accounted {world : World} (hseen : SeenIn ledger actions world) :
    Accounted world.store := by
  obtain ⟨first, _, _, hstore⟩ := hseen
  rw [hstore]
  exact accounted_served ledger first

theorem SeenIn.evolves {world : World} (hseen : SeenIn ledger actions world) :
    Evolves world.store (servedStore ledger actions) := by
  obtain ⟨first, rest, hsplit, hstore⟩ := hseen
  rw [hstore, hsplit]
  exact evolves_served ledger first rest

/-- A call of the run was started by it. -/
theorem mem_start_of_call {index : Nat}
    {call : Call ServiceRequest Choice World (Except LedgerError ServiceResponse)}
    (hcall : (ServicePool.after ledger actions).calls[index]? = some call) :
    .start call.request ∈ actions := by
  induction actions using List.reverseRecOn generalizing call with
  | nil => cases hcall
  | append_singleton actions action ih =>
      rw [ServicePool.after, Pool.run_append, Pool.run_cons, Pool.run_nil] at hcall
      apply List.mem_append.mpr
      obtain hold | ⟨request, rfl, _, rfl⟩ | ⟨_, _, _, _, _, hstep, rfl, _⟩ :=
        Pool.act_call_cases hcall
      · exact .inl (ih hold)
      · exact .inr (List.mem_singleton.mpr rfl)
      · have hstarted := ih hstep
        exact .inl hstarted

/-! ## Holds -/

variable (ledger actions)

/-- The hold of one of the destinations of a trade. -/
def HoldOf (transfer : Transfer) (hold : AccountId) : Prop :=
  ∃ destination ∈ destinationsOf transfer, holdOf (inflightSubaccount transfer) destination = hold

instance (transfer : Transfer) (hold : AccountId) : Decidable (HoldOf transfer hold) :=
  inferInstanceAs (Decidable (∃ destination ∈ destinationsOf transfer, _))

/-- An action of an authorization has created the account as a hold of its trade. -/
def IsHold (hold : AccountId) : Prop :=
  ∃ first index choice rest call transfer, actions = first ++ .advance index choice :: rest ∧
    (ServicePool.after ledger first).calls[index]? = some call ∧
    call.request = .authorize transfer ∧ HoldOf transfer hold ∧
    (servedStore ledger first).versions hold = [] ∧
    (servedStore ledger (first ++ [.advance index choice])).versions hold ≠ []

/-- The operations that are not about inflights. -/
def ServiceRequest.isOther : ServiceRequest → Bool
  | .ledger _ | .runMovements _ => true
  | _ => false

/-- The inflight that a request is about. -/
def ServiceRequest.inflight? : ServiceRequest → Option EnvelopeId
  | .confirmAll inflight | .confirm inflight _ | .void inflight | .inflightStatus inflight =>
      some inflight
  | _ => none

/-- Some request of the run is about the inflight. -/
def Named (inflight : EnvelopeId) : Prop :=
  ∃ request, .start request ∈ actions ∧ request.inflight? = some inflight

/-- No trade names a hold, and no transfer that another operation stores involves
a hold or passes for an authorize transfer. -/
structure Orderly : Prop where
  trades : ∀ transfer, .start (.authorize transfer) ∈ actions → ∀ movement ∈ transfer.movements,
    ¬IsHold ledger actions movement.fromAccount ∧ ¬IsHold ledger actions movement.toAccount
  others : ∀ first index choice rest call, actions = first ++ .advance index choice :: rest →
    (ServicePool.after ledger first).calls[index]? = some call → call.request.isOther = true →
    ∀ tid, tid ∉ (servedStore ledger first).transfers →
      tid ∈ (servedStore ledger (first ++ [.advance index choice])).transfers →
      ¬Named actions tid ∧
        ∀ account ∈ (servedStore ledger (first ++ [.advance index choice])).filedUnder tid,
          ¬IsHold ledger actions account

/-! ## Runs that are orderly by their requests -/

section Requests

variable {ledger actions} {hold : AccountId}

theorem IsHold.append (hhold : IsHold ledger actions hold) (more : List ServiceAction) :
    IsHold ledger (actions ++ more) hold := by
  obtain ⟨first, index, choice, rest, call, transfer, rfl, hcreated⟩ := hhold
  exact ⟨first, index, choice, rest ++ more, call, transfer, by simp, hcreated⟩

/-- A hold belongs to a trade that was to be authorized. -/
theorem IsHold.requested (hhold : IsHold ledger actions hold) :
    ∃ transfer, .start (.authorize transfer) ∈ actions ∧ HoldOf transfer hold := by
  obtain ⟨first, index, choice, rest, call, transfer, rfl, hcall, hrequest, hof, _⟩ := hhold
  have hstarted := mem_start_of_call hcall
  rw [hrequest] at hstarted
  exact ⟨transfer, List.mem_append_left _ hstarted, hof⟩

/-- An account that is not there before an authorization of its trade, and is there
after it, is a hold. -/
theorem isHold_of_alone {transfer : Transfer} (hof : HoldOf transfer hold)
    (hnone : (servedStore ledger actions).versions hold = []) (choices : List Choice)
    (hsome : (servedStore ledger (actions ++ .start (.authorize transfer) :: choices.map
      (.advance (ServicePool.after ledger actions).calls.length))).versions hold ≠ []) :
    IsHold ledger (actions ++ .start (.authorize transfer) :: choices.map
      (.advance (ServicePool.after ledger actions).calls.length)) hold := by
  let index := (ServicePool.after ledger actions).calls.length
  induction choices using List.reverseRecOn with
  | nil =>
      rw [List.map_nil, servedStore, ServicePool.after, Pool.run_append] at hsome
      exact absurd hnone hsome
  | append_singleton choices choice ih =>
      have hsplit : actions ++ .start (.authorize transfer) :: (choices ++ [choice]).map
          (.advance index) = (actions ++ .start (.authorize transfer) ::
            choices.map (.advance index)) ++ [.advance index choice] := by simp
      rw [hsplit] at hsome ⊢
      by_cases hopened : (servedStore ledger (actions ++ .start (.authorize transfer) ::
          choices.map (.advance index))).versions hold = []
      · let started : ServicePool :=
          (ServicePool.after ledger actions).act ledger.service (.start (.authorize transfer))
        have hstarted : started.calls[index]? =
            some ⟨.authorize transfer, ledger.service (.authorize transfer)⟩ :=
          List.getElem?_concat_length
        obtain ⟨call, hcall, hrequest⟩ :=
          Pool.exists_run_call ledger.service (choices.map (.advance index)) hstarted
        refine ⟨_, index, choice, [], call, transfer, rfl, ?_, hrequest, hof, hopened, hsome⟩
        rw [ServicePool.after, Pool.run_append, Pool.run_cons]
        exact hcall
      · exact (ih hopened).append _

/-- When the other operations only open accounts and no trade names what may be a
hold of a trade, the run is orderly. -/
theorem orderly_of_requests
    (hothers : ∀ request, .start request ∈ actions → request.isOther = true →
      request.mayStore = false)
    (hparties : ∀ transfer other, .start (.authorize transfer) ∈ actions →
      .start (.authorize other) ∈ actions → ∀ movement ∈ transfer.movements,
        ¬HoldOf other movement.fromAccount ∧ ¬HoldOf other movement.toAccount) :
    Orderly ledger actions := by
  constructor
  case trades =>
    intro transfer hrequested movement hmovement
    constructor
    · intro hhold
      obtain ⟨other, hother, hof⟩ := hhold.requested
      exact (hparties transfer other hrequested hother movement hmovement).1 hof
    · intro hhold
      obtain ⟨other, hother, hof⟩ := hhold.requested
      exact (hparties transfer other hrequested hother movement hmovement).2 hof
  case others =>
    intro first index choice rest call hsplit hcall hother tid hunstored hstored
    have hquiet := hothers call.request
      (hsplit ▸ List.mem_append_left _ (mem_start_of_call hcall)) hother
    obtain hsame | ⟨_, _, acting, heq, hacting, hstep⟩ := (serve_mayStore ledger).step
      (Pool.respects_anyAction ledger.service ServicePool.initial (first ++ [.advance index choice]))
    · have hidle : servedStore ledger (first ++ [.advance index choice]) =
          servedStore ledger first := hsame
      rw [hidle] at hstored
      exact absurd hstored hunstored
    · cases heq
      have hacts : some call = some acting := hcall.symm.trans hacting
      cases hacts
      have hmoved : StoreStep (fun _ => call.request.mayStore = true) (servedStore ledger first)
          (servedStore ledger (first ++ [.advance index choice])) := hstep
      obtain ⟨_, htransfers, _⟩ | ⟨_, _, _, _, _, hstores, _⟩ := hmoved.postings_cases
      · exact absurd (htransfers ▸ hstored) hunstored
      · rw [hquiet] at hstores
        cases hstores

end Requests

/-! ## Where stored transfers come from -/

/-- The calls that store a transfer in an orderly run. -/
inductive Origin (tid : EnvelopeId) (involved : List AccountId) (envelope : Envelope) : Prop where
  | other (hunnamed : ¬Named actions tid) (haway : ∀ account ∈ involved, ¬IsHold ledger actions account)
  | parks (transfer : Transfer) (hrequested : .start (.authorize transfer) ∈ actions)
      (hparks : Parks (SeenIn ledger actions) transfer envelope)
  | settles (inflight : EnvelopeId) (hnamed : Named actions inflight) {record : EnvelopeRecord}
      {legs : List InflightLeg} {hold target : AccountId} {asset : AssetId} {role : SettleRole}
      (hsettles : Settles (SeenIn ledger actions) inflight record legs hold target asset role envelope)

variable {ledger actions}

/-- Each action of a run stores at most what the request of its call draws up. -/
theorem step_served (ledger : Ledger) {first rest : List ServiceAction} {action : ServiceAction}
    (hsplit : actions = first ++ action :: rest) :
    servedStore ledger (first ++ [action]) = servedStore ledger first ∨
      ∃ index choice call, action = .advance index choice ∧
        (ServicePool.after ledger first).calls[index]? = some call ∧
        StoreStep (Draws (SeenIn ledger actions) call.request) (servedStore ledger first)
          (servedStore ledger (first ++ [action])) := by
  have hrun : Pool.Respects ledger.service (fun _ _ _ world => SeenIn ledger actions world)
      ServicePool.initial (first ++ [action] ++ rest) := by
    have hrespects := respects_seen ledger actions
    rwa [List.append_assoc, List.singleton_append, ← hsplit]
  have hdraws := serve_draws (fun world (hseen : SeenIn ledger actions world) =>
    hseen.accounted.consistent) ledger
  exact hdraws.step hrun.of_append.1

/-- A step of a call is about what its request is about. -/
theorem Draws.origin (horderly : Orderly ledger actions) {first rest : List ServiceAction}
    {index : Nat} {choice : Choice} (hsplit : actions = first ++ .advance index choice :: rest)
    {call : Call ServiceRequest Choice World (Except LedgerError ServiceResponse)}
    (hcall : (ServicePool.after ledger first).calls[index]? = some call) {envelope : Envelope}
    (hdraws : Draws (SeenIn ledger actions) call.request envelope) {tid : EnvelopeId}
    (hfresh : tid ∉ (servedStore ledger first).transfers)
    (hstored : tid ∈ (servedStore ledger (first ++ [.advance index choice])).transfers) :
    Origin ledger actions tid
      ((servedStore ledger (first ++ [.advance index choice])).filedUnder tid) envelope := by
  have hrequested : .start call.request ∈ actions := by
    rw [hsplit]
    exact List.mem_append_left _ (mem_start_of_call hcall)
  have hsettles : ∀ inflight, call.request.inflight? = some inflight →
      (∃ record legs hold target asset role, Settles (SeenIn ledger actions) inflight record legs
        hold target asset role envelope) → Origin ledger actions tid
      ((servedStore ledger (first ++ [.advance index choice])).filedUnder tid) envelope := by
    rintro inflight hinflight ⟨record, legs, hold, target, asset, role, hsettles⟩
    exact .settles inflight ⟨_, hrequested, hinflight⟩ hsettles
  by_cases hother : call.request.isOther = true
  · obtain ⟨hunnamed, haway⟩ := horderly.others first index choice rest call hsplit hcall hother tid
      hfresh hstored
    exact .other hunnamed haway
  · obtain ⟨request, remaining⟩ := call
    dsimp only at hdraws hrequested hsettles hother
    cases request with
    | ledger request => exact absurd rfl hother
    | authorize transfer => exact .parks transfer hrequested hdraws
    | confirmAll inflight => exact hsettles inflight rfl hdraws
    | confirm inflight confirms => exact hsettles inflight rfl hdraws
    | void inflight => exact hsettles inflight rfl hdraws
    | inflightStatus inflight => exact hdraws.elim
    | runMovements movements => exact absurd rfl hother

/-- A stored transfer was stored by one step of a call, which had drawn it up. -/
theorem stored_by {tid : EnvelopeId} {record : EnvelopeRecord}
    (hstored : (servedStore ledger actions).transfers.lookup tid = some record) :
    ∃ first index choice rest call, actions = first ++ .advance index choice :: rest ∧
      (ServicePool.after ledger first).calls[index]? = some call ∧
      Draws (SeenIn ledger actions) call.request record.envelope ∧
      tid ∉ (servedStore ledger first).transfers ∧
      (servedStore ledger (first ++ [.advance index choice])).transfers.lookup tid = some record := by
  suffices ∀ first rest, actions = first ++ rest →
      (servedStore ledger first).transfers.lookup tid = some record →
      ∃ first index choice rest call, actions = first ++ .advance index choice :: rest ∧
        (ServicePool.after ledger first).calls[index]? = some call ∧
        Draws (SeenIn ledger actions) call.request record.envelope ∧
        tid ∉ (servedStore ledger first).transfers ∧
        (servedStore ledger (first ++ [.advance index choice])).transfers.lookup tid =
          some record from
    this actions [] (List.append_nil _).symm hstored
  clear hstored
  intro first
  induction first using List.reverseRecOn with
  | nil =>
      intro _ _ hstored
      cases hstored
  | append_singleton first action ih =>
      intro rest hsplit hstored
      have hsplit : actions = first ++ action :: rest := by
        rw [hsplit, List.append_assoc]
        rfl
      obtain hsame | ⟨index, choice, call, rfl, hcall, hstep⟩ := step_served ledger hsplit
      · exact ih (action :: rest) hsplit (by rwa [hsame] at hstored)
      obtain ⟨_, htransfers, _⟩ | ⟨order, clock, req, consumed, hvalid, hdraws, hfresh, _,
        hafter⟩ := hstep.postings_cases
      · exact ih (.advance index choice :: rest) hsplit (by rwa [htransfers] at hstored)
      have hlookup := hstored
      rw [hafter, lookup_transfers_applyCommit] at hlookup
      split at hlookup
      next heq =>
        cases hlookup
        exact ⟨first, index, choice, rest, call, hsplit, hcall, hdraws, heq ▸ hfresh, hstored⟩
      next => exact ih (.advance index choice :: rest) hsplit hlookup

theorem origin_of_stored (horderly : Orderly ledger actions) {tid : EnvelopeId}
    {record : EnvelopeRecord}
    (hstored : (servedStore ledger actions).transfers.lookup tid = some record) :
    Origin ledger actions tid ((servedStore ledger actions).filedUnder tid) record.envelope := by
  obtain ⟨first, index, choice, rest, call, hsplit, hcall, hdraws, hfresh, hlookup⟩ :=
    stored_by hstored
  have hevolves := evolves_served ledger (first ++ [.advance index choice]) rest
  rw [List.append_assoc, List.singleton_append, ← hsplit] at hevolves
  rw [hevolves.filedUnder hlookup]
  exact hdraws.origin horderly hsplit hcall hfresh
    (HashMap.mem_iff_exists_lookup.mpr ⟨record, hlookup⟩)

end Kuatia
