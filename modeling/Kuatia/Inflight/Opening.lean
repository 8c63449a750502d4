import Kuatia.Interleaving.Phases
import Kuatia.Inflight.Orderly
import Kuatia.Ledger.Reading

/-! # A hold is opened once and funded once

The call that authorizes a trade first creates its holds and then commits one
transfer. An account is created only once, so of all calls one at most may come
to fund a hold.
-/

namespace Kuatia

open Async Interleaving LedgerM

variable [MoneyWidth]

/-! ## Phases of ledger programs -/

section Rules

variable {Phase α β : Type} {allowed : Phase → World → World → Phase → Prop} {phase : Phase}

/-- The program goes on from `phase` in allowed ways, and a value is returned in a
phase that satisfies `post`. -/
def Passes (allowed : Phase → World → World → Phase → Prop) (post : Phase → α → Prop)
    (phase : Phase) (program : LedgerM α) : Prop :=
  Follows allowed (fun later result => ∀ value, result = .ok value → post later value) phase
    program.run

namespace Passes

variable {post post' : Phase → α → Prop} {after : Phase → β → Prop}

theorem weaken {program : LedgerM α} (hpasses : Passes allowed post phase program)
    (hpost : ∀ later value, post later value → post' later value) :
    Passes allowed post' phase program :=
  Follows.weaken hpasses fun later _ hresult value heq => hpost later value (hresult value heq)

theorem bind {program : LedgerM α} {rest : α → LedgerM β}
    (hpasses : Passes allowed post phase program)
    (hrest : ∀ later value, post later value → Passes allowed after later (rest value)) :
    Passes allowed after phase (program >>= rest) := by
  unfold Passes
  rw [run_bind_eq]
  refine Follows.bind hpasses fun later result hresult => ?_
  cases result with
  | ok value => exact hrest later value (hresult value rfl)
  | error err =>
      intro value heq
      cases heq

theorem pure {value : α} (hvalue : post phase value) :
    Passes allowed post phase (pure value) := by
  intro result heq
  cases heq
  exact hvalue

theorem throw (err : LedgerError) : Passes allowed post phase (throw err : LedgerM α) := by
  intro value heq
  cases heq

theorem attempt {result : Except LedgerError α}
    (hresult : ∀ value, result = .ok value → post phase value) :
    Passes allowed post phase (attempt result) := hresult

theorem act {body : Choice → InMemoryStore → α × InMemoryStore}
    (hbody : ∀ choice world, ∃ later,
      allowed phase world ⟨(body choice world.store).2, choice.clock⟩ later ∧
        post later (body choice world.store).1) : Passes allowed post phase (act body) := by
  intro choice world
  obtain ⟨later, hstep, hpost⟩ := hbody choice world
  refine ⟨later, hstep, fun value heq => ?_⟩
  cases heq
  exact hpost

/-- A program that only reads stays in its phase. -/
theorem of_readOnly {program : LedgerM α} (hprogram : ReadOnly program)
    (hidle : ∀ before after : World, after.store = before.store → allowed phase before after phase) :
    Passes allowed (fun later _ => later = phase) phase program := by
  have henv : Environment (fun _ _ => True) fun before after : World =>
      after.store = before.store := ⟨fun _ => trivial, fun _ _ _ _ _ => trivial, fun _ _ => rfl⟩
  refine Follows.weaken (Follows.stay (hprogram _ _ henv ⟨.new, none⟩) hidle) ?_
  exact fun _ _ hphase _ _ => hphase

theorem adapt {convert : LedgerError → LedgerError} {program : LedgerM α}
    (hpasses : Passes allowed post phase program) :
    Passes allowed post phase (ExceptT.adapt convert program) := by
  refine Follows.bind hpasses fun later result hresult value heq => ?_
  cases result with
  | ok returned =>
      cases heq
      exact hresult value rfl
  | error err => cases heq

end Passes

end Rules

/-! ## Opening a hold -/

/-- How far a call has come with a hold of its trade. -/
inductive HoldPhase where
  | waiting
  | opened
  | funded
  deriving DecidableEq

/-- The steps of a call that authorizes a trade with the hold: until it has created
the account it stores nothing, and it stores one transfer at most. -/
inductive Opening (hold : AccountId) : HoldPhase → World → World → HoldPhase → Prop where
  | quiet {phase : HoldPhase} {before after : World}
      (htransfers : after.store.transfers = before.store.transfers)
      (hversions : after.store.versions hold = before.store.versions hold) :
      Opening hold phase before after phase
  | opens {phase : HoldPhase} {before after : World}
      (htransfers : after.store.transfers = before.store.transfers)
      (hnone : before.store.versions hold = []) {account : Account}
      (hversions : after.store.versions hold = [account])
      (hforbids : account.forbidsOverdraft = true) : Opening hold phase before after .opened
  | funds {before after : World}
      (hversions : after.store.versions hold = before.store.versions hold) :
      Opening hold .opened before after .funded

variable {hold : AccountId}

theorem Opening.of_same {phase : HoldPhase} {before after : World}
    (hsame : after.store = before.store) : Opening hold phase before after phase := by
  apply Opening.quiet
  · rw [hsame]
  · rw [hsame]

variable [Sha256] [Cbor]

omit [Sha256] [Cbor] in
/-- Creating an account stores no transfer, and creates the hold if it is the one. -/
theorem createAccount_passes {account : Account} (phase : HoldPhase)
    (hforbids : account.id = hold → account.forbidsOverdraft = true) :
    Passes (Opening hold)
      (fun later _ => later = .opened ∨ later = phase ∧ account.id ≠ hold) phase
      (createAccount account) := by
  have hinsert : Passes (Opening hold)
      (fun later inserted => inserted ≠ 0 → later = .opened ∨ later = phase ∧ account.id ≠ hold)
      phase (act fun _ store => store.createAccount account) := by
    apply Passes.act
    intro choice world
    by_cases hexists : account.id ∈ world.store.accounts
    · simp only [InMemoryStore.createAccount, hexists, if_true]
      exact ⟨phase, .of_same rfl, fun hinserted => absurd rfl hinserted⟩
    · simp only [InMemoryStore.createAccount, hexists, if_false]
      by_cases hid : account.id = hold
      · refine ⟨.opened, .opens rfl ?_ ?_ (hforbids hid), fun _ => .inl rfl⟩
        · rw [InMemoryStore.versions, ← hid, AList.lookup_eq_none.mpr hexists]
          rfl
        · simp [InMemoryStore.versions, hid]
      · refine ⟨phase, .quiet rfl ?_, fun _ => .inr ⟨rfl, hid⟩⟩
        simp [InMemoryStore.versions, Ne.symm hid]
  apply hinsert.bind
  intro later inserted hinserted
  split
  next => exact .throw _
  next hnonzero =>
    refine (Passes.of_readOnly ReadOnly.nowMillis fun _ _ => .of_same).bind fun same now hsame => ?_
    subst hsame
    have hevent : Passes (Opening hold) (fun last _ => last = same) same
        (act fun choice store => store.appendEvent choice.clock
          { seq := 0, timestamp := now, kind := .accountCreated account.id }) := by
      apply Passes.act
      intro choice world
      refine ⟨same, .quiet ?_ ?_, rfl⟩
      · simp [InMemoryStore.appendEvent_store]
      · exact InMemoryStore.versions_congr (by simp [InMemoryStore.appendEvent_store]) hold
    apply hevent.bind
    rintro last _ rfl
    exact .pure (hinserted hnonzero)

omit [Sha256] in
theorem holdAccount_eq_ok {book : BookId} {destination : AccountId} {account : Account}
    (haccount : holdAccount book hold destination = .ok account) :
    account.id = hold ∧ account.forbidsOverdraft = true := by
  obtain ⟨metadata, _, hpure⟩ := Except.bind_eq_ok_iff.mp haccount
  cases hpure
  have hflags : (AccountFlags.INFLIGHT.insert .DEBIT_MUST_NOT_EXCEED_CREDIT).contains
      .DEBIT_MUST_NOT_EXCEED_CREDIT = true := by decide
  exact ⟨rfl, hflags⟩

omit [Sha256] in
theorem openHold_passes (book : BookId) (sub : Int64) (destination : AccountId)
    (phase : HoldPhase) : Passes (Opening hold)
      (fun later _ => later = .opened ∨ later = phase ∧ holdOf sub destination ≠ hold) phase
      (openHold book sub destination) := by
  have hattempt : Passes (Opening hold)
      (fun later account => later = phase ∧ account.id = holdOf sub destination ∧
        account.forbidsOverdraft = true) phase
      (attempt (holdAccount book (holdOf sub destination) destination)) :=
    .attempt fun _ haccount => ⟨rfl, holdAccount_eq_ok haccount⟩
  apply hattempt.bind
  intro later account hlater
  obtain ⟨rfl, hid, hforbids⟩ := hlater
  rw [← hid]
  exact .adapt (createAccount_passes later fun _ => hforbids)

omit [Sha256] in
/-- Once all holds of a trade are open, the one in question is. -/
theorem openHolds_passes {book : BookId} {sub : Int64} {destinations : List AccountId}
    {phase : HoldPhase}
    (hhold : phase = .opened ∨ ∃ destination ∈ destinations, holdOf sub destination = hold) :
    Passes (Opening hold) (fun later _ => later = .opened) phase
      (destinations.forM (openHold book sub)) := by
  induction destinations generalizing phase with
  | nil =>
      obtain hphase | ⟨_, hnone, _⟩ := hhold
      · exact .pure hphase
      · cases hnone
  | cons destination destinations ih =>
      apply (openHold_passes book sub destination phase).bind
      intro later _ hlater
      apply ih
      obtain hopened | ⟨rfl, hother⟩ := hlater
      · exact .inl hopened
      · refine hhold.imp id fun ⟨found, hfound, heq⟩ => ⟨found, ?_, heq⟩
        refine (List.mem_cons.mp hfound).resolve_left ?_
        rintro rfl
        exact hother heq

omit [Cbor] in
/-- A commit stores one transfer at most. -/
theorem commit_passes (transfer : Transfer) :
    Passes (Opening hold) (fun _ _ => True) .opened (commit transfer) := by
  have hread : ∀ {α β : Type} {phase : HoldPhase} {program : LedgerM α} {rest : α → LedgerM β},
      ReadOnly program → (∀ value, Passes (Opening hold) (fun _ _ => True) phase (rest value)) →
      Passes (Opening hold) (fun _ _ => True) phase (program >>= rest) := by
    intro α β phase program rest hprogram hrest
    apply (Passes.of_readOnly hprogram fun _ _ => .of_same).bind
    rintro _ value rfl
    exact hrest value
  apply hread (resolve_readOnly transfer)
  intro envelope
  apply hread (pinSnapshots_readOnly envelope)
  intro pinned
  apply hread (ReadOnly.read _)
  intro existing
  cases existing with
  | some record => exact .pure trivial
  | none =>
      apply hread (load_readOnly pinned)
      intro loaded
      apply hread (ReadOnly.compute _)
      intro plan
      apply hread ReadOnly.nowMillis
      intro ts
      have hstore : Passes (Opening hold) (fun later _ => later = .funded) .opened
          (act fun choice store => store.commitEnvelope choice.order choice.clock
            (commitRequest pinned plan loaded ts)) := by
        apply Passes.act
        intro choice world
        refine ⟨.funded, .funds ?_, rfl⟩
        obtain ⟨hsame, _⟩ | ⟨_, _, heq⟩ := world.store.commitEnvelope_cases choice.order choice.clock
          (commitRequest pinned plan loaded ts)
        · rw [hsame]
        · exact InMemoryStore.versions_congr (by simp [heq]) hold
      apply hstore.bind
      rintro _ result rfl
      apply hread (ReadOnly.attempt _)
      intro outcome
      exact (Passes.of_readOnly (ReadOnly.attempt _) fun _ _ => .of_same).weaken fun _ _ _ => trivial

theorem authorize_passes {transfer : Transfer} (hhold : HoldOf transfer hold) :
    Passes (Opening hold) (fun _ _ => True) .waiting (authorize transfer) := by
  unfold authorize
  dsimp only
  split
  next => exact .throw _
  next =>
    apply (openHolds_passes (.inr hhold)).bind
    rintro _ _ rfl
    have hencode : ∀ legs, Passes (Opening hold) (fun later _ => later = .opened) .opened
        (attempt (encodeMeta (.authorize legs))) := fun _ => .attempt fun _ _ => rfl
    apply (hencode _).bind
    rintro _ payload rfl
    exact (commit_passes _).bind fun _ _ _ => .pure trivial

/-! ## All calls together -/

/-- The request authorizes a trade with the hold. -/
def Authorizes (hold : AccountId) (request : ServiceRequest) : Prop :=
  ∃ transfer, request = .authorize transfer ∧ HoldOf transfer hold

/-- Only the calls that authorize a trade with the hold go through its phases. -/
def Opens (hold : AccountId) (request : ServiceRequest) (phase : HoldPhase) (before after : World)
    (later : HoldPhase) : Prop :=
  (Authorizes hold request → Opening hold phase before after later) ∧
    (¬Authorizes hold request → later = phase)

theorem service_follows (ledger : Ledger) (hold : AccountId) (request : ServiceRequest) :
    Follows (Opens hold request) (fun _ _ => True) .waiting (ledger.service request) := by
  by_cases hauthorizes : Authorizes hold request
  · obtain ⟨transfer, rfl, hhold⟩ := hauthorizes
    have hpasses : Passes (Opening hold) (fun _ _ => True) .waiting
        (ledger.serve (.authorize transfer)) :=
      (authorize_passes hhold).bind fun _ _ _ => .pure trivial
    refine Follows.mono hpasses (fun _ _ _ _ hstep => ?_) fun _ _ _ => trivial
    exact ⟨fun _ => hstep, fun hnot => absurd ⟨transfer, rfl, hhold⟩ hnot⟩
  · apply Follows.idle
    exact fun _ _ => ⟨fun hdoes => absurd hdoes hauthorizes, fun _ => rfl⟩

abbrev PhasedAt (hold : AccountId) (ledger : Ledger) (actions : List ServiceAction)
    (phases : Nat → HoldPhase) : Prop :=
  (ServicePool.after ledger actions).Phased (Opens hold) .waiting phases

/-- One more action of a run, with the phase of the call that takes it. -/
theorem phased_step {ledger : Ledger} {actions : List ServiceAction} {phases : Nat → HoldPhase}
    (hphased : PhasedAt hold ledger actions phases) (action : ServiceAction) :
    (servedStore ledger (actions ++ [action]) = servedStore ledger actions ∧
      PhasedAt hold ledger (actions ++ [action]) phases) ∨
    ∃ index choice call later, action = .advance index choice ∧
      (ServicePool.after ledger actions).calls[index]? = some call ∧
      Opens hold call.request (phases index) (ServicePool.after ledger actions).shared
        (ServicePool.after ledger (actions ++ [action])).shared later ∧
      PhasedAt hold ledger (actions ++ [action]) (Function.update phases index later) := by
  have hact := hphased.act (service_follows ledger hold) action
  have hafter : ServicePool.after ledger (actions ++ [action]) =
      (ServicePool.after ledger actions).act ledger.service action :=
    Pool.run_append ledger.service ServicePool.initial actions [action]
  rw [← hafter] at hact
  exact hact.imp (fun hidle => ⟨congrArg World.store hidle.1, hidle.2⟩) id

theorem exists_phased (hold : AccountId) (ledger : Ledger) (actions : List ServiceAction) :
    ∃ phases, PhasedAt hold ledger actions phases := by
  induction actions using List.reverseRecOn with
  | nil => exact ⟨_, Pool.phased_nil _⟩
  | append_singleton actions action ih =>
      obtain ⟨phases, hphased⟩ := ih
      obtain ⟨_, hnext⟩ | ⟨_, _, _, _, _, _, _, hnext⟩ := phased_step hphased action
      · exact ⟨_, hnext⟩
      · exact ⟨_, hnext⟩

variable {ledger : Ledger} {actions : List ServiceAction}

/-- A call has opened the hold only if the account is a hold. -/
theorem exists_phased_holds (hold : AccountId) (ledger : Ledger) (actions : List ServiceAction) :
    ∃ phases, PhasedAt hold ledger actions phases ∧
      ∀ index, phases index ≠ .waiting → IsHold ledger actions hold := by
  induction actions using List.reverseRecOn with
  | nil => exact ⟨_, Pool.phased_nil _, fun _ hphase => absurd rfl hphase⟩
  | append_singleton actions action ih =>
      obtain ⟨phases, hphased, hholds⟩ := ih
      have hkept : ∀ index, phases index ≠ .waiting → IsHold ledger (actions ++ [action]) hold :=
        fun index hphase => (hholds index hphase).append _
      obtain ⟨_, hnext⟩ | ⟨index, choice, call, later, rfl, hcall, hopens, hnext⟩ :=
        phased_step hphased action
      · exact ⟨phases, hnext, hkept⟩
      refine ⟨_, hnext, fun other hphase => ?_⟩
      by_cases hother : other = index
      swap
      · rw [Function.update_of_ne hother] at hphase
        exact hkept other hphase
      rw [hother, Function.update_self] at hphase
      by_cases hauthorizes : Authorizes hold call.request
      swap
      · rw [hopens.2 hauthorizes] at hphase
        exact hkept index hphase
      have hopening := hopens.1 hauthorizes
      obtain ⟨transfer, hrequest, hof⟩ := hauthorizes
      generalize hindex : phases index = phase at hopening
      cases hopening with
      | quiet => exact hkept index (hindex ▸ hphase)
      | opens _ hnone hversions =>
          refine ⟨actions, index, choice, [], call, transfer, rfl, hcall, hrequest, hof, hnone, ?_⟩
          change (ServicePool.after ledger _).shared.store.versions hold ≠ []
          rw [hversions]
          exact List.cons_ne_nil _ _
      | funds => exact hkept index (by rw [hindex]; decide)

/-- The call that stores the authorize transfer of a trade has opened its holds. -/
theorem isHold_of_stored {hold : AccountId} {first rest : List ServiceAction} {index : Nat}
    {choice : Choice} (hsplit : actions = first ++ .advance index choice :: rest)
    {call : Call ServiceRequest Choice World (Except LedgerError ServiceResponse)}
    (hcall : (ServicePool.after ledger first).calls[index]? = some call)
    (hauthorizes : Authorizes hold call.request) {tid : EnvelopeId}
    (hfresh : tid ∉ (servedStore ledger first).transfers)
    (hstored : tid ∈ (servedStore ledger (first ++ [.advance index choice])).transfers) :
    IsHold ledger actions hold := by
  obtain ⟨phases, hphased, hholds⟩ := exists_phased_holds hold ledger first
  rw [hsplit]
  obtain ⟨hsame, _⟩ | ⟨_, _, acting, later, heq, hacting, hopens, _⟩ :=
    phased_step hphased (.advance index choice)
  · exact absurd (hsame ▸ hstored) hfresh
  cases heq
  rw [hcall] at hacting
  cases hacting
  have hopening := hopens.1 hauthorizes
  generalize hindex : phases index = phase at hopening
  have hquiet : (ServicePool.after ledger (first ++ [.advance index choice])).shared.store.transfers =
      (ServicePool.after ledger first).shared.store.transfers → False := fun htransfers =>
    hfresh (htransfers ▸ hstored)
  cases hopening with
  | quiet htransfers => exact (hquiet htransfers).elim
  | opens htransfers => exact (hquiet htransfers).elim
  | funds => exact (hholds index (by rw [hindex]; decide)).append _

/-- A hold forbids overdraft. -/
theorem IsHold.forbids (hhold : IsHold ledger actions hold) :
    ∃ account ∈ (servedStore ledger actions).versions hold, account.forbidsOverdraft = true := by
  obtain ⟨first, index, choice, rest, call, transfer, rfl, hcall, hrequest, hof, hnone, hsome⟩ :=
    hhold
  obtain ⟨phases, hphased⟩ := exists_phased hold ledger first
  obtain ⟨hsame, _⟩ | ⟨_, _, other, later, heq, hother, hopens, _⟩ :=
    phased_step hphased (.advance index choice)
  · rw [hsame] at hsome
    exact absurd hnone hsome
  · cases heq
    rw [hcall] at hother
    cases hother
    have hopens := hopens.1 ⟨transfer, hrequest, hof⟩
    generalize phases index = phase at hopens
    have hopened : ∃ account ∈ (servedStore ledger (first ++ [.advance index choice])).versions hold,
        account.forbidsOverdraft = true := by
      cases hopens with
      | quiet _ hversions => exact absurd (hversions.trans hnone) hsome
      | @opens _ _ _ _ _ account hversions hforbids =>
          exact ⟨account, by rw [hversions]; exact List.mem_singleton.mpr rfl, hforbids⟩
      | funds hversions => exact absurd (hversions.trans hnone) hsome
    obtain ⟨account, hmem, hforbids⟩ := hopened
    have hevolves := evolves_served ledger (first ++ [.advance index choice]) rest
    rw [List.append_assoc, List.singleton_append] at hevolves
    exact ⟨account, hevolves.mem_versions hmem, hforbids⟩

/-- The stored transfer is an authorize transfer that funds the hold. -/
def Funds (hold : AccountId) (record : EnvelopeRecord) : Prop :=
  (∃ legs, readMeta record.envelope.metadata = some (.authorize legs)) ∧
    ∃ posting ∈ record.envelope.creates, posting.owner = hold

/-- One call at most has opened the hold and may still fund it, and only while no
stored transfer funds it. -/
structure FundedOnce (hold : AccountId) (store : InMemoryStore) (phases : Nat → HoldPhase) :
    Prop where
  opened_once : ∀ i j, phases i = .opened → phases j = .opened → i = j
  opened_exists : ∀ i, phases i = .opened → store.versions hold ≠ []
  unfunded : ∀ i, phases i = .opened → ∀ tid record, store.transfers.lookup tid = some record →
    ¬Funds hold record
  funded_once : ∀ tid record tid' record', store.transfers.lookup tid = some record →
    store.transfers.lookup tid' = some record' → Funds hold record → Funds hold record' → tid = tid'
  funded_exists : ∀ tid record, store.transfers.lookup tid = some record → Funds hold record →
    store.versions hold ≠ []

namespace FundedOnce

variable {before after : InMemoryStore} {phases : Nat → HoldPhase}

omit [Sha256] in
/-- Nothing changes for the hold when no transfer that funds it is stored. -/
theorem keep (honce : FundedOnce hold before phases)
    (hversions : before.versions hold ≠ [] → after.versions hold ≠ [])
    (hstored : ∀ tid record, after.transfers.lookup tid = some record → Funds hold record →
      before.transfers.lookup tid = some record) : FundedOnce hold after phases where
  opened_once := honce.opened_once
  opened_exists i hopened := hversions (honce.opened_exists i hopened)
  unfunded i hopened tid record hlookup hfunds :=
    honce.unfunded i hopened tid record (hstored tid record hlookup hfunds) hfunds
  funded_once tid record tid' record' hlookup hlookup' hfunds hfunds' :=
    honce.funded_once tid record tid' record' (hstored tid record hlookup hfunds)
      (hstored tid' record' hlookup' hfunds') hfunds hfunds'
  funded_exists tid record hlookup hfunds :=
    hversions (honce.funded_exists tid record (hstored tid record hlookup hfunds) hfunds)

omit [Sha256] in
/-- Nobody has opened or funded a hold that does not exist. -/
theorem opens (honce : FundedOnce hold before phases) (index : Nat)
    (htransfers : after.transfers = before.transfers) (hnone : before.versions hold = [])
    (hsome : after.versions hold ≠ []) :
    FundedOnce hold after (Function.update phases index .opened) := by
  have hunopened : ∀ i, phases i ≠ .opened := fun i hopened => honce.opened_exists i hopened hnone
  have hunfunded : ∀ tid record, after.transfers.lookup tid = some record → ¬Funds hold record := by
    intro tid record hlookup hfunds
    rw [htransfers] at hlookup
    exact honce.funded_exists tid record hlookup hfunds hnone
  have honly : ∀ i, Function.update phases index .opened i = .opened → i = index := by
    intro i hopened
    by_contra hne
    rw [Function.update_of_ne hne] at hopened
    exact hunopened i hopened
  refine ⟨fun i j hi hj => (honly i hi).trans (honly j hj).symm, fun _ _ => hsome,
    fun _ _ => hunfunded, ?_, ?_⟩
  · exact fun tid record _ _ hlookup _ hfunds => absurd hfunds (hunfunded tid record hlookup)
  · exact fun tid record hlookup hfunds => absurd hfunds (hunfunded tid record hlookup)

omit [Sha256] in
/-- Whoever has opened the hold may fund it, and has done so then. -/
theorem funds (honce : FundedOnce hold before phases) {index : Nat}
    (hopened : phases index = .opened) (hsome : after.versions hold ≠ []) (fresh : EnvelopeId)
    (hstored : ∀ tid record, tid ≠ fresh → after.transfers.lookup tid = some record →
      before.transfers.lookup tid = some record) :
    FundedOnce hold after (Function.update phases index .funded) := by
  have hunopened : ∀ i, Function.update phases index .funded i ≠ .opened := by
    intro i hstill
    by_cases hsame : i = index
    · rw [hsame, Function.update_self] at hstill
      cases hstill
    · rw [Function.update_of_ne hsame] at hstill
      exact hsame (honce.opened_once i index hstill hopened)
  have honly : ∀ tid record, after.transfers.lookup tid = some record → Funds hold record →
      tid = fresh := by
    intro tid record hlookup hfunds
    by_contra hne
    exact honce.unfunded index hopened tid record (hstored tid record hne hlookup) hfunds
  refine ⟨fun i _ hi => absurd hi (hunopened i), fun i hi => absurd hi (hunopened i),
    fun i hi => absurd hi (hunopened i), ?_, fun _ _ _ _ => hsome⟩
  exact fun tid record tid' record' hlookup hlookup' hfunds hfunds' =>
    (honly tid record hlookup hfunds).trans (honly tid' record' hlookup' hfunds').symm

end FundedOnce

/-- A hold of a trade is credited by a movement of it, or is none. -/
theorem Parks.holdOf_owner {seen : World → Prop} {transfer : Transfer} {envelope : Envelope}
    (hparks : Parks seen transfer envelope) {posting : NewPosting}
    (hposting : posting ∈ envelope.creates) :
    HoldOf transfer posting.owner ∨
      ∃ movement ∈ transfer.movements, posting.owner = movement.fromAccount := by
  obtain ⟨extra, hcreates, hextra⟩ := hparks.creates
  rw [hcreates] at hposting
  rcases List.mem_append.mp hposting with hcredit | hmore
  · obtain ⟨movement, hmovement, rfl⟩ := List.mem_map.mp hcredit
    refine .inl ⟨movement.toAccount, ?_, rfl⟩
    simpa [destinationsOf] using ⟨movement, hmovement, rfl⟩
  · exact .inr (hextra posting hmore)

/-- A call that has no part in the hold does not fund it. -/
theorem Draws.not_funds (horderly : Orderly ledger actions) (hhold : IsHold ledger actions hold)
    {first rest : List ServiceAction} {index : Nat} {choice : Choice}
    (hsplit : actions = first ++ .advance index choice :: rest)
    {call : Call ServiceRequest Choice World (Except LedgerError ServiceResponse)}
    (hcall : (ServicePool.after ledger first).calls[index]? = some call)
    (hnot : ¬Authorizes hold call.request) {tid : EnvelopeId} {record : EnvelopeRecord}
    (hdraws : Draws (SeenIn ledger actions) call.request record.envelope)
    (hfresh : tid ∉ (servedStore ledger first).transfers)
    (hstored : (servedStore ledger (first ++ [.advance index choice])).transfers.lookup tid =
      some record) : ¬Funds hold record := by
  rintro ⟨⟨legs, hlegs⟩, posting, hposting, rfl⟩
  have hrequested : .start call.request ∈ actions := by
    rw [hsplit]
    exact List.mem_append_left _ (mem_start_of_call hcall)
  have hsettles : ¬∃ inflight record' legs' hold' target asset role,
      Settles (SeenIn ledger actions) inflight record' legs' hold' target asset role
        record.envelope := by
    rintro ⟨_, _, _, _, _, _, role, hsettles⟩
    obtain ⟨_, _, hpayload⟩ := hsettles.payable
    rw [hlegs] at hpayload
    cases role <;> cases hpayload
  by_cases hother : call.request.isOther = true
  · have hmem := HashMap.mem_iff_exists_lookup.mpr ⟨record, hstored⟩
    obtain ⟨_, haway⟩ := horderly.others first index choice rest call hsplit hcall hother tid hfresh
      hmem
    have hcatalogued := (accounted_served ledger (first ++ [.advance index choice])).catalogued
    exact haway _ (hcatalogued.creates tid record hstored posting hposting) hhold
  · obtain ⟨request, remaining⟩ := call
    dsimp only at hdraws hrequested hnot hother
    cases request with
    | ledger request => exact hother rfl
    | authorize transfer =>
        obtain hof | ⟨movement, hmovement, howner⟩ := Parks.holdOf_owner hdraws hposting
        · exact hnot ⟨transfer, rfl, hof⟩
        · exact (horderly.trades transfer hrequested movement hmovement).1 (howner ▸ hhold)
    | confirmAll inflight => exact hsettles ⟨inflight, hdraws⟩
    | confirm inflight confirms => exact hsettles ⟨inflight, hdraws⟩
    | void inflight => exact hsettles ⟨inflight, hdraws⟩
    | inflightStatus inflight => exact hdraws
    | runMovements movements => exact hother rfl

theorem exists_fundedOnce (horderly : Orderly ledger actions) (hhold : IsHold ledger actions hold)
    (first rest : List ServiceAction) (hsplit : actions = first ++ rest) :
    ∃ phases, PhasedAt hold ledger first phases ∧
      FundedOnce hold (servedStore ledger first) phases := by
  induction first using List.reverseRecOn generalizing rest with
  | nil =>
      refine ⟨_, Pool.phased_nil _, ?_⟩
      constructor
      · intro _ _ hopened
        cases hopened
      · intro _ hopened
        cases hopened
      · intro _ hopened
        cases hopened
      · intro _ _ _ _ hlookup
        cases hlookup
      · intro _ _ hlookup
        cases hlookup
  | append_singleton first action ih =>
      have hsplit : actions = first ++ action :: rest := by
        rw [hsplit, List.append_assoc]
        rfl
      obtain ⟨phases, hphased, honce⟩ := ih (action :: rest) hsplit
      obtain ⟨hsame, hnext⟩ | ⟨index, choice, call, later, rfl, hcall, hopens, hnext⟩ :=
        phased_step hphased action
      · exact ⟨phases, hnext, hsame ▸ honce⟩
      refine ⟨_, hnext, ?_⟩
      have hstep := storeStep_served ledger first (.advance index choice)
      have hversions : (servedStore ledger first).versions hold ≠ [] →
          (servedStore ledger (first ++ [.advance index choice])).versions hold ≠ [] := by
        intro hsome hnone
        have hinitial := hstep.versions_prefix hold
        rw [hnone, List.prefix_nil] at hinitial
        exact hsome hinitial
      -- only a call that authorizes into the hold can open or fund it
      by_cases hauthorizes : Authorizes hold call.request
      · have hopening := hopens.1 hauthorizes
        generalize hphase : phases index = phase at hopening
        cases hopening with
        | quiet htransfers =>
            rw [← hphase, Function.update_eq_self]
            exact honce.keep hversions fun tid record hlookup _ => htransfers ▸ hlookup
        | opens htransfers hnone hsome =>
            refine honce.opens index htransfers hnone ?_
            rw [hsome]
            exact List.cons_ne_nil _ _
        | funds =>
            have hsome := hversions (honce.opened_exists index hphase)
            obtain ⟨_, htransfers, _⟩ | ⟨_, _, req, _, _, _, _, _, hafter⟩ := hstep.postings_cases
            · refine honce.funds hphase hsome ⟨.replicate 32 0⟩ ?_
              exact fun tid record _ hlookup => htransfers ▸ hlookup
            · refine honce.funds hphase hsome req.transferId ?_
              intro tid record hne hlookup
              rwa [hafter, lookup_transfers_applyCommit, if_neg hne] at hlookup
      · rw [hopens.2 hauthorizes, Function.update_eq_self]
        refine honce.keep hversions fun tid record hlookup hfunds => ?_
        obtain hsame | ⟨_, _, other, heq, hother, hdraws⟩ := step_served ledger hsplit
        · rwa [hsame] at hlookup
        cases heq
        rw [hcall] at hother
        cases hother
        obtain ⟨_, htransfers, _⟩ | ⟨_, _, req, _, _, hdraws, hfresh, _, hafter⟩ :=
          hdraws.postings_cases
        · rwa [htransfers] at hlookup
        -- the one new transfer does not fund the hold; the others were there before
        by_cases hne : tid = req.transferId
        · subst hne
          have hstored := hlookup
          rw [hafter, lookup_transfers_applyCommit, if_pos rfl] at hstored
          cases hstored
          exact absurd hfunds (Draws.not_funds horderly hhold hsplit hcall hauthorizes hdraws hfresh
            hlookup)
        · rwa [hafter, lookup_transfers_applyCommit, if_neg hne] at hlookup

/-- In an orderly run, one stored authorize transfer at most funds a hold. -/
theorem funded_once (horderly : Orderly ledger actions) (hhold : IsHold ledger actions hold)
    {tid tid' : EnvelopeId} {record record' : EnvelopeRecord}
    (hstored : (servedStore ledger actions).transfers.lookup tid = some record)
    (hstored' : (servedStore ledger actions).transfers.lookup tid' = some record')
    (hfunds : Funds hold record) (hfunds' : Funds hold record') : tid = tid' := by
  obtain ⟨_, _, honce⟩ := exists_fundedOnce horderly hhold actions [] (List.append_nil _).symm
  exact honce.funded_once tid record tid' record' hstored hstored' hfunds hfunds'

end Kuatia
