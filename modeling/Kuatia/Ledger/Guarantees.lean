import Kuatia.Ledger.Reading
import Kuatia.Ledger.Steps
import Kuatia.Ledger.System

/-! # Every operation keeps to the steps of the store

Whatever the other clients do between its actions, each operation moves the
store along `StoreStep`. The facts that a commit has validated on stale reads
are the ones that every later state keeps.
-/

namespace Kuatia

open Async LedgerM

variable [MoneyWidth] [Sha256]

/-- What the other clients may do between two actions. -/
def Interferes (before after : World) : Prop := Evolves before.store after.store

/-- What one action of a client does, when it commits only such envelopes. -/
def LedgerStep (submits : Envelope → Prop) (before after : World) : Prop :=
  StoreStep submits before.store after.store

variable {submits : Envelope → Prop} {state : World}

theorem environment : Environment Interferes (LedgerStep submits) where
  refl world := Evolves.refl world.store
  trans _ _ _ := Evolves.trans
  idle world _ := StoreStep.idle world.store

/-- An operation whose actions are all steps of the store. -/
abbrev Steps {α : Type} (submits : Envelope → Prop) (program : LedgerM α) (state : World) : Prop :=
  Keeps anyAction Interferes (LedgerStep submits) (fun _ _ => True) program state

theorem LedgerM.ReadOnly.steps {α : Type} {program : LedgerM α} (hprogram : ReadOnly program) :
    Steps submits program state :=
  hprogram _ _ environment state

/-- What a program returns is known together with how far the store has moved on. -/
theorem LedgerM.Keeps.since {α : Type}
    {assume : Async Choice World (Except LedgerError α) → Choice → World → Prop}
    {post : α → World → Prop} {program : LedgerM α}
    (hprogram : Keeps assume Interferes (LedgerStep submits) post program state) :
    Keeps assume Interferes (LedgerStep submits)
      (fun value later => post value later ∧ Evolves state.store later.store) program state := by
  have hframe := Guarantees.frame (fun later => Evolves state.store later.store) hprogram
    (fun a b (hrely : Evolves a.store b.store) hfact => hfact.trans hrely)
    (fun a b (hstep : StoreStep submits a.store b.store) hfact => hfact.trans (.of_step hstep))
    (Evolves.refl _)
  exact hframe.weakenPost fun _ _ ⟨hpost, hfact⟩ value heq => ⟨hpost value heq, hfact⟩

/-! ## Committing an envelope -/

/-- Facts about the loaded state that every later state keeps. -/
structure Loaded (store : InMemoryStore) (envelope : Envelope) (loaded : LoadedState) : Prop where
  consumed : List.Forall₂ (fun id posting => store.postings.immutable.lookup id = some posting)
    envelope.consumes loaded.consumedPostings
  accounts : ∀ id account, loaded.accounts.lookup id = some account → account ∈ store.versions id

theorem Loaded.later {before after : InMemoryStore} {envelope : Envelope} {loaded : LoadedState}
    (hloaded : Loaded before envelope loaded) (hevolves : Evolves before after) :
    Loaded after envelope loaded where
  consumed := hloaded.consumed.imp fun _ _ => hevolves.lookup_immutable
  accounts id account hlookup := hevolves.mem_versions (hloaded.accounts id account hlookup)

theorem getPostings_keeps (ids : List PostingId) :
    Keeps anyAction Interferes (LedgerStep submits) (fun postings later =>
      List.Forall₂ (fun id posting => later.store.postings.immutable.lookup id = some posting)
        ids postings) (getPostings ids) state := by
  unfold getPostings
  split
  next hnil =>
    subst hnil
    exact keeps_pure fun _ _ => .nil
  next =>
    refine keeps_bind environment (keeps_read environment fun middle _ choice _ last hlast => ?_)
    refine keeps_attempt fun postings hpostings later hlater => ?_
    rw [Except.mapError_eq_ok_iff, InMemoryStore.getPostings_eq_ok_iff] at hpostings
    exact hpostings.imp fun _ _ => (hlast.trans hlater).lookup_immutable

theorem getAccounts_keeps (ids : List AccountId) :
    Keeps anyAction Interferes (LedgerStep submits) (fun accounts later =>
      List.Forall₂ (fun id account => account ∈ later.store.versions id) ids accounts)
      (getAccounts ids) state := by
  refine keeps_bind environment (keeps_read environment fun middle _ choice _ last hlast => ?_)
  refine keeps_attempt fun accounts haccounts later hlater => ?_
  rw [Except.mapError_eq_ok_iff, InMemoryStore.getAccounts_eq_ok_iff] at haccounts
  exact haccounts.imp fun _ _ hlatest =>
    (hlast.trans hlater).mem_versions (InMemoryStore.mem_versions_of_latest hlatest)

omit [Sha256] in
/-- Accounts indexed by their own id are found under the id they were asked for. -/
theorem mem_versions_of_insertAll {store : InMemoryStore} (hwell : WellFormed store)
    {ids : List AccountId} {accounts : List Account}
    (hall : List.Forall₂ (fun id account => account ∈ store.versions id) ids accounts)
    {id : AccountId} {account : Account}
    (hlookup : (HashMap.insertAll ∅ (·.id) accounts).lookup id = some account) :
    account ∈ store.versions id := by
  obtain ⟨hmem, rfl⟩ | ⟨hold, _⟩ := HashMap.lookup_insertAll_cases hlookup
  · obtain ⟨id, _, hversion⟩ := hall.exists_of_mem_right hmem
    rwa [hwell.versions id account hversion]
  · cases hold

theorem load_keeps (envelope : Envelope) (hwell : WellFormed state.store) :
    Keeps anyAction Interferes (LedgerStep submits)
      (fun loaded later => Loaded later.store envelope loaded) (load envelope) state := by
  refine keeps_bind environment ((getPostings_keeps _).since.weaken ?_)
  rintro consumed first ⟨hconsumed, hfirst⟩
  refine keeps_bind environment ((getAccounts_keeps _).since.weaken ?_)
  rintro accounts second ⟨haccounts, hsecond⟩
  refine keeps_bind environment ((loadBalances_readOnly _).steps.since.weaken ?_)
  rintro balances third ⟨_, hthird⟩
  refine keeps_bind environment ((loadBook_readOnly _).steps.since.weaken ?_)
  rintro book fourth ⟨_, hfourth⟩
  refine keeps_pure fun last hlast => ⟨?_, fun id account hlookup => ?_⟩
  · exact hconsumed.imp fun _ _ =>
      (((hsecond.trans hthird).trans hfourth).trans hlast).lookup_immutable
  · refine ((hthird.trans hfourth).trans hlast).mem_versions ?_
    exact mem_versions_of_insertAll ((hfirst.trans hsecond).wellFormed hwell) haccounts hlookup

/-- A plan comes from an accepted validation of the loaded state. -/
theorem plan_eq_ok {order : IterationOrder} {envelope : Envelope} {loaded : LoadedState}
    {result : Plan} (hplan : plan order envelope loaded = .ok result) :
    result = planOf envelope ∧ ∃ consumed, Checked order ⟨envelope, loaded.consumedPostings,
      loaded.accounts, loaded.balances, loaded.book⟩ consumed := by
  unfold plan at hplan
  split at hplan
  next => cases hplan
  next =>
    rw [Except.mapError_eq_ok_iff, validateAndPlan_eq_ok_iff] at hplan
    exact ⟨hplan.2, hplan.1⟩

omit [Sha256] in
/-- The postings that validation has indexed are the ones that were loaded. -/
theorem finds_eq_consumed {store : InMemoryStore} (hwell : WellFormed store)
    {envelope : Envelope} {loaded : LoadedState} (hloaded : Loaded store envelope loaded)
    {input : PlanInput} (henvelope : input.envelope = envelope)
    (hconsumed : input.consumedPostings = loaded.consumedPostings) {consumed : List Posting}
    (hfinds : input.Finds consumed) : consumed = loaded.consumedPostings := by
  refine List.Forall₂.unique (f := store.postings.immutable.lookup) ?_ hloaded.consumed
  rw [← henvelope]
  refine hfinds.imp fun id posting hlookup => ?_
  obtain ⟨hmem, rfl⟩ | ⟨hold, _⟩ := HashMap.lookup_insertAll_cases hlookup
  · obtain ⟨id, _, hrecord⟩ := hloaded.consumed.exists_of_mem_right (hconsumed ▸ hmem)
    rwa [hwell.immutable id posting hrecord]
  · cases hold

/-- The request that a client hands over is validated against every later store. -/
theorem validated_of_plan {store : InMemoryStore} (hwell : WellFormed store)
    {envelope : Envelope} {loaded : LoadedState} (hloaded : Loaded store envelope loaded)
    {order : IterationOrder} {result : Plan} (hplan : plan order envelope loaded = .ok result)
    (ts : Int64) :
    Validated store (commitRequest envelope result loaded ts) loaded.consumedPostings := by
  obtain ⟨rfl, consumed, hchecked⟩ := plan_eq_ok hplan
  have hsame := finds_eq_consumed hwell hloaded rfl rfl hchecked.found
  subst hsame
  refine ⟨rfl, rfl, rfl, rfl, rfl, hchecked.nonEmpty, hchecked.nodup, hloaded.consumed, ?_, ?_,
    (checkConservation_eq_ok_iff.mp hchecked.conservation).2.2, ?_⟩
  · intro id
    have howners : (planOf envelope).postingsToCreate.map (·.owner) =
        envelope.creates.map (·.owner) := map_createdPostings _ _ fun owner _ _ => owner
    simp [commitRequest, involvedAccounts, howners]
  · intro snapshot hsnapshot
    obtain ⟨account, hlookup, hhash⟩ := hchecked.snapshots snapshot hsnapshot
    exact ⟨account, hloaded.accounts _ _ hlookup, hhash⟩
  · intro posting hposting hnegative
    obtain ⟨account, hlookup, hpermits⟩ := hchecked.negatives posting hposting hnegative
    exact ⟨account, hloaded.accounts _ _ hlookup, hpermits⟩

theorem compute_keeps {α : Type} (result : IterationOrder → Except LedgerError α) :
    Keeps anyAction Interferes (LedgerStep submits)
      (fun value _ => ∃ order, result order = .ok value) (compute result) state :=
  keeps_bind environment (keeps_read environment fun _ _ choice _ _ _ =>
    keeps_attempt fun _ hvalue _ _ => ⟨choice.order, hvalue⟩)

theorem commitPinned_keeps {envelope : Envelope} (hwell : WellFormed state.store)
    (hsubmits : submits envelope) : Steps submits (commitPinned envelope) state := by
  refine keeps_bind environment ((load_keeps envelope hwell).since.weaken ?_)
  rintro loaded first ⟨hloaded, hfirst⟩
  refine keeps_bind environment ((compute_keeps _).since.weaken ?_)
  rintro result second ⟨⟨order, hplan⟩, hsecond⟩
  refine keeps_bind environment (ReadOnly.nowMillis.steps.since.weaken ?_)
  rintro ts third ⟨_, hthird⟩
  refine keeps_bind environment (keeps_act fun fourth hfourth choice _ => ⟨?_, fun _ _ => ?_⟩)
  · have hmoved : Evolves first.store fourth.store := hsecond.trans (hthird.trans hfourth)
    have hvalid := validated_of_plan ((hfirst.trans hmoved).wellFormed hwell)
      (hloaded.later hmoved) hplan ts
    exact .commit choice.order choice.clock hvalid hsubmits
  · exact ((ReadOnly.attempt _).bind fun _ => .attempt _).steps

theorem commitUnlessStored_keeps {envelope : Envelope} (hwell : WellFormed state.store)
    (hsubmits : submits envelope) : Steps submits (commitUnlessStored envelope) state := by
  refine keeps_bind environment ((ReadOnly.read _).steps.since.weaken ?_)
  rintro existing later ⟨_, hlater⟩
  cases existing with
  | some record => exact (ReadOnly.pure _).steps
  | none => exact commitPinned_keeps (hlater.wellFormed hwell) hsubmits

/-- Whatever the pinning step may return has to be allowed. -/
theorem commitEnvelope_keeps
    {assume : Async Choice World (Except LedgerError Receipt) → Choice → World → Prop}
    {envelope : Envelope} (hwell : WellFormed state.store)
    (hpin : Keeps (fun first => assume (first >>= continueWith commitUnlessStored)) Interferes
      (LedgerStep submits) (fun pinned _ => submits pinned) (pinSnapshots envelope) state) :
    Keeps assume Interferes (LedgerStep submits) (fun _ _ => True) (commitEnvelope envelope)
      state := by
  refine keeps_bind environment (hpin.since.weaken ?_)
  rintro pinned later ⟨hpinned, hlater⟩
  exact (commitUnlessStored_keeps (hlater.wellFormed hwell) hpinned).assuming

/-- `Pinned envelope pinned`: what `commitEnvelope` makes of an envelope before
it computes its id. -/
def Pinned (envelope pinned : Envelope) : Prop :=
  if envelope.accountSnapshots = [] then
    ∃ snapshots, pinned = envelope.setAccountSnapshots snapshots
  else pinned = envelope

theorem pinSnapshots_keeps (envelope : Envelope) :
    Keeps anyAction Interferes (LedgerStep submits) (fun pinned _ => Pinned envelope pinned)
      (pinSnapshots envelope) state := by
  unfold pinSnapshots Pinned
  split
  next =>
    refine keeps_bind environment ((resolveSnapshots_readOnly _).steps.weaken ?_)
    exact fun snapshots _ _ => keeps_pure fun _ _ => ⟨snapshots, rfl⟩
  next => exact keeps_pure fun _ _ => rfl

theorem commitEnvelope_steps (envelope : Envelope) (hwell : WellFormed state.store)
    (hsubmits : ∀ pinned, Pinned envelope pinned → submits pinned) :
    Steps submits (commitEnvelope envelope) state :=
  commitEnvelope_keeps hwell ((pinSnapshots_keeps envelope).weaken fun pinned _ => hsubmits pinned)

theorem commit_steps (transfer : Transfer) (hwell : WellFormed state.store)
    (hsubmits : ∀ envelope, submits envelope) : Steps submits (commit transfer) state := by
  refine keeps_bind environment ((resolve_readOnly transfer).steps.since.weaken ?_)
  rintro envelope later ⟨_, hlater⟩
  exact commitEnvelope_steps envelope (hlater.wellFormed hwell) fun pinned _ => hsubmits pinned

theorem reverse_steps (id : EnvelopeId) (hwell : WellFormed state.store)
    (hsubmits : ∀ envelope, submits envelope) : Steps submits (reverse id) state := by
  refine keeps_bind environment ((ReadOnly.read _).steps.since.weaken ?_)
  rintro record first ⟨_, hfirst⟩
  cases record with
  | none => exact (ReadOnly.throw _).steps
  | some record =>
      refine keeps_bind environment ((getPostings_readOnly _).steps.since.weaken ?_)
      rintro consumed second ⟨_, hsecond⟩
      exact commitEnvelope_steps _ ((hfirst.trans hsecond).wellFormed hwell)
        fun pinned _ => hsubmits pinned

/-! ## Accounts, books and cache points -/

theorem createAccount_steps (account : Account) : Steps submits (createAccount account) state := by
  refine keeps_bind environment (keeps_act fun later _ choice _ =>
    ⟨.createAccount account later.store, fun _ _ => ?_⟩)
  split
  next => exact (ReadOnly.throw _).steps
  next =>
    refine keeps_bind environment (ReadOnly.nowMillis.steps.weaken fun now _ _ => ?_)
    refine keeps_bind environment (keeps_act fun later _ choice _ =>
      ⟨.accountCreated choice.clock 0 now account.id later.store, fun _ _ => ?_⟩)
    exact (ReadOnly.pure _).steps

theorem createBook_steps (book : Book) : Steps submits (createBook book) state := by
  refine keeps_bind environment (keeps_act fun later _ choice _ =>
    ⟨.createBook book later.store, fun _ _ => ?_⟩)
  split
  next => exact (ReadOnly.throw _).steps
  next => exact (ReadOnly.pure _).steps

theorem transition_steps (id : AccountId) (change : LifecycleChange)
    (hwell : WellFormed state.store) : Steps submits (transition id change) state := by
  refine keeps_bind environment (keeps_read environment fun start hstart _ _ first hfirst => ?_)
  refine keeps_bind environment (keeps_attempt fun current hcurrent second hsecond => ?_)
  rw [Except.mapError_eq_ok_iff, InMemoryStore.getAccount_eq_ok_iff] at hcurrent
  have hread := InMemoryStore.mem_versions_of_latest hcurrent
  have hid := (Evolves.wellFormed hstart hwell).versions id current hread
  have hmem : current ∈ first.store.versions current.id :=
    hid.symm ▸ Evolves.mem_versions hfirst hread
  split
  next => exact (ReadOnly.throw _).steps
  next hopen =>
    split
    next => exact (ReadOnly.throw _).steps
    next hroom =>
      refine keeps_bind environment (ReadOnly.nowMillis.steps.since.weaken ?_)
      rintro now third ⟨_, hthird⟩
      refine keeps_bind environment (keeps_act fun fourth hfourth choice _ => ⟨?_, fun _ _ => ?_⟩)
      · have hmoved : Evolves first.store fourth.store :=
          Evolves.trans hsecond (hthird.trans hfourth)
        subst hid
        exact .transition choice.clock change current 0 now (hmoved.mem_versions hmem)
          (by simpa using hopen) hroom
      · exact ((ReadOnly.attempt _).bind fun _ => .attempt _).steps

theorem close_steps (id : AccountId) (hwell : WellFormed state.store) :
    Steps submits (close id) state := by
  refine keeps_bind environment ((hasLivePostings_readOnly id).steps.since.weaken ?_)
  rintro live later ⟨_, hlater⟩
  split
  next => exact (ReadOnly.throw _).steps
  next => exact transition_steps id .close (hlater.wellFormed hwell)

theorem appendCachePointWith_steps (graceMs : Int64) (minNew : UInt64) (debounceMs : Int64)
    (account : AccountId) (asset : AssetId) :
    Steps submits (appendCachePointWith graceMs minNew debounceMs account asset) state := by
  have happend : ∀ snapshot fromTs watermark later, Steps submits
      (appendCachePointWith.appendFrom minNew account asset snapshot fromTs watermark) later := by
    intro snapshot fromTs watermark later
    refine keeps_bind environment ((foldTail_readOnly _ _ _ _).steps.weaken fun delta _ _ => ?_)
    split
    next => exact (ReadOnly.pure _).steps
    next =>
      refine keeps_bind environment (keeps_attempt fun balance _ _ _ => ?_)
      exact keeps_act fun later _ choice _ =>
        ⟨.project choice.clock account asset balance watermark later.store, fun _ _ => trivial⟩
  refine keeps_bind environment (ReadOnly.nowMillis.steps.weaken fun now _ _ => ?_)
  refine keeps_bind environment ((ReadOnly.read _).steps.weaken fun closest _ _ => ?_)
  cases closest with
  | none => exact happend _ _ _ _
  | some point =>
      dsimp only
      split
      next => exact (ReadOnly.pure _).steps
      next =>
        split
        next => exact (ReadOnly.pure _).steps
        next => exact happend _ _ _ _

/-! ## Every request -/

theorem Steps.andThen {α β : Type} {program : LedgerM α} {rest : α → β}
    (hprogram : Steps submits program state) :
    Steps submits (do let value ← program; return rest value) state :=
  keeps_bind environment (hprogram.weaken fun _ _ _ => (ReadOnly.pure _).steps)

/-- Whatever is asked for, the answer is computed in steps of the store. -/
theorem operation_steps (ledger : Ledger) (request : Request) (hwell : WellFormed state.store)
    (hsubmits : ∀ envelope, submits envelope) :
    Steps submits (ledger.operation request) state := by
  cases request with
  | createAccount account => exact (createAccount_steps account).andThen
  | createBook book => exact (createBook_steps book).andThen
  | resolve transfer => exact (resolve_readOnly transfer).steps.andThen
  | commit transfer => exact (commit_steps transfer hwell hsubmits).andThen
  | commitEnvelope envelope =>
      exact (commitEnvelope_steps envelope hwell fun pinned _ => hsubmits pinned).andThen
  | reverse id => exact (reverse_steps id hwell hsubmits).andThen
  | freeze id => exact (transition_steps id .freeze hwell).andThen
  | unfreeze id => exact (transition_steps id .unfreeze hwell).andThen
  | close id => exact (close_steps id hwell).andThen
  | computeBalance account asset => exact (computeBalance_readOnly account asset).steps.andThen
  | balance account asset => exact (balance_readOnly account asset).steps.andThen
  | spawnAppend account asset => exact (appendCachePointWith_steps _ _ _ account asset).andThen
  | appendCachePoint account asset => exact (appendCachePointWith_steps _ _ _ account asset).andThen

end Kuatia
