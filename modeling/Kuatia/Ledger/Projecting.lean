import Kuatia.Ledger.CachedBalance

/-! # Who appends cache points

Only the append of a cache point writes to the projections. The other operations
leave them as they are, whatever happens in between.
-/

namespace Kuatia

open Async Interleaving LedgerM

variable [MoneyWidth]

/-- The cache points are what they were. -/
def SamePoints (before after : World) : Prop := after.store.projections = before.store.projections

/-- No action of the program touches a cache point. -/
def Unprojecting {α : Type} (program : LedgerM α) : Prop :=
  ∀ state, Keeps anyAction (fun _ _ => True) SamePoints (fun _ _ => True) program state

theorem environment_samePoints : Environment (fun _ _ => True) SamePoints where
  refl _ := trivial
  trans _ _ _ _ _ := trivial
  idle _ _ := rfl

namespace Unprojecting

variable {α β : Type}

theorem of_readOnly {program : LedgerM α} (hprogram : ReadOnly program) : Unprojecting program :=
  fun state => hprogram _ _ environment_samePoints state

theorem bind {program : LedgerM α} {rest : α → LedgerM β} (hprogram : Unprojecting program)
    (hrest : ∀ value, Unprojecting (rest value)) : Unprojecting (program >>= rest) :=
  fun state => keeps_bind environment_samePoints
    ((hprogram state).weaken fun value later _ => hrest value later)

theorem act {body : Choice → InMemoryStore → α × InMemoryStore}
    (hbody : ∀ choice store, (body choice store).2.projections = store.projections) :
    Unprojecting (act body) :=
  fun _ => keeps_act fun later _ choice _ => ⟨hbody choice later.store, fun _ _ => trivial⟩

theorem andThen {program : LedgerM α} {rest : α → β} (hprogram : Unprojecting program) :
    Unprojecting (do let value ← program; return rest value) :=
  hprogram.bind fun _ => of_readOnly (.pure _)

end Unprojecting

/-! ## What writes elsewhere -/

section Elsewhere

variable (store : InMemoryStore) (clock : Clock)

theorem createAccount_projections (account : Account) :
    (store.createAccount account).2.projections = store.projections := by
  unfold InMemoryStore.createAccount
  split <;> rfl

theorem createBook_projections (book : Book) :
    (store.createBook book).2.projections = store.projections := by
  unfold InMemoryStore.createBook
  split <;> rfl

theorem appendEvent_projections (event : LedgerEvent) :
    (store.appendEvent clock event).2.projections = store.projections := by
  rw [InMemoryStore.appendEvent_store]
  exact InMemoryStore.appendEventLocked_projections ..

theorem commitEnvelope_projections (order : IterationOrder) (req : CommitRequest) :
    (store.commitEnvelope order clock req).2.projections = store.projections := by
  obtain ⟨hsame, _⟩ | ⟨_, _, heq⟩ := store.commitEnvelope_cases order clock req
  · rw [hsame]
  · rw [heq]
    exact InMemoryStore.applyCommit_projections ..

theorem commitTransition_projections (next : Account) (event : LedgerEvent) :
    (store.commitTransition clock next event).2.projections = store.projections := by
  obtain ⟨hsame, _⟩ | ⟨heq, _⟩ | ⟨_, _, _, _, _, heq⟩ :=
    store.commitTransition_cases clock next event
  · rw [hsame]
  · rw [heq]
    exact InMemoryStore.appendEventLocked_projections ..
  · rw [heq]
    exact InMemoryStore.appendEventLocked_projections ..

end Elsewhere

namespace InMemoryStore

variable {store : InMemoryStore} {clock : Clock} {account : AccountId} {asset : AssetId}
  {balance : Cent} {watermark : Int64}

/-- One point is appended, to those of its account and asset. -/
theorem pointsOf_appendBalanceProjection (key : BalanceKey) :
    (store.appendBalanceProjection clock account asset balance watermark).pointsOf key =
      store.pointsOf key ++ if key = (account, asset) then
        [⟨(AutoId.next clock store.autoid).1, account, asset, balance, watermark⟩] else [] := by
  rw [pointsOf, appendBalanceProjection, pointsOf]
  dsimp only
  rw [HashMap.lookup_insert_eq]
  split
  next heq => rw [heq]; rfl
  next => rw [List.append_nil]

end InMemoryStore

/-- A step leaves the cache points alone, or appends one. -/
theorem StoreStep.projections_cases [Sha256] {submits : Envelope → Prop}
    {before after : InMemoryStore} (hstep : StoreStep submits before after) :
    after.projections = before.projections ∨ ∃ clock account asset balance watermark,
      after = before.appendBalanceProjection clock account asset balance watermark := by
  cases hstep with
  | idle => exact .inl rfl
  | createAccount account => exact .inl (createAccount_projections ..)
  | createBook book => exact .inl (createBook_projections ..)
  | accountCreated clock seq timestamp account => exact .inl (appendEvent_projections ..)
  | project clock account asset balance watermark =>
      exact .inr ⟨clock, account, asset, balance, watermark, rfl⟩
  | transition clock change current seq timestamp => exact .inl (commitTransition_projections ..)
  | commit order clock => exact .inl (commitEnvelope_projections ..)

section Operations

variable [Sha256]

theorem commitEnvelope_unprojecting (envelope : Envelope) :
    Unprojecting (commitEnvelope envelope) := by
  refine (Unprojecting.of_readOnly (pinSnapshots_readOnly envelope)).bind fun pinned => ?_
  refine (Unprojecting.of_readOnly (.read _)).bind fun existing => ?_
  cases existing with
  | some record => exact .of_readOnly (.pure _)
  | none =>
      refine (Unprojecting.of_readOnly (load_readOnly pinned)).bind fun loaded => ?_
      refine (Unprojecting.of_readOnly (.compute _)).bind fun result => ?_
      refine (Unprojecting.of_readOnly .nowMillis).bind fun ts => ?_
      exact (Unprojecting.act fun _ _ => commitEnvelope_projections ..).bind fun _ =>
        .of_readOnly ((ReadOnly.attempt _).bind fun _ => .attempt _)

theorem reverse_unprojecting (id : EnvelopeId) : Unprojecting (reverse id) := by
  refine (Unprojecting.of_readOnly (.read _)).bind fun record => ?_
  cases record with
  | none => exact .of_readOnly (.throw _)
  | some record =>
      exact (Unprojecting.of_readOnly (getPostings_readOnly _)).bind fun _ =>
        commitEnvelope_unprojecting _

omit [Sha256] in
theorem createAccount_unprojecting (account : Account) : Unprojecting (createAccount account) := by
  refine (Unprojecting.act fun _ _ => createAccount_projections ..).bind fun inserted => ?_
  split
  next => exact .of_readOnly (.throw _)
  next =>
    refine (Unprojecting.of_readOnly .nowMillis).bind fun now => ?_
    exact (Unprojecting.act fun _ _ => appendEvent_projections ..).bind fun _ =>
      .of_readOnly (.pure _)

omit [Sha256] in
theorem createBook_unprojecting (book : Book) : Unprojecting (createBook book) := by
  refine (Unprojecting.act fun _ _ => createBook_projections ..).bind fun inserted => ?_
  split
  next => exact .of_readOnly (.throw _)
  next => exact .of_readOnly (.pure _)

omit [Sha256] in
theorem transition_unprojecting (id : AccountId) (change : LifecycleChange) :
    Unprojecting (transition id change) := by
  refine (Unprojecting.of_readOnly (.read _)).bind fun found => ?_
  refine (Unprojecting.of_readOnly (.attempt _)).bind fun current => ?_
  split
  next => exact .of_readOnly (.throw _)
  next =>
    split
    next => exact .of_readOnly (.throw _)
    next =>
      refine (Unprojecting.of_readOnly .nowMillis).bind fun now => ?_
      exact (Unprojecting.act fun _ _ => commitTransition_projections ..).bind fun _ =>
        .of_readOnly ((ReadOnly.attempt _).bind fun _ => .attempt _)

omit [Sha256] in
theorem close_unprojecting (id : AccountId) : Unprojecting (close id) := by
  refine (Unprojecting.of_readOnly (hasLivePostings_readOnly id)).bind fun live => ?_
  split
  next => exact .of_readOnly (.throw _)
  next => exact transition_unprojecting id .close

/-- The account and asset that a request appends a cache point for. -/
def Request.projected : Request → Option BalanceKey
  | .spawnAppend account asset | .appendCachePoint account asset => some (account, asset)
  | _ => none

/-- Any other request leaves the cache points alone. -/
theorem operation_unprojecting (ledger : Ledger) (request : Request)
    (hrequest : request.projected = none) : Unprojecting (ledger.operation request) := by
  cases request with
  | createAccount account => exact (createAccount_unprojecting account).andThen
  | createBook book => exact (createBook_unprojecting book).andThen
  | resolve transfer => exact (Unprojecting.of_readOnly (resolve_readOnly transfer)).andThen
  | commit transfer =>
      exact ((Unprojecting.of_readOnly (resolve_readOnly transfer)).bind
        commitEnvelope_unprojecting).andThen
  | commitEnvelope envelope => exact (commitEnvelope_unprojecting envelope).andThen
  | reverse id => exact (reverse_unprojecting id).andThen
  | freeze id => exact (transition_unprojecting id .freeze).andThen
  | unfreeze id => exact (transition_unprojecting id .unfreeze).andThen
  | close id => exact (close_unprojecting id).andThen
  | computeBalance account asset =>
      exact (Unprojecting.of_readOnly (computeBalance_readOnly account asset)).andThen
  | balance account asset =>
      exact (Unprojecting.of_readOnly (balance_readOnly account asset)).andThen
  | spawnAppend account asset => cases hrequest
  | appendCachePoint account asset => cases hrequest

end Operations

end Kuatia
