import Kuatia.Core.ValidateLaws
import Kuatia.Storage.MemStoreLaws
import Kuatia.Ledger.Lifecycle

/-! # The steps of the shared store

`StoreStep` lists everything that one action of one client can do to the store,
with what the client has established beforehand. Validation happens on stale
reads, so a validated request carries only facts that later steps keep: the
immutable records and the account versions it has seen are still there.
-/

namespace Kuatia

variable [MoneyWidth] [Sha256]

/-- What the client of a commit has established when it calls the store. -/
structure Validated (store : InMemoryStore) (req : CommitRequest) (consumed : List Posting) :
    Prop where
  transferId : req.transferId = envelopeId req.record.envelope
  receipt : req.record.receipt = ⟨req.transferId⟩
  consume : req.consume = req.record.envelope.consumes
  create : req.create = createdPostings req.transferId req.record.envelope.creates
  event : req.event.kind = .transferCommitted req.transferId
  nonEmpty : req.record.envelope.consumes ≠ [] ∨ req.record.envelope.creates ≠ []
  nodup : req.record.envelope.consumes.Nodup
  found : List.Forall₂ (fun id posting => store.postings.immutable.lookup id = some posting)
    req.record.envelope.consumes consumed
  involved : ∀ id, id ∈ req.involved ↔
    (∃ posting ∈ req.record.envelope.creates, posting.owner = id) ∨
      ∃ posting ∈ consumed, posting.owner = id
  pinned : ∀ snapshot ∈ req.record.envelope.accountSnapshots,
    ∃ account ∈ store.versions snapshot.account, snapshot.snapshotId = accountHash account
  balanced : ∀ asset, keyTotal Posting.asset Posting.value consumed asset =
    keyTotal NewPosting.asset NewPosting.value req.record.envelope.creates asset
  negatives : ∀ posting ∈ req.record.envelope.creates, posting.value.val < 0 →
    ∃ account ∈ store.versions posting.owner, account.forbidsOverdraft = false

/-- One action on the store. `submits` says which envelopes the client commits. -/
inductive StoreStep (submits : Envelope → Prop) : InMemoryStore → InMemoryStore → Prop where
  | idle (store : InMemoryStore) : StoreStep submits store store
  | createAccount (account : Account) (store : InMemoryStore) :
      StoreStep submits store (store.createAccount account).2
  | createBook (book : Book) (store : InMemoryStore) :
      StoreStep submits store (store.createBook book).2
  | accountCreated (clock : Clock) (seq : UInt64) (timestamp : Int64) (account : AccountId)
      (store : InMemoryStore) :
      StoreStep submits store
        (store.appendEvent clock ⟨seq, timestamp, .accountCreated account⟩).2
  | project (clock : Clock) (account : AccountId) (asset : AssetId) (balance : Cent)
      (watermark : Int64) (store : InMemoryStore) :
      StoreStep submits store (store.appendBalanceProjection clock account asset balance watermark)
  | transition (clock : Clock) (change : LifecycleChange) (current : Account) (seq : UInt64)
      (timestamp : Int64) {store : InMemoryStore} (hread : current ∈ store.versions current.id)
      (hopen : current.isClosed = false) (hroom : current.version.toNat + 1 ≠ 2 ^ 64) :
      StoreStep submits store (store.commitTransition clock (change.nextVersion current)
        ⟨seq, timestamp, change.makeEvent current.id (change.nextVersion current).version⟩).2
  | commit (order : IterationOrder) (clock : Clock) {req : CommitRequest}
      {consumed : List Posting} {store : InMemoryStore} (hvalid : Validated store req consumed)
      (hsubmits : submits req.record.envelope) :
      StoreStep submits store (store.commitEnvelope order clock req).2

namespace StoreStep

variable {submits submits' : Envelope → Prop} {before after : InMemoryStore}

theorem mono (hstep : StoreStep submits before after)
    (hsubmits : ∀ envelope, submits envelope → submits' envelope) :
    StoreStep submits' before after := by
  cases hstep with
  | idle => exact .idle _
  | createAccount account => exact .createAccount account _
  | createBook book => exact .createBook book _
  | accountCreated clock seq timestamp account => exact .accountCreated clock seq timestamp account _
  | project clock account asset balance watermark =>
      exact .project clock account asset balance watermark _
  | transition clock change current seq timestamp hread hopen hroom =>
      exact .transition clock change current seq timestamp hread hopen hroom
  | commit order clock hvalid hsubmit => exact .commit order clock hvalid (hsubmits _ hsubmit)

/-- A step leaves the postings and the stored transfers alone, or it applies one
validated transfer that was not stored. -/
theorem postings_cases (hstep : StoreStep submits before after) :
    (after.postings = before.postings ∧ after.transfers = before.transfers ∧
      after.transferAccounts = before.transferAccounts) ∨
    ∃ order clock req consumed, Validated before req consumed ∧ submits req.record.envelope ∧
      req.transferId ∉ before.transfers ∧ before.commitGuards order req = .ok () ∧
      after = before.applyCommit clock req := by
  cases hstep with
  | idle => exact .inl ⟨rfl, rfl, rfl⟩
  | createAccount account =>
      left
      unfold InMemoryStore.createAccount
      split <;> exact ⟨rfl, rfl, rfl⟩
  | createBook book =>
      left
      unfold InMemoryStore.createBook
      split <;> exact ⟨rfl, rfl, rfl⟩
  | accountCreated clock seq timestamp account =>
      left
      simp [InMemoryStore.appendEvent_store]
  | project => exact .inl ⟨rfl, rfl, rfl⟩
  | transition clock change current seq timestamp hread hopen hroom =>
      left
      obtain ⟨hsame, _⟩ | ⟨heq, _⟩ | ⟨_, _, _, _, _, heq⟩ :=
        before.commitTransition_cases clock (change.nextVersion current)
          ⟨seq, timestamp, change.makeEvent current.id (change.nextVersion current).version⟩
      · simp [hsame]
      · simp [heq]
      · simp [heq]
  | commit order clock hvalid hsubmits =>
      obtain ⟨hsame, _⟩ | ⟨hfresh, hguards, heq⟩ :=
        before.commitEnvelope_cases order clock _
      · left
        rw [hsame]
        exact ⟨rfl, rfl, rfl⟩
      · exact .inr ⟨order, clock, _, _, hvalid, hsubmits, hfresh, hguards, by rw [heq]⟩

/-- A step leaves the versions of an account alone, or it appends one: the
first one, or one that a lifecycle change derives from the latest. -/
theorem versions_cases (hstep : StoreStep submits before after) (id : AccountId) :
    after.versions id = before.versions id ∨
    (∃ account, account.id = id ∧ before.versions id = [] ∧ after.versions id = [account]) ∨
    ∃ current change seen, before.latest id = some current ∧ seen ∈ before.versions id ∧
      seen.id = id ∧ current.isClosed = false ∧ seen.version = current.version ∧
      current.version.toNat + 1 < 2 ^ 64 ∧
      after.versions id = before.versions id ++ [LifecycleChange.nextVersion change seen] := by
  cases hstep with
  | idle => exact .inl rfl
  | createAccount account =>
      obtain hsame | ⟨rfl, hnone, hnew⟩ := before.versions_createAccount account id
      · exact .inl hsame
      · exact .inr (.inl ⟨account, rfl, hnone, hnew⟩)
  | createBook book =>
      left
      unfold InMemoryStore.createBook
      split <;> rfl
  | accountCreated clock seq timestamp account =>
      left
      exact InMemoryStore.versions_congr (by simp [InMemoryStore.appendEvent_store]) id
  | project => exact .inl rfl
  | transition clock change current seq timestamp hread hopen hroom =>
      obtain ⟨hsame, _⟩ | ⟨heq, _⟩ | ⟨latest, hlatest, hclosed, hversion, hroom, heq⟩ :=
        before.commitTransition_cases clock (change.nextVersion current)
          ⟨seq, timestamp, change.makeEvent current.id (change.nextVersion current).version⟩
      · exact .inl (by rw [hsame])
      · left
        exact InMemoryStore.versions_congr (by simp [heq]) id
      · by_cases hid : id = current.id
        · subst hid
          -- the version read may be old, but its number is that of the latest one
          have hsame : current.version = latest.version := by
            have : current.version + 1 = latest.version + 1 := hversion
            simpa using this
          refine .inr (.inr ⟨latest, change, current, hlatest, hread, rfl, hclosed, hsame, hroom, ?_⟩)
          rw [heq]
          simp [InMemoryStore.versions, LifecycleChange.nextVersion]
        · left
          rw [heq]
          have hne : id ≠ (change.nextVersion current).id := hid
          simp [InMemoryStore.versions, hne]
  | commit order clock hvalid hsubmits =>
      left
      obtain ⟨hsame, _⟩ | ⟨_, _, heq⟩ := before.commitEnvelope_cases order clock _
      · rw [hsame]
      · exact InMemoryStore.versions_congr (by simp [heq]) id

theorem versions_prefix (hstep : StoreStep submits before after) (id : AccountId) :
    before.versions id <+: after.versions id := by
  obtain hsame | ⟨_, _, hnone, hnew⟩ | ⟨_, _, _, _, _, _, _, _, _, hnew⟩ := hstep.versions_cases id
  · rw [hsame]
  · rw [hnone]
    exact List.nil_prefix
  · rw [hnew]
    exact List.prefix_append _ _

theorem lookup_immutable (hstep : StoreStep submits before after) {id : PostingId}
    {posting : Posting} (hlookup : before.postings.immutable.lookup id = some posting) :
    after.postings.immutable.lookup id = some posting := by
  obtain ⟨hpostings, _⟩ | ⟨_, _, _, _, _, _, _, _, rfl⟩ := hstep.postings_cases
  · rwa [hpostings]
  · rw [InMemoryStore.applyCommit_immutable]
    exact InMemoryStore.lookup_insertMissing_of_mem hlookup

theorem lookup_transfers (hstep : StoreStep submits before after) {tid : EnvelopeId}
    {record : EnvelopeRecord} (hlookup : before.transfers.lookup tid = some record) :
    after.transfers.lookup tid = some record := by
  obtain ⟨_, htransfers, _⟩ | ⟨_, _, req, _, _, _, hfresh, _, rfl⟩ := hstep.postings_cases
  · rwa [htransfers]
  · have hne : tid ≠ req.transferId := fun heq =>
      hfresh (heq ▸ HashMap.mem_iff_exists_lookup.mpr ⟨record, hlookup⟩)
    rw [InMemoryStore.applyCommit_transfers, HashMap.lookup_insert_eq, if_neg hne, hlookup]

end StoreStep

/-! ## What every later state keeps -/

/-- Everything that any clients can do to the store, in any number of steps. -/
def Evolves : InMemoryStore → InMemoryStore → Prop :=
  Relation.ReflTransGen (StoreStep fun _ => True)

namespace Evolves

variable {before after : InMemoryStore}

theorem refl (store : InMemoryStore) : Evolves store store := Relation.ReflTransGen.refl

theorem trans {a b c : InMemoryStore} (hfirst : Evolves a b) (hsecond : Evolves b c) :
    Evolves a c := Relation.ReflTransGen.trans hfirst hsecond

theorem of_step {submits : Envelope → Prop} (hstep : StoreStep submits before after) :
    Evolves before after := .single (hstep.mono fun _ _ => trivial)

/-- A property that every step keeps is kept. -/
theorem keep (inv : InMemoryStore → Prop)
    (hkeep : ∀ a b, StoreStep (fun _ => True) a b → inv a → inv b)
    (hevolves : Evolves before after) (hinv : inv before) : inv after := by
  induction hevolves with
  | refl => exact hinv
  | tail _ hstep ih => exact hkeep _ _ hstep ih

theorem lookup_immutable (hevolves : Evolves before after) {id : PostingId} {posting : Posting}
    (hlookup : before.postings.immutable.lookup id = some posting) :
    after.postings.immutable.lookup id = some posting :=
  hevolves.keep (fun store => store.postings.immutable.lookup id = some posting)
    (fun _ _ hstep => hstep.lookup_immutable) hlookup

theorem lookup_transfers (hevolves : Evolves before after) {tid : EnvelopeId}
    {record : EnvelopeRecord} (hlookup : before.transfers.lookup tid = some record) :
    after.transfers.lookup tid = some record :=
  hevolves.keep (fun store => store.transfers.lookup tid = some record)
    (fun _ _ hstep => hstep.lookup_transfers) hlookup

theorem mem_versions (hevolves : Evolves before after) {id : AccountId} {account : Account}
    (hmem : account ∈ before.versions id) : account ∈ after.versions id :=
  hevolves.keep (fun store => account ∈ store.versions id)
    (fun _ _ hstep hmem => (hstep.versions_prefix id).subset hmem) hmem

end Evolves

/-! ## Records are stored under their own ids -/

/-- Every posting record and every account version is filed under its own id. -/
structure WellFormed (store : InMemoryStore) : Prop where
  immutable : ∀ id posting, store.postings.immutable.lookup id = some posting → posting.id = id
  versions : ∀ id, ∀ account ∈ store.versions id, account.id = id

omit [Sha256] in
theorem wellFormed_new : WellFormed InMemoryStore.new where
  immutable _ _ hlookup := by cases hlookup
  versions _ _ hmem := by cases hmem

theorem StoreStep.wellFormed {submits : Envelope → Prop} {before after : InMemoryStore}
    (hstep : StoreStep submits before after) (hwell : WellFormed before) : WellFormed after where
  immutable id posting hlookup := by
    obtain ⟨hpostings, _⟩ | ⟨_, _, _, _, _, _, _, _, rfl⟩ := hstep.postings_cases
    · exact hwell.immutable id posting (hpostings ▸ hlookup)
    · rw [InMemoryStore.applyCommit_immutable] at hlookup
      obtain hold | ⟨_, hid⟩ := InMemoryStore.lookup_insertMissing_cases hlookup
      · exact hwell.immutable id posting hold
      · exact hid
  versions id account hmem := by
    obtain hsame | ⟨first, hid, _, hnew⟩ | ⟨_, change, seen, _, _, hseen, _, _, _, hnew⟩ :=
      hstep.versions_cases id
    · exact hwell.versions id account (hsame ▸ hmem)
    · rw [hnew] at hmem
      rw [List.mem_singleton.mp hmem, hid]
    · rw [hnew] at hmem
      rcases List.mem_append.mp hmem with hold | hlast
      · exact hwell.versions id account hold
      · rw [List.mem_singleton.mp hlast]
        exact hseen

theorem Evolves.wellFormed {before after : InMemoryStore} (hevolves : Evolves before after)
    (hwell : WellFormed before) : WellFormed after :=
  hevolves.keep WellFormed (fun _ _ hstep => hstep.wellFormed) hwell

end Kuatia
