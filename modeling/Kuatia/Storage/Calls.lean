import Kuatia.Storage.PostingStore
import Kuatia.Storage.Sample

/-! # Runs of the in-memory store

A run is a list of calls with any arguments, from the empty store. The posting
tables stay sound and spent postings stay spent exactly as long as no commit
creates a posting over a record that differs or is no longer active.
-/

namespace Kuatia

open InMemoryStore

section Theory

variable [MoneyWidth]

namespace InMemoryStore

/-- The number of appended rows: a version that does not extend the chain is left out. -/
def appendAccountVersion (account : Account) (store : InMemoryStore) :
    Except StoreError Nat × InMemoryStore :=
  match store.accounts.lookup account.id with
  | none => (.ok 0, store)
  | some versions =>
      let current := (versions.getLast?.map (·.version)).getD 0
      if current.toNat + 1 = 2 ^ 64 then
        (.error (.internal "account version overflow"), store)
      else if account.version ≠ current + 1 then (.ok 0, store)
      else (.ok 1, { store with
        accounts := store.accounts.insert account.id (versions ++ [account]) })

/-- Index the transfer under the given accounts, and store it unless it is stored. -/
def storeTransfer (record : EnvelopeRecord) (involved : List AccountId) (store : InMemoryStore) :
    Nat × InMemoryStore :=
  let id := record.receipt.transferId
  let indexed := { store with transferAccounts := store.transferAccounts.insert id involved }
  if id ∈ store.transfers then (0, indexed)
  else (1, { indexed with transfers := store.transfers.insert id record })

end InMemoryStore

/-- A call of an operation that may change the store. -/
inductive StoreCall where
  | createAccount (account : Account)
  | appendAccountVersion (account : Account)
  | insertPostings (postings : List Posting)
  | reservePostings (ids : List PostingId) (reservation : ReservationId)
  | releasePostings (ids : List PostingId) (reservation : ReservationId)
  | deactivatePostings (ids : List PostingId) (reservation : Option ReservationId)
  | storeTransfer (record : EnvelopeRecord) (involved : List AccountId)
  | commitEnvelope (order : IterationOrder) (clock : Clock) (req : CommitRequest)
  | commitTransition (clock : Clock) (next : Account) (event : LedgerEvent)
  | appendEvent (clock : Clock) (event : LedgerEvent)
  | createBook (book : Book)
  | appendBalanceProjection (clock : Clock) (account : AccountId) (asset : AssetId)
      (balance : Cent) (watermark : Int64)

namespace StoreCall

/-- The store after a call. -/
def apply (store : InMemoryStore) : StoreCall → InMemoryStore
  | createAccount account => (store.createAccount account).2
  | appendAccountVersion account => (store.appendAccountVersion account).2
  | insertPostings postings => (store.insertPostings postings).2
  | reservePostings ids reservation => (store.reservePostings ids reservation).2
  | releasePostings ids reservation => (store.releasePostings ids reservation).2
  | deactivatePostings ids reservation => (store.deactivatePostings ids reservation).2
  | storeTransfer record involved => (store.storeTransfer record involved).2
  | commitEnvelope order clock req => (store.commitEnvelope order clock req).2
  | commitTransition clock next event => (store.commitTransition clock next event).2
  | appendEvent clock event => (store.appendEvent clock event).2
  | createBook book => (store.createBook book).2
  | appendBalanceProjection clock account asset balance watermark =>
      store.appendBalanceProjection clock account asset balance watermark

end StoreCall

/-- The store after some calls from the empty one. -/
def InMemoryStore.built (calls : List StoreCall) : InMemoryStore :=
  calls.foldl StoreCall.apply .new

@[simp] theorem InMemoryStore.built_nil : built [] = .new := rfl

@[simp] theorem InMemoryStore.built_append_singleton (calls : List StoreCall) (call : StoreCall) :
    built (calls ++ [call]) = call.apply (built calls) := by
  simp [built]

/-! ## What a call does to the posting tables -/

namespace StoreCall

/-- A call applies a commit, or it changes the posting tables step by step. -/
theorem steps_apply (call : StoreCall) (store : InMemoryStore) :
    PostingTables.Steps store.postings (call.apply store).postings ∨
    ∃ order clock req, call = .commitEnvelope order clock req ∧ req.transferId ∉ store.transfers ∧
      store.commitGuards order req = .ok () ∧ call.apply store = store.applyCommit clock req := by
  cases call with
  | createAccount account =>
      left
      simp only [apply, InMemoryStore.createAccount]
      split <;> exact .refl
  | appendAccountVersion account =>
      left
      have hsame : (store.appendAccountVersion account).2.postings = store.postings := by
        unfold InMemoryStore.appendAccountVersion
        split
        next => rfl
        next =>
          dsimp only
          split_ifs <;> rfl
      simp only [apply, hsame]
      exact .refl
  | insertPostings postings =>
      left
      change PostingTables.Steps _ (store.postings.applyEach PostingTables.add postings).2
      exact PostingTables.steps_applyEach (fun _ _ _ => PostingTables.step_of_add) _ _
  | reservePostings ids reservation =>
      left
      change PostingTables.Steps _ (store.postings.applyEach (PostingTables.claim reservation) ids).2
      exact PostingTables.steps_applyEach (fun _ _ _ => PostingTables.step_of_claim) _ _
  | releasePostings ids reservation =>
      left
      change PostingTables.Steps _ (store.postings.applyEach (PostingTables.unclaim reservation) ids).2
      exact PostingTables.steps_applyEach (fun _ _ _ => PostingTables.step_of_unclaim) _ _
  | deactivatePostings ids reservation =>
      left
      change PostingTables.Steps _ (store.postings.applyEach (PostingTables.spend reservation) ids).2
      exact PostingTables.steps_applyEach (fun _ _ _ => PostingTables.step_of_spend) _ _
  | storeTransfer record involved =>
      left
      simp only [apply, InMemoryStore.storeTransfer]
      split <;> exact .refl
  | commitEnvelope order clock req =>
      -- a replay and a refusal change nothing, and a commit is the case on its own
      obtain ⟨hsame, _⟩ | ⟨hfresh, hguards, heq⟩ := store.commitEnvelope_cases order clock req
      · left
        simp only [apply, hsame]
        exact .refl
      · exact .inr ⟨order, clock, req, rfl, hfresh, hguards, by simp only [apply, heq]⟩
  | commitTransition clock next event =>
      left
      have hsame : (store.commitTransition clock next event).2.postings = store.postings := by
        obtain ⟨hsame, _⟩ | ⟨heq, _⟩ | ⟨_, _, _, _, _, heq⟩ :=
          store.commitTransition_cases clock next event
        · rw [hsame]
        · simp [heq]
        · simp [heq]
      simp only [apply, hsame]
      exact .refl
  | appendEvent clock event =>
      left
      simp only [apply, InMemoryStore.appendEvent_store, InMemoryStore.appendEventLocked_postings]
      exact .refl
  | createBook book =>
      left
      simp only [apply, InMemoryStore.createBook]
      split <;> exact .refl
  | appendBalanceProjection => exact .inl .refl

end StoreCall

/-! ## Commits that keep the tables sound -/

namespace PostingTables

/-- Every posting that a commit creates is new or still active, and the copy it
activates is the one on record. -/
structure Renews (tables : PostingTables) (create : List Posting) : Prop where
  live : ∀ posting ∈ create, posting.id ∈ tables.immutable → posting.id ∈ tables.active
  agrees : ∀ posting ∈ create, (create.filter (·.id = posting.id)).getLast? =
    (tables.immutable.lookup posting.id).or (create.find? (·.id = posting.id))

end PostingTables

namespace InMemoryStore

variable {store : InMemoryStore} {clock : Clock} {req : CommitRequest}

theorem lookup_applyCommit_active (id : PostingId) :
    (store.applyCommit clock req).postings.active.lookup id =
      (req.create.filter (·.id = id)).getLast?.or
        (if id ∈ req.consume then none else store.postings.active.lookup id) := by
  rw [applyCommit_active, HashMap.lookup_insertAll, HashMap.lookup_eraseAll]

theorem lookup_applyCommit_immutable (clock : Clock) (id : PostingId) :
    (store.applyCommit clock req).postings.immutable.lookup id =
      (store.postings.immutable.lookup id).or (req.create.find? (·.id = id)) := by
  rw [applyCommit_immutable, lookup_insertMissing]

theorem mem_applyCommit_active {id : PostingId} :
    id ∈ (store.applyCommit clock req).postings.active ↔
      (id ∈ store.postings.active ∧ id ∉ req.consume) ∨ ∃ posting ∈ req.create, posting.id = id := by
  rw [applyCommit_active, HashMap.mem_insertAll, HashMap.mem_eraseAll]

theorem mem_applyCommit_immutable {id : PostingId} :
    id ∈ (store.applyCommit clock req).postings.immutable ↔
      id ∈ store.postings.immutable ∨ ∃ posting ∈ req.create, posting.id = id := by
  rw [applyCommit_immutable, mem_insertMissing]

theorem getLast?_filter_eq_none {postings : List Posting} {id : PostingId}
    (hnone : ¬∃ posting ∈ postings, posting.id = id) :
    (postings.filter (·.id = id)).getLast? = none := by
  rw [List.getLast?_eq_none_iff, List.filter_eq_nil_iff]
  intro posting hposting hid
  exact hnone ⟨posting, hposting, of_decide_eq_true hid⟩

/-- An applied commit keeps sound tables sound and spent postings spent exactly
when it renews what it creates. -/
theorem sound_applyCommit_iff (clock : Clock) (hsound : store.postings.Sound) :
    ((store.applyCommit clock req).postings.Sound ∧
      ∀ id, store.postings.Spent id → (store.applyCommit clock req).postings.Spent id) ↔
      store.postings.Renews req.create := by
  have hrecorded : ∀ id ∈ store.postings.reserved, id ∈ store.postings.immutable := by
    intro id hmem
    obtain ⟨⟨posting, reservation⟩, hlookup⟩ := HashMap.mem_iff_exists_lookup.mp hmem
    exact HashMap.mem_iff_exists_lookup.mpr ⟨posting, hsound.reserved _ _ _ hlookup⟩
  constructor
  · rintro ⟨hafter, hspent⟩
    have hactive : ∀ posting ∈ req.create,
        posting.id ∈ (store.applyCommit clock req).postings.active :=
      fun posting hposting => mem_applyCommit_active.mpr (.inr ⟨posting, hposting, rfl⟩)
    constructor
    · -- A recorded posting that is not active is reserved or spent.
      intro posting hposting himmutable
      by_contra hinactive
      by_cases hreserved : posting.id ∈ store.postings.reserved
      · refine hafter.disjoint _ (hactive posting hposting) ?_
        rw [applyCommit_reserved]
        exact hreserved
      · exact (hspent _ ⟨himmutable, hinactive, hreserved⟩).inactive (hactive posting hposting)
    · intro posting hposting
      -- the active record is the last one created under the id, and it is the recorded one
      obtain ⟨live, hlive⟩ := HashMap.mem_iff_exists_lookup.mp (hactive posting hposting)
      have hrecord := hafter.active _ _ hlive
      rw [← lookup_applyCommit_immutable clock, hrecord, ← hlive,
        lookup_applyCommit_active]
      cases hlast : (req.create.filter (·.id = posting.id)).getLast? with
      | some last => rfl
      | none =>
          rw [List.getLast?_eq_none_iff, List.filter_eq_nil_iff] at hlast
          exact absurd (decide_eq_true rfl) (hlast posting hposting)
  · intro hrenews
    refine ⟨⟨?_, ?_, ?_⟩, ?_⟩
    · intro id posting hlookup
      rw [lookup_applyCommit_active] at hlookup
      rw [lookup_applyCommit_immutable]
      -- under a created id the commit decides what is active, elsewhere the store before
      by_cases hcreated : ∃ created ∈ req.create, created.id = id
      · obtain ⟨created, hcreated, rfl⟩ := hcreated
        rw [← hrenews.agrees created hcreated]
        cases hlast : (req.create.filter (·.id = created.id)).getLast? with
        | some last => simpa [hlast] using hlookup
        | none =>
            rw [List.getLast?_eq_none_iff, List.filter_eq_nil_iff] at hlast
            exact absurd (decide_eq_true rfl) (hlast created hcreated)
      · rw [getLast?_filter_eq_none hcreated, Option.none_or] at hlookup
        split at hlookup
        next => cases hlookup
        next => rw [hsound.active id posting hlookup, Option.some_or]
    · intro id posting reservation hlookup
      rw [applyCommit_reserved] at hlookup
      rw [lookup_applyCommit_immutable, hsound.reserved id posting reservation hlookup,
        Option.some_or]
    · intro id hmem hreserved
      rw [applyCommit_reserved] at hreserved
      obtain ⟨hold, _⟩ | ⟨created, hcreated, rfl⟩ := mem_applyCommit_active.mp hmem
      · exact hsound.disjoint id hold hreserved
      · exact hsound.disjoint _ (hrenews.live created hcreated (hrecorded _ hreserved)) hreserved
    · intro id hspent
      refine ⟨mem_applyCommit_immutable.mpr (.inl hspent.recorded), ?_, ?_⟩
      · intro hmem
        obtain ⟨hold, _⟩ | ⟨created, hcreated, rfl⟩ := mem_applyCommit_active.mp hmem
        · exact hspent.inactive hold
        · exact hspent.inactive (hrenews.live created hcreated hspent.recorded)
      · rw [applyCommit_reserved]
        exact hspent.unreserved

end InMemoryStore

/-- The tables are sound after every part of the calls, and a posting that is
spent at some point stays spent. -/
structure KeepsPostings (calls : List StoreCall) : Prop where
  sound : ∀ first, first <+: calls → (built first).postings.Sound
  spent : ∀ first second, first <+: second → second <+: calls → ∀ id,
    (built first).postings.Spent id → (built second).postings.Spent id

/-- Every commit of the run that is applied renews what it creates. -/
def RenewsAll (calls : List StoreCall) : Prop :=
  ∀ first order clock req, first ++ [.commitEnvelope order clock req] <+: calls →
    req.transferId ∉ (built first).transfers →
    (built first).commitGuards order req = .ok () →
    (built first).postings.Renews req.create

/-- One more call keeps the postings if it applies no commit, or one that renews
what it creates. -/
theorem sound_and_spent_apply {calls : List StoreCall} {call : StoreCall}
    (hrenews : RenewsAll (calls ++ [call])) (hsound : (built calls).postings.Sound) :
    (built (calls ++ [call])).postings.Sound ∧
      ∀ id, (built calls).postings.Spent id → (built (calls ++ [call])).postings.Spent id := by
  rw [built_append_singleton]
  obtain hsteps | ⟨order, clock, req, rfl, hfresh, hguards, heq⟩ := call.steps_apply (built calls)
  · exact ⟨hsteps.sound hsound, fun id hspent => hsteps.spent hspent⟩
  · rw [heq]
    exact (sound_applyCommit_iff clock hsound).mpr
      (hrenews calls order clock req (List.prefix_refl _) hfresh hguards)

/-- The posting tables are kept by a run exactly when each of its commits renews
what it creates. -/
theorem postings_kept_iff (calls : List StoreCall) : KeepsPostings calls ↔ RenewsAll calls := by
  constructor
  · intro hkeeps first order clock req hinitial hfresh hguards
    have hfirst : first <+: calls := (List.prefix_append _ _).trans hinitial
    have happly : built (first ++ [.commitEnvelope order clock req]) =
        (built first).applyCommit clock req := by
      rw [built_append_singleton]
      simp only [StoreCall.apply, commitEnvelope_of_fresh hfresh, hguards]
    refine (sound_applyCommit_iff clock (hkeeps.sound first hfirst)).mp ?_
    rw [← happly]
    exact ⟨hkeeps.sound _ hinitial, hkeeps.spent _ _ (List.prefix_append _ _) hinitial⟩
  · intro hrenews
    have hsound : ∀ first, first <+: calls → (built first).postings.Sound := by
      intro first
      induction first using List.reverseRecOn with
      | nil => exact fun _ => PostingTables.sound_empty
      | append_singleton first call ih =>
          intro hinitial
          refine (sound_and_spent_apply (fun before order clock req hbefore => ?_)
            (ih ((List.prefix_append _ _).trans hinitial))).1
          exact hrenews before order clock req (hbefore.trans hinitial)
    refine ⟨hsound, fun first second hfirst => ?_⟩
    -- By induction on what the second part adds to the first.
    obtain ⟨added, rfl⟩ := hfirst
    induction added using List.reverseRecOn with
    | nil =>
        intro _ id hspent
        rwa [List.append_nil]
    | append_singleton added call ih =>
        intro hinitial id hspent
        rw [← List.append_assoc] at hinitial ⊢
        have hshorter := (List.prefix_append _ _).trans hinitial
        refine (sound_and_spent_apply (fun before order clock req hbefore => ?_)
          (hsound _ hshorter)).2 id (ih hshorter id hspent)
        exact hrenews before order clock req (hbefore.trans hinitial)

end Theory

open Sample in
/-- Bob's posting is inserted and spent, and a commit creates it once more. -/
def revivedPosting : List StoreCall :=
  [.createAccount (.new bob), .insertPostings [postingOf 1 0 bob 5],
    .deactivatePostings [⟨transferOf 1, 0⟩] none,
    .commitEnvelope .listed (some 1800000000000) (commitOf 2 0 [] [postingOf 1 0 bob 5] [bob])]

open Sample in
/-- The spent posting is active again. -/
theorem spent_posting_revived : ¬KeepsPostings revivedPosting := by
  intro hkeeps
  have hspent : (built (revivedPosting.take 3)).postings.Spent ⟨transferOf 1, 0⟩ :=
    ⟨by decide +kernel, by decide +kernel, by decide +kernel⟩
  have hactive : ⟨transferOf 1, 0⟩ ∈ (built revivedPosting).postings.active := by
    decide +kernel
  exact (hkeeps.spent _ _ (List.take_prefix 3 _) (List.prefix_refl _) _ hspent).inactive hactive

end Kuatia
