import Kuatia.Ledger.Runs

/-! # No double spend and no lost posting

The live postings are at any time the created ones that are not consumed. A
commit creates ids that carry its own transfer id, which is not stored yet, and
it consumes only what is active at the moment it is applied.
-/

namespace Kuatia

variable [MoneyWidth]

/-- Some stored transfer creates the posting. -/
def Created (store : InMemoryStore) (id : PostingId) : Prop :=
  ∃ tid record, store.transfers.lookup tid = some record ∧
    id ∈ createdPostingIds tid record.envelope.creates

/-- Some stored transfer consumes the posting. -/
def Consumed (store : InMemoryStore) (id : PostingId) : Prop :=
  ∃ tid record, store.transfers.lookup tid = some record ∧ id ∈ record.envelope.consumes

/-- The live set and the stored transfers tell the same story. -/
structure Consistent (store : InMemoryStore) : Prop where
  reserved : store.postings.reserved = ∅
  active_keyed : ∀ id posting, store.postings.active.lookup id = some posting → posting.id = id
  mem_active : ∀ id, id ∈ store.postings.active ↔ Created store id ∧ ¬Consumed store id
  mem_immutable : ∀ id, id ∈ store.postings.immutable ↔ Created store id
  consumed_created : ∀ id, Consumed store id → Created store id
  consumed_once : ∀ id tid record tid' record', store.transfers.lookup tid = some record →
    store.transfers.lookup tid' = some record' → id ∈ record.envelope.consumes →
    id ∈ record'.envelope.consumes → tid = tid'

theorem consistent_new : Consistent InMemoryStore.new where
  reserved := rfl
  active_keyed _ _ hlookup := by cases hlookup
  mem_active id := by simp [InMemoryStore.new, Created]
  mem_immutable id := by simp [InMemoryStore.new, Created]
  consumed_created id hconsumed := by
    obtain ⟨_, _, hlookup, _⟩ := hconsumed
    cases hlookup
  consumed_once _ _ _ _ _ hlookup := by cases hlookup

section Commit

variable {store : InMemoryStore} {clock : Clock} {req : CommitRequest} {id : PostingId}

theorem lookup_transfers_applyCommit (tid : EnvelopeId) :
    (store.applyCommit clock req).transfers.lookup tid =
      if tid = req.transferId then some req.record else store.transfers.lookup tid := by
  rw [InMemoryStore.applyCommit_transfers, HashMap.lookup_insert_eq]

/-- What some transfer meets afterwards, the fresh one meets or an earlier one. -/
theorem exists_transfer_applyCommit (hfresh : req.transferId ∉ store.transfers)
    {relates : EnvelopeId → EnvelopeRecord → Prop} :
    (∃ tid record, (store.applyCommit clock req).transfers.lookup tid = some record ∧
        relates tid record) ↔
      relates req.transferId req.record ∨
        ∃ tid record, store.transfers.lookup tid = some record ∧ relates tid record := by
  simp only [lookup_transfers_applyCommit]
  constructor
  · rintro ⟨tid, record, hlookup, hrelates⟩
    split at hlookup
    next heq =>
      cases hlookup
      exact .inl (heq ▸ hrelates)
    next => exact .inr ⟨tid, record, hlookup, hrelates⟩
  · rintro (hrelates | ⟨tid, record, hlookup, hrelates⟩)
    · exact ⟨req.transferId, req.record, if_pos rfl, hrelates⟩
    · have hne : tid ≠ req.transferId := fun heq =>
        hfresh (heq ▸ HashMap.mem_iff_exists_lookup.mpr ⟨record, hlookup⟩)
      exact ⟨tid, record, by rw [if_neg hne, hlookup], hrelates⟩

/-- The ids a fresh transfer creates were not created before. -/
theorem not_created_of_fresh (hfresh : req.transferId ∉ store.transfers)
    {creates : List NewPosting} (hid : id ∈ createdPostingIds req.transferId creates) :
    ¬Created store id := by
  rintro ⟨tid, record, hlookup, hmem⟩
  have htid : tid = req.transferId :=
    (transfer_of_mem_createdPostingIds hmem).symm.trans (transfer_of_mem_createdPostingIds hid)
  exact hfresh (htid ▸ HashMap.mem_iff_exists_lookup.mpr ⟨record, hlookup⟩)

end Commit

variable [Sha256]

theorem StoreStep.consistent {submits : Envelope → Prop} {before after : InMemoryStore}
    (hstep : StoreStep submits before after) (hconsistent : Consistent before) :
    Consistent after := by
  obtain ⟨hpostings, htransfers, _⟩ | ⟨order, clock, req, consumed, hvalid, _, hfresh, hguards,
    rfl⟩ := hstep.postings_cases
  · have hcreated : ∀ id, Created after id ↔ Created before id := fun id => by
      rw [Created, Created, htransfers]
    have hconsumed : ∀ id, Consumed after id ↔ Consumed before id := fun id => by
      rw [Consumed, Consumed, htransfers]
    exact {
      reserved := hpostings ▸ hconsistent.reserved
      active_keyed := hpostings ▸ hconsistent.active_keyed
      mem_active := fun id => by
        rw [hpostings, hconsistent.mem_active, hcreated, hconsumed]
      mem_immutable := fun id => by rw [hpostings, hconsistent.mem_immutable, hcreated]
      consumed_created := fun id h =>
        (hcreated id).mpr (hconsistent.consumed_created id ((hconsumed id).mp h))
      consumed_once := htransfers ▸ hconsistent.consumed_once }
  · have hcreated : ∀ id, Created (before.applyCommit clock req) id ↔
        id ∈ createdPostingIds req.transferId req.record.envelope.creates ∨ Created before id :=
      fun id => exists_transfer_applyCommit hfresh
    have hconsumed : ∀ id, Consumed (before.applyCommit clock req) id ↔
        id ∈ req.record.envelope.consumes ∨ Consumed before id :=
      fun id => exists_transfer_applyCommit hfresh
    obtain ⟨_, hactive, _⟩ := InMemoryStore.commitGuards_eq_ok_iff.mp hguards
    rw [InMemoryStore.doubleSpendGuard_eq_ok_iff, hvalid.consume] at hactive
    have hspendable : ∀ id ∈ req.record.envelope.consumes,
        Created before id ∧ ¬Consumed before id := fun id hid =>
      (hconsistent.mem_active id).mp (hactive id hid)
    have hnew : ∀ id, (∃ posting ∈ req.create, posting.id = id) ↔
        id ∈ createdPostingIds req.transferId req.record.envelope.creates := fun id => by
      rw [hvalid.create, ← map_id_createdPostings, List.mem_map]
    -- one goal for each field of `Consistent`, in its order
    refine ⟨?_, ?_, fun id => ?_, fun id => ?_, fun id h => ?_, ?_⟩
    · rw [InMemoryStore.applyCommit_reserved, hconsistent.reserved]
    · intro id posting hlookup
      rw [InMemoryStore.applyCommit_active] at hlookup
      obtain ⟨_, hid⟩ | ⟨hold, _⟩ := HashMap.lookup_insertAll_cases hlookup
      · exact hid
      · rw [HashMap.lookup_eraseAll] at hold
        split at hold
        next => cases hold
        next => exact hconsistent.active_keyed id posting hold
    · rw [InMemoryStore.applyCommit_active, HashMap.mem_insertAll, HashMap.mem_eraseAll,
        hconsistent.mem_active, hcreated, hconsumed, hnew, hvalid.consume]
      constructor
      · rintro (⟨⟨hold, hunspent⟩, hkept⟩ | hmade)
        · exact ⟨.inr hold, not_or.mpr ⟨hkept, hunspent⟩⟩
        · have hunmade := not_created_of_fresh hfresh hmade
          exact ⟨.inl hmade, not_or.mpr ⟨fun hspent => hunmade (hspendable id hspent).1,
            fun hspent => hunmade (hconsistent.consumed_created id hspent)⟩⟩
      · rintro ⟨hmade | hold, hunspent⟩
        · exact .inr hmade
        · obtain ⟨hkept, hunspent⟩ := not_or.mp hunspent
          exact .inl ⟨⟨hold, hunspent⟩, hkept⟩
    · rw [InMemoryStore.applyCommit_immutable, InMemoryStore.mem_insertMissing,
        hconsistent.mem_immutable, hcreated, hnew, or_comm]
    · rw [hcreated]
      rcases (hconsumed id).mp h with hspent | hspent
      · exact .inr (hspendable id hspent).1
      · exact .inr (hconsistent.consumed_created id hspent)
    · intro id tid record tid' record' hlookup hlookup' hid hid'
      rw [lookup_transfers_applyCommit] at hlookup hlookup'
      split at hlookup <;> split at hlookup'
      next heq heq' => exact heq.trans heq'.symm
      -- the commit spends what is still spendable, so no stored transfer has spent it
      next heq _ =>
        cases hlookup
        exact absurd ⟨tid', record', hlookup', hid'⟩ (hspendable id hid).2
      next _ heq' =>
        cases hlookup'
        exact absurd ⟨tid, record, hlookup, hid⟩ (hspendable id hid').2
      next => exact hconsistent.consumed_once id _ _ _ _ hlookup hlookup' hid hid'

theorem consistent_after (ledger : Ledger) (actions : List LedgerAction) :
    Consistent (storeAfter ledger actions) :=
  reachable_induction ledger consistent_new (fun _ _ _ hstep => hstep.consistent) actions

/-- Every stored transfer was applied by some action of the run, as a validated
request that passed the guards of the store. -/
theorem exists_commit_of_stored (ledger : Ledger) {actions : List LedgerAction} {tid : EnvelopeId}
    {record : EnvelopeRecord}
    (hstored : (storeAfter ledger actions).transfers.lookup tid = some record) :
    ∃ first action rest order clock req consumed, actions = first ++ action :: rest ∧
      Validated (storeAfter ledger first) req consumed ∧ req.transferId = tid ∧
      req.record = record ∧ tid ∉ (storeAfter ledger first).transfers ∧
      (storeAfter ledger first).commitGuards order req = .ok () ∧
      storeAfter ledger (first ++ [action]) = (storeAfter ledger first).applyCommit clock req := by
  induction actions using List.reverseRecOn with
  | nil => cases hstored
  | append_singleton actions action ih =>
      obtain ⟨_, htransfers, _⟩ | ⟨order, clock, req, consumed, hvalid, _, hfresh, hguards, hafter⟩ :=
        (storeStep_after ledger actions action).postings_cases
      · rw [htransfers] at hstored
        obtain ⟨first, step, rest, order, clock, req, consumed, rfl, h⟩ := ih hstored
        exact ⟨first, step, rest ++ [action], order, clock, req, consumed, by simp, h⟩
      · rw [hafter, lookup_transfers_applyCommit] at hstored
        split at hstored
        next heq =>
          cases hstored
          exact ⟨actions, action, [], order, clock, req, consumed, rfl, hvalid, heq.symm, rfl,
            heq ▸ hfresh, hguards, hafter⟩
        next =>
          obtain ⟨first, step, rest, order, clock, req, consumed, rfl, h⟩ := ih hstored
          exact ⟨first, step, rest ++ [action], order, clock, req, consumed, by simp, h⟩

/-- In every run of any number of clients, no posting is consumed twice, every
consumed posting was created by a transfer stored before its consumer, and the
live postings are the created ones that are not consumed. -/
theorem no_double_spend (ledger : Ledger) (actions : List LedgerAction) :
    (∀ id tid record tid' record',
      (storeAfter ledger actions).transfers.lookup tid = some record →
      (storeAfter ledger actions).transfers.lookup tid' = some record' →
      id ∈ record.envelope.consumes → id ∈ record'.envelope.consumes → tid = tid') ∧
    (∀ id tid record, (storeAfter ledger actions).transfers.lookup tid = some record →
      id ∈ record.envelope.consumes → ∃ first rest, actions = first ++ rest ∧
        tid ∉ (storeAfter ledger first).transfers ∧ Created (storeAfter ledger first) id) ∧
    ∀ id, (id ∈ (storeAfter ledger actions).postings.active ∨
        id ∈ (storeAfter ledger actions).postings.reserved) ↔
      Created (storeAfter ledger actions) id ∧ ¬Consumed (storeAfter ledger actions) id := by
  have hconsistent := consistent_after ledger actions
  refine ⟨hconsistent.consumed_once, fun id tid record hstored hid => ?_, fun id => ?_⟩
  · obtain ⟨first, action, rest, order, clock, req, consumed, rfl, hvalid, _, rfl, hfresh, hguards,
      _⟩ := exists_commit_of_stored ledger hstored
    obtain ⟨_, hactive, _⟩ := InMemoryStore.commitGuards_eq_ok_iff.mp hguards
    rw [InMemoryStore.doubleSpendGuard_eq_ok_iff, hvalid.consume] at hactive
    refine ⟨first, action :: rest, rfl, hfresh, ?_⟩
    exact (((consistent_after ledger first).mem_active id).mp (hactive id hid)).1
  · rw [hconsistent.reserved, hconsistent.mem_active]
    simp

end Kuatia
