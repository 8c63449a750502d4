import Kuatia.Ledger.Accounts
import Kuatia.Ledger.Conservation
import Kuatia.Storage.TransferIndex

/-! # The audit trail

The stored transfers, the posting table and the index of participants are kept
side by side. In every reachable store each can be read off the transfers.
-/

namespace Kuatia

section Theory

variable [MoneyWidth]

/-- The transfer creates or consumes a posting of an account that is asked for. -/
def InvolvesAskedFor (store : InMemoryStore) (account : Int64) (sub : Option Int64)
    (record : EnvelopeRecord) : Prop :=
  (∃ posting ∈ record.envelope.creates, AskedFor account sub posting.owner) ∨
    ∃ id ∈ record.envelope.consumes, ∃ posting,
      store.postings.immutable.lookup id = some posting ∧ AskedFor account sub posting.owner

/-- The posting that a stored transfer creates at an index. -/
def createdUnder (store : InMemoryStore) (id : PostingId) : Option Posting := do
  let record ← store.transfers.lookup id.transfer
  let source ← record.envelope.creates[id.index.toNat]?
  some ⟨id, source.owner, source.asset, source.value⟩

/-- Every transfer is keyed by its content and receipt, the posting table has
exactly what the transfers create, and an account is listed exactly the
transfers that involve it. -/
structure AuditTrail [Sha256] (store : InMemoryStore) : Prop where
  keyed : ∀ tid record, store.transfers.lookup tid = some record →
    tid = envelopeId record.envelope ∧ record.receipt = ⟨tid⟩
  postings : ∀ id, store.postings.immutable.lookup id = createdUnder store id
  listed : ∀ order account sub, ∃ records : List (EnvelopeId × EnvelopeRecord),
    (records.map Prod.fst).Nodup ∧
    (∀ tid record, (tid, record) ∈ records ↔
      store.transfers.lookup tid = some record ∧ InvolvesAskedFor store account sub record) ∧
    (store.getTransfersForAccount order account sub).Perm (records.map Prod.snd)

variable {store : InMemoryStore}

/-! ## The posting table -/

theorem mem_createdPostings_iff {tid : EnvelopeId} {creates : List NewPosting}
    (hlength : creates.length ≤ 65536) {posting : Posting} :
    posting ∈ createdPostings tid creates ↔ ∃ source, creates[posting.id.index.toNat]? = some source ∧
      posting = ⟨⟨tid, posting.id.index⟩, source.owner, source.asset, source.value⟩ := by
  constructor
  · intro hposting
    obtain ⟨i, hi, rfl⟩ := List.mem_mapIdx.mp hposting
    have hindex : (UInt16.ofNat i).toNat = i := by
      rw [UInt16.toNat_ofNat']
      omega
    refine ⟨creates[i], ?_, rfl⟩
    rw [hindex, List.getElem?_eq_getElem hi]
  · rintro ⟨source, hsource, heq⟩
    obtain ⟨hi, rfl⟩ := List.getElem?_eq_some_iff.mp hsource
    apply List.mem_mapIdx.mpr
    refine ⟨posting.id.index.toNat, hi, ?_⟩
    rw [UInt16.ofNat_toNat]
    exact heq.symm

theorem createdUnder_eq_some_iff {id : PostingId} {posting : Posting} :
    createdUnder store id = some posting ↔
      ∃ record, store.transfers.lookup id.transfer = some record ∧
        ∃ source, record.envelope.creates[id.index.toNat]? = some source ∧
          posting = ⟨id, source.owner, source.asset, source.value⟩ := by
  simp only [createdUnder, Option.bind_eq_bind, Option.bind_eq_some_iff, Option.some.injEq]
  simp only [eq_comm]

/-- As long as no index wraps, what is recorded is what the transfers create. -/
theorem lookup_immutable_eq (hindexed : Indexed store) (hfaithful : Faithful store)
    (hsourced : Sourced store) (hwell : ∀ id posting,
      store.postings.immutable.lookup id = some posting → posting.id = id) (id : PostingId) :
    store.postings.immutable.lookup id = createdUnder store id := by
  have hlength : ∀ tid record, store.transfers.lookup tid = some record →
      record.envelope.creates.length ≤ 65536 :=
    fun _ _ => hindexed.creates_le
  apply Option.ext
  intro posting
  rw [createdUnder_eq_some_iff]
  constructor
  · intro hlookup
    obtain ⟨record, hstored, hmem⟩ := hsourced.immutable id posting hlookup
    obtain ⟨source, hsource, heq⟩ := (mem_createdPostings_iff (hlength _ _ hstored)).mp hmem
    rw [hwell id posting hlookup] at hsource heq
    exact ⟨record, hstored, source, hsource, heq⟩
  · rintro ⟨record, hstored, source, hsource, rfl⟩
    have hmem := (mem_createdPostings_iff (hlength _ _ hstored)).mpr
      ⟨source, hsource, (rfl : (⟨id, source.owner, source.asset, source.value⟩ : Posting) = _)⟩
    exact hfaithful.recorded _ record hstored (hlength _ _ hstored) _ hmem

/-! ## The listing of an account -/

/-- A stored transfer is filed under the accounts of its postings only. -/
theorem isAskedFor_iff_involves (hcatalogued : Catalogued store) {account : Int64}
    {sub : Option Int64} {tid : EnvelopeId} {record : EnvelopeRecord}
    (hstored : store.transfers.lookup tid = some record) :
    isAskedFor store account sub tid = true ↔ InvolvesAskedFor store account sub record := by
  rw [isAskedFor_iff]
  constructor
  · rintro ⟨owner, howner, hasked⟩
    obtain ⟨posting, hposting, rfl⟩ | ⟨id, hid, posting, hlookup, rfl⟩ :=
      hcatalogued.only tid record hstored owner howner
    · exact .inl ⟨posting, hposting, hasked⟩
    · exact .inr ⟨id, hid, posting, hlookup, hasked⟩
  · rintro (⟨posting, hposting, hasked⟩ | ⟨id, hid, posting, hlookup, hasked⟩)
    · exact ⟨_, hcatalogued.creates tid record hstored posting hposting, hasked⟩
    · exact ⟨_, hcatalogued.consumes tid record hstored id hid posting hlookup, hasked⟩

theorem exists_listed (hcatalogued : Catalogued store) (order : IterationOrder) (account : Int64)
    (sub : Option Int64) : ∃ records : List (EnvelopeId × EnvelopeRecord),
      (records.map Prod.fst).Nodup ∧
      (∀ tid record, (tid, record) ∈ records ↔
        store.transfers.lookup tid = some record ∧ InvolvesAskedFor store account sub record) ∧
      (store.getTransfersForAccount order account sub).Perm (records.map Prod.snd) := by
  let asked := store.transfers.entries.filter fun entry => isAskedFor store account sub entry.1
  refine ⟨asked.map fun entry => (entry.1, entry.2), ?_, fun tid record => ?_, ?_⟩
  · rw [List.map_map]
    have hkeys : (store.transfers.entries.map Sigma.fst).Nodup := store.transfers.nodupKeys
    exact hkeys.sublist (List.filter_sublist.map _)
  · rw [List.mem_map]
    constructor
    · rintro ⟨⟨id, stored⟩, hentry, heq⟩
      cases heq
      obtain ⟨hmem, hasked⟩ := List.mem_filter.mp hentry
      have hstored := HashMap.lookup_eq_some_iff.mpr hmem
      exact ⟨hstored, (isAskedFor_iff_involves hcatalogued hstored).mp hasked⟩
    · rintro ⟨hstored, hinvolves⟩
      refine ⟨⟨tid, record⟩, List.mem_filter.mpr ⟨HashMap.lookup_eq_some_iff.mp hstored, ?_⟩, rfl⟩
      exact (isAskedFor_iff_involves hcatalogued hstored).mpr hinvolves
  · rw [List.map_map]
    exact listing_asked_perm hcatalogued.keys order account sub

/-! ## Every reachable store -/

section Runs

variable [Sha256]

/-- Every stored transfer is filed under its content and has that id on its receipt. -/
def KeyedByContent (store : InMemoryStore) : Prop :=
  ∀ tid record, store.transfers.lookup tid = some record →
    tid = envelopeId record.envelope ∧ record.receipt = ⟨tid⟩

theorem StoreStep.keyed {submits : Envelope → Prop} {before after : InMemoryStore}
    (hstep : StoreStep submits before after) (hkeyed : KeyedByContent before) : KeyedByContent after := by
  intro tid record hlookup
  obtain ⟨_, htransfers, _⟩ | ⟨_, _, req, _, hvalid, _, _, _, rfl⟩ := hstep.postings_cases
  · rw [htransfers] at hlookup
    exact hkeyed tid record hlookup
  · rw [lookup_transfers_applyCommit] at hlookup
    split at hlookup
    next heq =>
      cases hlookup
      rw [heq]
      exact ⟨hvalid.transferId, hvalid.receipt⟩
    next => exact hkeyed tid record hlookup

theorem keyed_after (ledger : Ledger) (actions : List LedgerAction) :
    KeyedByContent (storeAfter ledger actions) := by
  have hnew : KeyedByContent InMemoryStore.new := fun _ _ hlookup => nomatch hlookup
  exact reachable_induction ledger hnew (fun _ _ _ hstep => hstep.keyed) actions

theorem accounted_after (ledger : Ledger) (actions : List LedgerAction) :
    Accounted (storeAfter ledger actions) :=
  reachable_induction ledger accounted_new (fun _ _ _ hstep => hstep.accounted) actions

omit [Sha256] in
/-- As long as no index wraps, what is active is active as it was recorded. -/
theorem lookup_immutable_of_active (haccounted : Accounted store) (hindexed : Indexed store)
    {id : PostingId} {live : Posting} (hlive : store.postings.active.lookup id = some live) :
    store.postings.immutable.lookup id = some live := by
  have hall : IndexedFor store live.owner := fun _ _ hlookup _ =>
    hindexed.creates_le hlookup
  obtain ⟨recorded, hrecorded⟩ :=
    haccounted.lookup_recorded (HashMap.mem_iff_exists_lookup.mpr ⟨live, hlive⟩)
  rw [hrecorded, haccounted.eq_recorded hall hlive hrecorded (.inl rfl)]

/-- In every run whose transfers create at most 65536 postings each, the audit
trail is complete. -/
theorem auditTrail_after (ledger : Ledger) (actions : List LedgerAction)
    (hindexed : Indexed (storeAfter ledger actions)) :
    AuditTrail (storeAfter ledger actions) := by
  have haccounted := accounted_after ledger actions
  constructor
  · exact keyed_after ledger actions
  · exact lookup_immutable_eq hindexed haccounted.faithful haccounted.sourced
      haccounted.wellFormed.immutable
  · exact exists_listed haccounted.catalogued

end Runs

end Theory

open Sample in
/-- The hypothesis is met by a ledger with a deposit. -/
theorem auditTrail_after_funded : AuditTrail (storeAfter ledger funded) :=
  auditTrail_after ledger funded (by decide +kernel)

end Kuatia
