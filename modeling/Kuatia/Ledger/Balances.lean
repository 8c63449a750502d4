import Kuatia.Ledger.DoubleSpend
import Kuatia.Storage.Live

/-! # What a commit does to the balances

A commit takes away the active records of the postings it consumes and adds the
postings it creates. The `u16` index of a created posting wraps, so of more than
65536 postings some replace others; as long as it does not, what is active is
what the transfer says and what the immutable table records.
-/

namespace Kuatia

open MoneyWidth (backing)

variable [MoneyWidth]

/-- What becomes active of the created postings: of several under one id, the last. -/
def activated (postings : List Posting) : List Posting :=
  (HashMap.insertAll ∅ (·.id) postings).values

theorem activated_perm {postings : List Posting} (hnodup : (postings.map (·.id)).Nodup) :
    (activated postings).Perm postings := by
  have hempty : ∀ posting ∈ postings, posting.id ∉ (∅ : HashMap PostingId Posting) :=
    fun posting _ => AList.notMem_empty posting.id
  have hperm := HashMap.values_insertAll_perm hnodup hempty
  exact hperm.trans (.of_eq (List.append_nil postings))

theorem nodup_map_id_createdPostings {tid : EnvelopeId} {creates : List NewPosting}
    (hindex : creates.length ≤ 65536) : ((createdPostings tid creates).map (·.id)).Nodup := by
  rw [map_id_createdPostings]
  exact nodup_createdPostingIds hindex

/-- The ids of more than 65536 created postings repeat. -/
theorem length_le_of_nodup_createdPostingIds {tid : EnvelopeId} {creates : List NewPosting}
    (hnodup : (createdPostingIds tid creates).Nodup) : creates.length ≤ 65536 := by
  by_contra hlong
  rw [List.nodup_iff_getElem?_ne_getElem?] at hnodup
  have hlength : (createdPostingIds tid creates).length = creates.length := by
    simp [createdPostingIds]
  apply hnodup 0 65536 (by omega) (by omega)
  have hfirst : 0 < creates.length := by omega
  have hwrapped : 65536 < creates.length := by omega
  simp [createdPostingIds, hfirst, hwrapped]

theorem keyTotal_createdPostings (tid : EnvelopeId) (creates : List NewPosting) (key : BalanceKey) :
    keyTotal Posting.key Posting.value (createdPostings tid creates) key =
      keyTotal NewPosting.key NewPosting.value creates key := by
  rw [keyTotal_eq_sum, keyTotal_eq_sum]
  exact congrArg List.sum (map_createdPostings _ _ fun owner asset value =>
    if (owner, asset) = key then value.val else 0)

namespace InMemoryStore

/-- The active records under the given ids. -/
def activeOf (store : InMemoryStore) (ids : List PostingId) : List Posting :=
  ids.filterMap store.postings.active.lookup

end InMemoryStore

/-- The active postings are those under the given ids and the others. -/
theorem active_values_perm {store : InMemoryStore} (hconsistent : Consistent store)
    {ids : List PostingId} (hnodup : ids.Nodup) (hactive : ∀ id ∈ ids, id ∈ store.postings.active) :
    store.postings.active.values.Perm
      (store.activeOf ids ++ (store.postings.active.eraseAll ids).values) := by
  have hspent := HashMap.forall₂_filterMap_lookup hactive
  have hids := HashMap.map_key_eq hconsistent.active_keyed hspent
  have hlookup : ∀ posting ∈ store.activeOf ids,
      store.postings.active.lookup posting.id = some posting := by
    intro posting hposting
    obtain ⟨id, _, hlookup⟩ := hspent.exists_of_mem_right hposting
    rwa [hconsistent.active_keyed id posting hlookup]
  have hperm := HashMap.values_eraseAll_perm (hids.symm ▸ hnodup) hlookup
  rwa [InMemoryStore.activeOf, hids] at hperm

/-- What is left of a balance without the postings under the given ids. -/
theorem keyTotal_unspent {store : InMemoryStore} (hconsistent : Consistent store)
    {ids : List PostingId} (hnodup : ids.Nodup) (hactive : ∀ id ∈ ids, id ∈ store.postings.active)
    (key : BalanceKey) :
    keyTotal Posting.key Posting.value
        (store.postings.active.values.filter (·.id ∉ ids)) key =
      store.liveBalance key - keyTotal Posting.key Posting.value (store.activeOf ids) key := by
  have hperm := active_values_perm hconsistent hnodup hactive
  have hspent : (store.activeOf ids).filter (·.id ∉ ids) = [] := by
    refine List.filter_eq_nil_iff.mpr fun posting hposting => ?_
    obtain ⟨id, hid, hlookup⟩ := List.mem_filterMap.mp hposting
    rw [hconsistent.active_keyed id posting hlookup]
    simpa using hid
  have hrest : (store.postings.active.eraseAll ids).values.filter (·.id ∉ ids) =
      (store.postings.active.eraseAll ids).values := by
    refine List.filter_eq_self.mpr fun posting hposting => ?_
    obtain ⟨id, hlookup⟩ := HashMap.mem_values_iff.mp hposting
    rw [HashMap.lookup_eraseAll] at hlookup
    split at hlookup
    next => cases hlookup
    next hid =>
      rw [hconsistent.active_keyed id posting hlookup]
      exact decide_eq_true hid
  rw [keyTotal_perm (hperm.filter _), List.filter_append, hspent, hrest, List.nil_append,
    InMemoryStore.liveBalance, InMemoryStore.livePostings_of_reserved hconsistent.reserved,
    keyTotal_perm hperm, keyTotal_append]
  omega

/-- What the store projects for one balance is exact, as long as the two sums and
their total fit. -/
theorem exists_projectedBalance {store : InMemoryStore} (hconsistent : Consistent store)
    (order : IterationOrder) {req : CommitRequest} {creates : List NewPosting}
    (hcreate : req.create = createdPostings req.transferId creates) (hnodup : req.consume.Nodup)
    (hactive : ∀ id ∈ req.consume, id ∈ store.postings.active) {key : BalanceKey}
    (hlive : Cent.magnitude (((store.postings.active.values.filter (·.id ∉ req.consume)).filter
      (·.key = key)).map Posting.value) ≤ Backing.max backing)
    (hmade : Cent.magnitude ((req.create.filter (·.key = key)).map Posting.value) ≤
      Backing.max backing)
    (hholds : Cent.Holds (store.liveBalance key +
      keyTotal NewPosting.key NewPosting.value creates key -
        keyTotal Posting.key Posting.value (store.activeOf req.consume) key)) :
    ∃ value, store.projectedBalance order req key = .ok value ∧ value.val = store.liveBalance key +
      keyTotal NewPosting.key NewPosting.value creates key -
        keyTotal Posting.key Posting.value (store.activeOf req.consume) key := by
  -- what the loop over the active postings selects, in the order of the table
  have hleft : ((order.arrange store.postings.active.values).filter fun posting =>
      posting.key = key && posting.id ∉ req.consume).Perm
        ((store.postings.active.values.filter (·.id ∉ req.consume)).filter (·.key = key)) := by
    rw [List.filter_filter]
    simp only [← Bool.decide_and]
    exact (order.arrange_perm _).filter _
  rw [← Cent.magnitude_perm (hleft.map Posting.value)] at hlive
  obtain ⟨liveSum, hliveSum⟩ := Cent.exists_checkedSum hlive
  obtain ⟨createdSum, hcreatedSum⟩ := Cent.exists_checkedSum hmade
  have hliveValue : liveSum.val = store.liveBalance key -
      keyTotal Posting.key Posting.value (store.activeOf req.consume) key := by
    rw [← keyTotal_unspent hconsistent hnodup hactive, keyTotal, Cent.val_of_checkedSum hliveSum,
      List.map_map]
    exact (hleft.map _).sum_eq
  have hcreatedValue : createdSum.val = keyTotal NewPosting.key NewPosting.value creates key := by
    rw [← keyTotal_createdPostings req.transferId, ← hcreate, keyTotal,
      Cent.val_of_checkedSum hcreatedSum, List.map_map]
    rfl
  have htotal : liveSum.val + createdSum.val = store.liveBalance key +
      keyTotal NewPosting.key NewPosting.value creates key -
        keyTotal Posting.key Posting.value (store.activeOf req.consume) key := by omega
  rw [← htotal] at hholds ⊢
  obtain ⟨value, hvalue, hval⟩ := Cent.exists_checked_eq_ok hholds.1 hholds.2
  refine ⟨value, ?_, hval⟩
  exact Except.bind_eq_ok_iff.mpr ⟨liveSum, hliveSum, Except.bind_eq_ok_iff.mpr
    ⟨createdSum, hcreatedSum, hvalue⟩⟩

section Commit

variable [Sha256] {store : InMemoryStore} {order : IterationOrder} {req : CommitRequest}
  {consumed : List Posting}

omit [Sha256] in
/-- A guarded commit replaces the active records it consumes by what it activates. -/
theorem active_values_of_created (clock : Clock) (hconsistent : Consistent store)
    {creates : List NewPosting} (hnodup : req.consume.Nodup)
    (hcreate : req.create = createdPostings req.transferId creates)
    (hfresh : req.transferId ∉ store.transfers) (hguards : store.commitGuards order req = .ok ()) :
    ∃ rest, store.postings.active.values.Perm (store.activeOf req.consume ++ rest) ∧
      (store.applyCommit clock req).postings.active.values.Perm (activated req.create ++ rest) := by
  obtain ⟨_, hactive, _⟩ := InMemoryStore.commitGuards_eq_ok_iff.mp hguards
  rw [InMemoryStore.doubleSpendGuard_eq_ok_iff] at hactive
  refine ⟨_, active_values_perm hconsistent hnodup hactive, ?_⟩
  rw [InMemoryStore.applyCommit_active]
  refine HashMap.values_insertAll_perm_of_fresh fun posting hposting hmem => ?_
  have hcreated := (hconsistent.mem_active _).mp (HashMap.mem_eraseAll.mp hmem).1
  rw [hcreate] at hposting
  have hnew : posting.id ∈ createdPostingIds req.transferId creates := by
    rw [← map_id_createdPostings]
    exact List.mem_map_of_mem hposting
  exact not_created_of_fresh hfresh hnew hcreated.1

theorem active_values_applyCommit (clock : Clock) (hconsistent : Consistent store)
    (hvalid : Validated store req consumed) (hfresh : req.transferId ∉ store.transfers)
    (hguards : store.commitGuards order req = .ok ()) :
    ∃ rest, store.postings.active.values.Perm (store.activeOf req.consume ++ rest) ∧
      (store.applyCommit clock req).postings.active.values.Perm (activated req.create ++ rest) :=
  active_values_of_created clock hconsistent (hvalid.consume ▸ hvalid.nodup) hvalid.create hfresh
    hguards

/-- The balances after a guarded commit, exactly. -/
theorem liveBalance_applyCommit (clock : Clock) (hconsistent : Consistent store)
    (hvalid : Validated store req consumed) (hfresh : req.transferId ∉ store.transfers)
    (hguards : store.commitGuards order req = .ok ()) (key : BalanceKey) :
    (store.applyCommit clock req).liveBalance key = store.liveBalance key -
      keyTotal Posting.key Posting.value (store.activeOf req.consume) key +
      keyTotal Posting.key Posting.value (activated req.create) key := by
  have hreserved : (store.applyCommit clock req).postings.reserved = ∅ := by
    rw [InMemoryStore.applyCommit_reserved, hconsistent.reserved]
  obtain ⟨rest, hbefore, hafter⟩ :=
    active_values_applyCommit clock hconsistent hvalid hfresh hguards
  rw [InMemoryStore.liveBalance, InMemoryStore.liveBalance,
    InMemoryStore.livePostings_of_reserved hreserved,
    InMemoryStore.livePostings_of_reserved hconsistent.reserved, keyTotal_perm hbefore,
    keyTotal_perm hafter, keyTotal_append, keyTotal_append]
  omega

end Commit

/-! ## What is active is what was created -/

/-- Stored transfers are filed under their own ids, and the postings of those
that create at most 65536 are recorded, and are active if at all, as created. -/
structure Faithful (store : InMemoryStore) : Prop where
  filed : ∀ tid record, store.transfers.lookup tid = some record → record.receipt.transferId = tid
  recorded : ∀ tid record, store.transfers.lookup tid = some record →
    record.envelope.creates.length ≤ 65536 →
    ∀ posting ∈ createdPostings tid record.envelope.creates,
      store.postings.immutable.lookup posting.id = some posting
  active : ∀ tid record, store.transfers.lookup tid = some record →
    record.envelope.creates.length ≤ 65536 →
    ∀ posting ∈ createdPostings tid record.envelope.creates,
      ∀ live, store.postings.active.lookup posting.id = some live → live = posting

theorem faithful_new : Faithful InMemoryStore.new where
  filed _ _ hlookup := by cases hlookup
  recorded _ _ hlookup := by cases hlookup
  active _ _ hlookup := by cases hlookup

/-- While all postings of a transfer are active, they are so as created. -/
theorem Faithful.activeOf_created {store : InMemoryStore} (hfaithful : Faithful store)
    {tid : EnvelopeId} {record : EnvelopeRecord} (hstored : store.transfers.lookup tid = some record)
    (hindex : record.envelope.creates.length ≤ 65536)
    (hactive : ∀ id ∈ createdPostingIds tid record.envelope.creates, id ∈ store.postings.active) :
    store.activeOf (createdPostingIds tid record.envelope.creates) =
      createdPostings tid record.envelope.creates := by
  rw [← map_id_createdPostings] at hactive ⊢
  refine HashMap.filterMap_lookup_eq (List.forall₂_map_left_iff.mpr (List.forall₂_same.mpr ?_))
  intro posting hposting
  obtain ⟨live, hlive⟩ := HashMap.mem_iff_exists_lookup.mp (hactive _ (List.mem_map_of_mem hposting))
  rwa [hfaithful.active tid record hstored hindex posting hposting live hlive] at hlive

variable [Sha256]

omit [Sha256] in
/-- The postings of different transfers have no id in common. -/
theorem id_ne_of_transfer_ne {tid other : EnvelopeId} (hne : other ≠ tid)
    {creates otherCreates : List NewPosting} {posting otherPosting : Posting}
    (hposting : posting ∈ createdPostings tid creates)
    (hother : otherPosting ∈ createdPostings other otherCreates) :
    otherPosting.id ≠ posting.id := by
  intro heq
  apply hne
  rw [← transfer_of_mem_createdPostings hposting, ← transfer_of_mem_createdPostings hother, heq]

theorem Faithful.commit {store : InMemoryStore} {clock : Clock} {req : CommitRequest}
    {consumed : List Posting} (hfaithful : Faithful store) (hconsistent : Consistent store)
    (hvalid : Validated store req consumed) (hfresh : req.transferId ∉ store.transfers) :
    Faithful (store.applyCommit clock req) where
  filed tid record hlookup := by
    rw [lookup_transfers_applyCommit] at hlookup
    split at hlookup
    next heq =>
      cases hlookup
      rw [hvalid.receipt, heq]
    next => exact hfaithful.filed tid record hlookup
  recorded tid record hlookup hindex posting hposting := by
    rw [lookup_transfers_applyCommit] at hlookup
    rw [InMemoryStore.applyCommit_immutable]
    split at hlookup
    next heq =>
      cases hlookup
      subst heq
      rw [← hvalid.create] at hposting
      have hnodup : (req.create.map (·.id)).Nodup :=
        hvalid.create ▸ nodup_map_id_createdPostings hindex
      refine InMemoryStore.lookup_insertMissing_of_fresh hnodup (fun other hother hmem => ?_) hposting
      have hnew : other.id ∈ createdPostingIds req.transferId req.record.envelope.creates := by
        rw [← map_id_createdPostings, ← hvalid.create]
        exact List.mem_map_of_mem hother
      exact not_created_of_fresh hfresh hnew ((hconsistent.mem_immutable _).mp hmem)
    next =>
      exact InMemoryStore.lookup_insertMissing_of_mem
        (hfaithful.recorded tid record hlookup hindex posting hposting)
  active tid record hlookup hindex posting hposting live hlive := by
    rw [lookup_transfers_applyCommit] at hlookup
    rw [InMemoryStore.applyCommit_active] at hlive
    split at hlookup
    next heq =>
      cases hlookup
      subst heq
      rw [← hvalid.create] at hposting
      have hnodup : (req.create.map (·.id)).Nodup :=
        hvalid.create ▸ nodup_map_id_createdPostings hindex
      rw [HashMap.lookup_insertAll_of_mem hnodup hposting] at hlive
      exact (Option.some.inj hlive).symm
    next hne =>
      rw [HashMap.lookup_insertAll_of_notMem fun other hother => ?_, HashMap.lookup_eraseAll] at hlive
      · split at hlive
        next => cases hlive
        next => exact hfaithful.active tid record hlookup hindex posting hposting live hlive
      · rw [hvalid.create] at hother
        exact id_ne_of_transfer_ne (Ne.symm hne) hposting hother

theorem StoreStep.faithful {submits : Envelope → Prop} {before after : InMemoryStore}
    (hstep : StoreStep submits before after) (hconsistent : Consistent before)
    (hfaithful : Faithful before) : Faithful after := by
  obtain ⟨hpostings, htransfers, _⟩ | ⟨order, clock, req, consumed, hvalid, _, hfresh, hguards,
    rfl⟩ := hstep.postings_cases
  · refine ⟨?_, ?_, ?_⟩
    · rw [htransfers]
      exact hfaithful.filed
    · rw [htransfers, hpostings]
      exact hfaithful.recorded
    · rw [htransfers, hpostings]
      exact hfaithful.active
  · exact hfaithful.commit hconsistent hvalid hfresh

theorem faithful_after (ledger : Ledger) (actions : List LedgerAction) :
    Faithful (storeAfter ledger actions) := by
  have hkeep : ∀ before after : InMemoryStore, WellFormed before →
      StoreStep (fun _ => True) before after → Consistent before ∧ Faithful before →
      Consistent after ∧ Faithful after :=
    fun _ _ _ hstep h => ⟨hstep.consistent h.1, hstep.faithful h.1 h.2⟩
  exact (reachable_induction ledger ⟨consistent_new, faithful_new⟩ hkeep actions).2

end Kuatia
