import Kuatia.Ledger.DoubleSpend
import Kuatia.Ledger.Sample
import Kuatia.Storage.Live
import Kuatia.Utxo.History

/-! # The store refines a history of transactions

As long as the posting index does not wrap, the active postings of a reachable
store are the live outputs of a valid history with one balanced transaction for
every stored transfer. What holds of such histories then holds of the store.
-/

namespace Kuatia

section Refinement

variable [MoneyWidth]

/-- Every stored transfer creates at most as many postings as a `u16` can index. -/
def Indexed (store : InMemoryStore) : Prop :=
  ∀ record ∈ store.transfers.values, record.envelope.creates.length ≤ 65536

instance (store : InMemoryStore) : Decidable (Indexed store) :=
  inferInstanceAs (Decidable (∀ record ∈ store.transfers.values, _))

theorem Indexed.creates_le {store : InMemoryStore} (hindexed : Indexed store) {tid : EnvelopeId}
    {record : EnvelopeRecord} (hstored : store.transfers.lookup tid = some record) :
    record.envelope.creates.length ≤ 65536 :=
  hindexed record (HashMap.mem_values_iff.mpr ⟨tid, hstored⟩)

/-- A transaction of the abstract history, labelled with the stored transfer. -/
abbrev LedgerTx := Utxo.Tx EnvelopeRecord Posting

/-- The transaction is what the stored transfer says, and it is balanced. -/
structure Describes (store : InMemoryStore) (tx : LedgerTx) : Prop where
  stored : store.transfers.lookup tx.label.receipt.transferId = some tx.label
  creates : tx.creates = createdPostings tx.label.receipt.transferId tx.label.envelope.creates
  spends : tx.spends.map (·.id) = tx.label.envelope.consumes
  recorded : ∀ posting ∈ tx.creates ++ tx.spends,
    store.postings.immutable.lookup posting.id = some posting
  balanced : ∀ asset, keyTotal Posting.asset Posting.value tx.creates asset =
    keyTotal Posting.asset Posting.value tx.spends asset

/-- The store is the result of a valid history of its stored transfers. -/
structure Refines (store : InMemoryStore) (history : List LedgerTx) : Prop where
  valid : Utxo.Valid Posting.id history store.postings.active
  describes : ∀ tx ∈ history, Describes store tx
  complete : ∀ tid record, store.transfers.lookup tid = some record →
    record.receipt.transferId = tid ∧ ∃ tx ∈ history, tx.label = record
  distinct : (history.map fun tx => tx.label.receipt.transferId).Nodup

theorem refines_new : Refines InMemoryStore.new [] where
  valid := .start
  describes _ htx := by cases htx
  complete _ _ hlookup := by cases hlookup
  distinct := .nil

variable [Sha256]

theorem Describes.later {before after : InMemoryStore} (hevolves : Evolves before after)
    {tx : LedgerTx} (h : Describes before tx) : Describes after tx where
  stored := hevolves.lookup_transfers h.stored
  creates := h.creates
  spends := h.spends
  recorded posting hposting := hevolves.lookup_immutable (h.recorded posting hposting)
  balanced := h.balanced

/-- The records a validated request consumes have the ids it consumes. -/
theorem Validated.map_id {store : InMemoryStore} {req : CommitRequest} {consumed : List Posting}
    (hvalid : Validated store req consumed) (hwell : WellFormed store) :
    consumed.map (·.id) = req.record.envelope.consumes :=
  HashMap.map_key_eq hwell.immutable hvalid.found

/-- What a validated request creates and consumes is balanced in every asset. -/
theorem Validated.balanced_create {store : InMemoryStore} {req : CommitRequest}
    {consumed : List Posting} (hvalid : Validated store req consumed) (asset : AssetId) :
    keyTotal Posting.asset Posting.value req.create asset =
      keyTotal Posting.asset Posting.value consumed asset := by
  rw [hvalid.balanced, hvalid.create, keyTotal_eq_sum, keyTotal_eq_sum]
  exact congrArg List.sum (map_createdPostings _ _ fun _ postingAsset value =>
    if postingAsset = asset then value.val else 0)

/-- A committed request extends the history by one applicable transaction. -/
theorem Refines.commit {store : InMemoryStore} {history : List LedgerTx} {clock : Clock}
    {order : IterationOrder} {req : CommitRequest} {consumed : List Posting}
    (hrefines : Refines store history) (hwell : WellFormed store)
    (hconsistent : Consistent store) (hvalid : Validated store req consumed)
    (hfresh : req.transferId ∉ store.transfers) (hguards : store.commitGuards order req = .ok ())
    (hindex : req.record.envelope.creates.length ≤ 65536)
    (hevolves : Evolves store (store.applyCommit clock req)) :
    Refines (store.applyCommit clock req) (⟨req.record, consumed, req.create⟩ :: history) := by
  have hids := hvalid.map_id hwell
  have hcreateIds : req.create.map (·.id) =
      createdPostingIds req.transferId req.record.envelope.creates := by
    rw [hvalid.create, map_id_createdPostings]
  have htid : req.record.receipt.transferId = req.transferId := by rw [hvalid.receipt]
  have hnodup : (req.create.map (·.id)).Nodup := hcreateIds ▸ nodup_createdPostingIds hindex
  have hunstored : ∀ tx ∈ history, tx.label.receipt.transferId ≠ req.transferId := by
    intro tx htx heq
    exact hfresh (heq ▸ HashMap.mem_iff_exists_lookup.mpr ⟨_, (hrefines.describes tx htx).stored⟩)
  have huncreated : ∀ tx ∈ history, ∀ id ∈ tx.createdIds Posting.id,
      id.transfer ≠ req.transferId := by
    intro tx htx id hid heq
    obtain ⟨posting, hposting, rfl⟩ := List.mem_map.mp hid
    rw [(hrefines.describes tx htx).creates] at hposting
    exact hunstored tx htx ((transfer_of_mem_createdPostings hposting).symm.trans heq)
  obtain ⟨_, hactive, _⟩ := InMemoryStore.commitGuards_eq_ok_iff.mp hguards
  rw [InMemoryStore.doubleSpendGuard_eq_ok_iff, hvalid.consume] at hactive
  have happlicable : Utxo.Applicable Posting.id history store.postings.active
      ⟨req.record, consumed, req.create⟩ := by
    refine ⟨?_, fun posting hposting => ?_, hnodup, fun id hid hcreated => ?_⟩
    · rw [Utxo.Tx.spentIds, hids]
      exact hvalid.nodup
    · -- An active posting is the recorded one, which is the one the client has read.
      obtain ⟨id, hid, hrecord⟩ := hvalid.found.exists_of_mem_right hposting
      obtain ⟨live, hlive⟩ := HashMap.mem_iff_exists_lookup.mp (hactive id hid)
      obtain ⟨rfl, tx, htx, hmade⟩ := hrefines.valid.of_lookup hlive
      have hsame := (hrefines.describes tx htx).recorded live (List.mem_append_left _ hmade)
      rw [hsame] at hrecord
      cases hrecord
      exact hlive
    · -- a fresh transfer id makes fresh posting ids
      obtain ⟨tx, htx, hmem⟩ := hcreated
      have hnew : id ∈ createdPostingIds req.transferId req.record.envelope.creates :=
        hcreateIds ▸ hid
      exact huncreated tx htx id hmem (transfer_of_mem_createdPostingIds hnew)
  have happly : (store.applyCommit clock req).postings.active =
      Utxo.Tx.apply Posting.id ⟨req.record, consumed, req.create⟩ store.postings.active := by
    rw [InMemoryStore.applyCommit_active, Utxo.Tx.apply, Utxo.Tx.spentIds, hids, hvalid.consume]
  refine ⟨happly ▸ .extend hrefines.valid happlicable, fun tx htx => ?_,
    fun tid record hlookup => ?_, ?_⟩
  · rcases List.mem_cons.mp htx with rfl | htx
    · refine ⟨?_, by rw [htid, hvalid.create], hids, fun posting hposting => ?_, ?_⟩
      · rw [htid, lookup_transfers_applyCommit, if_pos rfl]
      · -- what it creates is recorded now; what it spends has been recorded before
        rcases List.mem_append.mp hposting with hposting | hposting
        · rw [InMemoryStore.applyCommit_immutable]
          refine InMemoryStore.lookup_insertMissing_of_fresh hnodup (fun other hother hmem => ?_)
            hposting
          have hnew : other.id ∈ createdPostingIds req.transferId req.record.envelope.creates :=
            hcreateIds ▸ List.mem_map_of_mem hother
          exact not_created_of_fresh hfresh hnew ((hconsistent.mem_immutable _).mp hmem)
        · obtain ⟨id, _, hrecord⟩ := hvalid.found.exists_of_mem_right hposting
          rw [hwell.immutable id posting hrecord]
          exact hevolves.lookup_immutable hrecord
      · exact hvalid.balanced_create
    · exact (hrefines.describes tx htx).later hevolves
  · rw [lookup_transfers_applyCommit] at hlookup
    split at hlookup
    next heq =>
      cases hlookup
      exact ⟨htid.trans heq.symm, _, List.mem_cons_self, rfl⟩
    next =>
      obtain ⟨hreceipt, tx, htx, hlabel⟩ := hrefines.complete tid record hlookup
      exact ⟨hreceipt, tx, List.mem_cons_of_mem _ htx, hlabel⟩
  · rw [List.map_cons, List.nodup_cons, htid]
    refine ⟨fun hmem => ?_, hrefines.distinct⟩
    obtain ⟨tx, htx, heq⟩ := List.mem_map.mp hmem
    exact hunstored tx htx heq

theorem Indexed.earlier {before after : InMemoryStore} (hevolves : Evolves before after)
    (hindexed : Indexed after) : Indexed before := by
  intro record hrecord
  obtain ⟨tid, hlookup⟩ := HashMap.mem_values_iff.mp hrecord
  exact hindexed.creates_le (hevolves.lookup_transfers hlookup)

theorem refines_after (ledger : Ledger) {actions : List LedgerAction}
    (hindexed : Indexed (storeAfter ledger actions)) :
    ∃ history, Refines (storeAfter ledger actions) history := by
  induction actions using List.reverseRecOn with
  | nil => exact ⟨[], refines_new⟩
  | append_singleton actions action ih =>
      have hstep := storeStep_after ledger actions action
      have hevolves := Evolves.of_step hstep
      obtain ⟨history, hrefines⟩ := ih (hindexed.earlier hevolves)
      obtain ⟨hpostings, htransfers, _⟩ | ⟨order, clock, req, consumed, hvalid, _, hfresh, hguards,
        hafter⟩ := hstep.postings_cases
      · refine ⟨history, hpostings ▸ hrefines.valid, fun tx htx =>
          (hrefines.describes tx htx).later hevolves, htransfers ▸ hrefines.complete,
          hrefines.distinct⟩
      · rw [hafter] at hindexed hevolves ⊢
        refine ⟨_, hrefines.commit (wellFormed_after ledger actions)
          (consistent_after ledger actions) hvalid hfresh hguards ?_ hevolves⟩
        refine hindexed req.record (HashMap.mem_values_iff.mpr ⟨req.transferId, ?_⟩)
        rw [lookup_transfers_applyCommit, if_pos rfl]

/-- In every run whose transfers create at most 65536 postings each, the live
postings of every asset sum to zero. -/
theorem assets_conserved (ledger : Ledger) (actions : List LedgerAction)
    (hindexed : Indexed (storeAfter ledger actions)) (asset : AssetId) :
    (storeAfter ledger actions).liveTotal asset = 0 := by
  obtain ⟨history, hrefines⟩ := refines_after ledger hindexed
  rw [InMemoryStore.liveTotal,
    InMemoryStore.livePostings_of_reserved (consistent_after ledger actions).reserved,
    keyTotal_eq_sum]
  refine hrefines.valid.sum_live_eq_zero _ fun tx htx => ?_
  have hbalanced := (hrefines.describes tx htx).balanced asset
  rw [keyTotal_eq_sum, keyTotal_eq_sum] at hbalanced
  exact sub_eq_zero.mpr hbalanced

end Refinement

open Sample in
/-- The hypothesis is met by a ledger with a deposit. -/
theorem assets_conserved_funded : (storeAfter ledger funded).liveTotal usd = 0 :=
  assets_conserved ledger funded (by decide +kernel) usd

end Kuatia
