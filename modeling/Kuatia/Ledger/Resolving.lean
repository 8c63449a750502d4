import Kuatia.Core.ResolutionLaws
import Kuatia.Ledger.Alone
import Kuatia.Storage.Live

/-! # Resolving a transfer against one state

Resolution that runs alone selects among the active postings of the debited
accounts, as they are in the store, and pins the current account versions.
-/

namespace Kuatia

open LedgerM

variable [MoneyWidth] {before after : World}

/-- What has been read for the debits is what the store holds. -/
structure Reads (store : InMemoryStore) (state : ResolveState) : Prop where
  available : ∀ key postings, state.available.lookup key = some postings →
    postings.Perm (store.postings.active.values.filter (·.key = key))
  accounts : ∀ id account, state.accounts.lookup id = some account →
    store.latest id = some account

theorem reads_empty (store : InMemoryStore) : Reads store ⟨∅, ∅⟩ where
  available _ _ hlookup := by cases hlookup
  accounts _ _ hlookup := by cases hlookup

theorem Reads.insert_available {store : InMemoryStore} {state : ResolveState}
    (hreads : Reads store state) (order : IterationOrder) (debit : Debit) :
    Reads store ⟨state.available.insert debit.key (store.getPostingsByAccount order
      debit.account.id (some debit.account.sub) (some debit.asset) .active), state.accounts⟩ where
  available key postings hlookup := by
    rw [HashMap.lookup_insert_eq] at hlookup
    split at hlookup
    next heq =>
      cases hlookup
      subst heq
      exact InMemoryStore.getPostingsByAccount_perm order debit.key .active
        (InMemoryStore.postingsOf_active_perm order)
    next => exact hreads.available key postings hlookup
  accounts := hreads.accounts

theorem Reads.insert_account {store : InMemoryStore} {state : ResolveState}
    (hreads : Reads store state) {id : AccountId} {account : Account}
    (hlatest : store.latest id = some account) :
    Reads store ⟨state.available, state.accounts.insert id account⟩ where
  available := hreads.available
  accounts other found hlookup := by
    rw [HashMap.lookup_insert_eq] at hlookup
    split at hlookup
    next heq =>
      cases hlookup
      rw [heq, hlatest]
    next => exact hreads.accounts other found hlookup

theorem loadDebit_alone {state next : ResolveState} {debit : Debit}
    (hreads : Reads before.store state)
    (halone : Alone (loadDebit state debit) before (.ok next) after) :
    Reads before.store next := by
  obtain ⟨postings, first, hread, hrest⟩ := alone_bind_ok_iff.mp halone
  obtain ⟨choice, hvalue, rfl⟩ := alone_read_iff.mp hread
  cases hvalue
  have havailable := hreads.insert_available choice.order debit
  dsimp only at hrest
  split at hrest
  next =>
    cases (alone_pure_iff.mp hrest).1
    exact havailable
  next =>
    obtain ⟨found, second, hread, hrest⟩ := alone_bind_ok_iff.mp hrest
    obtain ⟨_, hvalue, rfl⟩ := alone_read_iff.mp hread
    cases hvalue
    obtain ⟨account, third, haccount, hrest⟩ := alone_bind_ok_iff.mp hrest
    have hfound := (alone_attempt_iff.mp haccount).1.symm
    rw [Except.mapError_eq_ok_iff, InMemoryStore.getAccount_eq_ok_iff] at hfound
    cases (alone_pure_iff.mp hrest).1
    exact havailable.insert_account hfound

theorem loadDebits_alone {debits : List Debit} {state last : ResolveState}
    (hreads : Reads before.store state)
    (halone : Alone (debits.foldlM loadDebit state) before (.ok last) after) :
    Reads before.store last := by
  induction debits generalizing state before with
  | nil =>
      cases (alone_pure_iff.mp halone).1
      exact hreads
  | cons debit debits ih =>
      obtain ⟨next, middle, hdebit, hrest⟩ := alone_bind_ok_iff.mp halone
      have hstore := (loadDebit_readOnly state debit).store_eq hdebit
      have hnext := loadDebit_alone hreads hdebit
      rw [← hstore] at hnext ⊢
      exact ih hnext hrest

theorem Reads.keyed {store : InMemoryStore} {state : ResolveState} (hreads : Reads store state) :
    Keyed state.available := by
  intro key posting hposting
  cases hlookup : state.available.lookup key with
  | none =>
      rw [hlookup] at hposting
      cases hposting
  | some postings =>
      rw [hlookup] at hposting
      have hmem := (hreads.available key postings hlookup).mem_iff.mp hposting
      exact of_decide_eq_true (List.mem_filter.mp hmem).2

/-- What resolution makes of a transfer in one state of the store: it spends some
positive active postings of the debited accounts, and besides the credits it
creates what makes up the differences. -/
structure Resolved [Sha256] (store : InMemoryStore) (transfer : Transfer) (envelope : Envelope)
    (spent : List Posting) (extra : List NewPosting) : Prop where
  consumes : envelope.consumes = spent.map (·.id)
  creates : envelope.creates = transfer.movements.map Movement.credit ++ extra
  selected : ∀ key, ∃ left, (spent.filter (·.key = key) ++ left).Perm
    (positives (store.postings.active.values.filter (·.key = key)))
  debited : ∀ posting ∈ spent, 0 < transfer.outgoing posting.key
  few : extra.length ≤ transfer.movements.length
  exact : ∀ key, keyTotal Posting.key Posting.value spent key -
    keyTotal NewPosting.key NewPosting.value extra key = max 0 (transfer.outgoing key)
  permits : ∀ posting ∈ extra, posting.value.val < 0 → ∃ account,
    store.latest posting.owner = some account ∧ account.forbidsOverdraft = false
  pinned : ∃ accounts, store.getAccounts envelope.referencedAccounts = .ok accounts ∧
    envelope.accountSnapshots = accounts.map accountSnapshotId
  book : envelope.book = transfer.book
  metadata : envelope.metadata = transfer.metadata

/-- For each source one posting at most makes up the difference, and only if the
source owes something. -/
structure MadeUp (transfer : Transfer) (extra : List NewPosting) : Prop where
  keys : (extra.map NewPosting.key).Nodup
  owed : ∀ posting ∈ extra, 0 < transfer.outgoing posting.key

/-- What covers the debits of a draft from what was read covers the transfer in the store. -/
theorem Resolves.resolved_parts {store : InMemoryStore} {transfer : Transfer}
    {draft : MovementDraft} {state : ResolveState} {spent : List Posting} {extra : List NewPosting}
    (hreads : Reads store state) (hdraft : Drafts transfer draft)
    (hresolves : Resolves state.available state.accounts draft.debits spent extra) :
    (∀ key, ∃ left, (spent.filter (·.key = key) ++ left).Perm
      (positives (store.postings.active.values.filter (·.key = key)))) ∧
    (∀ posting ∈ spent, 0 < transfer.outgoing posting.key) ∧
    (∀ key, keyTotal Posting.key Posting.value spent key -
      keyTotal NewPosting.key NewPosting.value extra key = max 0 (transfer.outgoing key)) := by
  refine ⟨fun key => ?_, fun posting hposting => ?_, fun key => ?_⟩
  · obtain ⟨left, hperm⟩ := hresolves.selected key
    cases hlookup : state.available.lookup key with
    | none =>
        rw [hlookup] at hperm
        have hnil : spent.filter (·.key = key) = [] :=
          (List.append_eq_nil_iff.mp hperm.eq_nil).1
        exact ⟨_, by rw [hnil]; exact .refl _⟩
    | some postings =>
        rw [hlookup] at hperm
        exact ⟨left, hperm.trans ((hreads.available key postings hlookup).filter _)⟩
  · have hpositive := keyTotal_pos hdraft.positive (hresolves.debited posting hposting)
    rw [hdraft.covers] at hpositive
    omega
  · rw [hresolves.exact, hdraft.covers]

variable [Sha256]

/-- A resolution that runs alone resolves the transfer in the store it finds, and
makes up no difference with an empty posting. -/
theorem resolve_alone_nonzero {transfer : Transfer} {envelope : Envelope}
    (halone : Alone (resolve transfer) before (.ok envelope) after) :
    ∃ spent extra, Resolved before.store transfer envelope spent extra ∧ MadeUp transfer extra ∧
      ∀ posting ∈ extra, posting.value.val ≠ 0 := by
  obtain ⟨draft, first, hdraft, hrest⟩ := alone_bind_ok_iff.mp halone
  have hfirst := (ReadOnly.compute _).store_eq hdraft
  obtain ⟨order, hdraft⟩ := alone_compute hdraft
  have hdraft := draftMovements_eq_ok (Except.mapError_eq_ok_iff.mp hdraft.symm)
  obtain ⟨state, second, hload, hrest⟩ := alone_bind_ok_iff.mp hrest
  have hsecond := (ReadOnly.foldlM loadDebit_readOnly _ _).store_eq hload
  have hreads := loadDebits_alone (reads_empty _) hload
  obtain ⟨unpinned, third, henvelope, hrest⟩ := alone_bind_ok_iff.mp hrest
  obtain ⟨hunpinned, rfl⟩ := alone_attempt_iff.mp henvelope
  obtain ⟨spent, extra, hresolves, hsingle, rfl⟩ :=
    resolveEnvelope_eq_ok hreads.keyed hdraft (Except.mapError_eq_ok_iff.mp hunpinned.symm)
  obtain ⟨snapshots, fourth, hsnapshots, hrest⟩ := alone_bind_ok_iff.mp hrest
  have hpinned := resolveSnapshots_alone hsnapshots
  cases (alone_pure_iff.mp hrest).1
  rw [hfirst] at hreads
  rw [hsecond, hfirst] at hpinned
  obtain ⟨hselected, hdebited, hexact⟩ := hresolves.resolved_parts hreads hdraft
  refine ⟨spent, extra, ⟨rfl, rfl, hselected, hdebited,
    hresolves.few.trans hdraft.length_debits_le, hexact, ?_, hpinned, rfl, rfl⟩, ⟨hsingle, ?_⟩,
    hresolves.nonzero⟩
  · intro posting hposting hnegative
    obtain ⟨account, hlookup, hpermits⟩ := hresolves.permits posting hposting hnegative
    exact ⟨account, hreads.accounts _ _ hlookup, hpermits⟩
  · intro posting hposting
    have hpositive := keyTotal_pos hdraft.positive (hresolves.keyed posting hposting)
    rw [hdraft.covers] at hpositive
    omega

theorem resolve_alone_madeUp {transfer : Transfer} {envelope : Envelope}
    (halone : Alone (resolve transfer) before (.ok envelope) after) :
    ∃ spent extra, Resolved before.store transfer envelope spent extra ∧ MadeUp transfer extra := by
  obtain ⟨spent, extra, hresolved, hmadeUp, _⟩ := resolve_alone_nonzero halone
  exact ⟨spent, extra, hresolved, hmadeUp⟩

theorem resolve_alone {transfer : Transfer} {envelope : Envelope}
    (halone : Alone (resolve transfer) before (.ok envelope) after) :
    ∃ spent extra, Resolved before.store transfer envelope spent extra := by
  obtain ⟨spent, extra, hresolved, _⟩ := resolve_alone_madeUp halone
  exact ⟨spent, extra, hresolved⟩

end Kuatia
