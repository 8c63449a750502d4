import Kuatia.Core.Specification
import Kuatia.Ledger.Acceptance
import Kuatia.Ledger.Owners
import Kuatia.Ledger.Rerouting

/-! # Commits that cannot fail

A commit that runs alone reads one state of the store. Once loading and validation
accept what is in that state and the guards of the store let the request pass, the
only thing left to fail is the clock.
-/

namespace Kuatia

open LedgerM

open MoneyWidth (backing)

variable [MoneyWidth] {before after : World}

/-! ## Loading -/

theorem OnlyOpened.sumsUp {first second : InMemoryStore} (hopened : OnlyOpened first second)
    (hconsistent : Consistent first) {order other : IterationOrder} {key : BalanceKey}
    (hsum : SumsUp first other key) : SumsUp second order key := by
  rw [SumsUp, hopened.getPostingsByAccount_eq hconsistent order other _ _ _ (.inr rfl)]
  exact hsum

theorem OnlyOpened.liveBalance_eq {first second : InMemoryStore}
    (hopened : OnlyOpened first second) (key : BalanceKey) :
    second.liveBalance key = first.liveBalance key := by
  rw [InMemoryStore.liveBalance, InMemoryStore.livePostings, hopened.postings]
  rfl

theorem SumsUp.holds {store : InMemoryStore} {order : IterationOrder} {key : BalanceKey}
    (hsum : SumsUp store order key) : Cent.Holds (store.liveBalance key) := by
  obtain ⟨value, hvalue⟩ := hsum
  rw [← InMemoryStore.val_of_sum_live hvalue]
  exact Cent.holds_of_val value

/-- Nothing adds up to zero. -/
theorem OwnsNothing.sumsUp {store : InMemoryStore} {id : AccountId}
    (hnothing : OwnsNothing store id) (order : IterationOrder) (asset : AssetId) :
    SumsUp store order (id, asset) := by
  have hperm := InMemoryStore.getPostingsByAccount_perm order (id, asset) .live
    (store.postingsOf_live_perm order)
  rw [hnothing.livePostings_filter] at hperm
  refine ⟨.ZERO, ?_⟩
  rw [hperm.eq_nil]
  rfl

/-- Loading succeeds if the accounts and the book are there and all balances that
are needed add up. -/
theorem load_total {envelope : Envelope} {consumed : List Posting}
    (hwell : WellFormed before.store)
    (hfound : List.Forall₂ (fun id posting =>
      before.store.postings.immutable.lookup id = some posting) envelope.consumes consumed)
    (haccounts : ∀ id ∈ (requiredState envelope consumed).accounts, ∃ account,
      before.store.latest id = some account)
    (hsums : ∀ key ∈ (requiredState envelope consumed).balances, ∀ order,
      SumsUp before.store order key)
    (hbook : envelope.book ∈ before.store.books ∨ envelope.book = DEFAULT_BOOK)
    {result : Except LedgerError LoadedState} (halone : Alone (load envelope) before result after) :
    ∃ loaded, result = .ok loaded ∧ LoadedFrom before.store envelope loaded := by
  have hrecords : ∀ id ∈ envelope.consumes, id ∈ before.store.postings.immutable := by
    intro id hid
    obtain ⟨posting, _, hlookup⟩ := hfound.exists_of_mem_left hid
    exact HashMap.mem_iff_exists_lookup.mpr ⟨posting, hlookup⟩
  have hsame : ∀ others, before.store.getPostings envelope.consumes = .ok others →
      others = consumed := fun others hothers =>
    (InMemoryStore.getPostings_eq_ok_iff.mp hothers).unique hfound
  obtain ⟨loaded, hresult, hloaded, _⟩ | ⟨err, _, hfailure, hoverflow⟩ :=
    load_cases hwell hrecords halone
  · exact ⟨loaded, hresult, hloaded⟩
  exfalso
  cases hfailure with
  | accountMissing hothers hid hmissing =>
      rw [hsame _ hothers] at hid
      obtain ⟨account, hlatest⟩ := haccounts _ hid
      cases hmissing.symm.trans hlatest
  | bookNotFound hmissing hother => exact hbook.elim hmissing hother
  | overflow =>
      obtain ⟨others, hothers, key, hkey, order, hfails⟩ := hoverflow rfl
      rw [hsame _ hothers] at hkey
      exact hfails (hsums key hkey order)

/-! ## Validating and committing -/

variable [Sha256] {envelope : Envelope}

/-- What is checked from the loaded state is planned. -/
theorem LoadedFrom.plan_eq {store : InMemoryStore} {loaded : LoadedState}
    (hloaded : LoadedFrom store envelope loaded) {order : IterationOrder} {consumed : List Posting}
    (hchecked : Checked order (loaded.input envelope) consumed) :
    plan order envelope loaded = .ok (planOf envelope) := by
  rw [hloaded.plan_eq_validate, Except.mapError_eq_ok_iff]
  exact validateAndPlan_eq_ok_iff.mpr ⟨⟨consumed, hchecked⟩, rfl⟩

/-- Nothing but the clock can make a commit of the envelope fail. -/
structure Deliverable (store : InMemoryStore) (envelope : Envelope) : Prop where
  pinned : envelope.accountSnapshots ≠ []
  loads : ∀ {clock result after}, Alone (load envelope) ⟨store, clock⟩ result after →
    ∃ loaded, result = .ok loaded ∧ LoadedFrom store envelope loaded
  plans : ∀ {loaded}, LoadedFrom store envelope loaded → ∀ order,
    plan order envelope loaded = .ok (planOf envelope)
  passes : ∀ {loaded}, LoadedFrom store envelope loaded → ∀ order ts,
    store.commitGuards order (commitRequest envelope (planOf envelope) loaded ts) = .ok ()

theorem Deliverable.commitPinned {store : InMemoryStore} {clock : Clock}
    (hdeliverable : Deliverable store envelope) {result : Except LedgerError Receipt}
    (halone : Alone (commitPinned envelope) ⟨store, clock⟩ result after) :
    (∃ receipt, result = .ok receipt) ∨ ∃ err, result = .error err ∧ after.clock = none := by
  obtain ⟨loaded, first, hload, hrest⟩ | ⟨err, hload, _⟩ := alone_bind_iff.mp halone
  swap
  · obtain ⟨_, hok, _⟩ := hdeliverable.loads hload
    cases hok
  obtain ⟨_, hok, hloaded⟩ := hdeliverable.loads hload
  cases hok
  have hfirst := (load_readOnly envelope).store_eq hload
  obtain ⟨planned, second, hplan, hrest⟩ | ⟨err, hplan, _⟩ := alone_bind_iff.mp hrest
  all_goals
    have hsecond := ((ReadOnly.compute _).store_eq hplan).trans hfirst
    obtain ⟨order, hplan⟩ := alone_compute hplan
    rw [hdeliverable.plans hloaded order] at hplan
    cases hplan
  obtain ⟨ts, third, hnow, hrest⟩ | ⟨err, hnow, rfl⟩ := alone_bind_iff.mp hrest
  swap
  · obtain ⟨_, hok⟩ | ⟨_, hclock⟩ := nowMillis_cases hnow
    · cases hok
    · exact .inr ⟨err, rfl, hclock⟩
  have hthird := (ReadOnly.nowMillis.store_eq hnow).trans hsecond
  obtain ⟨outcome, fourth, hact, hrest⟩ | ⟨_, hact, _⟩ := alone_bind_iff.mp hrest
  swap
  · obtain ⟨_, hvalue, _⟩ := alone_act_iff.mp hact
    cases hvalue
  obtain ⟨choice, houtcome, rfl⟩ := alone_act_iff.mp hact
  cases houtcome
  left
  -- the store has stored the transfer already, or its guards let the request pass
  have hresult := alone_attempts hrest
  rw [hthird, InMemoryStore.commitEnvelope] at hresult
  dsimp only at hresult
  split at hresult
  next existing _ => exact ⟨existing.receipt, hresult⟩
  next =>
    rw [hdeliverable.passes hloaded choice.order ts] at hresult
    exact ⟨_, hresult⟩

/-- However a commit of the envelope runs, it returns a receipt unless the clock
fails. -/
theorem Deliverable.commitEnvelope {store : InMemoryStore} {clock : Clock}
    (hdeliverable : Deliverable store envelope) {result : Except LedgerError Receipt}
    (halone : Alone (commitEnvelope envelope) ⟨store, clock⟩ result after) :
    (∃ receipt, result = .ok receipt) ∨ ∃ err, result = .error err ∧ after.clock = none := by
  rw [Kuatia.commitEnvelope, pinSnapshots, if_neg hdeliverable.pinned, pure_bind] at halone
  obtain ⟨existing, middle, hread, hrest⟩ | ⟨err, hread, _⟩ := alone_bind_iff.mp halone
  swap
  · obtain ⟨_, hvalue, _⟩ := alone_read_iff.mp hread
    cases hvalue
  obtain ⟨choice, hexisting, rfl⟩ := alone_read_iff.mp hread
  cases hexisting
  split at hrest
  next record _ => exact .inl ⟨record.receipt, (alone_pure_iff.mp hrest).1⟩
  next => exact hdeliverable.commitPinned hrest

end Kuatia
