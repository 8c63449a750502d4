import Kuatia.Ledger.Alone
import Kuatia.Storage.Live

/-! # Loading from one state

What a commit reads before it validates is what is in the store. Reading fails
when an account or the book is missing, or when a balance overflows.
-/

namespace Kuatia

open LedgerM

open MoneyWidth (backing)

variable [MoneyWidth] {before after : World}

/-- The live postings under the key add up without overflow, in the order of one
listing. -/
def SumsUp (store : InMemoryStore) (order : IterationOrder) (key : BalanceKey) : Prop :=
  ∃ value, Cent.checkedSum ((store.getPostingsByAccount order key.1.id (some key.1.sub)
    (some key.2) .live).map (·.value)) = .ok value

theorem large_of_not_sumsUp {store : InMemoryStore} {order : IterationOrder} {key : BalanceKey}
    (hoverflow : ¬SumsUp store order key) : Backing.max backing < store.liveMagnitude :=
  not_le.mp fun hroom => hoverflow (InMemoryStore.exists_sum_live order key hroom)

/-- A balance is the exact one, or its sum overflows. -/
theorem computeBalance_cases {key : BalanceKey} {result : Except LedgerError Cent}
    (halone : Alone (computeBalance key.1 key.2) before result after) :
    (∃ value order, result = .ok value ∧ value.val = before.store.liveBalance key ∧
      SumsUp before.store order key) ∨
      result = .error .overflow ∧ ∃ order, ¬SumsUp before.store order key := by
  obtain ⟨postings, middle, hread, hrest⟩ | ⟨_, hread, _⟩ := alone_bind_iff.mp halone
  · obtain ⟨choice, hvalue, rfl⟩ := alone_read_iff.mp hread
    cases hvalue
    obtain ⟨rfl, -⟩ := alone_attempt_iff.mp hrest
    cases hsum : Cent.checkedSum ((before.store.getPostingsByAccount choice.order key.1.id
        (some key.1.sub) (some key.2) .live).map (·.value)) with
    | error err =>
        refine .inr ⟨rfl, choice.order, ?_⟩
        rintro ⟨value, hvalue⟩
        cases hsum.symm.trans hvalue
    | ok value =>
        exact .inl ⟨value, choice.order, rfl, InMemoryStore.val_of_sum_live hsum, value, hsum⟩
  · obtain ⟨_, hvalue, _⟩ := alone_read_iff.mp hread
    cases hvalue

theorem computeBalance_alone {key : BalanceKey} {result : Except LedgerError Cent}
    (halone : Alone (computeBalance key.1 key.2) before result after) :
    (∃ value, result = .ok value ∧ value.val = before.store.liveBalance key) ∨
      result = .error .overflow ∧ Backing.max backing < before.store.liveMagnitude := by
  obtain ⟨value, _, hresult, hexact, _⟩ | ⟨herror, _, hoverflow⟩ := computeBalance_cases halone
  · exact .inl ⟨value, hresult, hexact⟩
  · exact .inr ⟨herror, large_of_not_sumsUp hoverflow⟩

/-- The balances that were loaded are the exact ones. -/
def Exact (store : InMemoryStore) (balances : HashMap BalanceKey Cent) : Prop :=
  ∀ key value, balances.lookup key = some value → value.val = store.liveBalance key

theorem loadBalances_cases {keys : List BalanceKey} {start : HashMap BalanceKey Cent}
    {result : Except LedgerError (HashMap BalanceKey Cent)}
    (hstart : Exact before.store start)
    (halone : Alone (keys.foldlM (fun balances key => do
      let balance ← computeBalance key.1 key.2
      return balances.insert key balance) start) before result after) :
    (∃ balances, result = .ok balances ∧ Exact before.store balances ∧
      (∀ key, key ∈ start ∨ key ∈ keys → key ∈ balances) ∧
      ∀ key ∈ keys, ∃ order, SumsUp before.store order key) ∨
      result = .error .overflow ∧ ∃ key ∈ keys, ∃ order, ¬SumsUp before.store order key := by
  induction keys generalizing start before with
  | nil =>
      obtain ⟨rfl, -⟩ := alone_pure_iff.mp halone
      exact .inl ⟨start, rfl, hstart, by simp, by simp⟩
  | cons head tail ih =>
      obtain ⟨next, middle, hhead, hrest⟩ | ⟨err, hhead, rfl⟩ := alone_bind_iff.mp halone
      · obtain ⟨value, last, hbalance, hpure⟩ := alone_bind_ok_iff.mp hhead
        have hstore := ((computeBalance_readOnly _ _).bind fun _ => .pure _).store_eq hhead
        obtain ⟨value', order, hvalue', hexact, hsum⟩ | ⟨herror, _⟩ := computeBalance_cases hbalance
        swap
        · cases herror
        cases hvalue'
        cases (alone_pure_iff.mp hpure).1
        -- the balance just read is exact, and the other ones stay so
        have hnext : Exact middle.store (start.insert head value) := by
          intro key found hlookup
          rw [HashMap.lookup_insert_eq] at hlookup
          rw [hstore]
          split at hlookup
          next heq =>
            cases hlookup
            rw [hexact, heq]
          next => exact hstart key found hlookup
        rw [← hstore] at hsum ⊢
        obtain ⟨balances, hresult, hbalances, hkeys, hsums⟩ | ⟨herror, key, hkey, hoverflow⟩ :=
          ih hnext hrest
        · refine .inl ⟨balances, hresult, hbalances, fun key hkey => hkeys key ?_,
            List.forall_mem_cons.mpr ⟨⟨order, hsum⟩, hsums⟩⟩
          rw [AList.mem_insert]
          rcases hkey with hkey | hkey
          · exact .inl (.inr hkey)
          · rcases List.mem_cons.mp hkey with rfl | hkey
            · exact .inl (.inl rfl)
            · exact .inr hkey
        · exact .inr ⟨herror, key, List.mem_cons_of_mem _ hkey, hoverflow⟩
      · obtain ⟨_, _, hbalance, hpure⟩ | ⟨err, hbalance, herr⟩ := alone_bind_iff.mp hhead
        · cases (alone_pure_iff.mp hpure).1
        · obtain ⟨_, _, hok, _⟩ | ⟨herror, hoverflow⟩ := computeBalance_cases hbalance
          · cases hok
          · cases herror
            cases herr
            exact .inr ⟨rfl, head, List.mem_cons_self, hoverflow⟩

theorem getAccounts_error {store : InMemoryStore} {ids : List AccountId} {err : StoreError}
    (herr : store.getAccounts ids = .error err) :
    ∃ id ∈ ids, store.latest id = none ∧ err = .notFound s!"account {id.debug}" := by
  obtain ⟨id, hid, herr⟩ := List.exists_of_mapM_eq_error herr
  refine ⟨id, hid, ?_⟩
  unfold InMemoryStore.getAccount at herr
  split at herr
  next => cases herr
  next hnone =>
    cases herr
    exact ⟨hnone, rfl⟩

/-- Why loading fails when the consumed postings are there. -/
inductive LoadFailure (store : InMemoryStore) (envelope : Envelope) : LedgerError → Prop where
  | accountMissing {consumed : List Posting}
      (hconsumed : store.getPostings envelope.consumes = .ok consumed) {id : AccountId}
      (hid : id ∈ (requiredState envelope consumed).accounts) (hmissing : store.latest id = none) :
      LoadFailure store envelope (.store (.notFound s!"account {id.debug}"))
  | bookNotFound (hbook : envelope.book ∉ store.books) (hother : envelope.book ≠ DEFAULT_BOOK) :
      LoadFailure store envelope (.bookNotFound envelope.book)
  | overflow (hlarge : Backing.max backing < store.liveMagnitude) :
      LoadFailure store envelope .overflow

/-- The state that was loaded is the one in the store. -/
structure LoadedFrom (store : InMemoryStore) (envelope : Envelope) (loaded : LoadedState) :
    Prop where
  consumed : List.Forall₂ (fun id posting => store.postings.immutable.lookup id = some posting)
    envelope.consumes loaded.consumedPostings
  accounts : ∀ id account, loaded.accounts.lookup id = some account →
    store.latest id = some account
  balances : Exact store loaded.balances
  covered : ∀ key ∈ (requiredState envelope loaded.consumedPostings).balances,
    key ∈ loaded.balances
  present : ∀ id ∈ (requiredState envelope loaded.consumedPostings).accounts, id ∈ loaded.accounts
  book : loaded.book = store.books.lookup envelope.book

/-- The loaded version of an account that is needed is its latest one. -/
theorem LoadedFrom.lookup_of_latest {store : InMemoryStore} {envelope : Envelope}
    {loaded : LoadedState} (hloaded : LoadedFrom store envelope loaded) {id : AccountId}
    {account : Account} (hlatest : store.latest id = some account)
    (hid : id ∈ (requiredState envelope loaded.consumedPostings).accounts) :
    loaded.accounts.lookup id = some account := by
  obtain ⟨found, hfound⟩ := HashMap.mem_iff_exists_lookup.mp (hloaded.present id hid)
  rw [hfound, ← hloaded.accounts id found hfound, hlatest]

theorem latest_of_insertAll {store : InMemoryStore} (hwell : WellFormed store)
    {ids : List AccountId} {accounts : List Account} (haccounts : store.getAccounts ids = .ok accounts)
    {id : AccountId} {account : Account}
    (hlookup : (HashMap.insertAll ∅ (·.id) accounts).lookup id = some account) :
    store.latest id = some account := by
  rw [InMemoryStore.getAccounts_eq_ok_iff] at haccounts
  obtain ⟨hmem, rfl⟩ | ⟨hold, _⟩ := HashMap.lookup_insertAll_cases hlookup
  · obtain ⟨other, _, hlatest⟩ := haccounts.exists_of_mem_right hmem
    rwa [hwell.versions other account (InMemoryStore.mem_versions_of_latest hlatest)]
  · cases hold

/-- Every account that was asked for is loaded. -/
theorem mem_insertAll_of_getAccounts {store : InMemoryStore} (hwell : WellFormed store)
    {ids : List AccountId} {accounts : List Account} (haccounts : store.getAccounts ids = .ok accounts)
    {id : AccountId} (hid : id ∈ ids) : id ∈ HashMap.insertAll ∅ (·.id) accounts := by
  rw [InMemoryStore.getAccounts_eq_ok_iff] at haccounts
  obtain ⟨account, hmem, hlatest⟩ := haccounts.exists_of_mem_left hid
  exact HashMap.mem_insertAll.mpr (.inr
    ⟨account, hmem, hwell.versions id account (InMemoryStore.mem_versions_of_latest hlatest)⟩)

theorem loadBook_alone {id : BookId} {result : Except LedgerError (Option Book)}
    (halone : Alone (loadBook id) before result after) :
    result = .ok (before.store.books.lookup id) ∨
      result = .error (.bookNotFound id) ∧ id ∉ before.store.books ∧ id ≠ DEFAULT_BOOK := by
  obtain ⟨found, middle, hread, hrest⟩ | ⟨_, hread, _⟩ := alone_bind_iff.mp halone
  swap
  · obtain ⟨_, hvalue, _⟩ := alone_read_iff.mp hread
    cases hvalue
  obtain ⟨choice, hvalue, rfl⟩ := alone_read_iff.mp hread
  cases hvalue
  cases hbook : before.store.books.lookup id with
  | some book =>
      rw [InMemoryStore.getBook, hbook] at hrest
      exact .inl (alone_pure_iff.mp hrest).1
  | none =>
      rw [InMemoryStore.getBook, hbook] at hrest
      dsimp only at hrest
      split at hrest
      next => exact .inl (alone_pure_iff.mp hrest).1
      next hother =>
        exact .inr ⟨(alone_throw_iff.mp hrest).1, AList.lookup_eq_none.mp hbook, hother⟩

/-- Loading from one state gives what is in it, or fails for one of three reasons.
It overflows only at a balance that it needs. -/
theorem load_cases {envelope : Envelope} {result : Except LedgerError LoadedState}
    (hwell : WellFormed before.store)
    (hfound : ∀ id ∈ envelope.consumes, id ∈ before.store.postings.immutable)
    (halone : Alone (load envelope) before result after) :
    (∃ loaded, result = .ok loaded ∧ LoadedFrom before.store envelope loaded ∧
      ∀ key ∈ (requiredState envelope loaded.consumedPostings).balances,
        ∃ order, SumsUp before.store order key) ∨
    ∃ err, result = .error err ∧ LoadFailure before.store envelope err ∧
      (err = .overflow → ∃ consumed, before.store.getPostings envelope.consumes = .ok consumed ∧
        ∃ key ∈ (requiredState envelope consumed).balances,
          ∃ order, ¬SumsUp before.store order key) := by
  obtain ⟨consumed, first, hpostings, hrest⟩ | ⟨err, hpostings, rfl⟩ := alone_bind_iff.mp halone
  swap
  · have hall := HashMap.forall₂_filterMap_lookup hfound
    rw [← InMemoryStore.getPostings_eq_ok_iff] at hall
    have herr := getPostings_alone hpostings
    rw [hall] at herr
    cases herr
  have hfirst := (getPostings_readOnly _).store_eq hpostings
  have hconsumed := (getPostings_alone hpostings).symm
  rw [Except.mapError_eq_ok_iff] at hconsumed
  obtain ⟨accounts, second, haccounts, hrest⟩ | ⟨err, haccounts, rfl⟩ := alone_bind_iff.mp hrest
  swap
  · have herr := (getAccounts_alone haccounts).symm
    rw [Except.mapError_eq_error_iff, hfirst] at herr
    obtain ⟨cause, hcause, rfl⟩ := herr
    obtain ⟨id, hid, hmissing, rfl⟩ := getAccounts_error hcause
    exact .inr ⟨_, rfl, .accountMissing hconsumed hid hmissing, nofun⟩
  have hsecond := ((getAccounts_readOnly _).store_eq haccounts).trans hfirst
  have haccounts := (getAccounts_alone haccounts).symm
  rw [Except.mapError_eq_ok_iff, hfirst] at haccounts
  obtain ⟨balances, third, hbalances, hrest⟩ | ⟨err, hbalances, rfl⟩ := alone_bind_iff.mp hrest
  swap
  · obtain ⟨_, hok, _⟩ | ⟨herr, key, hkey, order, hoverflow⟩ :=
      loadBalances_cases (fun _ _ h => by cases h) hbalances
    · cases hok
    · cases herr
      rw [hsecond] at hoverflow
      exact .inr ⟨_, rfl, .overflow (large_of_not_sumsUp hoverflow),
        fun _ => ⟨consumed, hconsumed, key, hkey, order, hoverflow⟩⟩
  have hthird := ((loadBalances_readOnly _).store_eq hbalances).trans hsecond
  obtain ⟨_, hok, hexact, hcovered, hsums⟩ | ⟨herr, _⟩ :=
    loadBalances_cases (fun _ _ h => by cases h) hbalances
  swap
  · cases herr
  cases hok
  obtain ⟨book, last, hbook, hpure⟩ | ⟨err, hbook, rfl⟩ := alone_bind_iff.mp hrest
  swap
  · obtain hok | ⟨herr, hmissing, hother⟩ := loadBook_alone hbook
    · cases hok
    · cases herr
      exact .inr ⟨_, rfl, .bookNotFound (hthird ▸ hmissing) hother, nofun⟩
  obtain hok | ⟨herr, _⟩ := loadBook_alone hbook
  swap
  · cases herr
  cases hok
  obtain ⟨rfl, -⟩ := alone_pure_iff.mp hpure
  rw [hsecond] at hexact hsums
  exact .inl ⟨_, rfl, ⟨InMemoryStore.getPostings_eq_ok_iff.mp hconsumed,
    fun id account => latest_of_insertAll hwell haccounts, hexact,
    fun key hkey => hcovered key (.inr hkey),
    fun id hid => mem_insertAll_of_getAccounts hwell haccounts hid, by rw [hthird]⟩, hsums⟩

theorem load_alone {envelope : Envelope} {result : Except LedgerError LoadedState}
    (hwell : WellFormed before.store)
    (hfound : ∀ id ∈ envelope.consumes, id ∈ before.store.postings.immutable)
    (halone : Alone (load envelope) before result after) :
    (∃ loaded, result = .ok loaded ∧ LoadedFrom before.store envelope loaded) ∨
      ∃ err, result = .error err ∧ LoadFailure before.store envelope err := by
  obtain ⟨loaded, hresult, hloaded, _⟩ | ⟨err, hresult, hfailure, _⟩ :=
    load_cases hwell hfound halone
  · exact .inl ⟨loaded, hresult, hloaded⟩
  · exact .inr ⟨err, hresult, hfailure⟩

/-- What validation reads of a loaded state. -/
def LoadedState.input (loaded : LoadedState) (envelope : Envelope) : PlanInput where
  envelope
  consumedPostings := loaded.consumedPostings
  accounts := loaded.accounts
  balances := loaded.balances
  book := loaded.book

theorem LoadedFrom.keyed {store : InMemoryStore} {envelope : Envelope} {loaded : LoadedState}
    (hloaded : LoadedFrom store envelope loaded) (hwell : WellFormed store) :
    envelope.consumes = loaded.consumedPostings.map (·.id) := by
  refine List.forall₂_eq_eq_eq ▸ List.forall₂_map_right_iff.mpr (hloaded.consumed.imp ?_)
  exact fun id posting hlookup => (hwell.immutable id posting hlookup).symm

/-- Validation finds every posting that was loaded. -/
theorem LoadedFrom.finds {store : InMemoryStore} {envelope : Envelope} {loaded : LoadedState}
    (hloaded : LoadedFrom store envelope loaded) (hwell : WellFormed store)
    (hnodup : envelope.consumes.Nodup) : (loaded.input envelope).Finds loaded.consumedPostings := by
  have hkeyed := hloaded.keyed hwell
  rw [hkeyed] at hnodup
  rw [PlanInput.Finds, LoadedState.input, hkeyed, List.forall₂_map_left_iff, List.forall₂_same,
    consumedById]
  exact fun posting hposting => HashMap.lookup_insertAll_of_mem hnodup hposting

/-- No balance is missing from what was loaded. -/
theorem LoadedFrom.plan_eq_validate [Sha256] {store : InMemoryStore} {envelope : Envelope}
    {loaded : LoadedState} (hloaded : LoadedFrom store envelope loaded) (order : IterationOrder) :
    plan order envelope loaded =
      (validateAndPlan order (loaded.input envelope)).mapError .validation := by
  have hnone : (requiredState envelope loaded.consumedPostings).balances.find?
      (fun key => decide (key ∉ loaded.balances)) = none := by
    rw [List.find?_eq_none]
    intro key hkey
    simp [hloaded.covered key hkey]
  rw [plan, hnone]
  rfl

/-- What a commit does before it hands its effects to the store: load the state
that validation reads, and validate. -/
def validate [Sha256] (envelope : Envelope) : LedgerM Plan := do
  let loaded ← load envelope
  compute fun order => plan order envelope loaded

end Kuatia
