import Kuatia.Ledger.Rerouting

/-! # Creating an account

An account is inserted in one action of the store and recorded as an event in
another. What transfers read is as before, except that the account is there.
-/

namespace Kuatia

open LedgerM

variable [MoneyWidth] {before after : World}

/-- The account has been created, and nothing else has happened that matters to a
transfer. -/
structure Creates (before after : InMemoryStore) (account : Account) : Prop where
  fresh : account.id ∉ before.accounts
  opened : OnlyOpened before after
  versions : after.versions account.id = [account]
  accounts : ∀ id, id ∈ after.accounts ↔ id = account.id ∨ id ∈ before.accounts

theorem InMemoryStore.versions_of_notMem {store : InMemoryStore} {id : AccountId}
    (hnone : id ∉ store.accounts) : store.versions id = [] := by
  rw [versions, AList.lookup_eq_none.mpr hnone]
  rfl

/-- Inserting the first version of an account creates it. -/
theorem creates_insert {store : InMemoryStore} {account : Account}
    (hfresh : account.id ∉ store.accounts) :
    Creates store { store with accounts := store.accounts.insert account.id [account] } account where
  fresh := hfresh
  opened := by
    refine ⟨rfl, rfl, fun id other hlatest => ?_⟩
    have hother : id ≠ account.id := by
      rintro rfl
      rw [InMemoryStore.latest, InMemoryStore.versions_of_notMem hfresh] at hlatest
      cases hlatest
    simp only [InMemoryStore.latest, InMemoryStore.versions, HashMap.lookup_insert_eq, if_neg hother]
    exact hlatest
  versions := by simp [InMemoryStore.versions]
  accounts id := AList.mem_insert _

/-- What happens to the events does not matter. -/
theorem Creates.congr {first second third : InMemoryStore} {account : Account}
    (hcreates : Creates first second account) (haccounts : third.accounts = second.accounts)
    (hpostings : third.postings = second.postings) (hbooks : third.books = second.books) :
    Creates first third account where
  fresh := hcreates.fresh
  opened := by
    refine ⟨hpostings.trans hcreates.opened.postings, hbooks.trans hcreates.opened.books, ?_⟩
    intro id other hlatest
    rw [InMemoryStore.latest, InMemoryStore.versions_congr haccounts]
    exact hcreates.opened.latest id other hlatest
  versions := (InMemoryStore.versions_congr haccounts _).trans hcreates.versions
  accounts id := by rw [haccounts, hcreates.accounts]

/-- Creating an account fails only when it exists, or when the clock does. By then
the account is there. -/
theorem createAccount_alone {account : Account} {result : Except LedgerError Unit}
    (halone : Alone (createAccount account) before result after) :
    (account.id ∈ before.store.accounts ∧ result = .error (.accountAlreadyExists account.id) ∧
      after.store = before.store) ∨
    Creates before.store after.store account ∧
      (result = .ok () ∨ result = .error .overflow ∧ after.clock = none) := by
  obtain ⟨inserted, middle, hact, hrest⟩ | ⟨_, hact, _⟩ := alone_bind_iff.mp halone
  swap
  · obtain ⟨_, hvalue, _⟩ := alone_act_iff.mp hact
    cases hvalue
  obtain ⟨choice, hinserted, rfl⟩ := alone_act_iff.mp hact
  cases hinserted
  by_cases hexists : account.id ∈ before.store.accounts
  · left
    simp only [InMemoryStore.createAccount, hexists, if_true] at hrest
    obtain ⟨rfl, rfl⟩ := alone_throw_iff.mp hrest
    exact ⟨hexists, rfl, rfl⟩
  · right
    simp only [InMemoryStore.createAccount, hexists, if_false, one_ne_zero] at hrest
    have hcreates := creates_insert hexists
    obtain ⟨now, second, hnow, hrest⟩ | ⟨err, hnow, rfl⟩ := alone_bind_iff.mp hrest
    · have hsame := ReadOnly.nowMillis.store_eq hnow
      obtain ⟨_, third, hevent, hrest⟩ | ⟨_, hevent, _⟩ := alone_bind_iff.mp hrest
      · obtain ⟨_, hvalue, rfl⟩ := alone_act_iff.mp hevent
        obtain ⟨rfl, rfl⟩ := alone_pure_iff.mp hrest
        refine ⟨hcreates.congr ?_ ?_ ?_, .inl rfl⟩
        all_goals
          dsimp only
          rw [InMemoryStore.appendEvent_store, hsame]
          simp
      · obtain ⟨_, hvalue, _⟩ := alone_act_iff.mp hevent
        cases hvalue
    · rw [ReadOnly.nowMillis.store_eq hnow]
      obtain ⟨_, hok⟩ | ⟨herr, hclock⟩ := nowMillis_cases hnow
      · cases hok
      · cases herr
        exact ⟨hcreates, .inr ⟨rfl, hclock⟩⟩

end Kuatia
