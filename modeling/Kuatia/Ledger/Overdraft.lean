import Kuatia.Ledger.DoubleSpend
import Kuatia.Ledger.Sample
import Kuatia.Storage.Live

/-! # Overdraft safety

Lifecycle changes never touch the overdraft flag, so all versions of an account
agree on it, and validation lets no negative posting be created for an account
that forbids overdraft. What such an account owns is therefore never negative,
whatever was stale when the postings were created.
-/

namespace Kuatia

section Safety

variable [MoneyWidth]

omit [MoneyWidth] in
theorem LifecycleChange.forbidsOverdraft_nextVersion (change : LifecycleChange)
    (current : Account) :
    (change.nextVersion current).forbidsOverdraft = current.forbidsOverdraft := by
  cases change with
  | freeze => exact AccountFlags.contains_insert (by decide)
  | unfreeze => exact AccountFlags.contains_remove (by decide)
  | close =>
      exact (AccountFlags.contains_remove (by decide)).trans
        (AccountFlags.contains_insert (by decide))

/-- All versions of an account agree on overdraft, and the owner of a negative
live posting permits it. -/
structure OverdraftSafe (store : InMemoryStore) : Prop where
  uniform : ∀ id, ∀ account ∈ store.versions id, ∀ other ∈ store.versions id,
    account.forbidsOverdraft = other.forbidsOverdraft
  negatives : ∀ id posting, store.postings.active.lookup id = some posting →
    posting.value.val < 0 → ∃ account ∈ store.versions posting.owner,
      account.forbidsOverdraft = false

theorem overdraftSafe_new : OverdraftSafe InMemoryStore.new where
  uniform _ _ hmem := by cases hmem
  negatives _ _ hlookup := by cases hlookup

variable [Sha256] {submits : Envelope → Prop} {before after : InMemoryStore}

theorem StoreStep.uniform (hstep : StoreStep submits before after)
    (hsafe : OverdraftSafe before) (id : AccountId) :
    ∀ account ∈ after.versions id, ∀ other ∈ after.versions id,
      account.forbidsOverdraft = other.forbidsOverdraft := by
  obtain hsame | ⟨first, _, _, hnew⟩ | ⟨_, change, seen, _, hseen, _, _, _, _, hnew⟩ :=
    hstep.versions_cases id
  · exact hsame ▸ hsafe.uniform id
  · rw [hnew]
    intro account haccount other hother
    rw [List.mem_singleton.mp haccount, List.mem_singleton.mp hother]
  · -- The appended version agrees with the one it was derived from.
    have hagree : ∀ account ∈ after.versions id,
        account.forbidsOverdraft = seen.forbidsOverdraft := by
      rw [hnew]
      intro account haccount
      rcases List.mem_append.mp haccount with hold | hlast
      · exact hsafe.uniform id account hold seen hseen
      · rw [List.mem_singleton.mp hlast, change.forbidsOverdraft_nextVersion]
    intro account haccount other hother
    rw [hagree account haccount, hagree other hother]

theorem StoreStep.overdraftSafe (hstep : StoreStep submits before after)
    (hsafe : OverdraftSafe before) : OverdraftSafe after where
  uniform := hstep.uniform hsafe
  negatives id posting hlookup hnegative := by
    have hpermits : ∃ account ∈ before.versions posting.owner,
        account.forbidsOverdraft = false := by
      obtain ⟨hpostings, _⟩ | ⟨_, _, req, _, hvalid, _, _, _, rfl⟩ := hstep.postings_cases
      · exact hsafe.negatives id posting (hpostings ▸ hlookup) hnegative
      · rw [InMemoryStore.applyCommit_active] at hlookup
        obtain ⟨hmade, _⟩ | ⟨hold, _⟩ := HashMap.lookup_insertAll_cases hlookup
        · rw [hvalid.create] at hmade
          obtain ⟨source, hsource, howner, _, hvalue⟩ := exists_of_mem_createdPostings hmade
          rw [howner]
          exact hvalid.negatives source hsource (hvalue ▸ hnegative)
        · rw [HashMap.lookup_eraseAll] at hold
          split at hold
          next => cases hold
          next => exact hsafe.negatives id posting hold hnegative
    obtain ⟨account, hmem, hflag⟩ := hpermits
    exact ⟨account, (hstep.versions_prefix posting.owner).subset hmem, hflag⟩

theorem overdraftSafe_after (ledger : Ledger) (actions : List LedgerAction) :
    OverdraftSafe (storeAfter ledger actions) :=
  reachable_induction ledger overdraftSafe_new (fun _ _ _ hstep => hstep.overdraftSafe) actions

omit [Sha256] in
/-- What an account that forbids overdraft owns is not negative. -/
theorem OverdraftSafe.nonneg {store : InMemoryStore} (hsafe : OverdraftSafe store)
    {account : Account} {posting : Posting} (hlatest : store.latest posting.owner = some account)
    (hforbids : account.forbidsOverdraft = true) {pid : PostingId}
    (hlookup : store.postings.active.lookup pid = some posting) : 0 ≤ posting.value.val := by
  by_contra hnegative
  obtain ⟨other, hother, hpermits⟩ := hsafe.negatives pid posting hlookup (by omega)
  have hsame := hsafe.uniform posting.owner account (InMemoryStore.mem_versions_of_latest hlatest)
    other hother
  rw [hforbids, hpermits] at hsame
  cases hsame

omit [Sha256] in
theorem OverdraftSafe.live_nonneg {store : InMemoryStore} (hsafe : OverdraftSafe store)
    (hreserved : store.postings.reserved = ∅) {account : Account} {posting : Posting}
    (hlatest : store.latest posting.owner = some account)
    (hforbids : account.forbidsOverdraft = true) (hlive : posting ∈ store.livePostings) :
    0 ≤ posting.value.val := by
  obtain ⟨pid, hlookup⟩ := (InMemoryStore.mem_livePostings hreserved).mp hlive
  exact hsafe.nonneg hlatest hforbids hlookup

omit [Sha256] in
theorem OverdraftSafe.liveBalance_nonneg {store : InMemoryStore} (hsafe : OverdraftSafe store)
    (hreserved : store.postings.reserved = ∅) {key : BalanceKey} {account : Account}
    (hlatest : store.latest key.1 = some account) (hforbids : account.forbidsOverdraft = true) :
    0 ≤ store.liveBalance key := by
  refine keyTotal_nonneg fun posting hlive hkey => ?_
  subst hkey
  exact hsafe.live_nonneg hreserved hlatest hforbids hlive

/-- In every run, an account whose flags forbid overdraft owns no negative live
posting, and none of its balances is negative. -/
theorem overdraft_safety (ledger : Ledger) (actions : List LedgerAction) (id : AccountId)
    (account : Account) (hlatest : (storeAfter ledger actions).latest id = some account)
    (hforbids : account.forbidsOverdraft = true) :
    (∀ posting ∈ (storeAfter ledger actions).livePostings, posting.owner = id →
      0 ≤ posting.value.val) ∧
    ∀ asset, 0 ≤ (storeAfter ledger actions).liveBalance (id, asset) := by
  have hsafe := overdraftSafe_after ledger actions
  have hreserved := (consistent_after ledger actions).reserved
  exact ⟨fun posting hlive howner =>
      hsafe.live_nonneg hreserved (howner ▸ hlatest) hforbids hlive,
    fun asset => hsafe.liveBalance_nonneg hreserved hlatest hforbids⟩

end Safety

open Sample in
/-- The hypotheses are met by an account that has received a deposit. -/
theorem overdraft_safety_funded :
    (∀ posting ∈ (storeAfter ledger funded).livePostings, posting.owner = alice →
      0 ≤ posting.value.val) ∧
    ∀ asset, 0 ≤ (storeAfter ledger funded).liveBalance (alice, asset) :=
  overdraft_safety ledger funded alice (.debitMustNotExceedCredit alice) (by decide +kernel)
    (by decide +kernel)

end Kuatia
