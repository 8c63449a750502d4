import Kuatia.Ledger.Alone
import Kuatia.Ledger.Closing

/-! # Lifecycle calls that run alone

A transition changes nothing but the account that it is for. When the account is open
and has a version left, only the clock can make it fail.
-/

namespace Kuatia

open LedgerM

variable [MoneyWidth]

/-- Nothing that a transfer reads has changed, except this account. -/
structure OnlyChanged (id : AccountId) (before after : InMemoryStore) : Prop where
  postings : after.postings = before.postings
  transfers : after.transfers = before.transfers
  books : after.books = before.books
  projections : after.projections = before.projections
  latest : ∀ other ≠ id, after.latest other = before.latest other

namespace OnlyChanged

variable {id : AccountId} {before after : InMemoryStore}

theorem of_eq (hsame : after = before) : OnlyChanged id before after := by
  subst hsame
  exact ⟨rfl, rfl, rfl, rfl, fun _ _ => rfl⟩

theorem appendEventLocked (clock : Clock) (event : LedgerEvent)
    (honly : OnlyChanged id before after) :
    OnlyChanged id before (after.appendEventLocked clock event) where
  postings := by simpa using honly.postings
  transfers := by simpa using honly.transfers
  books := by simpa using honly.books
  projections := by simpa using honly.projections
  latest other hother := by
    rw [InMemoryStore.latest,
      InMemoryStore.versions_congr (InMemoryStore.appendEventLocked_accounts ..)]
    exact honly.latest other hother

end OnlyChanged

variable {store : InMemoryStore}

/-- Handing a version to the store changes its account only. -/
theorem InMemoryStore.commitTransition_onlyChanged (clock : Clock) (next : Account)
    (event : LedgerEvent) :
    OnlyChanged next.id store (store.commitTransition clock next event).2 := by
  obtain ⟨hsame, _⟩ | ⟨hmoved, _⟩ | ⟨_, _, _, _, _, hmoved⟩ :=
    store.commitTransition_cases clock next event
  · exact .of_eq hsame
  · rw [hmoved]
    exact (OnlyChanged.of_eq rfl).appendEventLocked clock event
  · rw [hmoved]
    refine OnlyChanged.appendEventLocked clock event ⟨rfl, rfl, rfl, rfl, fun other hother => ?_⟩
    simp only [InMemoryStore.latest, InMemoryStore.versions, HashMap.lookup_insert_eq,
      if_neg hother]

/-- The store appends the next version of an open account. -/
theorem InMemoryStore.commitTransition_next {current next : Account} (clock : Clock)
    (event : LedgerEvent) (hlatest : store.latest next.id = some current)
    (hopen : current.isClosed = false) (hroom : current.version.toNat + 1 < 2 ^ 64)
    (hnext : next.version = current.version + 1) :
    (store.commitTransition clock next event).1 = .ok .applied := by
  have hnewer : ¬current.version + 1 ≤ current.version := by
    rw [UInt64.le_iff_toNat_le, UInt64.toNat_add, UInt64.toNat_one, Nat.mod_eq_of_lt hroom]
    omega
  unfold InMemoryStore.commitTransition
  cases haccounts : store.accounts.lookup next.id with
  | none =>
      rw [InMemoryStore.latest, InMemoryStore.versions, haccounts] at hlatest
      cases hlatest
  | some versions =>
      rw [InMemoryStore.latest, InMemoryStore.versions, haccounts, Option.getD_some] at hlatest
      simp only [hlatest, hopen, Bool.false_eq_true, if_false, hnext, hnewer, ne_eq,
        not_true_eq_false, hroom.ne]

variable {before after : World} {id : AccountId}

/-- The account is open and can have one more version. -/
def MayChange (store : InMemoryStore) (id : AccountId) : Prop :=
  ∃ account, store.latest id = some account ∧ account.isClosed = false ∧
    account.version.toNat + 1 < 2 ^ 64

theorem transition_cases {change : LifecycleChange} {result : Except LedgerError Unit}
    (hwell : WellFormed before.store) (hmay : MayChange before.store id)
    (halone : Alone (transition id change) before result after) :
    OnlyChanged id before.store after.store ∧ (result = .ok () ∨ after.clock = none) := by
  obtain ⟨account, hlatest, hopen, hroom⟩ := hmay
  have hid : account.id = id :=
    hwell.versions id account (InMemoryStore.mem_versions_of_latest hlatest)
  obtain ⟨read, first, hread, hrest⟩ | ⟨_, hread, _⟩ := alone_bind_iff.mp halone
  swap
  · obtain ⟨_, hvalue, _⟩ := alone_read_iff.mp hread
    cases hvalue
  obtain ⟨choice, hvalue, rfl⟩ := alone_read_iff.mp hread
  cases hvalue
  rw [InMemoryStore.getAccount_eq_ok_iff.mpr hlatest] at hrest
  obtain ⟨current, second, hcurrent, hrest⟩ | ⟨_, hcurrent, _⟩ := alone_bind_iff.mp hrest
  swap
  · cases (alone_attempt_iff.mp hcurrent).1
  obtain ⟨hfound, rfl⟩ := alone_attempt_iff.mp hcurrent
  cases hfound
  rw [if_neg (by simp [hopen]), if_neg hroom.ne] at hrest
  obtain ⟨now, third, hnow, hrest⟩ | ⟨_, hnow, _⟩ := alone_bind_iff.mp hrest
  swap
  · refine ⟨.of_eq (ReadOnly.nowMillis.store_eq hnow :), ?_⟩
    obtain ⟨_, hok⟩ | ⟨_, hclock⟩ := nowMillis_cases hnow
    · cases hok
    · exact .inr hclock
  have hthird := ReadOnly.nowMillis.store_eq hnow
  dsimp only at hthird
  obtain ⟨returned, fourth, hact, hrest⟩ | ⟨_, hact, _⟩ := alone_bind_iff.mp hrest
  swap
  · obtain ⟨_, hvalue, _⟩ := alone_act_iff.mp hact
    cases hvalue
  obtain ⟨later, hreturned, rfl⟩ := alone_act_iff.mp hact
  cases hreturned
  -- the two checks of the outcome leave the store alone
  have hresult := alone_attempts hrest
  have hstore := ((ReadOnly.attempt _).bind fun _ => .attempt _).store_eq hrest
  dsimp only at hresult hstore
  rw [hthird] at hresult hstore
  have hnext : (change.nextVersion account).id = id := hid
  rw [InMemoryStore.commitTransition_next later.clock _ (hnext.symm ▸ hlatest) hopen hroom rfl]
    at hresult
  refine ⟨?_, .inl hresult⟩
  rw [hstore, ← hnext]
  exact InMemoryStore.commitTransition_onlyChanged _ _ _

/-! ## Closing -/

/-- Whether an account is found with live postings. -/
theorem hasLivePostings_cases {result : Except LedgerError Bool}
    (halone : Alone (hasLivePostings id) before result after) :
    ∃ live, result = .ok live ∧ (live = false ↔ OwnsNothing before.store id) := by
  obtain ⟨postings, middle, hread, hpure⟩ | ⟨_, hread, _⟩ := alone_bind_iff.mp halone
  swap
  · obtain ⟨_, hvalue, _⟩ := alone_read_iff.mp hread
    cases hvalue
  obtain ⟨choice, hvalue, rfl⟩ := alone_read_iff.mp hread
  cases hvalue
  refine ⟨_, (alone_pure_iff.mp hpure).1, ?_⟩
  have hlisted : ∀ posting, posting ∈ before.store.getPostingsByAccount choice.order id.id
      (some id.sub) none .live ↔ posting ∈ before.store.livePostings ∧ posting.owner = id := by
    intro posting
    rw [InMemoryStore.getPostingsByAccount, (List.perm_insertionSort _ _).mem_iff, List.mem_filter,
      (InMemoryStore.postingsOf_live_perm choice.order).mem_iff]
    obtain ⟨_, ⟨ownerId, ownerSub⟩, _⟩ := posting
    obtain ⟨base, sub⟩ := id
    simp [AccountId.mk.injEq]
  rw [Bool.not_eq_false', List.isEmpty_iff, List.eq_nil_iff_forall_not_mem]
  simp only [hlisted, not_and]
  rfl

/-- An account that owns nothing can be closed. -/
theorem close_cases {result : Except LedgerError Unit} (hwell : WellFormed before.store)
    (hmay : MayChange before.store id) (hnothing : OwnsNothing before.store id)
    (halone : Alone (close id) before result after) :
    OnlyChanged id before.store after.store ∧ (result = .ok () ∨ after.clock = none) := by
  obtain ⟨live, middle, hlive, hrest⟩ | ⟨_, hlive, _⟩ := alone_bind_iff.mp halone
  · obtain ⟨_, hvalue, hempty⟩ := hasLivePostings_cases hlive
    cases hvalue
    cases hempty.mpr hnothing
    have hsame := (hasLivePostings_readOnly id).store_eq hlive
    rw [← hsame] at hwell hmay ⊢
    exact transition_cases hwell hmay hrest
  · obtain ⟨_, hvalue, _⟩ := hasLivePostings_cases hlive
    cases hvalue

end Kuatia
