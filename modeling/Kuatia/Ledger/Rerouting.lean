import Kuatia.Core.Redirecting
import Kuatia.Ledger.Affording
import Kuatia.Storage.Listing

/-! # Resolution when accounts have been opened in between

Opening accounts does not change what a resolution reads. A transfer with the same
debits, whose credits go to other accounts that exist, is then resolved into an
envelope that consumes the same postings.
-/

namespace Kuatia

open LedgerM

variable [MoneyWidth]

/-- The postings and the books are as before, and so is every account that there was. -/
structure OnlyOpened (before after : InMemoryStore) : Prop where
  postings : after.postings = before.postings
  books : after.books = before.books
  latest : ∀ id account, before.latest id = some account → after.latest id = some account

theorem OnlyOpened.refl (store : InMemoryStore) : OnlyOpened store store :=
  ⟨rfl, rfl, fun _ _ hlatest => hlatest⟩

theorem OnlyOpened.trans {first second third : InMemoryStore} (hfirst : OnlyOpened first second)
    (hsecond : OnlyOpened second third) : OnlyOpened first third where
  postings := hsecond.postings.trans hfirst.postings
  books := hsecond.books.trans hfirst.books
  latest id account hlatest := hsecond.latest id account (hfirst.latest id account hlatest)

/-- A listing of active or live postings is the same in both stores, in any order. -/
theorem OnlyOpened.getPostingsByAccount_eq {before after : InMemoryStore}
    (hopened : OnlyOpened before after) (hconsistent : Consistent before)
    (order other : IterationOrder) (account : Int64) (sub : Option Int64) (asset : Option AssetId)
    {filter : PostingFilter} (hfilter : filter = .active ∨ filter = .live) :
    after.getPostingsByAccount order account sub asset filter =
      before.getPostingsByAccount other account sub asset filter := by
  have hsame : after.getPostingsByAccount order account sub asset filter =
      before.getPostingsByAccount order account sub asset filter := by
    have hset : after.postingsOf order filter = before.postingsOf order filter := by
      cases filter <;> simp only [InMemoryStore.postingsOf, hopened.postings]
    rw [InMemoryStore.getPostingsByAccount, InMemoryStore.getPostingsByAccount, hset]
  rw [hsame]
  exact InMemoryStore.getPostingsByAccount_congr hconsistent.active_keyed hconsistent.reserved
    order other account sub asset hfilter

section Resolution

variable {first second middle last : World} (hopened : OnlyOpened first.store second.store)
  (hconsistent : Consistent first.store)

include hopened hconsistent

theorem loadDebit_same {state next : ResolveState} {debit : Debit}
    {result : Except LedgerError ResolveState}
    (hfirst : Alone (loadDebit state debit) first (.ok next) middle)
    (hsecond : Alone (loadDebit state debit) second result last) : result = .ok next := by
  obtain ⟨postings, afterRead, hread, hrest⟩ := alone_bind_ok_iff.mp hfirst
  obtain ⟨choice, hvalue, rfl⟩ := alone_read_iff.mp hread
  cases hvalue
  obtain ⟨others, afterOther, hread', hrest'⟩ | ⟨_, hread', _⟩ := alone_bind_iff.mp hsecond
  swap
  · obtain ⟨_, hvalue, _⟩ := alone_read_iff.mp hread'
    cases hvalue
  obtain ⟨choice', hvalue, rfl⟩ := alone_read_iff.mp hread'
  cases hvalue
  rw [hopened.getPostingsByAccount_eq hconsistent choice'.order choice.order _ _ _ (.inl rfl)]
    at hrest'
  dsimp only at hrest hrest'
  split at hrest
  next hloaded =>
    rw [if_pos hloaded] at hrest'
    cases (alone_pure_iff.mp hrest).1
    exact (alone_pure_iff.mp hrest').1
  next hunloaded =>
    rw [if_neg hunloaded] at hrest'
    obtain ⟨found, afterFound, hread, hrest⟩ := alone_bind_ok_iff.mp hrest
    obtain ⟨_, hvalue, rfl⟩ := alone_read_iff.mp hread
    cases hvalue
    obtain ⟨account, _, haccount, hrest⟩ := alone_bind_ok_iff.mp hrest
    have hfound := (alone_attempt_iff.mp haccount).1.symm
    rw [Except.mapError_eq_ok_iff, InMemoryStore.getAccount_eq_ok_iff] at hfound
    cases (alone_pure_iff.mp hrest).1
    obtain ⟨_, _, hread', hrest'⟩ | ⟨_, hread', _⟩ := alone_bind_iff.mp hrest'
    swap
    · obtain ⟨_, hvalue, _⟩ := alone_read_iff.mp hread'
      cases hvalue
    obtain ⟨_, hvalue, rfl⟩ := alone_read_iff.mp hread'
    cases hvalue
    rw [InMemoryStore.getAccount_eq_ok_iff.mpr (hopened.latest _ _ hfound)] at hrest'
    obtain ⟨_, _, haccount', hrest'⟩ | ⟨_, haccount', _⟩ := alone_bind_iff.mp hrest'
    · cases (alone_attempt_iff.mp haccount').1
      exact (alone_pure_iff.mp hrest').1
    · cases (alone_attempt_iff.mp haccount').1

theorem loadDebits_same {debits : List Debit} {state next : ResolveState}
    {result : Except LedgerError ResolveState}
    (hfirst : Alone (debits.foldlM loadDebit state) first (.ok next) middle)
    (hsecond : Alone (debits.foldlM loadDebit state) second result last) : result = .ok next := by
  induction debits generalizing state first second with
  | nil =>
      cases (alone_pure_iff.mp hfirst).1
      exact (alone_pure_iff.mp hsecond).1
  | cons debit debits ih =>
      obtain ⟨loaded, afterFirst, hdebit, hrest⟩ := alone_bind_ok_iff.mp hfirst
      have hstore := (loadDebit_readOnly state debit).store_eq hdebit
      obtain ⟨other, afterSecond, hdebit', hrest'⟩ | ⟨err, hdebit', rfl⟩ :=
        alone_bind_iff.mp hsecond
      · have hstore' := (loadDebit_readOnly state debit).store_eq hdebit'
        cases loadDebit_same hopened hconsistent hdebit hdebit'
        rw [← hstore, ← hstore'] at hopened
        rw [← hstore] at hconsistent
        exact ih hopened hconsistent hrest hrest'
      · cases loadDebit_same hopened hconsistent hdebit hdebit'

/-- If the one transfer can be resolved, so can the other, and the two envelopes
differ in the credits only, as far as postings go. -/
theorem resolve_rerouted [Sha256] {transfer other : Transfer} (hsame : transfer.SameDebits other)
    (hpayees : ∀ movement ∈ other.movements, ∃ account,
      second.store.latest movement.toAccount = some account) {envelope : Envelope}
    (hfirst : Alone (resolve transfer) first (.ok envelope) middle)
    {result : Except LedgerError Envelope} (hsecond : Alone (resolve other) second result last) :
    ∃ extra rerouted, result = .ok rerouted ∧ rerouted.consumes = envelope.consumes ∧
      envelope.creates = transfer.movements.map Movement.credit ++ extra ∧
      rerouted.creates = other.movements.map Movement.credit ++ extra := by
  -- what the first run has decided
  obtain ⟨draft, afterDraft, hdraft, hrest⟩ := alone_bind_ok_iff.mp hfirst
  have hstore := (ReadOnly.compute _).store_eq hdraft
  obtain ⟨order, hdraft⟩ := alone_compute hdraft
  have hdraft := Except.mapError_eq_ok_iff.mp hdraft.symm
  obtain ⟨state, afterLoad, hload, hrest⟩ := alone_bind_ok_iff.mp hrest
  have hloadStore := (ReadOnly.foldlM loadDebit_readOnly _ _).store_eq hload
  obtain ⟨unpinned, afterEnvelope, henvelope, hpinning⟩ := alone_bind_ok_iff.mp hrest
  obtain ⟨hunpinned, hworld⟩ := alone_attempt_iff.mp henvelope
  obtain ⟨extra, hcreates, hother⟩ :=
    resolveEnvelope_redirected other (Except.mapError_eq_ok_iff.mp hunpinned.symm)
  rw [(draftMovements_eq_ok hdraft).creates] at hcreates
  obtain ⟨snapshots, _, hsnapshots, hpure⟩ := alone_bind_ok_iff.mp hpinning
  obtain ⟨accounts, haccounts, _⟩ := resolveSnapshots_alone hsnapshots
  rw [hworld, hloadStore] at haccounts
  cases (alone_pure_iff.mp hpure).1
  -- the second run decides the same
  obtain ⟨draft', afterDraft', hdraft', hrest'⟩ | ⟨err, hdraft', _⟩ := alone_bind_iff.mp hsecond
  all_goals
    have hstore' := (ReadOnly.compute _).store_eq hdraft'
    obtain ⟨order', hdraft'⟩ := alone_compute hdraft'
    rw [draftMovements_order order' order, hsame.draftMovements hdraft] at hdraft'
    cases hdraft'
  rw [← hstore, ← hstore'] at hopened
  rw [← hstore] at hconsistent
  obtain ⟨state', afterLoad', hload', hrest'⟩ | ⟨err, hload', _⟩ := alone_bind_iff.mp hrest'
  all_goals
    have hloadStore' := (ReadOnly.foldlM loadDebit_readOnly _ _).store_eq hload'
    cases loadDebits_same hopened hconsistent hload hload'
  rw [hother] at hrest'
  obtain ⟨_, _, henvelope', hpinning'⟩ | ⟨_, henvelope', _⟩ := alone_bind_iff.mp hrest'
  all_goals
    obtain ⟨hvalue, hworld'⟩ := alone_attempt_iff.mp henvelope'
    cases hvalue
  refine ⟨extra, ?_⟩
  obtain ⟨_, _, _, hpure⟩ | ⟨err, hsnapshots', _⟩ := alone_bind_iff.mp hpinning'
  · exact ⟨_, (alone_pure_iff.mp hpure).1, rfl, hcreates, rfl⟩
  · refine absurd (resolveSnapshots_total ?_ hsnapshots') (by simp)
    intro id hid
    rw [hworld', hloadStore']
    rw [Envelope.referencedAccounts, List.mem_sortDedup, List.map_append, List.mem_append] at hid
    rcases hid with hcredit | hextra
    · obtain ⟨posting, hposting, rfl⟩ := List.mem_map.mp hcredit
      obtain ⟨movement, hmovement, rfl⟩ := List.mem_map.mp hposting
      rw [hstore']
      exact hpayees movement hmovement
    · rw [InMemoryStore.getAccounts_eq_ok_iff] at haccounts
      obtain ⟨account, _, hlatest⟩ := haccounts.exists_of_mem_left (a := id) (by
        rw [Envelope.referencedAccounts, List.mem_sortDedup, hcreates, List.map_append]
        exact List.mem_append_right _ hextra)
      exact ⟨account, hopened.latest _ _ hlatest⟩

end Resolution

end Kuatia
