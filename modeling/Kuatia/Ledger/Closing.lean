import Kuatia.Ledger.Balances
import Kuatia.Ledger.Sample

/-! # Closed accounts

A commit never gives anything to a closed account: the store checks the latest
version of every owner as it applies the transfer. A closed account owns
something only if it already did when its closed version was appended, since
`close` looks for postings in an action of its own.
-/

namespace Kuatia

section Theory

variable [MoneyWidth]

/-- The latest version of the account is closed. -/
def Closed (store : InMemoryStore) (id : AccountId) : Prop :=
  ∃ account, store.latest id = some account ∧ account.isClosed = true

/-- No live posting belongs to the account. -/
def OwnsNothing (store : InMemoryStore) (id : AccountId) : Prop :=
  ∀ posting ∈ store.livePostings, posting.owner ≠ id

instance (store : InMemoryStore) (id : AccountId) : Decidable (Closed store id) :=
  decidable_of_iff (store.latest id |>.any (·.isClosed)) (Option.any_eq_true ..)

instance (store : InMemoryStore) (id : AccountId) : Decidable (OwnsNothing store id) :=
  inferInstanceAs (Decidable (∀ posting ∈ store.livePostings, posting.owner ≠ id))

variable [Sha256] {submits : Envelope → Prop} {before after : InMemoryStore}
  {id : AccountId}

omit [Sha256] in
theorem ownsNothing_congr (hpostings : after.postings = before.postings) :
    OwnsNothing after id ↔ OwnsNothing before id := by
  rw [OwnsNothing, OwnsNothing, InMemoryStore.livePostings, InMemoryStore.livePostings, hpostings]

/-- A transfer that is applied gives nothing to a closed account. -/
theorem ownsNothing_applyCommit {order : IterationOrder} {clock : Clock} {req : CommitRequest}
    {consumed : List Posting} (hconsistent : Consistent before)
    (hvalid : Validated before req consumed) (hguards : before.commitGuards order req = .ok ())
    (hclosed : Closed before id) (hnothing : OwnsNothing before id) :
    OwnsNothing (before.applyCommit clock req) id := by
  obtain ⟨account, hlatest, hflag⟩ := hclosed
  obtain ⟨hfreeze, _, _⟩ := InMemoryStore.commitGuards_eq_ok_iff.mp hguards
  rw [InMemoryStore.freezeGuard_eq_ok_iff] at hfreeze
  have hreserved : (before.applyCommit clock req).postings.reserved = ∅ := by
    rw [InMemoryStore.applyCommit_reserved, hconsistent.reserved]
  intro posting hposting
  rw [InMemoryStore.mem_livePostings hreserved, InMemoryStore.applyCommit_active] at hposting
  obtain ⟨index, hlookup⟩ := hposting
  obtain ⟨hmem, _⟩ | ⟨hold, _⟩ := HashMap.lookup_insertAll_cases hlookup
  · rw [hvalid.create] at hmem
    obtain ⟨source, hsource, howner, _⟩ := exists_of_mem_createdPostings hmem
    intro heq
    have hinvolved : id ∈ req.involved :=
      (hvalid.involved id).mpr (.inl ⟨source, hsource, howner.symm.trans heq⟩)
    obtain ⟨other, hother, _, hopen⟩ := hfreeze id hinvolved
    rw [hlatest] at hother
    cases hother
    rw [hflag] at hopen
    cases hopen
  · rw [HashMap.lookup_eraseAll] at hold
    split at hold
    next => cases hold
    next =>
      exact hnothing posting ((InMemoryStore.mem_livePostings hconsistent.reserved).mpr ⟨index, hold⟩)

/-- A closed account that owns nothing goes on owning nothing. -/
theorem StoreStep.ownsNothing (hstep : StoreStep submits before after)
    (hconsistent : Consistent before) (hclosed : Closed before id)
    (hnothing : OwnsNothing before id) : OwnsNothing after id := by
  obtain ⟨hpostings, _⟩ | ⟨order, clock, req, consumed, hvalid, _, _, hguards, rfl⟩ :=
    hstep.postings_cases
  · exact (ownsNothing_congr hpostings).mpr hnothing
  · exact ownsNothing_applyCommit hconsistent hvalid hguards hclosed hnothing

/-- The step that closes an account moves no posting. -/
theorem StoreStep.postings_of_closing (hstep : StoreStep submits before after)
    (hopen : ¬Closed before id) (hclosed : Closed after id) : after.postings = before.postings := by
  obtain ⟨hpostings, _⟩ | ⟨_, _, _, _, _, _, _, _, rfl⟩ := hstep.postings_cases
  · exact hpostings
  · rw [Closed, InMemoryStore.latest,
      InMemoryStore.versions_congr (InMemoryStore.applyCommit_accounts ..)] at hclosed
    exact absurd hclosed hopen

/-- A closed account stays closed. -/
theorem Evolves.closed (hevolves : Evolves before after) (hclosed : Closed before id) :
    Closed after id := by
  refine hevolves.keep (Closed · id) (fun first second hstep hfirst => ?_) hclosed
  obtain ⟨account, hlatest, hflag⟩ := hfirst
  obtain hsame | ⟨_, _, hnone, _⟩ | ⟨current, _, _, hcurrent, _, _, hopen, _⟩ :=
    hstep.versions_cases id
  · exact ⟨account, by rw [InMemoryStore.latest, hsame]; exact hlatest, hflag⟩
  · rw [InMemoryStore.latest, hnone] at hlatest
    cases hlatest
  · rw [hlatest] at hcurrent
    cases hcurrent
    rw [hflag] at hopen
    cases hopen

/-- In all states of a run closed accounts own nothing, exactly when every action
that closes an account finds it owning nothing. -/
theorem closed_owns_nothing_iff (ledger : Ledger) (actions : List LedgerAction) :
    (∀ done, done <+: actions → ∀ id, Closed (storeAfter ledger done) id →
      OwnsNothing (storeAfter ledger done) id) ↔
    ∀ done action, done ++ [action] <+: actions → ∀ id, ¬Closed (storeAfter ledger done) id →
      Closed (storeAfter ledger (done ++ [action])) id →
        OwnsNothing (storeAfter ledger done) id := by
  constructor
  · intro hclosed done action hinitial id hbefore hafter
    have hstep := storeStep_after ledger done action
    exact (ownsNothing_congr (hstep.postings_of_closing hbefore hafter)).mp
      (hclosed _ hinitial id hafter)
  · intro hcloses done hinitial
    induction done using List.reverseRecOn with
    | nil =>
        intro id hclosed
        obtain ⟨account, hlatest, _⟩ := hclosed
        cases hlatest
    | append_singleton done action ih =>
        intro id hafter
        have hstep := storeStep_after ledger done action
        by_cases hbefore : Closed (storeAfter ledger done) id
        · have hearlier := ih ((List.prefix_append _ _).trans hinitial) id hbefore
          exact hstep.ownsNothing (consistent_after ledger done) hbefore hearlier
        · have hfound := hcloses done action hinitial id hbefore hafter
          exact (ownsNothing_congr (hstep.postings_of_closing hbefore hafter)).mpr hfound

end Theory

open Sample in
/-- Alice is found empty, is paid a deposit, and is closed. -/
def closedLate : List LedgerAction :=
  sequentially accounts ++ [.start (.close alice), .start (.commit (deposit 5)), .advance 2 noon] ++
    .replicate 40 (.advance 3 noon) ++ .replicate 10 (.advance 2 noon)

open Sample in
/-- The closed account owns the deposit. -/
theorem closed_owns_deposit : ∃ id, Closed (storeAfter ledger closedLate) id ∧
    ¬OwnsNothing (storeAfter ledger closedLate) id :=
  ⟨alice, by decide +kernel⟩

end Kuatia
