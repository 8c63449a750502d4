import Kuatia.Ledger.Closing

/-! # Owners exist

The store checks the latest version of every owner as it activates a posting, and
no account ever goes away. So whatever is live belongs to an account that exists,
and an account that does not exist has no balance.
-/

namespace Kuatia

variable [MoneyWidth]

/-- Every active posting belongs to an account that exists. -/
def Owned (store : InMemoryStore) : Prop :=
  ∀ id posting, store.postings.active.lookup id = some posting → store.versions posting.owner ≠ []

theorem owned_new : Owned InMemoryStore.new := by
  intro id posting hlookup
  cases hlookup

theorem StoreStep.owned [Sha256] {submits : Envelope → Prop} {before after : InMemoryStore}
    (hstep : StoreStep submits before after) (howned : Owned before) : Owned after := by
  intro id posting hlookup
  have hkept : ∀ owner, before.versions owner ≠ [] → after.versions owner ≠ [] :=
    fun owner hversions hnone =>
      hversions (List.prefix_nil.mp (hnone ▸ hstep.versions_prefix owner))
  apply hkept
  obtain ⟨hpostings, _⟩ | ⟨_, _, req, _, hvalid, _, _, hguards, rfl⟩ := hstep.postings_cases
  · exact howned id posting (hpostings ▸ hlookup)
  · rw [InMemoryStore.applyCommit_active] at hlookup
    rcases HashMap.lookup_insertAll_cases hlookup with ⟨hmade, _⟩ | ⟨hold, _⟩
    · -- the owner of what is created is involved, and so its latest version was checked
      rw [hvalid.create] at hmade
      obtain ⟨source, hsource, howner, _⟩ := exists_of_mem_createdPostings hmade
      have hinvolved := (hvalid.involved posting.owner).mpr (.inl ⟨source, hsource, howner.symm⟩)
      obtain ⟨hfreeze, _, _⟩ := InMemoryStore.commitGuards_eq_ok_iff.mp hguards
      obtain ⟨account, hlatest, _⟩ :=
        InMemoryStore.freezeGuard_eq_ok_iff.mp hfreeze posting.owner hinvolved
      exact List.ne_nil_of_mem (InMemoryStore.mem_versions_of_latest hlatest)
    · rw [HashMap.lookup_eraseAll] at hold
      split at hold
      next => cases hold
      next => exact howned id posting hold

variable {store : InMemoryStore} {id : AccountId}

theorem Owned.ownsNothing (howned : Owned store) (hreserved : store.postings.reserved = ∅)
    (hnone : store.versions id = []) : OwnsNothing store id := by
  intro posting hposting howner
  obtain ⟨pid, hlookup⟩ := (InMemoryStore.mem_livePostings hreserved).mp hposting
  exact howned pid posting hlookup (howner ▸ hnone)

/-- Who owns nothing has no live posting under any key. -/
theorem OwnsNothing.livePostings_filter (hnothing : OwnsNothing store id) (asset : AssetId) :
    store.livePostings.filter (·.key = (id, asset)) = [] := by
  rw [List.filter_eq_nil_iff]
  intro posting hposting hkey
  exact hnothing posting hposting (congrArg Prod.fst (of_decide_eq_true hkey))

theorem OwnsNothing.liveBalance (hnothing : OwnsNothing store id) (asset : AssetId) :
    store.liveBalance (id, asset) = 0 := by
  rw [InMemoryStore.liveBalance, keyTotal, hnothing.livePostings_filter]
  rfl

end Kuatia
