import Kuatia.Storage.MemStore

/-! # The transfers of an account

The in-memory store lists the transfers of an account by its index from
transfers to accounts. As long as the index has exactly the stored transfers,
the listing is a selection of these, each once.
-/

namespace Kuatia

variable [MoneyWidth]

/-- An account that the query asks for. -/
def AskedFor (account : Int64) (sub : Option Int64) (owner : AccountId) : Prop :=
  owner.id = account ∧ ∀ s ∈ sub, owner.sub = s

/-- The transfer is filed under some account that the query asks for. -/
def isAskedFor (memory : InMemoryStore) (account : Int64) (sub : Option Int64) (id : EnvelopeId) :
    Bool :=
  ((memory.transferAccounts.lookup id).getD []).any fun owner =>
    owner.id = account && sub.all (fun s => owner.sub = s)

variable {memory : InMemoryStore}

theorem isAskedFor_iff {account : Int64} {sub : Option Int64} {id : EnvelopeId} :
    isAskedFor memory account sub id = true ↔
      ∃ owner ∈ (memory.transferAccounts.lookup id).getD [], AskedFor account sub owner := by
  simp [isAskedFor, AskedFor, List.any_eq_true, Option.all_eq_true]

/-- The index, entry by entry, along the stored transfers. -/
theorem transferAccounts_perm
    (hindexed : ∀ id, id ∈ memory.transferAccounts ↔ id ∈ memory.transfers) :
    memory.transferAccounts.entries.Perm (memory.transfers.entries.map fun entry =>
      ⟨entry.1, (memory.transferAccounts.lookup entry.1).getD []⟩) := by
  have hkeys : ((memory.transfers.entries.map fun entry => (⟨entry.1,
      (memory.transferAccounts.lookup entry.1).getD []⟩ : Σ _ : EnvelopeId, List AccountId)).map
        Sigma.fst).Nodup := by
    rw [List.map_map]
    exact memory.transfers.nodupKeys
  apply (List.perm_ext_iff_of_nodup (.of_map _ memory.transferAccounts.nodupKeys)
    (.of_map _ hkeys)).mpr
  rintro ⟨id, accounts⟩
  rw [← HashMap.lookup_eq_some_iff, List.mem_map]
  constructor
  · intro hlookup
    have hstored := (hindexed id).mp (HashMap.mem_iff_exists_lookup.mpr ⟨_, hlookup⟩)
    obtain ⟨record, hrecord⟩ := HashMap.mem_iff_exists_lookup.mp hstored
    refine ⟨⟨id, record⟩, HashMap.lookup_eq_some_iff.mp hrecord, ?_⟩
    rw [hlookup]
    rfl
  · rintro ⟨entry, hentry, heq⟩
    cases heq
    have hstored : entry.1 ∈ memory.transfers :=
      HashMap.mem_iff_exists_lookup.mpr ⟨_, HashMap.lookup_eq_some_iff.mpr hentry⟩
    obtain ⟨accounts, hlookup⟩ := HashMap.mem_iff_exists_lookup.mp ((hindexed _).mpr hstored)
    rw [hlookup]
    rfl

/-- What the in-memory store lists: the stored transfers that are asked for. -/
theorem listing_asked_perm
    (hindexed : ∀ id, id ∈ memory.transferAccounts ↔ id ∈ memory.transfers)
    (order : IterationOrder) (account : Int64) (sub : Option Int64) :
    (memory.getTransfersForAccount order account sub).Perm
      ((memory.transfers.entries.filter fun entry => isAskedFor memory account sub entry.1).map
        fun entry => entry.2) := by
  have hlisted := (((order.arrange_perm memory.transferAccounts.entries).trans
    (transferAccounts_perm hindexed)).filter fun entry => entry.2.any fun owner : AccountId =>
      owner.id = account && sub.all (fun s => owner.sub = s)).filterMap
        fun entry => memory.transfers.lookup entry.1
  refine (List.perm_insertionSort _ _).trans (hlisted.trans ?_)
  rw [List.filter_map, List.filterMap_map]
  apply List.Perm.of_eq
  rw [← List.filterMap_eq_map]
  apply List.filterMap_congr
  intro entry hentry
  exact HashMap.lookup_eq_some_iff.mpr (List.mem_of_mem_filter hentry)

end Kuatia
