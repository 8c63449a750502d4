import Kuatia.Storage.MemStoreLaws

/-! # Listing accounts and books

A hash map has its entries in no order. Each account has the number of versions that
were appended to it; the listing of accounts has the latest of each.
-/

namespace Kuatia

variable [MoneyWidth]

namespace InMemoryStore

variable (store : InMemoryStore)

def getAccountHistory (id : AccountId) : Except StoreError (List Account) :=
  match store.accounts.lookup id with
  | some versions => .ok versions
  | none => .error (.notFound s!"account {id.debug}")

def listAccounts (order : IterationOrder) : List Account :=
  (order.arrange store.accounts.values).filterMap List.getLast?

def listBooks (order : IterationOrder) : List Book := order.arrange store.books.values

variable {store}

theorem latest_of_lookup {id : AccountId} {versions : List Account}
    (hlookup : store.accounts.lookup id = some versions) :
    store.latest id = versions.getLast? := by
  rw [latest, InMemoryStore.versions, hlookup]
  rfl

/-- The accounts of a listing are the latest versions. -/
theorem mem_listAccounts (hkeyed : ∀ id, ∀ account ∈ store.versions id, account.id = id)
    {order : IterationOrder} {account : Account} :
    account ∈ store.listAccounts order ↔ store.latest account.id = some account := by
  simp only [listAccounts, List.mem_filterMap, IterationOrder.mem_arrange, HashMap.mem_values_iff]
  constructor
  · rintro ⟨versions, ⟨id, hlookup⟩, hlast⟩
    rw [← latest_of_lookup hlookup] at hlast
    rwa [hkeyed id account (mem_versions_of_latest hlast)]
  · intro hlatest
    cases hlookup : store.accounts.lookup account.id with
    | none =>
        rw [latest, versions, hlookup] at hlatest
        cases hlatest
    | some versions => exact ⟨versions, ⟨_, hlookup⟩, latest_of_lookup hlookup ▸ hlatest⟩

/-- No account is listed twice. -/
theorem nodup_listAccounts (hkeyed : ∀ id, ∀ account ∈ store.versions id, account.id = id)
    (order : IterationOrder) : ((store.listAccounts order).map (·.id)).Nodup := by
  have hids : (store.accounts.values.filterMap List.getLast?).map (·.id) =
      (store.accounts.entries.filter fun entry => entry.2.getLast?.isSome).map Sigma.fst := by
    rw [HashMap.values, List.filterMap_map, List.map_filterMap, ← List.filterMap_eq_map,
      ← List.filterMap_eq_filter, List.filterMap_filterMap]
    refine List.filterMap_congr fun entry hentry => ?_
    have hlookup := HashMap.lookup_eq_some_iff.mpr hentry
    cases hlast : entry.2.getLast? with
    | none => simp [hlast, Option.guard]
    | some account =>
        rw [← latest_of_lookup hlookup] at hlast
        have hid := hkeyed entry.1 account (mem_versions_of_latest hlast)
        rw [latest_of_lookup hlookup] at hlast
        simp [hlast, hid, Option.guard]
  rw [listAccounts]
  refine (((order.arrange_perm _).filterMap _).map _).nodup_iff.mpr ?_
  rw [hids]
  have hkeys : (store.accounts.entries.map Sigma.fst).Nodup := store.accounts.nodupKeys
  exact hkeys.sublist (List.filter_sublist.map _)

end InMemoryStore

end Kuatia
