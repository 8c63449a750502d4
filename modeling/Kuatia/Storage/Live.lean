import Kuatia.Storage.MemStoreLaws

/-! # Live postings and balances

The live postings are the active and the reserved ones. A balance is the exact
sum of the live postings of one account and asset; what a query of the store
returns for them is the same list in another order.
-/

namespace Kuatia

variable [MoneyWidth]

namespace InMemoryStore

open MoneyWidth (backing)

variable (store : InMemoryStore)

def livePostings : List Posting :=
  store.postings.active.values ++ store.postings.reserved.values.map Prod.fst

/-- The balance of one account and asset. -/
def liveBalance (key : BalanceKey) : Int :=
  keyTotal Posting.key Posting.value store.livePostings key

/-- The sum of all live postings of one asset. -/
def liveTotal (asset : AssetId) : Int :=
  keyTotal Posting.asset Posting.value store.livePostings asset

/-- The sum of the absolute values of all live postings. -/
def liveMagnitude : Int := Cent.magnitude (store.livePostings.map Posting.value)

variable {store}

theorem mem_livePostings {posting : Posting} (hreserved : store.postings.reserved = ∅) :
    posting ∈ store.livePostings ↔
      ∃ id, store.postings.active.lookup id = some posting := by
  rw [livePostings, hreserved, List.mem_append, HashMap.mem_values_iff]
  simp [HashMap.values]

theorem livePostings_of_reserved (hreserved : store.postings.reserved = ∅) :
    store.livePostings = store.postings.active.values := by
  rw [livePostings, hreserved]
  simp [HashMap.values]

theorem postingsOf_live_perm (order : IterationOrder) :
    (store.postingsOf order .live).Perm store.livePostings :=
  (order.arrange_perm _).append ((order.arrange_perm _).map _)

theorem postingsOf_active_perm (order : IterationOrder) :
    (store.postingsOf order .active).Perm store.postings.active.values :=
  order.arrange_perm _

/-- A query for one account and asset returns the matching postings of the set. -/
theorem getPostingsByAccount_perm (order : IterationOrder) (key : BalanceKey)
    (filter : PostingFilter) {postings : List Posting}
    (hset : (store.postingsOf order filter).Perm postings) :
    (store.getPostingsByAccount order key.1.id (some key.1.sub) (some key.2) filter).Perm
      (postings.filter (·.key = key)) := by
  refine (List.perm_insertionSort _ _).trans ((hset.filter _).trans ?_)
  refine .of_eq (List.filter_congr fun posting _ => ?_)
  obtain ⟨⟨id, sub⟩, asset⟩ := key
  obtain ⟨_, ⟨ownerId, ownerSub⟩, postingAsset, _⟩ := posting
  simp [Posting.key, AccountId.mk.injEq, Bool.decide_and]

theorem getPostingsByAccount_live_perm (order : IterationOrder) (key : BalanceKey) :
    (store.getPostingsByAccount order key.1.id (some key.1.sub) (some key.2) .live).Perm
      (store.livePostings.filter (·.key = key)) :=
  getPostingsByAccount_perm order key .live (postingsOf_live_perm order)

/-- The sum over a live query succeeds when there is room for the postings it returns. -/
theorem exists_sum_under (order : IterationOrder) (key : BalanceKey)
    (hroom : Cent.magnitude ((store.livePostings.filter (·.key = key)).map Posting.value) ≤
      Backing.max backing) :
    ∃ value, Cent.checkedSum ((store.getPostingsByAccount order key.1.id (some key.1.sub)
      (some key.2) .live).map (·.value)) = .ok value := by
  refine Cent.exists_checkedSum (le_of_eq_of_le ?_ hroom)
  exact Cent.magnitude_perm ((getPostingsByAccount_live_perm order key).map _)

/-- It succeeds when there is room for all live postings. -/
theorem exists_sum_live (order : IterationOrder) (key : BalanceKey)
    (hroom : store.liveMagnitude ≤ Backing.max backing) :
    ∃ value, Cent.checkedSum ((store.getPostingsByAccount order key.1.id (some key.1.sub)
      (some key.2) .live).map (·.value)) = .ok value :=
  exists_sum_under order key
    ((Cent.magnitude_le_of_sublist (List.filter_sublist.map _)).trans hroom)

/-- A commit adds at most what it creates. -/
theorem liveMagnitude_applyCommit_le (clock : Clock) (req : CommitRequest) :
    (store.applyCommit clock req).liveMagnitude ≤
      store.liveMagnitude + Cent.magnitude (req.create.map Posting.value) := by
  have hinsert := Cent.magnitude_insertAll_le (store.postings.active.eraseAll req.consume) (·.id)
    Posting.value req.create
  have herase := Cent.magnitude_le_of_sublist
    ((HashMap.values_eraseAll_sublist store.postings.active req.consume).map Posting.value)
  simp only [liveMagnitude, livePostings, applyCommit_active, applyCommit_reserved,
    List.map_append, Cent.magnitude_append]
  omega

/-- The sum over a live query is the balance. -/
theorem val_of_sum_live {order : IterationOrder} {key : BalanceKey} {value : Cent}
    (hsum : Cent.checkedSum ((store.getPostingsByAccount order key.1.id (some key.1.sub)
      (some key.2) .live).map (·.value)) = .ok value) : value.val = store.liveBalance key := by
  rw [Cent.val_of_checkedSum hsum, List.map_map, liveBalance, keyTotal]
  exact ((getPostingsByAccount_live_perm order key).map _).sum_eq

end InMemoryStore

end Kuatia
