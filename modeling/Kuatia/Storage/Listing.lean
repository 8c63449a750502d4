import Kuatia.Storage.Live
import Kuatia.Types.Orders

/-! # What a listing depends on

The store lists postings by transfer and index. As long as the active postings are
filed under their own ids, and none is reserved, a listing is the same in whatever
order the tables are iterated.
-/

namespace Kuatia

open Sql

variable [MoneyWidth] {store : InMemoryStore}

namespace InMemoryStore

/-- The listing of the active or of the live postings is a sort by distinct ids. -/
theorem getPostingsByAccount_congr
    (hkeyed : ∀ id posting, store.postings.active.lookup id = some posting → posting.id = id)
    (hreserved : store.postings.reserved = ∅) (order other : IterationOrder) (account : Int64)
    (sub : Option Int64) (asset : Option AssetId) {filter : PostingFilter}
    (hfilter : filter = .active ∨ filter = .live) :
    store.getPostingsByAccount order account sub asset filter =
      store.getPostingsByAccount other account sub asset filter := by
  have hset : ∀ order, (store.postingsOf order filter).Perm store.postings.active.values := by
    intro order
    rcases hfilter with rfl | rfl
    · exact postingsOf_active_perm order
    · exact (postingsOf_live_perm order).trans (.of_eq (livePostings_of_reserved hreserved))
  have hids := HashMap.nodup_map_values hkeyed
  have hcolumn : ∀ postings : List Posting, postings.Sublist (store.postingsOf order filter) →
      (postings.map fun posting => posting.id.sortKey).Nodup := by
    intro postings hsublist
    have hall := (((hset order).map (·.id)).nodup_iff.mpr hids).sublist (hsublist.map _)
    have hkeys := hall.map PostingId.sortKey_injective
    rwa [List.map_map] at hkeys
  have hsorted : ∀ postings : List Posting,
      postings.insertionSort (fun first second => PostingId.le first.id second.id) =
        orderBy (fun posting => posting.id.sortKey) postings :=
    fun _ => insertionSort_eq_orderBy fun _ _ => PostingId.le_iff_sortKey
  rw [getPostingsByAccount, getPostingsByAccount, hsorted, hsorted]
  exact orderBy_congr (hcolumn _ List.filter_sublist)
    (((hset order).trans (hset other).symm).filter _)

end InMemoryStore

end Kuatia
