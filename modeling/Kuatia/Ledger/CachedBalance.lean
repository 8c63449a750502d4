import Kuatia.Ledger.Accounts
import Kuatia.Ledger.Loading

/-! # Cached balances

A cache point stands for the transfers up to its watermark, and a balance read
adds the transfers after it. When the points of an account and asset are sound,
the cached balance is the sum of the live postings.
-/

namespace Kuatia

open Async LedgerM

variable [MoneyWidth]

/-! ## Spending once -/

/-- No stored transfer consumes a posting twice. -/
def SpendsOnce (store : InMemoryStore) : Prop :=
  ∀ tid record, store.transfers.lookup tid = some record → record.envelope.consumes.Nodup

theorem spendsOnce_new : SpendsOnce InMemoryStore.new := by
  intro _ _ hlookup
  cases hlookup

theorem StoreStep.spendsOnce [Sha256] {submits : Envelope → Prop} {before after : InMemoryStore}
    (hstep : StoreStep submits before after) (hspends : SpendsOnce before) : SpendsOnce after := by
  intro tid record hlookup
  obtain ⟨_, htransfers, _⟩ | ⟨_, _, req, _, hvalid, _, _, _, rfl⟩ := hstep.postings_cases
  · exact hspends tid record (htransfers ▸ hlookup)
  · rw [lookup_transfers_applyCommit] at hlookup
    split at hlookup
    next =>
      cases hlookup
      exact hvalid.nodup
    next => exact hspends tid record hlookup

/-- The transfers of an account consume different postings. -/
theorem nodup_consumes_transfersOf {store : InMemoryStore} (hconsistent : Consistent store)
    (hspends : SpendsOnce store) (account : AccountId) :
    ((store.transfersOf account).flatMap (·.envelope.consumes)).Nodup := by
  rw [List.nodup_flatMap]
  constructor
  · intro record hrecord
    obtain ⟨tid, hstored, _⟩ := InMemoryStore.mem_transfersOf.mp hrecord
    exact hspends tid record hstored
  · have hkeys : (store.transferAccounts.entries.filter fun entry =>
        account ∈ entry.2).Pairwise fun first second => first.1 ≠ second.1 :=
      (List.nodupKeys_iff_pairwise.mp store.transferAccounts.nodupKeys).filter _
    refine List.Pairwise.filterMap _ ?_ hkeys
    intro first second hne record hrecord record' hrecord' id hid hid'
    exact hne (hconsistent.consumed_once id _ _ _ _ hrecord hrecord' hid hid')

/-- So do some of them, in any order. -/
theorem nodup_consumes_of_perm {store : InMemoryStore} (hconsistent : Consistent store)
    (hspends : SpendsOnce store) {account : AccountId} {records sublist : List EnvelopeRecord}
    (hperm : records.Perm sublist) (hsublist : sublist.Sublist (store.transfersOf account)) :
    (records.flatMap (·.envelope.consumes)).Nodup := by
  rw [(hperm.flatMap_right _).nodup_iff]
  exact (nodup_consumes_transfersOf hconsistent hspends account).sublist (hsublist.flatMap _)

/-! ## Folding transfers -/

section Folding

variable {key : BalanceKey}

theorem Delta.val_credit {delta next : Delta} {amount : Cent}
    (hcredit : delta.credit amount = .ok next) :
    next.value.val = delta.value.val + 1 * amount.val := by
  obtain ⟨value, hvalue, hpure⟩ := Except.bind_eq_ok_iff.mp hcredit
  cases hpure
  rw [Cent.checkedAdd_eq_ok_iff] at hvalue
  exact hvalue.trans (by rw [one_mul])

theorem Delta.val_debit {delta next : Delta} {amount : Cent}
    (hdebit : delta.debit amount = .ok next) :
    next.value.val = delta.value.val + -1 * amount.val := by
  obtain ⟨value, hvalue, hpure⟩ := Except.bind_eq_ok_iff.mp hdebit
  cases hpure
  rw [Cent.checkedSub_eq_ok_iff] at hvalue
  exact hvalue.trans (by ring)

/-- A loop that moves a delta by each matching item moves it by their total. -/
theorem val_of_foldMatching {α : Type} (keyOf : α → BalanceKey) (amountOf : α → Cent)
    {move : Delta → Cent → Except OverflowError Delta} {sign : Int}
    (hmove : ∀ {delta next amount}, move delta amount = .ok next →
      next.value.val = delta.value.val + sign * amount.val) {items : List α} {start delta : Delta}
    (hfold : items.foldlM (fun delta item =>
      if keyOf item = key then move delta (amountOf item) else .ok delta) start = .ok delta) :
    delta.value.val = start.value.val + sign * keyTotal keyOf amountOf items key := by
  induction items generalizing start with
  | nil =>
      cases hfold
      simp
  | cons head tail ih =>
      rw [List.foldlM_cons, Except.bind_eq_ok_iff] at hfold
      obtain ⟨next, hnext, hrest⟩ := hfold
      rw [ih hrest, keyTotal_cons]
      split at hnext
      next hkey =>
        rw [hmove hnext, if_pos hkey]
        ring
      next hkey =>
        cases hnext
        rw [if_neg hkey, zero_add]

/-- What several transfers change together. -/
def changeByAll (store : InMemoryStore) (records : List EnvelopeRecord) (key : BalanceKey) : Int :=
  (records.map fun record => changeBy store record key).sum

theorem changeByAll_perm {store : InMemoryStore} {records other : List EnvelopeRecord}
    (hperm : records.Perm other) (key : BalanceKey) :
    changeByAll store records key = changeByAll store other key :=
  (hperm.map _).sum_eq

theorem changeByAll_append (store : InMemoryStore) (first second : List EnvelopeRecord)
    (key : BalanceKey) : changeByAll store (first ++ second) key =
      changeByAll store first key + changeByAll store second key := by
  rw [changeByAll, List.map_append, List.sum_append]
  rfl

theorem changeByAll_eq (store : InMemoryStore) (records : List EnvelopeRecord) (key : BalanceKey) :
    changeByAll store records key =
      keyTotal NewPosting.key NewPosting.value (records.flatMap (·.envelope.creates)) key -
        keyTotal Posting.key Posting.value ((records.flatMap (·.envelope.consumes)).filterMap
          store.postings.immutable.lookup) key := by
  induction records with
  | nil => rfl
  | cons head tail ih =>
      have hcons : changeByAll store (head :: tail) key =
          changeBy store head key + changeByAll store tail key := rfl
      rw [hcons, ih, changeBy, List.flatMap_cons, List.flatMap_cons, List.filterMap_append,
        keyTotal_append, keyTotal_append]
      omega

end Folding

/-! ## Sound cache points -/

namespace InMemoryStore

variable (store : InMemoryStore)

/-- The cache points of an account and asset. -/
def pointsOf (key : BalanceKey) : List BalanceProjection := (store.projections.lookup key).getD []

/-- The transfers of an account committed in `[fromTs, toTs)`. -/
def windowOf (account : AccountId) (fromTs toTs : Option Int64) : List EnvelopeRecord :=
  filterTransfers (store.transfersOf account) (tailQuery account fromTs toTs)

/-- The transfers of an account that a read adds to a cache point. -/
def tailOf (account : AccountId) (point : BalanceProjection) : List EnvelopeRecord :=
  (store.transfersOf account).filter (saturatingAdd point.watermark 1 ≤ ·.createdAt)

/-- The transfers of an account that a cache point stands for. -/
def coveredBy (account : AccountId) (point : BalanceProjection) : List EnvelopeRecord :=
  (store.transfersOf account).filter (¬saturatingAdd point.watermark 1 ≤ ·.createdAt)

theorem windowOf_tail (account : AccountId) (point : BalanceProjection) :
    store.windowOf account (some (saturatingAdd point.watermark 1)) none =
      store.tailOf account point := by
  refine List.filter_congr fun record _ => ?_
  simp [tailQuery]

theorem tailOf_append_coveredBy_perm (account : AccountId) (point : BalanceProjection) :
    (store.tailOf account point ++ store.coveredBy account point).Perm
      (store.transfersOf account) := by
  rw [tailOf, coveredBy]
  simp only [decide_not]
  exact List.filter_append_perm _ _

end InMemoryStore

/-- Every cache point of the account and asset adds up the transfers that it stands
for, and a read of the other ones is not cut off when `room` more are stored. -/
structure CacheSound (store : InMemoryStore) (key : BalanceKey) (room : Nat) : Prop where
  indexed : store.pointsOf key ≠ [] → IndexedFor store key.1
  covers : ∀ point ∈ store.pointsOf key,
    point.balance.val = changeByAll store (store.coveredBy key.1 point) key
  short : ∀ point ∈ store.pointsOf key, (store.tailOf key.1 point).length + room < 2 ^ 32

theorem CacheSound.of_none {store : InMemoryStore} {key : BalanceKey}
    (hnone : store.pointsOf key = []) (room : Nat) : CacheSound store key room where
  indexed hsome := absurd hnone hsome
  covers _ hpoint := absurd (hnone ▸ hpoint) List.not_mem_nil
  short _ hpoint := absurd (hnone ▸ hpoint) List.not_mem_nil

theorem mem_of_latestProjection {points : List BalanceProjection} {point : BalanceProjection}
    (hlatest : InMemoryStore.latestProjection points = some point) : point ∈ points := by
  induction points using List.reverseRecOn generalizing point with
  | nil => cases hlatest
  | append_singleton points last ih =>
      rw [InMemoryStore.latestProjection, List.foldl_concat] at hlatest
      split at hlatest
      next =>
        cases hlatest
        exact List.mem_append_right _ List.mem_cons_self
      next other hother =>
        split at hlatest
        next =>
          cases hlatest
          exact List.mem_append_right _ List.mem_cons_self
        next =>
          cases hlatest
          exact List.mem_append_left _ (ih hother)

theorem mem_pointsOf_of_closest {store : InMemoryStore} {account : AccountId} {asset : AssetId}
    {asOf : Int64} {point : BalanceProjection}
    (hclosest : store.getClosestBalanceProjection account asset asOf = some point) :
    point ∈ store.pointsOf (account, asset) ∧ point.watermark ≤ asOf := by
  have hmem := List.mem_filter.mp (mem_of_latestProjection hclosest)
  exact ⟨hmem.1, of_decide_eq_true hmem.2⟩

section Reading

variable [Sha256] {state before after : World} {account : AccountId}
  {asset : AssetId}

/-- A fold over stored transfers adds up what they have changed. -/
theorem foldAccountDelta_keeps {guarantee : World → World → Prop}
    (henv : Environment Interferes guarantee) {records : List EnvelopeRecord}
    (hconsistent : Consistent state.store)
    (hstored : ∀ record ∈ records, ∃ tid, state.store.transfers.lookup tid = some record)
    (hnodup : (records.flatMap (·.envelope.consumes)).Nodup) :
    Keeps anyAction Interferes guarantee
      (fun delta _ => delta.value.val = changeByAll state.store records (account, asset))
      (foldAccountDelta account asset records) state := by
  have hrecorded : ∀ id ∈ records.flatMap (·.envelope.consumes),
      id ∈ state.store.postings.immutable := by
    intro id hid
    obtain ⟨record, hrecord, hconsumed⟩ := List.mem_flatMap.mp hid
    obtain ⟨tid, hlookup⟩ := hstored record hrecord
    exact (hconsistent.mem_immutable id).mpr
      (hconsistent.consumed_created id ⟨tid, record, hlookup, hconsumed⟩)
  unfold foldAccountDelta
  apply keeps_bind henv
  refine keeps_attempt fun credits hcredits first hfirst => ?_
  rw [Except.mapError_eq_ok_iff, foldCredits] at hcredits
  have hcredited := val_of_foldMatching NewPosting.key NewPosting.value Delta.val_credit hcredits
  rw [List.dedupFirst_of_nodup hnodup]
  dsimp only
  split
  next hnone =>
    refine keeps_pure fun _ _ => ?_
    rw [changeByAll_eq, hnone, hcredited]
    simp
  next =>
    refine keeps_bind henv (keeps_read henv fun second hsecond choice _ third hthird => ?_)
    apply keeps_bind henv
    refine keeps_attempt fun consumed hconsumed fourth hfourth => ?_
    refine keeps_attempt fun delta hdelta last hlast => ?_
    rw [Except.mapError_eq_ok_iff, InMemoryStore.getPostings_eq_ok_iff] at hconsumed
    rw [Except.mapError_eq_ok_iff, foldDebits] at hdelta
    have hdebited := val_of_foldMatching Posting.key Posting.value Delta.val_debit hdelta
    have hevolves : Evolves state.store second.store := hfirst.trans hsecond
    have hsame : consumed = (records.flatMap (·.envelope.consumes)).filterMap
        state.store.postings.immutable.lookup := by
      rw [← HashMap.filterMap_lookup_eq hconsumed]
      refine List.filterMap_congr fun id hid => ?_
      obtain ⟨posting, hposting⟩ := HashMap.mem_iff_exists_lookup.mp (hrecorded id hid)
      rw [hposting, hevolves.lookup_immutable hposting]
    rw [changeByAll_eq, ← hsame, hdebited, hcredited, Cent.val_ZERO]
    ring

section Paging

variable {store : InMemoryStore} {fromTs toTs : Option Int64}

omit [Sha256] in
theorem listedWindow_perm (order : IterationOrder) :
    (filterTransfers (store.getTransfersForAccount order account.id (some account.sub))
      (tailQuery account fromTs toTs)).Perm (store.windowOf account fromTs toTs) :=
  (store.getTransfersForAccount_perm order account).filter _

omit [Sha256] in
theorem items_queryTransfers_window (order : IterationOrder) :
    (store.queryTransfers order (tailQuery account fromTs toTs)).items =
      (filterTransfers (store.getTransfersForAccount order account.id (some account.sub))
        (tailQuery account fromTs toTs)).take (2 ^ 32 - 1) := rfl

omit [Sha256] in
/-- A query for a window without a limit returns at most one page. -/
theorem length_queryTransfers_window (order : IterationOrder) :
    (store.queryTransfers order (tailQuery account fromTs toTs)).items.length =
      min (2 ^ 32 - 1) (store.windowOf account fromTs toTs).length := by
  rw [items_queryTransfers_window, List.length_take, (listedWindow_perm order).length_eq]

omit [Sha256] in
/-- A query for a window that is not cut off returns the transfers of the window. -/
theorem queryTransfers_window_perm
    (hshort : (store.windowOf account fromTs toTs).length < 2 ^ 32) (order : IterationOrder) :
    (store.queryTransfers order (tailQuery account fromTs toTs)).items.Perm
      (store.windowOf account fromTs toTs) := by
  rw [items_queryTransfers_window, List.take_of_length_le]
  · exact listedWindow_perm order
  · rw [(listedWindow_perm order).length_eq]
    exact Nat.le_of_lt_succ hshort

end Paging

omit [Sha256] in
/-- A query for the tail that is not cut off returns the transfers of the tail. -/
theorem queryTransfers_tail_perm {store : InMemoryStore} {point : BalanceProjection}
    (hshort : (store.tailOf account point).length < 2 ^ 32) (order : IterationOrder) :
    (store.queryTransfers order (tailQuery account (some (saturatingAdd point.watermark 1))
      none)).items.Perm (store.tailOf account point) := by
  rw [← store.windowOf_tail account point] at hshort ⊢
  exact queryTransfers_window_perm hshort order

omit [Sha256] in
theorem exists_of_mem_perm {store : InMemoryStore} {records sublist : List EnvelopeRecord}
    (hperm : records.Perm sublist) (hsublist : sublist.Sublist (store.transfersOf account)) :
    ∀ record ∈ records, ∃ tid, store.transfers.lookup tid = some record := by
  intro record hrecord
  have hmem := hsublist.subset (hperm.mem_iff.mp hrecord)
  obtain ⟨tid, hlookup, _⟩ := InMemoryStore.mem_transfersOf.mp hmem
  exact ⟨tid, hlookup⟩

/-- A fold over some transfers of an account adds up what they have changed. -/
theorem foldAccountDelta_alone {records sublist : List EnvelopeRecord} {delta : Delta}
    (halone : Alone (foldAccountDelta account asset records) before (.ok delta) after)
    (hconsistent : Consistent before.store) (hspends : SpendsOnce before.store)
    (hperm : records.Perm sublist) (hsublist : sublist.Sublist (before.store.transfersOf account)) :
    delta.value.val = changeByAll before.store sublist (account, asset) := by
  have hstored := exists_of_mem_perm hperm hsublist
  have hnodup := nodup_consumes_of_perm hconsistent hspends hperm hsublist
  have hkeeps : Keeps anyAction Interferes (LedgerStep fun _ => True)
      (fun delta _ => delta.value.val = changeByAll before.store records (account, asset))
      (foldAccountDelta account asset records) before :=
    foldAccountDelta_keeps environment hconsistent hstored hnodup
  rw [← changeByAll_perm hperm]
  exact hkeeps.of_alone halone

/-- A read of the tail that is not cut off adds up the transfers of the tail. -/
theorem foldTail_alone {point : BalanceProjection} {delta : Delta}
    (halone : Alone (foldTail account asset (some (saturatingAdd point.watermark 1))
      none) before (.ok delta) after) (hconsistent : Consistent before.store)
    (hspends : SpendsOnce before.store)
    (hshort : (before.store.tailOf account point).length < 2 ^ 32) :
    delta.value.val =
      changeByAll before.store (before.store.tailOf account point) (account, asset) := by
  obtain ⟨page, middle, hread, hfold⟩ := alone_bind_ok_iff.mp halone
  obtain ⟨choice, hpage, rfl⟩ := alone_read_iff.mp hread
  cases hpage
  have hsublist : (before.store.tailOf account point).Sublist (before.store.transfersOf account) :=
    List.filter_sublist
  have hvalue := foldAccountDelta_alone hfold hconsistent hspends
    (queryTransfers_tail_perm hshort choice.order) hsublist
  exact hvalue

omit [Sha256] in
/-- A sound cache point and the transfers of its tail make up the live balance. -/
theorem CacheSound.liveBalance_eq {store : InMemoryStore} {room : Nat}
    (hsound : CacheSound store (account, asset) room) (haccounted : Accounted store)
    {point : BalanceProjection} (hpoint : point ∈ store.pointsOf (account, asset)) :
    point.balance.val + changeByAll store (store.tailOf account point) (account, asset) =
      store.liveBalance (account, asset) := by
  have hindexed := hsound.indexed (List.ne_nil_of_mem hpoint)
  have hcovers := hsound.covers point hpoint
  have hsplit : changeByAll store (store.transfersOf account) (account, asset) =
      changeByAll store (store.tailOf account point) (account, asset) +
        changeByAll store (store.coveredBy account point) (account, asset) := by
    rw [← changeByAll_append]
    exact changeByAll_perm (InMemoryStore.tailOf_append_coveredBy_perm _ account point).symm _
  rw [haccounted.adds account hindexed asset]
  change _ = changeByAll store (store.transfersOf account) (account, asset)
  dsimp only at hcovers
  omega

/-- Where the cache points are sound, the balance is the sum of the live postings. -/
theorem balance_alone {value : Cent}
    (halone : Alone (Ledger.balance account asset) before (.ok value) after)
    (haccounted : Accounted before.store) (hspends : SpendsOnce before.store)
    (hsound : CacheSound before.store (account, asset) 0) :
    value.val = before.store.liveBalance (account, asset) := by
  obtain ⟨now, first, hnow, hrest⟩ := alone_bind_ok_iff.mp halone
  have hfirst := ReadOnly.nowMillis.store_eq hnow
  obtain ⟨closest, second, hread, hrest⟩ := alone_bind_ok_iff.mp hrest
  obtain ⟨choice, hclosest, rfl⟩ := alone_read_iff.mp hread
  cases hclosest
  rw [hfirst] at hrest
  split at hrest
  next point hclosest =>
    obtain ⟨tail, third, hfold, hadd⟩ := alone_bind_ok_iff.mp hrest
    obtain ⟨hpoint, _⟩ := mem_pointsOf_of_closest hclosest
    have htail := foldTail_alone hfold haccounted.consistent hspends (hsound.short point hpoint)
    obtain ⟨hvalue, _⟩ := alone_attempt_iff.mp hadd
    have hsum := Except.mapError_eq_ok_iff.mp hvalue.symm
    rw [Cent.checkedAdd_eq_ok_iff, htail] at hsum
    exact hsum.trans (hsound.liveBalance_eq haccounted hpoint)
  next =>
    have hcompute : Alone (computeBalance (account, asset).1 (account, asset).2)
        ⟨before.store, choice.clock⟩ (.ok value) after := hrest
    obtain ⟨value', hvalue, hexact⟩ | herror := computeBalance_alone hcompute
    · cases hvalue
      exact hexact
    · cases herror.1

end Reading

end Kuatia
