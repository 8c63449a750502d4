import Kuatia.Ledger.CachePoints
import Kuatia.Ledger.Sample

/-! # Turnover since a cache point

A cached balance adds up all credits since the closest cache point before it
takes away the debits. The totals it goes through are those of the turnover of
the account, which may leave the range of a `Cent` when the balance does not.
-/

namespace Kuatia

open Async LedgerM

section Theory

variable [MoneyWidth]

/-! ## Running totals of a fold -/

theorem Delta.exists_credit_iff {delta : Delta} {amount : Cent} :
    (∃ next, delta.credit amount = .ok next) ↔
      Cent.Holds (delta.value.val + 1 * amount.val) := by
  rw [one_mul]
  constructor
  · rintro ⟨next, hnext⟩
    have hval := Delta.val_credit hnext
    rw [one_mul] at hval
    exact hval ▸ Cent.holds_of_val _
  · intro hholds
    obtain ⟨value, hvalue, _⟩ := Cent.exists_checked_eq_ok hholds.1 hholds.2
    exact ⟨_, Except.bind_eq_ok_iff.mpr ⟨value, hvalue, rfl⟩⟩

theorem Delta.exists_debit_iff {delta : Delta} {amount : Cent} :
    (∃ next, delta.debit amount = .ok next) ↔
      Cent.Holds (delta.value.val + -1 * amount.val) := by
  constructor
  · rintro ⟨next, hnext⟩
    exact Delta.val_debit hnext ▸ Cent.holds_of_val _
  · intro hholds
    rw [neg_one_mul, ← sub_eq_add_neg] at hholds
    obtain ⟨value, hvalue, _⟩ := Cent.exists_checked_eq_ok hholds.1 hholds.2
    exact ⟨_, Except.bind_eq_ok_iff.mpr ⟨value, hvalue, rfl⟩⟩

/-- A loop that moves a delta by each matching item succeeds exactly when all its
running totals fit. -/
theorem exists_foldMatching_iff {α : Type} (keyOf : α → BalanceKey) (amountOf : α → Cent)
    {key : BalanceKey} {move : Delta → Cent → Except OverflowError Delta} {sign : Int}
    (hmove : ∀ {delta next amount}, move delta amount = .ok next →
      next.value.val = delta.value.val + sign * amount.val)
    (hexists : ∀ {delta amount}, (∃ next, move delta amount = .ok next) ↔
      Cent.Holds (delta.value.val + sign * amount.val)) {items : List α} {start : Delta} :
    (∃ delta, items.foldlM (fun delta item =>
      if keyOf item = key then move delta (amountOf item) else .ok delta) start = .ok delta) ↔
      ∀ n, Cent.Holds (start.value.val + sign * keyTotal keyOf amountOf (items.take n) key) := by
  constructor
  · rintro ⟨delta, hfold⟩ n
    rw [← List.take_append_drop n items, List.foldlM_append, Except.bind_eq_ok_iff] at hfold
    obtain ⟨middle, htaken, _⟩ := hfold
    rw [← val_of_foldMatching keyOf amountOf hmove htaken]
    exact Cent.holds_of_val _
  · intro hholds
    induction items generalizing start with
    | nil => exact ⟨start, rfl⟩
    | cons head tail ih =>
        -- the first item decides where the rest of the loop starts
        have hnext : ∃ next : Delta,
            (if keyOf head = key then move start (amountOf head) else .ok start) = .ok next ∧
            next.value.val = start.value.val +
              sign * (if keyOf head = key then (amountOf head).val else 0) := by
          have hfirst := hholds 1
          simp only [List.take_succ_cons, List.take_zero, keyTotal_cons, keyTotal_nil, add_zero]
            at hfirst
          split at hfirst
          next hkey =>
            obtain ⟨next, hnext⟩ := hexists.mpr hfirst
            exact ⟨next, by rw [if_pos hkey, hnext], by rw [if_pos hkey, hmove hnext]⟩
          next hkey => exact ⟨start, if_neg hkey, by simp [hkey]⟩
        obtain ⟨next, hhead, hval⟩ := hnext
        obtain ⟨delta, hdelta⟩ := @ih next fun n => by
          have hrest := hholds (n + 1)
          rw [List.take_succ_cons, keyTotal_cons, mul_add, ← add_assoc, ← hval] at hrest
          exact hrest
        exact ⟨delta, Except.bind_eq_ok_iff.mpr ⟨next, hhead, hdelta⟩⟩

namespace InMemoryStore

variable (store : InMemoryStore)

/-- The transfers that a read adds to a cache point, in the order of one listing. -/
def listedTail (order : IterationOrder) (account : AccountId) (point : BalanceProjection) :
    List EnvelopeRecord :=
  (store.queryTransfers order
    (tailQuery account (some (saturatingAdd point.watermark 1)) none)).items

/-- The postings that some transfers consume. -/
def consumedBy (records : List EnvelopeRecord) : List Posting :=
  (records.flatMap (·.envelope.consumes)).dedupFirst.filterMap store.postings.immutable.lookup

/-- What some transfers credit, all of it before any debit. -/
def creditTotal (records : List EnvelopeRecord) (key : BalanceKey) : Int :=
  keyTotal NewPosting.key NewPosting.value (records.flatMap (·.envelope.creates)) key

/-- Every running total of the credits fits, then every one of the debits, and so does
the cache point with all of them. -/
structure TurnoverFits (key : BalanceKey) (point : BalanceProjection)
    (records : List EnvelopeRecord) : Prop where
  credits : ∀ n, Cent.Holds (keyTotal NewPosting.key NewPosting.value
    ((records.flatMap (·.envelope.creates)).take n) key)
  debits : ∀ n, Cent.Holds (creditTotal records key -
    keyTotal Posting.key Posting.value ((store.consumedBy records).take n) key)
  total : Cent.Holds (point.balance.val + (creditTotal records key -
    keyTotal Posting.key Posting.value (store.consumedBy records) key))

/-- What a fold over some transfers returns. -/
def foldedDelta (key : BalanceKey) (records : List EnvelopeRecord) :
    Except OverflowError Delta := do
  foldDebits key (← foldCredits key records) (store.consumedBy records)

/-- What a read returns that adds some transfers to a cache point. -/
def cachedBalance (key : BalanceKey) (point : BalanceProjection) (records : List EnvelopeRecord) :
    Except OverflowError Cent := do
  point.balance.checkedAdd (← store.foldedDelta key records).value

end InMemoryStore

section Folding

variable {store : InMemoryStore} {key : BalanceKey} {records : List EnvelopeRecord}

theorem val_of_foldedDelta {delta : Delta} (hfolded : store.foldedDelta key records = .ok delta) :
    delta.value.val = InMemoryStore.creditTotal records key -
      keyTotal Posting.key Posting.value (store.consumedBy records) key := by
  obtain ⟨credits, hcredits, hdebits⟩ := Except.bind_eq_ok_iff.mp hfolded
  have hcredited := val_of_foldMatching NewPosting.key NewPosting.value Delta.val_credit hcredits
  rw [val_of_foldMatching Posting.key Posting.value Delta.val_debit hdebits, hcredited,
    Cent.val_ZERO, InMemoryStore.creditTotal]
  ring

theorem exists_foldedDelta_iff : (∃ delta, store.foldedDelta key records = .ok delta) ↔
    (∀ n, Cent.Holds (keyTotal NewPosting.key NewPosting.value
      ((records.flatMap (·.envelope.creates)).take n) key)) ∧
    ∀ n, Cent.Holds (InMemoryStore.creditTotal records key -
      keyTotal Posting.key Posting.value ((store.consumedBy records).take n) key) := by
  have hcredits : (∃ credits, foldCredits key records = .ok credits) ↔ _ :=
    exists_foldMatching_iff NewPosting.key NewPosting.value Delta.val_credit
      Delta.exists_credit_iff
  simp only [Cent.val_ZERO, one_mul, zero_add] at hcredits
  have hdebits : ∀ {credits}, foldCredits key records = .ok credits →
      ((∃ delta, foldDebits key credits (store.consumedBy records) = .ok delta) ↔
        ∀ n, Cent.Holds (InMemoryStore.creditTotal records key -
          keyTotal Posting.key Posting.value ((store.consumedBy records).take n) key)) := by
    intro credits hfold
    have hcredited := val_of_foldMatching NewPosting.key NewPosting.value Delta.val_credit hfold
    rw [Cent.val_ZERO, one_mul, zero_add] at hcredited
    refine (exists_foldMatching_iff Posting.key Posting.value Delta.val_debit
      Delta.exists_debit_iff).trans ?_
    simp only [hcredited, neg_one_mul, ← sub_eq_add_neg]
    rfl
  rw [← hcredits]
  constructor
  · rintro ⟨delta, hfolded⟩
    obtain ⟨credits, hfold, hrest⟩ := Except.bind_eq_ok_iff.mp hfolded
    exact ⟨⟨credits, hfold⟩, (hdebits hfold).mp ⟨delta, hrest⟩⟩
  · rintro ⟨⟨credits, hfold⟩, hholds⟩
    obtain ⟨delta, hrest⟩ := (hdebits hfold).mpr hholds
    exact ⟨delta, Except.bind_eq_ok_iff.mpr ⟨credits, hfold, hrest⟩⟩

/-- A read returns a value exactly when the turnover since the point fits. -/
theorem exists_cachedBalance_iff {point : BalanceProjection} :
    (∃ value, store.cachedBalance key point records = .ok value) ↔
      store.TurnoverFits key point records := by
  constructor
  · rintro ⟨value, hcached⟩
    obtain ⟨delta, hdelta, hvalue⟩ := Except.bind_eq_ok_iff.mp hcached
    obtain ⟨hcredits, hdebits⟩ := exists_foldedDelta_iff.mp ⟨delta, hdelta⟩
    refine ⟨hcredits, hdebits, ?_⟩
    rw [Cent.checkedAdd_eq_ok_iff] at hvalue
    rw [← val_of_foldedDelta hdelta, ← hvalue]
    exact Cent.holds_of_val _
  · intro hfits
    obtain ⟨delta, hdelta⟩ := exists_foldedDelta_iff.mpr ⟨hfits.credits, hfits.debits⟩
    have htotal := hfits.total
    rw [← val_of_foldedDelta hdelta] at htotal
    obtain ⟨value, hvalue, _⟩ := Cent.exists_checked_eq_ok htotal.1 htotal.2
    exact ⟨value, Except.bind_eq_ok_iff.mpr ⟨delta, hdelta, hvalue⟩⟩

end Folding

/-! ## Reading a cached balance -/

section Reading

variable {store : InMemoryStore} {before after : World} {account : AccountId} {asset : AssetId}
  {records : List EnvelopeRecord}

theorem exists_of_mem_listedTail {order : IterationOrder} {point : BalanceProjection}
    {record : EnvelopeRecord} (hrecord : record ∈ store.listedTail order account point) :
    ∃ tid, store.transfers.lookup tid = some record := by
  have hlisted := List.mem_of_mem_filter (List.mem_of_mem_drop (List.mem_of_mem_take hrecord))
  have hmem := (store.getTransfersForAccount_perm order account).mem_iff.mp hlisted
  obtain ⟨tid, hlookup, _⟩ := InMemoryStore.mem_transfersOf.mp hmem
  exact ⟨tid, hlookup⟩

theorem getPostings_of_recorded
    (hrecorded : ∀ id ∈ records.flatMap (·.envelope.consumes), id ∈ store.postings.immutable) :
    store.getPostings (records.flatMap (·.envelope.consumes)).dedupFirst =
      .ok (store.consumedBy records) :=
  InMemoryStore.getPostings_eq_ok_iff.mpr (HashMap.forall₂_filterMap_lookup fun id hid =>
    hrecorded id (List.mem_dedupFirst.mp hid))

theorem foldAccountDelta_cases {result : Except LedgerError Delta}
    (hrecorded : ∀ id ∈ records.flatMap (·.envelope.consumes),
      id ∈ before.store.postings.immutable)
    (halone : Alone (foldAccountDelta account asset records) before result after) :
    result = (before.store.foldedDelta (account, asset) records).mapError .ofOverflow := by
  unfold foldAccountDelta at halone
  rw [InMemoryStore.foldedDelta]
  obtain ⟨credits, first, hcredits, hrest⟩ | ⟨err, hcredits, rfl⟩ := alone_bind_iff.mp halone
  swap
  · obtain ⟨hvalue, -⟩ := alone_attempt_iff.mp hcredits
    obtain ⟨cause, hcause, rfl⟩ := Except.mapError_eq_error_iff.mp hvalue.symm
    rw [hcause]
    rfl
  obtain ⟨hvalue, rfl⟩ := alone_attempt_iff.mp hcredits
  rw [Except.mapError_eq_ok_iff.mp hvalue.symm]
  dsimp only at hrest
  split at hrest
  next hnone =>
    obtain ⟨rfl, -⟩ := alone_pure_iff.mp hrest
    rw [InMemoryStore.consumedBy, hnone]
    rfl
  next =>
    obtain ⟨found, second, hread, hrest⟩ | ⟨_, hread, _⟩ := alone_bind_iff.mp hrest
    swap
    · obtain ⟨_, hfound, _⟩ := alone_read_iff.mp hread
      cases hfound
    obtain ⟨_, hfound, rfl⟩ := alone_read_iff.mp hread
    cases hfound
    rw [getPostings_of_recorded hrecorded] at hrest
    exact (alone_attempt_iff.mp hrest).1

/-- While the clock shows `now`, the fold runs and returns what it adds up. -/
theorem foldAccountDelta_runs (now : Int64)
    (hrecorded : ∀ id ∈ records.flatMap (·.envelope.consumes), id ∈ store.postings.immutable) :
    Alone (foldAccountDelta account asset records) ⟨store, some now⟩
      ((store.foldedDelta (account, asset) records).mapError .ofOverflow) ⟨store, some now⟩ := by
  unfold foldAccountDelta
  rw [InMemoryStore.foldedDelta]
  refine alone_bind_iff.mpr ?_
  cases hcredits : foldCredits (account, asset) records with
  | error err => exact .inr ⟨_, alone_attempt_iff.mpr ⟨rfl, rfl⟩, rfl⟩
  | ok credits =>
      refine .inl ⟨credits, ⟨store, some now⟩, alone_attempt_iff.mpr ⟨rfl, rfl⟩, ?_⟩
      dsimp only
      split
      next hnone =>
        refine alone_pure_iff.mpr ⟨?_, rfl⟩
        rw [InMemoryStore.consumedBy, hnone]
        rfl
      next =>
        refine alone_bind_iff.mpr (.inl ⟨_, ⟨store, some now⟩,
          alone_read_iff.mpr ⟨⟨.listed, some now⟩, rfl, rfl⟩, ?_⟩)
        rw [getPostings_of_recorded hrecorded]
        exact alone_attempt_iff.mpr ⟨rfl, rfl⟩

/-- In a reachable state the consumed postings of the tail are all recorded. -/
theorem recorded_of_listedTail (hconsistent : Consistent store) {order : IterationOrder}
    {point : BalanceProjection} :
    ∀ id ∈ (store.listedTail order account point).flatMap (·.envelope.consumes),
      id ∈ store.postings.immutable := by
  intro id hid
  obtain ⟨record, hrecord, hconsumed⟩ := List.mem_flatMap.mp hid
  obtain ⟨tid, hlookup⟩ := exists_of_mem_listedTail hrecord
  exact (hconsistent.mem_immutable id).mpr
    (hconsistent.consumed_created id ⟨tid, record, hlookup, hconsumed⟩)

theorem foldTail_cases {clock : Clock} {point : BalanceProjection}
    {result : Except LedgerError Delta} (hconsistent : Consistent store)
    (halone : Alone (foldTail account asset (some (saturatingAdd point.watermark 1)) none)
      ⟨store, clock⟩ result after) :
    ∃ order, result = (store.foldedDelta (account, asset)
      (store.listedTail order account point)).mapError .ofOverflow := by
  obtain ⟨page, middle, hpage, hfold⟩ | ⟨_, hpage, _⟩ := alone_bind_iff.mp halone
  swap
  · obtain ⟨_, hfound, _⟩ := alone_read_iff.mp hpage
    cases hfound
  obtain ⟨choice, hvalue, rfl⟩ := alone_read_iff.mp hpage
  cases hvalue
  have hfold : Alone (foldAccountDelta account asset (store.listedTail choice.order account point))
      ⟨store, choice.clock⟩ result after := hfold
  have hrecorded : ∀ id ∈ (store.listedTail choice.order account point).flatMap
      (·.envelope.consumes), id ∈ store.postings.immutable := recorded_of_listedTail hconsistent
  refine ⟨choice.order, ?_⟩
  have hresult := foldAccountDelta_cases hrecorded hfold
  exact hresult

/-- With a sound cache point the last total is the live balance: only the turnover can
leave the range that the balance is in. -/
theorem turnoverFits_iff_of_sound (haccounted : Accounted store) (hspends : SpendsOnce store)
    (hsound : CacheSound store (account, asset) 0) {point : BalanceProjection}
    (hpoint : point ∈ store.pointsOf (account, asset)) (order : IterationOrder)
    (hfits : Cent.Holds (store.liveBalance (account, asset))) :
    store.TurnoverFits (account, asset) point (store.listedTail order account point) ↔
      (∀ n, Cent.Holds (keyTotal NewPosting.key NewPosting.value
        (((store.listedTail order account point).flatMap (·.envelope.creates)).take n)
        (account, asset))) ∧
      ∀ n, Cent.Holds (InMemoryStore.creditTotal (store.listedTail order account point)
        (account, asset) - keyTotal Posting.key Posting.value
          ((store.consumedBy (store.listedTail order account point)).take n) (account, asset)) := by
  have hperm : (store.listedTail order account point).Perm (store.tailOf account point) :=
    queryTransfers_tail_perm (hsound.short point hpoint) order
  have hnodup := nodup_consumes_of_perm haccounted.consistent hspends hperm List.filter_sublist
  refine ⟨fun hturnover => ⟨hturnover.credits, hturnover.debits⟩,
    fun ⟨hcredits, hdebits⟩ => ⟨hcredits, hdebits, ?_⟩⟩
  rw [InMemoryStore.consumedBy, List.dedupFirst_of_nodup hnodup, InMemoryStore.creditTotal,
    ← changeByAll_eq, changeByAll_perm hperm, hsound.liveBalance_eq haccounted hpoint]
  exact hfits

/-- All that the transfers since a cache point create and consume, whoever owns it. -/
def InMemoryStore.turnover (store : InMemoryStore) (account : AccountId)
    (point : BalanceProjection) : Int :=
  Cent.magnitude (((store.tailOf account point).flatMap (·.envelope.creates)).map
    NewPosting.value) +
  Cent.magnitude ((store.consumedBy (store.tailOf account point)).map Posting.value)

/-- Where no index wraps, a cache point is sound when it adds up what it covers and the
transfers after it are not too many to be read. -/
theorem CacheSound.of_indexed {key : BalanceKey} (hindexed : Indexed store)
    (hpoints : ∀ point ∈ store.pointsOf key,
      point.balance.val = changeByAll store (store.coveredBy key.1 point) key ∧
        (store.tailOf key.1 point).length < 2 ^ 32) : CacheSound store key 0 where
  indexed _ _ _ hstored _ := hindexed.creates_le hstored
  covers point hpoint := (hpoints point hpoint).1
  short point hpoint := (hpoints point hpoint).2

/-- A turnover since a sound cache point that is small fits in every order. -/
theorem turnoverFits_of_small (haccounted : Accounted store) (hspends : SpendsOnce store)
    (hsound : CacheSound store (account, asset) 0) {point : BalanceProjection}
    (hpoint : point ∈ store.pointsOf (account, asset))
    (hfits : Cent.Holds (store.liveBalance (account, asset)))
    (hsmall : store.turnover account point ≤ Backing.max MoneyWidth.backing)
    (order : IterationOrder) :
    store.TurnoverFits (account, asset) point (store.listedTail order account point) := by
  have hperm : (store.listedTail order account point).Perm (store.tailOf account point) :=
    queryTransfers_tail_perm (hsound.short point hpoint) order
  have hnodup := nodup_consumes_of_perm haccounted.consistent hspends hperm List.filter_sublist
  have hconsumed : (store.consumedBy (store.listedTail order account point)).Perm
      (store.consumedBy (store.tailOf account point)) := by
    have hids := hperm.flatMap_right (·.envelope.consumes)
    rw [InMemoryStore.consumedBy, InMemoryStore.consumedBy, List.dedupFirst_of_nodup hnodup,
      List.dedupFirst_of_nodup (hids.nodup_iff.mp hnodup)]
    exact hids.filterMap _
  rw [InMemoryStore.turnover, ← Cent.magnitude_perm ((hperm.flatMap_right _).map _),
    ← Cent.magnitude_perm (hconsumed.map _)] at hsmall
  have hcredited := Cent.magnitude_nonneg
    (((store.listedTail order account point).flatMap (·.envelope.creates)).map NewPosting.value)
  have hdebited := Cent.magnitude_nonneg
    ((store.consumedBy (store.listedTail order account point)).map Posting.value)
  rw [turnoverFits_iff_of_sound haccounted hspends hsound hpoint order hfits]
  refine ⟨fun n => Cent.holds_of_abs_le ?_, fun n => Cent.holds_of_abs_le ?_⟩
  · exact (abs_keyTotal_take_le n _).trans (by omega)
  · refine (abs_sub _ _).trans ((add_le_add ?_ (abs_keyTotal_take_le n _)).trans hsmall)
    exact abs_keyTotal_le

/-- A balance read whose clock works adds the tail to the closest point, or sums the
live postings when there is no point. -/
theorem balance_cases {clock : Clock} {result : Except LedgerError Cent}
    (hconsistent : Consistent store)
    (halone : Alone (Ledger.balance account asset) ⟨store, clock⟩ result after)
    (hclock : after.clock ≠ none) :
    (∃ now point order, store.getClosestBalanceProjection account asset now = some point ∧
      result = (store.cachedBalance (account, asset) point
        (store.listedTail order account point)).mapError .ofOverflow) ∨
      ∃ later, Alone (computeBalance account asset) ⟨store, later⟩ result after := by
  obtain ⟨now, first, hnow, hrest⟩ | ⟨err, hnow, rfl⟩ := alone_bind_iff.mp halone
  swap
  · obtain ⟨_, hok⟩ | ⟨_, hnone⟩ := nowMillis_cases hnow
    · cases hok
    · exact absurd hnone hclock
  have hfirst := ReadOnly.nowMillis.store_eq hnow
  obtain ⟨closest, second, hread, hrest⟩ | ⟨_, hread, _⟩ := alone_bind_iff.mp hrest
  swap
  · obtain ⟨_, hfound, _⟩ := alone_read_iff.mp hread
    cases hfound
  -- reading leaves the store alone, so the tail is of the store that the read began in
  obtain ⟨choice, hclosest, rfl⟩ := alone_read_iff.mp hread
  cases hclosest
  rw [hfirst] at hrest
  split at hrest
  next point hclosest =>
    refine .inl ?_
    obtain ⟨tail, third, hfold, hadd⟩ | ⟨err, hfold, rfl⟩ := alone_bind_iff.mp hrest
    · obtain ⟨order, hfolded⟩ := foldTail_cases hconsistent hfold
      obtain ⟨rfl, -⟩ := alone_attempt_iff.mp hadd
      refine ⟨now, point, order, hclosest, ?_⟩
      rw [InMemoryStore.cachedBalance, Except.mapError_eq_ok_iff.mp hfolded.symm]
      rfl
    · obtain ⟨order, hfolded⟩ := foldTail_cases hconsistent hfold
      obtain ⟨cause, hcause, rfl⟩ := Except.mapError_eq_error_iff.mp hfolded.symm
      refine ⟨now, point, order, hclosest, ?_⟩
      rw [InMemoryStore.cachedBalance, hcause]
      rfl
  next => exact .inr ⟨_, hrest⟩

theorem foldTail_runs (hconsistent : Consistent store) (point : BalanceProjection)
    (order : IterationOrder) (now : Int64) :
    Alone (foldTail account asset (some (saturatingAdd point.watermark 1)) none)
      ⟨store, some now⟩ ((store.foldedDelta (account, asset)
        (store.listedTail order account point)).mapError .ofOverflow) ⟨store, some now⟩ := by
  refine alone_bind_iff.mpr (.inl ⟨store.queryTransfers order
    (tailQuery account (some (saturatingAdd point.watermark 1)) none), ⟨store, some now⟩, ?_, ?_⟩)
  · exact alone_read_iff.mpr ⟨⟨order, some now⟩, rfl, rfl⟩
  · exact foldAccountDelta_runs now (recorded_of_listedTail hconsistent)

/-- Every clock and every listing of the tail gives a balance read. -/
theorem balance_runs (hconsistent : Consistent store) {now : Int64} {point : BalanceProjection}
    (hclosest : store.getClosestBalanceProjection account asset now = some point)
    (order : IterationOrder) (clock : Clock) :
    Alone (Ledger.balance account asset) ⟨store, clock⟩
      ((store.cachedBalance (account, asset) point
        (store.listedTail order account point)).mapError .ofOverflow) ⟨store, some now⟩ := by
  refine alone_bind_iff.mpr (.inl ⟨now, ⟨store, some now⟩, alone_nowMillis now, ?_⟩)
  refine alone_bind_iff.mpr (.inl ⟨some point, ⟨store, some now⟩, ?_, ?_⟩)
  · exact alone_read_iff.mpr ⟨⟨order, some now⟩, congrArg _ hclosest.symm, rfl⟩
  have hfold : Alone (foldTail account asset (some (saturatingAdd point.watermark 1)) none)
      ⟨store, some now⟩ ((store.foldedDelta (account, asset)
        (store.listedTail order account point)).mapError .ofOverflow) ⟨store, some now⟩ :=
    foldTail_runs hconsistent point order now
  refine alone_bind_iff.mpr ?_
  rw [InMemoryStore.cachedBalance]
  cases hfolded : store.foldedDelta (account, asset) (store.listedTail order account point) with
  | error err =>
      rw [hfolded] at hfold
      exact .inr ⟨.overflow, hfold, rfl⟩
  | ok delta =>
      rw [hfolded] at hfold
      exact .inl ⟨delta, ⟨store, some now⟩, hfold, alone_attempt_iff.mpr ⟨rfl, rfl⟩⟩

/-- While the clock stands still, a read returns what the closest point and the listed
tail add up to. -/
theorem balance_runWith (hconsistent : Consistent store) {now : Int64} {point : BalanceProjection}
    (hclosest : store.getClosestBalanceProjection account asset now = some point)
    {order : IterationOrder} {value : Cent} (hvalue : store.cachedBalance (account, asset) point
      (store.listedTail order account point) = .ok value) (clock : Clock) :
    (runWith ⟨order, some now⟩ (Ledger.balance account asset).run ⟨store, clock⟩).1 =
      .ok value := by
  obtain ⟨tail, htail, hsum⟩ := Except.bind_eq_ok_iff.mp hvalue
  have hnow : runWith ⟨order, some now⟩ nowMillis.run ⟨store, clock⟩ =
      (.ok now, ⟨store, some now⟩) := rfl
  have hread : runWith ⟨order, some now⟩ (read fun _ store =>
      store.getClosestBalanceProjection account asset now).run ⟨store, some now⟩ =
        (.ok (some point), ⟨store, some now⟩) := by
    rw [← hclosest]
    rfl
  have hfold : (runWith ⟨order, some now⟩ (foldTail account asset
      (some (saturatingAdd point.watermark 1)) none).run ⟨store, some now⟩).1 = .ok tail := by
    have halone := runs_runWith ⟨order, some now⟩ (foldAccountDelta account asset
      (store.listedTail order account point)).run ⟨store, some now⟩
    have hrecorded : ∀ id ∈ (store.listedTail order account point).flatMap
        (·.envelope.consumes), id ∈ store.postings.immutable := recorded_of_listedTail hconsistent
    have hfolded := foldAccountDelta_cases hrecorded halone
    rw [htail] at hfolded
    exact hfolded
  rw [Ledger.balance, runWith_except_bind hnow, runWith_except_bind hread]
  dsimp only
  rw [runWith_except_bind (Prod.ext hfold rfl), hsum]
  rfl

end Reading

/-- In a reachable state a balance whose live postings add up is returned, exactly when
the turnover since every cache point that may be the closest fits. -/
theorem balance_ok_iff [Sha256] (ledger : Ledger) (actions : List LedgerAction) (account : AccountId)
    (asset : AssetId)
    (hfits : ∀ order, SumsUp (storeAfter ledger actions) order (account, asset)) :
    (∀ clock result after, Alone (Ledger.balance account asset)
        ⟨storeAfter ledger actions, clock⟩ result after → after.clock ≠ none →
        ∃ value, result = .ok value) ↔
      ∀ now point, (storeAfter ledger actions).getClosestBalanceProjection account asset now =
        some point → ∀ order, (storeAfter ledger actions).TurnoverFits (account, asset) point
          ((storeAfter ledger actions).listedTail order account point) := by
  have hconsistent := consistent_after ledger actions
  constructor
  · intro hreturns now point hclosest order
    have hruns := balance_runs hconsistent hclosest order none
    obtain ⟨value, hvalue⟩ := hreturns _ _ _ hruns (Option.some_ne_none now)
    exact exists_cachedBalance_iff.mp ⟨value, Except.mapError_eq_ok_iff.mp hvalue⟩
  · intro hturnover clock result after halone hclock
    obtain ⟨now, point, order, hclosest, rfl⟩ | ⟨later, hcompute⟩ :=
      balance_cases hconsistent halone hclock
    · obtain ⟨value, hvalue⟩ := exists_cachedBalance_iff.mpr (hturnover now point hclosest order)
      exact ⟨value, by rw [hvalue]; rfl⟩
    · have hcompute : Alone (computeBalance (account, asset).1 (account, asset).2)
          ⟨storeAfter ledger actions, later⟩ result after := hcompute
      obtain ⟨value, _, hresult, _⟩ | ⟨_, order, hoverflow⟩ := computeBalance_cases hcompute
      · exact ⟨value, hresult⟩
      · exact absurd (hfits order) hoverflow

end Theory

namespace Sample

/-- The money leaves the ledger again. -/
def withdrawal (amount : Int64) : Transfer where
  movements := [⟨alice, external, usd, .ofI64 amount⟩]
  book := DEFAULT_BOOK
  metadata := .empty

/-- Half of what a `Cent` holds. -/
def half : Int64 := 4611686018427387903

/-- Alice has a cache point of 0, is paid 5, pays it back and is paid 7. -/
def turned : List LedgerAction :=
  sequentially (accounts ++ [.appendCachePoint alice usd, .commit (deposit 5),
    .commit (withdrawal 5), .commit { deposit 7 with metadata := .single "again" [1] }])

/-- Alice has a cache point of 0, is paid one half, pays it back and is paid the other. -/
def turnedOver : List LedgerAction :=
  sequentially (accounts ++ [.appendCachePoint alice usd, .commit (deposit half),
    .commit (withdrawal half),
    .commit { deposit (half + 2) with metadata := .single "again" [1] }])

end Sample

open Sample in
/-- The balance since the cache point is read, whatever the clock shows and in whatever
order the transfers are listed. -/
theorem balance_ok_iff_turned :
    (storeAfter ledger turned).pointsOf (alice, usd) ≠ [] ∧
    ∀ clock result after, Alone (Ledger.balance alice usd) ⟨storeAfter ledger turned, clock⟩ result
      after → after.clock ≠ none → ∃ value, result = .ok value := by
  have hpoints : ∀ point ∈ (storeAfter ledger turned).pointsOf (alice, usd),
      (point.balance.val = changeByAll (storeAfter ledger turned)
        ((storeAfter ledger turned).coveredBy alice point) (alice, usd) ∧
      ((storeAfter ledger turned).tailOf alice point).length < 2 ^ 32) ∧
      (storeAfter ledger turned).turnover alice point = 34 := by decide +kernel
  have hindexed : Indexed (storeAfter ledger turned) := by decide +kernel
  have hsound : CacheSound (storeAfter ledger turned) (alice, usd) 0 :=
    .of_indexed hindexed fun point hpoint => (hpoints point hpoint).1
  have hbalance : (storeAfter ledger turned).liveBalance (alice, usd) = 7 := by decide +kernel
  refine ⟨by decide +kernel, (balance_ok_iff ledger turned alice usd fun order =>
    InMemoryStore.exists_sum_under order _ (by decide +kernel)).mpr fun now point hclosest order => ?_⟩
  have hpoint := (mem_pointsOf_of_closest hclosest).1
  refine turnoverFits_of_small (accounted_after ledger turned) (spendsOnce_after ledger turned)
    hsound hpoint ?_ ?_ order
  · rw [hbalance]
    exact ⟨by decide, by decide⟩
  · rw [(hpoints point hpoint).2]
    decide

open Sample in
/-- All calls have returned and alice's only posting fits, but two credits have gone by. -/
theorem balance_overflows :
    (LedgerPool.after ledger turnedOver).calls.all (·.rest.isDone) ∧
      (∀ order, SumsUp (storeAfter ledger turnedOver) order (alice, usd)) ∧
      ∃ after, Alone (Ledger.balance alice usd) (LedgerPool.after ledger turnedOver).shared
        (.error .overflow) after ∧ after.clock ≠ none := by
  have hbalance := Async.runs_runWith noon (Ledger.balance alice usd).run
    (LedgerPool.after ledger turnedOver).shared
  have hrun : (LedgerPool.after ledger turnedOver).calls.all (·.rest.isDone) ∧
      Cent.magnitude (((storeAfter ledger turnedOver).livePostings.filter
        (·.key = (alice, usd))).map Posting.value) ≤ Backing.max MoneyWidth.backing ∧
      (Async.runWith noon (Ledger.balance alice usd).run
        (LedgerPool.after ledger turnedOver).shared).1 = .error .overflow ∧
      (Async.runWith noon (Ledger.balance alice usd).run
        (LedgerPool.after ledger turnedOver).shared).2.clock ≠ none := by decide +kernel
  obtain ⟨hdone, hroom, hresult, hclock⟩ := hrun
  rw [hresult] at hbalance
  exact ⟨hdone, fun order => InMemoryStore.exists_sum_under order _ hroom, _, hbalance, hclock⟩

end Kuatia
