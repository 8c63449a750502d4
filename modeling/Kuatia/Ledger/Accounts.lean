import Kuatia.Ledger.Balances

/-! # An account is the sum of its transfers

The store files every transfer under the accounts it involves. As long as no
transfer of an account wraps the posting index, the balances of the account are
what its transfers add up to.
-/

namespace Kuatia

variable [MoneyWidth]

/-- How a stored transfer changes a balance: what it creates less what it
consumes, as recorded. -/
def changeBy (store : InMemoryStore) (record : EnvelopeRecord) (key : BalanceKey) : Int :=
  keyTotal NewPosting.key NewPosting.value record.envelope.creates key -
    keyTotal Posting.key Posting.value
      (record.envelope.consumes.filterMap store.postings.immutable.lookup) key

theorem mem_of_mem_activated {postings : List Posting} {posting : Posting}
    (hposting : posting ∈ activated postings) : posting ∈ postings := by
  obtain ⟨id, hlookup⟩ := HashMap.mem_values_iff.mp hposting
  obtain ⟨hmem, _⟩ | ⟨hold, _⟩ := HashMap.lookup_insertAll_cases hlookup
  · exact hmem
  · cases hold

namespace InMemoryStore

/-- The accounts that a stored transfer is filed under. -/
def filedUnder (store : InMemoryStore) (tid : EnvelopeId) : List AccountId :=
  (store.transferAccounts.lookup tid).getD []

/-- The stored transfers that involve an account. -/
def transfersOf (store : InMemoryStore) (account : AccountId) : List EnvelopeRecord :=
  (store.transferAccounts.entries.filter fun entry => account ∈ entry.2).filterMap
    fun entry => store.transfers.lookup entry.1

variable {store : InMemoryStore} {account : AccountId}

/-- The query for a subaccount returns the transfers that involve it. -/
theorem getTransfersForAccount_perm (order : IterationOrder) (account : AccountId) :
    (store.getTransfersForAccount order account.id (some account.sub)).Perm
      (store.transfersOf account) := by
  refine (List.perm_insertionSort _ _).trans ?_
  refine (((order.arrange_perm _).filter _).filterMap _).trans (.of_eq ?_)
  unfold transfersOf
  congr 1
  refine List.filter_congr fun entry _ => ?_
  obtain ⟨id, sub⟩ := account
  rw [Bool.eq_iff_iff]
  simp only [List.any_eq_true, Option.all_some, Bool.and_eq_true, decide_eq_true_eq]
  constructor
  · rintro ⟨⟨_, _⟩, hmem, rfl, rfl⟩
    exact hmem
  · exact fun hmem => ⟨_, hmem, rfl, rfl⟩

theorem mem_transfersOf {record : EnvelopeRecord} : record ∈ store.transfersOf account ↔
    ∃ tid, store.transfers.lookup tid = some record ∧ account ∈ store.filedUnder tid := by
  unfold transfersOf filedUnder
  simp only [List.mem_filterMap, List.mem_filter, decide_eq_true_eq, Sigma.exists]
  constructor
  · rintro ⟨tid, involved, ⟨hentry, hmem⟩, hlookup⟩
    refine ⟨tid, hlookup, ?_⟩
    rw [AList.mem_lookup_iff.mpr hentry]
    exact hmem
  · rintro ⟨tid, hlookup, hmem⟩
    cases hfiled : store.transferAccounts.lookup tid with
    | none =>
        rw [hfiled] at hmem
        cases hmem
    | some involved =>
        rw [hfiled] at hmem
        exact ⟨tid, involved, ⟨AList.mem_lookup_iff.mp hfiled, hmem⟩, hlookup⟩

/-- A sum over the transfers of an account to which only one of them contributes. -/
theorem sum_transfersOf_of_single {f : EnvelopeRecord → Int} {tid : EnvelopeId}
    {record : EnvelopeRecord} (hstored : store.transfers.lookup tid = some record)
    (hfiled : account ∈ store.filedUnder tid)
    (hother : ∀ other found, store.transfers.lookup other = some found → other ≠ tid → f found = 0) :
    ((store.transfersOf account).map f).sum = f record := by
  have hnone : ∀ entries : List (Σ _ : EnvelopeId, List AccountId),
      (∀ entry ∈ entries, entry.1 ≠ tid) →
      ((entries.filterMap fun entry => store.transfers.lookup entry.1).map f).sum = 0 := by
    intro entries hentries
    refine List.sum_eq_zero fun value hvalue => ?_
    obtain ⟨found, hfound, rfl⟩ := List.mem_map.mp hvalue
    obtain ⟨entry, hentry, hlookup⟩ := List.mem_filterMap.mp hfound
    exact hother entry.1 found hlookup (hentries entry hentry)
  obtain ⟨involved, hinvolved, hmem⟩ : ∃ involved,
      store.transferAccounts.lookup tid = some involved ∧ account ∈ involved := by
    rw [filedUnder] at hfiled
    cases hinvolved : store.transferAccounts.lookup tid with
    | none =>
        rw [hinvolved] at hfiled
        cases hfiled
    | some involved => exact ⟨involved, rfl, by rwa [hinvolved] at hfiled⟩
  have hentry : (⟨tid, involved⟩ : Σ _ : EnvelopeId, List AccountId) ∈
      store.transferAccounts.entries.filter fun entry => account ∈ entry.2 :=
    List.mem_filter.mpr ⟨AList.mem_lookup_iff.mp hinvolved, decide_eq_true hmem⟩
  have hkeys : (store.transferAccounts.entries.filter fun entry =>
      account ∈ entry.2).Pairwise fun first second => first.1 ≠ second.1 :=
    (List.nodupKeys_iff_pairwise.mp store.transferAccounts.nodupKeys).filter _
  obtain ⟨first, second, hsplit⟩ := List.append_of_mem hentry
  rw [hsplit, List.pairwise_append, List.pairwise_cons] at hkeys
  obtain ⟨_, ⟨hsecond, _⟩, hfirst⟩ := hkeys
  simp only [transfersOf, hsplit, List.filterMap_append, List.filterMap_cons, hstored,
    List.map_append, List.map_cons, List.sum_append, List.sum_cons]
  rw [hnone first, hnone second]
  · omega
  · exact fun entry hentry => (hsecond entry hentry).symm
  · exact fun entry hentry => hfirst entry hentry _ List.mem_cons_self

end InMemoryStore

/-! ## How transfers are filed -/

/-- Every stored transfer is filed, and under the owners of all its postings. -/
structure Catalogued (store : InMemoryStore) : Prop where
  keys : ∀ tid, tid ∈ store.transferAccounts ↔ tid ∈ store.transfers
  creates : ∀ tid record, store.transfers.lookup tid = some record →
    ∀ posting ∈ record.envelope.creates, posting.owner ∈ store.filedUnder tid
  consumes : ∀ tid record, store.transfers.lookup tid = some record →
    ∀ id ∈ record.envelope.consumes, ∀ posting,
      store.postings.immutable.lookup id = some posting → posting.owner ∈ store.filedUnder tid
  only : ∀ tid record, store.transfers.lookup tid = some record →
    ∀ account ∈ store.filedUnder tid, (∃ posting ∈ record.envelope.creates, posting.owner = account) ∨
      ∃ id ∈ record.envelope.consumes, ∃ posting,
        store.postings.immutable.lookup id = some posting ∧ posting.owner = account

/-- Whatever is recorded or active was created by a stored transfer. -/
structure Sourced (store : InMemoryStore) : Prop where
  immutable : ∀ id posting, store.postings.immutable.lookup id = some posting →
    ∃ record, store.transfers.lookup id.transfer = some record ∧
      posting ∈ createdPostings id.transfer record.envelope.creates
  active : ∀ id posting, store.postings.active.lookup id = some posting →
    ∃ record, store.transfers.lookup id.transfer = some record ∧
      posting ∈ createdPostings id.transfer record.envelope.creates

/-- No transfer of the account creates more postings than a `u16` can index. -/
def IndexedFor (store : InMemoryStore) (account : AccountId) : Prop :=
  ∀ tid record, store.transfers.lookup tid = some record → account ∈ store.filedUnder tid →
    record.envelope.creates.length ≤ 65536

/-- The postings of the account are active as they are recorded. -/
theorem eq_of_owner {store : InMemoryStore} {account : AccountId} (hfaithful : Faithful store)
    (hcatalogued : Catalogued store) (hsourced : Sourced store) (hindexed : IndexedFor store account)
    {id : PostingId} {live recorded : Posting}
    (hlive : store.postings.active.lookup id = some live)
    (hrecorded : store.postings.immutable.lookup id = some recorded)
    (hid : live.id = id ∧ recorded.id = id)
    (howner : live.owner = account ∨ recorded.owner = account) : live = recorded := by
  have hlength : ∀ posting : Posting, posting.owner = account → ∀ record,
      store.transfers.lookup id.transfer = some record →
      posting ∈ createdPostings id.transfer record.envelope.creates →
      record.envelope.creates.length ≤ 65536 := by
    intro posting howner record hstored hmem
    obtain ⟨source, hsource, heq, _⟩ := exists_of_mem_createdPostings hmem
    have hfiled := hcatalogued.creates _ record hstored source hsource
    rw [← heq, howner] at hfiled
    exact hindexed _ record hstored hfiled
  rcases howner with howner | howner
  · obtain ⟨record, hstored, hmem⟩ := hsourced.active id live hlive
    have hsame := hfaithful.recorded _ record hstored (hlength live howner record hstored hmem)
      live hmem
    rw [hid.1, hrecorded] at hsame
    exact (Option.some.inj hsame).symm
  · obtain ⟨record, hstored, hmem⟩ := hsourced.immutable id recorded hrecorded
    refine hfaithful.active _ record hstored (hlength recorded howner record hstored hmem)
      recorded hmem live ?_
    rw [hid.2]
    exact hlive

/-! ## The store keeps its accounts -/

theorem catalogued_new : Catalogued InMemoryStore.new where
  keys _ := .rfl
  creates _ _ hlookup := by cases hlookup
  consumes _ _ hlookup := by cases hlookup
  only _ _ hlookup := by cases hlookup

theorem sourced_new : Sourced InMemoryStore.new where
  immutable _ _ hlookup := by cases hlookup
  active _ _ hlookup := by cases hlookup

section Commit

variable [Sha256] {store : InMemoryStore} {clock : Clock} {order : IterationOrder}
  {req : CommitRequest} {consumed : List Posting}

omit [Sha256] in
theorem filedUnder_applyCommit (tid : EnvelopeId) :
    (store.applyCommit clock req).filedUnder tid =
      if tid = req.transferId then req.involved else store.filedUnder tid := by
  rw [InMemoryStore.filedUnder, InMemoryStore.applyCommit_transferAccounts,
    HashMap.lookup_insert_eq]
  split <;> rfl

omit [Sha256] in
/-- A fresh transfer joins the accounts that it involves. -/
theorem transfersOf_applyCommit (hcatalogued : Catalogued store)
    (hfresh : req.transferId ∉ store.transfers) (account : AccountId) :
    (store.applyCommit clock req).transfersOf account =
      (if account ∈ req.involved then [req.record] else []) ++ store.transfersOf account := by
  have hnew : req.transferId ∉ store.transferAccounts := mt (hcatalogued.keys _).mp hfresh
  have hold : ∀ entry ∈ store.transferAccounts.entries.filter fun entry => account ∈ entry.2,
      (store.transfers.insert req.transferId req.record).lookup entry.1 =
        store.transfers.lookup entry.1 := by
    intro entry hentry
    have hne : entry.1 ≠ req.transferId := by
      intro heq
      apply hnew
      rw [← heq]
      exact AList.mem_keys.mpr (List.mem_keys_of_mem (List.mem_filter.mp hentry).1)
    rw [HashMap.lookup_insert_eq, if_neg hne]
  have hself : (store.transfers.insert req.transferId req.record).lookup req.transferId =
      some req.record := by
    rw [HashMap.lookup_insert_eq, if_pos rfl]
  rw [InMemoryStore.transfersOf, InMemoryStore.applyCommit_transferAccounts,
    InMemoryStore.applyCommit_transfers, AList.entries_insert_of_notMem hnew, List.filter_cons]
  split
  next hmem =>
    rw [List.filterMap_cons, hself, if_pos (of_decide_eq_true hmem), List.filterMap_congr hold]
    rfl
  next hmem =>
    rw [if_neg (by simpa using hmem), List.filterMap_congr hold]
    rfl

/-- What a validated request consumes is recorded before and after it is applied. -/
theorem Validated.lookup_recorded (clock : Clock) (hvalid : Validated store req consumed)
    {id : PostingId}
    (hid : id ∈ req.record.envelope.consumes) :
    ∃ posting ∈ consumed, store.postings.immutable.lookup id = some posting ∧
      (store.applyCommit clock req).postings.immutable.lookup id = some posting := by
  obtain ⟨posting, hposting, hlookup⟩ := hvalid.found.exists_of_mem_left hid
  refine ⟨posting, hposting, hlookup, ?_⟩
  rw [InMemoryStore.applyCommit_immutable]
  exact InMemoryStore.lookup_insertMissing_of_mem hlookup

theorem Catalogued.commit (hcatalogued : Catalogued store) (hconsistent : Consistent store)
    (hvalid : Validated store req consumed) :
    Catalogued (store.applyCommit clock req) where
  keys tid := by
    rw [InMemoryStore.applyCommit_transferAccounts, InMemoryStore.applyCommit_transfers,
      AList.mem_insert, AList.mem_insert, hcatalogued.keys]
  creates tid record hlookup posting hposting := by
    rw [lookup_transfers_applyCommit] at hlookup
    rw [filedUnder_applyCommit]
    split at hlookup
    next heq =>
      cases hlookup
      rw [if_pos heq]
      exact (hvalid.involved _).mpr (.inl ⟨posting, hposting, rfl⟩)
    next hne =>
      rw [if_neg hne]
      exact hcatalogued.creates tid record hlookup posting hposting
  consumes tid record hlookup id hid posting hposting := by
    rw [lookup_transfers_applyCommit] at hlookup
    rw [filedUnder_applyCommit]
    split at hlookup
    next heq =>
      cases hlookup
      obtain ⟨recorded, hrecorded, _, hafter⟩ := hvalid.lookup_recorded clock hid
      rw [hafter] at hposting
      cases hposting
      rw [if_pos heq]
      exact (hvalid.involved _).mpr (.inr ⟨posting, hrecorded, rfl⟩)
    next hne =>
      rw [if_neg hne]
      -- a stored transfer consumes only what was recorded before it
      have hcreated := hconsistent.consumed_created id ⟨tid, record, hlookup, hid⟩
      obtain ⟨recorded, hrecorded⟩ := HashMap.mem_iff_exists_lookup.mp
        ((hconsistent.mem_immutable id).mpr hcreated)
      rw [InMemoryStore.applyCommit_immutable,
        InMemoryStore.lookup_insertMissing_of_mem hrecorded] at hposting
      cases hposting
      exact hcatalogued.consumes tid record hlookup id hid _ hrecorded
  only tid record hlookup account haccount := by
    rw [lookup_transfers_applyCommit] at hlookup
    rw [filedUnder_applyCommit] at haccount
    split at hlookup
    next heq =>
      cases hlookup
      rw [if_pos heq] at haccount
      refine ((hvalid.involved account).mp haccount).imp id fun ⟨posting, hposting, howner⟩ => ?_
      obtain ⟨id, hid, hrecorded⟩ := hvalid.found.exists_of_mem_right hposting
      obtain ⟨same, _, hsame, hafter⟩ := hvalid.lookup_recorded clock hid
      rw [hrecorded] at hsame
      cases hsame
      exact ⟨id, hid, posting, hafter, howner⟩
    next hne =>
      rw [if_neg hne] at haccount
      refine (hcatalogued.only tid record hlookup account haccount).imp id ?_
      rintro ⟨id, hid, posting, hrecorded, howner⟩
      refine ⟨id, hid, posting, ?_, howner⟩
      rw [InMemoryStore.applyCommit_immutable]
      exact InMemoryStore.lookup_insertMissing_of_mem hrecorded

theorem Sourced.commit (hsourced : Sourced store) (hvalid : Validated store req consumed)
    (hfresh : req.transferId ∉ store.transfers) : Sourced (store.applyCommit clock req) := by
  have hold : ∀ tid record, store.transfers.lookup tid = some record →
      (store.applyCommit clock req).transfers.lookup tid = some record := by
    intro tid record hlookup
    rw [lookup_transfers_applyCommit, if_neg, hlookup]
    rintro rfl
    exact hfresh (HashMap.mem_iff_exists_lookup.mpr ⟨record, hlookup⟩)
  have hnew : ∀ posting ∈ req.create, ∃ record,
      (store.applyCommit clock req).transfers.lookup posting.id.transfer = some record ∧
        posting ∈ createdPostings posting.id.transfer record.envelope.creates := by
    intro posting hposting
    rw [hvalid.create] at hposting
    rw [transfer_of_mem_createdPostings hposting]
    exact ⟨req.record, by rw [lookup_transfers_applyCommit, if_pos rfl], hposting⟩
  constructor
  · intro id posting hlookup
    rw [InMemoryStore.applyCommit_immutable] at hlookup
    obtain hbefore | ⟨hmade, rfl⟩ := InMemoryStore.lookup_insertMissing_cases hlookup
    · obtain ⟨record, hstored, hmem⟩ := hsourced.immutable id posting hbefore
      exact ⟨record, hold _ _ hstored, hmem⟩
    · exact hnew posting hmade
  · intro id posting hlookup
    rw [InMemoryStore.applyCommit_active] at hlookup
    obtain ⟨hmade, rfl⟩ | ⟨hbefore, _⟩ := HashMap.lookup_insertAll_cases hlookup
    · exact hnew posting hmade
    · rw [HashMap.lookup_eraseAll] at hbefore
      split at hbefore
      next => cases hbefore
      next =>
        obtain ⟨record, hstored, hmem⟩ := hsourced.active id posting hbefore
        exact ⟨record, hold _ _ hstored, hmem⟩

end Commit

/-- The store files its transfers, and the accounts that have no wrapped transfer
add up. -/
structure Accounted (store : InMemoryStore) : Prop where
  wellFormed : WellFormed store
  consistent : Consistent store
  faithful : Faithful store
  catalogued : Catalogued store
  sourced : Sourced store
  balanced : ∀ tid record, store.transfers.lookup tid = some record → ∀ asset,
    keyTotal Posting.asset Posting.value
        (record.envelope.consumes.filterMap store.postings.immutable.lookup) asset =
      keyTotal NewPosting.asset NewPosting.value record.envelope.creates asset
  adds : ∀ account, IndexedFor store account → ∀ asset, store.liveBalance (account, asset) =
    ((store.transfersOf account).map fun record => changeBy store record (account, asset)).sum

theorem accounted_new : Accounted InMemoryStore.new where
  wellFormed := wellFormed_new
  consistent := consistent_new
  faithful := faithful_new
  catalogued := catalogued_new
  sourced := sourced_new
  balanced _ _ hlookup := by cases hlookup
  adds _ _ _ := rfl

section Adding

variable {store : InMemoryStore} {account : AccountId}

theorem Accounted.lookup_recorded (haccounted : Accounted store) {id : PostingId}
    (hactive : id ∈ store.postings.active) :
    ∃ recorded, store.postings.immutable.lookup id = some recorded := by
  have hcreated := ((haccounted.consistent.mem_active id).mp hactive).1
  exact HashMap.mem_iff_exists_lookup.mp ((haccounted.consistent.mem_immutable id).mpr hcreated)

theorem Accounted.eq_recorded (haccounted : Accounted store) (hindexed : IndexedFor store account)
    {id : PostingId} {live recorded : Posting}
    (hlive : store.postings.active.lookup id = some live)
    (hrecorded : store.postings.immutable.lookup id = some recorded)
    (howner : live.owner = account ∨ recorded.owner = account) : live = recorded :=
  eq_of_owner haccounted.faithful haccounted.catalogued haccounted.sourced hindexed hlive hrecorded
    ⟨haccounted.consistent.active_keyed id live hlive,
      haccounted.wellFormed.immutable id recorded hrecorded⟩ howner

/-- What is taken from an account is taken as it is recorded. -/
theorem Accounted.keyTotal_activeOf (haccounted : Accounted store)
    (hindexed : IndexedFor store account) {ids : List PostingId}
    (hactive : ∀ id ∈ ids, id ∈ store.postings.active) (asset : AssetId) :
    keyTotal Posting.key Posting.value (store.activeOf ids) (account, asset) =
      keyTotal Posting.key Posting.value (ids.filterMap store.postings.immutable.lookup)
        (account, asset) := by
  induction ids with
  | nil => rfl
  | cons id ids ih =>
      have ih := ih fun other hother => hactive other (List.mem_cons_of_mem _ hother)
      have hmem := hactive id List.mem_cons_self
      obtain ⟨live, hlive⟩ := HashMap.mem_iff_exists_lookup.mp hmem
      obtain ⟨recorded, hrecorded⟩ := haccounted.lookup_recorded hmem
      rw [InMemoryStore.activeOf] at ih ⊢
      rw [List.filterMap_cons, List.filterMap_cons, hlive, hrecorded]
      dsimp only
      rw [keyTotal_cons, keyTotal_cons, ih]
      by_cases howner : live.owner = account ∨ recorded.owner = account
      · rw [haccounted.eq_recorded hindexed hlive hrecorded howner]
      · obtain ⟨hlive, hrecorded⟩ := not_or.mp howner
        rw [if_neg fun hkey => hlive (congrArg Prod.fst hkey),
          if_neg fun hkey => hrecorded (congrArg Prod.fst hkey)]

end Adding

section Steps

variable [Sha256] {store : InMemoryStore} {clock : Clock} {order : IterationOrder}
  {req : CommitRequest} {consumed : List Posting} {account : AccountId}

omit [Sha256] in
/-- What a stored transfer consumes is recorded after a commit as before. -/
theorem recorded_applyCommit (hconsistent : Consistent store) {tid : EnvelopeId}
    {record : EnvelopeRecord} (hstored : store.transfers.lookup tid = some record) :
    record.envelope.consumes.filterMap (store.applyCommit clock req).postings.immutable.lookup =
      record.envelope.consumes.filterMap store.postings.immutable.lookup := by
  refine List.filterMap_congr fun id hid => ?_
  have hcreated := hconsistent.consumed_created id ⟨tid, record, hstored, hid⟩
  obtain ⟨recorded, hrecorded⟩ := HashMap.mem_iff_exists_lookup.mp
    ((hconsistent.mem_immutable id).mpr hcreated)
  rw [InMemoryStore.applyCommit_immutable, hrecorded]
  exact InMemoryStore.lookup_insertMissing_of_mem hrecorded

/-- What a validated request consumes is recorded once it is applied. -/
theorem Validated.recorded (clock : Clock) (hvalid : Validated store req consumed) :
    req.record.envelope.consumes.filterMap
      (store.applyCommit clock req).postings.immutable.lookup = consumed := by
  refine HashMap.filterMap_lookup_eq (hvalid.found.imp fun id posting hlookup => ?_)
  rw [InMemoryStore.applyCommit_immutable]
  exact InMemoryStore.lookup_insertMissing_of_mem hlookup

omit [Sha256] in
theorem IndexedFor.of_applyCommit (hfresh : req.transferId ∉ store.transfers)
    (hindexed : IndexedFor (store.applyCommit clock req) account) : IndexedFor store account := by
  intro tid record hlookup hfiled
  have hne : tid ≠ req.transferId := by
    rintro rfl
    exact hfresh (HashMap.mem_iff_exists_lookup.mpr ⟨record, hlookup⟩)
  apply hindexed tid record
  · rw [lookup_transfers_applyCommit, if_neg hne, hlookup]
  · rwa [filedUnder_applyCommit, if_neg hne]

/-- A commit adds its transfer to the accounts it involves. -/
theorem Accounted.adds_commit (haccounted : Accounted store)
    (hvalid : Validated store req consumed) (hfresh : req.transferId ∉ store.transfers)
    (hguards : store.commitGuards order req = .ok ())
    (hindexed : IndexedFor (store.applyCommit clock req) account) (asset : AssetId) :
    (store.applyCommit clock req).liveBalance (account, asset) =
      (((store.applyCommit clock req).transfersOf account).map fun record =>
        changeBy (store.applyCommit clock req) record (account, asset)).sum := by
  have hbefore := hindexed.of_applyCommit hfresh
  obtain ⟨_, hactive, _⟩ := InMemoryStore.commitGuards_eq_ok_iff.mp hguards
  rw [InMemoryStore.doubleSpendGuard_eq_ok_iff, hvalid.consume] at hactive
  have hearlier : ((store.transfersOf account).map fun record =>
      changeBy (store.applyCommit clock req) record (account, asset)).sum =
        store.liveBalance (account, asset) := by
    rw [haccounted.adds account hbefore asset]
    congr 1
    refine List.map_congr_left fun record hrecord => ?_
    obtain ⟨tid, hstored, _⟩ := InMemoryStore.mem_transfersOf.mp hrecord
    rw [changeBy, changeBy, recorded_applyCommit haccounted.consistent hstored]
  rw [transfersOf_applyCommit haccounted.catalogued hfresh, List.map_append, List.sum_append,
    hearlier, liveBalance_applyCommit clock haccounted.consistent hvalid hfresh hguards,
    hvalid.consume, haccounted.keyTotal_activeOf hbefore hactive,
    HashMap.filterMap_lookup_eq hvalid.found]
  by_cases hinvolved : account ∈ req.involved
  · have hlength : req.record.envelope.creates.length ≤ 65536 := by
      apply hindexed req.transferId
      · rw [lookup_transfers_applyCommit, if_pos rfl]
      · rwa [filedUnder_applyCommit, if_pos rfl]
    rw [if_pos hinvolved, hvalid.create,
      keyTotal_perm (activated_perm (nodup_map_id_createdPostings hlength)),
      keyTotal_createdPostings, List.map_singleton, List.sum_singleton, changeBy,
      hvalid.recorded clock]
    omega
  · -- the account has no part in the transfer, which changes nothing of its own
    have hnone := mt (hvalid.involved account).mpr hinvolved
    obtain ⟨hcreates, hconsumes⟩ := not_or.mp hnone
    have hspent : keyTotal Posting.key Posting.value consumed (account, asset) = 0 :=
      keyTotal_eq_zero fun posting hposting hkey =>
        hconsumes ⟨posting, hposting, congrArg Prod.fst hkey⟩
    have hmade : keyTotal Posting.key Posting.value (activated req.create) (account, asset) = 0 := by
      refine keyTotal_eq_zero fun posting hposting hkey => hcreates ?_
      have hmem := mem_of_mem_activated hposting
      rw [hvalid.create] at hmem
      obtain ⟨source, hsource, howner, _⟩ := exists_of_mem_createdPostings hmem
      exact ⟨source, hsource, howner.symm.trans (congrArg Prod.fst hkey)⟩
    rw [if_neg hinvolved, hspent, hmade, List.map_nil, List.sum_nil]
    omega

theorem Accounted.balanced_commit (haccounted : Accounted store)
    (hvalid : Validated store req consumed) {tid : EnvelopeId} {record : EnvelopeRecord}
    (hlookup : (store.applyCommit clock req).transfers.lookup tid = some record) (asset : AssetId) :
    keyTotal Posting.asset Posting.value (record.envelope.consumes.filterMap
        (store.applyCommit clock req).postings.immutable.lookup) asset =
      keyTotal NewPosting.asset NewPosting.value record.envelope.creates asset := by
  rw [lookup_transfers_applyCommit] at hlookup
  split at hlookup
  next =>
    cases hlookup
    rw [hvalid.recorded clock]
    exact hvalid.balanced asset
  next =>
    rw [recorded_applyCommit haccounted.consistent hlookup]
    exact haccounted.balanced tid record hlookup asset

theorem StoreStep.accounted {submits : Envelope → Prop} {before after : InMemoryStore}
    (hstep : StoreStep submits before after) (haccounted : Accounted before) : Accounted after := by
  have hwell := hstep.wellFormed haccounted.wellFormed
  have hconsistent := hstep.consistent haccounted.consistent
  have hfaithful := hstep.faithful haccounted.consistent haccounted.faithful
  obtain ⟨hpostings, htransfers, hfiled⟩ | ⟨order, clock, req, consumed, hvalid, _, hfresh, hguards,
    rfl⟩ := hstep.postings_cases
  · have hunder : after.filedUnder = before.filedUnder := by
      funext tid
      rw [InMemoryStore.filedUnder, InMemoryStore.filedUnder, hfiled]
    refine ⟨hwell, hconsistent, hfaithful, ⟨?_, ?_, ?_, ?_⟩, ⟨?_, ?_⟩, ?_,
      fun account hindexed asset => ?_⟩
    · rw [hfiled, htransfers]
      exact haccounted.catalogued.keys
    · rw [htransfers, hunder]
      exact haccounted.catalogued.creates
    · rw [htransfers, hunder, hpostings]
      exact haccounted.catalogued.consumes
    · rw [htransfers, hunder, hpostings]
      exact haccounted.catalogued.only
    · rw [htransfers, hpostings]
      exact haccounted.sourced.immutable
    · rw [htransfers, hpostings]
      exact haccounted.sourced.active
    · rw [htransfers, hpostings]
      exact haccounted.balanced
    · rw [IndexedFor, htransfers, hunder] at hindexed
      have hadds := haccounted.adds account hindexed asset
      simp only [InMemoryStore.liveBalance, InMemoryStore.livePostings, InMemoryStore.transfersOf,
        changeBy] at hadds ⊢
      rw [hpostings, hfiled, htransfers]
      exact hadds
  · exact ⟨hwell, hconsistent, hfaithful, haccounted.catalogued.commit haccounted.consistent hvalid,
      haccounted.sourced.commit hvalid hfresh,
      fun _ _ hlookup => haccounted.balanced_commit hvalid hlookup,
      fun account hindexed asset => haccounted.adds_commit hvalid hfresh hguards hindexed asset⟩

/-- What a stored transfer consumes stays recorded as it is. -/
theorem Evolves.recorded {before after : InMemoryStore} (hevolves : Evolves before after)
    (hconsistent : Consistent before) {tid : EnvelopeId} {record : EnvelopeRecord}
    (hstored : before.transfers.lookup tid = some record) :
    record.envelope.consumes.filterMap after.postings.immutable.lookup =
      record.envelope.consumes.filterMap before.postings.immutable.lookup := by
  refine List.filterMap_congr fun id hid => ?_
  have hcreated := hconsistent.consumed_created id ⟨tid, record, hstored, hid⟩
  obtain ⟨recorded, hrecorded⟩ := HashMap.mem_iff_exists_lookup.mp
    ((hconsistent.mem_immutable id).mpr hcreated)
  rw [hrecorded, hevolves.lookup_immutable hrecorded]

/-- A stored transfer stays filed as it is. -/
theorem Evolves.filedUnder {before after : InMemoryStore} (hevolves : Evolves before after)
    {tid : EnvelopeId} {record : EnvelopeRecord}
    (hstored : before.transfers.lookup tid = some record) :
    after.filedUnder tid = before.filedUnder tid := by
  refine (hevolves.keep (fun store => store.transfers.lookup tid = some record ∧
    store.filedUnder tid = before.filedUnder tid) ?_ ⟨hstored, rfl⟩).2
  rintro first second hstep ⟨hfirst, hsame⟩
  refine ⟨hstep.lookup_transfers hfirst, ?_⟩
  obtain ⟨_, _, hfiled⟩ | ⟨_, _, req, _, _, _, hfresh, _, rfl⟩ := hstep.postings_cases
  · rw [InMemoryStore.filedUnder, hfiled]
    exact hsame
  · rw [filedUnder_applyCommit, if_neg, hsame]
    rintro rfl
    exact hfresh (HashMap.mem_iff_exists_lookup.mpr ⟨record, hfirst⟩)

theorem IndexedFor.of_evolves {before after : InMemoryStore} (hevolves : Evolves before after)
    (hindexed : IndexedFor after account) : IndexedFor before account := by
  intro tid record hlookup hfiled
  rw [← hevolves.filedUnder hlookup] at hfiled
  exact hindexed tid record (hevolves.lookup_transfers hlookup) hfiled

end Steps

end Kuatia
