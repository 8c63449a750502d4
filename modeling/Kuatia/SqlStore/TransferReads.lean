import Kuatia.Sql.Joining
import Kuatia.Sql.Paging
import Kuatia.SqlStore.Simulation
import Kuatia.SqlStore.Transfer
import Kuatia.Storage.TransferIndex

/-! # Where the transfer queries of the two stores agree

In SQL a transfer is joined with each of its index rows, so an account that
takes part through two subaccounts is listed twice when the query spans them.
-/

namespace Kuatia

open Sql

section Theory

variable [MoneyWidth] [Json]

/-! ## Stores built by the same commits -/

/-- Both stores start without transfers and take the same commits, each applied
by both or by neither. -/
inductive BuiltTogether : SqlStore → InMemoryStore → Prop
  | start {store : SqlStore} {memory : InMemoryStore} (htransfers : store.transfers = .empty)
      (hindex : store.transferAccounts = .empty) (hmemory : memory.transfers = ∅)
      (hmemoryIndex : memory.transferAccounts = ∅) : BuiltTogether store memory
  | commit {store : SqlStore} {memory : InMemoryStore} (order sqlOrder : IterationOrder)
      (clock sqlClock : Clock) (req : CommitRequest) (hbuilt : BuiltTogether store memory)
      (hboth : IsCommitted (store.commitEnvelope sqlOrder sqlClock req).1 ↔
        IsCommitted (memory.commitEnvelope order clock req).1) :
      BuiltTogether (store.commitEnvelope sqlOrder sqlClock req).2
        (memory.commitEnvelope order clock req).2

theorem BuiltTogether.sameTransfers {store : SqlStore} {memory : InMemoryStore}
    (hbuilt : BuiltTogether store memory) : SameTransfers store memory := by
  induction hbuilt with
  | start htransfers hindex hmemory hmemoryIndex =>
      exact SameStores.empty.transfers.congr htransfers hindex hmemory hmemoryIndex
  | @commit store memory order sqlOrder clock sqlClock req _ hboth ih =>
      obtain ⟨hnot, htransfers, hindex, _⟩ | ⟨hcommitted, htransfers, hindex, _⟩ :=
        store.commitEnvelope_cases sqlOrder sqlClock req
      · obtain ⟨hsame, _⟩ | ⟨_, _, heq⟩ := memory.commitEnvelope_cases order clock req
        · rw [hsame]
          exact ih.congr htransfers hindex rfl rfl
        · exact absurd (hboth.mpr ⟨_, congrArg Prod.fst heq⟩) hnot
      · obtain ⟨_, hnever⟩ | ⟨hfresh, _, heq⟩ := memory.commitEnvelope_cases order clock req
        · obtain ⟨receipt, hreceipt⟩ := hboth.mp hcommitted
          exact absurd hreceipt (hnever receipt)
        · rw [heq]
          exact (ih.applyCommit (AList.lookup_eq_none.mpr hfresh) clock).congr htransfers hindex
            rfl rfl

/-! ## What a query lists -/

/-- Some transfer is filed under two subaccounts that the query asks for. -/
def FiledTwice (memory : InMemoryStore) (account : Int64) (sub : Option Int64) : Prop :=
  ∃ id accounts, memory.transferAccounts.lookup id = some accounts ∧
    ∃ first ∈ accounts, ∃ second ∈ accounts, first ≠ second ∧
      AskedFor account sub first ∧ AskedFor account sub second

/-- Each stored transfer is listed once at most. -/
def OnceEach (memory : InMemoryStore) (records : List EnvelopeRecord) : Prop :=
  records.Subperm memory.transfers.values

/-- The listing of the account and the total of the query are the same, and
without a page limit so are the transfers. -/
structure ReadsAgree (order sqlOrder : IterationOrder) (store : SqlStore) (memory : InMemoryStore)
    (query : TransferQuery) : Prop where
  listing : ∀ account ∈ query.account, ∃ records,
    store.getTransfersForAccount sqlOrder account query.sub = .ok records ∧
      records.Perm (memory.getTransfersForAccount order account query.sub) ∧
      OnceEach memory records
  page : ∃ page, store.queryTransfers sqlOrder query = .ok page ∧
    page.total = (memory.queryTransfers order query).total ∧
    (query.limit = none → page.items.Perm (memory.queryTransfers order query).items ∧
      OnceEach memory page.items)

/-- No transfer is filed twice for the account, and without a page limit neither
the offset nor the end of an `u32` falls among different transfers of one
millisecond. -/
structure ReadsSafe (store : SqlStore) (memory : InMemoryStore) (query : TransferQuery) : Prop where
  filedOnce : ∀ account ∈ query.account, ¬FiledTwice memory account query.sub
  unsplit : query.limit = none →
    ¬SplitsTie TransferRow.createdAt rowToRecord (store.matchingTransfers query)
      (query.offset.getD 0).toNat ∧
    ¬SplitsTie TransferRow.createdAt rowToRecord (store.matchingTransfers query)
      ((query.offset.getD 0).toNat + (2 ^ 32 - 1))

variable {store : SqlStore} {memory : InMemoryStore}

/-- The index rows of a transfer that the query asks for. -/
def indexRows (store : SqlStore) (account : Int64) (sub : Option Int64) (id : EnvelopeId) :
    List TransferAccountRow :=
  store.transferAccounts.rows.filter fun index =>
    envelopeIdToHex id = index.transferId && index.accountId = account &&
      sub.all (fun s => index.subaccount = s)

namespace SameTransfers

theorem rows_perm (hsame : SameTransfers store memory) : store.transfers.rows.Perm
    (memory.transfers.entries.map fun entry => entry.2.toRow entry.1) := by
  have hkeys : ((memory.transfers.entries.map fun entry => entry.2.toRow entry.1).map
      TransferRow.id).Nodup := by
    have hhex := memory.transfers.nodupKeys.map (f := envelopeIdToHex) fun _ _ =>
      envelopeIdToHex_inj.mp
    rw [List.keys, List.map_map] at hhex
    rw [List.map_map]
    exact hhex
  apply (List.perm_ext_iff_of_nodup (.of_map _ store.transfers.nodup) (.of_map _ hkeys)).mpr
  intro row
  rw [hsame.stored, List.mem_map]
  constructor
  · rintro ⟨id, record, hlookup, rfl⟩
    exact ⟨⟨id, record⟩, HashMap.lookup_eq_some_iff.mp hlookup, rfl⟩
  · rintro ⟨entry, hentry, rfl⟩
    exact ⟨entry.1, entry.2, HashMap.lookup_eq_some_iff.mpr hentry, rfl⟩

theorem mem_indexRows_iff (hsame : SameTransfers store memory) {account : Int64}
    {sub : Option Int64} {id : EnvelopeId} {index : TransferAccountRow} :
    index ∈ indexRows store account sub id ↔
      ∃ owner ∈ (memory.transferAccounts.lookup id).getD [], AskedFor account sub owner ∧
        index = ⟨envelopeIdToHex id, owner.id, owner.sub⟩ := by
  simp only [indexRows, List.mem_filter, hsame.involved, Bool.and_eq_true, decide_eq_true_eq,
    Option.all_eq_true]
  constructor
  · rintro ⟨⟨other, accounts, hlookup, owner, howner, rfl⟩, ⟨hid, haccount⟩, hsub⟩
    cases envelopeIdToHex_inj.mp hid
    exact ⟨owner, by simpa [hlookup] using howner, ⟨haccount, hsub⟩, rfl⟩
  · rintro ⟨owner, howner, ⟨haccount, hsub⟩, rfl⟩
    cases hlookup : memory.transferAccounts.lookup id with
    | none => simp [hlookup] at howner
    | some accounts =>
        rw [hlookup] at howner
        exact ⟨⟨id, accounts, hlookup, owner, howner, rfl⟩, ⟨rfl, haccount⟩, hsub⟩

theorem indexRows_nonempty_iff (hsame : SameTransfers store memory) {account : Int64}
    {sub : Option Int64} {id : EnvelopeId} : 0 < (indexRows store account sub id).length ↔
      isAskedFor memory account sub id = true := by
  rw [List.length_pos_iff_exists_mem, isAskedFor_iff]
  constructor
  · rintro ⟨index, hindex⟩
    obtain ⟨owner, howner, hasked, _⟩ := hsame.mem_indexRows_iff.mp hindex
    exact ⟨owner, howner, hasked⟩
  · rintro ⟨owner, howner, hasked⟩
    exact ⟨_, hsame.mem_indexRows_iff.mpr ⟨owner, howner, hasked, rfl⟩⟩

/-- A transfer has two index rows when it is filed twice. -/
theorem filedTwice_iff (hsame : SameTransfers store memory) {account : Int64} {sub : Option Int64} :
    FiledTwice memory account sub ↔
      ∃ entry ∈ memory.transfers.entries, 1 < (indexRows store account sub entry.1).length := by
  have hnodup : ∀ id, (indexRows store account sub id).Nodup := by
    intro id
    have hrows := store.transferAccounts.nodup
    rw [List.map_id] at hrows
    exact hrows.filter _
  simp only [List.one_lt_length_iff_of_nodup (hnodup _), hsame.mem_indexRows_iff]
  constructor
  · rintro ⟨id, accounts, hlookup, first, hfirst, second, hsecond, hne, hfirstAsked, hsecondAsked⟩
    have hstored : id ∈ memory.transfers :=
      (hsame.indexed id).mp (HashMap.mem_iff_exists_lookup.mpr ⟨accounts, hlookup⟩)
    obtain ⟨record, hrecord⟩ := HashMap.mem_iff_exists_lookup.mp hstored
    refine ⟨⟨id, record⟩, HashMap.lookup_eq_some_iff.mp hrecord,
      _, ⟨first, by simpa [hlookup], hfirstAsked, rfl⟩,
      _, ⟨second, by simpa [hlookup], hsecondAsked, rfl⟩, fun heq => hne ?_⟩
    simp only [TransferAccountRow.mk.injEq, true_and] at heq
    exact AccountId.key_inj.mp (Prod.ext heq.1 heq.2)
  · rintro ⟨entry, hentry, _, ⟨first, hfirst, hfirstAsked, rfl⟩, _,
      ⟨second, hsecond, hsecondAsked, rfl⟩, hne⟩
    cases hlookup : memory.transferAccounts.lookup entry.1 with
    | none => simp [hlookup] at hfirst
    | some accounts =>
        rw [hlookup] at hfirst hsecond
        exact ⟨entry.1, accounts, hlookup, first, hfirst, second, hsecond,
          fun heq => hne (heq ▸ rfl), hfirstAsked, hsecondAsked⟩

/-- The joined rows: each stored transfer for each of its index rows. -/
theorem joined_perm (hsame : SameTransfers store memory) (account : Int64) (sub : Option Int64) :
    (store.joinedTransfers account sub).Perm (memory.transfers.entries.flatMap fun entry =>
      .replicate (indexRows store account sub entry.1).length (entry.2.toRow entry.1)) := by
  have hrows := hsame.rows_perm.flatMap_right fun row =>
    (store.transferAccounts.rows.filter fun index =>
      row.id = index.transferId && index.accountId = account &&
        sub.all (fun s => index.subaccount = s)).map fun _ => row
  have hjoined : store.joinedTransfers account sub = store.transfers.rows.flatMap fun row =>
      (store.transferAccounts.rows.filter fun index =>
        row.id = index.transferId && index.accountId = account &&
          sub.all (fun s => index.subaccount = s)).map fun _ => row := rfl
  rw [← hjoined, List.flatMap_map] at hrows
  simp only [List.map_const'] at hrows
  exact hrows

theorem filter_indexRows (hsame : SameTransfers store memory) (account : Int64)
    (sub : Option Int64) : memory.transfers.entries.filter (fun entry =>
      0 < (indexRows store account sub entry.1).length) =
      memory.transfers.entries.filter fun entry => isAskedFor memory account sub entry.1 := by
  apply List.filter_congr
  intro entry _
  rw [Bool.eq_iff_iff, decide_eq_true_eq]
  exact hsame.indexRows_nonempty_iff

theorem joined_of_filedOnce (hsame : SameTransfers store memory) {account : Int64}
    {sub : Option Int64} (honce : ¬FiledTwice memory account sub) :
    (store.joinedTransfers account sub).Perm ((memory.transfers.entries.filter fun entry =>
      isAskedFor memory account sub entry.1).map fun entry => entry.2.toRow entry.1) := by
  have hcount : ∀ entry ∈ memory.transfers.entries,
      (indexRows store account sub entry.1).length ≤ 1 := by
    intro entry hentry
    by_contra htwice
    exact honce (hsame.filedTwice_iff.mpr ⟨entry, hentry, not_le.mp htwice⟩)
  have hjoined := hsame.joined_perm account sub
  rw [List.flatMap_replicate_of_le_one _ hcount, hsame.filter_indexRows] at hjoined
  exact hjoined

theorem listing_lt_joined (hsame : SameTransfers store memory) {account : Int64}
    {sub : Option Int64} (htwice : FiledTwice memory account sub) (order : IterationOrder) :
    (memory.getTransfersForAccount order account sub).length <
      (store.joinedTransfers account sub).length := by
  rw [(listing_asked_perm hsame.indexed order account sub).length_eq,
    (hsame.joined_perm account sub).length_eq, List.length_map, ← hsame.filter_indexRows]
  exact List.length_flatMap_replicate_gt _ (hsame.filedTwice_iff.mp htwice)

end SameTransfers

/-! ## What a query matches -/

/-- The stored transfers of the accounts that a query asks for. -/
def candidates (memory : InMemoryStore) (query : TransferQuery) :
    List (Σ _ : EnvelopeId, EnvelopeRecord) :=
  match query.account with
  | some account => memory.transfers.entries.filter fun entry =>
      isAskedFor memory account query.sub entry.1
  | none => memory.transfers.entries

/-- The record is within the bounds on the time and the book. -/
def inQuery (query : TransferQuery) (record : EnvelopeRecord) : Bool :=
  query.fromTs.all (fun start => start ≤ record.createdAt) &&
    query.toTs.all (fun stop => record.createdAt < stop) &&
    query.book.all (fun book => record.envelope.book = book)

theorem inWindow_toRow (query : TransferQuery) (id : EnvelopeId) (record : EnvelopeRecord) :
    SqlStore.inWindow query (record.toRow id) = inQuery query record := by
  have hbook : ∀ book : BookId, (record.envelope.book.id = book.id) ↔ record.envelope.book = book := by
    rintro ⟨book⟩
    cases record.envelope.book
    simp
  unfold SqlStore.inWindow inQuery
  congr 1
  cases query.book with
  | none => rfl
  | some book => exact decide_eq_decide.mpr (hbook book)

/-- The stored transfers that a query matches. -/
def matched (memory : InMemoryStore) (query : TransferQuery) :
    List (Σ _ : EnvelopeId, EnvelopeRecord) :=
  (candidates memory query).filter fun entry => inQuery query entry.2

variable {query : TransferQuery}

theorem matching_perm (hsame : SameTransfers store memory)
    (honce : ∀ account ∈ query.account, ¬FiledTwice memory account query.sub) :
    (store.matchingTransfers query).Perm
      ((matched memory query).map fun entry => entry.2.toRow entry.1) := by
  have hcandidates : (match query.account with
      | some account => store.joinedTransfers account query.sub
      | none => store.transfers.rows).Perm
      ((candidates memory query).map fun entry : Σ _ : EnvelopeId, EnvelopeRecord =>
        entry.2.toRow entry.1) := by
    unfold candidates
    cases haccount : query.account with
    | none => exact hsame.rows_perm
    | some account => exact hsame.joined_of_filedOnce (honce account haccount)
  have hfilter := hcandidates.filter (SqlStore.inWindow query)
  rw [List.filter_map] at hfilter
  simp only [Function.comp_def, inWindow_toRow] at hfilter
  exact hfilter

omit [Json] in
theorem matched_subperm (memory : InMemoryStore) (query : TransferQuery) :
    OnceEach memory ((matched memory query).map fun entry => entry.2) := by
  have hcandidates : (candidates memory query).Sublist memory.transfers.entries := by
    unfold candidates
    split
    next => exact List.filter_sublist
    next => exact List.Sublist.refl _
  exact ((List.filter_sublist.trans hcandidates).map _).subperm

/-- The in-memory query cuts its page from the matched transfers, sorted by time. -/
theorem memory_query_eq (hsame : SameTransfers store memory) (order : IterationOrder)
    (query : TransferQuery) : ∃ sorted, memory.queryTransfers order query =
      paginate sorted query.offset query.limit ∧
        IsOrder EnvelopeRecord.createdAt ((matched memory query).map fun entry => entry.2) sorted := by
  have hmatched : ((matched memory query).map fun entry => entry.2) =
      ((candidates memory query).map fun entry => entry.2).filter (inQuery query) := by
    rw [List.filter_map]
    rfl
  have hsorted : ∀ listed : List EnvelopeRecord,
      (orderBy EnvelopeRecord.createdAt listed).Perm
        ((candidates memory query).map fun entry => entry.2) →
      IsOrder EnvelopeRecord.createdAt ((matched memory query).map fun entry => entry.2)
        (filterTransfers (orderBy EnvelopeRecord.createdAt listed) query) := by
    intro listed hperm
    rw [hmatched]
    exact ⟨hperm.filter _, (orderBy_pairwise _ _).filter _⟩
  unfold InMemoryStore.queryTransfers
  cases haccount : query.account with
  | none =>
      refine ⟨_, rfl, hsorted (order.arrange memory.transfers.values) ?_⟩
      rw [candidates, haccount]
      exact (orderBy_perm _ _).trans (order.arrange_perm _)
  | some account =>
      refine ⟨_, rfl, hsorted _ ?_⟩
      rw [candidates, haccount]
      exact listing_asked_perm hsame.indexed order account query.sub

theorem SameTransfers.readable (hsame : SameTransfers store memory) {row : TransferRow}
    (hrow : row ∈ store.transfers.rows) : ∃ record, rowToRecord row = .ok record := by
  obtain ⟨id, record, _, rfl⟩ := (hsame.stored row).mp hrow
  exact ⟨record, rowToRecord_toRow id record⟩

theorem createdAt_of_read {row : TransferRow} {record : EnvelopeRecord}
    (hread : rowToRecord row = .ok record) : record.createdAt = row.createdAt := by
  simp only [rowToRecord, Except.bind_eq_ok_iff] at hread
  obtain ⟨_, _, _, _, heq⟩ := hread
  cases heq
  rfl

theorem map_read_toRow (entries : List (Σ _ : EnvelopeId, EnvelopeRecord)) :
    (entries.map fun entry => entry.2.toRow entry.1).map rowToRecord =
      (entries.map fun entry => entry.2).map .ok := by
  rw [List.map_map, List.map_map]
  apply List.map_congr_left
  intro entry _
  exact rowToRecord_toRow entry.1 entry.2

/-- What is read from a sorted result is sorted too. -/
theorem isOrder_of_read {rows list : List TransferRow} {records listed : List EnvelopeRecord}
    (horder : IsOrder TransferRow.createdAt rows list)
    (hrows : (rows.map rowToRecord).Perm (records.map .ok))
    (hlisted : list.map rowToRecord = listed.map .ok) :
    IsOrder EnvelopeRecord.createdAt records listed := by
  constructor
  · apply map_ok_perm_iff.mp
    rw [← hlisted]
    exact (horder.perm.map rowToRecord).trans hrows
  · have hall := List.mapM_eq_ok_iff.mp (List.mapM_eq_ok_iff_map.mpr hlisted)
    have htimes : listed.map EnvelopeRecord.createdAt = list.map TransferRow.createdAt := by
      clear horder hrows hlisted
      induction hall with
      | nil => rfl
      | cons hhead _ ih => rw [List.map_cons, List.map_cons, createdAt_of_read hhead, ih]
    rw [← List.pairwise_map (R := (· ≤ ·)), htimes, List.pairwise_map]
    exact horder.sorted

/-! ## When they agree -/

theorem listing_agrees (hsame : SameTransfers store memory) (order sqlOrder : IterationOrder)
    {account : Int64} {sub : Option Int64} (honce : ¬FiledTwice memory account sub) :
    ∃ records, store.getTransfersForAccount sqlOrder account sub = .ok records ∧
      records.Perm (memory.getTransfersForAccount order account sub) ∧
      OnceEach memory records := by
  let rows := orderBy TransferRow.createdAt
    (sqlOrder.arrange (store.joinedTransfers account sub))
  have hrows : rows.Perm (store.joinedTransfers account sub) :=
    (orderBy_perm _ _).trans (sqlOrder.arrange_perm _)
  have hreadable : ∀ row ∈ rows, ∃ record, rowToRecord row = .ok record := fun row hrow =>
    hsame.readable (SqlStore.mem_rows_of_joined (hrows.mem_iff.mp hrow))
  obtain ⟨records, hrecords⟩ := List.exists_mapM_eq_ok hreadable
  have hread := (hrows.trans (hsame.joined_of_filedOnce honce)).map rowToRecord
  rw [List.mapM_eq_ok_iff_map.mp hrecords, map_read_toRow] at hread
  have hperm := map_ok_perm_iff.mp hread
  refine ⟨records, hrecords,
    hperm.trans (listing_asked_perm hsame.indexed order account sub).symm, ?_⟩
  exact hperm.subperm.trans (List.filter_sublist.map _).subperm

theorem agree_of_safe (hsame : SameTransfers store memory) (hsafe : ReadsSafe store memory query)
    (order sqlOrder : IterationOrder) : ReadsAgree order sqlOrder store memory query := by
  refine ⟨fun account haccount => listing_agrees hsame order sqlOrder
    (hsafe.filedOnce account haccount), ?_⟩
  have hreadable : ∀ row ∈ store.matchingTransfers query,
      ∃ record, rowToRecord row = .ok record :=
    fun row hrow => hsame.readable (SqlStore.mem_rows_of_matching hrow)
  obtain ⟨page, hpage, htotal, hitems⟩ := SqlStore.exists_page sqlOrder hreadable
  obtain ⟨sorted, hmemory, hsorted⟩ := memory_query_eq hsame order query
  have hmatching := matching_perm hsame hsafe.filedOnce
  refine ⟨page, hpage, ?_, fun hlimit => ?_⟩
  · rw [htotal, hmemory, hmatching.length_eq, List.length_map]
    change _ = UInt64.ofNat sorted.length
    rw [hsorted.length_eq, List.length_map]
  · have hlimitValue : (window query.offset query.limit).2.toNat = 2 ^ 32 - 1 := by
      rw [hlimit]
      rfl
    have hoffsetValue : (window query.offset query.limit).1 = query.offset.getD 0 := rfl
    -- The sorted rows as records.
    let rows := orderBy TransferRow.createdAt (sqlOrder.arrange (store.matchingTransfers query))
    have hrows : IsOrder TransferRow.createdAt (store.matchingTransfers query) rows :=
      isOrder_orderBy (sqlOrder.arrange_perm _)
    have hrowsReadable : ∀ row ∈ rows, ∃ record, rowToRecord row = .ok record :=
      fun row hrow => hreadable row (hrows.perm.mem_iff.mp hrow)
    obtain ⟨listed, hlisted⟩ := List.exists_mapM_eq_ok hrowsReadable
    have hlistedMap := List.mapM_eq_ok_iff_map.mp hlisted
    have hrecords : ((store.matchingTransfers query).map rowToRecord).Perm
        (((matched memory query).map fun entry => entry.2).map .ok) := by
      rw [← map_read_toRow]
      exact hmatching.map rowToRecord
    have horder := isOrder_of_read hrows hrecords hlistedMap
    have hslice : page.items = (listed.drop (query.offset.getD 0).toNat).take
        (2 ^ 32 - 1) := by
      rw [hlimitValue, hoffsetValue, List.map_take, List.map_drop, hlistedMap, ← List.map_drop,
        ← List.map_take] at hitems
      exact List.map_injective_iff.mpr (fun _ _ heq => Except.ok.inj heq) hitems
    have hunsplit : ∀ cut, ¬SplitsTie TransferRow.createdAt rowToRecord
        (store.matchingTransfers query) cut → ¬SplitsTie EnvelopeRecord.createdAt
          (Except.ok (ε := StoreError)) ((matched memory query).map fun entry => entry.2) cut := by
      intro cut hcut hsplit
      have hentries : SplitsTie (fun entry => entry.2.createdAt)
          (fun entry => Except.ok (ε := StoreError) entry.2) (matched memory query) cut :=
        (splitsTie_map_iff (fun _ _ => rfl) fun _ _ => rfl).mp hsplit
      apply hcut
      apply SplitsTie.perm _ hmatching.symm
      exact (splitsTie_map_iff (fun _ _ => rfl) fun entry _ =>
        rowToRecord_toRow entry.1 entry.2).mpr hentries
    obtain ⟨hstart, hend⟩ := hsafe.unsplit hlimit
    have hperm := map_ok_perm_iff.mp
      (horder.page_perm hsorted (hunsplit _ hstart) (hunsplit _ hend))
    have hmemoryItems : (memory.queryTransfers order query).items =
        (sorted.drop (query.offset.getD 0).toNat).take (2 ^ 32 - 1) := by
      rw [hmemory, hlimit]
      rfl
    rw [hslice, hmemoryItems]
    refine ⟨hperm, ?_⟩
    have hpart : ((listed.drop (query.offset.getD 0).toNat).take (2 ^ 32 - 1)).Subperm
        listed := ((List.take_sublist _ _).trans (List.drop_sublist _ _)).subperm
    exact (hpart.trans horder.perm.subperm).trans (matched_subperm memory query)

theorem safe_of_agree (hsame : SameTransfers store memory)
    (hagree : ∀ order sqlOrder, ReadsAgree order sqlOrder store memory query) :
    ReadsSafe store memory query := by
  constructor
  · intro account haccount htwice
    obtain ⟨records, hrecords, hperm, _⟩ := (hagree .listed .listed).listing account haccount
    have hlonger := hsame.listing_lt_joined htwice .listed
    rw [← hperm.length_eq, ← (List.mapM_eq_ok_iff.mp hrecords).length_eq,
      (orderBy_perm _ _).length_eq, (IterationOrder.listed.arrange_perm _).length_eq] at hlonger
    exact lt_irrefl _ hlonger
  · intro hlimit
    rw [← not_or]
    intro hends
    have hreadable : ∀ row ∈ store.matchingTransfers query,
        ∃ record, rowToRecord row = .ok record :=
      fun row hrow => hsame.readable (SqlStore.mem_rows_of_matching hrow)
    have hlimitValue : (window query.offset query.limit).2.toNat = 2 ^ 32 - 1 := by
      rw [hlimit]
      rfl
    obtain ⟨first, second, hfirst, hsecond, hnot⟩ := exists_page_not_perm (by decide) hends
    -- Both results show what the in-memory store does.
    have hshown : ∀ {list}, IsOrder TransferRow.createdAt (store.matchingTransfers query) list →
        (((list.drop (query.offset.getD 0).toNat).take (2 ^ 32 - 1)).map rowToRecord).Perm
          ((memory.queryTransfers .listed query).items.map .ok) := by
      intro list hlist
      obtain ⟨sqlOrder, harrange⟩ := IterationOrder.exists_arrange hlist.perm
      obtain ⟨page, hpage, _, hitems⟩ := SqlStore.exists_page sqlOrder hreadable
      obtain ⟨other, hother, _, hsamePage⟩ := (hagree .listed sqlOrder).page
      rw [hpage] at hother
      cases hother
      rw [harrange, orderBy_of_sorted hlist.sorted, hlimitValue] at hitems
      have hread : ((list.drop (query.offset.getD 0).toNat).take (2 ^ 32 - 1)).map rowToRecord =
          page.items.map .ok := hitems.symm
      rw [hread]
      exact map_ok_perm_iff.mpr (hsamePage hlimit).1
    exact hnot ((hshown hfirst).trans (hshown hsecond).symm)

/-- On stores built by the same commits, the queries agree, whatever orders the
stores choose, exactly when no transfer is joined twice and no end of the page
falls among different transfers of one millisecond. -/
theorem transfer_reads_agree_iff {store : SqlStore} {memory : InMemoryStore}
    (hbuilt : BuiltTogether store memory) (query : TransferQuery) :
    (∀ order sqlOrder, ReadsAgree order sqlOrder store memory query) ↔
      ReadsSafe store memory query :=
  ⟨safe_of_agree hbuilt.sameTransfers, agree_of_safe hbuilt.sameTransfers⟩

end Theory

namespace Sample

/-- A transfer from one subaccount of an account to another. -/
def betweenSubaccounts : CommitRequest :=
  commitOf 1 5 [] [postingOf 1 0 ⟨2, 0⟩ 5, postingOf 1 1 ⟨2, 1⟩ (-5)] [⟨2, 0⟩, ⟨2, 1⟩]

/-- Both stores have the two subaccounts and the transfer. -/
def subaccountStores : SqlStore × InMemoryStore :=
  let sql := (SqlStore.empty.createAccount (.new ⟨2, 0⟩)).2
  let sql := (sql.createAccount (.new ⟨2, 1⟩)).2
  let memory := (InMemoryStore.new.createAccount (.new ⟨2, 0⟩)).2
  let memory := (memory.createAccount (.new ⟨2, 1⟩)).2
  ((sql.commitEnvelope .listed (some 0) betweenSubaccounts).2,
    (memory.commitEnvelope .listed (some 0) betweenSubaccounts).2)

theorem subaccountStores_builtTogether :
    BuiltTogether subaccountStores.1 subaccountStores.2 := by
  apply BuiltTogether.commit .listed .listed (some 0) (some 0) betweenSubaccounts
  · exact .start rfl rfl rfl rfl
  · exact iff_of_true ⟨⟨transferOf 1⟩, by decide +kernel⟩ ⟨⟨transferOf 1⟩, by decide +kernel⟩

def ofAccount (account : Int64) : TransferQuery :=
  ⟨some account, none, none, none, none, none, none⟩

def ofSubaccount (account : AccountId) : TransferQuery :=
  { ofAccount account.id with sub := some account.sub }

theorem subaccountStores_totals :
    (subaccountStores.1.queryTransfers .listed (ofAccount 2)).toOption.map (·.total) = some 2 ∧
      (subaccountStores.2.queryTransfers .listed (ofAccount 2)).total = 1 := by
  decide +kernel

theorem subaccountStores_disagree :
    ¬ReadsAgree .listed .listed subaccountStores.1 subaccountStores.2 (ofAccount 2) := by
  intro hagree
  obtain ⟨page, hpage, htotal, _⟩ := hagree.page
  have hsql := subaccountStores_totals.1
  rw [hpage] at hsql
  have htwo : page.total = 2 := Option.some.inj hsql
  rw [htwo, subaccountStores_totals.2] at htotal
  exact absurd htotal (by decide)

end Sample

open Sample in
/-- Asked for all subaccounts, the SQL store counts the transfer twice. -/
theorem transfer_listed_twice :
    BuiltTogether subaccountStores.1 subaccountStores.2 ∧
      (subaccountStores.1.queryTransfers .listed (ofAccount 2)).toOption.map (·.total) = some 2 ∧
      (subaccountStores.2.queryTransfers .listed (ofAccount 2)).total = 1 ∧
      ¬ReadsAgree .listed .listed subaccountStores.1 subaccountStores.2 (ofAccount 2) :=
  ⟨subaccountStores_builtTogether, subaccountStores_totals.1, subaccountStores_totals.2,
    subaccountStores_disagree⟩

open Sample in
/-- Asked for one of the subaccounts, both stores list the transfer once. -/
theorem transfer_reads_agree_iff_subaccounts :
    ¬ReadsSafe subaccountStores.1 subaccountStores.2 (ofAccount 2) ∧
      ∀ order sqlOrder, ReadsAgree order sqlOrder subaccountStores.1 subaccountStores.2
        (ofSubaccount ⟨2, 0⟩) := by
  constructor
  · intro hsafe
    exact subaccountStores_disagree ((transfer_reads_agree_iff subaccountStores_builtTogether
      (ofAccount 2)).mpr hsafe .listed .listed)
  · -- there is one row, which no cut divides
    have hwhole : ∀ cut, ¬SplitsTie TransferRow.createdAt rowToRecord
        (subaccountStores.1.matchingTransfers (ofSubaccount ⟨2, 0⟩)) cut := by
      have hlength : (subaccountStores.1.matchingTransfers (ofSubaccount ⟨2, 0⟩)).length = 1 := by
        decide +kernel
      obtain ⟨only, honly⟩ := List.length_eq_one_iff.mp hlength
      rintro cut ⟨first, hfirst, second, hsecond, hne, _⟩
      rw [honly, List.mem_singleton] at hfirst hsecond
      exact hne (by rw [hfirst, hsecond])
    refine (transfer_reads_agree_iff subaccountStores_builtTogether (ofSubaccount ⟨2, 0⟩)).mpr
      ⟨?_, fun _ => ⟨hwhole _, hwhole _⟩⟩
    rintro _ ⟨⟩ ⟨_, _, _, first, _, second, _, hne, ⟨hid, hsub⟩, ⟨hotherId, hotherSub⟩⟩
    have hsameId : first.id = second.id := hid.trans hotherId.symm
    have hsameSub : first.sub = second.sub := (hsub 0 rfl).trans (hotherSub 0 rfl).symm
    exact hne (by cases first; cases second; simp_all)

end Kuatia
