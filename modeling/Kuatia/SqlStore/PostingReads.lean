import Kuatia.SqlStore.Simulation
import Kuatia.Storage.Listing

/-! # Where the posting reads of the two stores agree

Both stores list postings by transfer and index. Hex text keeps the order of the
transfer ids, but the index column is signed: the upper half of the indexes
comes first.
-/

namespace Kuatia

open Sql

/-! ## The queries -/

section Theory

variable [MoneyWidth]

/-- `ORDER BY transfer_id, idx`. -/
def PostingRow.sortKey (row : PostingRow) : String ×ₗ Int16 := toLex (row.transferId, row.idx)

namespace SqlPostings

/-- The table that a filter picks, and the state of its rows. -/
def filterSource (filter : PostingFilter) (store : SqlPostings) : List PostingRow :=
  match filter with
  | .active => (store.live.select (·.reservation = none)).map LivePostingRow.row
  | .reserved => (store.live.select (·.reservation ≠ none)).map LivePostingRow.row
  | .live => store.live.rows.map LivePostingRow.row
  | .all => store.postings.rows

/-- The rows that the `FROM` and `WHERE` clauses select. -/
def matchingPostings (account : Int64) (sub : Option Int64) (asset : Option AssetId)
    (filter : PostingFilter) (store : SqlPostings) : List PostingRow :=
  (store.filterSource filter).filter fun row =>
    row.owner = account && sub.all (fun s => row.subaccount = s) &&
      asset.all (fun a => row.asset = a.id.toInt32)

def getPostingsByAccount (order : IterationOrder) (account : Int64) (sub : Option Int64)
    (asset : Option AssetId) (filter : PostingFilter) (store : SqlPostings) :
    Except StoreError (List Posting) :=
  (orderBy PostingRow.sortKey (order.arrange (store.matchingPostings account sub asset filter))).mapM
    rowToPosting

def queryPostings (order : IterationOrder) (query : PostingQuery) (store : SqlPostings) :
    Except StoreError (Page Posting) := do
  let rows := store.matchingPostings query.account query.sub query.asset query.filter
  let (offset, limit) := window query.offset query.limit
  let sorted := orderBy PostingRow.sortKey (order.arrange rows)
  let items ← ((sorted.drop offset.toNat).take limit.toNat).mapM rowToPosting
  .ok { items, total := .ofNat rows.length }

end SqlPostings

/-! ## What a query selects -/

/-- What the in-memory store selects, in some order. -/
def selected (order : IterationOrder) (memory : InMemoryStore) (account : Int64)
    (sub : Option Int64) (asset : Option AssetId) (filter : PostingFilter) : List Posting :=
  (memory.postingsOf order filter).filter fun posting =>
    posting.owner.id = account && sub.all (fun s => posting.owner.sub = s) &&
      asset.all (fun a => posting.asset = a)

variable {store : SqlPostings} {memory : InMemoryStore}

theorem SamePostings.postings_rows_perm {tables : PostingTables} (hsame : SamePostings store tables) :
    store.postings.rows.Perm (tables.immutable.values.map Posting.toRow) := by
  have hkeys : ((tables.immutable.values.map Posting.toRow).map PostingRow.key).Nodup := by
    have hids := HashMap.nodup_map_values hsame.keyed
    have hmap := hids.map (f := PostingId.key) fun _ _ => PostingId.key_inj.mp
    rw [List.map_map] at hmap ⊢
    exact hmap
  apply (List.perm_ext_iff_of_nodup (.of_map _ store.postings.nodup) (.of_map _ hkeys)).mpr
  intro row
  rw [hsame.mem_postings_iff, List.mem_map]
  simp only [HashMap.mem_values_iff]
  constructor
  · rintro ⟨posting, hlookup, rfl⟩
    exact ⟨posting, ⟨_, hlookup⟩, rfl⟩
  · rintro ⟨posting, ⟨id, hlookup⟩, rfl⟩
    exact ⟨posting, (hsame.keyed id posting hlookup).symm ▸ hlookup, rfl⟩

/-- The source of a filter has the rows of the chosen set. -/
theorem SamePostings.filterSource_perm (hsame : SamePostings store memory.postings)
    (order : IterationOrder) (filter : PostingFilter) :
    (store.filterSource filter).Perm ((memory.postingsOf order filter).map Posting.toRow) := by
  have hlive := hsame.live_rows_perm
  rw [PostingTables.liveEntries, List.map_append, List.map_map, List.map_map] at hlive
  have hactive := (order.arrange_perm memory.postings.active.values).symm.map Posting.toRow
  have hreserved := ((order.arrange_perm memory.postings.reserved.values).symm.map Prod.fst).map
    Posting.toRow
  cases filter with
  | active =>
      have hrows := (hlive.filter (·.reservation = none)).map LivePostingRow.row
      rw [List.filter_append, List.filter_map, List.filter_map] at hrows
      simp only [Function.comp_def, decide_true, List.filter_true, reduceCtorEq, decide_false,
        List.filter_false, List.map_nil, List.append_nil, List.map_map] at hrows
      exact hrows.trans hactive
  | reserved =>
      have hrows := (hlive.filter (·.reservation ≠ none)).map LivePostingRow.row
      rw [List.filter_append, List.filter_map, List.filter_map] at hrows
      simp only [Function.comp_def, ne_eq, not_true_eq_false, decide_false, List.filter_false,
        reduceCtorEq, not_false_eq_true, decide_true, List.filter_true, List.map_nil,
        List.nil_append, List.map_map] at hrows
      rw [List.map_map] at hreserved
      exact hrows.trans hreserved
  | live =>
      have hrows := hlive.map LivePostingRow.row
      rw [List.map_append, List.map_map, List.map_map] at hrows
      rw [List.map_map] at hreserved
      rw [InMemoryStore.postingsOf, List.map_append]
      exact hrows.trans (hactive.append hreserved)
  | all => exact hsame.postings_rows_perm.trans ((order.arrange_perm _).symm.map _)

theorem SamePostings.matching_perm (hsame : SamePostings store memory.postings)
    (order : IterationOrder) (account : Int64) (sub : Option Int64) (asset : Option AssetId)
    (filter : PostingFilter) : (store.matchingPostings account sub asset filter).Perm
      ((selected order memory account sub asset filter).map Posting.toRow) := by
  have hrows := (hsame.filterSource_perm order filter).filter fun row =>
    row.owner = account && sub.all (fun s => row.subaccount = s) &&
      asset.all (fun a => row.asset = a.id.toInt32)
  rw [List.filter_map] at hrows
  have hpredicate : ∀ posting : Posting, (decide (posting.toRow.owner = account) &&
      sub.all (fun s => posting.toRow.subaccount = s) &&
      asset.all (fun a => posting.toRow.asset = a.id.toInt32)) =
      (decide (posting.owner.id = account) && sub.all (fun s => posting.owner.sub = s) &&
        asset.all (fun a => posting.asset = a)) := by
    intro posting
    have hasset : ∀ a : AssetId, posting.asset.id.toInt32 = a.id.toInt32 ↔ posting.asset = a := by
      rintro ⟨a⟩
      obtain ⟨_, _, ⟨_⟩, _⟩ := posting
      rw [toInt32_eq_iff, AssetId.mk.injEq]
    congr 1
    cases asset with
    | none => rfl
    | some a => exact decide_eq_decide.mpr (hasset a)
  simp only [Function.comp_def, hpredicate] at hrows
  exact hrows

/-! ## The two orders -/

/-- In memory the postings are sorted by their ids. -/
theorem getPostingsByAccount_eq (order : IterationOrder) (account : Int64) (sub : Option Int64)
    (asset : Option AssetId) (filter : PostingFilter) :
    memory.getPostingsByAccount order account sub asset filter =
      orderBy (fun posting => posting.id.sortKey)
        (selected order memory account sub asset filter) :=
  insertionSort_eq_orderBy fun _ _ => PostingId.le_iff_sortKey

/-- Of two indexes, both are in the lower half or both in the upper half. -/
def SameHalf (first second : UInt16) : Prop := first < 32768 ↔ second < 32768

omit [MoneyWidth] in
theorem toInt_toInt16 (index : UInt16) : index.toInt16.toInt =
    if index < 32768 then (index.toNat : Int) else index.toNat - 65536 := by
  have hvalue : index.toInt16.toInt = if 2 * index.toNat < 2 ^ 16 then (index.toNat : Int)
      else index.toNat - 2 ^ 16 := BitVec.toInt_eq_toNat_cond index.toBitVec
  have hhalf : index < 32768 ↔ 2 * index.toNat < 2 ^ 16 := by
    rw [UInt16.lt_iff_toNat_lt]
    change index.toNat < 32768 ↔ _
    omega
  rw [hvalue]
  simp only [hhalf]
  rfl

omit [MoneyWidth] in
theorem toInt16_lt_iff {first second : UInt16} (hhalf : SameHalf first second) :
    first.toInt16 < second.toInt16 ↔ first < second := by
  have hfirst := first.toNat_lt
  have hsecond := second.toNat_lt
  unfold SameHalf at hhalf
  rw [Int16.lt_iff_toInt_lt, toInt_toInt16, toInt_toInt16]
  by_cases hlower : first < 32768
  · rw [if_pos hlower, if_pos (hhalf.mp hlower), UInt16.lt_iff_toNat_lt]
    omega
  · rw [if_neg hlower, if_neg (mt hhalf.mpr hlower), UInt16.lt_iff_toNat_lt]
    omega

omit [MoneyWidth] in
theorem toInt16_lt_of_halves {first second : UInt16} (hfirst : first < 32768)
    (hsecond : ¬second < 32768) : second.toInt16 < first.toInt16 := by
  have hlt := second.toNat_lt
  rw [Int16.lt_iff_toInt_lt, toInt_toInt16, toInt_toInt16, if_pos hfirst, if_neg hsecond]
  omega

/-- Postings of one transfer have their indexes in one half: then both stores
order them alike. -/
theorem sortKey_toRow_lt_iff {first second : Posting}
    (hhalf : first.id.transfer = second.id.transfer → SameHalf first.id.index second.id.index) :
    first.toRow.sortKey < second.toRow.sortKey ↔ first.id.sortKey < second.id.sortKey := by
  simp only [PostingRow.sortKey, PostingId.sortKey, Prod.Lex.toLex_lt_toLex]
  change (envelopeIdToHex first.id.transfer < envelopeIdToHex second.id.transfer ∨
    envelopeIdToHex first.id.transfer = envelopeIdToHex second.id.transfer ∧
      first.id.index.toInt16 < second.id.index.toInt16) ↔ _
  have htransfer : first.id.transfer.bytes.toList = second.id.transfer.bytes.toList ↔
      first.id.transfer = second.id.transfer := by
    rw [Vector.toList_inj]
    cases first.id.transfer
    cases second.id.transfer
    simp
  rw [envelopeIdToHex, envelopeIdToHex, hex_lt_iff, htransfer, ← envelopeIdToHex, ← envelopeIdToHex,
    envelopeIdToHex_inj]
  apply or_congr_right
  apply and_congr_right
  exact fun heq => toInt16_lt_iff (hhalf heq)

/-! ## When the reads agree -/

/-- The listing is the same, in the same order, and so is every page. -/
structure PostingReadsAgree (order sqlOrder : IterationOrder) (store : SqlPostings)
    (memory : InMemoryStore) (account : Int64) (sub : Option Int64) (asset : Option AssetId)
    (filter : PostingFilter) : Prop where
  listing : store.getPostingsByAccount sqlOrder account sub asset filter =
    .ok (memory.getPostingsByAccount order account sub asset filter)
  pages : ∀ limit offset,
    store.queryPostings sqlOrder ⟨account, sub, asset, filter, limit, offset⟩ =
      .ok (memory.queryPostings order ⟨account, sub, asset, filter, limit, offset⟩)

/-- The selected postings of each transfer have their indexes in one half. -/
def HalvesApart (memory : InMemoryStore) (account : Int64) (sub : Option Int64)
    (asset : Option AssetId) (filter : PostingFilter) : Prop :=
  ∀ first ∈ selected .listed memory account sub asset filter,
    ∀ second ∈ selected .listed memory account sub asset filter,
      first.id.transfer = second.id.transfer → SameHalf first.id.index second.id.index

theorem selected_perm (order other : IterationOrder) (memory : InMemoryStore) (account : Int64)
    (sub : Option Int64) (asset : Option AssetId) (filter : PostingFilter) :
    (selected order memory account sub asset filter).Perm
      (selected other memory account sub asset filter) := by
  apply List.Perm.filter
  have hsame : ∀ {α : Type} (entries : List α),
      (order.arrange entries).Perm (other.arrange entries) :=
    fun entries => (order.arrange_perm entries).trans (other.arrange_perm entries).symm
  cases filter with
  | active => exact hsame _
  | reserved => exact (hsame _).map _
  | live => exact (hsame _).append ((hsame _).map _)
  | all => exact hsame _

variable {account : Int64} {sub : Option Int64} {asset : Option AssetId} {filter : PostingFilter}

omit [MoneyWidth] in
theorem matching_nodup (store : SqlPostings) (account : Int64) (sub : Option Int64)
    (asset : Option AssetId) (filter : PostingFilter) :
    ((store.matchingPostings account sub asset filter).map PostingRow.sortKey).Nodup := by
  have hsource : ((store.filterSource filter).map PostingRow.key).Nodup := by
    have hlive : ∀ rows : List LivePostingRow, rows.Sublist store.live.rows →
        ((rows.map LivePostingRow.row).map PostingRow.key).Nodup := by
      intro rows hrows
      rw [List.map_map]
      exact store.live.nodup.sublist (hrows.map _)
    cases filter with
    | active => exact hlive _ List.filter_sublist
    | reserved => exact hlive _ List.filter_sublist
    | live => exact hlive _ (.refl _)
    | all => exact store.postings.nodup
  have hkeys : ((store.matchingPostings account sub asset filter).map PostingRow.key).Nodup :=
    hsource.sublist (List.filter_sublist.map _)
  have hsort := hkeys.map (f := toLex) toLex.injective
  rw [List.map_map] at hsort
  exact hsort

theorem mapM_toRow (postings : List Posting) :
    (postings.map Posting.toRow).mapM rowToPosting = .ok postings := by
  apply List.mapM_eq_ok_iff_map.mpr
  rw [List.map_map]
  apply List.map_congr_left
  intro posting _
  exact rowToPosting_toRow posting

/-- In memory the listing is sorted strictly: no id occurs twice. -/
theorem listing_strict (hsame : SamePostings store memory.postings) (order : IterationOrder) :
    (memory.getPostingsByAccount order account sub asset filter).Pairwise
      (·.id.sortKey < ·.id.sortKey) := by
  rw [getPostingsByAccount_eq]
  have hrows := ((hsame.matching_perm order account sub asset filter).map
    PostingRow.sortKey).nodup_iff.mp (matching_nodup store account sub asset filter)
  have hids : ((selected order memory account sub asset filter).map (·.id)).Nodup := by
    have hkeys : (((selected order memory account sub asset filter).map (·.id)).map fun id =>
        toLex id.key).Nodup := by
      rw [List.map_map] at hrows ⊢
      exact hrows
    exact .of_map _ hkeys
  have hsort := hids.map PostingId.sortKey_injective
  rw [List.map_map] at hsort
  exact orderBy_strict hsort

theorem listing_perm (order : IterationOrder) :
    (memory.getPostingsByAccount order account sub asset filter).Perm
      (selected .listed memory account sub asset filter) := by
  rw [getPostingsByAccount_eq]
  exact (orderBy_perm _ _).trans (selected_perm order .listed memory account sub asset filter)

theorem agree_of_halves (hsame : SamePostings store memory.postings)
    (hhalves : HalvesApart memory account sub asset filter) (order sqlOrder : IterationOrder) :
    PostingReadsAgree order sqlOrder store memory account sub asset filter := by
  let listing := memory.getPostingsByAccount order account sub asset filter
  have hperm : listing.Perm (selected .listed memory account sub asset filter) :=
    listing_perm order
  have hmatching : (store.matchingPostings account sub asset filter).Perm
      (listing.map Posting.toRow) :=
    (hsame.matching_perm .listed account sub asset filter).trans (hperm.symm.map _)
  have hsorted : (listing.map Posting.toRow).Pairwise (·.sortKey < ·.sortKey) := by
    rw [List.pairwise_map]
    apply (listing_strict hsame order).imp_of_mem
    intro first second hfirst hsecond hlt
    exact (sortKey_toRow_lt_iff (hhalves first (hperm.mem_iff.mp hfirst) second
      (hperm.mem_iff.mp hsecond))).mpr hlt
  have hrows : orderBy PostingRow.sortKey
      (sqlOrder.arrange (store.matchingPostings account sub asset filter)) =
      listing.map Posting.toRow :=
    orderBy_eq_of_perm hsorted (hmatching.symm.trans (sqlOrder.arrange_perm _).symm)
  constructor
  · rw [SqlPostings.getPostingsByAccount, hrows, mapM_toRow]
  · intro limit offset
    rw [SqlPostings.queryPostings, Except.bind_eq_ok_iff]
    refine ⟨(listing.drop (window offset limit).1.toNat).take (window offset limit).2.toNat, ?_, ?_⟩
    · simp only [hrows]
      rw [← List.map_drop, ← List.map_take, mapM_toRow]
    · simp only [hmatching.length_eq, List.length_map]
      rfl

/-- When the listings agree, the selected postings of a transfer are in one half. -/
theorem halves_of_agree (hsame : SamePostings store memory.postings)
    {order sqlOrder : IterationOrder}
    (hagree : PostingReadsAgree order sqlOrder store memory account sub asset filter) :
    HalvesApart memory account sub asset filter := by
  let listing := memory.getPostingsByAccount order account sub asset filter
  have hperm : listing.Perm (selected .listed memory account sub asset filter) :=
    listing_perm order
  let rows := orderBy PostingRow.sortKey
    (sqlOrder.arrange (store.matchingPostings account sub asset filter))
  have hread := List.mapM_eq_ok_iff_map.mp hagree.listing
  have hrows : rows = listing.map Posting.toRow := by
    have hback : ∀ row ∈ rows, some row = (rowToPosting row).toOption.map Posting.toRow := by
      intro row hrow
      have hmem := (sqlOrder.mem_arrange).mp (mem_orderBy.mp hrow)
      have hselected := (hsame.matching_perm .listed account sub asset filter).mem_iff.mp hmem
      obtain ⟨posting, _, rfl⟩ := List.mem_map.mp hselected
      rw [rowToPosting_toRow]
      rfl
    apply List.map_injective_iff.mpr (Option.some_injective PostingRow)
    calc
      rows.map some = (rows.map rowToPosting).map fun read => read.toOption.map Posting.toRow := by
        rw [List.map_map]
        exact List.map_congr_left hback
      _ = (listing.map Posting.toRow).map some := by
        rw [hread, List.map_map, List.map_map]
        rfl
  intro first hfirst second hsecond htransfer
  -- Both orders hold between any two postings of the listing.
  have hboth : listing.Pairwise fun left right => left.id.sortKey < right.id.sortKey ∧
      left.toRow.sortKey ≤ right.toRow.sortKey := by
    have hsorted := orderBy_pairwise PostingRow.sortKey
      (sqlOrder.arrange (store.matchingPostings account sub asset filter))
    change rows.Pairwise _ at hsorted
    rw [hrows, List.pairwise_map] at hsorted
    exact (listing_strict hsame order).and hsorted
  have hone : ∀ {lower upper : Posting}, lower ∈ listing → upper ∈ listing →
      lower.id.transfer = upper.id.transfer → lower.id.index < 32768 →
        upper.id.index < 32768 := by
    intro lower upper hlower hupper hsameTransfer hindex
    by_contra hhigh
    have hlt : lower.id.sortKey < upper.id.sortKey := by
      rw [PostingId.sortKey, PostingId.sortKey, hsameTransfer, Prod.Lex.toLex_lt_toLex]
      exact .inr ⟨rfl, lt_of_lt_of_le hindex (not_lt.mp hhigh)⟩
    have hgt : upper.toRow.sortKey < lower.toRow.sortKey := by
      rw [PostingRow.sortKey, PostingRow.sortKey, Prod.Lex.toLex_lt_toLex]
      exact .inr ⟨congrArg envelopeIdToHex hsameTransfer.symm,
        toInt16_lt_of_halves hindex hhigh⟩
    have hne : lower ≠ upper := fun heq => hhigh (heq ▸ hindex)
    let Sorted (left right : Posting) : Prop :=
      left.id.sortKey < right.id.sortKey ∧ left.toRow.sortKey ≤ right.toRow.sortKey
    have : Std.Symm fun left right => Sorted left right ∨ Sorted right left :=
      ⟨fun _ _ => Or.symm⟩
    have heither : listing.Pairwise fun left right => Sorted left right ∨ Sorted right left :=
      hboth.imp Or.inl
    obtain ⟨_, hle⟩ | ⟨hlt', _⟩ := heither.forall hlower hupper hne
    · exact absurd hgt hle.not_gt
    · exact absurd hlt hlt'.not_gt
  have hlisted : ∀ {posting}, posting ∈ selected .listed memory account sub asset filter →
      posting ∈ listing := hperm.mem_iff.mpr
  exact ⟨hone (hlisted hfirst) (hlisted hsecond) htransfer,
    hone (hlisted hsecond) (hlisted hfirst) htransfer.symm⟩

/-! ## Stores built by the same calls and commits -/

/-- Both stores start without postings and take the same posting calls and
commits. A commit is applied by both or by neither, and creates new postings. -/
inductive PostingsBuilt [Json] : SqlStore → InMemoryStore → Prop
  | start : PostingsBuilt .empty .new
  | call {store : SqlStore} {memory : InMemoryStore} (sqlOrder : IterationOrder)
      (call : PostingCall) (hbuilt : PostingsBuilt store memory) :
      PostingsBuilt { store with postings := (call.inSql sqlOrder store.postings).2 }
        (call.inMemory memory).2
  | commit {store : SqlStore} {memory : InMemoryStore} (order sqlOrder : IterationOrder)
      (clock sqlClock : Clock) (req : CommitRequest) (hbuilt : PostingsBuilt store memory)
      (hboth : IsCommitted (store.commitEnvelope sqlOrder sqlClock req).1 ↔
        IsCommitted (memory.commitEnvelope order clock req).1)
      (hcreates : (req.create.map (·.id)).Nodup)
      (hfresh : memory.transfers.lookup req.transferId = none →
        ∀ posting ∈ req.create, posting.id ∉ memory.postings.immutable) :
      PostingsBuilt (store.commitEnvelope sqlOrder sqlClock req).2
        (memory.commitEnvelope order clock req).2
  | elsewhere {store next : SqlStore} {memory after : InMemoryStore}
      (hbuilt : PostingsBuilt store memory) (hstore : next.postings = store.postings)
      (hmemory : after.postings = memory.postings) : PostingsBuilt next after

theorem PostingsBuilt.samePostings [Json] {store : SqlStore} {memory : InMemoryStore}
    (hbuilt : PostingsBuilt store memory) : SamePostings store.postings memory.postings := by
  induction hbuilt with
  | start => exact samePostings_empty
  | call sqlOrder call _ ih => exact (PostingCall.agrees ih sqlOrder call).2
  | elsewhere _ hstore hmemory ih =>
      rw [hstore, hmemory]
      exact ih
  | @commit store memory order sqlOrder clock sqlClock req _ hboth hcreates hfresh ih =>
      obtain ⟨hnot, _, _, hpostings⟩ | ⟨hcommitted, _, _, hpostings⟩ :=
        store.commitEnvelope_cases sqlOrder sqlClock req
      · obtain ⟨hsame, _⟩ | ⟨_, _, heq⟩ := memory.commitEnvelope_cases order clock req
        · rw [hpostings, hsame]
          exact ih
        · exact absurd (hboth.mpr ⟨_, congrArg Prod.fst heq⟩) hnot
      · obtain ⟨_, hnever⟩ | ⟨hnew, _, heq⟩ := memory.commitEnvelope_cases order clock req
        · obtain ⟨receipt, hreceipt⟩ := hboth.mp hcommitted
          exact absurd hreceipt (hnever receipt)
        · rw [hpostings, heq]
          exact ih.write hcreates (hfresh (AList.lookup_eq_none.mpr hnew)) clock

/-- On stores built by the same calls and commits, a query reads the same
postings in the same order from both exactly when no transfer has selected
postings in both halves of the indexes. -/
theorem posting_reads_agree_iff [Json] {store : SqlStore} {memory : InMemoryStore}
    (hbuilt : PostingsBuilt store memory) (order sqlOrder : IterationOrder) (account : Int64)
    (sub : Option Int64) (asset : Option AssetId) (filter : PostingFilter) :
    PostingReadsAgree order sqlOrder store.postings memory account sub asset filter ↔
      HalvesApart memory account sub asset filter :=
  ⟨halves_of_agree hbuilt.samePostings,
    fun hhalves => agree_of_halves hbuilt.samePostings hhalves order sqlOrder⟩

end Theory

namespace Sample

/-- Two postings of one transfer, the second from the upper half of the indexes. -/
def indexes : PostingCall := .insert [postingOf 1 1 alice 5, postingOf 1 40000 alice 7]

def indexedStores : SqlStore × InMemoryStore :=
  ({ SqlStore.empty with postings := (indexes.inSql .listed SqlStore.empty.postings).2 },
    (indexes.inMemory .new).2)

theorem indexedStores_built : PostingsBuilt indexedStores.1 indexedStores.2 :=
  .call .listed indexes .start

theorem indexedStores_listings :
    (indexedStores.2.getPostingsByAccount .listed 2 none none .all).map (·.id.index) =
        [1, 40000] ∧
      ((indexedStores.1.postings.getPostingsByAccount .listed 2 none none .all).toOption.map
        fun postings => postings.map (·.id.index)) = some [40000, 1] := by
  decide +kernel

theorem indexedStores_disagree : ¬PostingReadsAgree .listed .listed indexedStores.1.postings
    indexedStores.2 2 none none .all := by
  intro hagree
  have hsql := indexedStores_listings.2
  rw [hagree.listing, Except.toOption, Option.map_some, indexedStores_listings.1] at hsql
  exact absurd hsql (by decide)

end Sample

open Sample in
/-- In memory the posting 1 comes before the posting 40000, in SQL after it. -/
theorem upper_indexes_first :
    PostingsBuilt indexedStores.1 indexedStores.2 ∧
      (indexedStores.2.getPostingsByAccount .listed 2 none none .all).map (·.id.index) =
        [1, 40000] ∧
      ((indexedStores.1.postings.getPostingsByAccount .listed 2 none none .all).toOption.map
        fun postings => postings.map (·.id.index)) = some [40000, 1] ∧
      ¬PostingReadsAgree .listed .listed indexedStores.1.postings indexedStores.2 2 none none
        .all :=
  ⟨indexedStores_built, indexedStores_listings.1, indexedStores_listings.2,
    indexedStores_disagree⟩

open Sample in
/-- The posting 40000 is that of another transfer, and listed after the posting 1. -/
def separateStores : SqlStore × InMemoryStore :=
  let separate : PostingCall := .insert [postingOf 1 1 alice 5, postingOf 2 40000 alice 7]
  ({ SqlStore.empty with postings := (separate.inSql .listed SqlStore.empty.postings).2 },
    (separate.inMemory .new).2)

open Sample in
/-- Both halves of the indexes are read alike as long as they are of different transfers. -/
theorem posting_reads_agree_iff_indexed :
    ¬HalvesApart indexedStores.2 2 none none .all ∧
      PostingReadsAgree .listed .listed separateStores.1.postings separateStores.2 2 none none
        .all := by
  constructor
  · intro hhalves
    have hagree := (posting_reads_agree_iff indexedStores_built .listed .listed 2 none none
      .all).mpr hhalves
    exact indexedStores_disagree hagree
  · have hbuilt : PostingsBuilt separateStores.1 separateStores.2 := .call .listed _ .start
    refine (posting_reads_agree_iff hbuilt .listed .listed 2 none none .all).mpr ?_
    unfold HalvesApart SameHalf
    decide +kernel

end Kuatia
