import Kuatia.Inflight.Status
import Kuatia.Ledger.Turnover
import Kuatia.Service.Bookkeeping
import Kuatia.Storage.PostingStore
import Kuatia.Storage.Reads

/-! # Statements

What an account can be asked for: its postings with their states, its history, its
balances by subaccount. Each is read from tables of its own, and all say the same:
the postings of an account are those that its history creates, the spent ones are
those that its history consumes, and the others come to its balance.
-/

namespace Kuatia

open Async LedgerM Sql

section Theory

variable [MoneyWidth]

structure SubAccountBalance where
  account : AccountId
  value : Cent
  deriving DecidableEq

namespace Ledger

def listAccounts : LedgerM (List Account) := read fun order store => store.listAccounts order

/-- All postings of one subaccount, in any state. -/
def postings (account : AccountId) : LedgerM (List Posting) :=
  read fun order store =>
    store.getPostingsByAccount order account.id (some account.sub) none .all

def postingsWithState (account : AccountId) : LedgerM (List (Posting × PostingState)) := do
  let postings ← Ledger.postings account
  let states ← read fun _ store => store.getPostingStates (postings.map (·.id))
  return postings.zip states

/-- The subaccounts of a base account that are not closed. -/
def listSubaccounts (account : AccountId) : LedgerM (List AccountId) := do
  let accounts ← listAccounts
  let subs := (accounts.filter fun other => other.id.id = account.id && !other.isClosed).map (·.id)
  return subs.insertionSort fun first second => first ≤ second

/-- One turn of the loop of `balances`. -/
def readSubaccount (asset : AssetId) (sub : Option Int64) (result : List SubAccountBalance)
    (subaccount : AccountId) : LedgerM (List SubAccountBalance) :=
  if sub.any (subaccount.sub ≠ ·) then return result
  else do
    let value ← balance subaccount asset
    return result ++ [⟨subaccount, value⟩]

/-- The balance of each subaccount, or of the one that is asked for. -/
def balances (account : AccountId) (asset : AssetId) (sub : Option Int64) :
    LedgerM (List SubAccountBalance) := do
  let subaccounts ← listSubaccounts account
  subaccounts.foldlM (readSubaccount asset sub) []

end Ledger

/-! ## Postings and history -/

/-- The live amount of an asset on a statement. -/
def unspentTotal (rows : List (Posting × PostingState)) (asset : AssetId) : Int :=
  keyTotal (fun row => row.1.asset) (fun row => row.1.value) (rows.filter (·.2 ≠ .spent)) asset

/-- A statement has each posting once that the history creates for the account. It is
spent if and only if the history consumes it, and active otherwise. -/
structure Reconciles (account : AccountId) (rows : List (Posting × PostingState))
    (records : List EnvelopeRecord) : Prop where
  sorted : rows.Pairwise fun first second => first.1.id.sortKey < second.1.id.sortKey
  created : ∀ posting, posting ∈ rows.map Prod.fst ↔ posting.owner = account ∧
    ∃ record ∈ records,
      posting ∈ createdPostings record.receipt.transferId record.envelope.creates
  spent : ∀ row ∈ rows, row.2 = .spent ∧ (∃ record ∈ records, row.1.id ∈ record.envelope.consumes) ∨
    row.2 = .active ∧ ∀ record ∈ records, row.1.id ∉ record.envelope.consumes

section Statement

variable {store : InMemoryStore} {account : AccountId}

/-- The recorded postings of the account, each once. -/
theorem mem_postings (hwell : WellFormed store) (order : IterationOrder) {posting : Posting} :
    posting ∈ store.getPostingsByAccount order account.id (some account.sub) none .all ↔
      store.postings.immutable.lookup posting.id = some posting ∧ posting.owner = account := by
  have howner : posting.owner.id = account.id ∧ posting.owner.sub = account.sub ↔
      posting.owner = account := by
    rw [← AccountId.sortKey_injective.eq_iff, AccountId.sortKey, AccountId.sortKey, toLex_inj,
      Prod.mk.injEq]
  rw [InMemoryStore.getPostingsByAccount, (List.perm_insertionSort _ _).mem_iff, List.mem_filter]
  simp only [InMemoryStore.postingsOf, IterationOrder.mem_arrange, HashMap.mem_values_iff,
    Option.all_some, Option.all_none, Bool.and_true, Bool.and_eq_true, decide_eq_true_eq, howner]
  refine and_congr_left fun _ => ⟨?_, fun hlookup => ⟨_, hlookup⟩⟩
  rintro ⟨id, hlookup⟩
  rwa [hwell.immutable id posting hlookup]

theorem sorted_postings (hwell : WellFormed store) (order : IterationOrder) :
    (store.getPostingsByAccount order account.id (some account.sub) none .all).Pairwise
      fun first second => first.id.sortKey < second.id.sortKey := by
  have hids : (store.postings.immutable.values.map (·.id)).Nodup :=
    HashMap.nodup_map_values hwell.immutable
  have hkeys := (((order.arrange_perm _).map _).nodup_iff.mpr hids).map PostingId.sortKey_injective
  rw [List.map_map] at hkeys
  have hsorted : ∀ postings : List Posting,
      postings.insertionSort (fun first second => PostingId.le first.id second.id) =
        orderBy (fun posting => posting.id.sortKey) postings :=
    fun _ => insertionSort_eq_orderBy fun _ _ => PostingId.le_iff_sortKey
  rw [InMemoryStore.getPostingsByAccount, hsorted]
  exact orderBy_strict (hkeys.sublist (List.filter_sublist.map _))

/-- No posting is reserved, and recorded ones are not missing. -/
theorem states_of_recorded (hconsistent : Consistent store) {postings : List Posting}
    (hrecorded : ∀ posting ∈ postings, posting.id ∈ store.postings.immutable) :
    store.getPostingStates (postings.map (·.id)) = postings.map fun posting =>
      if posting.id ∈ store.postings.active then .active else .spent := by
  rw [InMemoryStore.getPostingStates, List.map_map, hconsistent.reserved]
  refine List.map_congr_left fun posting hposting => ?_
  simp [hrecorded posting hposting]

/-- The state of each posting is read off the live set. -/
theorem mem_statement {rows : List (Posting × PostingState)} {before after : World}
    (haccounted : Accounted before.store)
    (halone : Alone (Ledger.postingsWithState account) before (.ok rows) after) :
    rows.Pairwise (fun first second => first.1.id.sortKey < second.1.id.sortKey) ∧
      ∀ row, row ∈ rows ↔ before.store.postings.immutable.lookup row.1.id = some row.1 ∧
        row.1.owner = account ∧
        row.2 = if row.1.id ∈ before.store.postings.active then .active else .spent := by
  obtain ⟨postings, middle, hpostings, hrest⟩ := alone_bind_ok_iff.mp halone
  obtain ⟨choice, heq, rfl⟩ := alone_read_iff.mp hpostings
  cases heq
  obtain ⟨states, last, hstates, hpure⟩ := alone_bind_ok_iff.mp hrest
  obtain ⟨_, heq, rfl⟩ := alone_read_iff.mp hstates
  cases heq
  obtain ⟨hpure, _⟩ := alone_pure_iff.mp hpure
  have hwell := haccounted.wellFormed
  have hrecorded : ∀ posting ∈ before.store.getPostingsByAccount choice.order account.id
      (some account.sub) none .all, posting.id ∈ before.store.postings.immutable :=
    fun posting hposting => HashMap.mem_iff_exists_lookup.mpr
      ⟨_, ((mem_postings hwell choice.order).mp hposting).1⟩
  have hrows : rows = (before.store.getPostingsByAccount choice.order account.id (some account.sub)
      none .all).map fun posting =>
        (posting, if posting.id ∈ before.store.postings.active then .active else .spent) := by
    rw [Except.ok.inj hpure, states_of_recorded haccounted.consistent hrecorded,
      ← List.zip_map', List.map_id']
  constructor
  · rw [hrows, List.pairwise_map]
    exact sorted_postings hwell choice.order
  · rintro ⟨posting, state⟩
    rw [hrows, List.mem_map]
    constructor
    · rintro ⟨_, hposting, heq⟩
      cases heq
      obtain ⟨hlookup, howner⟩ := (mem_postings hwell choice.order).mp hposting
      exact ⟨hlookup, howner, rfl⟩
    · rintro ⟨hlookup, howner, hstate⟩
      exact ⟨posting, (mem_postings hwell choice.order).mpr ⟨hlookup, howner⟩,
        congrArg (Prod.mk posting) hstate.symm⟩

theorem postingsWithState_ok {result : Except LedgerError (List (Posting × PostingState))}
    {before after : World} (halone : Alone (Ledger.postingsWithState account) before result after) :
    ∃ rows, result = .ok rows := by
  rcases alone_bind_iff.mp halone with ⟨postings, _, _, hrest⟩ | ⟨err, herror, _⟩
  · rcases alone_bind_iff.mp hrest with ⟨states, _, _, hpure⟩ | ⟨err, herror, _⟩
    · exact ⟨_, (alone_pure_iff.mp hpure).1⟩
    · obtain ⟨_, heq, _⟩ := alone_read_iff.mp herror
      cases heq
  · obtain ⟨_, heq, _⟩ := alone_read_iff.mp herror
    cases heq

theorem mem_history {records : List EnvelopeRecord} {before after : World}
    (halone : Alone (history account) before (.ok records) after) {record : EnvelopeRecord} :
    record ∈ records ↔ ∃ tid, before.store.transfers.lookup tid = some record ∧
      account ∈ before.store.filedUnder tid := by
  obtain ⟨choice, heq, _⟩ := alone_read_iff.mp halone
  cases heq
  rw [(InMemoryStore.getTransfersForAccount_perm choice.order account).mem_iff,
    InMemoryStore.mem_transfersOf]

section Reconciling

variable {rows : List (Posting × PostingState)} {records : List EnvelopeRecord}
  (haccounted : Accounted store) (hindexed : Indexed store)
  (hrows : ∀ row, row ∈ rows ↔ store.postings.immutable.lookup row.1.id = some row.1 ∧
    row.1.owner = account ∧
    row.2 = if row.1.id ∈ store.postings.active then .active else .spent)
  (hrecords : ∀ record, record ∈ records ↔ ∃ tid, store.transfers.lookup tid = some record ∧
    account ∈ store.filedUnder tid)

include haccounted hrows hrecords in
/-- The spent postings are those that the history consumes. -/
theorem spent_iff_consumed {row : Posting × PostingState} (hrow : row ∈ rows) :
    row.1.id ∈ store.postings.active ↔ ∀ record ∈ records, row.1.id ∉ record.envelope.consumes := by
  obtain ⟨hlookup, howner, _⟩ := (hrows row).mp hrow
  have hcreated := (haccounted.consistent.mem_immutable _).mp
    (HashMap.mem_iff_exists_lookup.mpr ⟨_, hlookup⟩)
  rw [haccounted.consistent.mem_active]
  constructor
  · rintro ⟨_, hunspent⟩ record hrecord hconsumes
    obtain ⟨tid, hstored, _⟩ := (hrecords record).mp hrecord
    exact hunspent ⟨tid, record, hstored, hconsumes⟩
  · refine fun hnone => ⟨hcreated, ?_⟩
    rintro ⟨tid, record, hstored, hconsumes⟩
    have hfiled := haccounted.catalogued.consumes tid record hstored _ hconsumes _ hlookup
    rw [howner] at hfiled
    exact hnone record ((hrecords record).mpr ⟨tid, hstored, hfiled⟩) hconsumes

include haccounted hindexed hrows hrecords in
theorem reconciles (hsorted : rows.Pairwise fun first second =>
    first.1.id.sortKey < second.1.id.sortKey) : Reconciles account rows records := by
  have hlength : ∀ tid record, store.transfers.lookup tid = some record →
      record.envelope.creates.length ≤ 65536 :=
    fun _ _ => hindexed.creates_le
  refine ⟨hsorted, fun posting => ?_, fun row hrow => ?_⟩
  · constructor
    · intro hmem
      obtain ⟨row, hrow, rfl⟩ := List.mem_map.mp hmem
      obtain ⟨hlookup, howner, _⟩ := (hrows row).mp hrow
      obtain ⟨record, hstored, hposting⟩ := haccounted.sourced.immutable _ _ hlookup
      obtain ⟨source, hsource, hsame, _⟩ := exists_of_mem_createdPostings hposting
      have hfiled := haccounted.catalogued.creates _ record hstored source hsource
      rw [← hsame, howner] at hfiled
      refine ⟨howner, record, (hrecords record).mpr ⟨_, hstored, hfiled⟩, ?_⟩
      rwa [haccounted.faithful.filed _ record hstored]
    · rintro ⟨howner, record, hrecord, hposting⟩
      obtain ⟨tid, hstored, _⟩ := (hrecords record).mp hrecord
      rw [haccounted.faithful.filed tid record hstored] at hposting
      have hlookup := haccounted.faithful.recorded tid record hstored (hlength tid record hstored)
        posting hposting
      exact List.mem_map.mpr
        ⟨(posting, if posting.id ∈ store.postings.active then .active else .spent),
          (hrows _).mpr ⟨hlookup, howner, rfl⟩, rfl⟩
  · have hactive := spent_iff_consumed haccounted hrows hrecords hrow
    obtain ⟨_, _, hstate⟩ := (hrows row).mp hrow
    by_cases hlive : row.1.id ∈ store.postings.active
    · rw [if_pos hlive] at hstate
      exact .inr ⟨hstate, hactive.mp hlive⟩
    · rw [if_neg hlive] at hstate
      refine .inl ⟨hstate, by_contra fun hnone => hlive (hactive.mpr ?_)⟩
      exact fun record hrecord hconsumes => hnone ⟨record, hrecord, hconsumes⟩

include hrows in
/-- The rows that are not spent are of the active postings. -/
theorem mem_unspent {posting : Posting} : posting ∈ (rows.filter (·.2 ≠ .spent)).map Prod.fst ↔
    store.postings.immutable.lookup posting.id = some posting ∧ posting.owner = account ∧
      posting.id ∈ store.postings.active := by
  simp only [List.mem_map, List.mem_filter, decide_eq_true_eq]
  constructor
  · rintro ⟨row, ⟨hrow, hstate⟩, rfl⟩
    obtain ⟨hlookup, howner, hread⟩ := (hrows row).mp hrow
    refine ⟨hlookup, howner, by_contra fun hspent => hstate ?_⟩
    rwa [if_neg hspent] at hread
  · rintro ⟨hlookup, howner, hactive⟩
    exact ⟨(posting, .active), ⟨(hrows _).mpr ⟨hlookup, howner, (if_pos hactive).symm⟩,
      PostingState.noConfusion⟩, rfl⟩

include haccounted hindexed hrows in
/-- They are the live postings of the account, as their records say what is active. -/
theorem unspent_perm (hsorted : rows.Pairwise fun first second =>
    first.1.id.sortKey < second.1.id.sortKey) (asset : AssetId) :
    (((rows.filter (·.2 ≠ .spent)).map Prod.fst).filter (·.asset = asset)).Perm
      (store.livePostings.filter (·.key = (account, asset))) := by
  have hindexedFor : IndexedFor store account := fun _ _ hstored _ => hindexed.creates_le hstored
  have hids : ((rows.filter (·.2 ≠ .spent)).map Prod.fst).Nodup := by
    rw [List.Nodup, List.pairwise_map]
    refine (hsorted.filter _).imp fun hlt heq => ?_
    rw [heq] at hlt
    exact lt_irrefl _ hlt
  have hlive : store.livePostings.Nodup := by
    rw [InMemoryStore.livePostings_of_reserved haccounted.consistent.reserved]
    exact .of_map _ (HashMap.nodup_map_values haccounted.consistent.active_keyed)
  rw [List.perm_ext_iff_of_nodup (hids.filter _) (hlive.filter _)]
  intro posting
  rw [List.mem_filter, List.mem_filter, mem_unspent hrows,
    InMemoryStore.mem_livePostings haccounted.consistent.reserved]
  simp only [decide_eq_true_eq]
  constructor
  · rintro ⟨⟨hlookup, howner, hactive⟩, hasset⟩
    obtain ⟨live, hlive⟩ := HashMap.mem_iff_exists_lookup.mp hactive
    have hsame := haccounted.eq_recorded hindexedFor hlive hlookup (.inr howner)
    exact ⟨⟨_, hsame ▸ hlive⟩, Prod.ext howner hasset⟩
  · rintro ⟨⟨id, hlive⟩, hkey⟩
    have hid := haccounted.consistent.active_keyed id posting hlive
    have hactive : id ∈ store.postings.active := HashMap.mem_iff_exists_lookup.mpr ⟨_, hlive⟩
    have howner : posting.owner = account := congrArg Prod.fst hkey
    obtain ⟨recorded, hlookup⟩ := haccounted.lookup_recorded hactive
    have hsame := haccounted.eq_recorded hindexedFor hlive hlookup (.inl howner)
    rw [hid]
    exact ⟨⟨hsame ▸ hlookup, howner, hactive⟩, congrArg Prod.snd hkey⟩

include haccounted hindexed hrows in
/-- What is not spent comes to the live balance. -/
theorem unspentTotal_eq (hsorted : rows.Pairwise fun first second =>
    first.1.id.sortKey < second.1.id.sortKey) (asset : AssetId) :
    unspentTotal rows asset = store.liveBalance (account, asset) := by
  have htotal : unspentTotal rows asset = keyTotal Posting.asset Posting.value
      ((rows.filter (·.2 ≠ .spent)).map Prod.fst) asset := (keyTotal_map _ _).symm
  have hperm := unspent_perm haccounted hindexed hrows hsorted asset
  rw [htotal]
  exact (hperm.map fun posting => posting.value.val).sum_eq

end Reconciling

end Statement

/-! ## Balances by subaccount -/

section Subaccounts

variable {store : InMemoryStore} {account : AccountId}

/-- An account that is there and not closed. -/
def InMemoryStore.IsOpen (store : InMemoryStore) (id : AccountId) : Prop :=
  ∃ latest, store.latest id = some latest ∧ latest.isClosed = false

theorem listSubaccounts_alone {subs : List AccountId} {before after : World}
    (hwell : WellFormed before.store)
    (halone : Alone (Ledger.listSubaccounts account) before (.ok subs) after) :
    after.store = before.store ∧
      subs.Pairwise (fun first second => first.sortKey < second.sortKey) ∧
      ∀ id, id ∈ subs ↔ id.id = account.id ∧ before.store.IsOpen id := by
  obtain ⟨accounts, middle, hlist, hpure⟩ := alone_bind_ok_iff.mp halone
  obtain ⟨choice, heq, rfl⟩ := alone_read_iff.mp hlist
  cases heq
  obtain ⟨hsubs, rfl⟩ := alone_pure_iff.mp hpure
  have hsorted : ∀ ids : List AccountId, ids.insertionSort (fun first second => first ≤ second) =
      orderBy AccountId.sortKey ids :=
    fun _ => insertionSort_eq_orderBy fun _ _ => AccountId.le_iff_sortKey
  rw [Except.ok.inj hsubs, hsorted]
  refine ⟨rfl, orderBy_strict ?_, fun id => ?_⟩
  · have hids := InMemoryStore.nodup_listAccounts hwell.versions choice.order
    exact (hids.sublist (List.filter_sublist.map _)).map AccountId.sortKey_injective
  · simp only [mem_orderBy, List.mem_map, List.mem_filter, Bool.and_eq_true, decide_eq_true_eq,
      Bool.not_eq_true', InMemoryStore.mem_listAccounts hwell.versions, InMemoryStore.IsOpen]
    constructor
    · rintro ⟨latest, ⟨hlatest, hbase, hopen⟩, rfl⟩
      exact ⟨hbase, latest, hlatest, hopen⟩
    · rintro ⟨hbase, latest, hlatest, hopen⟩
      have hid : latest.id = id :=
        hwell.versions id latest (InMemoryStore.mem_versions_of_latest hlatest)
      exact ⟨latest, ⟨hid.symm ▸ hlatest, hid ▸ hbase, hopen⟩, hid⟩

/-- One row for each subaccount that is asked for, in the order of the list. -/
theorem readSubaccounts_alone [Sha256] {asset : AssetId} {sub : Option Int64} {subs : List AccountId}
    {start rows : List SubAccountBalance} {before after : World}
    (haccounted : Accounted before.store) (hspends : SpendsOnce before.store)
    (hsound : ∀ id ∈ subs, CacheSound before.store (id, asset) 0)
    (halone : Alone (subs.foldlM (Ledger.readSubaccount asset sub) start) before (.ok rows)
      after) :
    ∃ read, rows = start ++ read ∧
      read.map (·.account) = subs.filter (fun id => !sub.any (id.sub ≠ ·)) ∧
      ∀ row ∈ read, row.value.val = before.store.liveBalance (row.account, asset) := by
  induction subs generalizing start before with
  | nil =>
      obtain ⟨heq, _⟩ := alone_pure_iff.mp halone
      exact ⟨[], by simpa using heq, rfl, fun _ => nofun⟩
  | cons id subs ih =>
      obtain ⟨next, middle, hfirst, hrest⟩ := alone_bind_ok_iff.mp halone
      obtain ⟨hid, hothers⟩ := List.forall_mem_cons.mp hsound
      rw [Ledger.readSubaccount] at hfirst
      by_cases hskipped : sub.any (id.sub ≠ ·) = true
      · rw [if_pos hskipped] at hfirst
        obtain ⟨heq, rfl⟩ := alone_pure_iff.mp hfirst
        rw [List.filter_cons_of_neg (by simpa using hskipped), ← Except.ok.inj heq]
        exact ih haccounted hspends hothers hrest
      · rw [if_neg hskipped] at hfirst
        obtain ⟨value, last, hread, hpure⟩ := alone_bind_ok_iff.mp hfirst
        obtain ⟨heq, rfl⟩ := alone_pure_iff.mp hpure
        have hstore := (balance_readOnly id asset).store_eq hread
        have hvalue := balance_alone hread haccounted hspends hid
        rw [← hstore] at haccounted hspends hothers
        obtain ⟨read, hrows, haccounts, hvalues⟩ := ih haccounted hspends hothers hrest
        rw [hstore] at hvalues
        refine ⟨⟨id, value⟩ :: read, ?_, ?_, List.forall_mem_cons.mpr ⟨hvalue, hvalues⟩⟩
        · rw [hrows, Except.ok.inj heq, List.append_assoc, List.singleton_append]
        · rw [List.filter_cons_of_pos (by simpa using hskipped), List.map_cons, haccounts]

end Subaccounts

/-- In every reachable state whose transfers create at most 65536 postings each, the
statement of an account and its history tell the same story, and what the statement
has unspent is what the balance of the account is computed to be. -/
theorem statement_reconciles [Sha256] [Cbor] (ledger : Ledger) (actions : List ServiceAction)
    (hindexed : Indexed (servedStore ledger actions)) {account : AccountId}
    {before after : World} {statement : Except LedgerError (List (Posting × PostingState))}
    (hbefore : before.store = servedStore ledger actions)
    (hstatement : Alone (Ledger.postingsWithState account) before statement after)
    {start finish : World} {log : Except LedgerError (List EnvelopeRecord)}
    (hstart : start.store = servedStore ledger actions)
    (hlog : Alone (history account) start log finish) :
    ∃ rows records, statement = .ok rows ∧ log = .ok records ∧ Reconciles account rows records ∧
      ∀ asset first last balance, first.store = servedStore ledger actions →
        Alone (computeBalance account asset) first (.ok balance) last →
        balance.val = unspentTotal rows asset := by
  have haccounted : Accounted before.store := hbefore ▸ accounted_served ledger actions
  obtain ⟨rows, rfl⟩ := postingsWithState_ok hstatement
  obtain ⟨choice, rfl, _⟩ := alone_read_iff.mp hlog
  obtain ⟨hsorted, hrows⟩ := mem_statement haccounted hstatement
  have hrecords : ∀ record, record ∈ _ ↔ _ := fun _ => mem_history hlog
  rw [← hbefore] at hindexed
  rw [hstart, ← hbefore] at hrecords ⊢
  refine ⟨rows, _, rfl, rfl, reconciles haccounted hindexed hrows hrecords hsorted, ?_⟩
  intro asset first last balance hfirst hbalance
  have hcompute : Alone (computeBalance (account, asset).1 (account, asset).2) first (.ok balance)
      last := hbalance
  rw [unspentTotal_eq haccounted hindexed hrows hsorted, ← hfirst]
  rcases computeBalance_alone hcompute with ⟨value, hvalue, hexact⟩ | ⟨herror, _⟩
  · cases hvalue
    exact hexact
  · cases herror

/-- The balances of a base account, read alone in a reachable state, are one for each
subaccount that is not closed, in order, each what the subaccount owns. -/
theorem balances_by_subaccount [Sha256] [Cbor] (ledger : Ledger) (actions : List ServiceAction)
    (account : AccountId) (asset : AssetId) (sub : Option Int64)
    (hsound : ∀ id, id.id = account.id → (servedStore ledger actions).IsOpen id →
      CacheSound (servedStore ledger actions) (id, asset) 0)
    {before after : World} {rows : List SubAccountBalance}
    (hbefore : before.store = servedStore ledger actions)
    (halone : Alone (Ledger.balances account asset sub) before (.ok rows) after) :
    rows.Pairwise (fun first second => first.account.sortKey < second.account.sortKey) ∧
      (∀ id, id ∈ rows.map (·.account) ↔ id.id = account.id ∧
        (servedStore ledger actions).IsOpen id ∧ ∀ asked ∈ sub, id.sub = asked) ∧
      ∀ row ∈ rows,
        row.value.val = (servedStore ledger actions).liveBalance (row.account, asset) := by
  have haccounted : Accounted before.store := hbefore ▸ accounted_served ledger actions
  have hspends : SpendsOnce before.store := hbefore ▸ spendsOnce_served ledger actions
  rw [← hbefore] at hsound ⊢
  obtain ⟨subs, middle, hlist, hrest⟩ := alone_bind_ok_iff.mp halone
  obtain ⟨hstore, hsorted, hsubs⟩ := listSubaccounts_alone haccounted.wellFormed hlist
  have hcaches : ∀ id ∈ subs, CacheSound middle.store (id, asset) 0 := fun id hid =>
    hstore ▸ hsound id ((hsubs id).mp hid).1 ((hsubs id).mp hid).2
  rw [← hstore] at haccounted hspends ⊢
  obtain ⟨read, hrows, haccounts, hvalues⟩ := readSubaccounts_alone haccounted hspends hcaches hrest
  rw [List.nil_append] at hrows
  rw [hrows]
  refine ⟨?_, fun id => ?_, hvalues⟩
  · rw [← List.pairwise_map (f := SubAccountBalance.account)
      (R := fun first second => first.sortKey < second.sortKey), haccounts]
    exact hsorted.filter _
  · rw [haccounts, List.mem_filter, hsubs, hstore]
    cases sub <;> simp [and_assoc]

end Theory

section Paid

open Sample

/-- Bob has spent the 5 that he was paid, and keeps a change of 3. -/
theorem statement_reconciles_paidBack : ∃ rows records, Reconciles bob rows records ∧
    rows.map Prod.snd = [.active, .spent] ∧ unspentTotal rows usd = 3 := by
  have hstatement := runs_runWith noon (Ledger.postingsWithState bob).run
    (ServicePool.after ledger (paidOut ++ paidBack)).shared
  have hlog := runs_runWith noon (history bob).run
    (ServicePool.after ledger (paidOut ++ paidBack)).shared
  obtain ⟨rows, records, hrows, -, hreconciles, -⟩ := statement_reconciles ledger
    (paidOut ++ paidBack) (by decide +kernel) rfl hstatement rfl hlog
  have hshown : (runWith noon (Ledger.postingsWithState bob).run
      (ServicePool.after ledger (paidOut ++ paidBack)).shared).1.toOption.any (fun rows =>
        rows.map Prod.snd = [.active, .spent] ∧ unspentTotal rows usd = 3) = true := by
    decide +kernel
  rw [hrows] at hshown
  exact ⟨rows, records, hreconciles, of_decide_eq_true hshown⟩

/-- Bob has a cache point of 0, is paid 4 and pays 1 back, and 5 more are parked for him. -/
@[irreducible] def bobParked : List ServiceAction :=
  inTurn (opening ++ [.ledger (.commit (pay external bob 4)), .ledger (.appendCachePoint bob usd),
    .authorize (pay external bob 5),
    .ledger (.commit { pay bob external 1 with metadata := .single "nonce" (.replicate 32 1) })])

/-- No other account has a cache point. -/
theorem cacheSound_bobParked (id : AccountId) :
    CacheSound (servedStore ledger bobParked) (id, usd) 0 := by
  have hpoints : (∀ point ∈ (servedStore ledger bobParked).pointsOf (bob, usd),
      point.balance.val = changeByAll (servedStore ledger bobParked)
        ((servedStore ledger bobParked).coveredBy bob point) (bob, usd) ∧
      ((servedStore ledger bobParked).tailOf bob point).length < 2 ^ 32) ∧
      (servedStore ledger bobParked).projections.keys = [(bob, usd)] ∧
      Indexed (servedStore ledger bobParked) := by decide +kernel
  obtain ⟨hsound, hkeys, hindexed⟩ := hpoints
  by_cases hid : id = bob
  · rw [hid]
    exact .of_indexed hindexed hsound
  · refine .of_none ?_ 0
    have hnone : (servedStore ledger bobParked).projections.lookup (id, usd) = none := by
      rw [AList.lookup_eq_none, AList.mem_keys, hkeys, List.mem_singleton]
      exact fun heq => hid (congrArg Prod.fst heq)
    rw [InMemoryStore.pointsOf, hnone]
    rfl

/-- Bob and the hold have a row each, and Bob's is read through his cache point. -/
theorem balances_by_subaccount_parked : ∃ rows : List SubAccountBalance,
    rows.map (·.account) = [bob, ⟨3, 5⟩] ∧ rows.map (·.value.val) = [3, 5] ∧
      (servedStore ledger bobParked).pointsOf (bob, usd) ≠ [] ∧
      ∀ row ∈ rows,
        row.value.val = (servedStore ledger bobParked).liveBalance (row.account, usd) := by
  have hruns := runs_runWith noon (Ledger.balances bob usd none).run
    (ServicePool.after ledger bobParked).shared
  have hshown : (runWith noon (Ledger.balances bob usd none).run
      (ServicePool.after ledger bobParked).shared).1.toOption.any (fun rows =>
        rows.map (·.account) = [bob, ⟨3, 5⟩] ∧ rows.map (·.value.val) = [3, 5]) = true ∧
      (servedStore ledger bobParked).pointsOf (bob, usd) ≠ [] := by
    decide +kernel
  obtain ⟨hshown, hpoints⟩ := hshown
  generalize (runWith _ _ _).1 = result at hruns hshown
  cases result with
  | error err => cases hshown
  | ok rows =>
      obtain ⟨haccounts, hvalues⟩ := of_decide_eq_true hshown
      obtain ⟨_, _, hlive⟩ := balances_by_subaccount ledger bobParked bob usd none
        (fun id _ _ => cacheSound_bobParked id) rfl hruns
      exact ⟨rows, haccounts, hvalues, hpoints, hlive⟩

end Paid

end Kuatia
