import Kuatia.Ledger.Instants
import Kuatia.SqlStore.LedgerTables
import Kuatia.SqlStore.Simulation

/-! # The stores agree on accounts

The versions of an account come in an ascending order that both stores keep. As long
as no version comes near the end of the `i64` range, where the SQL store keeps it, the
two stores answer every call about accounts alike, and a transition has the same
outcome in both if the SQL store finds a number for its event.
-/

namespace Kuatia

open Sql

/-- Reading rows each of which is read as the value that it stands for. -/
theorem mapM_eq_filterMap {Row Value Err : Type} {read : Row → Except Err Value}
    {valueOf : Row → Option Value} {rows : List Row}
    (hread : ∀ row ∈ rows, ∃ value, valueOf row = some value ∧ read row = .ok value) :
    rows.mapM read = .ok (rows.filterMap valueOf) := by
  induction rows with
  | nil => rfl
  | cons row rows ih =>
      obtain ⟨⟨value, hvalue, hok⟩, hrest⟩ := List.forall_mem_cons.mp hread
      rw [List.mapM_cons, hok, ih hrest, List.filterMap_cons, hvalue]
      rfl

/-- A number that is not too large is the same in its column. -/
theorem toInt_toInt64 {number : UInt64} (hsmall : number.toNat < 2 ^ 63) :
    number.toInt64.toInt = number.toNat := by
  refine BitVec.toInt_eq_toNat_of_lt ?_
  change 2 * number.toNat < 2 ^ 64
  omega

variable [MoneyWidth] [Json]

/-! ## Accounts -/

/-- The versions of every account are numbered upwards and fit the columns. -/
structure Chained (memory : InMemoryStore) : Prop where
  known : ∀ id ∈ memory.accounts, memory.versions id ≠ []
  ascending : Ascending memory
  small : ∀ id, ∀ account ∈ memory.versions id, account.version.toNat + 1 < 2 ^ 63

omit [Json] in
theorem chained_new : Chained InMemoryStore.new where
  known _ hid := absurd hid (AList.notMem_empty _)
  ascending _ := .nil
  small _ _ haccount := absurd haccount List.not_mem_nil

section Accounts

variable {store : SqlStore} {memory : InMemoryStore} {id : AccountId}

omit [Json] in
theorem Chained.congr {after : InMemoryStore} (hchained : Chained memory)
    (haccounts : after.accounts = memory.accounts) : Chained after := by
  have hversions : after.versions = memory.versions := by
    funext id
    rw [InMemoryStore.versions, haccounts]
    rfl
  constructor
  · rw [haccounts, hversions]
    exact hchained.known
  · rw [Ascending, hversions]
    exact hchained.ascending
  · rw [hversions]
    exact hchained.small

theorem SameAccounts.getAccount (hsame : SameAccounts store memory) (id : AccountId) :
    store.getAccount id = memory.getAccount id := by
  rw [SqlStore.getAccount, hsame.lockedAccount, InMemoryStore.getAccount]
  cases memory.latest id <;> rfl

theorem SameAccounts.getAccounts (hsame : SameAccounts store memory) (ids : List AccountId) :
    store.getAccounts ids = memory.getAccounts ids := by
  have hget : store.getAccount = memory.getAccount := funext hsame.getAccount
  rw [SqlStore.getAccounts, hget, InMemoryStore.getAccounts]

/-- The rows of an account are those of its versions. -/
theorem SameAccounts.select_perm (hsame : SameAccounts store memory) (hchained : Chained memory)
    (id : AccountId) :
    ((memory.versions id).map Account.toRow).Perm
      (store.accounts.select fun row => row.id = id.id && row.subaccount = id.sub) := by
  have hinjective : Function.Injective Account.toRow := by
    intro first second heq
    have hread := congrArg rowToAccount heq
    rw [rowToAccount_toRow, rowToAccount_toRow] at hread
    exact Except.ok.inj hread
  have hnodup : (memory.versions id).Nodup :=
    (hchained.ascending id).imp fun hlt heq => UInt64.ne_of_lt hlt (congrArg Account.version heq)
  rw [Table.select, List.perm_ext_iff_of_nodup (hnodup.map hinjective)
    ((List.Nodup.of_map _ store.accounts.nodup).filter _)]
  intro row
  rw [List.mem_map, List.mem_filter, hsame.versions]
  constructor
  · rintro ⟨account, haccount, rfl⟩
    refine ⟨⟨id, account, haccount, rfl⟩, ?_⟩
    simp [Account.toRow, hsame.keyed id account haccount]
  · rintro ⟨⟨other, account, haccount, rfl⟩, hmatches⟩
    simp only [Account.toRow, hsame.keyed other account haccount, Bool.and_eq_true,
      decide_eq_true_eq] at hmatches
    have hother : other = id := AccountId.key_inj.mp (Prod.ext hmatches.1 hmatches.2)
    exact ⟨account, hother ▸ haccount, rfl⟩

theorem SameAccounts.getAccountHistory (hsame : SameAccounts store memory)
    (hchained : Chained memory) (id : AccountId) :
    store.getAccountHistory id = memory.getAccountHistory id := by
  have hsorted : ((memory.versions id).map Account.toRow).Pairwise (·.version < ·.version) := by
    rw [List.pairwise_map]
    refine (hchained.ascending id).imp_of_mem fun {first second} hfirst hsecond hlt => ?_
    have hfirst := hchained.small id first hfirst
    have hsecond := hchained.small id second hsecond
    change first.version.toInt64 < second.version.toInt64
    rw [UInt64.lt_iff_toNat_lt] at hlt
    rw [Int64.lt_iff_toInt_lt, toInt_toInt64 (by omega), toInt_toInt64 (by omega)]
    omega
  rw [SqlStore.getAccountHistory, orderBy_eq_of_perm hsorted (hsame.select_perm hchained id),
    InMemoryStore.getAccountHistory]
  cases hlookup : memory.accounts.lookup id with
  | none =>
      rw [InMemoryStore.versions, hlookup]
      rfl
  | some versions =>
      have hversions : memory.versions id = versions := by rw [InMemoryStore.versions, hlookup]; rfl
      have hsome := hchained.known id (HashMap.mem_iff_exists_lookup.mpr ⟨versions, hlookup⟩)
      rw [hversions] at hsome ⊢
      dsimp only
      rw [if_neg (by simpa using hsome), List.mapM_eq_ok_iff_map, List.map_map]
      exact List.map_congr_left fun account _ => rowToAccount_toRow account

/-- What a head stands for. -/
def InMemoryStore.ofHead (memory : InMemoryStore) (head : AccountHeadRow) : Option Account :=
  memory.latest ⟨head.id, head.subaccount⟩

theorem SameAccounts.ofHead (hsame : SameAccounts store memory) {head : AccountHeadRow}
    (hhead : head ∈ store.accountHead.rows) : ∃ account, memory.ofHead head = some account ∧
      account.toHead = head ∧
      store.accounts.lookup (head.id, head.subaccount, head.version) = some account.toRow := by
  have hlookup := hsame.head ⟨head.id, head.subaccount⟩
  rw [show (⟨head.id, head.subaccount⟩ : AccountId).key = head.key from rfl,
    Table.lookup_of_mem hhead] at hlookup
  obtain ⟨account, hlatest, rfl⟩ := Option.map_eq_some_iff.mp hlookup.symm
  exact ⟨account, hlatest, rfl, Table.lookup_of_mem ((hsame.versions _).mpr
    ⟨_, account, InMemoryStore.mem_versions_of_latest hlatest, rfl⟩)⟩

theorem SameAccounts.listAccounts_eq (hsame : SameAccounts store memory) (order : IterationOrder) :
    store.listAccounts order =
      .ok ((order.arrange store.accountHead.rows).filterMap memory.ofHead) := by
  have hjoined : ∀ head ∈ order.arrange store.accountHead.rows,
      store.accounts.lookup (head.id, head.subaccount, head.version) =
        (memory.ofHead head).map Account.toRow := by
    intro head hhead
    obtain ⟨account, hlatest, _, hrow⟩ := hsame.ofHead (order.mem_arrange.mp hhead)
    rw [hlatest, hrow]
    rfl
  rw [SqlStore.listAccounts, List.filterMap_congr hjoined, ← List.map_filterMap,
    List.mapM_eq_ok_iff_map, List.map_map]
  exact List.map_congr_left fun account _ => rowToAccount_toRow account

theorem SameAccounts.listAccounts_perm (hsame : SameAccounts store memory)
    (order other : IterationOrder) :
    ((order.arrange store.accountHead.rows).filterMap memory.ofHead).Perm
      (memory.listAccounts other) := by
  have hnodup : (memory.listAccounts other).Nodup :=
    .of_map _ (InMemoryStore.nodup_listAccounts hsame.keyed other)
  have hheads : ((order.arrange store.accountHead.rows).filterMap memory.ofHead).map
      Account.toHead = order.arrange store.accountHead.rows := by
    rw [List.map_filterMap]
    refine (List.filterMap_congr fun head hhead => ?_).trans List.filterMap_some
    obtain ⟨account, hlatest, hsome, _⟩ := hsame.ofHead (order.mem_arrange.mp hhead)
    rw [hlatest, Option.map_some, hsome]
  have hdistinct : (order.arrange store.accountHead.rows).Nodup :=
    (order.arrange_perm _).nodup_iff.mpr (.of_map _ store.accountHead.nodup)
  rw [List.perm_ext_iff_of_nodup (.of_map Account.toHead (by rwa [hheads])) hnodup]
  intro account
  rw [InMemoryStore.mem_listAccounts hsame.keyed, List.mem_filterMap]
  constructor
  · rintro ⟨head, _, hfound⟩
    have hid := hsame.keyed _ account (InMemoryStore.mem_versions_of_latest hfound)
    rwa [hid]
  · intro hlatest
    have hlookup := hsame.head account.id
    rw [hlatest] at hlookup
    exact ⟨account.toHead, order.mem_arrange.mpr (Table.lookup_eq_some_iff.mp hlookup).1, hlatest⟩

/-! ## Writing accounts -/

omit [Json] in
theorem Chained.createAccount (hchained : Chained memory) {account : Account}
    (hsmall : account.version.toNat + 1 < 2 ^ 63) :
    Chained (memory.createAccount account).2 := by
  by_cases hnew : account.id ∈ memory.accounts
  · rwa [InMemoryStore.createAccount, if_pos hnew]
  · have hversions : ∀ id, (memory.createAccount account).2.versions id =
        if id = account.id then [account] else memory.versions id := by
      intro id
      rw [InMemoryStore.createAccount, if_neg hnew, InMemoryStore.versions,
        HashMap.lookup_insert_eq]
      split <;> rfl
    constructor
    · intro id hid
      rw [InMemoryStore.createAccount, if_neg hnew, AList.mem_insert] at hid
      rw [hversions]
      split
      next => exact List.cons_ne_nil _ _
      next hne => exact hchained.known id (hid.resolve_left hne)
    · intro id
      rw [hversions]
      split
      next => exact List.pairwise_singleton _ _
      next => exact hchained.ascending id
    · intro id other hother
      rw [hversions] at hother
      split at hother
      next => exact List.mem_singleton.mp hother ▸ hsmall
      next => exact hchained.small id other hother

/-- The account with one more version. -/
def InMemoryStore.extend (account : Account) (memory : InMemoryStore) : InMemoryStore :=
  { memory with
    accounts := memory.accounts.insert account.id (memory.versions account.id ++ [account]) }

omit [Json] in
theorem InMemoryStore.versions_extend (account : Account) (memory : InMemoryStore)
    (id : AccountId) : (memory.extend account).versions id =
      if id = account.id then memory.versions account.id ++ [account] else memory.versions id := by
  rw [extend, versions, HashMap.lookup_insert_eq]
  split <;> rfl

section Extending

variable {account current : Account}

omit [MoneyWidth] [Json] in
/-- The number of the next version. -/
theorem toNat_next {next : Account} (hroom : current.version.toNat + 1 < 2 ^ 63)
    (hnext : next.version = current.version + 1) :
    next.version.toNat = current.version.toNat + 1 := by
  rw [hnext, UInt64.toNat_add, UInt64.toNat_one, Nat.mod_eq_of_lt (by omega)]

omit [Json] in
theorem Chained.extend (hchained : Chained memory)
    (hlatest : memory.latest account.id = some current)
    (hnumber : account.version.toNat = current.version.toNat + 1)
    (hsmall : account.version.toNat + 1 < 2 ^ 63) : Chained (memory.extend account) := by
  constructor
  · intro id hid
    rw [InMemoryStore.extend, AList.mem_insert] at hid
    rw [InMemoryStore.versions_extend]
    split
    next => simp
    next hne => exact hchained.known id (hid.resolve_left hne)
  · intro id
    rw [InMemoryStore.versions_extend]
    split
    next =>
      refine List.pairwise_append.mpr ⟨hchained.ascending _, List.pairwise_singleton _ _,
        fun other hother next hnext => ?_⟩
      have hle := UInt64.le_iff_toNat_le.mp (hchained.ascending.version_le hlatest hother)
      rw [List.mem_singleton.mp hnext, UInt64.lt_iff_toNat_lt]
      omega
    next => exact hchained.ascending id
  · intro id other hother
    rw [InMemoryStore.versions_extend] at hother
    split at hother
    next =>
      rcases List.mem_append.mp hother with hold | hlast
      · exact hchained.small _ other hold
      · exact List.mem_singleton.mp hlast ▸ hsmall
    next => exact hchained.small id other hother

/-- No row has the number of the version that comes next. -/
theorem SameAccounts.lookup_next (hsame : SameAccounts store memory) (hchained : Chained memory)
    (hlatest : memory.latest account.id = some current)
    (hnumber : account.version.toNat = current.version.toNat + 1) :
    store.accounts.lookup account.toRow.key = none := by
  rw [Table.lookup_eq_none_iff]
  intro hmem
  obtain ⟨row, hrow, hkey⟩ := List.mem_map.mp hmem
  obtain ⟨id, other, hother, rfl⟩ := (hsame.versions row).mp hrow
  obtain ⟨hid, hrest⟩ := Prod.mk.inj hkey
  obtain ⟨hsub, hversion⟩ := Prod.mk.inj hrest
  have hsameId : other.id = account.id := AccountId.key_inj.mp (Prod.ext hid hsub)
  have hsameVersion : other.version = account.version := by
    have hcolumns : other.version.toInt64 = account.version.toInt64 := hversion
    rw [← UInt64.toUInt64_toInt64 other.version, hcolumns, UInt64.toUInt64_toInt64]
  have hle := hchained.ascending.version_le hlatest
    (hsameId ▸ (hsame.keyed id other hother).symm ▸ hother)
  rw [hsameVersion, UInt64.le_iff_toNat_le] at hle
  omega

theorem SameAccounts.extend (hsame : SameAccounts store memory)
    (hfree : store.accounts.lookup account.toRow.key = none) :
    SameAccounts
      ({ store with accounts := (store.accounts.insertIgnore account.toRow).2 }.moveHead account)
      (memory.extend account) := by
  constructor
  · intro row
    change row ∈ (store.accounts.insertIgnore account.toRow).2.rows ↔ _
    rw [Table.mem_insertIgnore_of_free hfree, hsame.versions]
    simp only [InMemoryStore.versions_extend]
    constructor
    · rintro (rfl | ⟨id, other, hother, rfl⟩)
      · exact ⟨account.id, account, by simp, rfl⟩
      · refine ⟨id, other, ?_, rfl⟩
        split
        next heq => exact List.mem_append_left _ (heq ▸ hother)
        next => exact hother
    · rintro ⟨id, other, hother, rfl⟩
      split at hother
      next =>
        rcases List.mem_append.mp hother with hold | hlast
        · exact .inr ⟨_, other, hold, rfl⟩
        · exact .inl (congrArg _ (List.mem_singleton.mp hlast))
      next => exact .inr ⟨id, other, hother, rfl⟩
  · intro id
    have hkey : id.key = account.toHead.key ↔ id = account.id := AccountId.key_inj
    simp only [SqlStore.moveHead]
    rw [Table.lookup_insertIgnore, Table.lookup_deleteWhere, InMemoryStore.latest,
      InMemoryStore.versions_extend]
    simp only [hkey]
    by_cases hid : id = account.id
    · rw [if_pos hid, if_pos hid, List.getLast?_concat, Option.map_some]
      have hdeleted : (store.accountHead.lookup id.key).filter (fun head =>
          !decide (head.key = account.id.key)) = none := by
        rw [Option.filter_eq_none_iff]
        intro head hhead
        have hheadKey := (Table.lookup_eq_some_iff.mp hhead).2
        simp [hheadKey, hid]
      rw [hdeleted, Option.none_or]
    · rw [if_neg hid, if_neg hid, Option.or_none, ← InMemoryStore.latest, ← hsame.head]
      cases hlookup : store.accountHead.lookup id.key with
      | none => rfl
      | some head =>
          have hheadKey := (Table.lookup_eq_some_iff.mp hlookup).2
          simp [Option.filter, hheadKey, AccountId.key_inj, hid]
  · intro id other hother
    rw [InMemoryStore.versions_extend] at hother
    split at hother
    next heq =>
      rcases List.mem_append.mp hother with hold | hlast
      · exact heq ▸ hsame.keyed _ other hold
      · rw [List.mem_singleton.mp hlast, heq]
    next => exact hsame.keyed id other hother

/-- An account that has a head is extended by the version that comes next. -/
theorem SqlStore.appendAccountVersion_eq (hhead : store.accountHead.lookup account.id.key =
    some current.toHead) (hroom : current.version.toNat + 1 < 2 ^ 63)
    (hfree : account.version = current.version + 1 →
      store.accounts.lookup account.toRow.key = none) :
    store.appendAccountVersion account = if account.version = current.version + 1 then
      (.ok 1, { store with accounts := (store.accounts.insertIgnore account.toRow).2 }.moveHead
        account) else (.ok 0, store) := by
  have hnext : account.version.toInt64 = current.toHead.version + 1 ↔
      account.version = current.version + 1 := by
    change _ = (current.version + 1).toInt64 ↔ _
    constructor
    · intro heq
      rw [← UInt64.toUInt64_toInt64 account.version, heq, UInt64.toUInt64_toInt64]
    · exact congrArg _
  have hfits : ¬current.toHead.version.toInt + 1 = 2 ^ 63 := by
    rw [Account.toHead, toInt_toInt64 (by omega)]
    omega
  rw [SqlStore.appendAccountVersion, hhead]
  dsimp only
  rw [if_neg hfits]
  by_cases hversion : account.version = current.version + 1
  · rw [if_neg (not_not.mpr (hnext.mpr hversion)), if_pos hversion, Table.insertIgnore_count,
      hfree hversion]
    rfl
  · rw [if_pos (mt hnext.mp hversion), if_neg hversion]

omit [Json] in
theorem InMemoryStore.appendAccountVersion_eq (hlatest : memory.latest account.id = some current)
    (hroom : current.version.toNat + 1 < 2 ^ 63) :
    memory.appendAccountVersion account = if account.version = current.version + 1 then
      (.ok 1, memory.extend account) else (.ok 0, memory) := by
  unfold appendAccountVersion InMemoryStore.extend
  rw [latest, versions] at hlatest
  rw [versions]
  cases hlookup : memory.accounts.lookup account.id with
  | none =>
      rw [hlookup] at hlatest
      cases hlatest
  | some versions =>
      have hlast : versions.getLast? = some current := by rwa [hlookup] at hlatest
      simp only [hlast, Option.map_some, Option.getD_some]
      rw [if_neg (by omega), ite_not]

omit [Json] in
/-- An account without a version is no account. -/
theorem Chained.lookup_of_latest {id : AccountId} (hchained : Chained memory)
    (hlatest : memory.latest id = none) : memory.accounts.lookup id = none := by
  by_contra hknown
  have hsome := hchained.known _ (AList.lookup_isSome.mp (Option.isSome_iff_ne_none.mpr hknown))
  exact hsome (List.getLast?_eq_none_iff.mp hlatest)

theorem SameAccounts.appendAccountVersion (hsame : SameAccounts store memory)
    (hchained : Chained memory) (hsmall : account.version.toNat + 1 < 2 ^ 63) :
    (store.appendAccountVersion account).1 = (memory.appendAccountVersion account).1 ∧
      SameAccounts (store.appendAccountVersion account).2
        (memory.appendAccountVersion account).2 ∧
      Chained (memory.appendAccountVersion account).2 := by
  have hhead := hsame.head account.id
  cases hlatest : memory.latest account.id with
  | none =>
      rw [hlatest] at hhead
      rw [SqlStore.appendAccountVersion, hhead, InMemoryStore.appendAccountVersion,
        hchained.lookup_of_latest hlatest]
      exact ⟨rfl, hsame, hchained⟩
  | some current =>
      rw [hlatest] at hhead
      have hroom := hchained.small _ current (InMemoryStore.mem_versions_of_latest hlatest)
      have hnumber : account.version = current.version + 1 → _ := toNat_next hroom
      have hfree := fun hversion => hsame.lookup_next hchained hlatest (hnumber hversion)
      rw [SqlStore.appendAccountVersion_eq hhead hroom hfree,
        InMemoryStore.appendAccountVersion_eq hlatest hroom]
      split
      next hversion =>
        exact ⟨rfl, hsame.extend (hfree hversion),
          hchained.extend hlatest (hnumber hversion) hsmall⟩
      next => exact ⟨rfl, hsame, hchained⟩

/-! ## Transitions -/

omit [Json] in
theorem InMemoryStore.commitTransition_eq (hlatest : memory.latest account.id = some current)
    (clock : Clock) (event : LedgerEvent) :
    memory.commitTransition clock account event =
      if current.isClosed then (.ok (.rejected (.alreadyClosed account.id)), memory)
      else if account.version ≤ current.version then
        (.ok .alreadyApplied, memory.appendEventLocked clock event)
      else if current.version.toNat + 1 = 2 ^ 64 then
        (.error (.internal "account version overflow"), memory)
      else if account.version ≠ current.version + 1 then
        (.ok (.rejected (.versionConflict account.id account.version)), memory)
      else (.ok .applied, (memory.extend account).appendEventLocked clock event) := by
  unfold commitTransition InMemoryStore.extend
  rw [latest, versions] at hlatest
  rw [versions]
  cases hlookup : memory.accounts.lookup account.id with
  | none =>
      rw [hlookup] at hlatest
      cases hlatest
  | some versions =>
      have hlast : versions.getLast? = some current := by rwa [hlookup] at hlatest
      simp only [hlast, Option.getD_some]

/-- The number that an event gets is free or not whatever was written to other tables. -/
theorem SqlStore.NumberFree.appended {clock : Clock} {event : LedgerEvent}
    (hfree : store.NumberFree clock event) (written : SqlStore)
    (hevents : written.events = store.events) (hautoid : written.autoid = store.autoid) :
    ∃ events autoid, written.appendEventTx clock event = .ok { written with events, autoid } := by
  rcases appendEventTx_cases written clock event with ⟨_, happended⟩ | ⟨htaken, _⟩
  · exact happended
  · rw [SqlStore.NumberFree, hevents, hautoid] at htaken
    exact absurd hfree htaken

theorem SameAccounts.commitTransition (hsame : SameAccounts store memory)
    (hchained : Chained memory) (hsmall : account.version.toNat + 1 < 2 ^ 63)
    {sqlClock : Clock} {event : LedgerEvent} (hfree : store.NumberFree sqlClock event)
    (clock : Clock) :
    (store.commitTransition sqlClock account event).1 =
        (memory.commitTransition clock account event).1 ∧
      SameAccounts (store.commitTransition sqlClock account event).2
        (memory.commitTransition clock account event).2 ∧
      Chained (memory.commitTransition clock account event).2 := by
  cases hlatest : memory.latest account.id with
  | none =>
      rw [SqlStore.commitTransition, hsame.lockedAccount, hlatest,
        InMemoryStore.commitTransition, hchained.lookup_of_latest hlatest]
      exact ⟨rfl, hsame, hchained⟩
  | some current =>
      have hroom := hchained.small _ current (InMemoryStore.mem_versions_of_latest hlatest)
      rw [SqlStore.commitTransition, hsame.lockedAccount, hlatest,
        InMemoryStore.commitTransition_eq hlatest]
      dsimp only
      split
      next => exact ⟨rfl, hsame, hchained⟩
      next =>
        split
        next =>
          obtain ⟨events, autoid, happended⟩ := hfree.appended store rfl rfl
          rw [happended]
          exact ⟨rfl, hsame.congr rfl rfl (InMemoryStore.appendEventLocked_accounts ..),
            hchained.congr (InMemoryStore.appendEventLocked_accounts ..)⟩
        next =>
          have hfits : ¬current.version.toNat + 1 = 2 ^ 64 := by omega
          rw [if_neg hfits, if_neg hfits]
          split
          next => exact ⟨rfl, hsame, hchained⟩
          next hnext =>
            have hnumber := toNat_next hroom (not_not.mp hnext)
            obtain ⟨events, autoid, happended⟩ := hfree.appended
              ({ store with accounts := (store.accounts.insertIgnore account.toRow).2 }.moveHead
                account) rfl rfl
            rw [happended]
            have hextended := hsame.extend (hsame.lookup_next hchained hlatest hnumber)
            exact ⟨rfl, hextended.congr rfl rfl (InMemoryStore.appendEventLocked_accounts ..),
              (hchained.extend hlatest hnumber hsmall).congr
                (InMemoryStore.appendEventLocked_accounts ..)⟩

end Extending

end Accounts

end Kuatia
