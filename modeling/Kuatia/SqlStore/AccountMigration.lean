import Kuatia.Sql.InsertSelect
import Kuatia.SqlStore.Sample
import Kuatia.SqlStore.Store

/-! # From a policy column to a flag

Migration 005 points a head at the latest version of each account. Migration 006
drops the policy of every version: whether an account may be overdrawn is then
read off its flags, which the migration leaves as they are.
-/

namespace Kuatia

open Sql

section Upgrade

variable [MoneyWidth] [Json]

/-- The policies that an account could have. Only the first one forbids overdraft. -/
inductive AccountPolicy where
  | noOverdraft
  | cappedOverdraft (floor : Cent)
  | uncappedOverdraft
  | systemAccount
  | externalAccount
  deriving DecidableEq

/-- A row of `accounts` before migration 006. -/
structure AccountPolicyRow where
  row : AccountRow
  policy : AccountPolicy

def AccountPolicyRow.key (old : AccountPolicyRow) : Int64 × Int64 × Int64 := old.row.key

/-- `NOT EXISTS (.. b.id = a.id AND b.subaccount = a.subaccount AND b.version > a.version)` -/
def isLatest (rows : List AccountPolicyRow) (old : AccountPolicyRow) : Bool :=
  !rows.any fun other => other.row.id = old.row.id && other.row.subaccount = old.row.subaccount &&
    old.row.version < other.row.version

def migration005 (accounts : Table AccountPolicyRow.key) : Option (Table AccountHeadRow.key) :=
  Table.empty.insertAll ((accounts.select (isLatest accounts.rows)).map fun old =>
    ⟨old.row.id, old.row.subaccount, old.row.version⟩)

def migration006 (accounts : Table AccountPolicyRow.key) : Table AccountRow.key where
  rows := accounts.rows.map (·.row)
  nodup := by
    rw [List.map_map]
    exact accounts.nodup

def upgradeAccounts (accounts : Table AccountPolicyRow.key) (store : SqlStore) : Option SqlStore :=
  (migration005 accounts).map fun accountHead =>
    { store with accounts := migration006 accounts, accountHead }

/-- The current version of an account. -/
def SqlStore.getAccount (store : SqlStore) (id : AccountId) : Except StoreError Account :=
  match store.lockedAccount id with
  | .ok (some account) => .ok account
  | .ok none => .error (.notFound s!"account {id.debug}")
  | .error err => .error err

/-! ## The heads -/

variable {accounts : Table AccountPolicyRow.key}

/-- The version under the head is at least that of any row of the account. -/
theorem version_le_of_isLatest {rows : List AccountPolicyRow} {old other : AccountPolicyRow}
    (hlatest : isLatest rows old = true) (hother : other ∈ rows) (hid : other.row.id = old.row.id)
    (hsub : other.row.subaccount = old.row.subaccount) : other.row.version ≤ old.row.version := by
  rw [isLatest, Bool.not_eq_true', List.any_eq_false] at hlatest
  have hnot := hlatest other hother
  simp only [hid, hsub, decide_true, Bool.and_self, Bool.true_and, decide_eq_true_eq] at hnot
  exact Int64.not_lt.mp hnot

/-- An account has one latest version. -/
theorem latest_unique {first second : AccountPolicyRow} (hfirst : first ∈ accounts.rows)
    (hsecond : second ∈ accounts.rows) (hfirstLatest : isLatest accounts.rows first = true)
    (hsecondLatest : isLatest accounts.rows second = true) (hid : first.row.id = second.row.id)
    (hsub : first.row.subaccount = second.row.subaccount) : first = second := by
  have hversion : first.row.version = second.row.version :=
    Int64.le_antisymm (version_le_of_isLatest hsecondLatest hfirst hid hsub)
      (version_le_of_isLatest hfirstLatest hsecond hid.symm hsub.symm)
  apply List.inj_on_of_nodup_map accounts.nodup hfirst hsecond
  exact Prod.ext hid (Prod.ext hsub hversion)

theorem nodup_heads (accounts : Table AccountPolicyRow.key) :
    (((accounts.select (isLatest accounts.rows)).map fun old =>
      AccountHeadRow.mk old.row.id old.row.subaccount old.row.version).map
        AccountHeadRow.key).Nodup := by
  rw [List.map_map]
  have hnodup : (accounts.select (isLatest accounts.rows)).Nodup :=
    (List.Nodup.of_map _ accounts.nodup).filter _
  apply List.Nodup.map_on _ hnodup
  intro first hfirst second hsecond heq
  obtain ⟨hfirstMem, hfirstLatest⟩ := List.mem_filter.mp hfirst
  obtain ⟨hsecondMem, hsecondLatest⟩ := List.mem_filter.mp hsecond
  obtain ⟨hid, hsub⟩ := Prod.ext_iff.mp heq
  exact latest_unique hfirstMem hsecondMem hfirstLatest hsecondLatest hid hsub

theorem upgradeAccounts_eq_some (accounts : Table AccountPolicyRow.key) (before : SqlStore) :
    upgradeAccounts accounts before = some { before with
      accounts := migration006 accounts
      accountHead := ⟨_, nodup_heads accounts⟩ } := by
  rw [upgradeAccounts, migration005, Table.empty_insertAll (nodup_heads accounts)]
  rfl

/-- A version is found under its key, without its policy. -/
theorem lookup_migration006 {old : AccountPolicyRow} (hold : old ∈ accounts.rows) :
    (migration006 accounts).lookup old.key = some old.row :=
  Table.lookup_of_mem (List.mem_map_of_mem hold)

/-- After the upgrade an account is read from its latest version. -/
theorem getAccount_upgraded {before store : SqlStore} {id : AccountId} {account : Account}
    (hupgrade : upgradeAccounts accounts before = some store)
    (hread : store.getAccount id = .ok account) :
    ∃ old ∈ accounts.rows, isLatest accounts.rows old = true ∧ old.row.id = id.id ∧
      old.row.subaccount = id.sub ∧ rowToAccount old.row = .ok account := by
  rw [upgradeAccounts_eq_some] at hupgrade
  cases hupgrade
  rw [SqlStore.getAccount, SqlStore.lockedAccount] at hread
  cases hhead : (⟨_, nodup_heads accounts⟩ : Table AccountHeadRow.key).lookup id.key with
  | none =>
      rw [hhead] at hread
      cases hread
  | some head =>
      obtain ⟨hmem, hkey⟩ := Table.lookup_eq_some_iff.mp hhead
      obtain ⟨old, hold, rfl⟩ := List.mem_map.mp hmem
      obtain ⟨holdMem, hlatest⟩ := List.mem_filter.mp hold
      obtain ⟨hid, hsub⟩ := Prod.ext_iff.mp hkey
      refine ⟨old, holdMem, hlatest, hid, hsub, ?_⟩
      have hrow : (migration006 accounts).lookup
          (old.row.id, old.row.subaccount, old.row.version) = some old.row :=
        lookup_migration006 holdMem
      simp only [hhead, Option.bind_some, hrow] at hread
      cases hdecoded : rowToAccount old.row with
      | error err =>
          rw [hdecoded] at hread
          cases hread
      | ok decoded =>
          rw [hdecoded] at hread
          cases hread
          rfl

/-! ## The constraint -/

def AccountPolicy.forbidsOverdraft : AccountPolicy → Bool
  | .noOverdraft => true
  | _ => false

/-- The least balance that the policy allows. -/
def AccountPolicy.floor : AccountPolicy → Option Cent
  | .noOverdraft => some .ZERO
  | .cappedOverdraft floor => some floor
  | .uncappedOverdraft | .systemAccount | .externalAccount => none

/-- The least balance that the flags of the account allow. -/
def Account.floor (account : Account) : Option Cent :=
  if account.forbidsOverdraft then some .ZERO else none

/-- The account forbids overdraft if and only if the policy does, and has the same floor. -/
structure Account.Keeps (account : Account) (policy : AccountPolicy) : Prop where
  overdraft : account.forbidsOverdraft = policy.forbidsOverdraft
  floor : account.floor = policy.floor

omit [Json] in
/-- Flags keep every policy but a credit line, which has a floor of its own. -/
theorem Account.keeps_iff {account : Account} {policy : AccountPolicy} :
    account.Keeps policy ↔ account.forbidsOverdraft = policy.forbidsOverdraft ∧
      ∀ floor, policy ≠ .cappedOverdraft floor := by
  constructor
  · rintro ⟨hoverdraft, hfloor⟩
    refine ⟨hoverdraft, ?_⟩
    rintro floor rfl
    rw [Account.floor, hoverdraft] at hfloor
    cases hfloor
  · rintro ⟨hoverdraft, hcapped⟩
    refine ⟨hoverdraft, ?_⟩
    rw [Account.floor, hoverdraft]
    cases policy with
    | cappedOverdraft floor => exact absurd rfl (hcapped floor)
    | _ => rfl

/-- What is read back keeps the policy that was stored: every version, and the
current one of each account. -/
structure FloorsKept (accounts : Table AccountPolicyRow.key) (store : SqlStore) : Prop where
  versions : ∀ old ∈ accounts.rows, ∀ row account, store.accounts.lookup old.key = some row →
    rowToAccount row = .ok account → account.Keeps old.policy
  current : ∀ old ∈ accounts.rows, isLatest accounts.rows old = true →
    ∀ account, store.getAccount ⟨old.row.id, old.row.subaccount⟩ = .ok account →
      account.Keeps old.policy

/-- The flag bit of the row is set. -/
def AccountRow.hasFloorBit (row : AccountRow) : Bool := row.flags.toUInt32.toBitVec.getLsbD 3

theorem forbidsOverdraft_of_rowToAccount {row : AccountRow} {account : Account}
    (hread : rowToAccount row = .ok account) : account.forbidsOverdraft = row.hasFloorBit := by
  obtain ⟨metadata, _, hdecoded⟩ := Except.bind_eq_ok_iff.mp hread
  cases hdecoded
  have hbit := BitVec.and_twoPow row.flags.toUInt32.toBitVec 3
  have hmask : AccountFlags.DEBIT_MUST_NOT_EXCEED_CREDIT.bits.toBitVec = BitVec.twoPow 32 3 := by
    decide
  have hzero : BitVec.twoPow 32 3 ≠ 0#32 := by decide
  rw [Account.forbidsOverdraft, AccountFlags.contains, AccountRow.hasFloorBit, Bool.eq_iff_iff,
    beq_iff_eq, ← UInt32.toBitVec_inj, UInt32.toBitVec_and, hmask, hbit]
  split
  next hset => exact ⟨fun _ => hset, fun _ => rfl⟩
  next hclear => exact ⟨fun heq => absurd heq.symm hzero, fun hset => absurd hset hclear⟩

theorem exists_rowToAccount {row : AccountRow}
    (hreadable : (Json.metadata.read row.metadata).isOk = true) :
    ∃ account, rowToAccount row = .ok account := by
  cases hmetadata : Json.metadata.read row.metadata with
  | error err =>
      rw [hmetadata] at hreadable
      cases hreadable
  | ok metadata => exact ⟨_, Except.bind_eq_ok_iff.mpr ⟨metadata, hmetadata, rfl⟩⟩

theorem isOk_of_rowToAccount {row : AccountRow} {account : Account}
    (hread : rowToAccount row = .ok account) :
    (Json.metadata.read row.metadata).isOk = true := by
  obtain ⟨metadata, hmetadata, _⟩ := Except.bind_eq_ok_iff.mp hread
  rw [hmetadata]
  rfl

/-- The upgrade keeps the floor of every account if and only if every version that can
be read has the flag set exactly when its policy forbids overdraft, and no policy
with a floor of its own. -/
theorem upgradeAccounts_keeps_iff (accounts : Table AccountPolicyRow.key) (before : SqlStore) :
    ∃ store, upgradeAccounts accounts before = some store ∧
      (FloorsKept accounts store ↔ ∀ old ∈ accounts.rows,
        (Json.metadata.read old.row.metadata).isOk = true →
          old.row.hasFloorBit = old.policy.forbidsOverdraft ∧
            ∀ floor, old.policy ≠ .cappedOverdraft floor) := by
  have hupgrade := upgradeAccounts_eq_some accounts before
  refine ⟨_, hupgrade, fun hkept old hold hreadable => ?_, fun hflags => ⟨?_, ?_⟩⟩
  · obtain ⟨account, hread⟩ := exists_rowToAccount hreadable
    rw [← forbidsOverdraft_of_rowToAccount hread, ← Account.keeps_iff]
    exact hkept.versions old hold _ account (lookup_migration006 hold) hread
  · intro old hold row account hlookup hread
    rw [lookup_migration006 hold] at hlookup
    cases hlookup
    rw [Account.keeps_iff, forbidsOverdraft_of_rowToAccount hread]
    exact hflags old hold (isOk_of_rowToAccount hread)
  · intro old hold hlatest account hread
    obtain ⟨current, hcurrent, hcurrentLatest, hid, hsub, hdecoded⟩ :=
      getAccount_upgraded hupgrade hread
    have heq : current = old := latest_unique hcurrent hold hcurrentLatest hlatest hid hsub
    rw [Account.keeps_iff, forbidsOverdraft_of_rowToAccount hdecoded, heq]
    exact hflags old hold (heq ▸ isOk_of_rowToAccount hdecoded)

end Upgrade

/-- An account that may not be overdrawn, stored without the flag. -/
def unflaggedAccounts [MoneyWidth] [Json] : Table AccountPolicyRow.key where
  rows := [⟨⟨5, 0, 1, 0, 0, Json.metadata.write .empty⟩, .noOverdraft⟩]
  nodup := List.nodup_singleton _

open Sample in
/-- It may be overdrawn once the policy is dropped. -/
theorem unflaggedAccounts_loosened :
    (upgradeAccounts unflaggedAccounts .empty).map (fun store =>
      (store.getAccount ⟨5, 0⟩).toOption.map (·.forbidsOverdraft)) = some (some false) ∧
    ∀ old ∈ unflaggedAccounts.rows, old.policy.forbidsOverdraft = true := by
  refine ⟨by decide +kernel, fun old hold => ?_⟩
  rw [List.mem_singleton.mp hold]
  rfl

end Kuatia
