import Kuatia.SqlStore.AccountWrites
import Kuatia.Storage.Sample
import Mathlib.Data.List.Range

/-! # The chain of versions

However the writes of an account are interleaved, the versions that are committed are
those that the in-memory store would have after the successful calls, one after the
other. So no version is skipped, and none is written twice.
-/

namespace Kuatia.AccountWrites

open Interleaving

/-! ## What a transaction has found and written -/

namespace Transaction

variable {db : Database} {tx next : Transaction} {others : List Transaction}

def Idle (tx : Transaction) : Prop :=
  tx.locked = false ∧ tx.written = false ∧ tx.deleted = false ∧ tx.headed = false

def Creates (tx : Transaction) : Prop :=
  (∃ account, tx.call = .create account) ∧ tx.locked = false ∧ tx.deleted = false

/-- The head is locked, and the call is the next one for its version. -/
def Extends (db : Database) (tx : Transaction) : Prop :=
  tx.locked = true ∧ ∃ version, db.head.lookup tx.id = some version ∧
    tx.call.account.version.toNat = version.toNat + 1 ∧
    match tx.call with
    | .create _ => False
    | .append _ => True
    | .transition next _ => ∃ current, db.versions.lookup (next.id, version) = some current ∧
        current.isClosed = false

/-- What is written at each phase. -/
def Placed (db : Database) (tx : Transaction) : Prop :=
  match tx.phase with
  | .read | .lock _ | .ended _ => tx.Idle
  | .insertVersion => tx.written = false ∧ tx.headed = false ∧
      (tx.Creates ∨ tx.Extends db ∧ tx.deleted = false)
  | .deleteHead => tx.written = true ∧ tx.headed = false ∧ tx.Extends db
  | .insertHead => tx.headed = false ∧
      (tx.Creates ∧ (tx.written = true ∨ tx.id ∈ db.head) ∨
        tx.Extends db ∧ tx.written = true ∧ tx.deleted = true)
  | .commit => tx.headed = true ∧ tx.written = true ∧
      (tx.Creates ∧ tx.id ∉ db.head ∨ tx.Extends db)

/-- Version 0 follows no version. -/
def Numbered (call : Call) : Prop := ∀ account, call = .append account → account.version ≠ 0

def Succeeded (tx : Transaction) : Prop := tx.phase = .ended (.ok (success tx.call))

theorem placed_finish (result : Except StoreError Answer) : (tx.finish result).Placed db :=
  ⟨rfl, rfl, rfl, rfl⟩

/-- What a statement of one transaction leaves the others free of. -/
structure Advances (others : List Transaction) (tx next : Transaction) : Prop where
  call : next.call = tx.call
  locked : next.locked = true → tx.locked = true ∨
    ∀ other ∈ others, other.id = tx.id → other.locked = false
  written : next.written = true → tx.written = true ∨
    ∀ other ∈ others, other.key = tx.key → other.written = false
  headed : next.headed = true → tx.headed = true ∨
    ∀ other ∈ others, other.id = tx.id → other.headed = false
  unfinished : ¬next.Succeeded

namespace Advances

theorem to_phase {phase : Phase} (hphase : ∀ result, phase ≠ .ended result) :
    Advances others tx { tx with phase } :=
  ⟨rfl, .inl, .inl, .inl, hphase _⟩

theorem finish {result : Except StoreError Answer} (hresult : result ≠ .ok (success tx.call)) :
    Advances others tx (tx.finish result) :=
  ⟨rfl, nofun, nofun, nofun, fun heq => hresult (Phase.ended.inj heq)⟩

end Advances

/-- The next statement fits the database and takes nothing that another one holds. -/
structure Moves (db : Database) (others : List Transaction) (tx next : Transaction) : Prop where
  placed : next.Placed db
  advances : Advances others tx next

theorem Moves.finish {result : Except StoreError Answer} (hresult : result ≠ .ok (success tx.call)) :
    Moves db others tx (tx.finish result) :=
  ⟨placed_finish result, .finish hresult⟩

theorem moves_absent (hidle : tx.Idle) : Moves db others tx tx.absent := by
  obtain ⟨hlocked, hwritten, hdeleted, hheaded⟩ := hidle
  unfold absent
  split
  next account hcall =>
    exact ⟨⟨hwritten, hheaded, .inl ⟨⟨account, hcall⟩, hlocked, hdeleted⟩⟩, .to_phase nofun⟩
  next hcall => exact .finish (by rw [hcall]; nofun)
  next => exact .finish nofun

theorem moves_insertHead
    (hcalls : tx.Creates ∧ (tx.written = true ∨ tx.id ∈ db.head) ∨
      tx.Extends db ∧ tx.written = true ∧ tx.deleted = true)
    (hfree : ¬∃ other ∈ others, other.id = tx.id ∧ (other.deleted = true ∨ other.headed = true)) :
    Moves db others tx (if tx.id ∈ db.head ∧ ¬tx.deleted = true then tx.occupied
      else { tx with headed := true, phase := .commit }) := by
  have hheads : ∀ other ∈ others, other.id = tx.id → other.headed = false :=
    fun other hother hid => Bool.eq_false_iff.mpr fun hheld =>
      hfree ⟨other, hother, hid, .inr hheld⟩
  rcases hcalls with ⟨hcreates, hknown⟩ | ⟨hextends, hwritten, hdeleted⟩
  · obtain ⟨account, hcall⟩ := hcreates.1
    split
    next =>
      unfold occupied
      split
      · exact .finish (by rw [hcall]; nofun)
      all_goals exact .finish nofun
    next hclear =>
      have hheadless : tx.id ∉ db.head := fun hmem => hclear ⟨hmem, by simp [hcreates.2.2]⟩
      refine ⟨⟨rfl, hknown.resolve_right hheadless, .inl ⟨hcreates, hheadless⟩⟩, rfl, .inl, .inl,
        fun _ => .inr hheads, nofun⟩
  · rw [if_neg fun hblocked => hblocked.2 hdeleted]
    exact ⟨⟨rfl, hwritten, .inr hextends⟩, rfl, .inl, .inl, fun _ => .inr hheads, nofun⟩

/-! ## Two transactions -/

/-- No two transactions hold the same row, and no two have succeeded with one version. -/
structure Apart (first second : Transaction) : Prop where
  locked : first.id = second.id → first.locked = true → second.locked = false
  written : first.key = second.key → first.written = true → second.written = false
  headed : first.id = second.id → first.headed = true → second.headed = false
  succeeded : first.key = second.key → first.Succeeded → ¬second.Succeeded

theorem not_both {first second : Bool} (h : first = true → second = false) :
    second = true → first = false := by
  cases first <;> simp_all

theorem Apart.symm {first second : Transaction} (hapart : Apart first second) :
    Apart second first where
  locked hid := not_both (hapart.locked hid.symm)
  written hkey := not_both (hapart.written hkey.symm)
  headed hid := not_both (hapart.headed hid.symm)
  succeeded hkey hsecond hfirst := hapart.succeeded hkey.symm hfirst hsecond

/-- A statement takes nothing that another transaction holds. -/
theorem Advances.apart {other : Transaction} (hadvances : Advances others tx next)
    (hapart : Apart tx other) (hother : other ∈ others) : Apart next other := by
  have hid : next.id = tx.id := by rw [id, hadvances.call, id]
  have hkey : next.key = tx.key := by rw [key, hid, hadvances.call, key]
  constructor
  · intro hsame hlocked
    rcases hadvances.locked hlocked with hheld | hfree
    · exact hapart.locked (hid.symm.trans hsame) hheld
    · exact hfree other hother (hsame.symm.trans hid)
  · intro hsame hwritten
    rcases hadvances.written hwritten with hheld | hfree
    · exact hapart.written (hkey.symm.trans hsame) hheld
    · exact hfree other hother (hsame.symm.trans hkey)
  · intro hsame hheaded
    rcases hadvances.headed hheaded with hheld | hfree
    · exact hapart.headed (hid.symm.trans hsame) hheld
    · exact hfree other hother (hsame.symm.trans hid)
  · exact fun _ hsucceeded => absurd hsucceeded hadvances.unfinished

/-! ## Commits of the others -/

theorem apply_commit (hphase : tx.phase = .commit) (hplaced : tx.Placed db) :
    tx.apply db = ⟨db.versions.insert tx.key tx.call.account,
      db.head.insert tx.id tx.call.account.version⟩ := by
  simp only [Placed, hphase] at hplaced
  rw [apply, hplaced.1, hplaced.2.1]
  rfl

variable {other : Transaction}

/-- The head that a transaction has locked is moved by no other one. -/
theorem Extends.later (hextends : other.Extends db) (hphase : tx.phase = .commit)
    (hplaced : tx.Placed db) (hapart : Apart tx other) : other.Extends (tx.apply db) := by
  rw [apply_commit hphase hplaced]
  simp only [Placed, hphase] at hplaced
  obtain ⟨hlocked, version, hhead, hnumber, hcall⟩ := hextends
  have hid : other.id ≠ tx.id := by
    intro heq
    rcases hplaced.2.2 with ⟨_, hheadless⟩ | hmoves
    · exact hheadless (heq ▸ HashMap.mem_iff_exists_lookup.mpr ⟨version, hhead⟩)
    · have hfree := hapart.locked heq.symm hmoves.1
      rw [hlocked] at hfree
      cases hfree
  refine ⟨hlocked, version, ?_, hnumber, ?_⟩
  · rwa [AList.lookup_insert_ne hid]
  · cases hkind : other.call <;> rw [hkind] at hcall
    case create => cases hcall
    case append => trivial
    case transition next event =>
      obtain ⟨current, hrow, hopen⟩ := hcall
      refine ⟨current, ?_, hopen⟩
      have hkey : (next.id, version) ≠ tx.key := by
        intro heq
        apply hid
        rw [id, hkind]
        exact (Prod.mk.inj heq).1
      rwa [AList.lookup_insert_ne hkey]

theorem Placed.later (hother : other.Placed db) (hphase : tx.phase = .commit)
    (hplaced : tx.Placed db) (hapart : Apart tx other) : other.Placed (tx.apply db) := by
  cases hkind : other.phase <;> simp only [Placed, hkind] at hother ⊢
  case insertVersion =>
    obtain ⟨hwritten, hheaded, hcreates | ⟨hextends, hdeleted⟩⟩ := hother
    · exact ⟨hwritten, hheaded, .inl hcreates⟩
    · exact ⟨hwritten, hheaded, .inr ⟨hextends.later hphase hplaced hapart, hdeleted⟩⟩
  case deleteHead =>
    obtain ⟨hwritten, hheaded, hextends⟩ := hother
    exact ⟨hwritten, hheaded, hextends.later hphase hplaced hapart⟩
  case insertHead =>
    obtain ⟨hheaded, ⟨hcreates, hknown⟩ | ⟨hextends, hrest⟩⟩ := hother
    · refine ⟨hheaded, .inl ⟨hcreates, hknown.imp_right fun hmem => ?_⟩⟩
      rw [apply_commit hphase hplaced]
      exact (AList.mem_insert _).mpr (.inr hmem)
    · exact ⟨hheaded, .inr ⟨hextends.later hphase hplaced hapart, hrest⟩⟩
  case commit =>
    obtain ⟨hheaded, hwritten, ⟨hcreates, hhead⟩ | hextends⟩ := hother
    · refine ⟨hheaded, hwritten, .inl ⟨hcreates, fun hmem => ?_⟩⟩
      rw [apply_commit hphase hplaced, AList.mem_insert] at hmem
      simp only [Placed, hphase] at hplaced
      rcases hmem with heq | hmem
      · have hfree := hapart.headed heq.symm hplaced.1
        rw [hheaded] at hfree
        cases hfree
      · exact hhead hmem
    · exact ⟨hheaded, hwritten, .inr (hextends.later hphase hplaced hapart)⟩
  all_goals exact hother

/-- What a transaction keeps to, and what is logged and stored when it has succeeded. -/
structure Fits (log : List Call) (db : Database) (tx : Transaction) : Prop where
  numbered : Numbered tx.call
  placed : tx.Placed db
  answered : tx.Succeeded → tx.call ∈ log ∧ tx.key ∈ db.versions

end Transaction

section Theory

variable [MoneyWidth]

/-! ## One call after the other -/

/-- The call succeeds on the in-memory store. -/
inductive Performs : Call → InMemoryStore → InMemoryStore → Prop where
  | create {account : Account} {store : InMemoryStore}
      (hone : (store.createAccount account).1 = 1) :
      Performs (.create account) store (store.createAccount account).2
  | append {account : Account} {store : InMemoryStore}
      (hone : (store.appendAccountVersion account).1 = .ok 1) :
      Performs (.append account) store (store.appendAccountVersion account).2
  | transition {next : Account} {event : LedgerEvent} {store : InMemoryStore} (clock : Clock)
      (happlied : (store.commitTransition clock next event).1 = .ok .applied) :
      Performs (.transition next event) store (store.commitTransition clock next event).2

inductive Serial : List Call → InMemoryStore → Prop where
  | start : Serial [] .new
  | extend {calls : List Call} {call : Call} {before after : InMemoryStore}
      (earlier : Serial calls before) (hperforms : Performs call before after) :
      Serial (calls ++ [call]) after

/-- The tables hold the versions of the store, which are numbered without a gap. -/
structure SameVersions (store : InMemoryStore) (db : Database) : Prop where
  head : ∀ id, db.head.lookup id = (store.latest id).map (·.version)
  rows : ∀ id version account, db.versions.lookup (id, version) = some account ↔
    account ∈ store.versions id ∧ account.version = version
  gapless : ∀ id, ∃ first, (store.versions id).map (·.version.toNat) =
    List.range' first (store.versions id).length
  owned : ∀ id, ∀ account ∈ store.versions id, account.id = id
  known : ∀ id ∈ store.accounts, store.versions id ≠ []

namespace SameVersions

variable {store : InMemoryStore} {db : Database} {id : AccountId}

theorem empty : SameVersions .new .empty where
  head _ := rfl
  rows id version account := by simp [Database.empty, InMemoryStore.versions, InMemoryStore.new]
  gapless _ := ⟨0, rfl⟩
  owned _ _ hmem := by simp [InMemoryStore.versions, InMemoryStore.new] at hmem
  known _ hmem := by simp [InMemoryStore.new] at hmem

variable (hsame : SameVersions store db)
include hsame

/-- The head is the number of the latest version, which is the greatest. -/
theorem latest_of_head {version : UInt64} (hhead : db.head.lookup id = some version) :
    ∃ current, store.latest id = some current ∧ current.version = version ∧
      ∀ account ∈ store.versions id, account.version.toNat ≤ version.toNat := by
  rw [hsame.head, Option.map_eq_some_iff] at hhead
  obtain ⟨current, hlatest, rfl⟩ := hhead
  refine ⟨current, hlatest, rfl, fun account haccount => ?_⟩
  obtain ⟨first, hnumbers⟩ := hsame.gapless id
  have hlast : (List.range' first (store.versions id).length).getLast? =
      some current.version.toNat := by
    rw [← hnumbers, List.getLast?_map, ← InMemoryStore.latest, hlatest]
    rfl
  have hmem := List.mem_map_of_mem (f := fun account => account.version.toNat) haccount
  rw [hnumbers, List.mem_range'_1] at hmem
  rw [List.getLast?_range'] at hlast
  split at hlast
  next => cases hlast
  next =>
    have hnumber := Option.some.inj hlast
    omega

/-- The number after the head is free. -/
theorem free_of_head {version next : UInt64} (hhead : db.head.lookup id = some version)
    (hnext : next.toNat = version.toNat + 1) : (id, next) ∉ db.versions := by
  intro hmem
  obtain ⟨account, hlookup⟩ := HashMap.mem_iff_exists_lookup.mp hmem
  obtain ⟨haccount, rfl⟩ := (hsame.rows id next account).mp hlookup
  obtain ⟨_, _, _, hgreatest⟩ := hsame.latest_of_head hhead
  have hle := hgreatest account haccount
  omega

/-- Without a head there is no version. -/
theorem versions_of_headless (hhead : id ∉ db.head) : store.versions id = [] := by
  have hnone := (hsame.head id).symm.trans (AList.lookup_eq_none.mpr hhead)
  rw [Option.map_eq_none_iff, InMemoryStore.latest, List.getLast?_eq_none_iff] at hnone
  exact hnone

theorem free_of_headless (hhead : id ∉ db.head) (version : UInt64) : (id, version) ∉ db.versions := by
  intro hmem
  obtain ⟨account, hlookup⟩ := HashMap.mem_iff_exists_lookup.mp hmem
  have haccount := ((hsame.rows id version account).mp hlookup).1
  rw [hsame.versions_of_headless hhead] at haccount
  cases haccount

/-- A version that comes with its number after all others is one more row and the head. -/
theorem extend {after : InMemoryStore} {account : Account}
    (hafter : after.accounts = store.accounts.insert account.id
      (store.versions account.id ++ [account]))
    (hnumbers : ∃ first, (store.versions account.id ++ [account]).map (·.version.toNat) =
      List.range' first ((store.versions account.id).length + 1))
    (hfree : (account.id, account.version) ∉ db.versions) :
    SameVersions after ⟨db.versions.insert (account.id, account.version) account,
      db.head.insert account.id account.version⟩ := by
  have hversions : ∀ other, after.versions other =
      if other = account.id then store.versions account.id ++ [account] else store.versions other := by
    intro other
    rw [InMemoryStore.versions, hafter, HashMap.lookup_insert_eq]
    split <;> rfl
  constructor
  · intro other
    rw [InMemoryStore.latest, hversions, HashMap.lookup_insert_eq]
    split
    next => simp
    next => exact hsame.head other
  · intro other version found
    rw [hversions, HashMap.lookup_insert_eq]
    by_cases hother : other = account.id
    · subst hother
      rw [if_pos rfl, List.mem_append, List.mem_singleton]
      by_cases hversion : version = account.version
      · rw [if_pos (by rw [hversion]), hversion, Option.some.injEq]
        constructor
        · rintro rfl
          exact ⟨.inr rfl, rfl⟩
        · rintro ⟨hold | rfl, hnumber⟩
          · refine absurd (HashMap.mem_iff_exists_lookup.mpr ⟨found, ?_⟩) hfree
            exact (hsame.rows _ _ _).mpr ⟨hold, hnumber⟩
          · rfl
      · rw [if_neg fun heq => hversion (Prod.mk.inj heq).2, hsame.rows]
        constructor
        · rintro ⟨hold, hnumber⟩
          exact ⟨.inl hold, hnumber⟩
        · rintro ⟨hold | rfl, hnumber⟩
          · exact ⟨hold, hnumber⟩
          · exact absurd hnumber.symm hversion
    · rw [if_neg hother, if_neg fun heq => hother (Prod.mk.inj heq).1]
      exact hsame.rows other version found
  · intro other
    rw [hversions]
    split
    next =>
      rw [List.length_append, List.length_singleton]
      exact hnumbers
    next => exact hsame.gapless other
  · intro other found hfound
    rw [hversions] at hfound
    split at hfound
    next heq =>
      rcases List.mem_append.mp hfound with hfound | hfound
      · exact heq ▸ hsame.owned _ found hfound
      · rw [List.mem_singleton.mp hfound, heq]
    next => exact hsame.owned other found hfound
  · intro other hmem
    rw [hversions]
    split
    next => simp
    next hother =>
      rw [hafter, AList.mem_insert] at hmem
      exact hsame.known other (hmem.resolve_left hother)

omit hsame in
theorem lookup_accounts_of_latest {current : Account} (hlatest : store.latest id = some current) :
    store.accounts.lookup id = some (store.versions id) := by
  rw [InMemoryStore.latest] at hlatest
  unfold InMemoryStore.versions at hlatest ⊢
  cases hlookup : store.accounts.lookup id with
  | none => rw [hlookup] at hlatest; cases hlatest
  | some versions => rfl

/-- The numbers after which comes the next one. -/
theorem gapless_concat {account : Account} {version : UInt64}
    (hhead : db.head.lookup account.id = some version)
    (hnumber : account.version.toNat = version.toNat + 1) :
    ∃ first, (store.versions account.id ++ [account]).map (·.version.toNat) =
      List.range' first ((store.versions account.id).length + 1) := by
  obtain ⟨first, hnumbers⟩ := hsame.gapless account.id
  obtain ⟨current, hlatest, rfl, _⟩ := hsame.latest_of_head hhead
  have hlast : (List.range' first (store.versions account.id).length).getLast? =
      some current.version.toNat := by
    rw [← hnumbers, List.getLast?_map, ← InMemoryStore.latest, hlatest]
    rfl
  rw [List.getLast?_range'] at hlast
  refine ⟨first, ?_⟩
  rw [List.map_append, hnumbers, List.range'_concat]
  split at hlast
  next => cases hlast
  next =>
    have hcurrent := Option.some.inj hlast
    simp only [List.map_cons, List.map_nil, one_mul]
    congr 2
    omega

/-! ## Successful calls -/

theorem create {account : Account} (hhead : account.id ∉ db.head) :
    ∃ after, Performs (.create account) store after ∧
      SameVersions after ⟨db.versions.insert (account.id, account.version) account,
        db.head.insert account.id account.version⟩ := by
  have hnone := hsame.versions_of_headless hhead
  have hunknown : account.id ∉ store.accounts := fun hmem => hsame.known _ hmem hnone
  have hcreate : store.createAccount account =
      (1, { store with accounts := store.accounts.insert account.id [account] }) := if_neg hunknown
  refine ⟨_, .create (by rw [hcreate]), ?_⟩
  rw [hcreate]
  apply hsame.extend
  · rw [hnone]
    rfl
  · rw [hnone]
    exact ⟨account.version.toNat, rfl⟩
  · exact hsame.free_of_headless hhead _

theorem append {account : Account} {version : UInt64}
    (hhead : db.head.lookup account.id = some version)
    (hnumber : account.version.toNat = version.toNat + 1) :
    ∃ after, Performs (.append account) store after ∧
      SameVersions after ⟨db.versions.insert (account.id, account.version) account,
        db.head.insert account.id account.version⟩ := by
  obtain ⟨current, hlatest, rfl, _⟩ := hsame.latest_of_head hhead
  have hsmall := account.version.toNat_lt
  have happend : store.appendAccountVersion account = (.ok 1, { store with
      accounts := store.accounts.insert account.id (store.versions account.id ++ [account]) }) := by
    rw [InMemoryStore.appendAccountVersion, lookup_accounts_of_latest hlatest]
    have hcurrent : ((store.versions account.id).getLast?.map (·.version)).getD 0 =
        current.version := by
      rw [← InMemoryStore.latest, hlatest]
      rfl
    simp only [hcurrent]
    rw [if_neg (by omega), if_neg]
    rw [not_not, ← UInt64.toNat_inj, UInt64.toNat_add, hnumber]
    simp only [UInt64.reduceToNat]
    omega
  refine ⟨_, .append (by rw [happend]), ?_⟩
  rw [happend]
  exact hsame.extend rfl (hsame.gapless_concat hhead hnumber) (hsame.free_of_head hhead hnumber)

theorem transition {next current : Account} {version : UInt64} (event : LedgerEvent)
    (hhead : db.head.lookup next.id = some version)
    (hrow : db.versions.lookup (next.id, version) = some current)
    (hopen : current.isClosed = false) (hnumber : next.version.toNat = version.toNat + 1) :
    ∃ after, Performs (.transition next event) store after ∧
      SameVersions after ⟨db.versions.insert (next.id, next.version) next,
        db.head.insert next.id next.version⟩ := by
  have hsmall := next.version.toNat_lt
  obtain ⟨latest, hlatest, rfl, _⟩ := hsame.latest_of_head hhead
  have hlast := (hsame.rows next.id latest.version latest).mpr
    ⟨List.mem_of_getLast? hlatest, rfl⟩
  obtain rfl : current = latest := Option.some.inj (hrow.symm.trans hlast)
  have hnext : next.version = current.version + 1 := by
    rw [← UInt64.toNat_inj, UInt64.toNat_add, hnumber]
    simp only [UInt64.reduceToNat]
    omega
  have happlied : store.commitTransition none next event = (.ok .applied,
      InMemoryStore.appendEventLocked none event { store with
        accounts := store.accounts.insert next.id (store.versions next.id ++ [next]) }) := by
    have hcurrent : (store.versions next.id).getLast? = some current := hlatest
    rw [InMemoryStore.commitTransition, lookup_accounts_of_latest hlatest]
    simp only [hcurrent, hopen, Bool.false_eq_true, if_false]
    rw [if_neg, if_neg (by omega), if_neg (not_not.mpr hnext)]
    rw [UInt64.le_iff_toNat_le]
    omega
  refine ⟨_, .transition none (by rw [happlied]), ?_⟩
  rw [happlied]
  exact hsame.extend (by simp) (hsame.gapless_concat hhead hnumber)
    (hsame.free_of_head hhead hnumber)

end SameVersions

/-! ## Statements -/

namespace Transaction

variable {store : InMemoryStore} {db : Database} {tx next : Transaction}
  {others : List Transaction}

/-- A head is locked only if the version to write is the next one. -/
theorem moves_found (hsame : SameVersions store db) (hnumbered : Numbered tx.call)
    (hidle : tx.Idle) {version : UInt64} (hhead : db.head.lookup tx.id = some version)
    (hfree : ¬∃ other ∈ others, other.id = tx.id ∧ other.locked = true) :
    Moves db others tx (tx.found db version) := by
  obtain ⟨hlocked, hwritten, hdeleted, hheaded⟩ := hidle
  have hadvances : Advances others tx { tx with locked := true, phase := .insertVersion } := by
    refine ⟨rfl, fun _ => .inr fun other hother hid => ?_, .inl, .inl, nofun⟩
    exact Bool.eq_false_iff.mpr fun hheld => hfree ⟨other, hother, hid, hheld⟩
  have hextends : (tx.call.account.version.toNat = version.toNat + 1) →
      (match tx.call with
        | .create _ => False
        | .append _ => True
        | .transition next _ => ∃ current, db.versions.lookup (next.id, version) = some current ∧
            current.isClosed = false) →
      Moves db others tx { tx with locked := true, phase := .insertVersion } :=
    fun hnumber hcall => ⟨⟨hwritten, hheaded, .inr ⟨⟨rfl, version, hhead, hnumber, hcall⟩, hdeleted⟩⟩,
      hadvances⟩
  unfold found
  split
  next hcall => exact .finish (by rw [hcall]; nofun)
  next account hcall =>
    split
    next => exact .finish nofun
    split
    next => exact .finish (by rw [hcall]; nofun)
    next hnext =>
      rw [not_not] at hnext
      have hnumber : account.version.toNat = version.toNat + 1 := by
        have hnonzero := hnumbered account hcall
        rw [hnext, ne_eq, ← UInt64.toNat_inj, UInt64.toNat_add] at hnonzero
        rw [hnext, UInt64.toNat_add]
        have hsmall := version.toNat_lt
        simp only [UInt64.reduceToNat] at hnonzero ⊢
        omega
      exact hextends (by rw [hcall]; exact hnumber) (by rw [hcall]; trivial)
  next next event hcall =>
    split
    next => exact .finish nofun
    next current hrow =>
      split
      next => exact .finish (by rw [hcall]; nofun)
      next hopen =>
        split
        next => exact .finish (by rw [hcall]; nofun)
        split
        next => exact .finish nofun
        next hroom =>
          split
          next => exact .finish (by rw [hcall]; nofun)
          next hnext =>
            rw [not_not] at hnext
            have hversion := ((hsame.rows next.id version current).mp hrow).2
            have hsmall := current.version.toNat_lt
            have hnumber : next.version.toNat = version.toNat + 1 := by
              rw [hnext, UInt64.toNat_add, hversion]
              rw [hversion] at hroom hsmall
              simp only [UInt64.reduceToNat]
              omega
            refine hextends (by rw [hcall]; exact hnumber) ?_
            rw [hcall]
            exact ⟨current, hrow, Bool.eq_false_iff.mpr hopen⟩

/-- The version that is the next one is not there yet. -/
theorem Extends.free (hsame : SameVersions store db) (hextends : tx.Extends db) :
    tx.key ∉ db.versions := by
  obtain ⟨_, version, hhead, hnumber, _⟩ := hextends
  exact hsame.free_of_head hhead hnumber

theorem moves_insertVersion (hsame : SameVersions store db) (hheaded : tx.headed = false)
    (hcalls : tx.Creates ∨ tx.Extends db ∧ tx.deleted = false)
    (hfree : ¬∃ other ∈ others, other.key = tx.key ∧ other.written = true) :
    Moves db others tx (if tx.key ∈ db.versions then tx.taken
      else { tx with written := true, phase := afterVersion tx.call }) := by
  have hwrites : ∀ other ∈ others, other.key = tx.key → other.written = false :=
    fun other hother hkey => Bool.eq_false_iff.mpr fun hheld => hfree ⟨other, hother, hkey, hheld⟩
  rcases hcalls with hcreates | ⟨hextends, hdeleted⟩
  · obtain ⟨account, hcall⟩ := hcreates.1
    split
    next htaken =>
      have hknown : tx.id ∈ db.head := by
        by_contra hhead
        exact hsame.free_of_headless hhead _ htaken
      have htakes : tx.taken = { tx with phase := .insertHead } := by
        unfold taken
        split
        next => rfl
        all_goals next hother => rw [hcall] at hother; cases hother
      rw [htakes]
      exact ⟨⟨hheaded, .inl ⟨hcreates, .inr hknown⟩⟩, .to_phase nofun⟩
    next =>
      have hafter : afterVersion tx.call = .insertHead := by rw [hcall]; rfl
      rw [hafter]
      exact ⟨⟨hheaded, .inl ⟨hcreates, .inl rfl⟩⟩, rfl, .inl, fun _ => .inr hwrites, .inl, nofun⟩
  · rw [if_neg (hextends.free hsame)]
    have hafter : afterVersion tx.call = .deleteHead := by
      obtain ⟨_, _, _, _, hcall⟩ := hextends
      cases hkind : tx.call <;> simp only [hkind] at hcall <;> rfl
    rw [hafter]
    exact ⟨⟨rfl, hheaded, hextends⟩, rfl, .inl, fun _ => .inr hwrites, .inl, nofun⟩

/-- Every statement fits what it leads to. -/
theorem moves_statement (hsame : SameVersions store db) (hnumbered : Numbered tx.call)
    (hplaced : tx.Placed db) (hnext : tx.statement db others = some next) :
    Moves db others tx next := by
  cases hphase : tx.phase with
  | read =>
      simp only [Placed, hphase] at hplaced
      simp only [statement, hphase] at hnext
      split at hnext <;> cases hnext
      · exact moves_absent hplaced
      · exact ⟨hplaced, .to_phase nofun⟩
  | lock version =>
      simp only [Placed, hphase] at hplaced
      simp only [statement, hphase] at hnext
      split at hnext
      next => cases hnext
      next hfree =>
        split at hnext <;> cases hnext
        next hhead => exact moves_found hsame hnumbered hplaced hhead hfree
        next => exact moves_absent hplaced
  | insertVersion =>
      simp only [Placed, hphase] at hplaced
      obtain ⟨_, hheaded, hcalls⟩ := hplaced
      simp only [statement, hphase] at hnext
      split at hnext
      next => cases hnext
      next hfree =>
        have hmoves := moves_insertVersion hsame hheaded hcalls hfree
        split at hnext <;> cases hnext
        next htaken => rwa [if_pos htaken] at hmoves
        next hnew => rwa [if_neg hnew] at hmoves
  | deleteHead =>
      simp only [Placed, hphase] at hplaced
      obtain ⟨hwritten, hheaded, hextends⟩ := hplaced
      simp only [statement, hphase] at hnext
      split at hnext <;> cases hnext
      exact ⟨⟨hheaded, .inr ⟨hextends, hwritten, rfl⟩⟩, rfl, .inl, .inl, .inl, nofun⟩
  | insertHead =>
      simp only [Placed, hphase] at hplaced
      obtain ⟨_, hcalls⟩ := hplaced
      simp only [statement, hphase] at hnext
      split at hnext
      next => cases hnext
      next hfree =>
        have hmoves := moves_insertHead hcalls hfree
        split at hnext <;> cases hnext
        next hblocked => rwa [if_pos hblocked] at hmoves
        next hclear => rwa [if_neg hclear] at hmoves
  | commit | ended => simp only [statement, hphase] at hnext; cases hnext

/-! ## Commits -/

/-- What a transaction commits is a version that is not there yet. -/
theorem free_of_commit (hsame : SameVersions store db) (hphase : tx.phase = .commit)
    (hplaced : tx.Placed db) : tx.key ∉ db.versions := by
  simp only [Placed, hphase] at hplaced
  rcases hplaced.2.2 with ⟨_, hhead⟩ | hextends
  · exact hsame.free_of_headless hhead _
  · exact hextends.free hsame

/-- A commit is a call that succeeds on the in-memory store. -/
theorem performs_commit (hsame : SameVersions store db) (hphase : tx.phase = .commit)
    (hplaced : tx.Placed db) :
    ∃ after, Performs tx.call store after ∧ SameVersions after (tx.apply db) := by
  rw [apply_commit hphase hplaced]
  simp only [Placed, hphase] at hplaced
  obtain ⟨_, _, hcalls⟩ := hplaced
  rcases hcalls with ⟨hcreates, hhead⟩ | ⟨_, version, hhead, hnumber, hcall⟩
  · obtain ⟨account, hcall⟩ := hcreates.1
    rw [id, hcall] at hhead
    rw [key, id, hcall]
    exact hsame.create hhead
  · rw [key]
    rw [id] at hhead ⊢
    cases hkind : tx.call <;> rw [hkind] at hhead hnumber hcall
    case create => cases hcall
    case append => exact hsame.append hhead hnumber
    case transition next event =>
      obtain ⟨current, hrow, hopen⟩ := hcall
      exact hsame.transition event hhead hrow hopen hnumber

end Transaction

/-! ## Runs -/

open Transaction

/-- The log is a sequence of calls that succeed one after the other, and leave the
versions that are committed. -/
def invariant : TransactionInvariant system where
  whole log db := ∃ store, Serial log store ∧ SameVersions store db
  own := Fits
  apart := Apart
  symm := Apart.symm
  step := by
    rintro failure log db others tx db' next effect ⟨store, hserial, hsame⟩ hfits hothers hstep
    change Transaction.step failure db others tx = _ at hstep
    unfold Transaction.step at hstep
    split at hstep
    next => cases hstep
    next message hopen =>
      cases hstep
      rw [Option.toList_none, List.append_nil]
      have hadvances : Advances others tx (tx.finish (.error (.internal message))) :=
        .finish nofun
      exact ⟨⟨store, hserial, hsame⟩, ⟨hfits.numbered, placed_finish _,
        fun hsucceeded => absurd hsucceeded hadvances.unfinished⟩, fun other hother =>
          ⟨(hothers other hother).1, hadvances.apart (hothers other hother).2 hother⟩⟩
    next hphase =>
      cases hstep
      have hplaced := hfits.placed
      obtain ⟨after, hperforms, hafter⟩ := performs_commit hsame hphase hplaced
      have hkept : ∀ key ∈ db.versions, key ∈ (tx.apply db).versions := by
        intro key hkey
        rw [apply_commit hphase hplaced]
        exact (AList.mem_insert _).mpr (.inr hkey)
      have hnew : tx.key ∈ (tx.apply db).versions := by
        rw [apply_commit hphase hplaced]
        exact (AList.mem_insert _).mpr (.inl rfl)
      refine ⟨⟨after, hserial.extend hperforms, hafter⟩, ⟨hfits.numbered, placed_finish _,
        fun _ => ⟨List.mem_append_right _ List.mem_cons_self, hnew⟩⟩, fun other hother => ?_⟩
      obtain ⟨hother, hapart⟩ := hothers other hother
      refine ⟨⟨hother.numbered, hother.placed.later hphase hplaced hapart, fun hsucceeded => ?_⟩,
        nofun, nofun, nofun, fun hkey _ hsucceeded => ?_⟩
      · obtain ⟨hlogged, hkey⟩ := hother.answered hsucceeded
        exact ⟨List.mem_append_left _ hlogged, hkept _ hkey⟩
      · -- the version of a call that has succeeded is there
        exact free_of_commit hsame hphase hplaced (hkey ▸ (hother.answered hsucceeded).2)
    next =>
      obtain ⟨later, hlater, heq⟩ := Option.map_eq_some_iff.mp hstep
      cases heq
      rw [Option.toList_none, List.append_nil]
      have hmoves := moves_statement hsame hfits.numbered hfits.placed hlater
      refine ⟨⟨store, hserial, hsame⟩, ⟨hmoves.advances.call ▸ hfits.numbered, hmoves.placed,
        fun hsucceeded => absurd hsucceeded hmoves.advances.unfinished⟩, fun other hother => ?_⟩
      exact ⟨(hothers other hother).1, hmoves.advances.apart (hothers other hother).2 hother⟩

theorem SameVersions.getAccount {store : InMemoryStore} {db : Database}
    (hsame : SameVersions store db) (id : AccountId) : db.getAccount id = store.getAccount id := by
  rw [Database.getAccount, InMemoryStore.getAccount]
  cases hhead : db.head.lookup id with
  | none =>
      rw [hsame.head, Option.map_eq_none_iff] at hhead
      rw [hhead]
      rfl
  | some version =>
      obtain ⟨current, hlatest, hversion, _⟩ := hsame.latest_of_head hhead
      have hrow := (hsame.rows id version current).mpr ⟨List.mem_of_getLast? hlatest, hversion⟩
      rw [hlatest, Option.bind_some, hrow]

omit [MoneyWidth] in
/-- Whoever has logged a call is told so. -/
theorem exists_succeeded_of_mem_log (actions : List Action) :
    ∀ call ∈ (Server.empty.run system actions).log,
      ∃ tx ∈ (Server.empty.run system actions).transactions, tx.call = call ∧ tx.Succeeded := by
  refine TransactionServer.exists_of_mem_log ?_ ?_ (fun _ hnone => absurd hnone List.not_mem_nil) _
  · intro failure db others tx db' next call hstep
    change Transaction.step failure db others tx = _ at hstep
    unfold Transaction.step at hstep
    split at hstep
    next => cases hstep
    next => cases hstep
    next =>
      cases hstep
      exact ⟨rfl, rfl⟩
    next =>
      obtain ⟨_, _, heq⟩ := Option.map_eq_some_iff.mp hstep
      cases heq
  · -- a transaction that has ended takes no step
    intro failure db others tx db' next effect call hended hstep
    change Transaction.step failure db others tx = _ at hstep
    unfold Transaction.step at hstep
    have hphase : tx.phase = _ := hended.2
    rw [hphase] at hstep
    cases hstep

/-- However they are interleaved, the writes of accounts leave what the successful ones
leave on the in-memory store one after the other: the versions of every account, which
are numbered without a gap, and the latest of them. The calls that are told to have
succeeded are these, and no two are for the same version. -/
theorem account_writes_serializable (actions : List Action)
    (hnumbered : ∀ account, .start (.append account) ∈ actions → account.version ≠ 0) :
    (∃ store, Serial (Server.empty.run system actions).log store ∧
      SameVersions store (Server.empty.run system actions).db ∧
      ∀ id, (Server.empty.run system actions).db.getAccount id = store.getAccount id) ∧
    (∀ call, call ∈ (Server.empty.run system actions).log ↔
      ∃ tx ∈ (Server.empty.run system actions).transactions, tx.call = call ∧ tx.Succeeded) ∧
    (Server.empty.run system actions).transactions.Pairwise fun first second =>
      first.key = second.key → first.Succeeded → ¬second.Succeeded := by
  have hempty : invariant.Holds Server.empty :=
    ⟨⟨.new, .start, .empty⟩, fun _ htx => absurd htx List.not_mem_nil, .nil⟩
  have hholds : invariant.Holds (Server.empty.run system actions) := by
    refine hempty.run fun call hcall => ⟨fun _ _ _ => ?_, fun tx => ⟨nofun, nofun, nofun, nofun⟩⟩
    exact ⟨fun account heq => hnumbered account (heq ▸ hcall), ⟨rfl, rfl, rfl, rfl⟩, nofun⟩
  obtain ⟨store, hserial, hsame⟩ := hholds.whole
  refine ⟨⟨store, hserial, hsame, hsame.getAccount⟩,
    fun call => ⟨exists_succeeded_of_mem_log actions call, ?_⟩, ?_⟩
  · rintro ⟨tx, htx, rfl, hsucceeded⟩
    exact ((hholds.own tx htx).answered hsucceeded).1
  · exact hholds.apart.imp fun hapart => hapart.succeeded

end Theory

namespace Racing

open Sample

def frozen : Account := { Account.new bob with version := 2, flags := AccountFlags.empty.insert .FROZEN }

def closed : Account := { Account.new bob with version := 2, flags := AccountFlags.empty.insert .CLOSED }

def freezing : Call := .transition frozen ⟨0, 0, .accountFrozen bob 2⟩

def closing : Call := .transition closed ⟨0, 0, .accountClosed bob 2⟩

/-- Some statements of one transaction. -/
def statements (index count : Nat) : List Action := List.replicate count (.advance index none)

/-- An account is frozen and closed at the same time: both see version 1. -/
def race : List Action :=
  .start (.create (.new bob)) :: statements 0 4 ++
    [.start freezing, .start closing, .advance 1 none, .advance 2 none] ++
    statements 1 5 ++ statements 2 1

theorem numbered_race {account : Account} (hstart : .start (.append account) ∈ race) :
    account.version ≠ 0 := by
  simp [race, statements, freezing, closing] at hstart

end Racing

open Sample Racing in
/-- The account is frozen, and the one that has waited no longer finds its version. -/
theorem account_writes_serializable_race :
    (∃ store, Serial [.create (.new bob), freezing] store ∧
      SameVersions store (Server.empty.run system race).db) ∧
    ∀ tx ∈ (Server.empty.run system race).transactions, tx.Succeeded → tx.call ≠ closing := by
  have hlog : (Server.empty.run system race).log = [.create (.new bob), freezing] := by
    decide +kernel
  obtain ⟨⟨store, hserial, hsame, _⟩, hanswered, _⟩ :=
    account_writes_serializable race fun _ => numbered_race
  rw [hlog] at hserial hanswered
  refine ⟨⟨store, hserial, hsame⟩, fun tx htx hsucceeded hcloses => ?_⟩
  have hlogged := (hanswered closing).mpr ⟨tx, htx, hcloses, hsucceeded⟩
  exact absurd hlogged (by decide +kernel)

end Kuatia.AccountWrites
