import Kuatia.SqlStore.Resubmission

/-! # Accounts locked by a commit

A commit locks the accounts that it involves before it writes anything, and no
other transaction touches their balances until it ends. What it has found of them,
that they are open and that none falls below its floor, still holds when it is
committed.
-/

namespace Kuatia.ReadCommitted

variable [MoneyWidth] {content : EnvelopeId → Envelope} {db : Database}
  {history : List (Utxo.Tx EnvelopeId Posting)}

/-- The live balance of an account in an asset. -/
def Database.liveBalance (db : Database) (key : BalanceKey) : Int :=
  keyTotal Posting.key Posting.value db.live.values key

/-- The request involves the owners of the postings that it creates and consumes. -/
structure Covers (content : EnvelopeId → Envelope) (req : CommitRequest) : Prop where
  created : ∀ posting ∈ req.create, posting.owner ∈ req.involved
  consumed : ∀ id ∈ req.consume,
    ∀ posting ∈ createdPostings id.transfer (content id.transfer).creates,
      posting.id = id → posting.owner ∈ req.involved

/-- A live posting is one that its transfer creates. -/
theorem Replayed.created_of_live (hreplayed : Replayed content db history) {id : PostingId}
    {posting : Posting} (hlive : db.live.lookup id = some posting) :
    posting.id = id ∧ posting ∈ createdPostings id.transfer (content id.transfer).creates := by
  obtain ⟨rfl, tx, htx, hposting⟩ := hreplayed.valid.of_lookup hlive
  rw [hreplayed.creates tx htx] at hposting
  rw [transfer_of_mem_createdPostings hposting]
  exact ⟨rfl, hposting⟩

namespace Transaction

variable {tx next other : Transaction}

/-! ## What a transaction has found -/

/-- The account is locked and open. -/
def Holds (db : Database) (tx : Transaction) (id : AccountId) : Prop :=
  id ∈ tx.accounts ∧ ∃ account, db.accounts.lookup id = some account ∧
    account.isFrozen = false ∧ account.isClosed = false

/-- Storing the transfer takes no balance below its floor. -/
def Floored (db : Database) (tx : Transaction) (key : BalanceKey) : Prop :=
  tx.req.transferId ∉ db.transfers → ∀ account, db.accounts.lookup key.1 = some account →
    account.forbidsOverdraft = true → 0 ≤ (tx.stores db).liveBalance key

/-- The accounts looked at so far are locked and open. -/
def Guarded (db : Database) (tx : Transaction) : Prop :=
  match tx.phase with
  | .lookup | .ended _ => True
  | .guard rest => ∃ done, done ++ rest = tx.req.involved ∧ ∀ id ∈ done, tx.Holds db id
  | _ => ∀ id ∈ tx.req.involved, tx.Holds db id

/-- What is still to be selected or locked is consumed. -/
def Selecting (tx : Transaction) : Prop :=
  match tx.phase with
  | .select chunks => chunks.flatten ⊆ tx.req.consume
  | .lockRows rows chunks => (∀ row ∈ rows, row.id ∈ tx.req.consume) ∧
      chunks.flatten ⊆ tx.req.consume
  | _ => True

/-- The balances looked at so far keep to their floors. -/
def FloorsMet (db : Database) (tx : Transaction) : Prop :=
  match tx.phase with
  | .owner keys => ∀ key ∈ tx.touched, key ∉ keys → tx.Floored db key
  | .floor first keys => ∀ key ∈ tx.touched, key ∉ first :: keys → tx.Floored db key
  | .record | .commit => ∀ key ∈ tx.touched, tx.Floored db key
  | _ => True

structure Checked (db : Database) (tx : Transaction) : Prop where
  guarded : tx.Guarded db
  rows : ∀ row ∈ tx.rows, row.id ∈ tx.req.consume
  selecting : tx.Selecting
  floors : tx.FloorsMet db

theorem Checked.begin (req : CommitRequest) : (Transaction.begin req).Checked db :=
  ⟨trivial, by simp [Transaction.begin], trivial, trivial⟩

theorem Checked.finish (tx : Transaction) (result : Except StoreError CommitOutcome) :
    (tx.finish result).Checked db :=
  ⟨trivial, by simp [Transaction.finish], trivial, trivial⟩

theorem Holds.mono {id : AccountId} (hholds : tx.Holds db id)
    (haccounts : tx.accounts ⊆ next.accounts) : next.Holds db id :=
  ⟨haccounts hholds.1, hholds.2⟩

/-- The accounts that an open transaction touches are locked when it has guarded them. -/
theorem Checked.involved_of_touched (hchecked : tx.Checked db) (hcovers : Covers content tx.req)
    (hfits : tx.Fits content db) (hreplayed : Replayed content db history) {key : BalanceKey}
    (hkey : key ∈ tx.touched) : key.1 ∈ tx.req.involved := by
  rcases List.mem_append.mp (List.mem_dedup.mp hkey) with hkey | hkey
  · obtain ⟨row, hrow, rfl⟩ := List.mem_map.mp hkey
    obtain ⟨hid, hcreated⟩ := hreplayed.created_of_live (hfits.rows row hrow)
    exact hcovers.consumed row.id (hchecked.rows row hrow) row hcreated hid
  · obtain ⟨posting, hposting, rfl⟩ := List.mem_map.mp hkey
    exact hcovers.created posting hposting

/-! ## One statement -/

section Statement

variable {order : IterationOrder} {others : List Transaction} (hchecked : tx.Checked db)
include hchecked

theorem Checked.of_lookup (hphase : tx.phase = .lookup)
    (hnext : tx.statement order db others = some next) : next.Checked db := by
  simp only [statement, hphase] at hnext
  split at hnext <;> cases hnext
  · exact .finish tx _
  · exact ⟨⟨[], rfl, by simp⟩, hchecked.rows, trivial, trivial⟩

theorem Checked.of_guard {accounts : List AccountId} (hphase : tx.phase = .guard accounts)
    (hnext : tx.statement order db others = some next) : next.Checked db := by
  have hguarded := hchecked.guarded
  simp only [Guarded, hphase] at hguarded
  obtain ⟨done, hdone, hholds⟩ := hguarded
  cases accounts with
  | nil =>
      simp only [statement, hphase] at hnext
      cases hnext
      rw [List.append_nil] at hdone
      subst hdone
      refine ⟨hholds, hchecked.rows, ?_, trivial⟩
      simp only [Selecting]
      rw [List.flatten_chunks (by decide)]
      exact List.Subset.refl _
  | cons id rest =>
      simp only [statement, hphase] at hnext
      split at hnext
      next => cases hnext
      split at hnext
      next => cases hnext; exact .finish tx _
      next account hlookup =>
        split at hnext
        next => cases hnext; exact .finish tx _
        next hfrozen =>
          split at hnext <;> cases hnext
          · exact .finish tx _
          next hclosed =>
            refine ⟨⟨done ++ [id], by simpa using hdone, ?_⟩, hchecked.rows, trivial, trivial⟩
            intro other hother
            rcases List.mem_append.mp hother with hother | hother
            · exact (hholds other hother).mono (List.subset_cons_self _ _)
            · rw [List.mem_singleton.mp hother]
              exact ⟨List.mem_cons_self, account, hlookup, by simpa using hfrozen,
                by simpa using hclosed⟩

theorem Checked.of_select {chunks : List (List PostingId)} (hphase : tx.phase = .select chunks)
    (hnext : tx.statement order db others = some next) : next.Checked db := by
  have hheld := hchecked.guarded
  have hselecting := hchecked.selecting
  simp only [Guarded, Selecting, hphase] at hheld hselecting
  cases chunks with
  | nil =>
      simp only [statement, hphase] at hnext
      split at hnext <;> cases hnext
      · exact .finish tx _
      · exact ⟨hheld, hchecked.rows, trivial, trivial⟩
  | cons chunk chunks =>
      simp only [statement, hphase] at hnext
      cases hnext
      rw [List.flatten_cons, List.append_subset] at hselecting
      refine ⟨hheld, hchecked.rows, ⟨fun row hrow => hselecting.1 ?_, hselecting.2⟩, trivial⟩
      simpa using (List.mem_filter.mp ((order.mem_arrange).mp hrow)).2

theorem Checked.of_lockRows {rows : List Posting} {chunks : List (List PostingId)}
    (hvalid : Utxo.Valid Posting.id history db.live) (hphase : tx.phase = .lockRows rows chunks)
    (hnext : tx.statement order db others = some next) : next.Checked db := by
  have hheld := hchecked.guarded
  have hselecting := hchecked.selecting
  simp only [Guarded, Selecting, hphase] at hheld hselecting
  cases rows with
  | nil =>
      simp only [statement, hphase] at hnext
      cases hnext
      exact ⟨hheld, hchecked.rows, hselecting.2, trivial⟩
  | cons row rest =>
      obtain ⟨hrows, hchunks⟩ := hselecting
      rw [List.forall_mem_cons] at hrows
      simp only [statement, hphase] at hnext
      split at hnext
      next => cases hnext
      next =>
        split at hnext <;> cases hnext
        next found hfound =>
          refine ⟨hheld, ?_, ⟨hrows.2, hchunks⟩, trivial⟩
          rw [List.forall_mem_cons, (hvalid.of_lookup hfound).1]
          exact ⟨hrows.1, hchecked.rows⟩
        · exact ⟨hheld, hchecked.rows, ⟨hrows.2, hchunks⟩, trivial⟩

theorem Checked.of_delete {chunks : List (List PostingId)} (hphase : tx.phase = .delete chunks)
    (hnext : tx.statement order db others = some next) : next.Checked db := by
  have hheld := hchecked.guarded
  simp only [Guarded, hphase] at hheld
  cases chunks with
  | nil =>
      simp only [statement, hphase] at hnext
      cases hnext
      exact ⟨hheld, hchecked.rows, trivial, trivial⟩
  | cons chunk chunks =>
      simp only [statement, hphase] at hnext
      split at hnext <;> cases hnext
      exact ⟨hheld, hchecked.rows, trivial, trivial⟩

/-- Before the first balance is looked at, all are still to be looked at. -/
theorem Checked.of_insert {postings : List Posting} (hphase : tx.phase = .insert postings)
    (hnext : tx.statement order db others = some next) : next.Checked db := by
  have hheld := hchecked.guarded
  simp only [Guarded, hphase] at hheld
  cases postings with
  | nil =>
      simp only [statement, hphase] at hnext
      cases hnext
      refine ⟨hheld, hchecked.rows, trivial, fun key hkey hlater => ?_⟩
      exact absurd ((order.mem_arrange).mpr hkey) hlater
  | cons posting rest =>
      simp only [statement, hphase] at hnext
      split at hnext
      next => cases hnext
      next => split at hnext <;> cases hnext <;> exact ⟨hheld, hchecked.rows, trivial, trivial⟩

theorem Checked.of_activate {posting : Posting} {rest : List Posting}
    (hphase : tx.phase = .activate posting rest)
    (hnext : tx.statement order db others = some next) : next.Checked db := by
  have hheld := hchecked.guarded
  simp only [Guarded, hphase] at hheld
  simp only [statement, hphase] at hnext
  split at hnext
  next => cases hnext
  next => split at hnext <;> cases hnext <;> exact ⟨hheld, hchecked.rows, trivial, trivial⟩

/-- A balance without a floor need not be summed up. -/
theorem Checked.of_owner {keys : List BalanceKey} (hphase : tx.phase = .owner keys)
    (hnext : tx.statement order db others = some next) : next.Checked db := by
  have hheld := hchecked.guarded
  have hfloors := hchecked.floors
  simp only [Guarded, FloorsMet, hphase] at hheld hfloors
  cases keys with
  | nil =>
      simp only [statement, hphase] at hnext
      cases hnext
      exact ⟨hheld, hchecked.rows, trivial, fun key hkey => hfloors key hkey List.not_mem_nil⟩
  | cons first keys =>
      simp only [statement, hphase] at hnext
      split at hnext
      next => cases hnext
      split at hnext <;> cases hnext
      next hunknown =>
        refine ⟨hheld, hchecked.rows, trivial, fun key hkey hlater => ?_⟩
        by_cases hfirst : key = first
        · intro _ account hlookup
          rw [hfirst, hunknown] at hlookup
          cases hlookup
        · exact hfloors key hkey (by simp [hfirst, hlater])
      next account hlookup =>
        have hmore : ∀ id ∈ tx.req.involved, ({ tx with
            accounts := first.1 :: tx.accounts
            phase := if account.forbidsOverdraft then .floor first keys else .owner keys } :
              Transaction).Holds db id :=
          fun id hid => (hheld id hid).mono (List.subset_cons_self _ _)
        by_cases hforbids : account.forbidsOverdraft = true
        · simp only [hforbids, if_true] at hmore ⊢
          exact ⟨hmore, hchecked.rows, trivial, hfloors⟩
        · simp only [hforbids, if_false, Bool.false_eq_true] at hmore ⊢
          refine ⟨hmore, hchecked.rows, trivial, fun key hkey hlater => ?_⟩
          by_cases hfirst : key = first
          · intro _ other hother hsame
            rw [hfirst, hlookup] at hother
            cases hother
            exact absurd hsame hforbids
          · exact hfloors key hkey (by simp [hfirst, hlater])

/-- What the transaction sees when it sums a balance up is what it will commit. -/
theorem Checked.of_floor {first : BalanceKey} {keys : List BalanceKey}
    (hplaced : tx.Placed db) (hphase : tx.phase = .floor first keys)
    (hnext : tx.statement order db others = some next) : next.Checked db := by
  have hheld := hchecked.guarded
  have hfloors := hchecked.floors
  simp only [Guarded, FloorsMet, Placed, hphase] at hheld hfloors hplaced
  obtain ⟨_, _, hdeleted, hwritten⟩ := hplaced
  simp only [statement, hphase] at hnext
  split at hnext
  next => cases hnext; exact .finish tx _
  next projected hsum =>
    split at hnext <;> cases hnext
    · exact .finish tx _
    next hnonneg =>
      refine ⟨hheld, hchecked.rows, trivial, fun key hkey hlater => ?_⟩
      by_cases hfirst : key = first
      · intro hfresh _ _ _
        have hlive : tx.live db = (tx.stores db).live := by
          rcases hwritten with ⟨_, _, hactivated⟩ | ⟨hknown, _⟩
          · rw [live, hdeleted, hactivated]
            rfl
          · exact absurd hknown hfresh
        have htotal := Cent.val_of_checkedSum hsum
        rw [List.map_map, ((order.arrange_perm _).map _).sum_eq, hlive] at htotal
        have hleast := mt Cent.isNegative_iff.mpr hnonneg
        rw [htotal, not_lt] at hleast
        rw [hfirst]
        exact hleast
      · exact hfloors key hkey (by simp [hfirst, hlater])

theorem Checked.of_record (hphase : tx.phase = .record)
    (hnext : tx.statement order db others = some next) : next.Checked db := by
  have hheld := hchecked.guarded
  have hfloors := hchecked.floors
  simp only [Guarded, FloorsMet, hphase] at hheld hfloors
  simp only [statement, hphase] at hnext
  split at hnext <;> cases hnext
  exact ⟨hheld, hchecked.rows, trivial, hfloors⟩

/-- Every statement keeps to what it has found. -/
theorem Checked.statement (hreplayed : Replayed content db history) (hplaced : tx.Placed db)
    (hnext : tx.statement order db others = some next) : next.Checked db := by
  cases hphase : tx.phase with
  | lookup => exact hchecked.of_lookup hphase hnext
  | guard accounts => exact hchecked.of_guard hphase hnext
  | select chunks => exact hchecked.of_select hphase hnext
  | lockRows rows chunks => exact hchecked.of_lockRows hreplayed.valid hphase hnext
  | delete chunks => exact hchecked.of_delete hphase hnext
  | insert postings => exact hchecked.of_insert hphase hnext
  | activate posting rest => exact hchecked.of_activate hphase hnext
  | owner keys => exact hchecked.of_owner hphase hnext
  | floor key keys => exact hchecked.of_floor hplaced hphase hnext
  | record => exact hchecked.of_record hphase hnext
  | commit | ended => simp only [Transaction.statement, hphase] at hnext; cases hnext

end Statement

/-! ## Statements of the others -/

/-- What storing a new transfer does to the total of anything. -/
theorem Fits.keyTotal_stores (hfits : Fits content db tx)
    (hreplayed : Replayed content db history) (hlocked : tx.Locked)
    (hfresh : tx.req.transferId ∉ db.transfers) {K : Type} [DecidableEq K] (keyOf : Posting → K)
    (key : K) : keyTotal keyOf Posting.value (tx.stores db).live.values key =
      keyTotal keyOf Posting.value db.live.values key +
        keyTotal keyOf Posting.value tx.req.create key -
        keyTotal keyOf Posting.value (tx.req.consume.filterMap db.live.lookup) key := by
  have hafter := (hfits.extend hreplayed hlocked hfresh).valid.sum_live
    fun posting => if keyOf posting = key then posting.value.val else 0
  have hbefore := hreplayed.valid.sum_live
    fun posting => if keyOf posting = key then posting.value.val else 0
  simp only [keyTotal_eq_sum]
  rw [hafter, hbefore, List.map_cons, List.sum_cons, Utxo.Tx.net]
  ring

theorem Fits.liveBalance_stores (hfits : Fits content db tx)
    (hreplayed : Replayed content db history) (hlocked : tx.Locked)
    (hfresh : tx.req.transferId ∉ db.transfers) (key : BalanceKey) :
    (tx.stores db).liveBalance key = db.liveBalance key +
      keyTotal Posting.key Posting.value tx.req.create key -
      keyTotal Posting.key Posting.value (tx.req.consume.filterMap db.live.lookup) key :=
  hfits.keyTotal_stores hreplayed hlocked hfresh Posting.key key

/-- The consumed rows are locked, so they are the same in any database that has them. -/
theorem Fits.filterMap_lookup {later : Database} (hbefore : Fits content db tx)
    (hafter : Fits content later tx) (hlocked : tx.Locked) :
    tx.req.consume.filterMap later.live.lookup = tx.req.consume.filterMap db.live.lookup := by
  refine List.filterMap_congr fun id hid => ?_
  obtain ⟨row, hrow, rfl⟩ := List.mem_map.mp (hlocked id hid)
  rw [hbefore.rows row hrow, hafter.rows row hrow]

/-- A balance changes only if the commit creates or consumes a posting of it. -/
theorem Fits.liveBalance_stores_of_untouched (hfits : Fits content db tx)
    (hreplayed : Replayed content db history) (hlocked : tx.Locked)
    (hfresh : tx.req.transferId ∉ db.transfers) {key : BalanceKey} (hkey : key ∉ tx.touched) :
    (tx.stores db).liveBalance key = db.liveBalance key := by
  have hcreate : keyTotal Posting.key Posting.value tx.req.create key = 0 := by
    refine keyTotal_eq_zero fun posting hposting heq => hkey ?_
    exact List.mem_dedup.mpr (List.mem_append_right _ (List.mem_map.mpr ⟨posting, hposting, heq⟩))
  have hconsume : keyTotal Posting.key Posting.value
      (tx.req.consume.filterMap db.live.lookup) key = 0 := by
    refine keyTotal_eq_zero fun posting hposting heq => hkey ?_
    obtain ⟨id, hid, hlookup⟩ := List.mem_filterMap.mp hposting
    obtain ⟨row, hrow, rfl⟩ := List.mem_map.mp (hlocked id hid)
    have hsame : row = posting := Option.some.inj ((hfits.rows row hrow).symm.trans hlookup)
    exact List.mem_dedup.mpr
      (List.mem_append_left _ (List.mem_map.mpr ⟨row, hrow, hsame ▸ heq⟩))
  rw [hfits.liveBalance_stores hreplayed hlocked hfresh, hcreate, hconsume]
  simp

/-- What a transaction has found holds as long as the accounts that it has locked stay
as they are, and with them the balances that it touches. -/
theorem Checked.later {after : Database} (hchecked : tx.Checked db)
    (hcovers : Covers content tx.req) (hfits : Fits content db tx)
    (hreplayed : Replayed content db history)
    (hsame : ∀ id ∈ tx.accounts, after.accounts.lookup id = db.accounts.lookup id)
    (hfloored : tx.Locked → ∀ key, key.1 ∈ tx.accounts → tx.Floored db key →
      tx.Floored after key) : tx.Checked after := by
  have hholds : ∀ id, tx.Holds db id → tx.Holds after id := by
    rintro id ⟨hid, hopen⟩
    exact ⟨hid, by rwa [hsame id hid]⟩
  have htouched : ∀ key ∈ tx.touched, key.1 ∈ tx.req.involved := fun _ hkey =>
    hchecked.involved_of_touched hcovers hfits hreplayed hkey
  have hguarded := hchecked.guarded
  have hfloors := hchecked.floors
  have hplaced := hfits.placed
  refine ⟨?_, hchecked.rows, hchecked.selecting, ?_⟩
  · cases hphase : tx.phase <;> simp only [Guarded, hphase] at hguarded ⊢
    case guard =>
      obtain ⟨done, hdone, hopen⟩ := hguarded
      exact ⟨done, hdone, fun id hid => hholds id (hopen id hid)⟩
    all_goals exact fun id hid => hholds id (hguarded id hid)
  · cases hphase : tx.phase <;> simp only [Guarded, FloorsMet, Placed, hphase] at *
    case owner | floor =>
      intro key hkey hlater
      exact hfloored hplaced.2.1 key (hguarded _ (htouched key hkey)).1 (hfloors key hkey hlater)
    case record | commit =>
      intro key hkey
      exact hfloored hplaced.2.1 key (hguarded _ (htouched key hkey)).1 (hfloors key hkey)

theorem Checked.putAccount {account : Account} (hchecked : tx.Checked db)
    (hcovers : Covers content tx.req) (hfits : Fits content db tx)
    (hreplayed : Replayed content db history) (hfree : account.id ∉ tx.accounts) :
    tx.Checked { db with accounts := db.accounts.insert account.id account } := by
  have hsame : ∀ id ∈ tx.accounts,
      (db.accounts.insert account.id account).lookup id = db.accounts.lookup id := by
    intro id hid
    exact AList.lookup_insert_ne fun heq => hfree (heq ▸ hid)
  refine hchecked.later hcovers hfits hreplayed hsame fun _ key hkey hfloored => ?_
  intro hfresh found hlookup hforbids
  exact hfloored hfresh found ((hsame key.1 hkey).symm.trans hlookup) hforbids

/-- A commit leaves the balances of the accounts alone that another transaction holds. -/
theorem Checked.commit (hchecked : other.Checked db) (hcovers : Covers content other.req)
    (hother : Fits content db other) (hreplayed : Replayed content db history)
    (hafter : Fits content (tx.stores db) other) (hfits : Fits content db tx)
    (hlocked : tx.Locked) (hfresh : tx.req.transferId ∉ db.transfers)
    (hapart : ∀ key ∈ tx.touched, key.1 ∉ other.accounts) : other.Checked (tx.stores db) := by
  refine hchecked.later hcovers hother hreplayed (fun _ _ => rfl) fun hrows key hkey hfloored => ?_
  intro hnew account hlookup hforbids
  have hunstored : other.req.transferId ∉ db.transfers :=
    fun hmem => hnew ((AList.mem_insert _).mpr (.inr hmem))
  have hleast := hfloored hunstored account hlookup hforbids
  have hkept := hfits.liveBalance_stores_of_untouched hreplayed hlocked hfresh
    fun htouched => hapart key htouched hkey
  rw [hother.liveBalance_stores hreplayed hrows hunstored] at hleast
  rw [hafter.liveBalance_stores (hfits.extend hreplayed hlocked hfresh) hrows hnew, hkept,
    hother.filterMap_lookup hafter hrows]
  exact hleast

end Transaction

end Kuatia.ReadCommitted
