import Kuatia.Storage.MemStore

/-! # What the store operations change

Each operation is summarised once: the fields it leaves alone, and what a
commit or a transition that takes effect has checked and done.
-/

namespace Kuatia

variable [MoneyWidth]

namespace InMemoryStore

variable (clock : Clock) (event : LedgerEvent) (store : InMemoryStore)

/-! ## Appending an event -/

@[simp] theorem appendEventLocked_postings :
    (store.appendEventLocked clock event).postings = store.postings := by
  unfold appendEventLocked
  split <;> rfl

@[simp] theorem appendEventLocked_accounts :
    (store.appendEventLocked clock event).accounts = store.accounts := by
  unfold appendEventLocked
  split <;> rfl

@[simp] theorem appendEventLocked_transfers :
    (store.appendEventLocked clock event).transfers = store.transfers := by
  unfold appendEventLocked
  split <;> rfl

@[simp] theorem appendEventLocked_transferAccounts :
    (store.appendEventLocked clock event).transferAccounts = store.transferAccounts := by
  unfold appendEventLocked
  split <;> rfl

@[simp] theorem appendEventLocked_books :
    (store.appendEventLocked clock event).books = store.books := by
  unfold appendEventLocked
  split <;> rfl

@[simp] theorem appendEventLocked_projections :
    (store.appendEventLocked clock event).projections = store.projections := by
  unfold appendEventLocked
  split <;> rfl

theorem appendEvent_store :
    (store.appendEvent clock event).2 = store.appendEventLocked clock event := by
  unfold appendEvent appendEventLocked
  cases findEvent store.events event.kind <;> rfl

/-! ## Versions -/

variable {clock event store}

theorem versions_congr {other : InMemoryStore} (haccounts : other.accounts = store.accounts)
    (id : AccountId) : other.versions id = store.versions id := by
  rw [versions, versions, haccounts]

theorem mem_versions_of_latest {id : AccountId} {account : Account}
    (hlatest : store.latest id = some account) : account ∈ store.versions id :=
  List.mem_of_getLast? hlatest

theorem getAccount_eq_ok_iff {id : AccountId} {account : Account} :
    store.getAccount id = .ok account ↔ store.latest id = some account := by
  unfold getAccount
  cases store.latest id <;> simp

theorem getAccounts_eq_ok_iff {ids : List AccountId} {accounts : List Account} :
    store.getAccounts ids = .ok accounts ↔
      List.Forall₂ (fun id account => store.latest id = some account) ids accounts := by
  simp only [getAccounts, List.mapM_eq_ok_iff, getAccount_eq_ok_iff]

theorem getPostings_eq_ok_iff {ids : List PostingId} {postings : List Posting} :
    store.getPostings ids = .ok postings ↔
      List.Forall₂ (fun id posting => store.postings.immutable.lookup id = some posting)
        ids postings := by
  rw [getPostings, List.mapM_eq_ok_iff]
  constructor <;> refine fun hall => hall.imp fun id posting => ?_
  all_goals cases store.postings.immutable.lookup id <;> simp

/-- Creating an account adds its first version, unless the account exists. -/
theorem versions_createAccount (store : InMemoryStore) (account : Account) (id : AccountId) :
    (store.createAccount account).2.versions id = store.versions id ∨
      id = account.id ∧ store.versions id = [] ∧
        (store.createAccount account).2.versions id = [account] := by
  unfold createAccount
  split
  next => exact .inl rfl
  next hnew =>
    by_cases hid : id = account.id
    · subst hid
      refine .inr ⟨rfl, ?_, ?_⟩
      · rw [versions, AList.lookup_eq_none.mpr hnew]
        rfl
      · simp [versions]
    · exact .inl (by simp [versions, hid])

/-! ## Inserting unless present -/

theorem insertMissing_cons (map : HashMap PostingId Posting) (head : Posting)
    (tail : List Posting) : insertMissing map (head :: tail) =
      insertMissing (if head.id ∈ map then map else map.insert head.id head) tail := rfl

theorem lookup_insertMissing_of_mem {map : HashMap PostingId Posting} {postings : List Posting}
    {id : PostingId} {posting : Posting} (hlookup : map.lookup id = some posting) :
    (insertMissing map postings).lookup id = some posting := by
  induction postings generalizing map with
  | nil => exact hlookup
  | cons head tail ih =>
      rw [insertMissing_cons]
      refine ih ?_
      split
      next => exact hlookup
      next hnew =>
        have hne : id ≠ head.id := fun heq =>
          hnew (heq ▸ HashMap.mem_iff_exists_lookup.mpr ⟨posting, hlookup⟩)
        rw [HashMap.lookup_insert_eq, if_neg hne, hlookup]

theorem lookup_insertMissing_cases {map : HashMap PostingId Posting} {postings : List Posting}
    {id : PostingId} {posting : Posting}
    (hlookup : (insertMissing map postings).lookup id = some posting) :
    map.lookup id = some posting ∨ posting ∈ postings ∧ posting.id = id := by
  induction postings generalizing map with
  | nil => exact .inl hlookup
  | cons head tail ih =>
      rw [insertMissing_cons] at hlookup
      obtain hold | ⟨hmem, hid⟩ := ih hlookup
      · split at hold
        next => exact .inl hold
        next =>
          rw [HashMap.lookup_insert_eq] at hold
          split at hold
          next heq =>
            cases hold
            exact .inr ⟨List.mem_cons_self, heq.symm⟩
          next => exact .inl hold
      · exact .inr ⟨List.mem_cons_of_mem _ hmem, hid⟩

/-- With distinct fresh ids, every inserted posting is found. -/
theorem lookup_insertMissing_of_fresh {map : HashMap PostingId Posting} {postings : List Posting}
    (hnodup : (postings.map (·.id)).Nodup) (hfresh : ∀ posting ∈ postings, posting.id ∉ map)
    {posting : Posting} (hposting : posting ∈ postings) :
    (insertMissing map postings).lookup posting.id = some posting := by
  induction postings generalizing map with
  | nil => cases hposting
  | cons head tail ih =>
      rw [List.map_cons, List.nodup_cons] at hnodup
      rw [insertMissing_cons, if_neg (hfresh head List.mem_cons_self)]
      rcases List.mem_cons.mp hposting with rfl | hposting
      · exact lookup_insertMissing_of_mem (AList.lookup_insert map)
      · refine ih hnodup.2 (fun other hother => ?_) hposting
        rw [AList.mem_insert, not_or]
        exact ⟨fun heq => hnodup.1 (heq ▸ List.mem_map_of_mem hother),
          hfresh other (List.mem_cons_of_mem _ hother)⟩

/-- What was there before counts, and without it the first inserted posting. -/
theorem lookup_insertMissing (map : HashMap PostingId Posting) (postings : List Posting)
    (id : PostingId) : (insertMissing map postings).lookup id =
      (map.lookup id).or (postings.find? (·.id = id)) := by
  induction postings generalizing map with
  | nil => simp [insertMissing]
  | cons head tail ih =>
      rw [insertMissing_cons, ih, List.find?_cons]
      by_cases hhead : head.id = id
      · subst hhead
        by_cases hmem : head.id ∈ map
        · obtain ⟨recorded, hlookup⟩ := HashMap.mem_iff_exists_lookup.mp hmem
          simp [hmem, hlookup]
        · simp [hmem, AList.lookup_eq_none.mpr hmem]
      · split <;> simp [hhead, Ne.symm hhead]

theorem mem_insertMissing {map : HashMap PostingId Posting} {postings : List Posting}
    {id : PostingId} :
    id ∈ insertMissing map postings ↔ id ∈ map ∨ ∃ posting ∈ postings, posting.id = id := by
  induction postings generalizing map with
  | nil => simp [insertMissing]
  | cons head tail ih =>
      rw [insertMissing_cons, ih]
      split
      next hhead => simp only [List.mem_cons, exists_eq_or_imp]; grind
      next hhead => simp only [AList.mem_insert, List.mem_cons, exists_eq_or_imp]; grind

/-! ## Committing an envelope -/

section Commit

variable {order : IterationOrder} {req : CommitRequest}

@[simp] theorem applyCommit_active : (store.applyCommit clock req).postings.active =
    (store.postings.active.eraseAll req.consume).insertAll (·.id) req.create := by
  simp [applyCommit]

@[simp] theorem applyCommit_immutable : (store.applyCommit clock req).postings.immutable =
    insertMissing store.postings.immutable req.create := by
  simp [applyCommit]

@[simp] theorem applyCommit_reserved :
    (store.applyCommit clock req).postings.reserved = store.postings.reserved := by
  simp [applyCommit]

@[simp] theorem applyCommit_accounts :
    (store.applyCommit clock req).accounts = store.accounts := by
  simp [applyCommit]

@[simp] theorem applyCommit_transfers : (store.applyCommit clock req).transfers =
    store.transfers.insert req.transferId req.record := by
  simp [applyCommit]

@[simp] theorem applyCommit_transferAccounts : (store.applyCommit clock req).transferAccounts =
    store.transferAccounts.insert req.transferId req.involved := by
  simp [applyCommit]

@[simp] theorem applyCommit_books : (store.applyCommit clock req).books = store.books := by
  simp [applyCommit]

@[simp] theorem applyCommit_projections :
    (store.applyCommit clock req).projections = store.projections := by
  simp [applyCommit]

/-- A commit either leaves the store alone, or it applies a transfer that was
not stored and passed every guard. -/
theorem commitEnvelope_cases (store : InMemoryStore) (order : IterationOrder) (clock : Clock)
    (req : CommitRequest) :
    ((store.commitEnvelope order clock req).2 = store ∧
      ∀ receipt, (store.commitEnvelope order clock req).1 ≠ .ok (.committed receipt)) ∨
    (req.transferId ∉ store.transfers ∧ store.commitGuards order req = .ok () ∧
      store.commitEnvelope order clock req =
        (.ok (.committed req.record.receipt), store.applyCommit clock req)) := by
  unfold commitEnvelope
  cases hlookup : store.transfers.lookup req.transferId with
  | some existing => exact .inl ⟨rfl, by simp⟩
  | none =>
      cases hguards : store.commitGuards order req with
      | error refusal =>
          cases refusal with
          | fault err => exact .inl ⟨rfl, by simp⟩
          | rejected reason => exact .inl ⟨rfl, by simp⟩
      | ok _ => exact .inr ⟨AList.lookup_eq_none.mp hlookup, rfl, rfl⟩

/-- What becomes of a transfer that is not stored depends on the guards only. -/
theorem commitEnvelope_of_fresh {store : InMemoryStore} {clock : Clock}
    (hfresh : req.transferId ∉ store.transfers) :
    store.commitEnvelope order clock req = match store.commitGuards order req with
      | .error (.fault err) => (.error err, store)
      | .error (.rejected reason) => (.ok (.rejected reason), store)
      | .ok () => (.ok (.committed req.record.receipt), store.applyCommit clock req) := by
  unfold commitEnvelope
  cases hlookup : store.transfers.lookup req.transferId with
  | some existing => exact absurd hlookup (by simp [AList.lookup_eq_none.mpr hfresh])
  | none => rfl

theorem accountOf_eq_ok_iff {id : AccountId} {account : Account} :
    store.accountOf id = .ok account ↔ store.latest id = some account := by
  unfold accountOf
  cases store.latest id <;> simp

theorem freezeGuard_eq_ok_iff :
    store.freezeGuard req = .ok () ↔ ∀ id ∈ req.involved, ∃ account,
      store.latest id = some account ∧ account.isFrozen = false ∧ account.isClosed = false := by
  refine List.forM_eq_ok_iff.trans (forall₂_congr fun id _ => ?_)
  simp only [Except.bind_eq_ok_iff, accountOf_eq_ok_iff]
  refine exists_congr fun account => and_congr_right fun _ => ?_
  cases account.isFrozen <;> cases account.isClosed <;> simp

theorem doubleSpendGuard_eq_ok_iff :
    store.doubleSpendGuard req = .ok () ↔ ∀ id ∈ req.consume, id ∈ store.postings.active := by
  refine List.forM_eq_ok_iff.trans (forall₂_congr fun id _ => ?_)
  split <;> simp_all

theorem commitGuards_eq_ok_iff :
    store.commitGuards order req = .ok () ↔ store.freezeGuard req = .ok () ∧
      store.doubleSpendGuard req = .ok () ∧ store.overdraftFloor order req = .ok () := by
  simp only [commitGuards, Except.bind_eq_ok_iff, Unique.exists_iff, PUnit.default_eq_unit]

end Commit

/-! ## Account transitions -/

/-- A transition appends one version at most, next to the latest one. -/
theorem commitTransition_cases (store : InMemoryStore) (clock : Clock) (next : Account)
    (event : LedgerEvent) :
    ((store.commitTransition clock next event).2 = store ∧
      (store.commitTransition clock next event).1 ≠ .ok .applied ∧
      (store.commitTransition clock next event).1 ≠ .ok .alreadyApplied) ∨
    (store.commitTransition clock next event =
      (.ok .alreadyApplied, store.appendEventLocked clock event) ∧
      ∃ current, store.latest next.id = some current ∧ current.isClosed = false ∧
        next.version ≤ current.version) ∨
    ∃ current, store.latest next.id = some current ∧ current.isClosed = false ∧
      next.version = current.version + 1 ∧ current.version.toNat + 1 < 2 ^ 64 ∧
      store.commitTransition clock next event = (.ok .applied, appendEventLocked clock event
        { store with
          accounts := store.accounts.insert next.id (store.versions next.id ++ [next]) }) := by
  unfold commitTransition latest versions
  cases haccounts : store.accounts.lookup next.id with
  | none => exact .inl ⟨rfl, nofun, nofun⟩
  | some versions =>
      cases hlast : versions.getLast? with
      | none => exact .inl (by simp [hlast])
      | some current =>
          simp only [hlast, Option.getD_some, Option.some.injEq, exists_eq_left']
          cases hclosed : current.isClosed with
          | true => simp
          | false =>
              simp only [Bool.false_eq_true, if_false, true_and]
              split
              next hold => exact .inr (.inl ⟨rfl, hold⟩)
              next =>
                split
                next => exact .inl ⟨rfl, nofun, nofun⟩
                next hroom =>
                  split
                  next => exact .inl ⟨rfl, nofun, nofun⟩
                  next hnext =>
                    have hlt := current.version.toNat_lt
                    exact .inr (.inr ⟨not_not.mp hnext, by omega, rfl⟩)

end InMemoryStore

end Kuatia
