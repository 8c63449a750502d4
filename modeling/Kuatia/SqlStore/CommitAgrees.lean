import Kuatia.SqlStore.Commit
import Kuatia.SqlStore.PostingCalls
import Kuatia.Storage.Live

/-! # Where the commits of the two stores agree

The checks of the two stores read the same facts in the same order, with one
difference: the floor of the SQL store also counts reserved postings.
-/

namespace Kuatia

open Sql
open InMemoryStore (Refusal)

variable [MoneyWidth]

/-! ## The postings after a commit -/

namespace PostingTables

theorem applyEach_spend_active (ids : List PostingId) (tables : PostingTables) :
    (tables.applyEach (PostingTables.spend none) ids).2 =
      { tables with active := tables.active.eraseAll ids } := by
  induction ids generalizing tables with
  | nil => rfl
  | cons id ids ih =>
      rw [applyEach_snd_cons, ih]
      by_cases hmem : id ∈ tables.active
      · have hspend : tables.spend none id =
            some { tables with active := tables.active.erase id } := if_pos hmem
        rw [hspend]
        rfl
      · have hspend : tables.spend none id = none := if_neg hmem
        have herase : tables.active.erase id = tables.active := by
          apply AList.ext
          exact List.kerase_of_notMem_keys hmem
        rw [hspend, Option.getD_none]
        change _ = { tables with active := HashMap.eraseAll (tables.active.erase id) ids }
        rw [herase]

theorem applyEach_add {postings : List Posting} {tables : PostingTables}
    (hnodup : (postings.map (·.id)).Nodup)
    (hfresh : ∀ posting ∈ postings, posting.id ∉ tables.immutable) :
    (tables.applyEach PostingTables.add postings).2 =
      { tables with
        immutable := InMemoryStore.insertMissing tables.immutable postings
        active := tables.active.insertAll (·.id) postings } := by
  induction postings generalizing tables with
  | nil => rfl
  | cons head tail ih =>
      rw [List.map_cons, List.nodup_cons] at hnodup
      rw [List.forall_mem_cons] at hfresh
      have hadd : tables.add head = some { tables with
          immutable := tables.immutable.insert head.id head
          active := tables.active.insert head.id head } := if_neg hfresh.1
      rw [applyEach_snd_cons, hadd, Option.getD_some, ih hnodup.2]
      · rw [InMemoryStore.insertMissing_cons, if_neg hfresh.1]
        rfl
      · intro posting hposting hmem
        rcases (AList.mem_insert _).mp hmem with heq | hmem
        · exact hnodup.1 (heq ▸ List.mem_map_of_mem hposting)
        · exact hfresh.2 posting hposting hmem

end PostingTables

/-- What a caller promises of a commit request: it names distinct postings, it
creates new ones, and it involves the owners of all of them and no one else. -/
structure WellFormedRequest (memory : InMemoryStore) (req : CommitRequest) : Prop where
  consumes : req.consume.Nodup
  creates : (req.create.map (·.id)).Nodup
  fresh : ∀ posting ∈ req.create, posting.id ∉ memory.postings.immutable
  involved : ∀ id, id ∈ req.involved ↔ (∃ posting ∈ req.create, posting.owner = id) ∨
    ∃ consumed ∈ req.consume, ∃ posting,
      memory.postings.immutable.lookup consumed = some posting ∧ posting.owner = id

namespace SamePostings

variable {store : SqlPostings} {memory : InMemoryStore} {req : CommitRequest}

/-- Creating new postings is inserting them. -/
theorem foldl_createPosting {store : SqlPostings} {tables : PostingTables}
    (hsame : SamePostings store tables) {postings : List Posting}
    (hnodup : (postings.map (·.id)).Nodup)
    (hfresh : ∀ posting ∈ postings, posting.id ∉ tables.immutable) :
    SamePostings (postings.foldl SqlPostings.createPosting store)
      (tables.applyEach PostingTables.add postings).2 := by
  induction postings generalizing store tables with
  | nil => exact hsame
  | cons head tail ih =>
      rw [List.map_cons, List.nodup_cons] at hnodup
      rw [List.forall_mem_cons] at hfresh
      have hadd : tables.add head = some { tables with
          immutable := tables.immutable.insert head.id head
          active := tables.active.insert head.id head } := if_neg hfresh.1
      have hhead := hsame.matches_add head
      rw [hadd] at hhead
      have hone : (store.postings.insertIgnore head.toRow).1 = 1 := by
        rw [Table.insertIgnore_count, Posting.key_toRow, hsame.recorded,
          AList.lookup_eq_none.mpr hfresh.1]
        rfl
      have hcreate : (store.insertPosting head).2 = store.createPosting head := by
        rw [SqlPostings.insertPosting]
        simp only [hone, if_true]
        rfl
      rw [List.foldl_cons, PostingTables.applyEach_snd_cons, hadd]
      have hnext := hhead.2
      rw [hcreate] at hnext
      refine ih hnext hnodup.2 fun posting hposting hmem => ?_
      rcases (AList.mem_insert _).mp hmem with heq | hmem
      · exact hnodup.1 (heq ▸ List.mem_map_of_mem hposting)
      · exact hfresh.2 posting hposting hmem

/-- Both stores write the same postings when the created ones are new. -/
theorem write (hsame : SamePostings store memory.postings)
    (hcreates : (req.create.map (·.id)).Nodup)
    (hfresh : ∀ posting ∈ req.create, posting.id ∉ memory.postings.immutable) (clock : Clock) :
    SamePostings (store.write req) (memory.applyCommit clock req).postings := by
  have hspent := (hsame.deactivate req.consume none).2
  have hwritten := hspent.foldl_createPosting hcreates (by
    rw [PostingTables.applyEach_spend_active]
    exact hfresh)
  rw [PostingTables.applyEach_add hcreates (by
    rw [PostingTables.applyEach_spend_active]
    exact hfresh), PostingTables.applyEach_spend_active] at hwritten
  have htables : (memory.applyCommit clock req).postings =
      { immutable := InMemoryStore.insertMissing memory.postings.immutable req.create
        active := (memory.postings.active.eraseAll req.consume).insertAll (·.id) req.create
        reserved := memory.postings.reserved } := by
    simp [InMemoryStore.applyCommit]
  rw [htables]
  exact hwritten

/-! ## The rows that the commit reads -/

theorem mem_activeRows_iff (hsame : SamePostings store memory.postings) (order : IterationOrder)
    {ids : List PostingId} {live : LivePostingRow} :
    live ∈ store.activeRows order ids ↔ ∃ id ∈ ids, ∃ posting,
      memory.postings.active.lookup id = some posting ∧ live = ⟨posting.toRow, none⟩ := by
  simp only [SqlPostings.activeRows, List.mem_flatMap, order.mem_arrange, Table.select,
    List.mem_filter, Bool.and_eq_true, decide_eq_true_eq, idPredicate_iff]
  constructor
  · rintro ⟨chunk, hchunk, hlive, ⟨id, hid, hkey⟩, hnone⟩
    have hlookup := Table.lookup_of_mem hlive
    rw [LivePostingRow.key, hkey, hsame.live] at hlookup
    obtain ⟨_, hmem⟩ | ⟨_, _, _, _, rfl⟩ := PostingTables.liveRow_cases hlookup
    · obtain ⟨posting, hactive⟩ := HashMap.mem_iff_exists_lookup.mp hmem
      rw [PostingTables.liveRow_of_active hactive] at hlookup
      refine ⟨id, ?_, posting, hactive, (Option.some.inj hlookup).symm⟩
      rw [← flatten_id_chunks ids]
      exact List.mem_flatten.mpr ⟨chunk, hchunk, hid⟩
    · cases hnone
  · rintro ⟨id, hid, posting, hactive, rfl⟩
    rw [← flatten_id_chunks ids] at hid
    obtain ⟨chunk, hchunk, hid⟩ := List.mem_flatten.mp hid
    have hlookup := hsame.live id
    rw [PostingTables.liveRow_of_active hactive] at hlookup
    obtain ⟨hlive, hkey⟩ := Table.lookup_eq_some_iff.mp hlookup
    exact ⟨chunk, hchunk, hlive, ⟨id, hid, hkey⟩, rfl⟩

theorem active_id (hsame : SamePostings store memory.postings) {id : PostingId}
    {posting : Posting} (hactive : memory.postings.active.lookup id = some posting) :
    posting.id = id := hsame.keyed id posting (hsame.sound.active id posting hactive)

theorem key_mem_activeRows_iff (hsame : SamePostings store memory.postings)
    (order : IterationOrder) {ids : List PostingId} {id : PostingId} (hid : id ∈ ids) :
    id.key ∈ (store.activeRows order ids).map LivePostingRow.key ↔ id ∈ memory.postings.active := by
  simp only [List.mem_map, hsame.mem_activeRows_iff]
  constructor
  · rintro ⟨_, ⟨other, _, posting, hactive, rfl⟩, hkey⟩
    have heq : other = id := by
      rw [← hsame.active_id hactive]
      exact PostingId.key_inj.mp hkey
    exact heq ▸ HashMap.mem_iff_exists_lookup.mpr ⟨posting, hactive⟩
  · intro hmem
    obtain ⟨posting, hactive⟩ := HashMap.mem_iff_exists_lookup.mp hmem
    refine ⟨_, ⟨id, hid, posting, hactive, rfl⟩, ?_⟩
    change posting.id.key = id.key
    rw [hsame.active_id hactive]

theorem balanceKey_toRow (posting : Posting) (reservation : Option Int64) :
    LivePostingRow.balanceKey ⟨posting.toRow, reservation⟩ = posting.key := by
  simp [LivePostingRow.balanceKey, Posting.toRow, Posting.key]

end SamePostings

/-! ## The live rows as a whole -/

/-- The live postings with their reservations. -/
def PostingTables.liveEntries (tables : PostingTables) : List (Posting × Option Int64) :=
  tables.active.values.map (fun posting => (posting, none)) ++
    tables.reserved.values.map fun entry => (entry.1, some entry.2.id)

theorem SamePostings.live_rows_perm {store : SqlPostings} {tables : PostingTables}
    (hsame : SamePostings store tables) :
    store.live.rows.Perm (tables.liveEntries.map fun entry => ⟨entry.1.toRow, entry.2⟩) := by
  have hactive : ∀ id posting, tables.active.lookup id = some posting → posting.id = id :=
    fun id posting hlookup => hsame.keyed id posting (hsame.sound.active id posting hlookup)
  have hreserved : ∀ id (entry : Posting × ReservationId), tables.reserved.lookup id = some entry →
      entry.1.id = id :=
    fun id entry hlookup => hsame.keyed id entry.1 (hsame.sound.reserved id entry.1 entry.2 hlookup)
  have hkeys : ((tables.liveEntries.map fun entry =>
      (⟨entry.1.toRow, entry.2⟩ : LivePostingRow)).map LivePostingRow.key).Nodup := by
    have hids : (tables.active.values.map (·.id) ++
        tables.reserved.values.map fun entry => entry.1.id).Nodup := by
      apply List.nodup_append.mpr
      refine ⟨HashMap.nodup_map_values hactive, HashMap.nodup_map_values hreserved, ?_⟩
      rintro id hleft _ hright rfl
      obtain ⟨posting, hposting, rfl⟩ := List.mem_map.mp hleft
      obtain ⟨entry, hentry, heq⟩ := List.mem_map.mp hright
      obtain ⟨_, hposting⟩ := HashMap.mem_values_iff.mp hposting
      obtain ⟨_, hentry⟩ := HashMap.mem_values_iff.mp hentry
      have hposition := hactive _ _ hposting
      have hother := hreserved _ _ hentry
      refine hsame.sound.disjoint posting.id ?_ ?_
      · exact hposition ▸ HashMap.mem_iff_exists_lookup.mpr ⟨posting, hposting⟩
      · rw [← heq, hother]
        exact HashMap.mem_iff_exists_lookup.mpr ⟨entry, hentry⟩
    have hmap := hids.map (f := PostingId.key) fun _ _ => PostingId.key_inj.mp
    rw [List.map_append, List.map_map, List.map_map] at hmap
    rw [PostingTables.liveEntries, List.map_append, List.map_append, List.map_map, List.map_map,
      List.map_map, List.map_map]
    exact hmap
  -- both lists are free of repetitions, so having the same rows is enough
  apply (List.perm_ext_iff_of_nodup (.of_map _ store.live.nodup) (.of_map _ hkeys)).mpr
  intro live
  simp only [PostingTables.liveEntries, List.mem_map, List.mem_append, HashMap.mem_values_iff]
  constructor
  · intro hlive
    obtain ⟨id, hkey⟩ := hsame.liveKey live hlive
    have hlookup := Table.lookup_of_mem hlive
    rw [hkey, hsame.live] at hlookup
    obtain ⟨_, hmem⟩ | ⟨posting, reservation, _, hentry, rfl⟩ :=
      PostingTables.liveRow_cases hlookup
    · obtain ⟨posting, hposting⟩ := HashMap.mem_iff_exists_lookup.mp hmem
      rw [PostingTables.liveRow_of_active hposting] at hlookup
      cases hlookup
      exact ⟨(posting, none), .inl ⟨posting, ⟨id, hposting⟩, rfl⟩, rfl⟩
    · exact ⟨(posting, some reservation.id), .inr ⟨(posting, reservation), ⟨id, hentry⟩, rfl⟩, rfl⟩
  · rintro ⟨_, ⟨posting, ⟨id, hposting⟩, rfl⟩ | ⟨entry, ⟨id, hentry⟩, rfl⟩, rfl⟩
    · have hlookup := hsame.live id
      rw [PostingTables.liveRow_of_active hposting] at hlookup
      exact (Table.lookup_eq_some_iff.mp hlookup).1
    · have hlookup := hsame.live id
      rw [PostingTables.liveRow_of_reserved hsame.sound hentry] at hlookup
      exact (Table.lookup_eq_some_iff.mp hlookup).1

/-- The amount of a live row, zero when the column cannot be read. -/
def LivePostingRow.amount (live : LivePostingRow) : Int :=
  ((Cent.fromStr live.row.value).map Cent.val).getD 0

theorem LivePostingRow.amount_toRow (posting : Posting) (reservation : Option Int64) :
    LivePostingRow.amount ⟨posting.toRow, reservation⟩ = posting.value.val := by
  simp [LivePostingRow.amount, Posting.toRow, Cent.fromStr_toText]

theorem map_val_of_read {rows : List LivePostingRow} {values : List Cent}
    (hread : List.Forall₂ (fun live value => Cent.fromStr live.row.value = some value) rows
      values) : values.map Cent.val = rows.map LivePostingRow.amount := by
  induction hread with
  | nil => rfl
  | @cons live value _ _ hhead _ ih =>
      have hamount : value.val = live.amount := by simp [LivePostingRow.amount, hhead]
      rw [List.map_cons, List.map_cons, hamount, ih]

omit [MoneyWidth] in
theorem toInt32_eq_iff {first second : UInt32} : first.toInt32 = second.toInt32 ↔ first = second := by
  constructor
  · intro heq
    have hback := congrArg Int32.toUInt32 heq
    simpa using hback
  · exact congrArg _

/-- The sum of the live rows is that of the active and the reserved postings. -/
theorem val_of_liveBalance [Json] {store : SqlStore} {tables : PostingTables}
    (hsame : SamePostings store.postings tables) {order : IterationOrder} {key : BalanceKey}
    {value : Cent} (hbalance : store.liveBalance order key = .ok value) :
    value.val = keyTotal Posting.key Posting.value
      (tables.active.values ++ tables.reserved.values.map Prod.fst) key := by
  obtain ⟨values, hvalues, hsum⟩ := Except.bind_eq_ok_iff.mp hbalance
  have hread := (List.mapM_eq_ok_iff.mp hvalues).imp fun live value hvalue => by
    show Cent.fromStr live.row.value = some value
    split at hvalue
    next heq =>
      cases hvalue
      exact heq
    next => cases hvalue
  have hperm := ((order.arrange_perm _).trans
    (hsame.live_rows_perm.filter fun live => live.row.owner = key.1.id &&
      live.row.subaccount = key.1.sub && live.row.asset = key.2.id.toInt32)).map
        LivePostingRow.amount
  have hentries : tables.active.values ++ tables.reserved.values.map Prod.fst =
      tables.liveEntries.map Prod.fst := by
    simp [PostingTables.liveEntries, Function.comp_def]
  have hmatch : ∀ posting : Posting, (decide (posting.owner.id = key.1.id) &&
      decide (posting.owner.sub = key.1.sub) &&
      decide (posting.asset.id.toInt32 = key.2.id.toInt32)) = decide (posting.key = key) := by
    intro posting
    rw [← Bool.decide_and, ← Bool.decide_and, decide_eq_decide, toInt32_eq_iff, and_assoc]
    obtain ⟨⟨id, sub⟩, ⟨asset⟩⟩ := key
    obtain ⟨_, ⟨_, _⟩, ⟨_⟩, _⟩ := posting
    simp [Posting.key, and_assoc]
  rw [Cent.val_of_checkedSum (Except.mapError_eq_ok_iff.mp hsum), map_val_of_read hread]
  rw [Table.select, hperm.sum_eq, hentries, keyTotal, List.filter_map, List.filter_map,
    List.map_map, List.map_map]
  congr 1
  have hamount : LivePostingRow.amount ∘ (fun entry : Posting × Option Int64 =>
      (⟨entry.1.toRow, entry.2⟩ : LivePostingRow)) =
      (fun posting : Posting => posting.value.val) ∘ Prod.fst := by
    funext entry
    exact LivePostingRow.amount_toRow entry.1 entry.2
  rw [hamount]
  congr 1
  apply List.filter_congr
  intro entry _
  exact hmatch entry.1

/-- The balances of the postings that a commit consumes or creates. -/
def Touches (memory : InMemoryStore) (req : CommitRequest) (key : BalanceKey) : Prop :=
  (∃ posting ∈ req.create, posting.key = key) ∨
    ∃ id ∈ req.consume, ∃ posting,
      memory.postings.active.lookup id = some posting ∧ posting.key = key

section Guards

variable [Json] {store : SqlStore} {memory : InMemoryStore} {req : CommitRequest}
  {order : IterationOrder}

theorem SameStores.freezeGuard_eq (hsame : SameStores store memory) :
    store.freezeGuard req = memory.freezeGuard req := by
  unfold SqlStore.freezeGuard InMemoryStore.freezeGuard
  congr 1
  funext id
  rw [hsame.accounts.lockedAccount, InMemoryStore.accountOf]
  cases memory.latest id <;> rfl

omit [Json] in
theorem forM_eq_find? {ids : List PostingId} {passes : PostingId → Prop} [DecidablePred passes]
    (refusal : PostingId → Refusal) :
    (ids.forM fun id => if passes id then .ok () else .error (refusal id)) =
      match ids.find? fun id => ¬passes id with
      | some missing => (.error (refusal missing) : Except Refusal Unit)
      | none => .ok () := by
  induction ids with
  | nil => rfl
  | cons id ids ih =>
      rw [List.forM, List.find?_cons]
      by_cases hid : passes id
      · simp only [hid, if_true, not_true_eq_false, decide_false]
        exact ih
      · simp only [hid, if_false, not_false_eq_true, decide_true]
        rfl

theorem SameStores.doubleSpendGuard_eq (hsame : SameStores store memory) :
    store.doubleSpendGuard order req = memory.doubleSpendGuard req := by
  have hmem : ∀ id ∈ req.consume,
      (id.key ∉ (store.postings.activeRows order req.consume).map LivePostingRow.key) ↔
        ¬id ∈ memory.postings.active :=
    fun id hid => (hsame.postings.key_mem_activeRows_iff order hid).not
  rw [InMemoryStore.doubleSpendGuard, forM_eq_find?, SqlStore.doubleSpendGuard]
  have hfind : req.consume.find? (fun id =>
      id.key ∉ (store.postings.activeRows order req.consume).map LivePostingRow.key) =
      req.consume.find? fun id => ¬id ∈ memory.postings.active := by
    apply List.find?_congr_left
    intro id hid
    exact decide_eq_decide.mpr (hmem id hid)
  cases hspent : req.consume.find? fun id => ¬id ∈ memory.postings.active with
  | none => simp only [hfind, hspent]
  | some id => simp only [hfind, hspent]

theorem SameStores.mem_touched_iff (hsame : SameStores store memory) {key : BalanceKey} :
    key ∈ store.touched order req ↔ Touches memory req key := by
  simp only [SqlStore.touched, List.mem_dedup, List.mem_append, List.mem_map,
    hsame.postings.mem_activeRows_iff, Touches]
  rw [or_comm]
  apply or_congr_right
  constructor
  · rintro ⟨_, ⟨id, hid, posting, hactive, rfl⟩, rfl⟩
    exact ⟨id, hid, posting, hactive, (SamePostings.balanceKey_toRow posting none).symm⟩
  · rintro ⟨id, hid, posting, hactive, rfl⟩
    exact ⟨_, ⟨id, hid, posting, hactive, rfl⟩, SamePostings.balanceKey_toRow posting none⟩

/-! ## The floors -/

/-- The balances that the floors look at: those that the commit touches, of
accounts that forbid overdraft. -/
def Floored (memory : InMemoryStore) (req : CommitRequest) (key : BalanceKey) : Prop :=
  Touches memory req key ∧
    ∃ account, memory.latest key.1 = some account ∧ account.forbidsOverdraft = true

/-- The balance after the commit, not counting reserved postings. -/
def unreservedAfter (memory : InMemoryStore) (req : CommitRequest) (key : BalanceKey) : Int :=
  keyTotal Posting.key Posting.value
    ((memory.postings.active.values.filter (·.id ∉ req.consume)) ++ req.create) key

/-- The sum of the reserved postings. -/
def reservedTotal (memory : InMemoryStore) (key : BalanceKey) : Int :=
  keyTotal Posting.key Posting.value (memory.postings.reserved.values.map Prod.fst) key

omit [Json] in
theorem val_of_projectedBalance {key : BalanceKey} {value : Cent}
    (hprojected : memory.projectedBalance order req key = .ok value) :
    value.val = unreservedAfter memory req key := by
  simp only [InMemoryStore.projectedBalance, Except.bind_eq_ok_iff] at hprojected
  obtain ⟨liveSum, hlive, createdSum, hcreated, hadd⟩ := hprojected
  rw [Cent.checkedAdd_eq_ok_iff.mp hadd, Cent.val_of_checkedSum hlive,
    Cent.val_of_checkedSum hcreated, unreservedAfter, keyTotal_append, keyTotal, keyTotal,
    List.map_map, List.map_map, List.filter_filter]
  congr 1
  simp only [← Bool.decide_and]
  exact (((order.arrange_perm _).filter _).map _).sum_eq

omit [Json] in
theorem mem_touchedAssets_iff {id : AccountId} {asset : AssetId} :
    asset ∈ memory.touchedAssets req id ↔ Touches memory req (id, asset) := by
  simp only [InMemoryStore.touchedAssets, List.mem_dedup, List.mem_append, List.mem_map,
    List.mem_filter, List.mem_filterMap, decide_eq_true_eq, Touches, Posting.key, Prod.mk.injEq]
  grind

omit [Json] in
theorem WellFormedRequest.involved_of_touches (hwell : WellFormedRequest memory req)
    (hsound : memory.postings.Sound) {key : BalanceKey} (htouches : Touches memory req key) :
    key.1 ∈ req.involved := by
  apply (hwell.involved key.1).mpr
  apply htouches.imp
  · rintro ⟨posting, hposting, rfl⟩
    exact ⟨posting, hposting, rfl⟩
  · rintro ⟨id, hid, posting, hactive, rfl⟩
    exact ⟨id, hid, posting, hsound.active id posting hactive, rfl⟩

/-- The sums that the two floors compute all stay in range. -/
structure NoOverflow (store : SqlStore) (memory : InMemoryStore) (order sqlOrder : IterationOrder)
    (req : CommitRequest) : Prop where
  inMemory : ∀ key, Floored memory req key →
    ∃ value, memory.projectedBalance order req key = .ok value
  inSql : ∀ key, Floored memory req key →
    ∃ value, (store.written req).liveBalance sqlOrder key = .ok value

omit [Json] in
/-- With all sums in range, the floor passes or finds a balance below zero. -/
theorem memoryFloor_cases (hwell : WellFormedRequest memory req)
    (hsound : memory.postings.Sound)
    (hfreeze : memory.freezeGuard req = .ok ())
    (hsums : ∀ key, Floored memory req key →
      ∃ value, memory.projectedBalance order req key = .ok value) :
    (memory.overdraftFloor order req = .ok () ∧
      ∀ key, Floored memory req key → 0 ≤ unreservedAfter memory req key) ∨
    (∃ id asset projected, memory.overdraftFloor order req =
      .error (.rejected (.overdraftExceeded id asset projected))) ∧
      ∃ key, Floored memory req key ∧ unreservedAfter memory req key < 0 := by
  cases hfloor : memory.overdraftFloor order req with
  | ok _ =>
      refine .inl ⟨rfl, fun key hfloored => ?_⟩
      obtain ⟨htouches, account, hlatest, hforbids⟩ := hfloored
      have hid := hwell.involved_of_touches hsound htouches
      have hpass := List.forM_eq_ok_iff.mp hfloor key.1 hid
      rw [Except.bind_eq_ok_iff] at hpass
      obtain ⟨account', haccount, hpass⟩ := hpass
      rw [InMemoryStore.accountOf_eq_ok_iff, hlatest] at haccount
      cases haccount
      rw [hforbids] at hpass
      have hasset := List.forM_eq_ok_iff.mp hpass key.2
        ((order.mem_arrange).mpr (mem_touchedAssets_iff.mpr htouches))
      obtain ⟨value, hvalue, hsign⟩ := Except.bind_eq_ok_iff.mp hasset
      have hprojected := Except.mapError_eq_ok_iff.mp hvalue
      rw [← val_of_projectedBalance hprojected]
      by_contra hnegative
      rw [if_pos (Cent.isNegative_iff.mpr (by omega))] at hsign
      cases hsign
  | error refusal =>
      obtain ⟨id, hid, hfails⟩ := List.exists_of_forM_eq_error hfloor
      -- the freeze guard has found the account, so the floor is not missing it
      obtain ⟨account, hlatest, _⟩ := InMemoryStore.freezeGuard_eq_ok_iff.mp hfreeze id hid
      have haccount := InMemoryStore.accountOf_eq_ok_iff.mpr hlatest
      rw [haccount] at hfails
      change (if (!account.forbidsOverdraft) = true then _ else _) = _ at hfails
      by_cases hforbids : account.forbidsOverdraft = true
      · rw [hforbids] at hfails
        obtain ⟨asset, hasset, hfails⟩ := List.exists_of_forM_eq_error hfails
        have htouches := mem_touchedAssets_iff.mp ((order.mem_arrange).mp hasset)
        have hfloored : Floored memory req (id, asset) := ⟨htouches, account, hlatest, hforbids⟩
        obtain ⟨value, hvalue⟩ := hsums _ hfloored
        rw [hvalue] at hfails
        change (if value.isNegative = true then _ else _) = _ at hfails
        split at hfails
        next hnegative =>
          cases hfails
          refine .inr ⟨⟨id, asset, value, rfl⟩, _, hfloored, ?_⟩
          rw [← val_of_projectedBalance hvalue]
          exact Cent.isNegative_iff.mp hnegative
        next => cases hfails
      · rw [if_pos (by simp [hforbids])] at hfails
        cases hfails

/-- The rows that the commit leaves sum to what is active and what is reserved. -/
theorem val_of_writtenBalance (hsame : SameStores store memory)
    (hwell : WellFormedRequest memory req) {key : BalanceKey} {value : Cent}
    (hbalance : (store.written req).liveBalance order key = .ok value) :
    value.val = unreservedAfter memory req key + reservedTotal memory key := by
  have hwritten := hsame.postings.write hwell.creates hwell.fresh none
  have hpostings : (memory.applyCommit none req).postings =
      { immutable := InMemoryStore.insertMissing memory.postings.immutable req.create
        active := (memory.postings.active.eraseAll req.consume).insertAll (·.id) req.create
        reserved := memory.postings.reserved } := by
    simp [InMemoryStore.applyCommit]
  have hfresh : ∀ posting ∈ req.create,
      posting.id ∉ memory.postings.active.eraseAll req.consume := by
    intro posting hposting hmem
    obtain ⟨old, hold⟩ := HashMap.mem_iff_exists_lookup.mp (HashMap.mem_eraseAll.mp hmem).1
    exact hwell.fresh posting hposting (HashMap.mem_iff_exists_lookup.mpr
      ⟨old, hsame.postings.sound.active _ _ hold⟩)
  have hunspent := HashMap.values_eraseAll_perm_filter req.consume
    fun id posting (hlookup : memory.postings.active.lookup id = some posting) =>
      hsame.postings.active_id hlookup
  have hvalues := ((HashMap.values_insertAll_perm hwell.creates hfresh).trans
    (hunspent.append_left req.create)).trans List.perm_append_comm
  rw [val_of_liveBalance hwritten hbalance, hpostings, keyTotal_append, keyTotal_perm hvalues]
  rfl

/-- The floor of the SQL store passes or finds a balance below zero, where
reserved postings count too. -/
theorem sqlFloor_cases (hsame : SameStores store memory) (hwell : WellFormedRequest memory req)
    {keys : List BalanceKey} (hkeys : ∀ key, key ∈ keys ↔ Touches memory req key)
    (hsums : ∀ key, Floored memory req key →
      ∃ value, (store.written req).liveBalance order key = .ok value) :
    ((store.written req).overdraftFloor order keys = .ok () ∧
      ∀ key, Floored memory req key →
        0 ≤ unreservedAfter memory req key + reservedTotal memory key) ∨
    (∃ id asset projected, (store.written req).overdraftFloor order keys =
      .error (.rejected (.overdraftExceeded id asset projected))) ∧
      ∃ key, Floored memory req key ∧
        unreservedAfter memory req key + reservedTotal memory key < 0 := by
  have hlocked : ∀ id, (store.written req).lockedAccount id = .ok (memory.latest id) :=
    hsame.accounts.lockedAccount
  cases hfloor : (store.written req).overdraftFloor order keys with
  | ok _ =>
      refine .inl ⟨rfl, fun key hfloored => ?_⟩
      obtain ⟨htouches, account, hlatest, hforbids⟩ := hfloored
      have hpass := List.forM_eq_ok_iff.mp hfloor key
        ((order.mem_arrange).mpr ((hkeys key).mpr htouches))
      rw [hlocked, hlatest] at hpass
      change (if (!account.forbidsOverdraft) = true then _ else _) = _ at hpass
      rw [hforbids] at hpass
      obtain ⟨value, hvalue, hsign⟩ := Except.bind_eq_ok_iff.mp hpass
      have hbalance := Except.mapError_eq_ok_iff.mp hvalue
      rw [← val_of_writtenBalance hsame hwell hbalance]
      by_contra hnegative
      rw [if_pos (Cent.isNegative_iff.mpr (by omega))] at hsign
      cases hsign
  | error refusal =>
      obtain ⟨key, hkey, hfails⟩ := List.exists_of_forM_eq_error hfloor
      have htouches := (hkeys key).mp ((order.mem_arrange).mp hkey)
      rw [hlocked] at hfails
      change (if (!((memory.latest key.1).map Account.forbidsOverdraft).getD false) = true
        then _ else _) = _ at hfails
      split at hfails
      next => cases hfails
      next hforbids =>
        cases hlatest : memory.latest key.1 with
        -- an account that is missing counts as one that permits overdraft
        | none => simp [hlatest] at hforbids
        | some account =>
            have hfloored : Floored memory req key :=
              ⟨htouches, account, hlatest, by simpa [hlatest] using hforbids⟩
            obtain ⟨value, hvalue⟩ := hsums key hfloored
            rw [hvalue] at hfails
            change (if value.isNegative = true then _ else _) = _ at hfails
            split at hfails
            next hnegative =>
              cases hfails
              refine .inr ⟨⟨key.1, key.2, value, rfl⟩, key, hfloored, ?_⟩
              rw [← val_of_writtenBalance hsame hwell hvalue]
              exact Cent.isNegative_iff.mp hnegative
            next => cases hfails

end Guards

end Kuatia
