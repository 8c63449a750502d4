import Kuatia.SqlStore.Postings
import Mathlib.Data.Set.List

/-! # The posting primitives agree

A chunked statement does what its single-id forms do one after the other, and
each of those matches the step of the in-memory tables. So every call, with any
list of ids, gives the same answer on both stores and keeps them the same.
-/

namespace Kuatia

open Sql

variable [MoneyWidth]

omit [MoneyWidth] in
theorem flatten_id_chunks (ids : List PostingId) : (ids.chunks MAX_IDS_PER_QUERY).flatten = ids :=
  List.flatten_chunks (by decide) ids

namespace SamePostings

variable {store : SqlPostings} {tables : PostingTables}

/-- A chunked statement over the live table matches the steps of all its ids. -/
theorem chunked (hsame : SamePostings store tables)
    {chunked : List PostingId → Table LivePostingRow.key → Nat × Table LivePostingRow.key}
    {single : PostingId → Table LivePostingRow.key → Nat × Table LivePostingRow.key}
    {step : PostingTables → PostingId → Option PostingTables}
    (hchunked : ∀ ids live, chunked ids live = forEach single ids live)
    (hsingle : ∀ id live tables, SamePostings ⟨store.postings, live⟩ tables →
      Matches (fun live tables => SamePostings ⟨store.postings, live⟩ tables) (single id live)
        tables (step tables id))
    (ids : List PostingId) :
    (forEach chunked (ids.chunks MAX_IDS_PER_QUERY) store.live).1 = (tables.applyEach step ids).1 ∧
      SamePostings
        { store with live := (forEach chunked (ids.chunks MAX_IDS_PER_QUERY) store.live).2 }
        (tables.applyEach step ids).2 := by
  rw [forEach_flatten hchunked, flatten_id_chunks]
  exact forEach_applyEach hsingle ids hsame

theorem reserve (hsame : SamePostings store tables) (ids : List PostingId)
    (reservation : ReservationId) :
    (store.reservePostings ids reservation).1 =
        (tables.applyEach (PostingTables.claim reservation) ids).1 ∧
      SamePostings (store.reservePostings ids reservation).2
        (tables.applyEach (PostingTables.claim reservation) ids).2 := by
  unfold SqlPostings.reservePostings
  split
  next hempty =>
    rw [List.isEmpty_iff.mp hempty]
    exact ⟨rfl, hsame⟩
  next =>
    refine hsame.chunked (fun ids live => ?_) (fun id _ _ => matches_claim reservation id) ids
    exact Table.updateWhere_any (fun live _ => by simp) ids live

theorem release (hsame : SamePostings store tables) (ids : List PostingId)
    (reservation : ReservationId) :
    (store.releasePostings ids reservation).1 =
        (tables.applyEach (PostingTables.unclaim reservation) ids).1 ∧
      SamePostings (store.releasePostings ids reservation).2
        (tables.applyEach (PostingTables.unclaim reservation) ids).2 := by
  unfold SqlPostings.releasePostings
  split
  next hempty =>
    rw [List.isEmpty_iff.mp hempty]
    exact ⟨rfl, hsame⟩
  next =>
    refine hsame.chunked (fun ids live => ?_) (fun id _ _ => matches_unclaim reservation id) ids
    exact Table.updateWhere_any (fun live _ => by simp) ids live

theorem deactivate (hsame : SamePostings store tables) (ids : List PostingId)
    (reservation : Option ReservationId) :
    (store.deactivatePostings ids reservation).1 =
        (tables.applyEach (PostingTables.spend reservation) ids).1 ∧
      SamePostings (store.deactivatePostings ids reservation).2
        (tables.applyEach (PostingTables.spend reservation) ids).2 := by
  unfold SqlPostings.deactivatePostings
  split
  next hempty =>
    rw [List.isEmpty_iff.mp hempty]
    exact ⟨rfl, hsame⟩
  next =>
    cases reservation with
    | none =>
        refine hsame.chunked (fun ids live => ?_) (fun id _ _ => matches_spend_active id) ids
        exact Table.deleteWhere_any ids live
    | some reservation =>
        refine hsame.chunked (fun ids live => ?_)
          (fun id _ _ => matches_spend_reserved reservation id) ids
        exact Table.deleteWhere_any ids live

theorem insert (hsame : SamePostings store tables) (postings : List Posting) :
    (store.insertPostings postings).1 = (tables.applyEach PostingTables.add postings).1 ∧
      SamePostings (store.insertPostings postings).2
        (tables.applyEach PostingTables.add postings).2 :=
  forEach_applyEach (fun posting _ _ => matches_add posting) postings hsame

/-! ## Fetching by id -/

omit [MoneyWidth] in
theorem idPredicate_iff {ids : List PostingId} {row : PostingRow} :
    idPredicate ids row = true ↔ ∃ id ∈ ids, row.key = id.key := by
  simp [idPredicate, matchesId_eq]

/-- The rows of a chunk, however they are returned, are those of the recorded
postings among its ids. -/
theorem exists_selected (hsame : SamePostings store tables) (order : IterationOrder)
    (chunk : List PostingId) :
    ∃ postings : List Posting,
      order.arrange (store.postings.select (idPredicate chunk)) = postings.map Posting.toRow ∧
      ∀ posting, posting ∈ postings ↔
        tables.immutable.lookup posting.id = some posting ∧ posting.id ∈ chunk := by
  have hrow : order.arrange (store.postings.select (idPredicate chunk)) ∈
      Set.range (List.map Posting.toRow) := by
    rw [Set.range_list_map]
    intro row hrow
    obtain ⟨hmem, _⟩ := List.mem_filter.mp ((order.mem_arrange).mp hrow)
    obtain ⟨posting, _, heq⟩ := hsame.mem_postings_iff.mp hmem
    exact ⟨posting, heq⟩
  obtain ⟨postings, hpostings⟩ := hrow
  refine ⟨postings, hpostings.symm, fun posting => ?_⟩
  have hinj : Function.Injective Posting.toRow := by
    intro first second heq
    have hread := rowToPosting_toRow first
    rw [heq, rowToPosting_toRow] at hread
    exact (Except.ok.inj hread).symm
  rw [← List.mem_map_of_injective hinj, hpostings, order.mem_arrange, Table.select, List.mem_filter,
    hsame.mem_postings_iff, idPredicate_iff]
  simp only [Posting.key_toRow, PostingId.key_inj]
  constructor
  · rintro ⟨⟨other, hother, heq⟩, id, hid, rfl⟩
    rw [hinj heq] at hother
    exact ⟨hother, hid⟩
  · rintro ⟨hposting, hid⟩
    exact ⟨⟨posting, hposting, rfl⟩, posting.id, hid, rfl⟩

theorem foldlM_insert_rows (postings : List Posting) (found : HashMap PostingKey Posting) :
    (postings.map Posting.toRow).foldlM (fun found row => do
      let posting ← rowToPosting row
      .ok (found.insert posting.id.key posting)) found =
      (.ok (found.insertAll (·.id.key) postings) : Except StoreError _) := by
  induction postings generalizing found with
  | nil => rfl
  | cons posting postings ih =>
      rw [List.map_cons, List.foldlM_cons, rowToPosting_toRow]
      exact ih _

/-- What has been found after some chunks are the recorded postings among their ids. -/
theorem exists_found (hsame : SamePostings store tables) (order : IterationOrder)
    (chunks : List (List PostingId)) (found : HashMap PostingKey Posting) :
    ∃ postings : List Posting,
      (∀ posting, posting ∈ postings ↔
        tables.immutable.lookup posting.id = some posting ∧ posting.id ∈ chunks.flatten) ∧
      chunks.foldlM (fun found chunk =>
        (order.arrange (store.postings.select (idPredicate chunk))).foldlM (fun found row => do
          let posting ← rowToPosting row
          .ok (found.insert posting.id.key posting)) found) found =
        (.ok (found.insertAll (·.id.key) postings) : Except StoreError _) := by
  induction chunks generalizing found with
  | nil => exact ⟨[], by simp, rfl⟩
  | cons chunk chunks ih =>
      obtain ⟨first, hfirst, hmem⟩ := hsame.exists_selected order chunk
      obtain ⟨rest, hrest, hfold⟩ := ih (found.insertAll (·.id.key) first)
      refine ⟨first ++ rest, fun posting => ?_, ?_⟩
      · rw [List.mem_append, hmem, hrest, List.flatten_cons, List.mem_append]
        tauto
      · rw [List.foldlM_cons, hfirst, foldlM_insert_rows]
        change List.foldlM _ _ chunks = _
        rw [hfold, HashMap.insertAll, HashMap.insertAll, HashMap.insertAll, List.foldl_append]

theorem getPostings_eq (hsame : SamePostings store tables) (order : IterationOrder)
    (ids : List PostingId) (memory : InMemoryStore) (hmemory : memory.postings = tables) :
    store.getPostings order ids = memory.getPostings ids := by
  unfold SqlPostings.getPostings
  split
  next hempty => rw [List.isEmpty_iff.mp hempty]; rfl
  next =>
    obtain ⟨postings, hpostings, hfold⟩ :=
      hsame.exists_found order (ids.chunks MAX_IDS_PER_QUERY) ∅
    rw [flatten_id_chunks] at hpostings
    rw [hfold]
    apply List.mapM_congr_left
    intro id hid
    have hfound : (HashMap.insertAll ∅ (fun posting : Posting => posting.id.key)
        postings).lookup id.key = tables.immutable.lookup id := by
      rw [HashMap.lookup_insertAll]
      cases hrecorded : tables.immutable.lookup id with
      | none =>
          have hnone : postings.filter (fun posting => posting.id.key = id.key) = [] := by
            apply List.filter_eq_nil_iff.mpr
            intro posting hposting hkey
            have heq := PostingId.key_inj.mp (of_decide_eq_true hkey)
            have hlookup := ((hpostings posting).mp hposting).1
            rw [heq, hrecorded] at hlookup
            cases hlookup
          rw [hnone]
          rfl
      | some recorded =>
          have hrecordedId := hsame.keyed id recorded hrecorded
          have hmem : recorded ∈ postings.filter fun posting => posting.id.key = id.key := by
            apply List.mem_filter.mpr
            rw [hpostings, hrecordedId]
            exact ⟨⟨hrecorded, hid⟩, decide_eq_true rfl⟩
          cases hlast : (postings.filter fun posting => posting.id.key = id.key).getLast? with
          | none =>
              rw [List.getLast?_eq_none_iff.mp hlast] at hmem
              cases hmem
          | some last =>
              obtain ⟨hlastMem, hkey⟩ := List.mem_filter.mp (List.mem_of_getLast? hlast)
              have heq := PostingId.key_inj.mp (of_decide_eq_true hkey)
              have hlookup := ((hpostings last).mp hlastMem).1
              rw [heq, hrecorded] at hlookup
              rw [Option.some_or, Option.some.inj hlookup]
    cases hrecorded : tables.immutable.lookup id with
    | none => rw [hfound, hmemory, hrecorded]
    | some posting => rw [hfound, hmemory, hrecorded]

omit [MoneyWidth] in
/-- Whatever the chunks and the order of the rows, each id is looked up in both tables. -/
theorem getPostingStates_eq_map (store : SqlPostings) (order : IterationOrder)
    (ids : List PostingId) :
    store.getPostingStates order ids = ids.map fun id => store.stateAt id.key := by
  unfold SqlPostings.getPostingStates
  split
  next hempty => rw [List.isEmpty_iff.mp hempty]; rfl
  next =>
    apply List.map_congr_left
    intro id hid
    rw [← flatten_id_chunks ids] at hid
    obtain ⟨chunk, hchunk, hid⟩ := List.mem_flatten.mp hid
    have hlive : (((ids.chunks MAX_IDS_PER_QUERY).flatMap fun chunk =>
        order.arrange (store.live.select fun live => idPredicate chunk live.row)).filter
        fun row => row.key = id.key).getLast? = store.live.lookup id.key := by
      apply Table.getLast?_filter_key
      · intro row hrow
        obtain ⟨chunk, _, hrow⟩ := List.mem_flatMap.mp hrow
        exact (List.mem_filter.mp ((order.mem_arrange).mp hrow)).1
      · intro row hlookup
        obtain ⟨hrow, hkey⟩ := Table.lookup_eq_some_iff.mp hlookup
        apply List.mem_flatMap.mpr
        refine ⟨chunk, hchunk, (order.mem_arrange).mpr (List.mem_filter.mpr ⟨hrow, ?_⟩)⟩
        exact idPredicate_iff.mpr ⟨id, hid, hkey⟩
    have hpresent : (id.key ∈ (ids.chunks MAX_IDS_PER_QUERY).flatMap fun chunk =>
        (order.arrange (store.postings.select (idPredicate chunk))).map PostingRow.key) ↔
        (store.postings.lookup id.key).isSome := by
      simp only [List.mem_flatMap, List.mem_map, order.mem_arrange, Table.select, List.mem_filter,
        Option.isSome_iff_exists, Table.lookup_eq_some_iff]
      constructor
      · rintro ⟨_, _, row, ⟨hrow, _⟩, hkey⟩
        exact ⟨row, hrow, hkey⟩
      · rintro ⟨row, hrow, hkey⟩
        exact ⟨chunk, hchunk, row, ⟨hrow, idPredicate_iff.mpr ⟨id, hid, hkey⟩⟩, hkey⟩
    rw [HashMap.lookup_foldl_insert, hlive, AList.lookup_empty, Option.or_none]
    simp only [hpresent, SqlPostings.stateAt]
    cases store.live.lookup id.key with
    | none => rfl
    | some live =>
        cases hreservation : live.reservation <;> simp only [Option.map_some, hreservation]

theorem getPostingStates_eq (hsame : SamePostings store tables) (order : IterationOrder)
    (ids : List PostingId) (memory : InMemoryStore) (hmemory : memory.postings = tables) :
    store.getPostingStates order ids = memory.getPostingStates ids := by
  rw [getPostingStates_eq_map]
  apply List.map_congr_left
  intro id _
  have hpresent : (store.postings.lookup id.key).isSome ↔ id ∈ tables.immutable := by
    rw [hsame.recorded, Option.isSome_map, HashMap.mem_iff_exists_lookup, Option.isSome_iff_exists]
  rw [SqlPostings.stateAt, hsame.live, hmemory]
  simp only [hpresent]
  by_cases hactive : id ∈ tables.active
  · obtain ⟨posting, hposting⟩ := HashMap.mem_iff_exists_lookup.mp hactive
    rw [PostingTables.liveRow_of_active hposting, if_pos hactive]
  · rw [if_neg hactive]
    cases hreserved : tables.reserved.lookup id with
    | some entry => rw [PostingTables.liveRow_of_reserved hsame.sound hreserved]
    | none =>
        have hnone : tables.liveRow id = none := by
          simp only [PostingTables.liveRow, AList.lookup_eq_none.mpr hactive, hreserved,
            Option.map_none]
        rw [hnone]

end SamePostings

/-! ## Any sequence of calls -/

/-- A call of a posting primitive. -/
inductive PostingCall where
  | insert (postings : List Posting)
  | reserve (ids : List PostingId) (reservation : ReservationId)
  | release (ids : List PostingId) (reservation : ReservationId)
  | deactivate (ids : List PostingId) (reservation : Option ReservationId)
  | get (ids : List PostingId)
  | states (ids : List PostingId)

/-- What a call returns. -/
inductive PostingAnswer where
  | count (changed : Nat)
  | postings (result : Except StoreError (List Posting))
  | states (states : List PostingState)

namespace PostingCall

def inMemory (store : InMemoryStore) : PostingCall → PostingAnswer × InMemoryStore
  | insert postings => (store.insertPostings postings).map .count id
  | reserve ids reservation => (store.reservePostings ids reservation).map .count id
  | release ids reservation => (store.releasePostings ids reservation).map .count id
  | deactivate ids reservation => (store.deactivatePostings ids reservation).map .count id
  | get ids => (.postings (store.getPostings ids), store)
  | states ids => (.states (store.getPostingStates ids), store)

/-- The call on the SQL store, which returns rows in any order. -/
def inSql (order : IterationOrder) (store : SqlPostings) : PostingCall → PostingAnswer × SqlPostings
  | insert postings => (store.insertPostings postings).map .count id
  | reserve ids reservation => (store.reservePostings ids reservation).map .count id
  | release ids reservation => (store.releasePostings ids reservation).map .count id
  | deactivate ids reservation => (store.deactivatePostings ids reservation).map .count id
  | get ids => (.postings (store.getPostings order ids), store)
  | states ids => (.states (store.getPostingStates order ids), store)

/-- Run the calls one after the other, and collect what they return. -/
def run {State : Type} {Call : Type*} (perform : State → Call → PostingAnswer × State) :
    List Call → State → List PostingAnswer × State
  | [], state => ([], state)
  | call :: calls, state =>
      let (answer, next) := perform state call
      let (answers, last) := run perform calls next
      (answer :: answers, last)

/-- The calls in memory, and in SQL with the order in which each returns rows. -/
def runInMemory (calls : List (IterationOrder × PostingCall)) (store : InMemoryStore) :
    List PostingAnswer × InMemoryStore :=
  run (fun store (call : IterationOrder × PostingCall) => call.2.inMemory store) calls store

def runInSql (calls : List (IterationOrder × PostingCall)) (store : SqlPostings) :
    List PostingAnswer × SqlPostings :=
  run (fun store (call : IterationOrder × PostingCall) => call.2.inSql call.1 store) calls store

/-- One call has the same answer on both stores and keeps them the same. -/
theorem agrees {store : SqlPostings} {memory : InMemoryStore}
    (hsame : SamePostings store memory.postings) (order : IterationOrder) (call : PostingCall) :
    (call.inSql order store).1 = (call.inMemory memory).1 ∧
      SamePostings (call.inSql order store).2 (call.inMemory memory).2.postings := by
  cases call with
  | insert postings =>
      obtain ⟨hcount, hafter⟩ := hsame.insert postings
      exact ⟨congrArg PostingAnswer.count hcount, hafter⟩
  | reserve ids reservation =>
      obtain ⟨hcount, hafter⟩ := hsame.reserve ids reservation
      exact ⟨congrArg PostingAnswer.count hcount, hafter⟩
  | release ids reservation =>
      obtain ⟨hcount, hafter⟩ := hsame.release ids reservation
      exact ⟨congrArg PostingAnswer.count hcount, hafter⟩
  | deactivate ids reservation =>
      obtain ⟨hcount, hafter⟩ := hsame.deactivate ids reservation
      exact ⟨congrArg PostingAnswer.count hcount, hafter⟩
  | get ids =>
      exact ⟨congrArg PostingAnswer.postings (hsame.getPostings_eq order ids memory rfl), hsame⟩
  | states ids =>
      exact ⟨congrArg PostingAnswer.states (hsame.getPostingStates_eq order ids memory rfl), hsame⟩

theorem run_agrees {store : SqlPostings} {memory : InMemoryStore}
    (hsame : SamePostings store memory.postings) (calls : List (IterationOrder × PostingCall)) :
    (runInSql calls store).1 = (runInMemory calls memory).1 ∧
      SamePostings (runInSql calls store).2 (runInMemory calls memory).2.postings := by
  induction calls generalizing store memory with
  | nil => exact ⟨rfl, hsame⟩
  | cons call calls ih =>
      obtain ⟨hanswer, hnext⟩ := agrees hsame call.1 call.2
      obtain ⟨hanswers, hlast⟩ := ih hnext
      exact ⟨congrArg₂ List.cons hanswer hanswers, hlast⟩

end PostingCall

/-- From the empty stores, any sequence of posting calls returns the same on the
SQL store as in memory, and leaves the same postings behind. -/
theorem posting_primitives_agree (calls : List (IterationOrder × PostingCall)) :
    (PostingCall.runInSql calls .empty).1 = (PostingCall.runInMemory calls .new).1 ∧
      SamePostings (PostingCall.runInSql calls .empty).2
        (PostingCall.runInMemory calls .new).2.postings := by
  have hsame : SamePostings .empty InMemoryStore.new.postings := samePostings_empty
  exact PostingCall.run_agrees hsame calls

end Kuatia
