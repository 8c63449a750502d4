import Kuatia.Collections.Cursor
import Kuatia.Sql.Ordering
import Kuatia.SqlStore.Simulation

/-! # Following the event table

A transaction draws the number of its event when it inserts the row, but the row
is seen only when the transaction commits, and by then a later number may have
been read. A consumer that polls with the last number it has received gets
every event exactly when none becomes visible at or below that number.
-/

namespace Kuatia

open Sql

section Theory

variable [MoneyWidth] [Json]

namespace SqlStore

/-! ## Inserting and reading events -/

/-- The idempotency key of the row is present. -/
def repeatedEvent (row : EventRow) (events : Table EventRow.seq) : Bool :=
  row.dedupKey.isSome && events.rows.any (·.dedupKey = row.dedupKey)

def insertEvent (row : EventRow) (events : Table EventRow.seq) : Table EventRow.seq :=
  if repeatedEvent row events then events else (events.insertIgnore row).2

def getEventsSince (events : Table EventRow.seq) (afterSeq : UInt64) (limit : UInt32) :
    Except StoreError (List LedgerEvent) :=
  if limit.toInt32 < 0 then .error (.internal "LIMIT must not be negative")
  else
    let rows := orderBy EventRow.seq (events.select (afterSeq.toInt64 < ·.seq))
    (rows.take limit.toNat).mapM rowToEvent

/-- An event that a transaction appends is inserted under the number it draws. -/
theorem appendEventTx_insertEvent {store : SqlStore} {clock : Clock} {event : LedgerEvent}
    (hfree : store.NumberFree clock event) :
    store.appendEventTx clock event = .ok { store with
      events := insertEvent (event.toRow (AutoId.next clock store.autoid).1) store.events
      autoid := (AutoId.next clock store.autoid).2 } := by
  have hkey : repeatedEvent (event.toRow (AutoId.next clock store.autoid).1) store.events =
      ((eventDedupKey event.kind).isSome &&
        store.events.rows.any (·.dedupKey = eventDedupKey event.kind)) := rfl
  rw [appendEventTx_eq, insertEvent, hkey]
  split
  next => rfl
  next hnew =>
    rw [if_neg]
    obtain ⟨key, hkey, row, hrow, hsame⟩ | hfree := hfree
    · refine absurd ?_ hnew
      rw [hkey]
      simp only [Option.isSome_some, Bool.true_and, List.any_eq_true, decide_eq_true_eq]
      exact ⟨row, hrow, hsame⟩
    · rw [hfree]
      exact Bool.false_ne_true

end SqlStore

/-! ## Transactions and a consumer -/

/-- The rows that open transactions have inserted are seen by no one else. -/
structure SqlFeed where
  lastDrawn : Option Int64
  inFlight : HashMap Nat EventRow
  events : Table EventRow.seq
  received : List LedgerEvent

/-- A transaction draws a number for its event, commits or rolls back, or the
consumer polls for a page. -/
inductive SqlFeedStep where
  | append (transaction : Nat) (seq : Int64) (event : LedgerEvent)
  | commit (transaction : Nat)
  | rollback (transaction : Nat)
  | poll (limit : UInt32)

namespace SqlFeed

def empty : SqlFeed := ⟨none, ∅, .empty, []⟩

/-- The last number that the consumer has received. -/
def position (feed : SqlFeed) : UInt64 := Cursor.position (·.seq) 0 feed.received

def poll (limit : UInt32) (feed : SqlFeed) : SqlFeed :=
  match SqlStore.getEventsSince feed.events feed.position limit with
  | .ok events => { feed with received := feed.received ++ events }
  | .error _ => feed

/-- The numbers drawn increase. An insert whose key another open transaction has
inserted waits for its end, so what is present counts at the commit. -/
def apply (feed : SqlFeed) : SqlFeedStep → Option SqlFeed
  | .append transaction seq event =>
      if transaction ∉ feed.inFlight ∧ feed.lastDrawn.all (· < seq) then
        some { feed with
          lastDrawn := some seq
          inFlight := feed.inFlight.insert transaction (event.toRow seq) }
      else none
  | .commit transaction =>
      (feed.inFlight.lookup transaction).map fun row =>
        { feed with
          inFlight := feed.inFlight.erase transaction
          events := SqlStore.insertEvent row feed.events }
  | .rollback transaction =>
      some { feed with inFlight := feed.inFlight.erase transaction }
  | .poll limit => some (feed.poll limit)

/-- The feed after some steps, if each could be taken. -/
def after (steps : List SqlFeedStep) : Option SqlFeed := steps.foldlM apply empty

/-- The committed events, in the order of their numbers. -/
def committed (feed : SqlFeed) : List LedgerEvent :=
  (orderBy EventRow.seq feed.events.rows).filterMap fun row => (rowToEvent row).toOption

end SqlFeed

/-- The number of an event as the table has it. -/
def LedgerEvent.number (event : LedgerEvent) : Int64 := event.seq.toInt64

/-- At every moment the consumer has received the committed events up to some
number, all others are ahead of it, and each poll takes it further by the size
of the page, or to the end. -/
structure DeliversCommitted (steps : List SqlFeedStep) : Prop where
  inOrder : ∀ first feed, first <+: steps → SqlFeed.after first = some feed →
    feed.received <+: feed.committed
  complete : ∀ first feed, first <+: steps → SqlFeed.after first = some feed →
    ∀ event ∈ feed.committed, event ∈ feed.received ∨ feed.position.toInt64 < event.number
  progress : ∀ first limit feed, first ++ [.poll limit] <+: steps →
    SqlFeed.after first = some feed → (feed.poll limit).received.length =
      min (feed.received.length + limit.toNat) feed.committed.length

/-- An event that becomes visible is above what the consumer has received, and
a page size is an `i32` unless nothing is left to receive. -/
def SqlFeed.Ahead (feed : SqlFeed) : SqlFeedStep → Prop
  | .append _ _ _ => True
  | .commit transaction => ∀ row, feed.inFlight.lookup transaction = some row →
      SqlStore.repeatedEvent row feed.events = false → feed.position.toInt64 < row.seq
  | .rollback _ => True
  | .poll limit => limit.toNat < 2 ^ 31 ∨ feed.received = feed.committed

/-! ## The committed events as a log -/

theorem number_of_read {row : EventRow} {event : LedgerEvent}
    (hread : rowToEvent row = .ok event) : event.number = row.seq := by
  obtain ⟨payload, _, hevent⟩ := Except.bind_eq_ok_iff.mp hread
  cases hevent
  exact Int64.toInt64_toUInt64 row.seq

theorem read_toRow (seq : Int64) (event : LedgerEvent) :
    ∃ read, rowToEvent (event.toRow seq) = .ok read := ⟨_, rowToEvent_toRow seq event⟩

/-- What is read from rows that can be read. -/
theorem exists_read {rows : List EventRow}
    (hreadable : ∀ row ∈ rows, ∃ event, rowToEvent row = .ok event) :
    ∃ read : EventRow → LedgerEvent, ∀ row ∈ rows, rowToEvent row = .ok (read row) := by
  have hchoice : ∀ row, ∃ event, row ∈ rows → rowToEvent row = .ok event := by
    intro row
    by_cases hrow : row ∈ rows
    · exact (hreadable row hrow).imp fun _ hread _ => hread
    · exact ⟨⟨0, 0, .accountCreated ⟨0, 0⟩⟩, fun hmem => absurd hmem hrow⟩
  obtain ⟨read, hread⟩ := Classical.skolem.mp hchoice
  exact ⟨read, hread⟩

theorem mapM_read {rows : List EventRow} {read : EventRow → LedgerEvent}
    (hread : ∀ row ∈ rows, rowToEvent row = .ok (read row)) :
    rows.mapM rowToEvent = .ok (rows.map read) := by
  apply List.mapM_eq_ok_iff.mpr
  rw [List.forall₂_map_right_iff, List.forall₂_same]
  exact hread

theorem filterMap_read {rows : List EventRow} {read : EventRow → LedgerEvent}
    (hread : ∀ row ∈ rows, rowToEvent row = .ok (read row)) :
    rows.filterMap (fun row => (rowToEvent row).toOption) = rows.map read := by
  rw [← List.filterMap_eq_map]
  apply List.filterMap_congr
  intro row hrow
  rw [hread row hrow]
  rfl

namespace SqlFeed

/-- The rows of the table and of the open transactions were written by the store
under distinct numbers, each drawn already. -/
structure Consistent (feed : SqlFeed) : Prop where
  readable : ∀ row ∈ feed.events.rows, ∃ event, rowToEvent row = .ok event
  written : ∀ transaction row, feed.inFlight.lookup transaction = some row →
    ∃ event, rowToEvent row = .ok event
  drawn : ∀ row ∈ feed.events.rows, ∃ last ∈ feed.lastDrawn, row.seq ≤ last
  drawnInFlight : ∀ transaction row, feed.inFlight.lookup transaction = some row →
    ∃ last ∈ feed.lastDrawn, row.seq ≤ last
  unseen : ∀ transaction row, feed.inFlight.lookup transaction = some row →
    row.seq ∉ feed.events.rows.map EventRow.seq
  distinct : ∀ transaction row other otherRow, feed.inFlight.lookup transaction = some row →
    feed.inFlight.lookup other = some otherRow → row.seq = otherRow.seq → transaction = other

variable {feed next : SqlFeed}

theorem exists_committed (hconsistent : Consistent feed) : ∃ read : EventRow → LedgerEvent,
    (∀ row ∈ feed.events.rows, rowToEvent row = .ok (read row)) ∧
      feed.committed = (orderBy EventRow.seq feed.events.rows).map read := by
  obtain ⟨read, hread⟩ := exists_read hconsistent.readable
  exact ⟨read, hread, filterMap_read fun row hrow => hread row (mem_orderBy.mp hrow)⟩

theorem committed_strict (hconsistent : Consistent feed) :
    feed.committed.Pairwise (·.number < ·.number) := by
  obtain ⟨read, hread, hcommitted⟩ := exists_committed hconsistent
  rw [hcommitted, List.pairwise_map]
  apply (orderBy_strict feed.events.nodup).imp_of_mem
  intro row other hrow hother hlt
  rw [number_of_read (hread row (mem_orderBy.mp hrow)),
    number_of_read (hread other (mem_orderBy.mp hother))]
  exact hlt

theorem seq_of_mem_committed {event : LedgerEvent} (hevent : event ∈ feed.committed) :
    event.number ∈ feed.events.rows.map EventRow.seq := by
  obtain ⟨row, hrow, hread⟩ := List.mem_filterMap.mp hevent
  have hok : rowToEvent row = .ok event := by
    cases hresult : rowToEvent row with
    | error err =>
        rw [hresult] at hread
        cases hread
    | ok read =>
        rw [hresult] at hread
        cases hread
        rfl
  rw [number_of_read hok]
  exact List.mem_map_of_mem (mem_orderBy.mp hrow)

/-- A poll receives the next page of what is committed. -/
theorem received_poll (hconsistent : Consistent feed) {limit : UInt32}
    (hlimit : ¬limit.toInt32 < 0) : (feed.poll limit).received =
      feed.received ++ Cursor.page LedgerEvent.number feed.position.toInt64 limit.toNat
        feed.committed := by
  obtain ⟨read, hread, hcommitted⟩ := exists_committed hconsistent
  have hselect : orderBy EventRow.seq (feed.events.select (feed.position.toInt64 < ·.seq)) =
      (orderBy EventRow.seq feed.events.rows).filter (feed.position.toInt64 < ·.seq) :=
    orderBy_filter feed.events.nodup _
  have hpage : ((orderBy EventRow.seq feed.events.rows).filter
      (feed.position.toInt64 < ·.seq)).map read =
      feed.committed.filter (feed.position.toInt64 < ·.number) := by
    rw [hcommitted, List.filter_map]
    congr 1
    apply List.filter_congr
    intro row hrow
    rw [Function.comp_apply, number_of_read (hread row (mem_orderBy.mp hrow))]
  have hpolled : SqlStore.getEventsSince feed.events feed.position limit =
      .ok (Cursor.page LedgerEvent.number feed.position.toInt64 limit.toNat feed.committed) := by
    rw [SqlStore.getEventsSince, if_neg hlimit, hselect, Cursor.page, ← hpage, ← List.map_take]
    apply mapM_read
    intro row hrow
    exact hread row (mem_orderBy.mp (List.mem_of_mem_filter (List.mem_of_mem_take hrow)))
  rw [poll, hpolled]

theorem poll_of_negative {limit : UInt32} (hlimit : limit.toInt32 < 0) : feed.poll limit = feed := by
  rw [poll, SqlStore.getEventsSince, if_pos hlimit]

omit [MoneyWidth] [Json] in
theorem toInt32_neg_iff {limit : UInt32} : limit.toInt32 < 0 ↔ ¬limit.toNat < 2 ^ 31 := by
  have hlt := limit.toNat_lt
  have hvalue : limit.toInt32.toInt = if 2 * limit.toNat < 2 ^ 32 then (limit.toNat : Int)
      else limit.toNat - 2 ^ 32 := BitVec.toInt_eq_toNat_cond limit.toBitVec
  rw [Int32.lt_iff_toInt_lt, hvalue, Int32.toInt_zero]
  split <;> omega

/-! ## One step -/

/-- What a step can do, and when. -/
theorem apply_cases {step : SqlFeedStep} (hnext : feed.apply step = some next) :
    (∃ transaction seq event, step = .append transaction seq event ∧
      transaction ∉ feed.inFlight ∧ (∀ last ∈ feed.lastDrawn, last < seq) ∧
      next = { feed with
        lastDrawn := some seq
        inFlight := feed.inFlight.insert transaction (event.toRow seq) }) ∨
    (∃ transaction row, step = .commit transaction ∧
      feed.inFlight.lookup transaction = some row ∧
      next = { feed with
        inFlight := feed.inFlight.erase transaction
        events := SqlStore.insertEvent row feed.events }) ∨
    (∃ transaction, step = .rollback transaction ∧
      next = { feed with inFlight := feed.inFlight.erase transaction }) ∨
    ∃ limit, step = .poll limit ∧ next = feed.poll limit := by
  cases step with
  | append transaction seq event =>
      rw [apply] at hnext
      split at hnext
      next henabled =>
        cases hnext
        have hlater : ∀ last ∈ feed.lastDrawn, last < seq :=
          fun last hlast => of_decide_eq_true ((Option.all_eq_true _ _).mp henabled.2 last hlast)
        exact .inl ⟨_, _, _, rfl, henabled.1, hlater, rfl⟩
      next => cases hnext
  | commit transaction =>
      obtain ⟨row, hrow, hnext⟩ := Option.map_eq_some_iff.mp hnext
      exact .inr (.inl ⟨_, row, rfl, hrow, hnext.symm⟩)
  | rollback transaction =>
      cases hnext
      exact .inr (.inr (.inl ⟨_, rfl, rfl⟩))
  | poll limit =>
      cases hnext
      exact .inr (.inr (.inr ⟨_, rfl, rfl⟩))

theorem mem_insertEvent {row other : EventRow} {events : Table EventRow.seq}
    (hother : other ∈ (SqlStore.insertEvent row events).rows) : other = row ∨ other ∈ events.rows := by
  unfold SqlStore.insertEvent at hother
  split at hother
  next => exact .inr hother
  next => exact Table.eq_or_mem_of_mem_insertIgnore hother

theorem poll_eq (limit : UInt32) (feed : SqlFeed) :
    ∃ received, feed.poll limit = { feed with received } := by
  unfold poll
  split
  next => exact ⟨_, rfl⟩
  next => exact ⟨feed.received, rfl⟩

theorem consistent_empty : Consistent empty where
  readable := nofun
  written := nofun
  drawn := nofun
  drawnInFlight := nofun
  unseen := nofun
  distinct := nofun

theorem Consistent.append (hconsistent : Consistent feed) {transaction : Nat} {seq : Int64}
    {event : LedgerEvent} (hincreasing : ∀ last ∈ feed.lastDrawn, last < seq) :
    Consistent { feed with
      lastDrawn := some seq
      inFlight := feed.inFlight.insert transaction (event.toRow seq) } := by
  have hbelow : ∀ row ∈ feed.events.rows, row.seq < seq := by
    intro row hrow
    obtain ⟨last, hlast, hle⟩ := hconsistent.drawn row hrow
    exact hle.trans_lt (hincreasing last hlast)
  have hinFlight : ∀ other row, feed.inFlight.lookup other = some row → row.seq < seq := by
    intro other row hrow
    obtain ⟨last, hlast, hle⟩ := hconsistent.drawnInFlight other row hrow
    exact hle.trans_lt (hincreasing last hlast)
  have hcases : ∀ other row,
      (feed.inFlight.insert transaction (event.toRow seq)).lookup other = some row →
        (other = transaction ∧ row = event.toRow seq) ∨ feed.inFlight.lookup other = some row := by
    intro other row hrow
    rw [HashMap.lookup_insert_eq] at hrow
    split at hrow
    next heq => exact .inl ⟨heq, (Option.some.inj hrow).symm⟩
    next => exact .inr hrow
  constructor
  · exact hconsistent.readable
  · intro other row hrow
    obtain ⟨_, rfl⟩ | hold := hcases other row hrow
    · exact read_toRow seq event
    · exact hconsistent.written other row hold
  · exact fun row hrow => ⟨seq, rfl, (hbelow row hrow).le⟩
  · intro other row hrow
    obtain ⟨_, rfl⟩ | hold := hcases other row hrow
    · exact ⟨seq, rfl, le_rfl⟩
    · exact ⟨seq, rfl, (hinFlight other row hold).le⟩
  · intro other row hrow hseen
    obtain ⟨_, rfl⟩ | hold := hcases other row hrow
    · obtain ⟨visible, hvisible, heq⟩ := List.mem_map.mp hseen
      exact (hbelow visible hvisible).ne heq
    · exact hconsistent.unseen other row hold hseen
  · intro first row second other hrow hother heq
    obtain ⟨rfl, rfl⟩ | hold := hcases first row hrow <;>
      obtain ⟨rfl, rfl⟩ | hotherOld := hcases second other hother
    · rfl
    · exact absurd heq.symm (hinFlight second other hotherOld).ne
    · exact absurd heq (hinFlight first row hold).ne
    · exact hconsistent.distinct first row second other hold hotherOld heq

theorem Consistent.erase (hconsistent : Consistent feed) (transaction : Nat) :
    Consistent { feed with inFlight := feed.inFlight.erase transaction } := by
  have hcases : ∀ other row, (feed.inFlight.erase transaction).lookup other = some row →
      feed.inFlight.lookup other = some row := by
    intro other row hrow
    rw [HashMap.lookup_erase_eq] at hrow
    split at hrow
    next => cases hrow
    next => exact hrow
  exact {
    readable := hconsistent.readable
    written := fun other row hrow => hconsistent.written other row (hcases other row hrow)
    drawn := hconsistent.drawn
    drawnInFlight := fun other row hrow =>
      hconsistent.drawnInFlight other row (hcases other row hrow)
    unseen := fun other row hrow => hconsistent.unseen other row (hcases other row hrow)
    distinct := fun first row second other hrow hother =>
      hconsistent.distinct first row second other (hcases first row hrow)
        (hcases second other hother) }

theorem Consistent.commit (hconsistent : Consistent feed) {transaction : Nat} {row : EventRow}
    (hrow : feed.inFlight.lookup transaction = some row) :
    Consistent { feed with
      inFlight := feed.inFlight.erase transaction
      events := SqlStore.insertEvent row feed.events } := by
  have herased := hconsistent.erase transaction
  constructor
  · intro other hother
    rcases mem_insertEvent hother with rfl | hold
    · exact hconsistent.written transaction other hrow
    · exact hconsistent.readable other hold
  · exact herased.written
  · intro other hother
    rcases mem_insertEvent hother with rfl | hold
    · exact hconsistent.drawnInFlight transaction other hrow
    · exact hconsistent.drawn other hold
  · exact herased.drawnInFlight
  · intro other otherRow hother hseen
    obtain ⟨visible, hvisible, heq⟩ := List.mem_map.mp hseen
    rcases mem_insertEvent hvisible with rfl | hold
    · -- Two open transactions have drawn different numbers.
      rw [HashMap.lookup_erase_eq] at hother
      split at hother
      next => cases hother
      next hne => exact hne (hconsistent.distinct other otherRow transaction visible hother hrow heq.symm)
    · exact herased.unseen other otherRow hother (heq ▸ List.mem_map_of_mem hold)
  · exact herased.distinct

theorem Consistent.apply (hconsistent : Consistent feed) {step : SqlFeedStep}
    (hnext : feed.apply step = some next) : Consistent next := by
  obtain ⟨_, _, _, rfl, _, hincreasing, rfl⟩ | ⟨_, _, rfl, hrow, rfl⟩ | ⟨_, rfl, rfl⟩ |
    ⟨limit, rfl, rfl⟩ := apply_cases hnext
  · exact hconsistent.append hincreasing
  · exact hconsistent.commit hrow
  · exact hconsistent.erase _
  · obtain ⟨received, hpoll⟩ := poll_eq limit feed
    rw [hpoll]
    exact ⟨hconsistent.readable, hconsistent.written, hconsistent.drawn,
      hconsistent.drawnInFlight, hconsistent.unseen, hconsistent.distinct⟩

theorem after_append_singleton (steps : List SqlFeedStep) (step : SqlFeedStep) :
    after (steps ++ [step]) = (after steps).bind fun feed => feed.apply step := by
  rw [after, List.foldlM_append]
  simp only [List.foldlM_cons, List.foldlM_nil, bind_pure]
  rfl

theorem consistent_after {steps : List SqlFeedStep} (hafter : after steps = some feed) :
    Consistent feed := by
  induction steps using List.reverseRecOn generalizing feed with
  | nil =>
      cases hafter
      exact consistent_empty
  | append_singleton steps step ih =>
      rw [after_append_singleton] at hafter
      obtain ⟨before, hbefore, hstep⟩ := Option.bind_eq_some_iff.mp hafter
      exact (ih hbefore).apply hstep

/-- A transaction that draws a later number and commits next does to the events what
`appendEventTx` does to them. -/
theorem apply_commit_append {store : SqlStore} {clock : Clock} {event : LedgerEvent}
    {transaction : Nat} (hconsistent : Consistent feed) (hevents : feed.events = store.events)
    (hclosed : transaction ∉ feed.inFlight)
    (hlater : ∀ last ∈ feed.lastDrawn, last < (AutoId.next clock store.autoid).1) :
    ∃ written next, store.appendEventTx clock event = .ok written ∧
      (feed.apply (.append transaction (AutoId.next clock store.autoid).1 event)).bind
        (apply · (.commit transaction)) = some next ∧
      next.events = written.events := by
  have hunseen : (AutoId.next clock store.autoid).1 ∉ store.events.rows.map (·.seq) := by
    intro hseen
    obtain ⟨row, hrow, hnumber⟩ := List.mem_map.mp hseen
    obtain ⟨last, hlast, hle⟩ := hconsistent.drawn row (hevents ▸ hrow)
    exact (hle.trans_lt (hlater last hlast)).ne hnumber
  have hfree : store.NumberFree clock event := .inr (Table.lookup_eq_none_iff.mpr hunseen)
  have henabled : transaction ∉ feed.inFlight ∧
      feed.lastDrawn.all (· < (AutoId.next clock store.autoid).1) :=
    ⟨hclosed, (Option.all_eq_true _ _).mpr fun last hlast => decide_eq_true (hlater last hlast)⟩
  have happlied : (feed.apply (.append transaction (AutoId.next clock store.autoid).1 event)).bind
      (apply · (.commit transaction)) = some { feed with
        lastDrawn := some (AutoId.next clock store.autoid).1
        inFlight := (feed.inFlight.insert transaction
          (event.toRow (AutoId.next clock store.autoid).1)).erase transaction
        events := SqlStore.insertEvent (event.toRow (AutoId.next clock store.autoid).1)
          store.events } := by
    rw [apply, if_pos henabled, Option.bind_some, apply, HashMap.lookup_insert_eq, if_pos rfl]
    simp only [Option.map_some, hevents]
  exact ⟨_, _, SqlStore.appendEventTx_insertEvent hfree, happlied, rfl⟩

/-- A commit that adds an event adds it to the committed ones. -/
theorem committed_commit (hconsistent : Consistent feed) {transaction : Nat} {row : EventRow}
    (hrow : feed.inFlight.lookup transaction = some row)
    (hnew : SqlStore.repeatedEvent row feed.events = false) :
    ∃ event, event.number = row.seq ∧
      (committed { feed with
        inFlight := feed.inFlight.erase transaction
        events := SqlStore.insertEvent row feed.events }).Perm (event :: feed.committed) := by
  obtain ⟨event, hread⟩ := hconsistent.written transaction row hrow
  refine ⟨event, number_of_read hread, ?_⟩
  have hunseen := hconsistent.unseen transaction row hrow
  have hrows : (SqlStore.insertEvent row feed.events).rows = row :: feed.events.rows := by
    rw [SqlStore.insertEvent, hnew, if_neg Bool.false_ne_true, Table.insertIgnore, dif_neg hunseen]
  have hperm : (orderBy EventRow.seq (row :: feed.events.rows)).Perm
      (row :: orderBy EventRow.seq feed.events.rows) :=
    (orderBy_perm _ _).trans ((orderBy_perm _ _).symm.cons row)
  have hcommitted := hperm.filterMap fun row => (rowToEvent row).toOption
  rw [List.filterMap_cons, hread] at hcommitted
  rw [committed, hrows]
  exact hcommitted

theorem committed_of_rows (hrows : next.events = feed.events) : next.committed = feed.committed := by
  rw [committed, hrows]
  rfl

/-! ## What the consumer receives -/

/-- The consumer has received the committed events up to some number. -/
structure Caught (feed : SqlFeed) : Prop where
  inOrder : feed.received <+: feed.committed
  positive : ∀ event ∈ feed.committed, 0 < event.number

theorem toInt64_position (feed : SqlFeed) :
    feed.position.toInt64 = Cursor.position LedgerEvent.number 0 feed.received := by
  unfold position Cursor.position
  cases feed.received.getLast? <;> rfl

theorem Caught.position_nonneg (hcaught : Caught feed) : 0 ≤ feed.position.toInt64 := by
  rw [toInt64_position]
  unfold Cursor.position
  cases hlast : feed.received.getLast? with
  | none => exact le_rfl
  | some last =>
      have hmem := hcaught.inOrder.subset (List.mem_of_getLast? hlast)
      exact (hcaught.positive last hmem).le

/-- What was not received is ahead of the consumer. -/
theorem Caught.complete (hcaught : Caught feed) (hconsistent : Consistent feed)
    {event : LedgerEvent} (hevent : event ∈ feed.committed) :
    event ∈ feed.received ∨ feed.position.toInt64 < event.number := by
  obtain ⟨rest, hrest⟩ := hcaught.inOrder
  have hstrict := committed_strict hconsistent
  rw [← hrest] at hstrict hevent
  apply (List.mem_append.mp hevent).imp id
  intro hahead
  have hfilter := Cursor.filter_position 0 hstrict fun item hitem =>
    hcaught.positive item (hrest ▸ List.mem_append_right _ hitem)
  rw [← hfilter, List.mem_filter, decide_eq_true_eq] at hahead
  rw [toInt64_position]
  exact hahead.2

/-- A page that fits takes the consumer further by its size. -/
theorem Caught.received_poll (hcaught : Caught feed) (hconsistent : Consistent feed)
    {limit : UInt32} (hlimit : limit.toNat < 2 ^ 31) :
    (feed.poll limit).received <+: feed.committed ∧
      (feed.poll limit).received.length =
        min (feed.received.length + limit.toNat) feed.committed.length := by
  obtain ⟨rest, hrest⟩ := hcaught.inOrder
  have hstrict := committed_strict hconsistent
  have hpage := Cursor.append_page 0 (hrest ▸ hstrict) (fun item hitem =>
    hcaught.positive item (hrest ▸ List.mem_append_right _ hitem)) limit.toNat
  rw [← toInt64_position, hrest] at hpage
  have hreceived := SqlFeed.received_poll hconsistent (mt toInt32_neg_iff.mp (not_not.mpr hlimit))
  rw [hpage] at hreceived
  rw [hreceived, ← hrest]
  constructor
  · exact (List.prefix_append_right_inj _).mpr (List.take_prefix _ _)
  · simp only [List.length_append, List.length_take]
    omega

theorem Caught.congr (hcaught : Caught feed) (hevents : next.events = feed.events)
    (hreceived : next.received = feed.received) : Caught next := by
  constructor
  · rw [committed_of_rows hevents, hreceived]
    exact hcaught.inOrder
  · rw [committed_of_rows hevents]
    exact hcaught.positive

theorem Caught.commit (hcaught : Caught feed) (hconsistent : Consistent feed) {transaction : Nat}
    {row : EventRow} (hrow : feed.inFlight.lookup transaction = some row)
    (hahead : SqlStore.repeatedEvent row feed.events = false → feed.position.toInt64 < row.seq) :
    Caught { feed with
      inFlight := feed.inFlight.erase transaction
      events := SqlStore.insertEvent row feed.events } := by
  cases hnew : SqlStore.repeatedEvent row feed.events with
  | true => exact hcaught.congr (if_pos hnew) rfl
  | false =>
      have hbehind := hahead hnew
      obtain ⟨event, hnumber, hperm⟩ := committed_commit hconsistent hrow hnew
      constructor
      · apply Cursor.prefix_of_insert hcaught.inOrder (committed_strict hconsistent)
          (committed_strict (hconsistent.commit hrow)) hperm
        intro item hitem
        have hsorted := (committed_strict hconsistent).sublist hcaught.inOrder.sublist
        have hle := Cursor.le_position 0 hsorted hitem
        rw [hnumber]
        rw [toInt64_position] at hbehind
        exact hle.trans_lt hbehind
      · intro item hitem
        rcases List.mem_cons.mp (hperm.mem_iff.mp hitem) with rfl | hold
        · rw [hnumber]
          exact hcaught.position_nonneg.trans_lt hbehind
        · exact hcaught.positive item hold

theorem Caught.apply (hcaught : Caught feed) (hconsistent : Consistent feed) {step : SqlFeedStep}
    (hahead : feed.Ahead step) (hnext : feed.apply step = some next) : Caught next := by
  obtain ⟨_, _, _, rfl, _, _, rfl⟩ | ⟨transaction, row, rfl, hrow, rfl⟩ | ⟨_, rfl, rfl⟩ |
    ⟨limit, rfl, rfl⟩ := apply_cases hnext
  · exact hcaught.congr rfl rfl
  · exact hcaught.commit hconsistent hrow (hahead row hrow)
  · exact hcaught.congr rfl rfl
  · by_cases hlimit : limit.toNat < 2 ^ 31
    · obtain ⟨received, hpoll⟩ := poll_eq limit feed
      have hcommitted : (feed.poll limit).committed = feed.committed := by
        rw [hpoll]
        exact committed_of_rows rfl
      exact ⟨hcommitted ▸ (hcaught.received_poll hconsistent hlimit).1,
        hcommitted ▸ hcaught.positive⟩
    · rw [poll_of_negative (toInt32_neg_iff.mpr hlimit)]
      exact hcaught

theorem caught_after {steps : List SqlFeedStep} (hafter : after steps = some feed)
    (hahead : ∀ first step before, first ++ [step] <+: steps → after first = some before →
      before.Ahead step) : Caught feed := by
  induction steps using List.reverseRecOn generalizing feed with
  | nil =>
      cases hafter
      exact ⟨List.nil_prefix, nofun⟩
  | append_singleton steps step ih =>
      rw [after_append_singleton] at hafter
      obtain ⟨before, hbefore, hstep⟩ := Option.bind_eq_some_iff.mp hafter
      have hcaught := ih hbefore fun first step feed hinitial =>
        hahead first step feed (hinitial.trans (List.prefix_append _ _))
      exact hcaught.apply (consistent_after hbefore)
        (hahead steps step before (List.prefix_refl _) hbefore) hstep

end SqlFeed

/-- A run delivers every committed event, once and in order, exactly when each of
its steps finds the consumer behind what it shows. -/
theorem committed_delivered_iff (steps : List SqlFeedStep) :
    DeliversCommitted steps ↔ ∀ first step feed, first ++ [step] <+: steps →
      SqlFeed.after first = some feed → feed.Ahead step := by
  constructor
  · intro hdelivers first step feed hinitial hafter
    have hfirst := (List.prefix_append first [step]).trans hinitial
    have hconsistent := SqlFeed.consistent_after hafter
    cases step with
    | append => trivial
    | commit transaction =>
        intro row hrow hnew
        obtain ⟨event, hnumber, hperm⟩ := SqlFeed.committed_commit hconsistent hrow hnew
        have hnext := SqlFeed.after_append_singleton first (.commit transaction)
        rw [hafter, Option.bind_some, SqlFeed.apply, hrow, Option.map_some] at hnext
        have hmem := hperm.mem_iff.mpr (List.mem_cons_self (a := event))
        obtain hreceived | hahead := hdelivers.complete _ _ hinitial hnext event hmem
        · -- What was received was committed before, under another number.
          have hold := (hdelivers.inOrder first feed hfirst hafter).subset hreceived
          exact absurd (hnumber ▸ SqlFeed.seq_of_mem_committed hold)
            (hconsistent.unseen transaction row hrow)
        · exact hnumber ▸ hahead
    | rollback => trivial
    | poll limit =>
        by_cases hlimit : limit.toNat < 2 ^ 31
        · exact .inl hlimit
        · right
          -- a negative limit polls nothing, so progress means there was nothing left
          have hprogress := hdelivers.progress first limit feed hinitial hafter
          rw [SqlFeed.poll_of_negative (SqlFeed.toInt32_neg_iff.mpr hlimit)] at hprogress
          apply (hdelivers.inOrder first feed hfirst hafter).eq_of_length
          omega
  · intro hahead
    have hcaught : ∀ first feed, first <+: steps → SqlFeed.after first = some feed → feed.Caught := by
      intro first feed hinitial hafter
      exact SqlFeed.caught_after hafter fun before step middle hbefore =>
        hahead before step middle (hbefore.trans hinitial)
    refine ⟨fun first feed hinitial hafter => (hcaught first feed hinitial hafter).inOrder,
      fun first feed hinitial hafter event hevent => (hcaught first feed hinitial hafter).complete
        (SqlFeed.consistent_after hafter) hevent, fun first limit feed hinitial hafter => ?_⟩
    have hfirst := hcaught first feed ((List.prefix_append first _).trans hinitial) hafter
    obtain hlimit | hall := hahead first (.poll limit) feed hinitial hafter
    · exact (hfirst.received_poll (SqlFeed.consistent_after hafter) hlimit).2
    · by_cases hlimit : limit.toNat < 2 ^ 31
      · exact (hfirst.received_poll (SqlFeed.consistent_after hafter) hlimit).2
      · rw [SqlFeed.poll_of_negative (SqlFeed.toInt32_neg_iff.mpr hlimit), hall]
        omega

end Theory

namespace Sample

/-- The first transaction draws its number first and commits last; the consumer
polls in between and afterwards. -/
def lateCommit : List SqlFeedStep :=
  [.append 1 1 ⟨0, 0, .transferCommitted (transferOf 1)⟩,
    .append 2 2 ⟨0, 0, .transferCommitted (transferOf 2)⟩,
    .commit 2, .poll 10, .commit 1, .poll 10]

end Sample

open Sample in
/-- Both events are committed, and the consumer has passed by the first one. -/
theorem late_commit_missed :
    (SqlFeed.after lateCommit).map (fun feed =>
      (feed.received.map (·.seq), feed.committed.map (·.seq))) = some ([2], [1, 2]) ∧
      ¬DeliversCommitted lateCommit := by
  have hseqs : (SqlFeed.after lateCommit).map (fun feed =>
      (feed.received.map (·.seq), feed.committed.map (·.seq))) = some ([2], [1, 2]) := by
    decide +kernel
  refine ⟨hseqs, fun hdelivers => ?_⟩
  obtain ⟨feed, hafter, heq⟩ := Option.map_eq_some_iff.mp hseqs
  have hinitial := (hdelivers.inOrder _ feed (List.prefix_refl _) hafter).map (·.seq)
  rw [(Prod.mk.inj heq).1, (Prod.mk.inj heq).2] at hinitial
  exact absurd hinitial (by decide)

end Kuatia
