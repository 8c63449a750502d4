import Kuatia.SqlStore.CommitAgrees
import Kuatia.SqlStore.Sample

/-! # The SQL commit simulates the in-memory commit

From stores that hold the same things, a well-formed commit has the same kind of
outcome in both and leaves them holding the same things, unless the two floors
disagree or the number drawn for the event is taken.
-/

namespace Kuatia

open Sql
open InMemoryStore (Refusal)

section Theory

variable [MoneyWidth]

/-! ## The kind of an outcome -/

/-- What a commit comes to, its offender and projected balance aside. -/
inductive OutcomeKind where
  | fault
  | committed (receipt : Receipt)
  | alreadyCommitted (receipt : Receipt)
  | doubleSpend
  | accountFrozen
  | accountClosed
  | overdraftExceeded
  deriving DecidableEq

def CommitRejection.kind : CommitRejection → OutcomeKind
  | .doubleSpend _ => .doubleSpend
  | .accountFrozen _ => .accountFrozen
  | .accountClosed _ => .accountClosed
  | .overdraftExceeded _ _ _ => .overdraftExceeded

def InMemoryStore.Refusal.kind : Refusal → OutcomeKind
  | .fault _ => .fault
  | .rejected reason => reason.kind

def outcomeKind : Except StoreError CommitOutcome → OutcomeKind
  | .error _ => .fault
  | .ok (.committed receipt) => .committed receipt
  | .ok (.alreadyCommitted receipt) => .alreadyCommitted receipt
  | .ok (.rejected reason) => reason.kind

variable [Json]

/-! ## The stores after a commit -/

variable {store : SqlStore} {memory : InMemoryStore} {req : CommitRequest}

theorem SameTransfers.applyCommit (hsame : SameTransfers store memory)
    (hnew : memory.transfers.lookup req.transferId = none) (clock : Clock) :
    SameTransfers (store.applyCommit req) (memory.applyCommit clock req) where
  stored row := by
    have hfree : store.transfers.lookup (req.record.toRow req.transferId).id = none := by
      change store.transfers.lookup (envelopeIdToHex req.transferId) = none
      rw [hsame.lookup, hnew]
      rfl
    have htransfers : (memory.applyCommit clock req).transfers =
        memory.transfers.insert req.transferId req.record := by
      simp [InMemoryStore.applyCommit]
    rw [htransfers]
    change row ∈ (store.transfers.insertIgnore _).2.rows ↔ _
    rw [Table.mem_insertIgnore_of_free hfree, hsame.stored]
    constructor
    · rintro (rfl | ⟨id, record, hlookup, rfl⟩)
      · exact ⟨_, _, AList.lookup_insert _, rfl⟩
      · refine ⟨id, record, ?_, rfl⟩
        rw [HashMap.lookup_insert_eq, if_neg, hlookup]
        rintro rfl
        rw [hnew] at hlookup
        cases hlookup
    · rintro ⟨id, record, hlookup, rfl⟩
      rw [HashMap.lookup_insert_eq] at hlookup
      split at hlookup
      next heq =>
        cases hlookup
        exact .inl (heq ▸ rfl)
      next => exact .inr ⟨id, record, hlookup, rfl⟩
  involved row := by
    -- the index lists just the stored transfers, so it has no entry yet either
    have hunindexed : memory.transferAccounts.lookup req.transferId = none := by
      apply AList.lookup_eq_none.mpr
      rw [hsame.indexed]
      exact AList.lookup_eq_none.mp hnew
    have hindex : (memory.applyCommit clock req).transferAccounts =
        memory.transferAccounts.insert req.transferId req.involved := by
      simp [InMemoryStore.applyCommit]
    rw [hindex]
    change row ∈ (req.involved.foldl (fun table account => (table.insertIgnore
      ⟨envelopeIdToHex req.transferId, account.id, account.sub⟩).2) store.transferAccounts).rows ↔ _
    rw [Table.mem_foldl_insertIgnore (fun account : AccountId =>
      (⟨envelopeIdToHex req.transferId, account.id, account.sub⟩ : TransferAccountRow)),
      hsame.involved]
    constructor
    · rintro (⟨id, accounts, hlookup, hrow⟩ | hrow)
      · refine ⟨id, accounts, ?_, hrow⟩
        rw [HashMap.lookup_insert_eq, if_neg, hlookup]
        rintro rfl
        rw [hunindexed] at hlookup
        cases hlookup
      · exact ⟨_, _, AList.lookup_insert _, hrow⟩
    · rintro ⟨id, accounts, hlookup, hrow⟩
      rw [HashMap.lookup_insert_eq] at hlookup
      split at hlookup
      next heq =>
        cases hlookup
        exact .inr (heq ▸ hrow)
      next => exact .inl ⟨id, accounts, hlookup, hrow⟩
  indexed id := by
    simp [InMemoryStore.applyCommit, AList.mem_insert, hsame.indexed]

/-- A commit that both stores apply leaves them holding the same things. -/
theorem SameStores.applyCommit (hsame : SameStores store memory)
    (hwell : WellFormedRequest memory req)
    (hnew : memory.transfers.lookup req.transferId = none) (clock : Clock) :
    SameStores (store.applyCommit req) (memory.applyCommit clock req) where
  accounts := hsame.accounts.congr rfl rfl (by simp [InMemoryStore.applyCommit])
  postings := hsame.postings.write hwell.creates hwell.fresh clock
  transfers := hsame.transfers.applyCommit hnew clock

theorem appendEventTx_eq (store : SqlStore) (clock : Clock) (event : LedgerEvent) :
    store.appendEventTx clock event =
      if (eventDedupKey event.kind).isSome &&
          store.events.rows.any (·.dedupKey = eventDedupKey event.kind) then
        .ok { store with autoid := (AutoId.next clock store.autoid).2 }
      else if (store.events.lookup (AutoId.next clock store.autoid).1).isSome then
        .error (.internal "UNIQUE constraint failed: events.seq")
      else .ok { store with
        events := (store.events.insertIgnore
          (event.toRow (AutoId.next clock store.autoid).1)).2
        autoid := (AutoId.next clock store.autoid).2 } := rfl

/-- The event is appended, or the number drawn for it is taken. -/
theorem appendEventTx_cases (store : SqlStore) (clock : Clock) (event : LedgerEvent) :
    (store.NumberFree clock event ∧ ∃ events autoid,
      store.appendEventTx clock event = .ok { store with events, autoid }) ∨
    (¬store.NumberFree clock event ∧ ∃ err, store.appendEventTx clock event = .error err) := by
  have hpresent : ((eventDedupKey event.kind).isSome &&
      store.events.rows.any (·.dedupKey = eventDedupKey event.kind)) = true ↔
      ∃ key, eventDedupKey event.kind = some key ∧
        ∃ row ∈ store.events.rows, row.dedupKey = some key := by
    cases eventDedupKey event.kind <;> simp
  rw [appendEventTx_eq]
  split
  next hkey => exact .inl ⟨.inl (hpresent.mp hkey), _, _, rfl⟩
  next hkey =>
    split
    next htaken =>
      refine .inr ⟨?_, _, rfl⟩
      rintro (hpresent' | hfree)
      · exact hkey (hpresent.mpr hpresent')
      · rw [hfree] at htaken
        cases htaken
    next hfree => exact .inl ⟨.inr (Option.not_isSome_iff_eq_none.mp hfree), _, _, rfl⟩

def IsCommitted (outcome : Except StoreError CommitOutcome) : Prop :=
  ∃ receipt, outcome = .ok (.committed receipt)

/-- A commit in SQL leaves everything but the counter alone, or applies all. -/
theorem SqlStore.commitEnvelope_cases (store : SqlStore) (order : IterationOrder) (clock : Clock)
    (req : CommitRequest) :
    (¬IsCommitted (store.commitEnvelope order clock req).1 ∧
      (store.commitEnvelope order clock req).2.transfers = store.transfers ∧
      (store.commitEnvelope order clock req).2.transferAccounts = store.transferAccounts ∧
      (store.commitEnvelope order clock req).2.postings = store.postings) ∨
    (IsCommitted (store.commitEnvelope order clock req).1 ∧
      (store.commitEnvelope order clock req).2.transfers = (store.applyCommit req).transfers ∧
      (store.commitEnvelope order clock req).2.transferAccounts =
        (store.applyCommit req).transferAccounts ∧
      (store.commitEnvelope order clock req).2.postings = store.postings.write req) := by
  unfold commitEnvelope
  split
  next row _ =>
    left
    refine ⟨?_, rfl, rfl, rfl⟩
    rintro ⟨receipt, heq⟩
    cases hread : Json.receipt.read row.receipt with
    | error err =>
        rw [hread] at heq
        cases heq
    | ok read =>
        rw [hread] at heq
        cases heq
  next =>
    split
    next => exact .inl ⟨(fun ⟨_, heq⟩ => nomatch heq), rfl, rfl, rfl⟩
    next => exact .inl ⟨(fun ⟨_, heq⟩ => nomatch heq), rfl, rfl, rfl⟩
    next =>
      obtain ⟨_, events, autoid, hafter⟩ | ⟨_, err, hafter⟩ :=
        appendEventTx_cases (store.applyCommit req) clock req.event
      · rw [hafter]
        exact .inr ⟨⟨_, rfl⟩, rfl, rfl, rfl⟩
      · rw [hafter]
        exact .inl ⟨(fun ⟨_, heq⟩ => nomatch heq), rfl, rfl, rfl⟩

/-! ## The simulation -/

/-- The same kind of outcome, and stores that hold the same things, unchanged
by a rejection. -/
structure Simulated (order sqlOrder : IterationOrder) (clock sqlClock : Clock)
    (req : CommitRequest) (store : SqlStore) (memory : InMemoryStore) : Prop where
  outcome : outcomeKind (store.commitEnvelope sqlOrder sqlClock req).1 =
    outcomeKind (memory.commitEnvelope order clock req).1
  related : SameStores (store.commitEnvelope sqlOrder sqlClock req).2
    (memory.commitEnvelope order clock req).2
  unchanged : ∀ reason, (memory.commitEnvelope order clock req).1 = .ok (.rejected reason) →
    (memory.commitEnvelope order clock req).2 = memory ∧
      (store.commitEnvelope sqlOrder sqlClock req).2 = store

/-- Reserved postings do not decide whether a floored balance ends below zero. -/
def FloorsAgree (memory : InMemoryStore) (req : CommitRequest) : Prop :=
  (∃ key, Floored memory req key ∧ unreservedAfter memory req key < 0) ↔
    ∃ key, Floored memory req key ∧
      unreservedAfter memory req key + reservedTotal memory key < 0

/-- If the commit gets to the floors, these agree; if it gets past them, the
number drawn for its event is free. -/
def SimulatedWhen (sqlClock : Clock) (req : CommitRequest) (store : SqlStore)
    (memory : InMemoryStore) : Prop :=
  memory.transfers.lookup req.transferId = none →
    memory.freezeGuard req = .ok () → memory.doubleSpendGuard req = .ok () →
      FloorsAgree memory req ∧
        ((∀ key, Floored memory req key → 0 ≤ unreservedAfter memory req key) →
          store.NumberFree sqlClock req.event)

section Cases

variable {order sqlOrder : IterationOrder} {clock sqlClock : Clock}

/-- A transfer that is stored already commits to nothing in either store. -/
theorem simulated_of_stored (hsame : SameStores store memory) {record : EnvelopeRecord}
    (hstored : memory.transfers.lookup req.transferId = some record) :
    Simulated order sqlOrder clock sqlClock req store memory := by
  have hmemory : memory.commitEnvelope order clock req =
      (.ok (.alreadyCommitted record.receipt), memory) := by
    rw [InMemoryStore.commitEnvelope, hstored]
  have hsql : store.commitEnvelope sqlOrder sqlClock req =
      (.ok (.alreadyCommitted record.receipt), store) := by
    rw [SqlStore.commitEnvelope, hsame.transfers.lookup, hstored, Option.map_some]
    simp only [EnvelopeRecord.toRow, Json.receipt.read_write]
    rfl
  constructor
  · rw [hmemory, hsql]
  · rw [hmemory, hsql]
    exact hsame
  · intro reason _
    rw [hmemory, hsql]
    exact ⟨rfl, rfl⟩

/-- Both stores refuse for the same kind of reason. -/
theorem simulated_of_refused (hsame : SameStores store memory)
    (hnew : memory.transfers.lookup req.transferId = none) {refusal sqlRefusal : Refusal}
    (hmemory : memory.commitGuards order req = .error refusal)
    (hsql : store.commitGuards sqlOrder req = .error sqlRefusal)
    (hkind : sqlRefusal.kind = refusal.kind) :
    Simulated order sqlOrder clock sqlClock req store memory := by
  have hrefused : (memory.commitEnvelope order clock req).2 = memory ∧
      outcomeKind (memory.commitEnvelope order clock req).1 = refusal.kind := by
    rw [InMemoryStore.commitEnvelope, hnew]
    simp only [hmemory]
    cases refusal <;> exact ⟨rfl, rfl⟩
  have hsqlRefused : (store.commitEnvelope sqlOrder sqlClock req).2 = store ∧
      outcomeKind (store.commitEnvelope sqlOrder sqlClock req).1 = sqlRefusal.kind := by
    rw [SqlStore.commitEnvelope, hsame.transfers.lookup, hnew]
    simp only [Option.map_none, hsql]
    cases sqlRefusal <;> exact ⟨rfl, rfl⟩
  constructor
  · rw [hrefused.2, hsqlRefused.2, hkind]
  · rw [hrefused.1, hsqlRefused.1]
    exact hsame
  · exact fun _ _ => ⟨hrefused.1, hsqlRefused.1⟩

omit [Json] in
theorem memory_commit_of_guards (clock : Clock)
    (hnew : memory.transfers.lookup req.transferId = none)
    (hguards : memory.commitGuards order req = .ok ()) :
    memory.commitEnvelope order clock req =
      (.ok (.committed req.record.receipt), memory.applyCommit clock req) := by
  rw [InMemoryStore.commitEnvelope, hnew]
  simp only [hguards]

/-- When every check passes in SQL, only the number of the event can fail. -/
theorem sql_commit_of_guards (sqlClock : Clock) (hsame : SameStores store memory)
    (hnew : memory.transfers.lookup req.transferId = none)
    (hguards : store.commitGuards sqlOrder req = .ok ()) :
    (store.NumberFree sqlClock req.event ∧ ∃ events autoid,
      store.commitEnvelope sqlOrder sqlClock req = (.ok (.committed req.record.receipt),
        { store.applyCommit req with events, autoid })) ∨
    (¬store.NumberFree sqlClock req.event ∧ ∃ err,
      (store.commitEnvelope sqlOrder sqlClock req).1 = .error err) := by
  rw [SqlStore.commitEnvelope, hsame.transfers.lookup, hnew]
  simp only [Option.map_none, hguards]
  obtain ⟨hfree, events, autoid, hafter⟩ | ⟨htaken, err, hafter⟩ :=
    appendEventTx_cases (store.applyCommit req) sqlClock req.event
  · rw [hafter]
    exact .inl ⟨hfree, events, autoid, rfl⟩
  · rw [hafter]
    exact .inr ⟨htaken, err, rfl⟩

/-- Both stores pass their checks: they agree when the event can be numbered. -/
theorem simulated_iff_of_passed (hsame : SameStores store memory)
    (hwell : WellFormedRequest memory req)
    (hnew : memory.transfers.lookup req.transferId = none)
    (hmemory : memory.commitGuards order req = .ok ())
    (hsql : store.commitGuards sqlOrder req = .ok ()) :
    Simulated order sqlOrder clock sqlClock req store memory ↔
      store.NumberFree sqlClock req.event := by
  have hcommit := memory_commit_of_guards clock hnew hmemory
  obtain ⟨hfree, events, autoid, hafter⟩ | ⟨htaken, err, hafter⟩ :=
    sql_commit_of_guards sqlClock hsame hnew hsql
  · refine ⟨fun _ => hfree, fun _ => ⟨?_, ?_, ?_⟩⟩
    · rw [hcommit, hafter]
    · have happlied := hsame.applyCommit hwell hnew clock
      rw [hcommit, hafter]
      exact ⟨happlied.accounts.congr rfl rfl rfl, happlied.postings,
        happlied.transfers.congr rfl rfl rfl rfl⟩
    · intro reason hreason
      rw [hcommit] at hreason
      cases hreason
  · refine ⟨fun hsimulated => ?_, fun hfree => absurd hfree htaken⟩
    have houtcome := hsimulated.outcome
    rw [hcommit, hafter] at houtcome
    cases houtcome

/-- One store passes its checks and the other refuses. -/
theorem not_simulated_of_one_refused (hsame : SameStores store memory)
    (hnew : memory.transfers.lookup req.transferId = none) {reason : CommitRejection}
    (hone : (memory.commitGuards order req = .ok () ∧
        store.commitGuards sqlOrder req = .error (.rejected reason)) ∨
      memory.commitGuards order req = .error (.rejected reason) ∧
        store.commitGuards sqlOrder req = .ok ()) :
    ¬Simulated order sqlOrder clock sqlClock req store memory := by
  intro hsimulated
  have houtcome := hsimulated.outcome
  obtain ⟨hmemory, hsql⟩ | ⟨hmemory, hsql⟩ := hone
  · rw [memory_commit_of_guards clock hnew hmemory, SqlStore.commitEnvelope, hsame.transfers.lookup,
      hnew] at houtcome
    simp only [Option.map_none, hsql] at houtcome
    cases reason <;> cases houtcome
  · have hrejected : (memory.commitEnvelope order clock req).1 = .ok (.rejected reason) := by
      rw [InMemoryStore.commitEnvelope, hnew]
      simp only [hmemory]
    rw [hrejected] at houtcome
    obtain ⟨_, _, _, hafter⟩ | ⟨_, _, hafter⟩ :=
      sql_commit_of_guards sqlClock hsame hnew hsql
    · rw [hafter] at houtcome
      cases reason <;> cases houtcome
    · rw [hafter] at houtcome
      cases reason <;> cases houtcome

end Cases

/-- For stores that hold the same things and a well-formed request whose sums
stay in range, the two commits agree exactly when their floors do and the
number drawn for the event is free. -/
theorem commit_simulated_iff {store : SqlStore} {memory : InMemoryStore} {req : CommitRequest}
    {order sqlOrder : IterationOrder} (hsame : SameStores store memory)
    (hwell : WellFormedRequest memory req) (hsums : NoOverflow store memory order sqlOrder req)
    (clock sqlClock : Clock) :
    Simulated order sqlOrder clock sqlClock req store memory ↔
      SimulatedWhen sqlClock req store memory := by
  unfold SimulatedWhen
  cases hnew : memory.transfers.lookup req.transferId with
  | some record =>
      exact ⟨fun _ hnone => (nomatch hnone), fun _ => simulated_of_stored hsame hnew⟩
  | none =>
      have hsound := hsame.postings.sound
      have hmemoryGuards : memory.commitGuards order req = (do
        memory.freezeGuard req
        memory.doubleSpendGuard req
        memory.overdraftFloor order req) := rfl
      have hsqlGuards : store.commitGuards sqlOrder req = (do
        memory.freezeGuard req
        memory.doubleSpendGuard req
        (store.written req).overdraftFloor sqlOrder (store.touched sqlOrder req)) := by
        rw [SqlStore.commitGuards, hsame.freezeGuard_eq, hsame.doubleSpendGuard_eq]
      -- the first two guards agree in the two stores; after them the floors decide
      cases hfreeze : memory.freezeGuard req with
      | error refusal =>
          rw [hfreeze] at hmemoryGuards hsqlGuards
          exact ⟨fun _ _ hok => (nomatch hok), fun _ =>
            simulated_of_refused hsame hnew hmemoryGuards hsqlGuards rfl⟩
      | ok _ =>
          rw [hfreeze] at hmemoryGuards hsqlGuards
          cases hspend : memory.doubleSpendGuard req with
          | error refusal =>
              rw [hspend] at hmemoryGuards hsqlGuards
              exact ⟨fun _ _ _ hok => (nomatch hok), fun _ =>
                simulated_of_refused hsame hnew hmemoryGuards hsqlGuards rfl⟩
          | ok _ =>
              rw [hspend] at hmemoryGuards hsqlGuards
              simp only [forall_const]
              obtain ⟨hfloor, hnonneg⟩ | ⟨⟨_, _, _, hfloor⟩, key, hfloored, hnegative⟩ :=
                memoryFloor_cases hwell hsound hfreeze hsums.inMemory
              · obtain ⟨hsqlFloor, hsqlNonneg⟩ | ⟨⟨_, _, _, hsqlFloor⟩, key, hfloored, hnegative⟩ :=
                  sqlFloor_cases hsame hwell (fun _ => hsame.mem_touched_iff) hsums.inSql
                · rw [simulated_iff_of_passed hsame hwell hnew (hmemoryGuards.trans hfloor)
                    (hsqlGuards.trans hsqlFloor)]
                  have hagree : FloorsAgree memory req :=
                    ⟨fun ⟨key, hfloored, hlow⟩ => absurd (hnonneg key hfloored) (not_le.mpr hlow),
                      fun ⟨key, hfloored, hlow⟩ =>
                        absurd (hsqlNonneg key hfloored) (not_le.mpr hlow)⟩
                  exact ⟨fun hfree => ⟨hagree, fun _ => hfree⟩, fun hwhen => hwhen.2 hnonneg⟩
                · refine ⟨fun hsimulated => absurd hsimulated ?_, fun hwhen => ?_⟩
                  · exact not_simulated_of_one_refused hsame hnew
                      (.inl ⟨hmemoryGuards.trans hfloor, hsqlGuards.trans hsqlFloor⟩)
                  · obtain ⟨other, hother, hlow⟩ := hwhen.1.mpr ⟨key, hfloored, hnegative⟩
                    exact absurd (hnonneg other hother) (not_le.mpr hlow)
              · obtain ⟨hsqlFloor, hsqlNonneg⟩ | ⟨⟨_, _, _, hsqlFloor⟩, other, hother, hlow⟩ :=
                  sqlFloor_cases hsame hwell (fun _ => hsame.mem_touched_iff) hsums.inSql
                · refine ⟨fun hsimulated => absurd hsimulated ?_, fun hwhen => ?_⟩
                  · exact not_simulated_of_one_refused hsame hnew
                      (.inr ⟨hmemoryGuards.trans hfloor, hsqlGuards.trans hsqlFloor⟩)
                  · obtain ⟨other, hother, hlow⟩ := hwhen.1.mp ⟨key, hfloored, hnegative⟩
                    exact absurd (hsqlNonneg other hother) (not_le.mpr hlow)
                · refine ⟨fun _ => ⟨?_, ?_⟩, fun _ => ?_⟩
                  · exact ⟨fun _ => ⟨other, hother, hlow⟩, fun _ => ⟨key, hfloored, hnegative⟩⟩
                  · exact fun hnonneg => absurd (hnonneg key hfloored) (not_le.mpr hnegative)
                  · exact simulated_of_refused hsame hnew (hmemoryGuards.trans hfloor)
                      (hsqlGuards.trans hsqlFloor) rfl

end Theory

namespace Sample

/-- Alice forbids overdraft and her five usd are reserved. -/
def reservedStores : SqlStore × InMemoryStore :=
  let posting := postingOf 1 0 alice 5
  let sql := (SqlStore.empty.createAccount (.debitMustNotExceedCredit alice)).2
  let sql := (sql.createAccount (.new bob)).2
  let memory := (InMemoryStore.new.createAccount (.debitMustNotExceedCredit alice)).2
  let memory := (memory.createAccount (.new bob)).2
  ({ sql with
      postings := ((sql.postings.insertPostings [posting]).2.reservePostings [posting.id] ⟨1⟩).2 },
    ((memory.insertPostings [posting]).2.reservePostings [posting.id] ⟨1⟩).2)

theorem reservedStores_same : SameStores reservedStores.1 reservedStores.2 := by
  have halice : (Account.debitMustNotExceedCredit alice).id ∉ InMemoryStore.new.accounts :=
    AList.notMem_empty _
  have hbob : (Account.new bob).id ∉
      (InMemoryStore.new.createAccount (.debitMustNotExceedCredit alice)).2.accounts := by
    decide +kernel
  have haccounts := (SameStores.empty.accounts.createAccount halice).createAccount hbob
  have hinserted := SameStores.empty.postings.insert [postingOf 1 0 alice 5]
  have hreserved := hinserted.2.reserve [(postingOf 1 0 alice 5).id] ⟨1⟩
  exact {
    accounts := haccounts.congr rfl rfl rfl
    postings := hreserved.2
    transfers := SameStores.empty.transfers.congr rfl rfl rfl rfl }

/-- Alice owes bob five, and nothing is consumed. -/
def overdrawing : CommitRequest :=
  commitOf 2 1 [] [postingOf 2 0 alice (-5), postingOf 2 1 bob 5] [alice, bob]

/-- Bob owes alice five. -/
def crediting : CommitRequest :=
  commitOf 3 1 [] [postingOf 3 0 bob (-5), postingOf 3 1 alice 5] [alice, bob]

section Exchanges

variable {req : CommitRequest} (hreq : req = overdrawing ∨ req = crediting)

include hreq

theorem exchange_wellFormed : WellFormedRequest reservedStores.2 req where
  consumes := by
    rcases hreq with rfl | rfl <;> exact List.nodup_nil
  creates := by
    rcases hreq with rfl | rfl <;> decide +kernel
  fresh := by
    rcases hreq with rfl | rfl <;> decide +kernel
  involved id := by
    rcases hreq with rfl | rfl
    · simp [overdrawing, commitOf, postingOf, eq_comm]
    · simp [crediting, commitOf, postingOf, eq_comm, or_comm]

/-- Between the two accounts only that of alice has a floor. -/
theorem exchange_floored {key : BalanceKey} (hfloored : Floored reservedStores.2 req key) :
    key = (alice, usd) := by
  obtain ⟨htouches, account, hlatest, hforbids⟩ := hfloored
  have hkey : key = (alice, usd) ∨ key = (bob, usd) := by
    rcases hreq with rfl | rfl
    · simpa [Touches, overdrawing, commitOf, postingOf, Posting.key, eq_comm] using htouches
    · simpa [Touches, crediting, commitOf, postingOf, Posting.key, eq_comm, or_comm] using htouches
  apply hkey.resolve_right
  rintro rfl
  have hbob : reservedStores.2.latest bob = some (.new bob) := by decide +kernel
  rw [hbob] at hlatest
  cases hlatest
  exact absurd hforbids (by decide)

theorem exchange_noOverflow : NoOverflow reservedStores.1 reservedStores.2 .listed .listed req where
  inMemory key hfloored := by
    rw [exchange_floored hreq hfloored]
    rcases hreq with rfl | rfl
    · exact ⟨.ofI64 (-5), by decide +kernel⟩
    · exact ⟨.ofI64 5, by decide +kernel⟩
  inSql key hfloored := by
    rw [exchange_floored hreq hfloored]
    rcases hreq with rfl | rfl
    · exact ⟨.ofI64 0, by decide +kernel⟩
    · exact ⟨.ofI64 10, by decide +kernel⟩

end Exchanges

theorem overdrawing_outcomes :
    outcomeKind (reservedStores.2.commitEnvelope .listed (some 0) overdrawing).1 =
        .overdraftExceeded ∧
      outcomeKind (reservedStores.1.commitEnvelope .listed (some 0) overdrawing).1 =
        .committed ⟨transferOf 2⟩ := by
  decide +kernel

theorem overdrawing_not_simulated : ¬Simulated .listed .listed (some 0) (some 0) overdrawing
    reservedStores.1 reservedStores.2 := by
  intro hsimulated
  have houtcome := hsimulated.outcome
  rw [overdrawing_outcomes.1, overdrawing_outcomes.2] at houtcome
  cases houtcome

end Sample

open Sample in
/-- Alice owes five and has five reserved: in memory the commit is refused, in
SQL it goes through. -/
theorem reserved_posting_covers_overdraft :
    SameStores reservedStores.1 reservedStores.2 ∧
      WellFormedRequest reservedStores.2 overdrawing ∧
      NoOverflow reservedStores.1 reservedStores.2 .listed .listed overdrawing ∧
      outcomeKind (reservedStores.2.commitEnvelope .listed (some 0) overdrawing).1 =
        .overdraftExceeded ∧
      outcomeKind (reservedStores.1.commitEnvelope .listed (some 0) overdrawing).1 =
        .committed ⟨transferOf 2⟩ ∧
      ¬Simulated .listed .listed (some 0) (some 0) overdrawing reservedStores.1
        reservedStores.2 :=
  ⟨reservedStores_same, exchange_wellFormed (.inl rfl), exchange_noOverflow (.inl rfl),
    overdrawing_outcomes.1, overdrawing_outcomes.2, overdrawing_not_simulated⟩

open Sample in
/-- The reserved posting decides over the one transfer and not over the other, which
leaves the two stores the same. -/
theorem commit_simulated_iff_reserved :
    ¬SimulatedWhen (some 0) overdrawing reservedStores.1 reservedStores.2 ∧
      Simulated .listed .listed (some 0) (some 0) crediting reservedStores.1 reservedStores.2 := by
  constructor
  · intro hwhen
    exact overdrawing_not_simulated ((commit_simulated_iff reservedStores_same
      (exchange_wellFormed (.inl rfl)) (exchange_noOverflow (.inl rfl)) (some 0) (some 0)).mpr hwhen)
  · refine (commit_simulated_iff reservedStores_same (exchange_wellFormed (.inr rfl))
      (exchange_noOverflow (.inr rfl)) (some 0) (some 0)).mpr fun _ _ _ =>
        ⟨⟨?_, ?_⟩, fun _ => .inr (by decide +kernel)⟩
    · rintro ⟨key, hfloored, hlow⟩
      rw [exchange_floored (.inr rfl) hfloored] at hlow
      exact absurd hlow (by decide +kernel)
    · rintro ⟨key, hfloored, hlow⟩
      rw [exchange_floored (.inr rfl) hfloored] at hlow
      exact absurd hlow (by decide +kernel)

end Kuatia
