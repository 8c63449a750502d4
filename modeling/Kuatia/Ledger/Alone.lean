import Kuatia.Ledger.Guarantees

/-! # Operations that run alone

When no other client acts, an operation sees one store until it changes it
itself. What it then returns and leaves behind is read off its program.
-/

namespace Kuatia

open Async LedgerM

variable [MoneyWidth] {α β : Type} {before after : World}

namespace LedgerM

/-- `Alone program before result after`: run alone, `program` may take the world
from `before` to `after` and return `result`. -/
abbrev Alone (program : LedgerM α) (before : World) (result : Except LedgerError α)
    (after : World) : Prop :=
  Runs program.run before result after

theorem alone_pure_iff {value : α} {result : Except LedgerError α} :
    Alone (pure value) before result after ↔ result = .ok value ∧ after = before :=
  runs_done_iff

theorem alone_throw_iff {err : LedgerError} {result : Except LedgerError α} :
    Alone (throw err) before result after ↔ result = .error err ∧ after = before :=
  runs_done_iff

theorem alone_attempt_iff {value result : Except LedgerError α} :
    Alone (attempt value) before result after ↔ result = value ∧ after = before :=
  runs_done_iff

theorem alone_act_iff {body : Choice → InMemoryStore → α × InMemoryStore}
    {result : Except LedgerError α} :
    Alone (act body) before result after ↔
      ∃ choice, result = .ok (body choice before.store).1 ∧
        after = ⟨(body choice before.store).2, choice.clock⟩ := by
  change Runs (.step _ _) before result after ↔ _
  rw [runs_step_iff]
  exact exists_congr fun choice => runs_done_iff

theorem alone_read_iff {query : IterationOrder → InMemoryStore → α}
    {result : Except LedgerError α} :
    Alone (read query) before result after ↔
      ∃ choice : Choice, result = .ok (query choice.order before.store) ∧
        after = ⟨before.store, choice.clock⟩ :=
  alone_act_iff

/-- A program either runs through its first part, or fails there. -/
theorem alone_bind_iff {program : LedgerM α} {rest : α → LedgerM β}
    {result : Except LedgerError β} :
    Alone (program >>= rest) before result after ↔
      (∃ value middle, Alone program before (.ok value) middle ∧
        Alone (rest value) middle result after) ∨
      ∃ err, Alone program before (.error err) after ∧ result = .error err :=
  runs_except_bind_iff

theorem alone_bind_ok_iff {program : LedgerM α} {rest : α → LedgerM β} {value : β} :
    Alone (program >>= rest) before (.ok value) after ↔
      ∃ first middle, Alone program before (.ok first) middle ∧
        Alone (rest first) middle (.ok value) after :=
  runs_except_bind_ok_iff

/-- Converting the error of a program changes only the error. -/
theorem alone_adapt_iff {convert : LedgerError → LedgerError} {program : LedgerM α}
    {result : Except LedgerError α} :
    Alone (ExceptT.adapt convert program) before result after ↔
      ∃ returned, Alone program before returned after ∧ result = returned.mapError convert := by
  change Runs (program.run >>= fun returned => .done (returned.mapError convert)) _ _ _ ↔ _
  simp only [runs_bind_iff, runs_done_iff]
  constructor
  · rintro ⟨returned, _, hprogram, rfl, rfl⟩
    exact ⟨returned, hprogram, rfl⟩
  · rintro ⟨returned, hprogram, rfl⟩
    exact ⟨returned, _, hprogram, rfl, rfl⟩

/-- A program whose failures are caught. -/
theorem alone_outcome_iff {program : LedgerM α}
    {result : Except LedgerError (Except LedgerError α)} :
    Alone (outcome program) before result after ↔
      ∃ returned, Alone program before returned after ∧ result = .ok returned := by
  change Runs (program.run >>= fun returned => .done (Except.ok returned)) _ _ _ ↔ _
  simp only [runs_bind_iff, runs_done_iff]
  constructor
  · rintro ⟨returned, _, hprogram, rfl, rfl⟩
    exact ⟨returned, hprogram, rfl⟩
  · rintro ⟨returned, hprogram, rfl⟩
    exact ⟨returned, _, hprogram, rfl, rfl⟩

theorem alone_compute {result : IterationOrder → Except LedgerError α}
    {returned : Except LedgerError α} (halone : Alone (compute result) before returned after) :
    ∃ order, returned = result order := by
  obtain ⟨value, middle, hread, hattempt⟩ | ⟨err, hread, _⟩ := alone_bind_iff.mp halone
  · obtain ⟨choice, hvalue, _⟩ := alone_read_iff.mp hread
    cases hvalue
    exact ⟨choice.order, (alone_attempt_iff.mp hattempt).1⟩
  · obtain ⟨_, hvalue, _⟩ := alone_read_iff.mp hread
    cases hvalue

/-- Reading the clock fails only if the clock does. -/
theorem nowMillis_cases {result : Except LedgerError Int64}
    (halone : Alone nowMillis before result after) :
    (∃ ts, result = .ok ts) ∨ result = .error .overflow ∧ after.clock = none := by
  obtain ⟨clock, middle, hact, hrest⟩ | ⟨_, hact, _⟩ := alone_bind_iff.mp halone
  · obtain ⟨choice, hvalue, rfl⟩ := alone_act_iff.mp hact
    cases hvalue
    cases hclock : choice.clock with
    | some ts =>
        rw [hclock] at hrest
        exact .inl ⟨ts, (alone_pure_iff.mp hrest).1⟩
    | none =>
        rw [hclock] at hrest
        obtain ⟨rfl, rfl⟩ := alone_throw_iff.mp hrest
        exact .inr ⟨rfl, rfl⟩
  · obtain ⟨_, hvalue, _⟩ := alone_act_iff.mp hact
    cases hvalue

theorem alone_nowMillis (ts : Int64) :
    Alone nowMillis before (.ok ts) ⟨before.store, some ts⟩ :=
  alone_bind_ok_iff.mpr ⟨_, _, alone_act_iff.mpr ⟨⟨.listed, some ts⟩, rfl, rfl⟩,
    alone_pure_iff.mpr ⟨rfl, rfl⟩⟩

end LedgerM

variable [Sha256]

/-- What a program promises under interference it keeps when it runs alone. -/
theorem LedgerM.Keeps.of_alone {submits : Envelope → Prop} {post : α → World → Prop}
    {program : LedgerM α}
    (hprogram : Keeps anyAction Interferes (LedgerStep submits) post program before) {value : α}
    (halone : Alone program before (.ok value) after) : post value after := by
  have halways : ∀ a b : World, a = b → Interferes a b := by
    rintro a _ rfl
    exact Evolves.refl _
  exact (Guarantees.runs (Guarantees.narrow hprogram halways) halone).2 value rfl

/-! ## Committing -/

/-- How a commit of an envelope ends: the envelope is stored already, the commit
fails and changes nothing, or a validated request is applied. -/
inductive CommitEnds (store : InMemoryStore) (envelope : Envelope) :
    Except LedgerError Receipt → InMemoryStore → Prop where
  | stored {record : EnvelopeRecord}
      (hlookup : store.transfers.lookup (envelopeId envelope) = some record) :
      CommitEnds store envelope (.ok record.receipt) store
  | failed (err : LedgerError) : CommitEnds store envelope (.error err) store
  | applied {order : IterationOrder} (clock : Clock) {req : CommitRequest}
      {consumed : List Posting} (hvalid : Validated store req consumed)
      (henvelope : req.record.envelope = envelope)
      (hfresh : req.transferId ∉ store.transfers)
      (hguards : store.commitGuards order req = .ok ()) :
      CommitEnds store envelope (.ok ⟨req.transferId⟩) (store.applyCommit clock req)

omit [Sha256] in
theorem alone_attempts {first : Except LedgerError α} {rest : α → Except LedgerError β}
    {result : Except LedgerError β}
    (halone : Alone (attempt first >>= fun value => attempt (rest value)) before result after) :
    result = first >>= rest := by
  cases first with
  | error err =>
      obtain ⟨_, _, hvalue, _⟩ | ⟨_, hvalue, rfl⟩ := alone_bind_iff.mp halone
      · cases (alone_attempt_iff.mp hvalue).1
      · cases (alone_attempt_iff.mp hvalue).1
        rfl
  | ok value =>
      obtain ⟨_, _, hvalue, hrest⟩ | ⟨_, hvalue, _⟩ := alone_bind_iff.mp halone
      · cases (alone_attempt_iff.mp hvalue).1
        exact (alone_attempt_iff.mp hrest).1
      · cases (alone_attempt_iff.mp hvalue).1

theorem commitPinned_alone {envelope : Envelope} {result : Except LedgerError Receipt}
    (hwell : WellFormed before.store)
    (hunstored : envelopeId envelope ∉ before.store.transfers)
    (halone : Alone (commitPinned envelope) before result after) :
    CommitEnds before.store envelope result after.store := by
  obtain ⟨loaded, first, hload, hrest⟩ | ⟨err, hload, rfl⟩ := alone_bind_iff.mp halone
  swap
  · rw [(load_readOnly envelope).store_eq hload]
    exact .failed err
  have hfirst := (load_readOnly envelope).store_eq hload
  have hkeeps : Keeps anyAction Interferes (LedgerStep fun _ => True)
      (fun loaded later => Loaded later.store envelope loaded) (load envelope) before :=
    load_keeps envelope hwell
  have hloaded := hkeeps.of_alone hload
  obtain ⟨plan, second, hplan, hrest⟩ | ⟨err, hplan, rfl⟩ := alone_bind_iff.mp hrest
  swap
  · rw [(ReadOnly.compute _).store_eq hplan, hfirst]
    exact .failed err
  have hsecond := ((ReadOnly.compute _).store_eq hplan).trans hfirst
  obtain ⟨order, hplan⟩ := alone_compute hplan
  obtain ⟨ts, third, hnow, hrest⟩ | ⟨err, hnow, rfl⟩ := alone_bind_iff.mp hrest
  swap
  · rw [ReadOnly.nowMillis.store_eq hnow, hsecond]
    exact .failed err
  have hthird := (ReadOnly.nowMillis.store_eq hnow).trans hsecond
  obtain ⟨outcome, fourth, hact, hrest⟩ | ⟨err, hact, _⟩ := alone_bind_iff.mp hrest
  swap
  · obtain ⟨_, hvalue, _⟩ := alone_act_iff.mp hact
    cases hvalue
  obtain ⟨choice, houtcome, rfl⟩ := alone_act_iff.mp hact
  cases houtcome
  -- nothing has been written yet, so the guards see the store that was loaded from
  rw [hfirst] at hloaded
  rw [hthird] at hrest
  have hvalid := validated_of_plan hwell hloaded hplan.symm ts
  have hafter := ((ReadOnly.attempt _).bind fun _ => .attempt _).store_eq hrest
  have hresult := alone_attempts hrest
  have hfresh : (commitRequest envelope plan loaded ts).transferId ∉ before.store.transfers := by
    rw [hvalid.transferId]
    exact hunstored
  rw [hafter]
  rw [InMemoryStore.commitEnvelope_of_fresh hfresh] at hresult ⊢
  cases hguards : before.store.commitGuards choice.order (commitRequest envelope plan loaded ts) with
  | error refusal =>
      rw [hguards] at hresult
      cases refusal with
      | fault err => exact hresult ▸ .failed _
      | rejected reason => exact hresult ▸ .failed _
  | ok _ =>
      rw [hguards] at hresult
      rw [hresult]
      exact .applied choice.clock hvalid rfl hfresh hguards

/-- A commit run alone ends in one of the three ways, for the envelope as pinned. -/
theorem commitUnlessStored_alone {envelope : Envelope} {result : Except LedgerError Receipt}
    (hwell : WellFormed before.store)
    (halone : Alone (commitUnlessStored envelope) before result after) :
    CommitEnds before.store envelope result after.store := by
  obtain ⟨existing, middle, hread, hrest⟩ | ⟨err, hread, _⟩ := alone_bind_iff.mp halone
  swap
  · obtain ⟨_, hvalue, _⟩ := alone_read_iff.mp hread
    cases hvalue
  obtain ⟨choice, hexisting, rfl⟩ := alone_read_iff.mp hread
  cases hlookup : before.store.transfers.lookup (envelopeId envelope) with
  | some record =>
      cases hexisting
      rw [InMemoryStore.getTransfer, hlookup] at hrest
      obtain ⟨rfl, rfl⟩ := alone_pure_iff.mp hrest
      exact .stored hlookup
  | none =>
      cases hexisting
      rw [InMemoryStore.getTransfer, hlookup] at hrest
      let middle : World := ⟨before.store, choice.clock⟩
      have hends : CommitEnds middle.store envelope result after.store :=
        commitPinned_alone hwell (AList.lookup_eq_none.mp hlookup) hrest
      exact hends

/-- What pinning makes of an envelope when the accounts are as in `store`. -/
def pinnedIn (store : InMemoryStore) (envelope : Envelope) : Except StoreError Envelope :=
  if envelope.accountSnapshots = [] then do
    let accounts ← store.getAccounts envelope.referencedAccounts
    return envelope.setAccountSnapshots (accounts.map accountSnapshotId)
  else return envelope

theorem pinned_of_pinnedIn {store : InMemoryStore} {envelope pinned : Envelope}
    (hpin : pinnedIn store envelope = .ok pinned) : Pinned envelope pinned := by
  unfold pinnedIn at hpin
  unfold Pinned
  split
  next hempty =>
    rw [if_pos hempty, Except.bind_eq_ok_iff] at hpin
    obtain ⟨accounts, _, hpinned⟩ := hpin
    cases hpinned
    exact ⟨_, rfl⟩
  next hsome =>
    rw [if_neg hsome] at hpin
    cases hpin
    rfl

theorem creates_of_pinnedIn {store : InMemoryStore} {envelope pinned : Envelope}
    (hpinned : pinnedIn store envelope = .ok pinned) :
    pinned.creates = envelope.creates ∧ pinned.consumes = envelope.consumes := by
  have hpinned := pinned_of_pinnedIn hpinned
  unfold Pinned at hpinned
  split at hpinned
  next =>
    obtain ⟨snapshots, rfl⟩ := hpinned
    exact ⟨rfl, rfl⟩
  next =>
    subst hpinned
    exact ⟨rfl, rfl⟩

omit [Sha256] in
theorem getAccounts_alone {ids : List AccountId} {result : Except LedgerError (List Account)}
    (halone : Alone (getAccounts ids) before result after) :
    result = (before.store.getAccounts ids).mapError .store := by
  obtain ⟨_, _, hread, hrest⟩ | ⟨_, hread, _⟩ := alone_bind_iff.mp halone
  · obtain ⟨_, hvalue, rfl⟩ := alone_read_iff.mp hread
    cases hvalue
    exact (alone_attempt_iff.mp hrest).1
  · obtain ⟨_, hvalue, _⟩ := alone_read_iff.mp hread
    cases hvalue

omit [Sha256] in
theorem getPostings_alone {ids : List PostingId} {result : Except LedgerError (List Posting)}
    (halone : Alone (getPostings ids) before result after) :
    result = (before.store.getPostings ids).mapError .store := by
  unfold getPostings at halone
  split at halone
  next hnil =>
    subst hnil
    exact (alone_pure_iff.mp halone).1
  next =>
    obtain ⟨_, _, hread, hrest⟩ | ⟨_, hread, _⟩ := alone_bind_iff.mp halone
    · obtain ⟨_, hvalue, rfl⟩ := alone_read_iff.mp hread
      cases hvalue
      exact (alone_attempt_iff.mp hrest).1
    · obtain ⟨_, hvalue, _⟩ := alone_read_iff.mp hread
      cases hvalue

theorem resolveSnapshots_alone {ids : List AccountId} {snapshots : List AccountSnapshotId}
    (halone : Alone (resolveSnapshots ids) before (.ok snapshots) after) :
    ∃ accounts, before.store.getAccounts ids = .ok accounts ∧
      snapshots = accounts.map accountSnapshotId := by
  obtain ⟨accounts, _, hread, hrest⟩ := alone_bind_ok_iff.mp halone
  have haccounts := (getAccounts_alone hread).symm
  rw [Except.mapError_eq_ok_iff] at haccounts
  cases (alone_pure_iff.mp hrest).1
  exact ⟨accounts, haccounts, rfl⟩

theorem pinSnapshots_alone {envelope pinned : Envelope}
    (halone : Alone (pinSnapshots envelope) before (.ok pinned) after) :
    pinnedIn before.store envelope = .ok pinned := by
  unfold pinSnapshots at halone
  unfold pinnedIn
  split
  next hempty =>
    rw [if_pos hempty] at halone
    obtain ⟨snapshots, _, hsnapshots, hrest⟩ := alone_bind_ok_iff.mp halone
    obtain ⟨accounts, haccounts, rfl⟩ := resolveSnapshots_alone hsnapshots
    cases (alone_pure_iff.mp hrest).1
    rw [haccounts]
    rfl
  next hsome =>
    rw [if_neg hsome] at halone
    cases (alone_pure_iff.mp halone).1
    rfl

/-- A commit run alone fails before it computes the id, or it ends in one of the
three ways for the envelope as it is pinned. -/
theorem commitEnvelope_alone {envelope : Envelope} {result : Except LedgerError Receipt}
    (hwell : WellFormed before.store)
    (halone : Alone (commitEnvelope envelope) before result after) :
    (∃ pinned, pinnedIn before.store envelope = .ok pinned ∧
      CommitEnds before.store pinned result after.store) ∨
    ∃ err, result = .error err ∧ after.store = before.store := by
  obtain ⟨pinned, middle, hpin, hrest⟩ | ⟨err, hpin, rfl⟩ := alone_bind_iff.mp halone
  · have hstore := (pinSnapshots_readOnly envelope).store_eq hpin
    refine .inl ⟨pinned, pinSnapshots_alone hpin, ?_⟩
    rw [← hstore]
    exact commitUnlessStored_alone (hstore ▸ hwell) hrest
  · exact .inr ⟨err, rfl, (pinSnapshots_readOnly envelope).store_eq hpin⟩

end Kuatia
