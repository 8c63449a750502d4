import Kuatia.Core.NetFlow
import Kuatia.Ledger.Crowded
import Kuatia.Ledger.Resolving

/-! # The effect of a commit

A commit moves what it credits and what its debits cover. A source with a
negative sum is not debited, and conservation then rejects the envelope: unless
an active posting differs from its record, which the check reads.
-/

namespace Kuatia

open LedgerM

section Theory

variable [MoneyWidth]

/-- Every positive active posting under the key is the one that was recorded. -/
def Recorded (store : InMemoryStore) (key : BalanceKey) : Prop :=
  ∀ posting ∈ positives store.postings.active.values, posting.key = key →
    store.postings.immutable.lookup posting.id = some posting

/-- Every posting that is consumed is active as it was recorded. -/
def TakenAsRecorded (store : InMemoryStore) (envelope : Envelope) : Prop :=
  ∀ id ∈ envelope.consumes,
    store.postings.immutable.lookup id = store.postings.active.lookup id

instance (store : InMemoryStore) (envelope : Envelope) :
    Decidable (TakenAsRecorded store envelope) :=
  inferInstanceAs (Decidable (∀ id ∈ envelope.consumes, _))

/-- The records of what is consumed come to what is created, in every asset. -/
def RecordsBalance (store : InMemoryStore) (envelope : Envelope) : Prop :=
  ∀ asset, keyTotal Posting.asset Posting.value
      (envelope.consumes.filterMap store.postings.immutable.lookup) asset =
    keyTotal NewPosting.asset NewPosting.value envelope.creates asset

/-- The envelope is not stored yet, validation of what is loaded for it can have
nothing but conservation against it, and the guards of the store have nothing. -/
def Unopposed [Sha256] (store : InMemoryStore) (envelope : Envelope) : Prop :=
  envelopeId envelope ∉ store.transfers ∧ ∃ clock loaded later order guardOrder ts,
    Alone (load envelope) ⟨store, clock⟩ (.ok loaded) later ∧
      (∀ err, plan order envelope loaded = .error err → ∃ asset consumed created,
        err = .validation (.conservationViolation asset consumed created)) ∧
      store.commitGuards guardOrder (commitRequest envelope (planOf envelope) loaded ts) = .ok ()

/-- Every balance has changed by what the movements give and take. -/
def MovesExactly (before after : InMemoryStore) (transfer : Transfer) : Prop :=
  ∀ key, after.liveBalance key =
    before.liveBalance key + transfer.incoming key - transfer.outgoing key

variable [Sha256] {store : InMemoryStore} {transfer : Transfer} {envelope : Envelope}
  {spent : List Posting} {extra : List NewPosting}

/-- What resolution spends is active and positive. -/
theorem Resolved.mem_active (hresolved : Resolved store transfer envelope spent extra)
    {posting : Posting} (hposting : posting ∈ spent) :
    posting ∈ positives store.postings.active.values := by
  obtain ⟨left, hperm⟩ := hresolved.selected posting.key
  have hmem : posting ∈ spent.filter (·.key = posting.key) :=
    List.mem_filter.mpr ⟨hposting, decide_eq_true rfl⟩
  have hpositive := List.mem_filter.mp (hperm.mem_iff.mp (List.mem_append_left left hmem))
  exact List.mem_filter.mpr ⟨(List.mem_filter.mp hpositive.1).1, hpositive.2⟩

theorem Resolved.lookup_active (hresolved : Resolved store transfer envelope spent extra)
    (hconsistent : Consistent store) {posting : Posting} (hposting : posting ∈ spent) :
    store.postings.active.lookup posting.id = some posting := by
  have hactive := (List.mem_filter.mp (hresolved.mem_active hposting)).1
  obtain ⟨id, hlookup⟩ := HashMap.mem_values_iff.mp hactive
  rwa [hconsistent.active_keyed id posting hlookup]

/-- Under the condition that the debited postings are the recorded ones, the
records of what is consumed are what is spent. -/
theorem Resolved.forall₂_recorded (hresolved : Resolved store transfer envelope spent extra)
    (hrecorded : ∀ key, 0 < transfer.outgoing key → Recorded store key) :
    List.Forall₂ (fun id posting => store.postings.immutable.lookup id = some posting)
      envelope.consumes spent := by
  rw [hresolved.consumes]
  refine List.forall₂_map_left_iff.mpr (List.forall₂_same.mpr fun posting hposting => ?_)
  exact hrecorded _ (hresolved.debited posting hposting) posting (hresolved.mem_active hposting) rfl

theorem Resolved.forall₂_of_taken (hresolved : Resolved store transfer envelope spent extra)
    (hconsistent : Consistent store) (htaken : TakenAsRecorded store envelope) :
    List.Forall₂ (fun id posting => store.postings.immutable.lookup id = some posting)
      envelope.consumes spent := by
  rw [TakenAsRecorded, hresolved.consumes] at htaken
  rw [hresolved.consumes]
  refine List.forall₂_map_left_iff.mpr (List.forall₂_same.mpr fun posting hposting => ?_)
  rw [htaken _ (List.mem_map_of_mem hposting)]
  exact hresolved.lookup_active hconsistent hposting

theorem Resolved.activeOf_consumes (hresolved : Resolved store transfer envelope spent extra)
    (hconsistent : Consistent store) : store.activeOf envelope.consumes = spent := by
  rw [hresolved.consumes]
  refine HashMap.filterMap_lookup_eq (List.forall₂_map_left_iff.mpr (List.forall₂_same.mpr ?_))
  exact fun posting hposting => hresolved.lookup_active hconsistent hposting

/-- What is spent is taken from the active postings, each once. -/
theorem Resolved.subperm (hresolved : Resolved store transfer envelope spent extra) :
    spent.Subperm store.postings.active.values := by
  refine subperm_of_filter Posting.key fun posting _ => ?_
  obtain ⟨left, hperm⟩ := hresolved.selected posting.key
  refine (List.sublist_append_left _ left).subperm.trans (hperm.subperm.trans ?_)
  exact (List.filter_sublist.trans List.filter_sublist).subperm

/-- No posting is consumed twice. -/
theorem Resolved.nodup_consumes (hresolved : Resolved store transfer envelope spent extra)
    (hconsistent : Consistent store) : envelope.consumes.Nodup := by
  rw [hresolved.consumes]
  obtain ⟨taken, hperm, hsublist⟩ := hresolved.subperm
  rw [← (hperm.map Posting.id).nodup_iff]
  exact (HashMap.nodup_map_values hconsistent.active_keyed).sublist (hsublist.map _)

/-- What is consumed is active. -/
theorem Resolved.consumes_active (hresolved : Resolved store transfer envelope spent extra)
    (hconsistent : Consistent store) : ∀ id ∈ envelope.consumes, id ∈ store.postings.active := by
  intro id hid
  rw [hresolved.consumes] at hid
  obtain ⟨posting, hposting, rfl⟩ := List.mem_map.mp hid
  exact HashMap.mem_iff_exists_lookup.mpr ⟨posting, hresolved.lookup_active hconsistent hposting⟩

/-- What an envelope creates less what it spends, under one key. -/
theorem Resolved.net (hresolved : Resolved store transfer envelope spent extra) (key : BalanceKey) :
    keyTotal NewPosting.key NewPosting.value envelope.creates key -
      keyTotal Posting.key Posting.value spent key =
        transfer.incoming key - max 0 (transfer.outgoing key) :=
  MeetsDebits.net hresolved.exact hresolved.creates key

/-- What is spent equals what is created in every asset exactly when no source
has a negative sum of outgoing amounts. -/
theorem Resolved.balanced_iff (hresolved : Resolved store transfer envelope spent extra) :
    (∀ asset, keyTotal Posting.asset Posting.value spent asset =
      keyTotal NewPosting.asset NewPosting.value envelope.creates asset) ↔
    ∀ key, 0 ≤ transfer.outgoing key :=
  MeetsDebits.balanced_iff hresolved.exact hresolved.creates

/-- The records of what is taken as it was recorded come to what is created exactly
when no source has a negative sum of outgoing amounts. -/
theorem Resolved.recordsBalance_iff (hresolved : Resolved store transfer envelope spent extra)
    (hconsistent : Consistent store) (htaken : TakenAsRecorded store envelope) :
    RecordsBalance store envelope ↔ ∀ key, 0 ≤ transfer.outgoing key := by
  rw [RecordsBalance,
    HashMap.filterMap_lookup_eq (hresolved.forall₂_of_taken hconsistent htaken)]
  exact hresolved.balanced_iff

/-- Each movement is credited, and there is at most one more posting for each. -/
theorem Resolved.length_creates_le (hresolved : Resolved store transfer envelope spent extra) :
    envelope.creates.length ≤ 2 * transfer.movements.length := by
  have hfew := hresolved.few
  rw [hresolved.creates, List.length_append, List.length_map]
  omega

/-! ## Committing what was resolved -/

section Commit

variable {before after : World} {result : Except LedgerError Receipt} {order : IterationOrder}
  {req : CommitRequest} {consumed : List Posting}

/-- A commit that runs alone changes nothing, or commits what it has resolved. -/
theorem commit_alone (hwell : WellFormed before.store)
    (halone : Alone (commit transfer) before result after) :
    (∃ err, result = .error err ∧ after.store = before.store) ∨
    ∃ envelope middle spent extra pinned, Alone (resolve transfer) before (.ok envelope) middle ∧
      Resolved before.store transfer envelope spent extra ∧
      pinnedIn before.store envelope = .ok pinned ∧
      CommitEnds before.store pinned result after.store := by
  obtain ⟨envelope, middle, hresolve, hrest⟩ | ⟨err, hresolve, rfl⟩ := alone_bind_iff.mp halone
  · have hstore := (resolve_readOnly transfer).store_eq hresolve
    obtain ⟨spent, extra, hresolved⟩ := resolve_alone hresolve
    obtain ⟨pinned, hpinned, hends⟩ | ⟨err, herror, hsame⟩ :=
      commitEnvelope_alone (hstore ▸ hwell) hrest
    · rw [hstore] at hpinned hends
      exact .inr ⟨envelope, middle, spent, extra, pinned, hresolve, hresolved, hpinned, hends⟩
    · exact .inl ⟨err, herror, hsame.trans hstore⟩
  · exact .inl ⟨err, rfl, (resolve_readOnly transfer).store_eq hresolve⟩

/-- The balances after a resolved envelope is applied: a source is debited what
it owes on balance, if that is positive. -/
theorem Resolved.liveBalance_applyCommit
    (hresolved : Resolved store transfer envelope spent extra) (clock : Clock)
    (hconsistent : Consistent store) (hindex : envelope.creates.length ≤ 65536)
    (hvalid : Validated store req consumed) (hconsumes : req.record.envelope.consumes = envelope.consumes)
    (hcreates : req.record.envelope.creates = envelope.creates)
    (hfresh : req.transferId ∉ store.transfers) (hguards : store.commitGuards order req = .ok ())
    (key : BalanceKey) :
    (store.applyCommit clock req).liveBalance key =
      store.liveBalance key + transfer.incoming key - max 0 (transfer.outgoing key) := by
  have hnet := hresolved.net key
  rw [Kuatia.liveBalance_applyCommit clock hconsistent hvalid hfresh hguards, hvalid.consume,
    hconsumes, hresolved.activeOf_consumes hconsistent, hvalid.create, hcreates,
    keyTotal_perm (activated_perm (nodup_map_id_createdPostings hindex)), keyTotal_createdPostings]
  omega

end Commit

/-- What a commit promises: it returns the receipt of a stored transfer and does
nothing, or it moves exactly what was asked for, or it fails and changes nothing. -/
def CommitMeets (before after : InMemoryStore) (transfer : Transfer) :
    Except LedgerError Receipt → Prop
  | .ok receipt => receipt.transferId ∈ before.transfers ∧ after = before ∨
      MovesExactly before after transfer
  | .error _ => after.postings = before.postings ∧ after.transfers = before.transfers ∧
      after.events = before.events

omit [Sha256] in
theorem movesExactly_iff {after : InMemoryStore} (hafter : ∀ key, after.liveBalance key =
      store.liveBalance key + transfer.incoming key - max 0 (transfer.outgoing key)) :
    MovesExactly store after transfer ↔ ∀ key, 0 ≤ transfer.outgoing key := by
  refine forall_congr' fun key => ?_
  rw [hafter]
  omega

/-! ## What is stored -/

section Passing

variable {before after : World} {receipt : Receipt} {order : IterationOrder}

/-- Pinning leaves a resolved envelope as it is. -/
theorem Resolved.pinnedIn_eq (hresolved : Resolved store transfer envelope spent extra) :
    pinnedIn store envelope = .ok envelope := by
  obtain ⟨accounts, haccounts, hpinned⟩ := hresolved.pinned
  unfold pinnedIn
  split
  next hnone =>
    rw [hpinned, List.map_eq_nil_iff] at hnone
    rw [haccounts, hnone]
    refine congrArg Except.ok ?_
    rw [Envelope.setAccountSnapshots, List.map_nil, ← List.map_nil (f := accountSnapshotId),
      ← hnone, ← hpinned]
  next => rfl

theorem Resolved.pinSnapshots (hresolved : Resolved store transfer envelope spent extra)
    (clock : Clock) : ∃ later,
      Alone (pinSnapshots envelope) ⟨store, clock⟩ (.ok envelope) ⟨store, later⟩ := by
  obtain ⟨result, later, halone⟩ := (pinSnapshots_readOnly envelope).exists_alone ⟨store, clock⟩
  refine ⟨later, ?_⟩
  cases result with
  | ok pinned =>
      have hpinned := pinSnapshots_alone halone
      rw [hresolved.pinnedIn_eq] at hpinned
      cases hpinned
      exact halone
  | error err =>
      obtain ⟨accounts, haccounts, _⟩ := hresolved.pinned
      unfold Kuatia.pinSnapshots at halone
      split at halone
      next =>
        obtain ⟨_, _, _, hpure⟩ | ⟨_, hresolve, _⟩ := alone_bind_iff.mp halone
        · cases (alone_pure_iff.mp hpure).1
        obtain ⟨_, _, _, hpure⟩ | ⟨_, hread, _⟩ := alone_bind_iff.mp hresolve
        · cases (alone_pure_iff.mp hpure).1
        have herror := getAccounts_alone hread
        rw [haccounts] at herror
        cases herror
      next => cases (alone_pure_iff.mp halone).1

/-- What is loaded is in the store. -/
theorem loaded_of_alone (hwell : WellFormed store) {clock : Clock} {loaded : LoadedState}
    (hload : Alone (load envelope) ⟨store, clock⟩ (.ok loaded) after) :
    Loaded store envelope loaded := by
  let start : World := ⟨store, clock⟩
  have hkeeps : Keeps Async.anyAction Interferes (LedgerStep fun _ => True)
      (fun loaded later => Loaded later.store envelope loaded) (load envelope) start :=
    load_keeps envelope hwell
  have hloaded := hkeeps.of_alone hload
  rwa [(load_readOnly envelope).store_eq hload] at hloaded

/-- A commit stores a new transfer only if its envelope is unopposed and balanced by
the records, which validation reads. -/
theorem unopposed_of_alone (hwell : WellFormed before.store) (hfaithful : Faithful before.store)
    (halone : Alone (commitUnlessStored envelope) before (.ok receipt) after)
    (hfresh : receipt.transferId ∉ before.store.transfers) :
    Unopposed before.store envelope ∧ RecordsBalance before.store envelope := by
  obtain ⟨existing, first, hread, hrest⟩ := alone_bind_ok_iff.mp halone
  obtain ⟨choice, hexisting, rfl⟩ := alone_read_iff.mp hread
  cases hexisting
  cases hlookup : before.store.transfers.lookup (envelopeId envelope) with
  | some record =>
      rw [InMemoryStore.getTransfer, hlookup] at hrest
      cases (alone_pure_iff.mp hrest).1
      rw [hfaithful.filed _ _ hlookup] at hfresh
      exact absurd (HashMap.mem_iff_exists_lookup.mpr ⟨record, hlookup⟩) hfresh
  | none =>
      rw [InMemoryStore.getTransfer, hlookup] at hrest
      have hunstored := AList.lookup_eq_none.mp hlookup
      obtain ⟨loaded, second, hload, hrest⟩ := alone_bind_ok_iff.mp hrest
      obtain ⟨result, third, hplan, hrest⟩ := alone_bind_ok_iff.mp hrest
      obtain ⟨ts, fourth, hnow, hrest⟩ := alone_bind_ok_iff.mp hrest
      obtain ⟨outcome, fifth, hact, hrest⟩ := alone_bind_ok_iff.mp hrest
      obtain ⟨last, houtcome, rfl⟩ := alone_act_iff.mp hact
      cases houtcome
      let start : World := ⟨before.store, choice.clock⟩
      have hsecond : second.store = start.store := (load_readOnly envelope).store_eq hload
      have hthird := ((ReadOnly.compute _).store_eq hplan).trans hsecond
      have hfourth := (ReadOnly.nowMillis.store_eq hnow).trans hthird
      obtain ⟨order, hplan⟩ := alone_compute hplan
      have hresult := alone_attempts hrest
      obtain ⟨rfl, _⟩ := plan_eq_ok hplan.symm
      rw [hfourth, InMemoryStore.commitEnvelope_of_fresh hunstored] at hresult
      have hloaded := loaded_of_alone hwell hload
      have hvalid := validated_of_plan hwell hloaded hplan.symm ts
      refine ⟨⟨hunstored, choice.clock, loaded, second, order, last.order, ts, hload,
        fun err herr => ?_, ?_⟩, fun asset => ?_⟩
      · cases hplan.trans herr
      · cases hguards : before.store.commitGuards last.order
            (commitRequest envelope (planOf envelope) loaded ts) with
        | ok => rfl
        | error refusal =>
            rw [hguards] at hresult
            cases refusal <;> cases hresult
      · exact (congrArg (keyTotal Posting.asset Posting.value · asset)
          (HashMap.filterMap_lookup_eq hvalid.found)).trans (hvalid.balanced asset)

/-- Validation accepts an unopposed envelope that the records balance. -/
theorem plan_of_recordsBalance (hwell : WellFormed store)
    (hbalance : RecordsBalance store envelope) {loaded : LoadedState}
    (hloaded : Loaded store envelope loaded)
    (hopposed : ∀ err, plan order envelope loaded = .error err → ∃ asset consumed created,
      err = .validation (.conservationViolation asset consumed created)) :
    plan order envelope loaded = .ok (planOf envelope) := by
  cases hplan : plan order envelope loaded with
  | ok result => rw [(plan_eq_ok hplan).1]
  | error err =>
      obtain ⟨asset, consumed, created, rfl⟩ := hopposed err hplan
      unfold plan at hplan
      split at hplan
      next => cases hplan
      next =>
        obtain ⟨cause, hcause, heq⟩ := Except.mapError_eq_error_iff.mp hplan
        cases heq
        cases reason_of_validateAndPlan hcause with
        | conservationViolation hfound hdiffers =>
            -- what validation has found is what is on record
            cases finds_eq_consumed hwell hloaded rfl rfl hfound
            have hrecords := hbalance asset
            rw [HashMap.filterMap_lookup_eq hloaded.consumed] at hrecords
            exact absurd hrecords hdiffers

/-- Some commit that runs alone stores an unopposed envelope that the records balance. -/
theorem Unopposed.commits (hopposed : Unopposed store envelope) (hwell : WellFormed store)
    (hbalance : RecordsBalance store envelope) (clock : Clock) : ∃ after,
      Alone (commitUnlessStored envelope) ⟨store, clock⟩ (.ok ⟨envelopeId envelope⟩) after := by
  obtain ⟨hunstored, start, loaded, later, order, guardOrder, ts, hload, hplan, hguards⟩ := hopposed
  have hlater := (load_readOnly envelope).store_eq hload
  have hplan := plan_of_recordsBalance hwell hbalance (loaded_of_alone hwell hload) hplan
  have hcommitted : (store.commitEnvelope guardOrder (some ts)
      (commitRequest envelope (planOf envelope) loaded ts)).1 =
        .ok (.committed ⟨envelopeId envelope⟩) := by
    rw [InMemoryStore.commitEnvelope_of_fresh hunstored, hguards]
    rfl
  let last : World := ⟨(store.commitEnvelope guardOrder (some ts)
    (commitRequest envelope (planOf envelope) loaded ts)).2, some ts⟩
  have hact : Alone (act fun choice store => store.commitEnvelope choice.order choice.clock
      (commitRequest envelope (planOf envelope) loaded ts)) ⟨store, some ts⟩
        (.ok (.ok (.committed ⟨envelopeId envelope⟩))) last :=
    alone_act_iff.mpr ⟨⟨guardOrder, some ts⟩, congrArg Except.ok hcommitted.symm, rfl⟩
  have hplanned : Alone (compute fun order => plan order envelope loaded) later
      (.ok (planOf envelope)) ⟨store, start⟩ :=
    alone_bind_ok_iff.mpr ⟨.ok (planOf envelope), _, alone_read_iff.mpr ⟨⟨order, start⟩,
      congrArg Except.ok hplan.symm, by rw [hlater]⟩, alone_attempt_iff.mpr ⟨rfl, rfl⟩⟩
  have hpinned : Alone (commitPinned envelope) ⟨store, start⟩ (.ok ⟨envelopeId envelope⟩) last :=
    alone_bind_ok_iff.mpr ⟨loaded, _, hload, alone_bind_ok_iff.mpr ⟨planOf envelope, _, hplanned,
      alone_bind_ok_iff.mpr ⟨ts, _, alone_nowMillis ts, alone_bind_ok_iff.mpr ⟨_, _, hact,
        alone_bind_ok_iff.mpr ⟨_, _, alone_attempt_iff.mpr ⟨rfl, rfl⟩,
          alone_attempt_iff.mpr ⟨rfl, rfl⟩⟩⟩⟩⟩⟩
  refine ⟨last, alone_bind_ok_iff.mpr ⟨none, ⟨store, start⟩,
    alone_read_iff.mpr ⟨⟨.listed, start⟩, ?_, rfl⟩, hpinned⟩⟩
  rw [InMemoryStore.getTransfer, AList.lookup_eq_none.mpr hunstored]

end Passing

section Meets

variable {ledger : Ledger} {actions : List LedgerAction} {transfer : Transfer}
  (hindex : ∀ envelope middle,
    Alone (resolve transfer) (LedgerPool.after ledger actions).shared (.ok envelope) middle →
      envelope.creates.length ≤ 65536)

include hindex in
/-- A commit that stores a new transfer moves exactly what was asked for precisely
when no source has a negative sum of outgoing amounts. -/
theorem movesExactly_of_commit {receipt : Receipt} {after : World}
    (hcommit : Alone (commit transfer) (LedgerPool.after ledger actions).shared (.ok receipt) after)
    (hfresh : receipt.transferId ∉ (storeAfter ledger actions).transfers) :
    MovesExactly (storeAfter ledger actions) after.store transfer ↔
      ∀ key, 0 ≤ transfer.outgoing key := by
  have hconsistent := consistent_after ledger actions
  have hfaithful := faithful_after ledger actions
  obtain ⟨_, herror, _⟩ | ⟨envelope, middle, spent, extra, pinned, hresolve, hresolved, hpinned,
    hends⟩ := commit_alone (wellFormed_after ledger actions) hcommit
  · cases herror
  obtain ⟨hcreates, hconsumes⟩ := creates_of_pinnedIn hpinned
  have hindex := hindex envelope middle hresolve
  generalize after.store = later at hends ⊢
  cases hends with
  | stored hlookup =>
      rw [hfaithful.filed _ _ hlookup] at hfresh
      exact absurd (HashMap.mem_iff_exists_lookup.mpr ⟨_, hlookup⟩) hfresh
  | applied clock hvalid henvelope hfresh hguards =>
      rw [← henvelope] at hcreates hconsumes
      exact movesExactly_iff fun key => hresolved.liveBalance_applyCommit clock
        hconsistent hindex hvalid hconsumes hcreates hfresh hguards key

/-- A new transfer is stored only if what it resolves to is unopposed and balanced by
the records. -/
theorem exists_unopposed_of_commit {receipt : Receipt} {after : World}
    (hcommit : Alone (commit transfer) (LedgerPool.after ledger actions).shared (.ok receipt) after)
    (hfresh : receipt.transferId ∉ (storeAfter ledger actions).transfers) :
    ∃ envelope middle,
      Alone (resolve transfer) (LedgerPool.after ledger actions).shared (.ok envelope) middle ∧
        Unopposed (storeAfter ledger actions) envelope ∧
        RecordsBalance (storeAfter ledger actions) envelope := by
  obtain ⟨envelope, middle, hresolve, hrest⟩ := alone_bind_ok_iff.mp hcommit
  obtain ⟨spent, extra, hresolved⟩ := resolve_alone hresolve
  obtain ⟨pinned, last, hpins, hunless⟩ := alone_bind_ok_iff.mp hrest
  have hmiddle : middle.store = storeAfter ledger actions :=
    (resolve_readOnly transfer).store_eq hresolve
  have hlast := ((pinSnapshots_readOnly envelope).store_eq hpins).trans hmiddle
  have hpinned := pinSnapshots_alone hpins
  rw [hmiddle, storeAfter, hresolved.pinnedIn_eq] at hpinned
  cases hpinned
  rw [← hlast] at hfresh
  have hstored := unopposed_of_alone (hlast ▸ wellFormed_after ledger actions)
    (hlast ▸ faithful_after ledger actions) hunless hfresh
  exact ⟨envelope, middle, hresolve, hlast ▸ hstored⟩

/-- An unopposed envelope that the records balance is stored by some commit. -/
theorem exists_commit_of_unopposed {envelope : Envelope} {middle : World}
    (hresolve : Alone (resolve transfer) (LedgerPool.after ledger actions).shared (.ok envelope)
      middle)
    (hopposed : Unopposed (storeAfter ledger actions) envelope)
    (hbalance : RecordsBalance (storeAfter ledger actions) envelope) : ∃ after,
      Alone (commit transfer) (LedgerPool.after ledger actions).shared (.ok ⟨envelopeId envelope⟩)
        after := by
  obtain ⟨spent, extra, hresolved⟩ := resolve_alone hresolve
  have hmiddle : middle.store = storeAfter ledger actions :=
    (resolve_readOnly transfer).store_eq hresolve
  have hwell := wellFormed_after ledger actions
  rw [← storeAfter, ← hmiddle] at hresolved
  rw [← hmiddle] at hopposed hbalance hwell
  obtain ⟨clock, hpins⟩ := hresolved.pinSnapshots middle.clock
  obtain ⟨after, hunless⟩ := hopposed.commits hwell hbalance clock
  exact ⟨after, alone_bind_ok_iff.mpr ⟨envelope, middle, hresolve,
    alone_bind_ok_iff.mpr ⟨envelope, _, hpins, hunless⟩⟩⟩

/-- A commit that fails changes nothing, and so does one whose transfer is stored. -/
theorem commitMeets_of_old {result : Except LedgerError Receipt} {after : World}
    (hcommit : Alone (commit transfer) (LedgerPool.after ledger actions).shared result after)
    (hold : ∀ receipt, result = .ok receipt →
      receipt.transferId ∈ (storeAfter ledger actions).transfers) :
    CommitMeets (storeAfter ledger actions) after.store transfer result := by
  obtain ⟨err, rfl, hsame⟩ | ⟨_, _, _, _, _, _, _, _, hends⟩ :=
    commit_alone (wellFormed_after ledger actions) hcommit
  · rw [hsame]
    exact ⟨rfl, rfl, rfl⟩
  · generalize after.store = later at hends ⊢
    cases hends with
    | stored => exact .inl ⟨hold _ rfl, rfl⟩
    | failed err => exact ⟨rfl, rfl, rfl⟩
    | applied _ _ _ hfresh _ => exact absurd (hold _ rfl) hfresh

include hindex in
/-- In every reachable state, all commits that run alone keep the promise exactly when
no source has a negative sum of outgoing amounts, or the records of the postings that
the selection takes do not come to what is created, or something else is against the
envelope. So they do whenever the postings that are taken are active as they were
recorded. -/
theorem commit_meets_iff :
    ((∀ result after,
        Alone (commit transfer) (LedgerPool.after ledger actions).shared result after →
          CommitMeets (storeAfter ledger actions) after.store transfer result) ↔
      (∀ key, 0 ≤ transfer.outgoing key) ∨ ∀ envelope middle,
        Alone (resolve transfer) (LedgerPool.after ledger actions).shared (.ok envelope) middle →
          ¬RecordsBalance (storeAfter ledger actions) envelope ∨
            ¬Unopposed (storeAfter ledger actions) envelope) ∧
    ((∀ envelope middle,
        Alone (resolve transfer) (LedgerPool.after ledger actions).shared (.ok envelope) middle →
          TakenAsRecorded (storeAfter ledger actions) envelope) →
      ∀ result after,
        Alone (commit transfer) (LedgerPool.after ledger actions).shared result after →
          CommitMeets (storeAfter ledger actions) after.store transfer result) := by
  have hiff : (∀ result after,
      Alone (commit transfer) (LedgerPool.after ledger actions).shared result after →
        CommitMeets (storeAfter ledger actions) after.store transfer result) ↔
      (∀ key, 0 ≤ transfer.outgoing key) ∨ ∀ envelope middle,
        Alone (resolve transfer) (LedgerPool.after ledger actions).shared (.ok envelope) middle →
          ¬RecordsBalance (storeAfter ledger actions) envelope ∨
            ¬Unopposed (storeAfter ledger actions) envelope := by
    refine ⟨fun hmeets => ?_, fun hcondition result after hcommit => ?_⟩
    · by_contra hneither
      obtain ⟨hnegative, hstores⟩ := not_or.mp hneither
      push Not at hstores
      obtain ⟨envelope, middle, hresolve, hbalance, hopposed⟩ := hstores
      obtain ⟨after, hcommit⟩ := exists_commit_of_unopposed hresolve hopposed hbalance
      rcases hmeets _ _ hcommit with ⟨hstored, _⟩ | hmoves
      · exact hopposed.1 hstored
      · exact hnegative ((movesExactly_of_commit hindex hcommit hopposed.1).mp hmoves)
    · by_cases hold : ∀ receipt, result = .ok receipt →
          receipt.transferId ∈ (storeAfter ledger actions).transfers
      · exact commitMeets_of_old hcommit hold
      push Not at hold
      obtain ⟨receipt, rfl, hfresh⟩ := hold
      refine .inr ((movesExactly_of_commit hindex hcommit hfresh).mpr ?_)
      refine hcondition.resolve_right fun hrefused => ?_
      obtain ⟨envelope, middle, hresolve, hopposed, hbalance⟩ :=
        exists_unopposed_of_commit hcommit hfresh
      rcases hrefused envelope middle hresolve with hunbalanced | hrefused
      · exact hunbalanced hbalance
      · exact hrefused hopposed
  refine ⟨hiff, fun htaken => hiff.mpr (or_iff_not_imp_left.mpr fun hnegative => ?_)⟩
  -- with a negative sum, what was recorded as it is active is not balanced
  intro envelope middle hresolve
  obtain ⟨spent, extra, hresolved⟩ := resolve_alone hresolve
  refine .inl fun hbalance => hnegative ?_
  exact (hresolved.recordsBalance_iff (consistent_after ledger actions)
    (htaken envelope middle hresolve)).mp hbalance

end Meets

end Theory

open Sample in
/-- Alice pays 3, and an account that does not exist takes 2 back. -/
def takingBack : Transfer where
  movements := [⟨alice, external, usd, .ofI64 3⟩, ⟨⟨4, 0⟩, external, usd, .ofI64 (-2)⟩]
  book := DEFAULT_BOOK
  metadata := .single "nonce" (.replicate 32 2)

open Sample in
/-- The sum of the second source is negative. Alice's posting of 5 is active as it was
recorded, so conservation refuses the envelope, and nothing happens. -/
theorem commit_meets_iff_takingBack : ¬(∀ key, 0 ≤ takingBack.outgoing key) ∧
    (∀ result after, Alone (commit takingBack) (LedgerPool.after ledger funded).shared result after →
      CommitMeets (storeAfter ledger funded) after.store takingBack result) ∧
    ∃ after, Alone (commit takingBack) (LedgerPool.after ledger funded).shared
      (.error (.validation (.conservationViolation usd (.ofI64 5) (.ofI64 3)))) after := by
  have hnegative : ¬∀ key, 0 ≤ takingBack.outgoing key := by
    intro hall
    exact absurd (hall (⟨4, 0⟩, usd)) (by decide)
  have hindex : ∀ envelope middle, Alone (resolve takingBack)
      (LedgerPool.after ledger funded).shared (.ok envelope) middle →
        envelope.creates.length ≤ 65536 := by
    intro envelope middle hresolve
    obtain ⟨spent, extra, hresolved⟩ := resolve_alone hresolve
    exact hresolved.length_creates_le.trans (by decide)
  have hrecords : ∀ id ∈ (storeAfter ledger funded).postings.active.keys,
      (storeAfter ledger funded).postings.immutable.lookup id =
        (storeAfter ledger funded).postings.active.lookup id := by
    decide +kernel
  refine ⟨hnegative, (commit_meets_iff hindex).2 fun envelope middle hresolve id hid => ?_, ?_⟩
  · obtain ⟨spent, extra, hresolved⟩ := resolve_alone hresolve
    rw [← storeAfter] at hresolved
    have hactive := hresolved.consumes_active (consistent_after ledger funded) id hid
    exact hrecords id (AList.mem_keys.mp hactive)
  · let before := (LedgerPool.after ledger funded).shared
    have hruns := Async.runs_runWith noon (commit takingBack).run before
    have herror : (Async.runWith noon (commit takingBack).run before).1 =
        .error (.validation (.conservationViolation usd (.ofI64 5) (.ofI64 3))) := by
      decide +kernel
    rw [herror] at hruns
    exact ⟨_, hruns⟩

open Sample in
/-- Bob pays 7, and an account that does not exist takes 2 back. -/
def skimmed : Transfer where
  movements := [⟨bob, external, usd, .ofI64 7⟩, ⟨⟨4, 0⟩, external, usd, .ofI64 (-2)⟩]
  book := DEFAULT_BOOK
  metadata := .single "nonce" (.replicate 32 2)

open Sample in
/-- After the crowded transfer bob's live posting of 7 is on record with 5: the
commit passes, and nobody is credited with the 2. -/
theorem skimmed_vanishes : ∃ actions envelope receipt middle after,
    Alone (resolve skimmed) (LedgerPool.after ledger actions).shared (.ok envelope) middle ∧
      envelope.creates.length ≤ 65536 ∧
      Alone (commit skimmed) (LedgerPool.after ledger actions).shared (.ok receipt) after ∧
      receipt.transferId ∉ (storeAfter ledger actions).transfers ∧
      ¬MovesExactly (storeAfter ledger actions) after.store skimmed := by
  obtain ⟨actions, hcrowded⟩ := exists_crowded
  have hconsistent := consistent_after ledger actions
  let creates : List NewPosting :=
    [⟨external, usd, .ofI64 7, some bob⟩, ⟨external, usd, .ofI64 (-2), some ⟨4, 0⟩⟩]
  let envelope : Envelope := ⟨[⟨envelopeId crowded, 0⟩], creates,
    [accountSnapshotId (.new external)], DEFAULT_BOOK, skimmed.metadata⟩
  have hresolve : Alone (resolve skimmed) (LedgerPool.after ledger actions).shared (.ok envelope)
      ⟨storeAfter ledger actions, none⟩ := hcrowded.resolve hconsistent rfl rfl _
  have howners : ∀ posting ∈ creates, posting.owner = external := by decide
  have hacceptable : Acceptable (storeAfter ledger actions) envelope
      [smaller.withId ⟨envelopeId crowded, 0⟩] := by
    refine ⟨hcrowded.presentable _ (List.cons_ne_nil _ _) howners (by decide),
      List.cons_ne_nil _ _, ?_, fun asset => ?_⟩
    · intro id hid
      rw [List.mem_singleton.mp hid]
      exact HashMap.mem_iff_exists_lookup.mpr ⟨_, hcrowded.active⟩
    · have hspent : ∀ posting ∈ [smaller.withId ⟨envelopeId crowded, 0⟩], posting.asset = usd :=
        fun posting hposting => List.mem_singleton.mp hposting ▸ rfl
      have hmade : ∀ posting ∈ creates, posting.asset = usd := by decide
      rw [keyTotal_of_key hspent, keyTotal_of_key hmade]
      rfl
  -- the only stored transfer is the crowded one, and the two nonces differ
  have hunstored : envelopeId envelope ∉ (storeAfter ledger actions).transfers := by
    intro hstored
    have hsame : envelopeId envelope = envelopeId crowded := hcrowded.transfers _ hstored
    have hbytes := congrArg (fun id : EnvelopeId => id.bytes.toList) hsame
    rw [envelopeId_of_metadata (show envelope.metadata = .single "nonce" _ from rfl) rfl,
      envelopeId_of_metadata (show crowded.metadata = .single "nonce" _ from rfl) rfl] at hbytes
    exact absurd hbytes (by decide)
  obtain ⟨loaded, _, hcommit⟩ := hacceptable.admissible.commits
    (wellFormed_after ledger actions) hconsistent hunstored none 1800000000000
  refine ⟨actions, envelope, _, _, _, hresolve, by decide,
    alone_bind_ok_iff.mpr ⟨envelope, _, hresolve, hcommit⟩, hunstored, fun hmoves => ?_⟩
  have hbefore : (storeAfter ledger actions).liveBalance (⟨4, 0⟩, usd) = 0 := by
    refine keyTotal_eq_zero fun posting hposting => ?_
    obtain ⟨id, hlookup⟩ := (InMemoryStore.mem_livePostings hconsistent.reserved).mp hposting
    rcases hcrowded.key_of_live hlookup with hkey | hkey <;> rw [hkey] <;> decide
  have hafter : ((storeAfter ledger actions).applyCommit (some 1800000000000)
      (commitRequest envelope (planOf envelope) loaded 1800000000000)).liveBalance (⟨4, 0⟩, usd) =
        0 := by
    refine keyTotal_eq_zero fun posting hposting => ?_
    rw [InMemoryStore.mem_livePostings (by rw [InMemoryStore.applyCommit_reserved,
      hconsistent.reserved]), InMemoryStore.applyCommit_active] at hposting
    obtain ⟨id, hlookup⟩ := hposting
    -- what was created belongs to the external account, what was live to none with this key
    obtain ⟨hmem, _⟩ | ⟨hold, _⟩ := HashMap.lookup_insertAll_cases hlookup
    · obtain ⟨source, hsource, howner, _⟩ := exists_of_mem_createdPostings hmem
      intro hkey
      have hbad : source.owner = ⟨4, 0⟩ := howner ▸ congrArg Prod.fst hkey
      rw [howners source hsource] at hbad
      exact absurd hbad (by decide)
    · rw [HashMap.lookup_eraseAll] at hold
      split at hold
      next => cases hold
      next => rcases hcrowded.key_of_live hold with hkey | hkey <;> rw [hkey] <;> decide
  have hcarol := hmoves (⟨4, 0⟩, usd)
  rw [hbefore, hafter] at hcarol
  exact absurd hcarol (by decide)

end Kuatia
