import Kuatia.Ledger.Balances
import Kuatia.Ledger.Loading

/-! # Envelopes that are accepted

When nothing stands against an envelope, committing it alone stores it. All the
conditions are read off one state of the store.
-/

namespace Kuatia

open LedgerM Async

open MoneyWidth (backing)

variable [MoneyWidth]

/-- The account takes part in transfers. -/
def Participates (store : InMemoryStore) (id : AccountId) : Prop :=
  ∃ account, store.latest id = some account ∧ account.isFrozen = false ∧ account.isClosed = false

/-- The book restricts nothing. The default book may be missing. -/
def AllowsAll (store : InMemoryStore) (id : BookId) : Prop :=
  (id ∉ store.books ∧ id = DEFAULT_BOOK) ∨ ∃ book, store.books.lookup id = some book ∧
    book.policy.allowedAssets = [] ∧ book.policy.allowedAccounts = [] ∧
      book.policy.allowedFlags.isEmpty = true

/-- What the envelope names is in the store, in its current version, and there is
room for all amounts. It consumes `consumed`. -/
structure Presented [Sha256] (store : InMemoryStore) (envelope : Envelope)
    (consumed : List Posting) : Prop where
  creates : envelope.creates ≠ []
  nodup : envelope.consumes.Nodup
  found : List.Forall₂ (fun id posting => store.postings.immutable.lookup id = some posting)
    envelope.consumes consumed
  owners : ∀ id, id ∈ envelope.creates.map (·.owner) ∨ id ∈ consumed.map (·.owner) →
    Participates store id
  pins : ∀ snapshot ∈ envelope.accountSnapshots, ∃ account,
    store.latest snapshot.account = some account ∧ snapshot.snapshotId = accountHash account
  book : AllowsAll store envelope.book
  room : store.liveMagnitude + Cent.magnitude (consumed.map Posting.value) +
    Cent.magnitude (envelope.creates.map NewPosting.value) ≤ Backing.max backing

/-- An account with the key takes part in the envelope and forbids overdraft. -/
def Guarded (store : InMemoryStore) (envelope : Envelope) (consumed : List Posting)
    (key : BalanceKey) : Prop :=
  key.1 ∈ (postingKeys envelope consumed).owners ∧
    ∃ account, store.latest key.1 = some account ∧ account.forbidsOverdraft = true

/-- Nothing in the store stands against the envelope: neither for validation, which
reads the records, nor for the store, which reads what is active. -/
structure Admissible [Sha256] (store : InMemoryStore) (envelope : Envelope)
    (consumed : List Posting) : Prop extends Presented store envelope consumed where
  pinned : envelope.accountSnapshots ≠ []
  active : ∀ id ∈ envelope.consumes, id ∈ store.postings.active
  balanced : ∀ asset, keyTotal Posting.asset Posting.value consumed asset =
    keyTotal NewPosting.asset NewPosting.value envelope.creates asset
  permits : ∀ posting ∈ envelope.creates, posting.value.val < 0 → ∃ account,
    store.latest posting.owner = some account ∧ account.forbidsOverdraft = false
  projected : ∀ key, Guarded store envelope consumed key → 0 ≤ store.liveBalance key +
    keyTotal NewPosting.key NewPosting.value envelope.creates key -
      keyTotal Posting.key Posting.value consumed key
  floor : ∀ key, Guarded store envelope consumed key → 0 ≤ store.liveBalance key +
    keyTotal NewPosting.key NewPosting.value envelope.creates key -
      keyTotal Posting.key Posting.value (store.activeOf envelope.consumes) key

/-! ## From loading to the store -/

theorem LedgerM.ReadOnly.exists_alone {α : Type} {program : LedgerM α}
    (hprogram : ReadOnly program) (before : World) :
    ∃ result clock, Alone program before result ⟨before.store, clock⟩ := by
  obtain ⟨result, after, halone⟩ := exists_runs program.run before
  refine ⟨result, after.clock, ?_⟩
  rw [← hprogram.store_eq halone]
  exact halone

section Presented

variable [Sha256] {store : InMemoryStore} {envelope : Envelope} {consumed : List Posting}
  {loaded : LoadedState}

/-- Whatever is presented is loaded. -/
theorem Presented.load_ok (hpresented : Presented store envelope consumed)
    (hwell : WellFormed store) {clock : Clock} {result : Except LedgerError LoadedState}
    {after : World} (halone : Alone (load envelope) ⟨store, clock⟩ result after) :
    ∃ loaded, result = .ok loaded ∧ LoadedFrom store envelope loaded := by
  have hfound : ∀ id ∈ envelope.consumes, id ∈ store.postings.immutable := by
    intro id hid
    obtain ⟨posting, _, hlookup⟩ := hpresented.found.exists_of_mem_left hid
    exact HashMap.mem_iff_exists_lookup.mpr ⟨posting, hlookup⟩
  obtain ⟨loaded, rfl, hloaded⟩ | ⟨err, _, hfailure⟩ := load_alone hwell hfound halone
  · exact ⟨loaded, rfl, hloaded⟩
  exfalso
  cases hfailure with
  | accountMissing hconsumed hid hmissing =>
      have hsame := (InMemoryStore.getPostings_eq_ok_iff.mp hconsumed).unique hpresented.found
      subst hsame
      rcases List.mem_append.mp (List.mem_sortDedup.mp hid) with howner | hsnapshot
      · obtain ⟨_, hlatest, _⟩ :=
          hpresented.owners _ (List.mem_append.mp (List.mem_sortDedup.mp howner))
        rw [hmissing] at hlatest
        cases hlatest
      · obtain ⟨snapshot, hmem, rfl⟩ := List.mem_map.mp hsnapshot
        obtain ⟨_, hlatest, _⟩ := hpresented.pins snapshot hmem
        rw [hmissing] at hlatest
        cases hlatest
  | bookNotFound hmissing hother =>
      obtain ⟨_, hdefault⟩ | ⟨_, hlookup, _⟩ := hpresented.book
      · exact hother hdefault
      · exact hmissing (HashMap.mem_iff_exists_lookup.mpr ⟨_, hlookup⟩)
  | overflow hlarge =>
      have hroom := hpresented.room
      have hspent := Cent.magnitude_nonneg (consumed.map Posting.value)
      have hmade := Cent.magnitude_nonneg (envelope.creates.map NewPosting.value)
      dsimp only at hlarge
      omega

theorem Presented.load (hpresented : Presented store envelope consumed) (hwell : WellFormed store)
    (clock : Clock) : ∃ loaded later,
      Alone (load envelope) ⟨store, clock⟩ (.ok loaded) ⟨store, later⟩ ∧
        LoadedFrom store envelope loaded := by
  obtain ⟨result, later, halone⟩ := (load_readOnly envelope).exists_alone ⟨store, clock⟩
  obtain ⟨loaded, rfl, hloaded⟩ := hpresented.load_ok hwell halone
  exact ⟨loaded, later, halone, hloaded⟩

theorem Presented.consumed_eq (hpresented : Presented store envelope consumed)
    (hloaded : LoadedFrom store envelope loaded) : loaded.consumedPostings = consumed :=
  hloaded.consumed.unique hpresented.found

theorem Presented.keyed (hpresented : Presented store envelope consumed)
    (hwell : WellFormed store) : envelope.consumes = consumed.map (·.id) := by
  refine List.forall₂_eq_eq_eq ▸ List.forall₂_map_right_iff.mpr (hpresented.found.imp ?_)
  exact fun id posting hlookup => (hwell.immutable id posting hlookup).symm

theorem Presented.owners_of_mem (hpresented : Presented store envelope consumed) {id : AccountId}
    (hid : id ∈ (postingKeys envelope consumed).owners) : Participates store id :=
  hpresented.owners id (List.mem_append.mp (List.mem_sortDedup.mp hid))

/-- There is room for everything that the envelope consumes and creates. -/
theorem Presented.room_both (hpresented : Presented store envelope consumed) :
    Cent.magnitude (consumed.map Posting.value) +
      Cent.magnitude (envelope.creates.map NewPosting.value) ≤ Backing.max backing := by
  have hroom := hpresented.room
  have hlive : 0 ≤ store.liveMagnitude := Cent.magnitude_nonneg _
  omega

/-- The changes of balances are computed without overflow. -/
theorem Presented.exists_balanceDeltas (hpresented : Presented store envelope consumed) :
    ∃ deltas, balanceDeltas envelope consumed = .ok deltas ∧ ∀ entry ∈ deltas.entries,
      entry.1.1 ∈ (postingKeys envelope consumed).owners ∧
        entry.1 ∈ (postingKeys envelope consumed).balances := by
  have hroom := hpresented.room_both
  have hspent : ∃ spent, Totals.subAll ∅ Posting.key Posting.value consumed = .ok spent := by
    refine Totals.exists_subAll fun key => ?_
    have hmade := Cent.magnitude_nonneg (envelope.creates.map NewPosting.value)
    rw [Totals.get_empty, Cent.val_ZERO, abs_zero]
    omega
  obtain ⟨spent, hspent⟩ := hspent
  have hdeltas : ∃ deltas,
      spent.addAll NewPosting.key NewPosting.value envelope.creates = .ok deltas := by
    refine Totals.exists_addAll fun key => ?_
    have hkey : |keyTotal Posting.key Posting.value consumed key| ≤ _ := abs_keyTotal_le
    rw [Totals.val_get_of_subAll hspent, Totals.get_empty, Cent.val_ZERO, zero_sub, abs_neg]
    omega
  obtain ⟨deltas, hdeltas⟩ := hdeltas
  refine ⟨deltas, Except.bind_eq_ok_iff.mpr ⟨spent, hspent, hdeltas⟩, fun entry hentry => ?_⟩
  have hkey : entry.1 ∈ deltas := AList.mem_keys.mpr (List.mem_map.mpr ⟨entry, hentry, rfl⟩)
  rw [Totals.mem_of_addAll hdeltas, Totals.mem_of_subAll hspent] at hkey
  have htouched : entry.1 ∈ envelope.creates.map (·.key) ++ consumed.map (·.key) := by
    apply List.mem_append.mpr
    obtain (hnone | ⟨posting, hposting, heq⟩) | ⟨posting, hposting, heq⟩ := hkey
    · cases hnone
    · exact .inr (List.mem_map.mpr ⟨posting, hposting, heq⟩)
    · exact .inl (List.mem_map.mpr ⟨posting, hposting, heq⟩)
  refine ⟨List.mem_sortDedup.mpr ?_, List.mem_sortDedup.mpr htouched⟩
  have howner := List.mem_map_of_mem (f := Prod.fst) htouched
  rwa [List.map_append, List.map_map, List.map_map] at howner

/-- The versions of the owners that were loaded. -/
theorem Presented.lookup_owner (hpresented : Presented store envelope consumed)
    (hloaded : LoadedFrom store envelope loaded) {id : AccountId}
    (hid : id ∈ (postingKeys envelope consumed).owners) {account : Account}
    (hlatest : store.latest id = some account) : loaded.accounts.lookup id = some account := by
  refine hloaded.lookup_of_latest hlatest ?_
  rw [hpresented.consumed_eq hloaded]
  exact List.mem_sortDedup.mpr (List.mem_append_left _ hid)

omit [Sha256] in
/-- A book that allows everything passes its check. -/
theorem checkBook_of_allowsAll {order : IterationOrder} {input : PlanInput} {id : BookId}
    (hallows : AllowsAll store id) (hbook : input.book = store.books.lookup id) :
    checkBook order input consumed = .ok () := by
  obtain ⟨hmissing, _⟩ | ⟨book, hlookup, hassets, haccounts, hflags⟩ := hallows
  · rw [checkBook, hbook, AList.lookup_eq_none.mpr hmissing]
  · have hfirst : checkBookAssets order input.envelope consumed book = .ok () := if_pos hassets
    have hsecond : checkBookAccounts input book = .ok () := if_pos ⟨haccounts, hflags⟩
    rw [checkBook, hbook, hlookup]
    exact Except.bind_eq_ok_iff.mpr ⟨(), hfirst, hsecond⟩

/-- Validation comes to the amounts, and then depends on them only. -/
theorem Presented.plan_eq (hpresented : Presented store envelope consumed)
    (hwell : WellFormed store) (hloaded : LoadedFrom store envelope loaded)
    (order : IterationOrder) : plan order envelope loaded = (do
      checkConservation order envelope consumed
      checkNegativePostings (loaded.input envelope)
      checkOverdraft order (loaded.input envelope) consumed
      return planOf envelope : Except ValidationError Plan).mapError .validation := by
  have hsame := hpresented.consumed_eq hloaded
  have hreaches : (loaded.input envelope).ReachesBook := by
    refine ⟨.inr hpresented.creates, hpresented.nodup,
      ⟨_, hloaded.finds hwell hpresented.nodup⟩, fun id hid => ?_, fun snapshot hsnapshot => ?_⟩
    · rw [PlanInput.owners, LoadedState.input, hsame] at hid
      obtain ⟨account, hlatest, hfrozen, hclosed⟩ := hpresented.owners_of_mem hid
      exact ⟨account, hpresented.lookup_owner hloaded hid hlatest, hfrozen, hclosed⟩
    · obtain ⟨account, hlatest, hhash⟩ := hpresented.pins snapshot hsnapshot
      refine ⟨account, hloaded.lookup_of_latest hlatest (List.mem_sortDedup.mpr ?_), hhash⟩
      exact List.mem_append_right _ (List.mem_map.mpr ⟨snapshot, hsnapshot, rfl⟩)
  have hbook : checkBook order (loaded.input envelope) consumed = .ok () :=
    checkBook_of_allowsAll hpresented.book hloaded.book
  rw [hloaded.plan_eq_validate]
  exact congrArg _ (hreaches.validateAndPlan_eq_amounts
    (hsame ▸ hloaded.finds hwell hpresented.nodup) hbook)

end Presented

section Admissible

variable [Sha256] {store : InMemoryStore} {envelope : Envelope} {consumed : List Posting}
  {loaded : LoadedState}

/-- What is loaded of a balance that validation projects. -/
theorem Presented.lookup_balance (hpresented : Presented store envelope consumed)
    (hloaded : LoadedFrom store envelope loaded) {key : BalanceKey}
    (hkey : key ∈ (postingKeys envelope consumed).balances) :
    ((loaded.balances.lookup key).getD .ZERO).val = store.liveBalance key := by
  rw [← hpresented.consumed_eq hloaded] at hkey
  obtain ⟨value, hvalue⟩ := HashMap.mem_iff_exists_lookup.mp (hloaded.covered key hkey)
  rw [hvalue]
  exact hloaded.balances key value hvalue

theorem Admissible.checkOverdraft (hadmissible : Admissible store envelope consumed)
    (hloaded : LoadedFrom store envelope loaded) (order : IterationOrder) :
    checkOverdraft order (loaded.input envelope) consumed = .ok () := by
  have hpresented := hadmissible.toPresented
  obtain ⟨deltas, hdeltas, hentries⟩ := hpresented.exists_balanceDeltas
  refine Except.bind_eq_ok_iff.mpr ⟨deltas, Except.mapError_eq_ok_iff.mpr hdeltas, ?_⟩
  rw [List.forM_eq_ok_iff]
  rintro ⟨key, delta⟩ hentry
  rw [IterationOrder.mem_arrange] at hentry
  obtain ⟨howner, hkey⟩ : key.1 ∈ (postingKeys envelope consumed).owners ∧
      key ∈ (postingKeys envelope consumed).balances := hentries _ hentry
  obtain ⟨account, hlatest, _⟩ := hpresented.owners_of_mem howner
  have hlookup := hpresented.lookup_owner hloaded howner hlatest
  refine Except.bind_eq_ok_iff.mpr ⟨account, PlanInput.account_eq_ok_iff.mpr hlookup, ?_⟩
  cases hforbids : account.forbidsOverdraft with
  | false => rfl
  | true =>
      have hcurrent := hpresented.lookup_balance hloaded hkey
      have hdelta := val_of_balanceDeltas hdeltas hentry
      have hprojected := hadmissible.projected key ⟨howner, account, hlatest, hforbids⟩
      have hroom := hpresented.room
      have hlive : |store.liveBalance key| ≤ store.liveMagnitude := abs_keyTotal_le
      have hspent : |keyTotal Posting.key Posting.value consumed key| ≤ _ := abs_keyTotal_le
      have hmade : |keyTotal NewPosting.key NewPosting.value envelope.creates key| ≤ _ :=
        abs_keyTotal_le
      rw [abs_le] at hlive hspent hmade
      obtain ⟨sum, hsum, hvalue⟩ := Cent.exists_checked_of_abs_le
        (v := ((loaded.balances.lookup key).getD .ZERO).val + delta.val)
        (by rw [abs_le]; omega)
      refine Except.bind_eq_ok_iff.mpr ⟨sum, Except.mapError_eq_ok_iff.mpr hsum, ?_⟩
      have hnonneg : sum.isNegative = false := by
        rw [Bool.eq_false_iff, ne_eq, Cent.isNegative_iff]
        omega
      rw [hnonneg]
      rfl

/-- Validation accepts what was loaded. -/
theorem Admissible.plan_eq (hadmissible : Admissible store envelope consumed)
    (hwell : WellFormed store) (hloaded : LoadedFrom store envelope loaded)
    (order : IterationOrder) : plan order envelope loaded = .ok (planOf envelope) := by
  have hpresented := hadmissible.toPresented
  have hroom := hpresented.room_both
  have hspent := Cent.magnitude_nonneg (consumed.map Posting.value)
  have hmade := Cent.magnitude_nonneg (envelope.creates.map NewPosting.value)
  have hconservation : checkConservation order envelope consumed = .ok () := by
    refine checkConservation_eq_ok_iff.mpr ⟨?_, ?_, hadmissible.balanced⟩
    all_goals
      refine Totals.exists_addAll fun key => ?_
      rw [Totals.get_empty, Cent.val_ZERO, abs_zero]
      omega
  have hnegatives : checkNegativePostings (loaded.input envelope) = .ok () := by
    refine checkNegativePostings_eq_ok_iff.mpr fun posting hposting hnegative => ?_
    obtain ⟨account, hlatest, hpermits⟩ := hadmissible.permits posting hposting hnegative
    have howner : posting.owner ∈ (postingKeys envelope consumed).owners := by
      refine List.mem_sortDedup.mpr (List.mem_append_left _ ?_)
      exact List.mem_map.mpr ⟨posting, hposting, rfl⟩
    exact ⟨account, hpresented.lookup_owner hloaded howner hlatest, hpermits⟩
  rw [hpresented.plan_eq hwell hloaded, hconservation, hnegatives,
    hadmissible.checkOverdraft hloaded order]
  rfl

/-- What the store projects for one balance of an envelope. -/
theorem Admissible.exists_projectedBalance (hadmissible : Admissible store envelope consumed)
    (hconsistent : Consistent store) (order : IterationOrder) {req : CommitRequest}
    (hconsume : req.consume = envelope.consumes)
    (hcreate : req.create = createdPostings req.transferId envelope.creates) (key : BalanceKey) :
    ∃ value, store.projectedBalance order req key = .ok value ∧ value.val = store.liveBalance key +
      keyTotal NewPosting.key NewPosting.value envelope.creates key -
        keyTotal Posting.key Posting.value (store.activeOf envelope.consumes) key := by
  have hroom := hadmissible.room
  have hspent := Cent.magnitude_nonneg (consumed.map Posting.value)
  rw [InMemoryStore.liveMagnitude, InMemoryStore.livePostings_of_reserved hconsistent.reserved]
    at hroom
  have hvalues : req.create.map Posting.value = envelope.creates.map NewPosting.value := by
    rw [hcreate]
    exact map_createdPostings _ _ fun _ _ value => value
  have hactive := Cent.magnitude_nonneg (store.postings.active.values.map Posting.value)
  have hmade := Cent.magnitude_nonneg (envelope.creates.map NewPosting.value)
  rw [← hconsume]
  refine Kuatia.exists_projectedBalance hconsistent order hcreate (hconsume ▸ hadmissible.nodup)
    (hconsume ▸ hadmissible.active) (le_trans (Cent.magnitude_le_of_sublist
      ((List.filter_sublist.trans List.filter_sublist).map Posting.value)) (by omega))
    (le_trans (hvalues ▸ Cent.magnitude_le_of_sublist (List.filter_sublist.map Posting.value))
      (by omega)) (Cent.holds_of_abs_le ?_)
  -- what is left of the balance and what is added fit together
  have hleft : |keyTotal Posting.key Posting.value
      (store.postings.active.values.filter (·.id ∉ req.consume)) key| ≤
        Cent.magnitude (store.postings.active.values.map Posting.value) :=
    abs_keyTotal_le.trans (Cent.magnitude_le_of_sublist (List.filter_sublist.map _))
  rw [keyTotal_unspent hconsistent (hconsume ▸ hadmissible.nodup)
    (hconsume ▸ hadmissible.active)] at hleft
  have hadded : |keyTotal NewPosting.key NewPosting.value envelope.creates key| ≤ _ :=
    abs_keyTotal_le
  rw [abs_le] at hleft hadded ⊢
  omega

/-- The store has nothing against the commit either. -/
theorem Admissible.guards (hadmissible : Admissible store envelope consumed)
    (hconsistent : Consistent store) (hloaded : LoadedFrom store envelope loaded)
    (order : IterationOrder) (ts : Int64) :
    store.commitGuards order (commitRequest envelope (planOf envelope) loaded ts) = .ok () := by
  have hinvolved : ∀ id ∈ involvedAccounts (planOf envelope) loaded,
      id ∈ (postingKeys envelope consumed).owners := by
    intro id hid
    have howners : (planOf envelope).postingsToCreate.map (·.owner) =
        envelope.creates.map (·.owner) := map_createdPostings _ _ fun owner _ _ => owner
    rwa [involvedAccounts, howners, hadmissible.toPresented.consumed_eq hloaded] at hid
  refine InMemoryStore.commitGuards_eq_ok_iff.mpr ⟨?_, ?_, ?_⟩
  · refine InMemoryStore.freezeGuard_eq_ok_iff.mpr fun id hid => ?_
    exact hadmissible.toPresented.owners_of_mem (hinvolved id hid)
  · exact InMemoryStore.doubleSpendGuard_eq_ok_iff.mpr hadmissible.active
  · refine List.forM_eq_ok_iff.mpr fun id hid => ?_
    obtain ⟨account, hlatest, _⟩ := hadmissible.toPresented.owners_of_mem (hinvolved id hid)
    refine Except.bind_eq_ok_iff.mpr
      ⟨account, InMemoryStore.accountOf_eq_ok_iff.mpr hlatest, ?_⟩
    cases hforbids : account.forbidsOverdraft with
    | false => rfl
    | true =>
        refine List.forM_eq_ok_iff.mpr fun asset _ => ?_
        obtain ⟨value, hprojected, hvalue⟩ := hadmissible.exists_projectedBalance hconsistent
          order
          (show (commitRequest envelope (planOf envelope) loaded ts).consume = _ from rfl) rfl (id, asset)
        have hfloor := hadmissible.floor (id, asset) ⟨hinvolved id hid, account, hlatest, hforbids⟩
        refine Except.bind_eq_ok_iff.mpr ⟨value, Except.mapError_eq_ok_iff.mpr hprojected, ?_⟩
        have hnonneg : value.isNegative = false := by
          rw [Bool.eq_false_iff, ne_eq, Cent.isNegative_iff]
          omega
        rw [hnonneg]
        rfl

/-- An admissible envelope that is not stored yet is committed while the clock stands still. -/
theorem Admissible.runWith_commit (hadmissible : Admissible store envelope consumed)
    (hwell : WellFormed store) (hconsistent : Consistent store)
    (hunstored : envelopeId envelope ∉ store.transfers) (order : IterationOrder) (ts : Int64)
    (clock : Clock) : ∃ loaded, LoadedFrom store envelope loaded ∧
      runWith ⟨order, some ts⟩ (commitEnvelope envelope).run ⟨store, clock⟩ =
        (.ok ⟨envelopeId envelope⟩,
          ⟨store.applyCommit (some ts) (commitRequest envelope (planOf envelope) loaded ts),
            some ts⟩) := by
  have halone := runs_runWith ⟨order, some ts⟩ (load envelope).run ⟨store, some ts⟩
  obtain ⟨loaded, hresult, hloaded⟩ := hadmissible.toPresented.load_ok hwell halone
  have hsame := (load_readOnly envelope).store_eq halone
  refine ⟨loaded, hloaded, ?_⟩
  let req := commitRequest envelope (planOf envelope) loaded ts
  let later := (runWith ⟨order, some ts⟩ (load envelope).run ⟨store, some ts⟩).2
  have hpins : runWith ⟨order, some ts⟩ (pinSnapshots envelope).run ⟨store, clock⟩ =
      (.ok envelope, ⟨store, clock⟩) := by
    rw [pinSnapshots, if_neg hadmissible.pinned]
    rfl
  have hread : runWith ⟨order, some ts⟩ (read fun _ store =>
      store.getTransfer (envelopeId envelope)).run ⟨store, clock⟩ =
        (.ok none, ⟨store, some ts⟩) := by
    rw [← AList.lookup_eq_none.mpr hunstored]
    rfl
  have hload : runWith ⟨order, some ts⟩ (load envelope).run ⟨store, some ts⟩ =
      (.ok loaded, later) := Prod.ext hresult rfl
  have hplan : runWith ⟨order, some ts⟩ (compute fun order => plan order envelope loaded).run
      later = (.ok (planOf envelope), ⟨store, some ts⟩) := by
    rw [← hadmissible.plan_eq hwell hloaded order]
    exact congrArg (fun store => (_, (⟨store, some ts⟩ : World))) hsame
  have hnow : runWith ⟨order, some ts⟩ nowMillis.run ⟨store, some ts⟩ =
      (.ok ts, ⟨store, some ts⟩) := rfl
  have hcommitted : store.commitEnvelope order (some ts) req =
      (.ok (.committed ⟨envelopeId envelope⟩), store.applyCommit (some ts) req) := by
    rw [InMemoryStore.commitEnvelope_of_fresh hunstored, hadmissible.guards hconsistent hloaded]
    rfl
  have hact : runWith ⟨order, some ts⟩ (act fun choice store =>
      store.commitEnvelope choice.order choice.clock req).run ⟨store, some ts⟩ =
        (.ok (.ok (.committed ⟨envelopeId envelope⟩)),
          ⟨store.applyCommit (some ts) req, some ts⟩) :=
    congrArg (fun result => (Except.ok result.1, (⟨result.2, some ts⟩ : World))) hcommitted
  rw [commitEnvelope, runWith_except_bind hpins, commitUnlessStored, runWith_except_bind hread]
  dsimp only
  rw [commitPinned, runWith_except_bind hload, runWith_except_bind hplan, runWith_except_bind hnow,
    runWith_except_bind hact]
  rfl

/-- It is committed at any time. -/
theorem Admissible.commits (hadmissible : Admissible store envelope consumed)
    (hwell : WellFormed store) (hconsistent : Consistent store)
    (hunstored : envelopeId envelope ∉ store.transfers) (clock : Clock) (ts : Int64) :
    ∃ loaded, LoadedFrom store envelope loaded ∧
      Alone (commitEnvelope envelope) ⟨store, clock⟩ (.ok ⟨envelopeId envelope⟩)
        ⟨store.applyCommit (some ts) (commitRequest envelope (planOf envelope) loaded ts),
          some ts⟩ := by
  obtain ⟨loaded, hloaded, hrun⟩ :=
    hadmissible.runWith_commit hwell hconsistent hunstored .listed ts clock
  have halone := runs_runWith ⟨.listed, some ts⟩ (commitEnvelope envelope).run ⟨store, clock⟩
  rw [hrun] at halone
  exact ⟨loaded, hloaded, halone⟩

end Admissible

/-! ## Accounts that may be overdrawn -/

/-- The account takes part in transfers and may be overdrawn. -/
def Unrestricted (store : InMemoryStore) (id : AccountId) : Prop :=
  ∃ account, store.latest id = some account ∧ account.isFrozen = false ∧
    account.isClosed = false ∧ account.forbidsOverdraft = false

/-- What the envelope names is in the store, unrestricted and in its current
version, and there is room for all amounts. It consumes `consumed`. -/
structure Presentable [Sha256] (store : InMemoryStore) (envelope : Envelope)
    (consumed : List Posting) : Prop where
  creates : envelope.creates ≠ []
  nodup : envelope.consumes.Nodup
  found : List.Forall₂ (fun id posting => store.postings.immutable.lookup id = some posting)
    envelope.consumes consumed
  owners : ∀ id, id ∈ envelope.creates.map (·.owner) ∨ id ∈ consumed.map (·.owner) →
    Unrestricted store id
  pins : ∀ snapshot ∈ envelope.accountSnapshots, ∃ account,
    store.latest snapshot.account = some account ∧ snapshot.snapshotId = accountHash account
  book : envelope.book = DEFAULT_BOOK
  unrestricted : DEFAULT_BOOK ∉ store.books
  room : store.liveMagnitude + Cent.magnitude (consumed.map Posting.value) +
    Cent.magnitude (envelope.creates.map NewPosting.value) ≤ Backing.max backing

/-- Nothing in the store stands against the envelope. -/
structure Acceptable [Sha256] (store : InMemoryStore) (envelope : Envelope)
    (consumed : List Posting) : Prop extends Presentable store envelope consumed where
  pinned : envelope.accountSnapshots ≠ []
  active : ∀ id ∈ envelope.consumes, id ∈ store.postings.active
  balanced : ∀ asset, keyTotal Posting.asset Posting.value consumed asset =
    keyTotal NewPosting.asset NewPosting.value envelope.creates asset

section Unrestricted

variable [Sha256] {store : InMemoryStore} {envelope : Envelope} {consumed : List Posting}

theorem Presentable.presented (hpresentable : Presentable store envelope consumed) :
    Presented store envelope consumed where
  creates := hpresentable.creates
  nodup := hpresentable.nodup
  found := hpresentable.found
  owners id hid := by
    obtain ⟨account, hlatest, hfrozen, hclosed, _⟩ := hpresentable.owners id hid
    exact ⟨account, hlatest, hfrozen, hclosed⟩
  pins := hpresentable.pins
  book := .inl ⟨hpresentable.book ▸ hpresentable.unrestricted, hpresentable.book⟩
  room := hpresentable.room

theorem Presentable.not_guarded (hpresentable : Presentable store envelope consumed)
    (key : BalanceKey) : ¬Guarded store envelope consumed key := by
  rintro ⟨howner, account, hlatest, hforbids⟩
  obtain ⟨other, hother, _, _, hpermits⟩ :=
    hpresentable.owners key.1 (List.mem_append.mp (List.mem_sortDedup.mp howner))
  rw [hlatest] at hother
  cases hother
  rw [hforbids] at hpermits
  cases hpermits

theorem Acceptable.admissible (hacceptable : Acceptable store envelope consumed) :
    Admissible store envelope consumed where
  toPresented := hacceptable.presented
  pinned := hacceptable.pinned
  active := hacceptable.active
  balanced := hacceptable.balanced
  permits posting hposting _ := by
    obtain ⟨account, hlatest, _, _, hpermits⟩ :=
      hacceptable.owners posting.owner (.inl (List.mem_map_of_mem hposting))
    exact ⟨account, hlatest, hpermits⟩
  projected key hkey := absurd hkey (hacceptable.toPresentable.not_guarded key)
  floor key hkey := absurd hkey (hacceptable.toPresentable.not_guarded key)

end Unrestricted

end Kuatia
