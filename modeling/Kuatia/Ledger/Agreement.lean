import Kuatia.Core.Specification
import Kuatia.Ledger.CommitEffect
import Kuatia.Ledger.Loading
import Kuatia.Ledger.Overdraft

/-! # Resolution and validation agree

Both run against one state. What resolution selects is active, positive and
selected once, so validation finds it and finds it once. Resolution reads the
active postings and validation reads the records, so the two agree as far as the
records of what was selected have the sums that its active postings have.
-/

namespace Kuatia

open LedgerM

section Theory

variable [MoneyWidth] {before after : World}

variable [Sha256]

/-- Why validation may reject what resolution has made of a transfer. -/
inductive ValidationFailure (store : InMemoryStore) (transfer : Transfer) (envelope : Envelope) :
    LedgerError → Prop where
  | loading {err : LedgerError} (hfailure : LoadFailure store envelope err) :
      ValidationFailure store transfer envelope err
  | accountNotFound (id : AccountId) :
      ValidationFailure store transfer envelope (.validation (.accountNotFound id))
  | accountFrozen (id : AccountId) :
      ValidationFailure store transfer envelope (.validation (.accountFrozen id))
  | accountClosed (id : AccountId) :
      ValidationFailure store transfer envelope (.validation (.accountClosed id))
  | bookAssetNotAllowed (book : BookId) (asset : AssetId) :
      ValidationFailure store transfer envelope (.validation (.bookAssetNotAllowed book asset))
  | bookAccountNotAllowed (book : BookId) (id : AccountId) :
      ValidationFailure store transfer envelope (.validation (.bookAccountNotAllowed book id))
  | overflow : ValidationFailure store transfer envelope (.validation .overflow)
  | negativePosting (hamount : ∃ movement ∈ transfer.movements, movement.amount.val < 0)
      (id : AccountId) (asset : AssetId) (value : Cent) : ValidationFailure store transfer envelope
        (.validation (.negativePostingOnNonSystemAccount id asset value))
  | overdraftExceeded (hamount : ∃ movement ∈ transfer.movements, movement.amount.val < 0)
      (id : AccountId) (asset : AssetId) (projected : Cent) : ValidationFailure store transfer envelope
        (.validation (.overdraftExceeded id asset projected))

/-- The records of what is consumed leave no account that forbids overdraft below zero. -/
def RecordsCover (store : InMemoryStore) (envelope : Envelope) : Prop :=
  ∀ key account, store.latest key.1 = some account → account.forbidsOverdraft = true →
    0 ≤ store.liveBalance key + keyTotal NewPosting.key NewPosting.value envelope.creates key -
      keyTotal Posting.key Posting.value
        (envelope.consumes.filterMap store.postings.immutable.lookup) key

/-- Validation comes to compare the amounts: it has nothing against the accounts and
the book, and the sums of the assets stay in range. -/
structure ComparesAmounts (order : IterationOrder) (envelope : Envelope) (loaded : LoadedState) :
    Prop where
  accounts : checkAccounts (loaded.input envelope) = .ok ()
  book : checkBook order (loaded.input envelope) loaded.consumedPostings = .ok ()
  sums : checkConservation order envelope loaded.consumedPostings ≠ .error .overflow

/-- The records say what resolution has read: they come to what is created, and, unless
an amount is negative, they cover it or a projected balance is out of range. -/
def RecordsAgree (store : InMemoryStore) (transfer : Transfer) (order : IterationOrder)
    (envelope : Envelope) (loaded : LoadedState) : Prop :=
  RecordsBalance store envelope ∧
    ((∀ movement ∈ transfer.movements, 0 ≤ movement.amount.val) → RecordsCover store envelope ∨
      checkOverdraft order (loaded.input envelope) loaded.consumedPostings = .error .overflow)

omit [Sha256] in
theorem failure_of_parties {store : InMemoryStore} {transfer : Transfer} {envelope : Envelope}
    {err : ValidationError} (hparties : err.OfParties) :
    ValidationFailure store transfer envelope (.validation err) := by
  cases err with
  | accountNotFound id => exact .accountNotFound id
  | accountFrozen id => exact .accountFrozen id
  | accountClosed id => exact .accountClosed id
  | bookAssetNotAllowed book asset => exact .bookAssetNotAllowed book asset
  | bookAccountNotAllowed book id => exact .bookAccountNotAllowed book id
  | _ => cases hparties

/-! ## What resolution selects -/

section Selected

variable {store : InMemoryStore} {transfer : Transfer} {envelope : Envelope} {spent : List Posting}
  {extra : List NewPosting} {loaded : LoadedState}

theorem Resolved.mem_immutable (hresolved : Resolved store transfer envelope spent extra)
    (hconsistent : Consistent store) : ∀ id ∈ envelope.consumes, id ∈ store.postings.immutable := by
  intro id hid
  have hactive := hresolved.consumes_active hconsistent id hid
  exact (hconsistent.mem_immutable id).mpr ((hconsistent.mem_active id).mp hactive).1

/-- What is created under a key whose owner forbids overdraft is not negative,
unless a movement has a negative amount. -/
theorem Resolved.creates_nonneg (hresolved : Resolved store transfer envelope spent extra)
    (hamounts : ∀ movement ∈ transfer.movements, 0 ≤ movement.amount.val) {posting : NewPosting}
    (hposting : posting ∈ envelope.creates) {account : Account}
    (hlatest : store.latest posting.owner = some account)
    (hforbids : account.forbidsOverdraft = true) : 0 ≤ posting.value.val := by
  rw [hresolved.creates] at hposting
  rcases List.mem_append.mp hposting with hcredit | hextra
  · obtain ⟨movement, hmovement, rfl⟩ := List.mem_map.mp hcredit
    exact hamounts movement hmovement
  · by_contra hnegative
    obtain ⟨other, hother, hpermits⟩ := hresolved.permits posting hextra (by omega)
    rw [hlatest] at hother
    cases hother
    rw [hforbids] at hpermits
    cases hpermits

/-- No more is spent of an account that forbids overdraft than it has. -/
theorem Resolved.spent_le (hresolved : Resolved store transfer envelope spent extra)
    (hconsistent : Consistent store) (hsafe : OverdraftSafe store) {key : BalanceKey}
    {account : Account} (hlatest : store.latest key.1 = some account)
    (hforbids : account.forbidsOverdraft = true) :
    keyTotal Posting.key Posting.value spent key ≤ store.liveBalance key := by
  obtain ⟨left, hperm⟩ := hresolved.selected key
  have hsum := (hperm.map fun posting => posting.value.val).sum_eq
  rw [List.map_append, List.sum_append] at hsum
  have hleft : 0 ≤ (left.map fun posting => posting.value.val).sum := by
    refine List.sum_nonneg fun value hvalue => ?_
    obtain ⟨posting, hposting, rfl⟩ := List.mem_map.mp hvalue
    have hpositive := hperm.mem_iff.mp (List.mem_append_right _ hposting)
    exact (Cent.isPositive_iff.mp (List.mem_filter.mp hpositive).2).le
  have hpositives : ((positives (store.postings.active.values.filter (·.key = key))).map
      fun posting => posting.value.val).sum ≤ store.liveBalance key := by
    rw [InMemoryStore.liveBalance, InMemoryStore.livePostings_of_reserved hconsistent.reserved,
      keyTotal]
    refine List.Sublist.sum_le_sum (List.filter_sublist.map _) fun value hvalue => ?_
    obtain ⟨posting, hposting, rfl⟩ := List.mem_map.mp hvalue
    obtain ⟨hmem, hkey⟩ := List.mem_filter.mp hposting
    obtain ⟨id, hlookup⟩ := HashMap.mem_values_iff.mp hmem
    have howner : posting.owner = key.1 := congrArg Prod.fst (of_decide_eq_true hkey)
    exact hsafe.nonneg (howner ▸ hlatest) hforbids hlookup
  rw [keyTotal]
  omega

/-- No account that forbids overdraft is left below zero by what was recorded as it is
active, unless a movement has a negative amount. -/
theorem Resolved.recordsCover (hresolved : Resolved store transfer envelope spent extra)
    (hconsistent : Consistent store) (hsafe : OverdraftSafe store)
    (htaken : TakenAsRecorded store envelope)
    (hamounts : ∀ movement ∈ transfer.movements, 0 ≤ movement.amount.val) :
    RecordsCover store envelope := by
  intro key account hlatest hforbids
  have hspent := hresolved.spent_le hconsistent hsafe hlatest hforbids
  have hcreated : 0 ≤ keyTotal NewPosting.key NewPosting.value envelope.creates key := by
    refine keyTotal_nonneg fun posting hposting hkey => ?_
    subst hkey
    exact hresolved.creates_nonneg hamounts hposting hlatest hforbids
  rw [HashMap.filterMap_lookup_eq (hresolved.forall₂_of_taken hconsistent htaken)]
  omega

/-! ## What validation finds -/

theorem Resolved.creates_ne_nil (hresolved : Resolved store transfer envelope spent extra)
    (hmovements : transfer.movements ≠ []) : envelope.creates ≠ [] := by
  rw [hresolved.creates, ne_eq, List.append_eq_nil_iff, List.map_eq_nil_iff]
  exact fun hnone => hmovements hnone.1

omit [Sha256] in
/-- A balance that the envelope touches was loaded. -/
theorem LoadedFrom.balance_eq (hloaded : LoadedFrom store envelope loaded) {key : BalanceKey}
    (htouched : key ∈ loaded.consumedPostings.map Posting.key ∨
      key ∈ envelope.creates.map NewPosting.key) :
    ((loaded.balances.lookup key).getD .ZERO).val = store.liveBalance key := by
  have hrequired : key ∈ (requiredState envelope loaded.consumedPostings).balances :=
    List.mem_sortDedup.mpr (List.mem_append.mpr htouched.symm)
  obtain ⟨value, hvalue⟩ := HashMap.mem_iff_exists_lookup.mp (hloaded.covered key hrequired)
  rw [hvalue]
  exact hloaded.balances key value hvalue

/-- What was resolved passes the checks before the book's as soon as its accounts do. -/
theorem Resolved.reachesBook (hresolved : Resolved store transfer envelope spent extra)
    (hwell : WellFormed store) (hconsistent : Consistent store)
    (hloaded : LoadedFrom store envelope loaded) (hmovements : transfer.movements ≠ [])
    (haccounts : checkAccounts (loaded.input envelope) = .ok ()) :
    (loaded.input envelope).ReachesBook := by
  have hnodup := hresolved.nodup_consumes hconsistent
  refine ⟨.inr (hresolved.creates_ne_nil hmovements), hnodup, ⟨_, hloaded.finds hwell hnodup⟩,
    checkAccounts_eq_ok_iff.mp haccounts, fun snapshot hsnapshot => ?_⟩
  -- the versions that were pinned are the latest ones still
  obtain ⟨accounts, hread, hpinned⟩ := hresolved.pinned
  have hpins : snapshot ∈ envelope.accountSnapshots := hsnapshot
  rw [hpinned] at hpins
  obtain ⟨account, hmem, rfl⟩ := List.mem_map.mp hpins
  obtain ⟨id, _, hlatest⟩ :=
    (InMemoryStore.getAccounts_eq_ok_iff.mp hread).exists_of_mem_right hmem
  have hid := hwell.versions id account (InMemoryStore.mem_versions_of_latest hlatest)
  refine ⟨account, hloaded.lookup_of_latest ?_ (List.mem_sortDedup.mpr ?_), rfl⟩
  · rwa [accountSnapshotId, hid]
  · exact List.mem_append_right _ (List.mem_map.mpr ⟨_, hsnapshot, rfl⟩)

/-- Once the accounts and the book are in order, validation decides by the amounts. -/
theorem Resolved.plan_eq_amounts (hresolved : Resolved store transfer envelope spent extra)
    (hwell : WellFormed store) (hconsistent : Consistent store)
    (hloaded : LoadedFrom store envelope loaded) (hmovements : transfer.movements ≠ [])
    {order : IterationOrder} (haccounts : checkAccounts (loaded.input envelope) = .ok ())
    (hbook : checkBook order (loaded.input envelope) loaded.consumedPostings = .ok ()) :
    plan order envelope loaded = (do
      checkConservation order envelope loaded.consumedPostings
      checkNegativePostings (loaded.input envelope)
      checkOverdraft order (loaded.input envelope) loaded.consumedPostings
      return planOf envelope : Except ValidationError Plan).mapError .validation := by
  rw [hloaded.plan_eq_validate]
  have hreaches := hresolved.reachesBook hwell hconsistent hloaded hmovements haccounts
  exact congrArg _ (hreaches.validateAndPlan_eq_amounts
    (hloaded.finds hwell (hresolved.nodup_consumes hconsistent)) hbook)

/-- Validation turns down an account or the book, or both are in order. -/
theorem Resolved.plan_cases (hresolved : Resolved store transfer envelope spent extra)
    (hwell : WellFormed store) (hconsistent : Consistent store)
    (hloaded : LoadedFrom store envelope loaded) (hmovements : transfer.movements ≠ [])
    (order : IterationOrder) :
    (∃ err : ValidationError, err.OfParties ∧
      plan order envelope loaded = .error (.validation err)) ∨
    checkAccounts (loaded.input envelope) = .ok () ∧
      checkBook order (loaded.input envelope) loaded.consumedPostings = .ok () := by
  have hnodup := hresolved.nodup_consumes hconsistent
  have hfound := hloaded.finds hwell hnodup
  rw [hloaded.plan_eq_validate]
  cases haccounts : checkAccounts (loaded.input envelope) with
  | error err =>
      refine .inl ⟨err, (reason_of_checkAccounts haccounts).2,
        Except.mapError_eq_error_iff.mpr ⟨err, ?_, rfl⟩⟩
      have hnonEmpty : checkNonEmpty (loaded.input envelope).envelope = .ok () :=
        checkNonEmpty_eq_ok_iff.mpr (.inr (hresolved.creates_ne_nil hmovements))
      have hduplicates : checkNoDuplicates [] (loaded.input envelope).envelope.consumes = .ok () :=
        checkNoDuplicates_eq_ok_iff.mpr ⟨hnodup, by simp⟩
      rw [validateAndPlan, hnonEmpty, hduplicates, findConsumed_eq_ok_iff.mpr hfound, haccounts]
      rfl
  | ok =>
      have hreaches := hresolved.reachesBook hwell hconsistent hloaded hmovements haccounts
      cases hbook : checkBook order (loaded.input envelope) loaded.consumedPostings with
      | error err =>
          refine .inl ⟨err, (reason_of_checkBook hbook).2,
            Except.mapError_eq_error_iff.mpr ⟨err, ?_, rfl⟩⟩
          rw [hreaches.validateAndPlan_eq hfound, hbook]
          rfl
      | ok => exact .inr ⟨rfl, rfl⟩

omit [Sha256] in
/-- An account that has passed its check is found. -/
theorem account_ne_error {input : PlanInput} (haccounts : checkAccounts input = .ok ())
    {id : AccountId} (hid : id ∈ input.owners) (err : ValidationError) :
    input.account id ≠ .error err := by
  obtain ⟨account, hlookup, _⟩ := checkAccounts_eq_ok_iff.mp haccounts id hid
  rw [PlanInput.account_eq_ok_iff.mpr hlookup]
  exact nofun

omit [Sha256] in
theorem LoadedFrom.owner_of_touched {key : BalanceKey}
    (htouched : key ∈ loaded.consumedPostings.map Posting.key ∨
      key ∈ envelope.creates.map NewPosting.key) : key.1 ∈ (loaded.input envelope).owners := by
  refine List.mem_sortDedup.mpr (List.mem_append.mpr (htouched.symm.imp ?_ ?_))
  all_goals
    intro hkey
    obtain ⟨posting, hposting, rfl⟩ := List.mem_map.mp hkey
    exact List.mem_map_of_mem hposting

omit [Sha256] in
/-- Where the check passes, the records cover what is created. A balance that the
envelope does not touch is not negative anyway. -/
theorem LoadedFrom.recordsCover (hloaded : LoadedFrom store envelope loaded)
    (hconsistent : Consistent store) (hsafe : OverdraftSafe store) {order : IterationOrder}
    (hoverdraft : checkOverdraft order (loaded.input envelope) loaded.consumedPostings = .ok ()) :
    RecordsCover store envelope := by
  intro key account hlatest hforbids
  rw [HashMap.filterMap_lookup_eq hloaded.consumed]
  by_cases htouched : key ∈ loaded.consumedPostings.map Posting.key ∨
      key ∈ envelope.creates.map NewPosting.key
  · obtain ⟨other, hlookup, hfloor⟩ := (checkOverdraft_eq_ok_iff.mp hoverdraft).2 key htouched
    cases hlatest.symm.trans (hloaded.accounts _ _ hlookup)
    have hprojected := (hfloor hforbids).2
    rw [← hloaded.balance_eq htouched, add_sub_assoc]
    exact hprojected
  · rw [not_or, List.mem_map, List.mem_map] at htouched
    rw [keyTotal_eq_zero fun posting hposting heq => htouched.1 ⟨posting, hposting, heq⟩,
      keyTotal_eq_zero fun posting hposting heq => htouched.2 ⟨posting, hposting, heq⟩, add_zero,
      sub_zero]
    exact hsafe.liveBalance_nonneg hconsistent.reserved hlatest hforbids

theorem Resolved.checkNegativePostings_eq (hresolved : Resolved store transfer envelope spent extra)
    (hloaded : LoadedFrom store envelope loaded)
    (haccounts : checkAccounts (loaded.input envelope) = .ok ())
    (hamounts : ∀ movement ∈ transfer.movements, 0 ≤ movement.amount.val) :
    checkNegativePostings (loaded.input envelope) = .ok () := by
  refine checkNegativePostings_eq_ok_iff.mpr fun posting hposting hnegative => ?_
  have howner : posting.owner ∈ (loaded.input envelope).owners :=
    List.mem_sortDedup.mpr (List.mem_append_left _ (List.mem_map_of_mem hposting))
  obtain ⟨account, hlookup, _⟩ := checkAccounts_eq_ok_iff.mp haccounts _ howner
  refine ⟨account, hlookup, Bool.eq_false_iff.mpr fun hforbids => ?_⟩
  have hvalue := hresolved.creates_nonneg hamounts hposting (hloaded.accounts _ _ hlookup) hforbids
  omega

/-- Where the records agree, validation has only what it may have against the envelope. -/
theorem Resolved.failure_of_plan (hresolved : Resolved store transfer envelope spent extra)
    (hwell : WellFormed store) (hconsistent : Consistent store)
    (hloaded : LoadedFrom store envelope loaded) (hmovements : transfer.movements ≠ [])
    {order : IterationOrder}
    (hagrees : ComparesAmounts order envelope loaded →
      RecordsAgree store transfer order envelope loaded)
    {err : LedgerError} (herr : plan order envelope loaded = .error err) :
    ValidationFailure store transfer envelope err := by
  have hrecords := HashMap.filterMap_lookup_eq hloaded.consumed
  obtain ⟨cause, hparties, hplan⟩ | ⟨haccounts, hbook⟩ :=
    hresolved.plan_cases hwell hconsistent hloaded hmovements order
  · cases hplan.symm.trans herr
    exact failure_of_parties hparties
  rw [hresolved.plan_eq_amounts hwell hconsistent hloaded hmovements haccounts hbook] at herr
  obtain ⟨cause, hcause, rfl⟩ := Except.mapError_eq_error_iff.mp herr
  obtain hconservation | ⟨_, hconservation, hcause⟩ := Except.bind_eq_error_iff.mp hcause
  · obtain rfl | ⟨asset, _, _, rfl, hdiffers⟩ := exists_of_checkConservation hconservation
    · exact .overflow
    · have hcompares : ComparesAmounts order envelope loaded :=
        ⟨haccounts, hbook, by rw [hconservation]; exact nofun⟩
      have hbalance := (hagrees hcompares).1 asset
      rw [hrecords] at hbalance
      exact absurd hbalance hdiffers
  obtain hnegative | ⟨_, _, hcause⟩ := Except.bind_eq_error_iff.mp hcause
  · obtain ⟨id, hnone⟩ | ⟨posting, _, _, rfl, _⟩ := exists_of_checkNegativePostings hnegative
    · exact failure_of_parties (reason_of_account hnone).2
    · refine .negativePosting (by_contra fun hamounts => ?_) _ _ _
      push Not at hamounts
      rw [hresolved.checkNegativePostings_eq hloaded haccounts hamounts] at hnegative
      cases hnegative
  obtain hoverdraft | ⟨_, _, hcause⟩ := Except.bind_eq_error_iff.mp hcause
  swap
  · cases hcause
  obtain rfl | ⟨key, htouched, hnone | ⟨account, _, rfl, hlookup, hforbids, hvalue, hbelow⟩⟩ :=
    exists_of_checkOverdraft hoverdraft
  · exact .overflow
  · exact failure_of_parties (reason_of_account hnone).2
  refine .overdraftExceeded (by_contra fun hamounts => ?_) _ _ _
  push Not at hamounts
  have hcompares : ComparesAmounts order envelope loaded :=
    ⟨haccounts, hbook, by rw [hconservation]; exact nofun⟩
  obtain hcover | hoverflow := (hagrees hcompares).2 hamounts
  · have hcovered := hcover key account (hloaded.accounts _ _ hlookup) hforbids
    rw [hrecords, ← hloaded.balance_eq htouched] at hcovered
    rw [hvalue] at hbelow
    exact absurd hcovered (not_le.mpr hbelow)
  · cases hoverflow.symm.trans hoverdraft

/-- The records agree where validation has only what it may have against the envelope. -/
theorem Resolved.recordsAgree (hresolved : Resolved store transfer envelope spent extra)
    (hwell : WellFormed store) (hconsistent : Consistent store) (hsafe : OverdraftSafe store)
    (hloaded : LoadedFrom store envelope loaded) (hmovements : transfer.movements ≠ [])
    {order : IterationOrder}
    (hfailures : ∀ err, plan order envelope loaded = .error err →
      ValidationFailure store transfer envelope err)
    (hcompares : ComparesAmounts order envelope loaded) :
    RecordsAgree store transfer order envelope loaded := by
  have hrecords := HashMap.filterMap_lookup_eq hloaded.consumed
  obtain ⟨haccounts, hbook, hsums⟩ := hcompares
  have hplan := hresolved.plan_eq_amounts hwell hconsistent hloaded hmovements haccounts hbook
  cases hconservation : checkConservation order envelope loaded.consumedPostings with
  | error err =>
      obtain rfl | ⟨asset, _, _, rfl, _⟩ := exists_of_checkConservation hconservation
      · exact absurd hconservation hsums
      · rw [hconservation] at hplan
        cases hfailures _ hplan with
        | loading hfailure => cases hfailure
  | ok =>
      have hbalance : RecordsBalance store envelope := by
        intro asset
        rw [hrecords]
        exact (checkConservation_eq_ok_iff.mp hconservation).2.2 asset
      refine ⟨hbalance, fun hamounts => or_iff_not_imp_right.mpr fun hrange => ?_⟩
      rw [hconservation, hresolved.checkNegativePostings_eq hloaded haccounts hamounts] at hplan
      cases hoverdraft : checkOverdraft order (loaded.input envelope) loaded.consumedPostings with
      | ok => exact hloaded.recordsCover hconsistent hsafe hoverdraft
      | error err =>
          rw [hoverdraft] at hplan
          obtain rfl | ⟨key, htouched, hnone | ⟨_, _, rfl, _⟩⟩ := exists_of_checkOverdraft hoverdraft
          · exact absurd hoverdraft hrange
          · exact absurd hnone (account_ne_error haccounts (LoadedFrom.owner_of_touched htouched) err)
          · cases hfailures _ hplan with
            | loading hfailure => cases hfailure
            | overdraftExceeded hnegative =>
                obtain ⟨movement, hmovement, hbelow⟩ := hnegative
                exact absurd (hamounts movement hmovement) (not_le.mpr hbelow)

end Selected

section Runs

variable {ledger : Ledger} {actions : List LedgerAction} {transfer : Transfer}
  {envelope : Envelope} {middle : World}
  (hmovements : transfer.movements ≠ []) (houtgoing : ∀ key, 0 ≤ transfer.outgoing key)
  (hresolve : Alone (resolve transfer) (LedgerPool.after ledger actions).shared (.ok envelope)
    middle)

include hmovements hresolve in
/-- Validation fails only as it may, as soon as the records agree where they are read. -/
theorem failure_of_validate
    (hagrees : ∀ order loaded later, Alone (load envelope) middle (.ok loaded) later →
      ComparesAmounts order envelope loaded →
        RecordsAgree (storeAfter ledger actions) transfer order envelope loaded)
    {err : LedgerError} (hvalidate : Alone (validate envelope) middle (.error err) after) :
    ValidationFailure (storeAfter ledger actions) transfer envelope err := by
  have hwell := wellFormed_after ledger actions
  have hconsistent := consistent_after ledger actions
  have hstore := (resolve_readOnly transfer).store_eq hresolve
  obtain ⟨spent, extra, hresolved⟩ := resolve_alone hresolve
  rw [← storeAfter] at hresolved hstore
  have hfound := hresolved.mem_immutable hconsistent
  obtain ⟨loaded, last, hload, hplan⟩ | ⟨cause, hload, herr⟩ := alone_bind_iff.mp hvalidate
  · obtain ⟨order, hplan⟩ := alone_compute hplan
    obtain ⟨_, hok, hloaded⟩ | ⟨_, herror, _⟩ := load_alone (hstore ▸ hwell) (hstore ▸ hfound) hload
    · cases hok
      rw [hstore] at hloaded
      exact hresolved.failure_of_plan hwell hconsistent hloaded hmovements
        (hagrees order loaded last hload) hplan.symm
    · cases herror
  · cases herr
    obtain ⟨_, hok, _⟩ | ⟨_, herror, hfailure⟩ :=
      load_alone (hstore ▸ hwell) (hstore ▸ hfound) hload
    · cases hok
    · cases herror
      exact .loading (hstore ▸ hfailure)

include hmovements hresolve in
/-- The records agree where they are read, if validation fails only as it may. -/
theorem recordsAgree_of_failures
    (hfailures : ∀ err after, Alone (validate envelope) middle (.error err) after →
      ValidationFailure (storeAfter ledger actions) transfer envelope err)
    {order : IterationOrder} {loaded : LoadedState} {later : World}
    (hload : Alone (load envelope) middle (.ok loaded) later)
    (hcompares : ComparesAmounts order envelope loaded) :
    RecordsAgree (storeAfter ledger actions) transfer order envelope loaded := by
  have hwell := wellFormed_after ledger actions
  have hconsistent := consistent_after ledger actions
  have hstore := (resolve_readOnly transfer).store_eq hresolve
  obtain ⟨spent, extra, hresolved⟩ := resolve_alone hresolve
  rw [← storeAfter] at hresolved hstore
  have hfound := hresolved.mem_immutable hconsistent
  obtain ⟨_, hok, hloaded⟩ | ⟨_, herror, _⟩ := load_alone (hstore ▸ hwell) (hstore ▸ hfound) hload
  swap
  · cases herror
  cases hok
  rw [hstore] at hloaded
  refine hresolved.recordsAgree hwell hconsistent (overdraftSafe_after ledger actions) hloaded
    hmovements (fun err hplan => hfailures err later ?_) hcompares
  -- a run of validation that plans in this order reports the error
  refine alone_bind_iff.mpr (.inl ⟨loaded, later, hload, ?_⟩)
  refine alone_bind_iff.mpr (.inl ⟨_, later, alone_read_iff.mpr ⟨⟨order, later.clock⟩, rfl, rfl⟩, ?_⟩)
  exact alone_attempt_iff.mpr ⟨hplan.symm, rfl⟩

include hmovements houtgoing hresolve in
/-- In every reachable state, what resolution makes of a transfer without negative sums
is rejected only for the accounts, the book or an overflow, or, if an amount is
negative, for a negative posting or balance: provided that every posting that was taken
is active as it was recorded. Exactly then it is so, when the records agree with the
amounts wherever validation comes to compare them. -/
theorem resolution_agrees_iff :
    (TakenAsRecorded (storeAfter ledger actions) envelope →
      ∀ err after, Alone (validate envelope) middle (.error err) after →
        ValidationFailure (storeAfter ledger actions) transfer envelope err) ∧
    ((∀ err after, Alone (validate envelope) middle (.error err) after →
        ValidationFailure (storeAfter ledger actions) transfer envelope err) ↔
      ∀ order loaded later, Alone (load envelope) middle (.ok loaded) later →
        ComparesAmounts order envelope loaded →
          RecordsAgree (storeAfter ledger actions) transfer order envelope loaded) := by
  have hiff : (∀ err after, Alone (validate envelope) middle (.error err) after →
        ValidationFailure (storeAfter ledger actions) transfer envelope err) ↔
      ∀ order loaded later, Alone (load envelope) middle (.ok loaded) later →
        ComparesAmounts order envelope loaded →
          RecordsAgree (storeAfter ledger actions) transfer order envelope loaded :=
    ⟨fun hfailures order loaded later hload hcompares =>
        recordsAgree_of_failures hmovements hresolve hfailures hload hcompares,
      fun hagrees err after hvalidate => failure_of_validate hmovements hresolve hagrees hvalidate⟩
  refine ⟨fun htaken => hiff.mpr fun order loaded later _ _ => ?_, hiff⟩
  have hconsistent := consistent_after ledger actions
  obtain ⟨spent, extra, hresolved⟩ := resolve_alone hresolve
  exact ⟨(hresolved.recordsBalance_iff hconsistent htaken).mpr houtgoing, fun hamounts =>
    .inl (hresolved.recordsCover hconsistent (overdraftSafe_after ledger actions) htaken hamounts)⟩

end Runs

end Theory

open Sample in
/-- Alice owns a posting of 5, and bob is frozen. -/
def bobFrozen : List LedgerAction :=
  sequentially (accounts ++
    [.createAccount (.debitMustNotExceedCredit bob), .commit (deposit 5), .freeze bob])

open Sample in
/-- Alice pays 3 to bob. -/
def payingFrozen : Transfer where
  movements := [⟨alice, bob, usd, .ofI64 3⟩]
  book := DEFAULT_BOOK
  metadata := .empty

open Sample in
/-- Her posting is taken as it was recorded, and validation turns the envelope down for
bob's account. -/
theorem resolution_agrees_iff_payingFrozen :
    let start := (LedgerPool.after ledger bobFrozen).shared
    ∃ envelope middle after, Alone (resolve payingFrozen) start (.ok envelope) middle ∧
      envelope.consumes ≠ [] ∧ TakenAsRecorded (storeAfter ledger bobFrozen) envelope ∧
      Alone (validate envelope) middle (.error (.validation (.accountFrozen bob))) after ∧
      ValidationFailure (storeAfter ledger bobFrozen) payingFrozen envelope
        (.validation (.accountFrozen bob)) := by
  intro start
  have hany : (Async.runWith noon (resolve payingFrozen).run start).1.toOption.any (fun envelope =>
      decide (envelope.consumes ≠ [] ∧ TakenAsRecorded (storeAfter ledger bobFrozen) envelope ∧
        (Async.runWith noon (validate envelope).run
          (Async.runWith noon (resolve payingFrozen).run start).2).1 =
            .error (.validation (.accountFrozen bob)))) = true := by
    decide +kernel
  obtain ⟨envelope, hfirst, hconsumes, htaken, hsecond⟩ := exists_ok_of_any hany
  have hresolve := Async.runs_runWith noon (resolve payingFrozen).run start
  rw [hfirst] at hresolve
  have hvalidate := Async.runs_runWith noon (validate envelope).run
    (Async.runWith noon (resolve payingFrozen).run start).2
  rw [hsecond] at hvalidate
  have houtgoing : ∀ key, 0 ≤ payingFrozen.outgoing key := by
    have hamounts : ∀ movement ∈ payingFrozen.movements, 0 ≤ movement.amount.val := by decide
    exact fun key => keyTotal_nonneg fun movement hmovement _ => hamounts movement hmovement
  exact ⟨envelope, _, _, hresolve, hconsumes, htaken, hvalidate,
    (resolution_agrees_iff (List.cons_ne_nil _ _) houtgoing hresolve).1 htaken _ _ hvalidate⟩

open Sample in
/-- Bob pays 7. -/
def spending : Transfer where
  movements := [⟨bob, external, usd, .ofI64 7⟩]
  book := DEFAULT_BOOK
  metadata := .empty

open Sample in
/-- After the crowded transfer resolution selects bob's live posting of 7, and
validation reads 5 in the records: spending it is no conservation. -/
theorem spending_disagrees : ∃ actions envelope middle after,
    spending.movements ≠ [] ∧ (∀ key, 0 ≤ spending.outgoing key) ∧
      (∀ movement ∈ spending.movements, 0 ≤ movement.amount.val) ∧
      Alone (resolve spending) (LedgerPool.after ledger actions).shared (.ok envelope) middle ∧
      Alone (validate envelope) middle
        (.error (.validation (.conservationViolation usd (.ofI64 5) (.ofI64 7)))) after := by
  obtain ⟨actions, hcrowded⟩ := exists_crowded
  have hwell := wellFormed_after ledger actions
  let creates : List NewPosting := [⟨external, usd, .ofI64 7, some bob⟩]
  let envelope : Envelope := ⟨[⟨envelopeId crowded, 0⟩], creates,
    [accountSnapshotId (.new external)], DEFAULT_BOOK, spending.metadata⟩
  let recorded : Posting := smaller.withId ⟨envelopeId crowded, 0⟩
  have howners : ∀ posting ∈ creates, posting.owner = external := by decide
  have hpresentable : Presentable (storeAfter ledger actions) envelope [recorded] :=
    hcrowded.presentable _ (List.cons_ne_nil _ _) howners (by decide)
  have hamounts : ∀ movement ∈ spending.movements, 0 ≤ movement.amount.val := by decide
  have hresolve : Alone (resolve spending) (LedgerPool.after ledger actions).shared (.ok envelope)
      ⟨storeAfter ledger actions, none⟩ :=
    hcrowded.resolve (consistent_after ledger actions) rfl rfl _
  obtain ⟨loaded, later, hload, hloaded⟩ := hpresentable.presented.load hwell none
  have hconservation : checkConservation .listed envelope [recorded] =
      .error (.conservationViolation usd (.ofI64 5) (.ofI64 7)) := rfl
  have hplan : plan .listed envelope loaded =
      .error (.validation (.conservationViolation usd (.ofI64 5) (.ofI64 7))) := by
    rw [hpresentable.presented.plan_eq hwell hloaded, hconservation]
    rfl
  refine ⟨actions, envelope, _, ⟨storeAfter ledger actions, none⟩, List.cons_ne_nil _ _,
    fun key => ?_, hamounts, hresolve, ?_⟩
  · exact keyTotal_nonneg fun movement hmovement _ => hamounts movement hmovement
  · refine alone_bind_iff.mpr (.inl ⟨loaded, _, hload, ?_⟩)
    refine alone_bind_iff.mpr (.inl ⟨_, _, alone_read_iff.mpr ⟨⟨.listed, none⟩, rfl, rfl⟩, ?_⟩)
    exact alone_attempt_iff.mpr ⟨hplan.symm, rfl⟩

end Kuatia
