import Kuatia.Core.Validate

/-! # What validation has checked

An accepted envelope meets every check, and its plan is the one that the
envelope alone determines.
-/

namespace Kuatia

variable [MoneyWidth]

theorem checkNonEmpty_eq_ok_iff {envelope : Envelope} :
    checkNonEmpty envelope = .ok () ↔ envelope.consumes ≠ [] ∨ envelope.creates ≠ [] := by
  unfold checkNonEmpty
  split
  next h => simp [h.1, h.2]
  next h => exact ⟨fun _ => not_and_or.mp h, fun _ => rfl⟩

theorem checkNoDuplicates_eq_ok_iff {seen consumes : List PostingId} :
    checkNoDuplicates seen consumes = .ok () ↔
      consumes.Nodup ∧ ∀ pid ∈ consumes, pid ∉ seen := by
  induction consumes generalizing seen with
  | nil => simp [checkNoDuplicates]
  | cons pid rest ih =>
      unfold checkNoDuplicates
      split
      next hseen => simp [hseen]
      next hseen =>
        rw [ih, List.nodup_cons, List.forall_mem_cons]
        constructor
        · rintro ⟨hnodup, hrest⟩
          exact ⟨⟨fun hmem => hrest pid hmem List.mem_cons_self, hnodup⟩, hseen,
            fun other hother hmem => hrest other hother (List.mem_cons_of_mem _ hmem)⟩
        · rintro ⟨⟨hfresh, hnodup⟩, _, hrest⟩
          refine ⟨hnodup, fun other hother hmem => ?_⟩
          rcases List.mem_cons.mp hmem with rfl | hmem
          · exact hfresh hother
          · exact hrest other hother hmem

theorem PlanInput.account_eq_ok_iff {input : PlanInput} {id : AccountId} {account : Account} :
    input.account id = .ok account ↔ input.accounts.lookup id = some account := by
  unfold PlanInput.account
  cases input.accounts.lookup id <;> simp

/-- `Finds input consumed`: the consumed ids name these postings, in order. -/
def PlanInput.Finds (input : PlanInput) (consumed : List Posting) : Prop :=
  List.Forall₂ (fun pid posting =>
    (consumedById input.consumedPostings).lookup pid = some posting) input.envelope.consumes consumed

theorem findConsumed_eq_ok_iff {input : PlanInput} {consumed : List Posting} :
    findConsumed input = .ok consumed ↔ input.Finds consumed := by
  rw [findConsumed, List.mapM_eq_ok_iff, PlanInput.Finds]
  constructor <;> refine fun hall => hall.imp fun pid posting => ?_
  all_goals cases (consumedById input.consumedPostings).lookup pid <;> simp

theorem checkAccounts_eq_ok_iff {input : PlanInput} :
    checkAccounts input = .ok () ↔ ∀ id ∈ input.owners, ∃ account,
      input.accounts.lookup id = some account ∧ account.isFrozen = false ∧
        account.isClosed = false := by
  refine List.forM_eq_ok_iff.trans (forall₂_congr fun id _ => ?_)
  simp only [Except.bind_eq_ok_iff, PlanInput.account_eq_ok_iff]
  refine exists_congr fun account => and_congr_right fun _ => ?_
  cases account.isFrozen <;> cases account.isClosed <;> simp

theorem checkSnapshots_eq_ok_iff [Sha256] {input : PlanInput} :
    checkSnapshots input = .ok () ↔ ∀ snapshot ∈ input.envelope.accountSnapshots, ∃ account,
      input.accounts.lookup snapshot.account = some account ∧
        snapshot.snapshotId = accountHash account := by
  refine List.forM_eq_ok_iff.trans (forall₂_congr fun snapshot _ => ?_)
  simp only [Except.bind_eq_ok_iff, PlanInput.account_eq_ok_iff]
  refine exists_congr fun account => and_congr_right fun _ => ?_
  split
  next hne => simpa using hne
  next heq => simpa using heq

theorem checkNegativePostings_eq_ok_iff {input : PlanInput} :
    checkNegativePostings input = .ok () ↔ ∀ posting ∈ input.envelope.creates,
      posting.value.val < 0 → ∃ account,
        input.accounts.lookup posting.owner = some account ∧ account.forbidsOverdraft = false := by
  refine List.forM_eq_ok_iff.trans (forall₂_congr fun posting _ => ?_)
  split
  next hnegative =>
    simp only [Cent.isNegative_iff] at hnegative
    simp only [Except.bind_eq_ok_iff, PlanInput.account_eq_ok_iff, hnegative, true_implies]
    refine exists_congr fun account => and_congr_right fun _ => ?_
    cases account.forbidsOverdraft <;> simp
  next hnegative =>
    simp only [Cent.isNegative_iff] at hnegative
    simp [hnegative]

/-! ## Conservation -/

section Conservation

variable {order : IterationOrder} {envelope : Envelope} {consumed : List Posting}

theorem val_get_of_assets {α : Type} {assetOf : α → AssetId} {valueOf : α → Cent} {items : List α}
    {totals : Totals AssetId} (hfold : Totals.addAll ∅ assetOf valueOf items = .ok totals)
    (asset : AssetId) : (totals.get asset).val = keyTotal assetOf valueOf items asset := by
  simpa using Totals.val_get_of_addAll hfold asset

/-- The check compares the exact totals of every asset that occurs. -/
theorem checkConservation_eq_ok_iff :
    checkConservation order envelope consumed = .ok () ↔
      (∃ totals, Totals.addAll ∅ Posting.asset Posting.value consumed = .ok totals) ∧
      (∃ totals, Totals.addAll ∅ NewPosting.asset NewPosting.value envelope.creates = .ok totals) ∧
      ∀ asset, keyTotal Posting.asset Posting.value consumed asset =
        keyTotal NewPosting.asset NewPosting.value envelope.creates asset := by
  simp only [checkConservation, Except.bind_eq_ok_iff, Except.mapError_eq_ok_iff,
    List.forM_eq_ok_iff, IterationOrder.mem_arrange, List.mem_dedup, List.mem_append,
    ← AList.mem_keys]
  have hequal : ∀ {left right : Totals AssetId} (asset : AssetId),
      ((if left.get asset = right.get asset then .ok ()
        else .error (.conservationViolation asset (left.get asset) (right.get asset))) :
        Except ValidationError Unit) = .ok () ↔ (left.get asset).val = (right.get asset).val := by
    intro left right asset
    rw [← Cent.ext_iff]
    split <;> simp_all
  constructor
  · rintro ⟨spent, hspent, made, hmade, hassets⟩
    refine ⟨⟨spent, hspent⟩, ⟨made, hmade⟩, fun asset => ?_⟩
    by_cases hmem : asset ∈ spent ∨ asset ∈ made
    · rw [← val_get_of_assets hspent, ← val_get_of_assets hmade]
      exact (hequal asset).mp (hassets asset hmem)
    · rw [not_or, Totals.mem_of_addAll hspent, Totals.mem_of_addAll hmade] at hmem
      rw [keyTotal_eq_zero fun item hitem heq => hmem.1 (.inr ⟨item, hitem, heq⟩),
        keyTotal_eq_zero fun item hitem heq => hmem.2 (.inr ⟨item, hitem, heq⟩)]
  · rintro ⟨⟨spent, hspent⟩, ⟨made, hmade⟩, htotals⟩
    refine ⟨spent, hspent, made, hmade, fun asset _ => ?_⟩
    rw [hequal, val_get_of_assets hspent, val_get_of_assets hmade]
    exact htotals asset

end Conservation

/-! ## Created postings -/

section Created

variable {tid : EnvelopeId} {creates : List NewPosting}

/-- Whatever does not depend on the id is the same before and after numbering. -/
theorem map_createdPostings {β : Type*} (tid : EnvelopeId) (creates : List NewPosting)
    (f : AccountId → AssetId → Cent → β) :
    (createdPostings tid creates).map (fun posting => f posting.owner posting.asset posting.value) =
      creates.map fun posting => f posting.owner posting.asset posting.value := by
  refine List.ext_getElem? fun i => ?_
  simp [createdPostings, Function.comp_def]

theorem map_id_createdPostings (tid : EnvelopeId) (creates : List NewPosting) :
    (createdPostings tid creates).map (·.id) = createdPostingIds tid creates := by
  refine List.ext_getElem? fun i => ?_
  simp [createdPostings, createdPostingIds, Function.comp_def]

theorem transfer_of_mem_createdPostingIds {id : PostingId}
    (hid : id ∈ createdPostingIds tid creates) : id.transfer = tid := by
  obtain ⟨i, _, rfl⟩ := List.mem_mapIdx.mp hid
  rfl

theorem transfer_of_mem_createdPostings {posting : Posting}
    (hposting : posting ∈ createdPostings tid creates) : posting.id.transfer = tid := by
  obtain ⟨i, _, rfl⟩ := List.mem_mapIdx.mp hposting
  rfl

theorem exists_of_mem_createdPostings {posting : Posting}
    (hposting : posting ∈ createdPostings tid creates) :
    ∃ source ∈ creates, posting.owner = source.owner ∧ posting.asset = source.asset ∧
      posting.value = source.value := by
  obtain ⟨i, hi, rfl⟩ := List.mem_mapIdx.mp hposting
  exact ⟨creates[i], List.getElem_mem hi, rfl, rfl, rfl⟩

/-- Up to 65536 created postings have distinct ids. -/
theorem nodup_createdPostingIds (hlength : creates.length ≤ 65536) :
    (createdPostingIds tid creates).Nodup := by
  rw [List.nodup_iff_getElem?_ne_getElem?]
  intro i j hij hj heq
  simp only [createdPostingIds, List.length_mapIdx] at hj
  simp only [createdPostingIds, List.getElem?_mapIdx, List.getElem?_eq_getElem hj,
    List.getElem?_eq_getElem (hij.trans hj), Option.map_some, Option.some.injEq,
    PostingId.mk.injEq, true_and] at heq
  have hnat := congrArg UInt16.toNat heq
  simp only [UInt16.toNat_ofNat'] at hnat
  omega

end Created

/-! ## The whole of validation -/

variable [Sha256]

/-- Everything that validation has established about an envelope it accepts. -/
structure Checked (order : IterationOrder) (input : PlanInput) (consumed : List Posting) :
    Prop where
  nonEmpty : input.envelope.consumes ≠ [] ∨ input.envelope.creates ≠ []
  nodup : input.envelope.consumes.Nodup
  found : input.Finds consumed
  accounts : ∀ id ∈ input.owners, ∃ account,
    input.accounts.lookup id = some account ∧ account.isFrozen = false ∧ account.isClosed = false
  snapshots : ∀ snapshot ∈ input.envelope.accountSnapshots, ∃ account,
    input.accounts.lookup snapshot.account = some account ∧
      snapshot.snapshotId = accountHash account
  book : checkBook order input consumed = .ok ()
  conservation : checkConservation order input.envelope consumed = .ok ()
  negatives : ∀ posting ∈ input.envelope.creates, posting.value.val < 0 → ∃ account,
    input.accounts.lookup posting.owner = some account ∧ account.forbidsOverdraft = false
  overdraft : checkOverdraft order input consumed = .ok ()

theorem validateAndPlan_eq_ok_iff {order : IterationOrder} {input : PlanInput} {plan : Plan} :
    validateAndPlan order input = .ok plan ↔
      (∃ consumed, Checked order input consumed) ∧ plan = planOf input.envelope := by
  simp only [validateAndPlan, Except.bind_eq_ok_iff, findConsumed_eq_ok_iff, pure, Except.pure,
    Except.ok.injEq, Unique.exists_iff, PUnit.default_eq_unit]
  constructor
  · rintro ⟨hempty, hnodup, consumed, hfound, haccounts, hsnapshots, hbook, hconservation,
      hnegatives, hoverdraft, rfl⟩
    exact ⟨⟨consumed, checkNonEmpty_eq_ok_iff.mp hempty, (checkNoDuplicates_eq_ok_iff.mp hnodup).1,
      hfound, checkAccounts_eq_ok_iff.mp haccounts, checkSnapshots_eq_ok_iff.mp hsnapshots, hbook,
      hconservation, checkNegativePostings_eq_ok_iff.mp hnegatives, hoverdraft⟩, rfl⟩
  · rintro ⟨⟨consumed, h⟩, rfl⟩
    exact ⟨checkNonEmpty_eq_ok_iff.mpr h.nonEmpty,
      checkNoDuplicates_eq_ok_iff.mpr ⟨h.nodup, by simp⟩, consumed, h.found,
      checkAccounts_eq_ok_iff.mpr h.accounts, checkSnapshots_eq_ok_iff.mpr h.snapshots, h.book,
      h.conservation, checkNegativePostings_eq_ok_iff.mpr h.negatives, h.overdraft, rfl⟩

/-! ## Every error has its reason -/

/-- What is wrong with the input when validation reports an error. -/
inductive Reason (input : PlanInput) : ValidationError → Prop where
  | emptyTransfer (hconsumes : input.envelope.consumes = [])
      (hcreates : input.envelope.creates = []) : Reason input .emptyTransfer
  | duplicateConsumedPosting (id : PostingId) (hrepeated : ¬input.envelope.consumes.Nodup) :
      Reason input (.duplicateConsumedPosting id)
  | postingNotFound {id : PostingId} (hid : id ∈ input.envelope.consumes)
      (hnone : (consumedById input.consumedPostings).lookup id = none) :
      Reason input (.postingNotFound id)
  | accountNotFound {id : AccountId} (hnone : input.accounts.lookup id = none) :
      Reason input (.accountNotFound id)
  | accountFrozen {id : AccountId} {account : Account}
      (hlookup : input.accounts.lookup id = some account) (hfrozen : account.isFrozen = true) :
      Reason input (.accountFrozen id)
  | accountClosed {id : AccountId} {account : Account}
      (hlookup : input.accounts.lookup id = some account) (hclosed : account.isClosed = true) :
      Reason input (.accountClosed id)
  | accountVersionMismatch {snapshot : AccountSnapshotId} {account : Account}
      (hsnapshot : snapshot ∈ input.envelope.accountSnapshots)
      (hlookup : input.accounts.lookup snapshot.account = some account)
      (hstale : snapshot.snapshotId ≠ accountHash account) :
      Reason input (.accountVersionMismatch snapshot.account snapshot.snapshotId
        (accountHash account))
  | bookAssetNotAllowed {book : Book} (hbook : input.book = some book) {asset : AssetId}
      (hasset : asset ∉ book.policy.allowedAssets) :
      Reason input (.bookAssetNotAllowed book.id asset)
  | bookAccountNotAllowed {book : Book} (hbook : input.book = some book) {id : AccountId}
      (hid : id.base ∉ book.policy.allowedAccounts) :
      Reason input (.bookAccountNotAllowed book.id id)
  | conservationViolation {consumed : List Posting} (hfound : input.Finds consumed)
      {asset : AssetId} {consumedSum createdSum : Cent}
      (hdiffers : keyTotal Posting.asset Posting.value consumed asset ≠
        keyTotal NewPosting.asset NewPosting.value input.envelope.creates asset) :
      Reason input (.conservationViolation asset consumedSum createdSum)
  | negativePosting {posting : NewPosting} {account : Account}
      (hposting : posting ∈ input.envelope.creates) (hnegative : posting.value.val < 0)
      (hlookup : input.accounts.lookup posting.owner = some account)
      (hforbids : account.forbidsOverdraft = true) :
      Reason input (.negativePostingOnNonSystemAccount posting.owner posting.asset posting.value)
  | overdraftExceeded {consumed : List Posting} (hfound : input.Finds consumed)
      {key : BalanceKey} {account : Account} {projected : Cent}
      (hlookup : input.accounts.lookup key.1 = some account)
      (hforbids : account.forbidsOverdraft = true)
      (hprojected : projected.val = ((input.balances.lookup key).getD .ZERO).val +
        keyTotal NewPosting.key NewPosting.value input.envelope.creates key -
        keyTotal Posting.key Posting.value consumed key)
      (hnegative : projected.val < 0) : Reason input (.overdraftExceeded key.1 key.2 projected)
  | overflow : Reason input .overflow

/-- The error is one of an account or of the book. -/
def ValidationError.OfParties : ValidationError → Prop
  | .accountNotFound _ | .accountFrozen _ | .accountClosed _ | .bookAssetNotAllowed ..
  | .bookAccountNotAllowed .. => True
  | _ => False

section Errors

variable {input : PlanInput} {err : ValidationError}

theorem reason_of_account {id : AccountId} (herr : input.account id = .error err) :
    Reason input err ∧ err.OfParties := by
  unfold PlanInput.account at herr
  split at herr
  next => cases herr
  next hnone =>
    cases herr
    exact ⟨.accountNotFound hnone, trivial⟩

theorem reason_of_checkNonEmpty (herr : checkNonEmpty input.envelope = .error err) :
    Reason input err := by
  unfold checkNonEmpty at herr
  split at herr
  next hempty =>
    cases herr
    exact .emptyTransfer hempty.1 hempty.2
  next => cases herr

omit [Sha256] in
theorem exists_of_checkNoDuplicates {seen consumes : List PostingId}
    (herr : checkNoDuplicates seen consumes = .error err) :
    ∃ id, err = .duplicateConsumedPosting id := by
  induction consumes generalizing seen with
  | nil => cases herr
  | cons head tail ih =>
      unfold checkNoDuplicates at herr
      split at herr
      next =>
        cases herr
        exact ⟨head, rfl⟩
      next => exact ih herr

theorem reason_of_checkNoDuplicates
    (herr : checkNoDuplicates [] input.envelope.consumes = .error err) : Reason input err := by
  obtain ⟨id, rfl⟩ := exists_of_checkNoDuplicates herr
  refine .duplicateConsumedPosting id fun hnodup => ?_
  have hok : checkNoDuplicates [] input.envelope.consumes = .ok () :=
    checkNoDuplicates_eq_ok_iff.mpr ⟨hnodup, by simp⟩
  rw [hok] at herr
  cases herr

theorem reason_of_findConsumed (herr : findConsumed input = .error err) : Reason input err := by
  obtain ⟨id, hid, herr⟩ := List.exists_of_mapM_eq_error herr
  cases hlookup : (consumedById input.consumedPostings).lookup id with
  | some posting => simp [hlookup] at herr
  | none =>
      rw [hlookup] at herr
      cases herr
      exact .postingNotFound hid hlookup

theorem reason_of_checkAccounts (herr : checkAccounts input = .error err) :
    Reason input err ∧ err.OfParties := by
  obtain ⟨id, _, herr⟩ := List.exists_of_forM_eq_error herr
  obtain hnone | ⟨account, hlookup, herr⟩ := Except.bind_eq_error_iff.mp herr
  · exact reason_of_account hnone
  · rw [PlanInput.account_eq_ok_iff] at hlookup
    split at herr
    next hfrozen =>
      cases herr
      exact ⟨.accountFrozen hlookup hfrozen, trivial⟩
    next =>
      split at herr
      next hclosed =>
        cases herr
        exact ⟨.accountClosed hlookup hclosed, trivial⟩
      next => cases herr

theorem reason_of_checkSnapshots (herr : checkSnapshots input = .error err) : Reason input err := by
  obtain ⟨snapshot, hsnapshot, herr⟩ := List.exists_of_forM_eq_error herr
  obtain hnone | ⟨account, hlookup, herr⟩ := Except.bind_eq_error_iff.mp herr
  · exact (reason_of_account hnone).1
  · rw [PlanInput.account_eq_ok_iff] at hlookup
    dsimp only at herr
    split at herr
    next hstale =>
      cases herr
      exact .accountVersionMismatch hsnapshot hlookup hstale
    next => cases herr

theorem reason_of_checkBook {order : IterationOrder} {consumed : List Posting}
    (herr : checkBook order input consumed = .error err) :
    Reason input err ∧ err.OfParties := by
  unfold checkBook at herr
  split at herr
  next => cases herr
  next book hbook =>
    obtain hassets | ⟨_, _, haccounts⟩ := Except.bind_eq_error_iff.mp herr
    · unfold checkBookAssets at hassets
      split at hassets
      next => cases hassets
      next =>
        obtain ⟨asset, _, hasset⟩ := List.exists_of_forM_eq_error hassets
        split at hasset
        next => cases hasset
        next hnot =>
          cases hasset
          exact ⟨.bookAssetNotAllowed hbook hnot, trivial⟩
    · unfold checkBookAccounts at haccounts
      split at haccounts
      next => cases haccounts
      next =>
        obtain ⟨id, _, hid⟩ := List.exists_of_forM_eq_error haccounts
        obtain hnone | ⟨account, _, hid⟩ := Except.bind_eq_error_iff.mp hid
        · exact reason_of_account hnone
        · dsimp only at hid
          split at hid
          next => cases hid
          next hnot =>
            cases hid
            refine ⟨.bookAccountNotAllowed hbook fun hmem => hnot ?_, trivial⟩
            simp [hmem]

omit [Sha256] in
/-- Conservation overflows, or reports an asset whose exact totals differ. -/
theorem exists_of_checkConservation {order : IterationOrder} {envelope : Envelope}
    {consumed : List Posting} (herr : checkConservation order envelope consumed = .error err) :
    err = .overflow ∨ ∃ asset consumedSum createdSum,
      err = .conservationViolation asset consumedSum createdSum ∧
      keyTotal Posting.asset Posting.value consumed asset ≠
        keyTotal NewPosting.asset NewPosting.value envelope.creates asset := by
  obtain hspent | ⟨spent, hspent, herr⟩ := Except.bind_eq_error_iff.mp herr
  · obtain ⟨_, _, rfl⟩ := Except.mapError_eq_error_iff.mp hspent
    exact .inl rfl
  obtain hmade | ⟨made, hmade, herr⟩ := Except.bind_eq_error_iff.mp herr
  · obtain ⟨_, _, rfl⟩ := Except.mapError_eq_error_iff.mp hmade
    exact .inl rfl
  rw [Except.mapError_eq_ok_iff] at hspent hmade
  obtain ⟨asset, _, herr⟩ := List.exists_of_forM_eq_error herr
  split at herr
  next => cases herr
  next hdiffers =>
    cases herr
    refine .inr ⟨_, _, _, rfl, fun heq => hdiffers ?_⟩
    rw [← val_get_of_assets hspent, ← val_get_of_assets hmade] at heq
    exact Cent.ext heq

theorem reason_of_checkConservation {order : IterationOrder} {consumed : List Posting}
    (hfound : input.Finds consumed)
    (herr : checkConservation order input.envelope consumed = .error err) : Reason input err := by
  obtain rfl | ⟨asset, _, _, rfl, hdiffers⟩ := exists_of_checkConservation herr
  · exact .overflow
  · exact .conservationViolation hfound hdiffers

omit [Sha256] in
/-- The check of negative postings misses an account, or reports a negative posting
whose owner forbids overdraft. -/
theorem exists_of_checkNegativePostings (herr : checkNegativePostings input = .error err) :
    (∃ id, input.account id = .error err) ∨ ∃ posting ∈ input.envelope.creates, ∃ account,
      err = .negativePostingOnNonSystemAccount posting.owner posting.asset posting.value ∧
      posting.value.val < 0 ∧ input.accounts.lookup posting.owner = some account ∧
      account.forbidsOverdraft = true := by
  obtain ⟨posting, hposting, herr⟩ := List.exists_of_forM_eq_error herr
  split at herr
  next hnegative =>
    obtain hnone | ⟨account, hlookup, herr⟩ := Except.bind_eq_error_iff.mp herr
    · exact .inl ⟨_, hnone⟩
    · rw [PlanInput.account_eq_ok_iff] at hlookup
      split at herr
      next hforbids =>
        cases herr
        exact .inr ⟨posting, hposting, account, rfl, Cent.isNegative_iff.mp hnegative, hlookup,
          hforbids⟩
      next => cases herr
  next => cases herr

theorem reason_of_checkNegativePostings (herr : checkNegativePostings input = .error err) :
    Reason input err := by
  obtain ⟨_, hnone⟩ | ⟨posting, hposting, _, rfl, hnegative, hlookup, hforbids⟩ :=
    exists_of_checkNegativePostings herr
  · exact (reason_of_account hnone).1
  · exact .negativePosting hposting hnegative hlookup hforbids

omit [Sha256] in
/-- Each delta is what is created less what is consumed under its key. -/
theorem val_of_balanceDeltas {envelope : Envelope} {consumed : List Posting}
    {deltas : Totals BalanceKey} (hdeltas : balanceDeltas envelope consumed = .ok deltas)
    {key : BalanceKey} {delta : Cent} (hentry : (⟨key, delta⟩ : Σ _ : BalanceKey, Cent) ∈ deltas.entries) :
    delta.val = keyTotal NewPosting.key NewPosting.value envelope.creates key -
      keyTotal Posting.key Posting.value consumed key := by
  obtain ⟨middle, hsub, hadd⟩ := Except.bind_eq_ok_iff.mp hdeltas
  have hvalue := Totals.val_get_of_addAll hadd key
  rw [Totals.val_get_of_subAll hsub, Totals.get_empty, Cent.val_ZERO] at hvalue
  have hget : deltas.get key = delta := by
    rw [Totals.get, HashMap.lookup_eq_some_iff.mpr hentry]
    rfl
  rw [hget] at hvalue
  omega

omit [Sha256] in
theorem mem_balanceDeltas_iff {envelope : Envelope} {consumed : List Posting}
    {deltas : Totals BalanceKey}
    (hdeltas : balanceDeltas envelope consumed = .ok deltas) {key : BalanceKey} :
    key ∈ deltas ↔ key ∈ consumed.map Posting.key ∨ key ∈ envelope.creates.map NewPosting.key := by
  obtain ⟨middle, hsub, hadd⟩ := Except.bind_eq_ok_iff.mp hdeltas
  rw [Totals.mem_of_addAll hadd, Totals.mem_of_subAll hsub, List.mem_map, List.mem_map,
    or_iff_right (AList.notMem_empty key)]

omit [Sha256] in
/-- The overdraft check overflows; or at a balance that the envelope touches it misses
the account, or finds that the account forbids overdraft and would be left below zero. -/
theorem exists_of_checkOverdraft {order : IterationOrder} {consumed : List Posting}
    (herr : checkOverdraft order input consumed = .error err) :
    err = .overflow ∨ ∃ key,
      (key ∈ consumed.map Posting.key ∨ key ∈ input.envelope.creates.map NewPosting.key) ∧
      (input.account key.1 = .error err ∨ ∃ account projected,
        err = .overdraftExceeded key.1 key.2 projected ∧
        input.accounts.lookup key.1 = some account ∧ account.forbidsOverdraft = true ∧
        projected.val = ((input.balances.lookup key).getD .ZERO).val +
          keyTotal NewPosting.key NewPosting.value input.envelope.creates key -
          keyTotal Posting.key Posting.value consumed key ∧ projected.val < 0) := by
  obtain hdeltas | ⟨deltas, hdeltas, herr⟩ := Except.bind_eq_error_iff.mp herr
  · obtain ⟨_, _, rfl⟩ := Except.mapError_eq_error_iff.mp hdeltas
    exact .inl rfl
  rw [Except.mapError_eq_ok_iff] at hdeltas
  obtain ⟨⟨key, delta⟩, hentry, herr⟩ := List.exists_of_forM_eq_error herr
  rw [IterationOrder.mem_arrange] at hentry
  have hmem : key ∈ deltas :=
    HashMap.mem_iff_exists_lookup.mpr ⟨delta, HashMap.lookup_eq_some_iff.mpr hentry⟩
  have htouched := (mem_balanceDeltas_iff hdeltas).mp hmem
  obtain hnone | ⟨account, hlookup, herr⟩ := Except.bind_eq_error_iff.mp herr
  · exact .inr ⟨key, htouched, .inl hnone⟩
  rw [PlanInput.account_eq_ok_iff] at hlookup
  split at herr
  next => cases herr
  next hforbids =>
    obtain hprojected | ⟨projected, hprojected, herr⟩ := Except.bind_eq_error_iff.mp herr
    · obtain ⟨_, _, rfl⟩ := Except.mapError_eq_error_iff.mp hprojected
      exact .inl rfl
    rw [Except.mapError_eq_ok_iff, Cent.checkedAdd_eq_ok_iff, val_of_balanceDeltas hdeltas hentry]
      at hprojected
    split at herr
    next hnegative =>
      cases herr
      refine .inr ⟨key, htouched, .inr ⟨account, projected, rfl, hlookup, by simpa using hforbids,
        ?_, Cent.isNegative_iff.mp hnegative⟩⟩
      rw [hprojected]
      ring
    next => cases herr

theorem reason_of_checkOverdraft {order : IterationOrder} {consumed : List Posting}
    (hfound : input.Finds consumed) (herr : checkOverdraft order input consumed = .error err) :
    Reason input err := by
  obtain rfl | ⟨_, _, hnone | ⟨_, _, rfl, hlookup, hforbids, hprojected, hnegative⟩⟩ :=
    exists_of_checkOverdraft herr
  · exact .overflow
  · exact (reason_of_account hnone).1
  · exact .overdraftExceeded hfound hlookup hforbids hprojected hnegative

/-- The envelope passes the checks that come before the book's. -/
structure PlanInput.ReachesBook (input : PlanInput) : Prop where
  nonEmpty : input.envelope.consumes ≠ [] ∨ input.envelope.creates ≠ []
  nodup : input.envelope.consumes.Nodup
  found : ∃ consumed, input.Finds consumed
  accounts : ∀ id ∈ input.owners, ∃ account,
    input.accounts.lookup id = some account ∧ account.isFrozen = false ∧ account.isClosed = false
  snapshots : ∀ snapshot ∈ input.envelope.accountSnapshots, ∃ account,
    input.accounts.lookup snapshot.account = some account ∧
      snapshot.snapshotId = accountHash account

theorem PlanInput.ReachesBook.validateAndPlan_eq {order : IterationOrder}
    {consumed : List Posting} (hreaches : input.ReachesBook) (hfound : input.Finds consumed) :
    validateAndPlan order input = (do
      checkBook order input consumed
      checkConservation order input.envelope consumed
      checkNegativePostings input
      checkOverdraft order input consumed
      return planOf input.envelope) := by
  rw [validateAndPlan, checkNonEmpty_eq_ok_iff.mpr hreaches.nonEmpty,
    checkNoDuplicates_eq_ok_iff.mpr ⟨hreaches.nodup, by simp⟩, findConsumed_eq_ok_iff.mpr hfound,
    checkAccounts_eq_ok_iff.mpr hreaches.accounts, checkSnapshots_eq_ok_iff.mpr hreaches.snapshots]
  rfl

/-- With the book in order too, validation depends on the amounts only. -/
theorem PlanInput.ReachesBook.validateAndPlan_eq_amounts {order : IterationOrder}
    {consumed : List Posting} (hreaches : input.ReachesBook) (hfound : input.Finds consumed)
    (hbook : checkBook order input consumed = .ok ()) : validateAndPlan order input = (do
      checkConservation order input.envelope consumed
      checkNegativePostings input
      checkOverdraft order input consumed
      return planOf input.envelope) := by
  rw [hreaches.validateAndPlan_eq hfound, hbook]
  rfl

/-- Validation reports an error only with its reason. -/
theorem reason_of_validateAndPlan {order : IterationOrder}
    (herr : validateAndPlan order input = .error err) : Reason input err := by
  unfold validateAndPlan at herr
  obtain herr | ⟨_, _, herr⟩ := Except.bind_eq_error_iff.mp herr
  · exact reason_of_checkNonEmpty herr
  obtain herr | ⟨_, _, herr⟩ := Except.bind_eq_error_iff.mp herr
  · exact reason_of_checkNoDuplicates herr
  obtain herr | ⟨consumed, hfound, herr⟩ := Except.bind_eq_error_iff.mp herr
  · exact reason_of_findConsumed herr
  rw [findConsumed_eq_ok_iff] at hfound
  obtain herr | ⟨_, _, herr⟩ := Except.bind_eq_error_iff.mp herr
  · exact (reason_of_checkAccounts herr).1
  obtain herr | ⟨_, _, herr⟩ := Except.bind_eq_error_iff.mp herr
  · exact reason_of_checkSnapshots herr
  obtain herr | ⟨_, _, herr⟩ := Except.bind_eq_error_iff.mp herr
  · exact (reason_of_checkBook herr).1
  obtain herr | ⟨_, _, herr⟩ := Except.bind_eq_error_iff.mp herr
  · exact reason_of_checkConservation hfound herr
  obtain herr | ⟨_, _, herr⟩ := Except.bind_eq_error_iff.mp herr
  · exact reason_of_checkNegativePostings herr
  obtain herr | ⟨_, _, herr⟩ := Except.bind_eq_error_iff.mp herr
  · exact reason_of_checkOverdraft hfound herr
  · cases herr

end Errors

end Kuatia
