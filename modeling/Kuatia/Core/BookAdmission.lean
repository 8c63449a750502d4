import Kuatia.Core.Specification

/-! # Who may take part under a book

A book that restricts accounts lists accounts and flags. The check looks up the
base account of every owner, so an owner that is listed itself, under a
subaccount of its own, has to come in by its base account or by its flags.
-/

namespace Kuatia

variable [MoneyWidth]

/-- Such a book turns away the accounts that it neither lists nor flags. -/
def BookPolicy.RestrictsAccounts (policy : BookPolicy) : Prop :=
  ¬(policy.allowedAccounts = [] ∧ policy.allowedFlags.isEmpty)

/-- The book has no list of assets, or lists those of every posting of the envelope. -/
def PlanInput.AssetsAllowed (input : PlanInput) (policy : BookPolicy) : Prop :=
  policy.allowedAssets = [] ∨
    ∀ asset ∈ input.consumedPostings.map (·.asset) ++ input.envelope.creates.map (·.asset),
      asset ∈ policy.allowedAssets

def PlanInput.Flagged (input : PlanInput) (policy : BookPolicy) (id : AccountId) : Prop :=
  ∃ account, input.accounts.lookup id = some account ∧
    account.flags.intersects policy.allowedFlags

/-- The account is listed itself, or by its base account, or carries one of the flags. -/
def PlanInput.Admitted (input : PlanInput) (policy : BookPolicy) (id : AccountId) : Prop :=
  id ∈ policy.allowedAccounts ∨ id.base ∈ policy.allowedAccounts ∨ input.Flagged policy id

/-- The account comes in by its base account or by its flags. -/
def PlanInput.InScope (input : PlanInput) (policy : BookPolicy) (id : AccountId) : Prop :=
  id.base ∈ policy.allowedAccounts ∨ input.Flagged policy id

section Admission

variable {order : IterationOrder} {input : PlanInput} {consumed : List Posting} {book : Book}

/-! ## What the check of the book decides -/

theorem checkBookAccounts_eq_ok_iff_inScope (hrestricts : book.policy.RestrictsAccounts)
    (hloaded : ∀ id ∈ input.owners, ∃ account, input.accounts.lookup id = some account) :
    checkBookAccounts input book = .ok () ↔ ∀ id ∈ input.owners, input.InScope book.policy id := by
  rw [checkBookAccounts_eq_ok_iff, or_iff_right hrestricts]
  refine forall₂_congr fun id hid => ⟨?_, ?_⟩
  · rintro ⟨account, hlookup, hbase | hflags⟩
    · exact .inl hbase
    · exact .inr ⟨account, hlookup, hflags⟩
  · rintro (hbase | ⟨account, hlookup, hflags⟩)
    · obtain ⟨account, hlookup⟩ := hloaded id hid
      exact ⟨account, hlookup, .inl hbase⟩
    · exact ⟨account, hlookup, .inr hflags⟩

/-- With every owner loaded, the check of the accounts has one error to give. -/
theorem bookAccountNotAllowed_of_checkBookAccounts {err : ValidationError}
    (hloaded : ∀ id ∈ input.owners, ∃ account, input.accounts.lookup id = some account)
    (herr : checkBookAccounts input book = .error err) :
    ∃ id, err = .bookAccountNotAllowed book.id id := by
  unfold checkBookAccounts at herr
  split at herr
  next => cases herr
  next =>
    obtain ⟨id, hid, herr⟩ := List.exists_of_forM_eq_error herr
    obtain ⟨account, hlookup⟩ := hloaded id hid
    rw [PlanInput.account_eq_ok_iff.mpr hlookup] at herr
    change (if _ then _ else _) = _ at herr
    split at herr
    next => cases herr
    next =>
      cases herr
      exact ⟨id, rfl⟩

theorem checkBookAssets_of_assetsAllowed (hassets : input.AssetsAllowed book.policy)
    (hfound : input.Finds consumed) :
    checkBookAssets order input.envelope consumed book = .ok () := by
  refine checkBookAssets_eq_ok_iff.mpr (hassets.imp_right fun hall asset hasset => ?_)
  refine hall asset ?_
  rw [List.mem_append] at hasset ⊢
  refine hasset.imp_left fun hconsumed => ?_
  obtain ⟨posting, hposting, rfl⟩ := List.mem_map.mp hconsumed
  obtain ⟨pid, -, hlookup⟩ := hfound.exists_of_mem_right hposting
  obtain ⟨hmem, -⟩ | ⟨hnone, -⟩ := HashMap.lookup_insertAll_cases hlookup
  · exact List.mem_map_of_mem hmem
  · cases hnone

/-! ## When validation gets as far as the book -/

variable [Sha256]

/-- The other checks never look at the book, so none of them turns down an account
on its behalf. -/
theorem not_reason_withoutBook (input : PlanInput) {scope : BookId} {id : AccountId}
    (hreason : Reason { input with book := none } (.bookAccountNotAllowed scope id)) : False := by
  rcases hreason with ⟨⟩
  next hbook _ => cases hbook

/-- When validation turns down an account, every earlier check has passed and it is the
book's that fails. -/
theorem exists_of_bookAccountNotAllowed {scope : BookId} {id : AccountId}
    (herr : validateAndPlan order input = .error (.bookAccountNotAllowed scope id)) :
    input.ReachesBook ∧ ∃ consumed, input.Finds consumed ∧
      checkBook order input consumed = .error (.bookAccountNotAllowed scope id) := by
  unfold validateAndPlan at herr
  -- an error of any other check would be one without a book as well
  obtain herr | ⟨_, hnonEmpty, herr⟩ := Except.bind_eq_error_iff.mp herr
  · exact (not_reason_withoutBook input (reason_of_checkNonEmpty herr)).elim
  obtain herr | ⟨_, hnodup, herr⟩ := Except.bind_eq_error_iff.mp herr
  · exact (not_reason_withoutBook input (reason_of_checkNoDuplicates herr)).elim
  obtain herr | ⟨consumed, hfound, herr⟩ := Except.bind_eq_error_iff.mp herr
  · exact (not_reason_withoutBook input (reason_of_findConsumed herr)).elim
  rw [findConsumed_eq_ok_iff] at hfound
  obtain herr | ⟨_, haccounts, herr⟩ := Except.bind_eq_error_iff.mp herr
  · obtain ⟨hreason, _⟩ : Reason { input with book := none } _ ∧ _ := reason_of_checkAccounts herr
    exact (not_reason_withoutBook input hreason).elim
  obtain herr | ⟨_, hsnapshots, herr⟩ := Except.bind_eq_error_iff.mp herr
  · exact (not_reason_withoutBook input (reason_of_checkSnapshots herr)).elim
  have hreaches : input.ReachesBook :=
    { nonEmpty := checkNonEmpty_eq_ok_iff.mp hnonEmpty
      nodup := (checkNoDuplicates_eq_ok_iff.mp hnodup).1
      found := ⟨consumed, hfound⟩
      accounts := checkAccounts_eq_ok_iff.mp haccounts
      snapshots := checkSnapshots_eq_ok_iff.mp hsnapshots }
  obtain herr | ⟨_, -, herr⟩ := Except.bind_eq_error_iff.mp herr
  · exact ⟨hreaches, consumed, hfound, herr⟩
  obtain herr | ⟨_, -, herr⟩ := Except.bind_eq_error_iff.mp herr
  · exact (not_reason_withoutBook input (reason_of_checkConservation hfound herr)).elim
  obtain herr | ⟨_, -, herr⟩ := Except.bind_eq_error_iff.mp herr
  · exact (not_reason_withoutBook input (reason_of_checkNegativePostings herr)).elim
  obtain herr | ⟨_, -, herr⟩ := Except.bind_eq_error_iff.mp herr
  · exact (not_reason_withoutBook input (reason_of_checkOverdraft hfound herr)).elim
  · cases herr

/-- Validation turns down an account exactly when it gets as far as the book and some
owner is out of the book's scope. -/
theorem bookAccountNotAllowed_iff (hbook : input.book = some book)
    (hrestricts : book.policy.RestrictsAccounts) (hassets : input.AssetsAllowed book.policy) :
    (∃ scope id, validateAndPlan order input = .error (.bookAccountNotAllowed scope id)) ↔
      input.ReachesBook ∧ ∃ id ∈ input.owners, ¬input.InScope book.policy id := by
  have hcheck : ∀ {consumed}, input.Finds consumed →
      checkBook order input consumed = checkBookAccounts input book := by
    intro consumed hfound
    rw [checkBook, hbook]
    dsimp only
    rw [checkBookAssets_of_assetsAllowed hassets hfound]
    rfl
  constructor
  · rintro ⟨scope, id, herr⟩
    obtain ⟨hreaches, consumed, hfound, herr⟩ := exists_of_bookAccountNotAllowed herr
    refine ⟨hreaches, ?_⟩
    by_contra! hscope
    have hloaded := fun id hid => (hreaches.accounts id hid).imp fun _ haccount => haccount.1
    rw [hcheck hfound, (checkBookAccounts_eq_ok_iff_inScope hrestricts hloaded).mpr hscope] at herr
    cases herr
  · rintro ⟨hreaches, id, hid, hscope⟩
    obtain ⟨consumed, hfound⟩ := hreaches.found
    have hloaded := fun id hid => (hreaches.accounts id hid).imp fun _ haccount => haccount.1
    cases haccounts : checkBookAccounts input book with
    | ok =>
        rw [checkBookAccounts_eq_ok_iff_inScope hrestricts hloaded] at haccounts
        exact absurd (haccounts id hid) hscope
    | error err =>
        obtain ⟨id, rfl⟩ := bookAccountNotAllowed_of_checkBookAccounts hloaded haccounts
        refine ⟨book.id, id, ?_⟩
        rw [hreaches.validateAndPlan_eq hfound, hcheck hfound, haccounts]
        rfl

/-- An accepted envelope has all its owners in the scope of the book. -/
theorem inScope_of_validateAndPlan {plan : Plan} (hbook : input.book = some book)
    (hrestricts : book.policy.RestrictsAccounts)
    (hplan : validateAndPlan order input = .ok plan) {id : AccountId} (hid : id ∈ input.owners) :
    input.InScope book.policy id := by
  obtain ⟨⟨consumed, hchecked⟩, -⟩ := validateAndPlan_eq_ok_iff.mp hplan
  have haccounts := (checkBook_eq_ok_iff.mp hchecked.book book hbook).2
  rw [checkBookAccounts_eq_ok_iff_inScope hrestricts
    fun id hid => (hchecked.accounts id hid).imp fun _ haccount => haccount.1] at haccounts
  exact haccounts id hid

/-- The book's account policy admits what it lists, and nothing else, unless the envelope
gets as far as the book with all its owners admitted and one of them only by being
listed itself. -/
theorem validateAndPlan_admits_iff (order : IterationOrder) (input : PlanInput) (book : Book)
    (hbook : input.book = some book) (hrestricts : book.policy.RestrictsAccounts)
    (hassets : input.AssetsAllowed book.policy) :
    (((∀ id ∈ input.owners, input.Admitted book.policy id) → ∀ scope id,
        validateAndPlan order input ≠ .error (.bookAccountNotAllowed scope id)) ∧
      ((∃ id ∈ input.owners, ¬input.Admitted book.policy id) →
        ∃ err, validateAndPlan order input = .error err)) ↔
      ¬input.ReachesBook ∨ (∃ id ∈ input.owners, ¬input.Admitted book.policy id) ∨
        ∀ id ∈ input.owners, id ∈ book.policy.allowedAccounts → input.InScope book.policy id := by
  have hrejects : (∃ id ∈ input.owners, ¬input.Admitted book.policy id) →
      ∃ err, validateAndPlan order input = .error err := by
    rintro ⟨id, hid, hout⟩
    cases hplan : validateAndPlan order input with
    | error err => exact ⟨err, rfl⟩
    | ok plan => exact absurd (.inr (inScope_of_validateAndPlan hbook hrestricts hplan hid)) hout
  rw [and_iff_left hrejects]
  constructor
  · intro hadmits
    by_contra! hnot
    obtain ⟨hreaches, hadmitted, id, hid, -, hscope⟩ := hnot
    obtain ⟨scope, owner, herr⟩ :=
      (bookAccountNotAllowed_iff hbook hrestricts hassets).mpr ⟨hreaches, id, hid, hscope⟩
    exact hadmits hadmitted scope owner herr
  · intro hcond hadmitted scope owner herr
    obtain ⟨hreaches, id, hid, hscope⟩ :=
      (bookAccountNotAllowed_iff hbook hrestricts hassets).mp ⟨scope, owner, herr⟩
    rcases hcond with hnot | ⟨id, hid, hout⟩ | hlisted
    · exact hnot hreaches
    · exact hout (hadmitted id hid)
    · -- In scope as soon as it is admitted: a listing of its own is all that could miss.
      exact hscope ((hadmitted id hid).elim (hlisted id hid) fun hin => hin)

end Admission

end Kuatia

namespace Kuatia.Sample

/-- A till of bob's, as a subaccount. -/
def till : AccountId := ⟨bob.id, 4⟩

/-- Alice pays into the till, under a book that lists alice and the till. -/
def tillPayment : PlanInput where
  envelope :=
    { consumes := [⟨transferOf 1, 0⟩]
      creates := [⟨alice, usd, .ofI64 2, none⟩, ⟨till, usd, .ofI64 3, none⟩]
      accountSnapshots := []
      book := DEFAULT_BOOK
      metadata := .empty }
  consumedPostings := [postingOf 1 0 alice 5]
  accounts := HashMap.insertAll ∅ (·.id) [.debitMustNotExceedCredit alice, .new till]
  balances := (∅ : HashMap BalanceKey Cent).insert (alice, usd) (.ofI64 5)
  book := some ⟨DEFAULT_BOOK, "till", ⟨[usd], .empty, [alice, till]⟩⟩

end Kuatia.Sample

namespace Kuatia

open Sample in
theorem validateAndPlan_admits_payment :
    ((∀ id ∈ payment.owners, payment.Admitted ⟨[usd], .empty, [alice.base, bob.base]⟩ id) →
        ∀ scope id,
          validateAndPlan .listed payment ≠ .error (.bookAccountNotAllowed scope id)) ∧
      ((∃ id ∈ payment.owners, ¬payment.Admitted ⟨[usd], .empty, [alice.base, bob.base]⟩ id) →
        ∃ err, validateAndPlan .listed payment = .error err) := by
  refine (validateAndPlan_admits_iff .listed payment _ rfl ?_ ?_).mpr (.inr (.inr ?_))
  · exact fun hnone => List.cons_ne_nil _ _ hnone.1
  · exact .inr (by decide)
  · have hbase : ∀ id ∈ payment.owners, id.base ∈ [alice.base, bob.base] := by decide
    exact fun id hid _ => .inl (hbase id hid)

open Sample in
/-- The till is listed and turned down all the same. -/
theorem listed_owner_rejected :
    ∃ book, tillPayment.book = some book ∧ book.policy.RestrictsAccounts ∧
      tillPayment.AssetsAllowed book.policy ∧
      (∀ id ∈ tillPayment.owners, id ∈ book.policy.allowedAccounts) ∧
      validateAndPlan .listed tillPayment = .error (.bookAccountNotAllowed book.id till) := by
  refine ⟨_, rfl, fun hnone => List.cons_ne_nil _ _ hnone.1, .inr ?_, ?_, ?_⟩
  · decide
  · decide
  · decide +kernel

end Kuatia
