import Kuatia.Core.ValidateLaws
import Kuatia.Ledger.Sample

/-! # What validation decides

`PlanInput.Conforms` says what a good envelope is, by exact sums over the
postings and without any of the maps and loops of validation. Validation
accepts the envelopes that conform and no others, as long as none of its sums
leaves the range of a `Cent`.
-/

namespace Kuatia

variable [MoneyWidth]

open MoneyWidth (backing)

/-! ## The checks that read a book or a balance -/

section Checks

variable {order : IterationOrder} {input : PlanInput} {consumed : List Posting} {book : Book}

theorem PlanInput.mem_owners_iff {id : AccountId} :
    id ∈ input.owners ↔
      id ∈ input.envelope.creates.map (·.owner) ∨ id ∈ input.consumedPostings.map (·.owner) := by
  rw [PlanInput.owners, postingKeys, List.mem_sortDedup, List.mem_append]

theorem checkBookAssets_eq_ok_iff {envelope : Envelope} :
    checkBookAssets order envelope consumed book = .ok () ↔
      book.policy.allowedAssets = [] ∨
        ∀ asset ∈ consumed.map (·.asset) ++ envelope.creates.map (·.asset),
          asset ∈ book.policy.allowedAssets := by
  unfold checkBookAssets
  split
  next hnone => simp [hnone]
  next hsome =>
    rw [or_iff_right hsome]
    refine List.forM_eq_ok_iff.trans ?_
    simp only [IterationOrder.mem_arrange, List.mem_dedup]
    refine forall₂_congr fun asset _ => ?_
    by_cases hasset : asset ∈ book.policy.allowedAssets <;> simp [hasset]

omit [MoneyWidth] in
/-- Sharing a flag needs a flag to share, so the flags need no test of their own. -/
theorem AccountFlags.intersects_of_isEmpty {flags other : AccountFlags} (hempty : other.isEmpty) :
    flags.intersects other = false := by
  simp only [isEmpty, beq_iff_eq] at hempty
  simp [intersects, hempty]

theorem checkBookAccounts_eq_ok_iff :
    checkBookAccounts input book = .ok () ↔
      (book.policy.allowedAccounts = [] ∧ book.policy.allowedFlags.isEmpty) ∨
        ∀ id ∈ input.owners, ∃ account, input.accounts.lookup id = some account ∧
          (id.base ∈ book.policy.allowedAccounts ∨
            account.flags.intersects book.policy.allowedFlags) := by
  unfold checkBookAccounts
  split
  next hnone => simp [hnone]
  next hsome =>
    rw [or_iff_right hsome]
    refine List.forM_eq_ok_iff.trans (forall₂_congr fun id _ => ?_)
    simp only [Except.bind_eq_ok_iff, PlanInput.account_eq_ok_iff]
    refine exists_congr fun account => and_congr_right fun _ => ?_
    by_cases hlisted : id.base ∈ book.policy.allowedAccounts
    · simp [hlisted]
    · cases hempty : book.policy.allowedFlags.isEmpty with
      | true => simp [hlisted, AccountFlags.intersects_of_isEmpty hempty]
      | false =>
          cases account.flags.intersects book.policy.allowedFlags <;> simp [hlisted]

theorem checkBook_eq_ok_iff :
    checkBook order input consumed = .ok () ↔ ∀ book, input.book = some book →
      checkBookAssets order input.envelope consumed book = .ok () ∧
        checkBookAccounts input book = .ok () := by
  unfold checkBook
  cases input.book with
  | none => simp
  | some book =>
      simp only [Except.bind_eq_ok_iff, Option.some.injEq, forall_eq']
      exact ⟨fun ⟨_, hassets, haccounts⟩ => ⟨hassets, haccounts⟩,
        fun ⟨hassets, haccounts⟩ => ⟨(), hassets, haccounts⟩⟩

/-- The balance that the envelope would leave under a key, as an exact sum. -/
def PlanInput.projected (input : PlanInput) (consumed : List Posting) (key : BalanceKey) : Int :=
  ((input.balances.lookup key).getD .ZERO).val +
    (keyTotal NewPosting.key NewPosting.value input.envelope.creates key -
      keyTotal Posting.key Posting.value consumed key)

/-- What the check does at one balance, once the account is loaded. -/
theorem checkFloor_eq_ok_iff {deltas : Totals BalanceKey} {key : BalanceKey} {delta : Cent}
    {account : Account} (hdeltas : balanceDeltas input.envelope consumed = .ok deltas)
    (hentry : (⟨key, delta⟩ : Σ _ : BalanceKey, Cent) ∈ deltas.entries) :
    (if !account.forbidsOverdraft then .ok ()
      else do
        let projected ← (((input.balances.lookup key).getD .ZERO).checkedAdd delta).mapError
          ValidationError.ofOverflow
        if projected.isNegative then .error (.overdraftExceeded key.1 key.2 projected)
        else .ok () : Except ValidationError Unit) = .ok () ↔
      (account.forbidsOverdraft = true →
        Cent.Holds (input.projected consumed key) ∧ 0 ≤ input.projected consumed key) := by
  have hsum : ((input.balances.lookup key).getD .ZERO).val + delta.val =
      input.projected consumed key := by
    rw [val_of_balanceDeltas hdeltas hentry, PlanInput.projected]
  cases account.forbidsOverdraft with
  | false => simp
  | true =>
      simp only [Bool.not_true, Bool.false_eq_true, if_false, true_implies, Except.bind_eq_ok_iff,
        Except.mapError_eq_ok_iff, Cent.checkedAdd_eq_ok_iff, hsum]
      constructor
      · rintro ⟨projected, hprojected, hcheck⟩
        split at hcheck
        next => cases hcheck
        next hnegative =>
          rw [← hprojected]
          exact ⟨⟨projected.min_le, projected.le_max⟩, by simpa using hnegative⟩
      · rintro ⟨hholds, hnonneg⟩
        refine ⟨⟨_, hholds.1, hholds.2⟩, rfl, ?_⟩
        rw [if_neg (by simpa using hnonneg)]

/-- The check looks at every balance that the envelope touches, and each time at
the exact sum. -/
theorem checkOverdraft_eq_ok_iff :
    checkOverdraft order input consumed = .ok () ↔
      (∃ deltas, balanceDeltas input.envelope consumed = .ok deltas) ∧
      ∀ key, key ∈ consumed.map Posting.key ∨ key ∈ input.envelope.creates.map NewPosting.key →
        ∃ account, input.accounts.lookup key.1 = some account ∧
          (account.forbidsOverdraft = true →
            Cent.Holds (input.projected consumed key) ∧ 0 ≤ input.projected consumed key) := by
  simp only [checkOverdraft, Except.bind_eq_ok_iff, Except.mapError_eq_ok_iff, List.forM_eq_ok_iff,
    IterationOrder.mem_arrange, PlanInput.account_eq_ok_iff]
  constructor
  · rintro ⟨deltas, hdeltas, hall⟩
    refine ⟨⟨deltas, hdeltas⟩, fun key hkey => ?_⟩
    obtain ⟨delta, hlookup⟩ :=
      HashMap.mem_iff_exists_lookup.mp ((mem_balanceDeltas_iff hdeltas).mpr hkey)
    have hentry := HashMap.lookup_eq_some_iff.mp hlookup
    obtain ⟨account, haccount, hcheck⟩ := hall _ hentry
    exact ⟨account, haccount, (checkFloor_eq_ok_iff hdeltas hentry).mp hcheck⟩
  · rintro ⟨⟨deltas, hdeltas⟩, hall⟩
    refine ⟨deltas, hdeltas, ?_⟩
    rintro ⟨key, delta⟩ hentry
    have hkey : key ∈ deltas :=
      HashMap.mem_iff_exists_lookup.mpr ⟨delta, HashMap.lookup_eq_some_iff.mpr hentry⟩
    obtain ⟨account, haccount, hfloor⟩ := hall key ((mem_balanceDeltas_iff hdeltas).mp hkey)
    exact ⟨account, haccount, (checkFloor_eq_ok_iff hdeltas hentry).mpr hfloor⟩

end Checks

/-! ## The specification -/

variable [Sha256]

/-- What a good envelope is. The consumed postings are those that were found;
the sums are exact. -/
structure PlanInput.Conforms (input : PlanInput) : Prop where
  nonEmpty : input.envelope.consumes ≠ [] ∨ input.envelope.creates ≠ []
  nodup : input.envelope.consumes.Nodup
  found : ∀ pid ∈ input.envelope.consumes, ∃ posting ∈ input.consumedPostings, posting.id = pid
  owners : ∀ owner ∈ input.envelope.creates.map (·.owner) ++ input.consumedPostings.map (·.owner),
    ∃ account, input.accounts.lookup owner = some account ∧
      account.isFrozen = false ∧ account.isClosed = false
  snapshots : ∀ snapshot ∈ input.envelope.accountSnapshots, ∃ account,
    input.accounts.lookup snapshot.account = some account ∧
      snapshot.snapshotId = accountHash account
  bookAssets : ∀ book, input.book = some book → book.policy.allowedAssets = [] ∨
    ∀ asset ∈ input.envelope.creates.map (·.asset) ++ input.consumedPostings.map (·.asset),
      asset ∈ book.policy.allowedAssets
  bookAccounts : ∀ book, input.book = some book →
    (book.policy.allowedAccounts = [] ∧ book.policy.allowedFlags.isEmpty) ∨
    ∀ owner ∈ input.envelope.creates.map (·.owner) ++ input.consumedPostings.map (·.owner),
      owner.base ∈ book.policy.allowedAccounts ∨
        ∃ account, input.accounts.lookup owner = some account ∧
          account.flags.intersects book.policy.allowedFlags
  conserved : ∀ asset, keyTotal Posting.asset Posting.value input.consumedPostings asset =
    keyTotal NewPosting.asset NewPosting.value input.envelope.creates asset
  negatives : ∀ posting ∈ input.envelope.creates, posting.value.val < 0 → ∀ account,
    input.accounts.lookup posting.owner = some account → account.forbidsOverdraft = false
  floors : ∀ key ∈ input.envelope.creates.map (·.key) ++ input.consumedPostings.map (·.key),
    ∀ account, input.accounts.lookup key.1 = some account → account.forbidsOverdraft = true →
      0 ≤ input.projected input.consumedPostings key

/-- The found postings in the order in which the envelope consumes them. -/
def PlanInput.spent (input : PlanInput) : List Posting :=
  input.envelope.consumes.filterMap (consumedById input.consumedPostings).lookup

/-- No sum of validation leaves the range of a `Cent`: neither what is consumed
or created so far of an asset or under a balance, nor a projected balance. -/
structure PlanInput.SumsHeld (input : PlanInput) : Prop where
  consumed : ∀ n asset, Cent.Holds (keyTotal Posting.asset Posting.value (input.spent.take n) asset)
  created : ∀ n asset,
    Cent.Holds (keyTotal NewPosting.asset NewPosting.value (input.envelope.creates.take n) asset)
  leaving : ∀ n key, Cent.Holds (-keyTotal Posting.key Posting.value (input.spent.take n) key)
  arriving : ∀ n key, Cent.Holds
    (keyTotal NewPosting.key NewPosting.value (input.envelope.creates.take n) key -
      keyTotal Posting.key Posting.value input.spent key)
  projected : ∀ key account, input.accounts.lookup key.1 = some account →
    account.forbidsOverdraft = true → Cent.Holds (input.projected input.spent key)

section Decides

variable {order : IterationOrder} {input : PlanInput}

omit [Sha256] in
/-- Room for the absolute values of all amounts is more than the sums need. -/
theorem PlanInput.sumsHeld_of_room
    (hroom : ∀ key, |((input.balances.lookup key).getD .ZERO).val| +
      Cent.magnitude (input.spent.map Posting.value) +
      Cent.magnitude (input.envelope.creates.map NewPosting.value) ≤ Backing.max backing) :
    input.SumsHeld := by
  have htotal : Cent.magnitude (input.spent.map Posting.value) +
      Cent.magnitude (input.envelope.creates.map NewPosting.value) ≤ Backing.max backing := by
    have hcurrent := abs_nonneg ((input.balances.lookup (⟨0, 0⟩, ⟨0⟩)).getD .ZERO).val
    have hbalance := hroom (⟨0, 0⟩, ⟨0⟩)
    omega
  have hspent := Cent.magnitude_nonneg (input.spent.map Posting.value)
  have hcreated := Cent.magnitude_nonneg (input.envelope.creates.map NewPosting.value)
  have hleft : ∀ key : BalanceKey, |keyTotal Posting.key Posting.value input.spent key| ≤
      Cent.magnitude (input.spent.map Posting.value) := fun key => abs_keyTotal_le
  refine ⟨fun n asset => Cent.holds_of_abs_le ((abs_keyTotal_take_le n asset).trans (by omega)),
    fun n asset => Cent.holds_of_abs_le ((abs_keyTotal_take_le n asset).trans (by omega)),
    fun n key => Cent.holds_of_abs_le ?_, fun n key => Cent.holds_of_abs_le ?_,
    fun key account _ _ => Cent.holds_of_abs_le ?_⟩
  · rw [abs_neg]
    exact (abs_keyTotal_take_le n key).trans (by omega)
  · have harrived : |keyTotal NewPosting.key NewPosting.value (input.envelope.creates.take n) key| ≤
        Cent.magnitude (input.envelope.creates.map NewPosting.value) := abs_keyTotal_take_le n key
    have hgone := hleft key
    exact (abs_sub _ _).trans (by omega)
  · have harrived : |keyTotal NewPosting.key NewPosting.value input.envelope.creates key| ≤
        Cent.magnitude (input.envelope.creates.map NewPosting.value) := abs_keyTotal_le
    have hgone := hleft key
    have hbalance := hroom key
    rw [PlanInput.projected]
    refine (abs_add_le _ _).trans ((Int.add_le_add_left (abs_sub _ _) _).trans ?_)
    omega

/-! ## Validation decides it -/

omit [Sha256] in
theorem PlanInput.lookup_consumedById_iff (hdistinct : (input.consumedPostings.map (·.id)).Nodup)
    {pid : PostingId} {posting : Posting} :
    (consumedById input.consumedPostings).lookup pid = some posting ↔
      posting ∈ input.consumedPostings ∧ posting.id = pid := by
  constructor
  · intro hlookup
    rcases HashMap.lookup_insertAll_cases hlookup with hfound | ⟨hempty, _⟩
    · exact hfound
    · cases hempty
  · rintro ⟨hmem, rfl⟩
    exact HashMap.lookup_insertAll_of_mem hdistinct hmem

omit [Sha256] in
theorem PlanInput.finds_spent (hdistinct : (input.consumedPostings.map (·.id)).Nodup)
    (hfound : ∀ pid ∈ input.envelope.consumes, ∃ posting ∈ input.consumedPostings,
      posting.id = pid) : input.Finds input.spent := by
  refine HashMap.forall₂_filterMap_lookup fun pid hpid => HashMap.mem_iff_exists_lookup.mpr ?_
  obtain ⟨posting, hposting⟩ := hfound pid hpid
  exact ⟨posting, (PlanInput.lookup_consumedById_iff hdistinct).mpr hposting⟩

omit [Sha256] in
/-- Looking the consumed ids up again finds each posting once. -/
theorem PlanInput.spent_perm (hdistinct : (input.consumedPostings.map (·.id)).Nodup)
    (hsought : ∀ posting ∈ input.consumedPostings, posting.id ∈ input.envelope.consumes)
    (hnodup : input.envelope.consumes.Nodup) : input.spent.Perm input.consumedPostings := by
  have hspent : input.spent.Nodup := by
    refine hnodup.filterMap fun pid other posting hposting hother => ?_
    rw [Option.mem_def, PlanInput.lookup_consumedById_iff hdistinct] at hposting hother
    exact hposting.2.symm.trans hother.2
  refine (List.perm_ext_iff_of_nodup hspent (.of_map _ hdistinct)).mpr fun posting => ?_
  simp only [PlanInput.spent, List.mem_filterMap, PlanInput.lookup_consumedById_iff hdistinct]
  exact ⟨fun ⟨_, _, hmem, _⟩ => hmem, fun hmem => ⟨posting.id, hsought posting hmem, hmem, rfl⟩⟩

omit [Sha256] in
theorem PlanInput.projected_perm {consumed other : List Posting} (hperm : consumed.Perm other)
    (key : BalanceKey) : input.projected consumed key = input.projected other key := by
  rw [PlanInput.projected, PlanInput.projected, keyTotal_perm hperm]

omit [Sha256] in
theorem PlanInput.SumsHeld.exists_balanceDeltas (hsums : input.SumsHeld) :
    ∃ deltas, balanceDeltas input.envelope input.spent = .ok deltas := by
  have hleaving : ∃ totals, Totals.subAll ∅ Posting.key Posting.value input.spent = .ok totals :=
    Totals.exists_subAll_of_holds fun n key => by simpa using hsums.leaving n key
  obtain ⟨middle, hsub⟩ := hleaving
  have harriving : ∃ totals,
      middle.addAll NewPosting.key NewPosting.value input.envelope.creates = .ok totals := by
    refine Totals.exists_addAll_of_holds fun n key => ?_
    rw [Totals.val_get_of_subAll hsub, Totals.get_empty, Cent.val_ZERO]
    simpa [neg_add_eq_sub] using hsums.arriving n key
  obtain ⟨deltas, hadd⟩ := harriving
  exact ⟨deltas, Except.bind_eq_ok_iff.mpr ⟨middle, hsub, hadd⟩⟩

/-- What conforms passes every check, provided that the sums fit. -/
theorem PlanInput.Conforms.checked (hconforms : input.Conforms)
    (hdistinct : (input.consumedPostings.map (·.id)).Nodup)
    (hsought : ∀ posting ∈ input.consumedPostings, posting.id ∈ input.envelope.consumes)
    (hsums : input.SumsHeld) : Checked order input input.spent := by
  have hperm := PlanInput.spent_perm hdistinct hsought hconforms.nodup
  have howners : ∀ id ∈ input.owners, id ∈ input.envelope.creates.map (·.owner) ++
      input.consumedPostings.map (·.owner) := fun id hid =>
    List.mem_append.mpr (PlanInput.mem_owners_iff.mp hid)
  refine ⟨hconforms.nonEmpty, hconforms.nodup, PlanInput.finds_spent hdistinct hconforms.found,
    fun id hid => hconforms.owners id (howners id hid), hconforms.snapshots, ?_, ?_, ?_, ?_⟩
  · refine checkBook_eq_ok_iff.mpr fun book hbook => ⟨?_, ?_⟩
    · refine checkBookAssets_eq_ok_iff.mpr ((hconforms.bookAssets book hbook).imp_right ?_)
      intro hlisted asset hasset
      rw [List.mem_append, (hperm.map _).mem_iff, or_comm] at hasset
      exact hlisted asset (List.mem_append.mpr hasset)
    · refine checkBookAccounts_eq_ok_iff.mpr ((hconforms.bookAccounts book hbook).imp_right ?_)
      intro hlisted id hid
      obtain ⟨account, hlookup, _⟩ := hconforms.owners id (howners id hid)
      refine ⟨account, hlookup, (hlisted id (howners id hid)).imp_right ?_⟩
      rintro ⟨other, hother, hshared⟩
      cases hlookup.symm.trans hother
      exact hshared
  · refine checkConservation_eq_ok_iff.mpr ⟨?_, ?_, fun asset => ?_⟩
    · exact Totals.exists_addAll_of_holds fun n asset => by simpa using hsums.consumed n asset
    · exact Totals.exists_addAll_of_holds fun n asset => by simpa using hsums.created n asset
    · rw [keyTotal_perm hperm]
      exact hconforms.conserved asset
  · intro posting hposting hnegative
    obtain ⟨account, hlookup, _⟩ := hconforms.owners posting.owner
      (List.mem_append_left _ (List.mem_map_of_mem hposting))
    exact ⟨account, hlookup, hconforms.negatives posting hposting hnegative account hlookup⟩
  · refine checkOverdraft_eq_ok_iff.mpr ⟨hsums.exists_balanceDeltas, fun key hkey => ?_⟩
    rw [(hperm.map _).mem_iff, or_comm, ← List.mem_append] at hkey
    have howner : key.1 ∈ input.envelope.creates.map (·.owner) ++
        input.consumedPostings.map (·.owner) := by
      have hfst := List.mem_map_of_mem (f := Prod.fst) hkey
      rw [List.map_append, List.map_map, List.map_map] at hfst
      exact hfst
    obtain ⟨account, hlookup, _⟩ := hconforms.owners key.1 howner
    refine ⟨account, hlookup, fun hforbids => ⟨hsums.projected key account hlookup hforbids, ?_⟩⟩
    rw [PlanInput.projected_perm hperm]
    exact hconforms.floors key hkey account hlookup hforbids

/-- What passes every check conforms. -/
theorem Checked.conforms {consumed : List Posting} (hchecked : Checked order input consumed)
    (hdistinct : (input.consumedPostings.map (·.id)).Nodup)
    (hsought : ∀ posting ∈ input.consumedPostings, posting.id ∈ input.envelope.consumes) :
    input.Conforms := by
  have hspent : input.spent = consumed := HashMap.filterMap_lookup_eq hchecked.found
  have hperm := PlanInput.spent_perm hdistinct hsought hchecked.nodup
  rw [hspent] at hperm
  have howners : ∀ id ∈ input.envelope.creates.map (·.owner) ++
      input.consumedPostings.map (·.owner), id ∈ input.owners := fun id hid =>
    PlanInput.mem_owners_iff.mpr (List.mem_append.mp hid)
  refine ⟨hchecked.nonEmpty, hchecked.nodup, ?_, fun id hid => hchecked.accounts id (howners id hid),
    hchecked.snapshots, ?_, ?_, ?_, ?_, ?_⟩
  · intro pid hpid
    obtain ⟨posting, _, hlookup⟩ := hchecked.found.exists_of_mem_left hpid
    exact ⟨posting, (PlanInput.lookup_consumedById_iff hdistinct).mp hlookup⟩
  · intro book hbook
    refine (checkBookAssets_eq_ok_iff.mp
      (checkBook_eq_ok_iff.mp hchecked.book book hbook).1).imp_right ?_
    intro hlisted asset hasset
    rw [List.mem_append, ← (hperm.map _).mem_iff, or_comm] at hasset
    exact hlisted asset (List.mem_append.mpr hasset)
  · intro book hbook
    refine (checkBookAccounts_eq_ok_iff.mp
      (checkBook_eq_ok_iff.mp hchecked.book book hbook).2).imp_right ?_
    intro hlisted owner howner
    obtain ⟨account, hlookup, hallowed⟩ := hlisted owner (howners owner howner)
    exact hallowed.imp_right fun hshared => ⟨account, hlookup, hshared⟩
  · intro asset
    rw [← keyTotal_perm hperm]
    exact (checkConservation_eq_ok_iff.mp hchecked.conservation).2.2 asset
  · intro posting hposting hnegative account hlookup
    obtain ⟨other, hother, hpermits⟩ := hchecked.negatives posting hposting hnegative
    cases hlookup.symm.trans hother
    exact hpermits
  · intro key hkey account hlookup hforbids
    rw [List.mem_append, ← (hperm.map _).mem_iff, or_comm] at hkey
    obtain ⟨other, hother, hfloor⟩ := (checkOverdraft_eq_ok_iff.mp hchecked.overdraft).2 key hkey
    cases hlookup.symm.trans hother
    rw [← PlanInput.projected_perm hperm]
    exact (hfloor hforbids).2

/-- Validation accepts exactly the envelopes that conform, and plans to consume
what they consume and to create what they create, in order. -/
theorem validateAndPlan_decides (order : IterationOrder) (input : PlanInput)
    (hdistinct : (input.consumedPostings.map (·.id)).Nodup)
    (hsought : ∀ posting ∈ input.consumedPostings, posting.id ∈ input.envelope.consumes)
    (hsums : input.SumsHeld) :
    ((∃ plan, validateAndPlan order input = .ok plan) ↔ input.Conforms) ∧
    ∀ plan, validateAndPlan order input = .ok plan →
      plan.postingsToDeactivate = input.envelope.consumes ∧
      plan.postingsToCreate.map (fun posting => (posting.owner, posting.asset, posting.value)) =
        input.envelope.creates.map fun posting => (posting.owner, posting.asset, posting.value) := by
  refine ⟨⟨?_, fun hconforms => ?_⟩, ?_⟩
  · rintro ⟨plan, hplan⟩
    obtain ⟨⟨consumed, hchecked⟩, _⟩ := validateAndPlan_eq_ok_iff.mp hplan
    exact hchecked.conforms hdistinct hsought
  · exact ⟨_, validateAndPlan_eq_ok_iff.mpr
      ⟨⟨_, hconforms.checked hdistinct hsought hsums⟩, rfl⟩⟩
  · intro plan hplan
    obtain ⟨_, rfl⟩ := validateAndPlan_eq_ok_iff.mp hplan
    exact ⟨rfl, map_createdPostings _ _ fun owner asset value => (owner, asset, value)⟩

end Decides

end Kuatia

namespace Kuatia.Sample

/-- Alice pays bob 3 out of a posting of 5, in a book that admits the two. -/
def payment : PlanInput where
  envelope :=
    { consumes := [⟨transferOf 1, 0⟩]
      creates := [⟨alice, usd, .ofI64 2, none⟩, ⟨bob, usd, .ofI64 3, none⟩]
      accountSnapshots := []
      book := DEFAULT_BOOK
      metadata := .empty }
  consumedPostings := [postingOf 1 0 alice 5]
  accounts := HashMap.insertAll ∅ (·.id) [.debitMustNotExceedCredit alice, .new bob]
  balances := (∅ : HashMap BalanceKey Cent).insert (alice, usd) (.ofI64 5)
  book := some ⟨DEFAULT_BOOK, "till", ⟨[usd], .empty, [alice.base, bob.base]⟩⟩

end Kuatia.Sample

namespace Kuatia

open Sample in
theorem validateAndPlan_decides_payment :
    payment.Conforms ∧ ∃ plan, validateAndPlan .listed payment = .ok plan ∧
      plan.postingsToDeactivate = payment.envelope.consumes ∧
      plan.postingsToCreate.map (fun posting => (posting.owner, posting.asset, posting.value)) =
        payment.envelope.creates.map fun posting => (posting.owner, posting.asset, posting.value) := by
  have hsums : payment.SumsHeld := by
    refine PlanInput.sumsHeld_of_room fun key => ?_
    have hspent : Cent.magnitude (payment.spent.map Posting.value) = 5 := by decide +kernel
    have hcreated : Cent.magnitude (payment.envelope.creates.map NewPosting.value) = 5 := by
      decide +kernel
    have hcurrent : |((payment.balances.lookup key).getD .ZERO).val| ≤ 5 := by
      rw [payment, HashMap.lookup_insert_eq]
      split
      next => decide
      next => simp
    have hmax : 15 ≤ Backing.max MoneyWidth.backing := by decide
    omega
  have hdecides := validateAndPlan_decides .listed payment (by decide) (by decide) hsums
  have hplan : validateAndPlan .listed payment = .ok (planOf payment.envelope) := by
    decide +kernel
  exact ⟨hdecides.1.mp ⟨_, hplan⟩, _, hplan, hdecides.2 _ hplan⟩

end Kuatia
