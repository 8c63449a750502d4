import Kuatia.Core.ResolutionLaws

/-! # When resolution succeeds

Resolution refuses a transfer only when a debtor that forbids overdraft has too
little, or when amounts overflow. With room for all of them every other transfer
is resolved.
-/

namespace Kuatia

open MoneyWidth (backing)

variable [MoneyWidth]

/-! ## The draft -/

/-- The room that the amounts of a transfer take. -/
def Transfer.magnitude (transfer : Transfer) : Int :=
  Cent.magnitude (transfer.movements.map (·.amount))

theorem exists_draftMovements_of_holds (transfer : Transfer) (order : IterationOrder)
    (hholds : ∀ n key, Cent.Holds
      (keyTotal Movement.source Movement.amount (transfer.movements.take n) key)) :
    ∃ draft, draftMovements order transfer = .ok draft := by
  have htotals : ∃ totals, netDebits transfer.movements = .ok totals :=
    Totals.exists_addAll_of_holds fun n key => by simpa using hholds n key
  obtain ⟨totals, htotals⟩ := htotals
  exact ⟨_, Except.bind_eq_ok_iff.mpr ⟨totals, htotals, rfl⟩⟩

/-- A debit is what its source owes on balance. -/
theorem Drafts.amount_eq {transfer : Transfer} {draft : MovementDraft}
    (hdraft : Drafts transfer draft) {debit : Debit} (hdebit : debit ∈ draft.debits) :
    debit.amount.val = transfer.outgoing debit.key := by
  have hpositive := hdraft.positive debit hdebit
  have hcovers := hdraft.covers debit.key
  obtain ⟨before, after, hsplit⟩ := List.append_of_mem hdebit
  have hkeys := hdraft.keys
  rw [hsplit, List.map_append, List.map_cons, List.nodup_middle, List.nodup_cons,
    List.mem_append, not_or] at hkeys
  -- no other debit is of the same source
  have hothers : ∀ {others : List Debit}, debit.key ∉ others.map Debit.key →
      keyTotal Debit.key Debit.amount others debit.key = 0 := fun hnone =>
    keyTotal_eq_zero fun other hother heq => hnone (heq ▸ List.mem_map_of_mem hother)
  rw [hsplit, keyTotal_append, keyTotal_cons, if_pos rfl, hothers hkeys.1.1, hothers hkeys.1.2]
    at hcovers
  omega

/-! ## Covering the debits -/

theorem exists_takeUntilCovered {amount sum : Cent} {postings : List Posting}
    (hroom : |sum.val| + Cent.magnitude (postings.map (·.value)) ≤ Backing.max backing) :
    ∃ taken, takeUntilCovered amount postings sum = .ok taken := by
  induction postings generalizing sum with
  | nil => exact ⟨_, rfl⟩
  | cons posting rest ih =>
      rw [List.map_cons, Cent.magnitude_cons] at hroom
      have hrest := Cent.magnitude_nonneg (rest.map (·.value))
      have habs := abs_add_le sum.val posting.value.val
      obtain ⟨next, hnext, hval⟩ := Cent.exists_checked_of_abs_le
        (v := sum.val + posting.value.val) (by omega)
      apply Except.exists_bind_eq_ok hnext
      split
      next => exact ⟨_, rfl⟩
      next =>
        obtain ⟨taken, htaken⟩ := @ih next (by rw [hval]; omega)
        exact Except.exists_bind_eq_ok htaken ⟨_, rfl⟩

variable {available : HashMap BalanceKey (List Posting)} {accounts : HashMap AccountId Account}

/-- What is available to the debtor. -/
def availableTo (available : HashMap BalanceKey (List Posting)) (debit : Debit) : List Posting :=
  (available.lookup debit.key).getD []

/-- The debtor has enough, or may be overdrawn. -/
def Coverable (available : HashMap BalanceKey (List Posting))
    (accounts : HashMap AccountId Account) (debit : Debit) : Prop :=
  debit.amount.val ≤ ((positives (availableTo available debit)).map (·.value.val)).sum ∨
    ∃ account, accounts.lookup debit.account = some account ∧ account.forbidsOverdraft = false

/-- What the debtor has to spend. -/
def fundsOf (available : HashMap BalanceKey (List Posting)) (debit : Debit) : Int :=
  ((positives (availableTo available debit)).map (·.value.val)).sum

theorem magnitude_positives (postings : List Posting) :
    Cent.magnitude ((positives postings).map (·.value)) =
      ((positives postings).map (·.value.val)).sum := by
  rw [Cent.magnitude_of_nonneg, List.map_map]
  · rfl
  · intro amount hamount
    obtain ⟨posting, hposting, rfl⟩ := List.mem_map.mp hamount
    exact (Cent.isPositive_iff.mp (List.mem_filter.mp hposting).2).le

theorem exists_fundsOf {debit : Debit}
    (hroom : fundsOf available debit ≤ Backing.max backing) :
    ∃ total, Cent.checkedSum ((positives (availableTo available debit)).map (·.value)) =
      .ok total ∧ total.val = fundsOf available debit ∧ 0 ≤ total.val := by
  have hmagnitude := magnitude_positives (availableTo available debit)
  have hnonneg := Cent.magnitude_nonneg ((positives (availableTo available debit)).map (·.value))
  obtain ⟨total, htotal⟩ := Cent.exists_checkedSum (hmagnitude.trans_le hroom)
  have hsum := Cent.val_of_checkedSum htotal
  rw [List.map_map] at hsum
  exact ⟨total, htotal, hsum, hsum ▸ hmagnitude ▸ hnonneg⟩

theorem exists_resolveDebit {debit : Debit} (selection : Selection) (hpositive : 0 < debit.amount.val)
    (hroom : fundsOf available debit ≤ Backing.max backing)
    (hcoverable : Coverable available accounts debit) :
    ∃ next, resolveDebit available accounts selection debit = .ok next := by
  obtain ⟨total, htotal, hsum, hnonneg⟩ := exists_fundsOf hroom
  have hfits := Cent.holds_of_val debit.amount
  apply Except.exists_bind_eq_ok (Except.mapError_eq_ok_iff.mpr htotal)
  split
  next hcovered =>
    have hperm : (largestFirst (positives (availableTo available debit))).Perm
        (positives (availableTo available debit)) := List.perm_insertionSort _ _
    have hmagnitude := magnitude_positives (availableTo available debit)
    rw [← Cent.magnitude_perm (hperm.map _)] at hmagnitude
    have htaken : ∃ taken, takeUntilCovered debit.amount
        (largestFirst (positives (availableTo available debit))) .ZERO = .ok taken := by
      apply exists_takeUntilCovered
      rw [Cent.val_ZERO, abs_zero, zero_add, hmagnitude]
      exact hroom
    obtain ⟨⟨ids, sum⟩, htake⟩ := htaken
    obtain ⟨taken, left, hsplit, _, hvalue, _⟩ := takeUntilCovered_eq_ok htake
    -- what was taken is at most what is available
    have htakenAbs : |sum.val| ≤ fundsOf available debit := by
      rw [hvalue, Cent.val_ZERO, zero_add, fundsOf, ← hmagnitude, ← hsplit, List.map_append,
        Cent.magnitude_append]
      have hleft := Cent.magnitude_nonneg (left.map (·.value))
      have hsum := Cent.abs_sum_le (taken.map (·.value))
      rw [List.map_map] at hsum
      exact hsum.trans (by omega)
    have htakenNonneg : 0 ≤ sum.val := by
      rw [hvalue, Cent.val_ZERO, zero_add]
      refine List.sum_nonneg fun value hvalue => ?_
      obtain ⟨posting, hposting, rfl⟩ := List.mem_map.mp hvalue
      have hmem : posting ∈ positives (availableTo available debit) :=
        hperm.mem_iff.mp (hsplit ▸ List.mem_append_left left hposting)
      exact (Cent.isPositive_iff.mp (List.mem_filter.mp hmem).2).le
    rw [abs_le] at htakenAbs
    obtain ⟨change, hchange, _⟩ := Cent.exists_checked_of_abs_le
      (v := sum.val - debit.amount.val) (by rw [abs_le]; have := hfits.2; omega)
    apply Except.exists_bind_eq_ok (Except.mapError_eq_ok_iff.mpr htake)
    exact Except.exists_bind_eq_ok (Except.mapError_eq_ok_iff.mpr hchange) ⟨_, rfl⟩
  next huncovered =>
    rw [Cent.le_iff, hsum] at huncovered
    obtain ⟨account, hlookup, hpermits⟩ := hcoverable.resolve_left huncovered
    have hany : (accounts.lookup debit.account).any (!·.forbidsOverdraft) = true := by
      rw [hlookup, Option.any_some, hpermits]
      rfl
    rw [if_pos hany]
    have hmost := hfits.2
    obtain ⟨shortfall, hshortfall, hval⟩ := Cent.exists_checked_of_abs_le
      (v := debit.amount.val - total.val) (by rw [abs_le]; omega)
    obtain ⟨offset, hoffset, _⟩ := Cent.exists_checked_of_abs_le
      (v := -shortfall.val) (by rw [abs_le]; omega)
    apply Except.exists_bind_eq_ok (Except.mapError_eq_ok_iff.mpr hshortfall)
    exact Except.exists_bind_eq_ok (Except.mapError_eq_ok_iff.mpr hoffset) ⟨_, rfl⟩

/-- A debtor with too little who may not be overdrawn is refused. -/
theorem resolveDebit_refused {debit : Debit} (selection : Selection)
    (hroom : fundsOf available debit ≤ Backing.max backing)
    (huncoverable : ¬Coverable available accounts debit) :
    ∃ insufficient,
      resolveDebit available accounts selection debit = .error (.selection insufficient) := by
  obtain ⟨total, htotal, hsum, _⟩ := exists_fundsOf hroom
  rw [Coverable, not_or, ← fundsOf, ← hsum, ← Cent.le_iff] at huncoverable
  have hany : (accounts.lookup debit.account).any (!·.forbidsOverdraft) = false := by
    cases hlookup : accounts.lookup debit.account with
    | none => rfl
    | some account =>
        cases hforbids : account.forbidsOverdraft with
        | true => simp [hforbids]
        | false => exact absurd ⟨account, hlookup, hforbids⟩ huncoverable.2
  refine ⟨⟨total, debit.amount⟩, ?_⟩
  refine Except.bind_eq_error_iff.mpr (.inr ⟨total, Except.mapError_eq_ok_iff.mpr htotal, ?_⟩)
  rw [if_neg huncoverable.1, hany]
  rfl

/-- All debits are covered, or one that cannot be is the reason for the refusal. -/
theorem resolveDebits_cases {debits : List Debit} (selection : Selection)
    (hpositive : ∀ debit ∈ debits, 0 < debit.amount.val)
    (hroom : ∀ debit ∈ debits, fundsOf available debit ≤ Backing.max backing) :
    ((∀ debit ∈ debits, Coverable available accounts debit) ∧
      ∃ last, debits.foldlM (resolveDebit available accounts) selection = .ok last) ∨
    ((∃ debit ∈ debits, ¬Coverable available accounts debit) ∧ ∃ insufficient,
      debits.foldlM (resolveDebit available accounts) selection =
        .error (.selection insufficient)) := by
  induction debits generalizing selection with
  | nil => exact .inl ⟨by simp, _, rfl⟩
  | cons debit debits ih =>
      rw [List.forall_mem_cons] at hpositive hroom
      by_cases hcoverable : Coverable available accounts debit
      · obtain ⟨next, hnext⟩ := exists_resolveDebit selection hpositive.1 hroom.1 hcoverable
        rw [List.foldlM_cons, hnext]
        refine (ih next hpositive.2 hroom.2).imp ?_ ?_
        · rintro ⟨hall, hlast⟩
          exact ⟨List.forall_mem_cons.mpr ⟨hcoverable, hall⟩, hlast⟩
        · rintro ⟨⟨other, hother, huncoverable⟩, hrefused⟩
          exact ⟨⟨other, List.mem_cons_of_mem _ hother, huncoverable⟩, hrefused⟩
      · obtain ⟨insufficient, hrefused⟩ := resolveDebit_refused selection hroom.1 hcoverable
        rw [List.foldlM_cons, hrefused]
        exact .inr ⟨⟨debit, List.mem_cons_self, hcoverable⟩, insufficient, rfl⟩

end Kuatia
