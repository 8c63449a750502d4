import Kuatia.Core.Specification

/-! # What validation reads

The loader fetches the keys of `requiredState` and no others. Validation looks
nowhere else: two inputs that agree on these keys get the same verdict, in
whatever order the maps are iterated.
-/

namespace Kuatia

variable [MoneyWidth]

theorem mem_requiredState_accounts {envelope : Envelope} {consumedPostings : List Posting}
    {id : AccountId} :
    id ∈ (requiredState envelope consumedPostings).accounts ↔
      id ∈ (postingKeys envelope consumedPostings).owners ∨
        id ∈ envelope.accountSnapshots.map (·.account) := by
  rw [requiredState, List.mem_sortDedup, List.mem_append]

theorem mem_requiredState_balances {envelope : Envelope} {consumedPostings : List Posting}
    {key : BalanceKey} :
    key ∈ (requiredState envelope consumedPostings).balances ↔
      key ∈ envelope.creates.map (·.key) ∨ key ∈ consumedPostings.map (·.key) := by
  rw [requiredState, postingKeys, List.mem_sortDedup, List.mem_append]

/-- The same question, asked of maps that agree on the required keys. -/
structure PlanInput.AgreesOnRequired (first second : PlanInput) : Prop where
  envelope : first.envelope = second.envelope
  consumedPostings : first.consumedPostings = second.consumedPostings
  book : first.book = second.book
  accounts : ∀ id ∈ (requiredState first.envelope first.consumedPostings).accounts,
    first.accounts.lookup id = second.accounts.lookup id
  balances : ∀ key ∈ (requiredState first.envelope first.consumedPostings).balances,
    first.balances.lookup key = second.balances.lookup key

namespace PlanInput.AgreesOnRequired

variable {first second : PlanInput}

theorem symm (hagree : first.AgreesOnRequired second) : second.AgreesOnRequired first where
  envelope := hagree.envelope.symm
  consumedPostings := hagree.consumedPostings.symm
  book := hagree.book.symm
  accounts := by
    rw [← hagree.envelope, ← hagree.consumedPostings]
    exact fun id hid => (hagree.accounts id hid).symm
  balances := by
    rw [← hagree.envelope, ← hagree.consumedPostings]
    exact fun key hkey => (hagree.balances key hkey).symm

theorem owners (hagree : first.AgreesOnRequired second) : first.owners = second.owners := by
  rw [PlanInput.owners, PlanInput.owners, hagree.envelope, hagree.consumedPostings]

theorem account_of_owner (hagree : first.AgreesOnRequired second) {id : AccountId}
    (hid : id ∈ first.owners) : first.accounts.lookup id = second.accounts.lookup id :=
  hagree.accounts id (mem_requiredState_accounts.mpr (.inl hid))

theorem account_of_snapshot (hagree : first.AgreesOnRequired second) {snapshot : AccountSnapshotId}
    (hsnapshot : snapshot ∈ first.envelope.accountSnapshots) :
    first.accounts.lookup snapshot.account = second.accounts.lookup snapshot.account :=
  hagree.accounts _ (mem_requiredState_accounts.mpr (.inr (List.mem_map_of_mem hsnapshot)))

/-- A balance is projected from what the envelope moves and from a required key. -/
theorem projected (hagree : first.AgreesOnRequired second) {consumed : List Posting}
    {key : BalanceKey} (hkey : key ∈ first.envelope.creates.map NewPosting.key ∨
      key ∈ first.consumedPostings.map Posting.key) :
    first.projected consumed key = second.projected consumed key := by
  rw [PlanInput.projected, PlanInput.projected, hagree.envelope,
    hagree.balances key (mem_requiredState_balances.mpr hkey)]

end PlanInput.AgreesOnRequired

theorem PlanInput.Finds.mem_consumedPostings {input : PlanInput} {consumed : List Posting}
    (hfinds : input.Finds consumed) {posting : Posting} (hposting : posting ∈ consumed) :
    posting ∈ input.consumedPostings := by
  obtain ⟨pid, _, hlookup⟩ := hfinds.exists_of_mem_right hposting
  rcases HashMap.lookup_insertAll_cases hlookup with ⟨hmem, _⟩ | ⟨hempty, _⟩
  · exact hmem
  · cases hempty

variable [Sha256]

/-- Each check reads only required keys, and its outcome does not depend on the
order of iteration. -/
theorem Checked.congr {order other : IterationOrder} {first second : PlanInput}
    (hagree : first.AgreesOnRequired second) {consumed : List Posting}
    (hchecked : Checked order first consumed) : Checked other second consumed := by
  have henvelope := hagree.envelope
  refine ⟨henvelope ▸ hchecked.nonEmpty, henvelope ▸ hchecked.nodup, ?_, ?_, ?_, ?_, ?_, ?_, ?_⟩
  · rw [PlanInput.Finds, ← henvelope, ← hagree.consumedPostings]
    exact hchecked.found
  · intro id hid
    rw [← hagree.owners] at hid
    rw [← hagree.account_of_owner hid]
    exact hchecked.accounts id hid
  · intro snapshot hsnapshot
    rw [← henvelope] at hsnapshot
    rw [← hagree.account_of_snapshot hsnapshot]
    exact hchecked.snapshots snapshot hsnapshot
  · refine checkBook_eq_ok_iff.mpr fun book hbook => ?_
    rw [← hagree.book] at hbook
    obtain ⟨hassets, haccounts⟩ := checkBook_eq_ok_iff.mp hchecked.book book hbook
    rw [checkBookAssets_eq_ok_iff] at hassets ⊢
    rw [checkBookAccounts_eq_ok_iff] at haccounts ⊢
    refine ⟨henvelope ▸ hassets, haccounts.imp_right fun hlisted id hid => ?_⟩
    rw [← hagree.owners] at hid
    rw [← hagree.account_of_owner hid]
    exact hlisted id hid
  · rw [checkConservation_eq_ok_iff, ← henvelope]
    exact checkConservation_eq_ok_iff.mp hchecked.conservation
  · intro posting hposting hnegative
    rw [← henvelope] at hposting
    have howner : posting.owner ∈ first.owners :=
      PlanInput.mem_owners_iff.mpr (.inl (List.mem_map_of_mem hposting))
    rw [← hagree.account_of_owner howner]
    exact hchecked.negatives posting hposting hnegative
  · obtain ⟨hdeltas, hfloors⟩ := checkOverdraft_eq_ok_iff.mp hchecked.overdraft
    refine checkOverdraft_eq_ok_iff.mpr ⟨henvelope ▸ hdeltas, fun key hkey => ?_⟩
    rw [← henvelope] at hkey
    have hrequired : key ∈ first.envelope.creates.map NewPosting.key ∨
        key ∈ first.consumedPostings.map Posting.key := by
      refine hkey.symm.imp_right fun hconsumed => ?_
      obtain ⟨posting, hposting, rfl⟩ := List.mem_map.mp hconsumed
      exact List.mem_map_of_mem (hchecked.found.mem_consumedPostings hposting)
    -- the floor reads the account of the key, which the envelope or a posting names
    have howner : key.1 ∈ first.owners := by
      refine PlanInput.mem_owners_iff.mpr (hrequired.imp ?_ ?_)
      all_goals
        intro hmem
        obtain ⟨posting, hposting, rfl⟩ := List.mem_map.mp hmem
        exact List.mem_map_of_mem hposting
    rw [← hagree.account_of_owner howner, ← hagree.projected hrequired]
    exact hfloors key hkey

/-- The verdict depends on the required keys only. -/
theorem validateAndPlan_reads_required (order other : IterationOrder) (first second : PlanInput)
    (hagree : first.AgreesOnRequired second) :
    (∃ plan, validateAndPlan order first = .ok plan ∧ validateAndPlan other second = .ok plan) ∨
    ∃ err err', validateAndPlan order first = .error err ∧
      validateAndPlan other second = .error err' := by
  cases hfirst : validateAndPlan order first with
  | ok plan =>
      obtain ⟨⟨consumed, hchecked⟩, rfl⟩ := validateAndPlan_eq_ok_iff.mp hfirst
      refine .inl ⟨_, rfl, validateAndPlan_eq_ok_iff.mpr ⟨⟨consumed, hchecked.congr hagree⟩, ?_⟩⟩
      rw [hagree.envelope]
  | error err =>
      cases hsecond : validateAndPlan other second with
      | error err' => exact .inr ⟨err, err', rfl, rfl⟩
      | ok plan =>
          obtain ⟨⟨consumed, hchecked⟩, _⟩ := validateAndPlan_eq_ok_iff.mp hsecond
          have hback : Checked order first consumed := hchecked.congr hagree.symm
          cases hfirst.symm.trans (validateAndPlan_eq_ok_iff.mpr ⟨⟨consumed, hback⟩, rfl⟩)

end Kuatia

namespace Kuatia.Sample

/-- The same payment with more loaded than it needs. -/
def paymentOverloaded : PlanInput :=
  { payment with
    accounts := payment.accounts.insert external (.new external)
    balances := payment.balances.insert (external, usd) (.ofI64 (-5)) }

def backwards : IterationOrder := ⟨List.reverse, List.reverse_perm⟩

end Kuatia.Sample

namespace Kuatia

open Sample in
theorem validateAndPlan_reads_required_payment :
    validateAndPlan backwards paymentOverloaded = validateAndPlan .listed payment := by
  have hagree : payment.AgreesOnRequired paymentOverloaded :=
    ⟨rfl, rfl, rfl, by decide +kernel, by decide +kernel⟩
  rcases validateAndPlan_reads_required .listed backwards payment paymentOverloaded hagree with
    ⟨plan, hfirst, hsecond⟩ | ⟨err, _, hfirst, _⟩
  · rw [hfirst, hsecond]
  · have hplan : validateAndPlan .listed payment = .ok (planOf payment.envelope) := by
      decide +kernel
    cases hfirst.symm.trans hplan

end Kuatia
