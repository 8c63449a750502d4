import Kuatia.Ledger.Agreement
import Kuatia.Ledger.AuditTrail
import Kuatia.Ledger.Newcomers

/-! # Transfers that pass validation

A commit that returns a receipt has validated what the transfer resolves to, or
the receipt is an older one. What validation has seen is then a fact about the
store, and a payment to new accounts can be compared with it.
-/

namespace Kuatia

open LedgerM

variable [MoneyWidth] [Sha256] {before after : World} {transfer : Transfer}

/-- The transfer can be resolved in the store, and what it resolves to passes
validation. -/
def Validates (store : InMemoryStore) (transfer : Transfer) : Prop :=
  ∃ first second envelope plan middle last,
    Alone (resolve transfer) ⟨store, first⟩ (.ok envelope) middle ∧
      Alone (validate envelope) ⟨store, second⟩ (.ok plan) last

/-- Pinning what has just been resolved pins the same accounts. -/
theorem Resolved.eq_of_pinnedIn {store : InMemoryStore} {envelope pinned : Envelope}
    {spent : List Posting} {extra : List NewPosting}
    (hresolved : Resolved store transfer envelope spent extra)
    (hpinned : pinnedIn store envelope = .ok pinned) : pinned = envelope := by
  obtain ⟨accounts, haccounts, hsnapshots⟩ := hresolved.pinned
  unfold pinnedIn at hpinned
  split at hpinned
  next =>
    rw [haccounts] at hpinned
    cases hpinned
    rw [← hsnapshots]
    rfl
  next =>
    cases hpinned
    rfl

/-- The transfer of a receipt was stored before, or it has passed validation. -/
theorem validates_of_commit (hkeyed : KeyedByContent before.store) {receipt : Receipt}
    (halone : Alone (commit transfer) before (.ok receipt) after) :
    receipt.transferId ∈ before.store.transfers ∨ Validates before.store transfer := by
  obtain ⟨envelope, first, hresolve, hrest⟩ := alone_bind_ok_iff.mp halone
  have hfirst := (resolve_readOnly transfer).store_eq hresolve
  obtain ⟨spent, extra, hresolved⟩ := resolve_alone hresolve
  obtain ⟨pinned, second, hpin, hrest⟩ := alone_bind_ok_iff.mp hrest
  have hsecond := ((pinSnapshots_readOnly envelope).store_eq hpin).trans hfirst
  have hpinned := pinSnapshots_alone hpin
  rw [hfirst] at hpinned
  cases hresolved.eq_of_pinnedIn hpinned
  obtain ⟨existing, third, hread, hrest⟩ := alone_bind_ok_iff.mp hrest
  obtain ⟨choice, hexisting, rfl⟩ := alone_read_iff.mp hread
  cases hexisting
  rw [hsecond] at hrest
  split at hrest
  next record hstored =>
    left
    cases (alone_pure_iff.mp hrest).1
    obtain ⟨_, hreceipt⟩ := hkeyed _ record hstored
    rw [hreceipt]
    exact HashMap.mem_iff_exists_lookup.mpr ⟨record, hstored⟩
  next =>
    right
    obtain ⟨loaded, fourth, hload, hrest⟩ := alone_bind_ok_iff.mp hrest
    obtain ⟨plan, fifth, hplan, _⟩ := alone_bind_ok_iff.mp hrest
    exact ⟨before.clock, choice.clock, envelope, plan, first, fifth, hresolve,
      alone_bind_ok_iff.mpr ⟨loaded, fourth, hload, hplan⟩⟩

theorem Validates.exists_examined {store : InMemoryStore} (hvalidates : Validates store transfer)
    (hwell : WellFormed store) (hconsistent : Consistent store)
    (hrecorded : ∀ key, 0 < transfer.outgoing key → Recorded store key) :
    ∃ clock envelope middle spent extra order loaded,
      Alone (resolve transfer) ⟨store, clock⟩ (.ok envelope) middle ∧
        Examined store transfer envelope spent extra order loaded := by
  obtain ⟨clock, other, envelope, result, middle, _, hresolve, hvalidate⟩ := hvalidates
  obtain ⟨spent, extra, hresolved, hmadeUp⟩ := resolve_alone_madeUp hresolve
  have hfound := hresolved.forall₂_recorded hrecorded
  obtain ⟨loaded, _, hload, hplan⟩ := alone_bind_ok_iff.mp hvalidate
  obtain ⟨order, hplan⟩ := alone_compute hplan
  obtain ⟨_, consumed, hchecked⟩ := plan_eq_ok hplan.symm
  have hrecords := hresolved.mem_immutable hconsistent
  have hwellFormed : WellFormed (World.mk store other).store := hwell
  obtain ⟨_, hok, hloads, hsums⟩ | ⟨_, herror, _⟩ := load_cases hwellFormed hrecords hload
  swap
  · cases herror
  cases hok
  -- what was loaded is what was selected, and validation finds nothing else
  have hspent : loaded.consumedPostings = spent := hloads.consumed.unique hfound
  have hfinds := hloads.finds hwell (hresolved.nodup_consumes hconsistent)
  cases (hchecked.found.unique hfinds).trans hspent
  rw [hspent] at hsums
  exact ⟨clock, envelope, middle, spent, extra, order, loaded, hresolve, hresolved, hmadeUp,
    hspent, hloads, hchecked, hsums⟩

end Kuatia
