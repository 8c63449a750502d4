import Kuatia.Core.ResolutionLaws
import Kuatia.Types.Orders

/-! # Sending the credits elsewhere

Resolution looks at where the amounts come from, and only copies where they go.
A transfer with the same debits selects the same postings and makes the same
change; only the credits differ.
-/

namespace Kuatia

open Sql

variable [MoneyWidth]

/-! ## The draft -/

/-- The draft does not depend on the order in which the totals are iterated. -/
theorem draftMovements_order (order other : IterationOrder) (transfer : Transfer) :
    draftMovements order transfer = draftMovements other transfer := by
  rw [draftMovements, draftMovements]
  cases netDebits transfer.movements with
  | error err => rfl
  | ok totals =>
      let debitsOf := fun order : IterationOrder =>
        ((order.arrange totals.entries).filter (·.2.isPositive)).map fun entry =>
          ({ account := entry.1.1, asset := entry.1.2, amount := entry.2 } : Debit)
      have hperm : (debitsOf order).Perm (debitsOf other) :=
        (((order.arrange_perm _).trans (other.arrange_perm _).symm).filter _).map _
      have hkeys : ((debitsOf order).map fun debit => debit.key.sortKey).Nodup := by
        have hentries : (((order.arrange totals.entries).filter (·.2.isPositive)).map
            Sigma.fst).Nodup :=
          (((order.arrange_perm totals.entries).map Sigma.fst).nodup_iff.mpr
            totals.nodupKeys).sublist (List.filter_sublist.map Sigma.fst)
        have hnodup := hentries.map BalanceKey.sortKey_injective
        rw [List.map_map] at hnodup ⊢
        exact hnodup
      have hsorted : ∀ debits : List Debit,
          debits.insertionSort (fun first second => BalanceKey.le first.key second.key) =
            orderBy (fun debit => debit.key.sortKey) debits :=
        fun _ => insertionSort_eq_orderBy fun _ _ => BalanceKey.le_iff_sortKey
      change Except.ok (MovementDraft.mk _ _) = Except.ok (MovementDraft.mk _ _)
      rw [hsorted, hsorted, orderBy_congr hkeys hperm]

/-- The two transfers take the same amounts from the same sources. -/
def Transfer.SameDebits (transfer other : Transfer) : Prop :=
  transfer.movements.map (fun movement => (movement.source, movement.amount)) =
    other.movements.map fun movement => (movement.source, movement.amount)

theorem Transfer.SameDebits.outgoing {transfer other : Transfer}
    (hsame : transfer.SameDebits other) (key : BalanceKey) :
    transfer.outgoing key = other.outgoing key :=
  keyTotal_congr hsame

/-- A transfer with the same debits has the same draft, up to the credits. -/
theorem Transfer.SameDebits.draftMovements {transfer other : Transfer}
    (hsame : transfer.SameDebits other) {order : IterationOrder} {draft : MovementDraft}
    (hdraft : draftMovements order transfer = .ok draft) :
    Kuatia.draftMovements order other =
      .ok ⟨other.movements.map Movement.credit, draft.debits⟩ := by
  obtain ⟨totals, htotals, hpure⟩ := Except.bind_eq_ok_iff.mp hdraft
  cases hpure
  have hother : netDebits other.movements = .ok totals := by
    rw [← htotals]
    exact (Totals.addAll_congr ∅ hsame).symm
  exact Except.bind_eq_ok_iff.mpr ⟨totals, hother, rfl⟩

/-! ## The selection -/

section Selecting

variable {available : HashMap BalanceKey (List Posting)} {accounts : HashMap AccountId Account}

/-- One selection followed by another. -/
def Selection.append (first second : Selection) : Selection :=
  ⟨first.consumes ++ second.consumes, first.creates ++ second.creates⟩

/-- What has been selected before does not influence how a debit is covered. -/
theorem resolveDebit_append (selection : Selection) (debit : Debit) :
    resolveDebit available accounts selection debit =
      (resolveDebit available accounts ⟨[], []⟩ debit).map selection.append := by
  simp only [resolveDebit]
  cases (Cent.checkedSum ((positives ((available.lookup debit.key).getD [])).map
    (·.value))).mapError fun _ => ResolveError.overflow with
  | error err => rfl
  | ok total =>
      simp only [bind, Except.bind]
      split
      next =>
        cases (takeUntilCovered debit.amount (largestFirst
          (positives ((available.lookup debit.key).getD []))) .ZERO).mapError fun _ =>
            ResolveError.overflow with
        | error err => rfl
        | ok taken =>
            dsimp only
            cases (taken.2.checkedSub debit.amount).mapError fun _ => ResolveError.overflow <;> rfl
      next =>
        split
        next =>
          cases (debit.amount.checkedSub total).mapError fun _ => ResolveError.overflow with
          | error err => rfl
          | ok shortfall =>
              dsimp only
              cases shortfall.checkedNeg.mapError fun _ => ResolveError.overflow <;> rfl
        next => rfl

theorem resolveDebits_append (selection : Selection) (debits : List Debit) :
    debits.foldlM (resolveDebit available accounts) selection =
      (debits.foldlM (resolveDebit available accounts) ⟨[], []⟩).map selection.append := by
  induction debits generalizing selection with
  | nil => simp [Selection.append, Except.map, pure, Except.pure]
  | cons debit debits ih =>
      rw [List.foldlM_cons, List.foldlM_cons, resolveDebit_append]
      cases resolveDebit available accounts ⟨[], []⟩ debit with
      | error err => rfl
      | ok part =>
          simp only [Except.map, bind, Except.bind]
          rw [ih (selection.append part), ih part]
          cases debits.foldlM (resolveDebit available accounts) ⟨[], []⟩ with
          | error err => rfl
          | ok rest => simp [Except.map, Selection.append]

/-- A transfer with the same debits consumes the same postings, and creates the
same beside its credits. -/
theorem resolveEnvelope_redirected {transfer : Transfer} (other : Transfer)
    {draft : MovementDraft} {envelope : Envelope}
    (henvelope : resolveEnvelope transfer draft available accounts = .ok envelope) :
    ∃ extra, envelope.creates = draft.creates ++ extra ∧ ∀ credits,
      resolveEnvelope other ⟨credits, draft.debits⟩ available accounts =
        .ok ⟨envelope.consumes, credits ++ extra, [], other.book, other.metadata⟩ := by
  obtain ⟨selection, hfold, hpure⟩ := Except.bind_eq_ok_iff.mp henvelope
  cases hpure
  rw [resolveDebits_append] at hfold
  cases hpart : draft.debits.foldlM (resolveDebit available accounts) ⟨[], []⟩ with
  | error err =>
      rw [hpart] at hfold
      cases hfold
  | ok part =>
      rw [hpart] at hfold
      cases hfold
      refine ⟨part.creates, rfl, fun credits => ?_⟩
      rw [resolveEnvelope, resolveDebits_append, hpart]
      rfl

end Selecting

end Kuatia
