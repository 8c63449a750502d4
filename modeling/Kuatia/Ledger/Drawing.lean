import Kuatia.Core.ResolutionLaws
import Kuatia.Ledger.Balances
import Kuatia.Ledger.Composed

/-! # Envelopes drawn while others act

A commit reads the postings of its debtors one after the other, so what it hands
to the store was never there at a single instant. Still each posting it consumes
was active under a debited key when it was read, and whatever it creates besides
the credits goes back to a debtor.
-/

namespace Kuatia

open Async LedgerM

variable [MoneyWidth] [Sha256]

/-- An envelope that resolution may draw up for a transfer from what it has seen. -/
structure Drawn (seen : World → Prop) (transfer : Transfer) (envelope : Envelope) : Prop where
  creates : ∃ extra, envelope.creates = transfer.movements.map Movement.credit ++ extra ∧
    extra.length ≤ transfer.movements.length ∧
    ∀ posting ∈ extra, 0 < transfer.outgoing posting.key ∧ posting.value.val ≠ 0
  consumes : ∀ id ∈ envelope.consumes, ∃ world posting, seen world ∧
    world.store.postings.active.lookup id = some posting ∧ 0 < transfer.outgoing posting.key
  book : envelope.book = transfer.book
  metadata : envelope.metadata = transfer.metadata

/-- What has been read for the debits was active, under the keys it is filed under. -/
structure Sighted (seen : World → Prop) (state : ResolveState) : Prop where
  keyed : Keyed state.available
  active : ∀ key, ∀ posting ∈ (state.available.lookup key).getD [],
    ∃ world, seen world ∧ world.store.postings.active.lookup posting.id = some posting

variable {seen : World → Prop} {submits : Envelope → Prop}

omit [Sha256] in
theorem sighted_empty : Sighted seen ⟨∅, ∅⟩ where
  keyed _ _ hposting := by cases hposting
  active _ _ hposting := by cases hposting

omit [Sha256] in
theorem Sighted.insert {state : ResolveState} (hsighted : Sighted seen state) {key : BalanceKey}
    {postings : List Posting} (hpostings : ∀ posting ∈ postings, posting.key = key ∧
      ∃ world, seen world ∧ world.store.postings.active.lookup posting.id = some posting)
    (accounts : HashMap AccountId Account) :
    Sighted seen ⟨state.available.insert key postings, accounts⟩ := by
  have hboth : ∀ other, ∀ posting ∈ ((state.available.insert key postings).lookup other).getD [],
      posting.key = other ∧
        ∃ world, seen world ∧ world.store.postings.active.lookup posting.id = some posting := by
    intro other posting hposting
    rw [HashMap.lookup_insert_eq] at hposting
    split at hposting
    next heq =>
      subst heq
      exact hpostings posting hposting
    next => exact ⟨hsighted.keyed _ _ hposting, hsighted.active _ _ hposting⟩
  exact ⟨fun other posting hposting => (hboth other posting hposting).1,
    fun other posting hposting => (hboth other posting hposting).2⟩

variable (hseen : ∀ world, seen world → Consistent world.store)

include hseen

theorem loadDebit_sights {state : ResolveState} (hsighted : Sighted seen state) (debit : Debit) :
    Moves seen submits (Sighted seen) (loadDebit state debit) := by
  have hread : Moves seen submits
      (fun postings => ∀ posting ∈ postings, posting.key = debit.key ∧
        ∃ world, seen world ∧ world.store.postings.active.lookup posting.id = some posting)
      (read fun order store => store.getPostingsByAccount order debit.account.id
        (some debit.account.sub) (some debit.asset) .active) := by
    apply Moves.read
    intro order world hworld posting hposting
    have hperm := InMemoryStore.getPostingsByAccount_perm order debit.key .active
      (world.store.postingsOf_active_perm order)
    obtain ⟨hmem, hkey⟩ := List.mem_filter.mp (hperm.mem_iff.mp hposting)
    obtain ⟨id, hlookup⟩ := HashMap.mem_values_iff.mp hmem
    have hid := (hseen world hworld).active_keyed id posting hlookup
    exact ⟨of_decide_eq_true hkey, world, hworld, hid ▸ hlookup⟩
  apply hread.bind
  intro postings hpostings
  dsimp only
  split
  next => exact .pure (hsighted.insert hpostings _)
  next =>
    apply Moves.bind (.of_readOnly (.read _))
    intro account _
    apply Moves.bind (.attempt fun _ _ => trivial)
    intro account _
    exact .pure (hsighted.insert hpostings _)

/-- Resolution draws up its envelope from what it sees. -/
theorem resolve_draws (transfer : Transfer) :
    Moves seen submits (Drawn seen transfer) (resolve transfer) := by
  have hcompute : Moves seen submits (Drafts transfer)
      (compute fun order => (draftMovements order transfer).mapError .ofOverflow) := by
    intro state _
    apply LedgerM.Keeps.assuming
    refine (compute_keeps _).weaken ?_
    rintro draft _ ⟨order, hdraft⟩
    exact draftMovements_eq_ok (Except.mapError_eq_ok_iff.mp hdraft)
  apply hcompute.bind
  intro draft hdraft
  apply Moves.bind (.foldlM (Sighted seen) (fun state hsighted debit _ =>
    loadDebit_sights hseen hsighted debit) sighted_empty)
  intro state hsighted
  have hattempt : Moves seen submits (Drawn seen transfer) (attempt
      ((resolveEnvelope transfer draft state.available state.accounts).mapError .ofResolve)) := by
    apply Moves.attempt
    intro envelope henvelope
    obtain ⟨spent, extra, hresolves, _, rfl⟩ :=
      resolveEnvelope_eq_ok hsighted.keyed hdraft (Except.mapError_eq_ok_iff.mp henvelope)
    have houtgoing : ∀ key ∈ draft.debits.map Debit.key, 0 < transfer.outgoing key := by
      intro key hkey
      have hpositive := keyTotal_pos hdraft.positive hkey
      rw [hdraft.covers] at hpositive
      omega
    refine ⟨⟨extra, rfl, hresolves.few.trans hdraft.length_debits_le, ?_⟩, ?_, rfl, rfl⟩
    · intro posting hposting
      exact ⟨houtgoing _ (hresolves.keyed posting hposting), hresolves.nonzero posting hposting⟩
    · intro id hid
      obtain ⟨posting, hposting, rfl⟩ := List.mem_map.mp hid
      -- what is spent was selected from what had been read under its key
      obtain ⟨left, hperm⟩ := hresolves.selected posting.key
      have hmem := hperm.mem_iff.mp (List.mem_append_left left
        (List.mem_filter.mpr ⟨hposting, decide_eq_true rfl⟩))
      obtain ⟨world, hworld, hlookup⟩ := hsighted.active _ posting (List.mem_filter.mp hmem).1
      exact ⟨world, posting, hworld, hlookup, houtgoing _ (hresolves.debited posting hposting)⟩
  apply hattempt.bind
  intro envelope hdrawn
  apply Moves.bind (.of_readOnly (resolveSnapshots_readOnly _))
  intro snapshots _
  exact .pure ⟨hdrawn.creates, hdrawn.consumes, hdrawn.book, hdrawn.metadata⟩

/-- A commit hands to the store only what it has drawn up. -/
theorem commit_draws {transfer : Transfer}
    (hsubmits : ∀ envelope, Drawn seen transfer envelope → submits envelope) :
    Moves seen submits (fun _ => True) (commit transfer) := by
  apply Moves.bind (resolve_draws hseen transfer)
  intro envelope hdrawn
  apply Moves.of_steps
  intro state hwell
  apply commitEnvelope_steps envelope hwell
  intro pinned hpinned
  apply hsubmits
  unfold Pinned at hpinned
  split at hpinned
  next =>
    obtain ⟨snapshots, rfl⟩ := hpinned
    exact ⟨hdrawn.creates, hdrawn.consumes, hdrawn.book, hdrawn.metadata⟩
  next =>
    rw [hpinned]
    exact hdrawn

end Kuatia
