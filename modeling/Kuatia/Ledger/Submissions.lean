import Kuatia.Ledger.DoubleSpend
import Kuatia.Ledger.Alone
import Kuatia.Storage.Live
import Kuatia.Ledger.Sample

/-! # Submitting the same thing again

A repeated submission takes effect once if every envelope it may hand to the
store has the same id, or consumes the same posting: the first one that is
stored then stands in the way of every later one. Pinning fills in account
versions before the id is computed, so an envelope that pins nothing and
consumes nothing has the same id only while its accounts keep their versions.
-/

namespace Kuatia

open Async Interleaving LedgerM

section Theory

variable [MoneyWidth] [Sha256] (ledger : Ledger)

/-! ## Counting what a request stores -/

/-- The number of stored transfers. -/
def InMemoryStore.transferCount (store : InMemoryStore) : Nat := store.transfers.entries.length

/-- The action advances a call of `request`, and one more transfer is stored after it. -/
def stores (request : Request) (pool : LedgerPool) (action : LedgerAction) : Bool :=
  match action with
  | .start _ => false
  | .advance index _ => (pool.calls[index]?).any (·.request = request) &&
      pool.shared.store.transferCount <
        (pool.act ledger.program action).shared.store.transferCount

/-- How many times calls of `request` store a transfer in a run. -/
def storedBy (request : Request) : LedgerPool → List LedgerAction → Nat
  | _, [] => 0
  | pool, action :: actions =>
      (stores ledger request pool action).toNat +
        storedBy request (pool.act ledger.program action) actions

theorem storedBy_append (request : Request) (pool : LedgerPool)
    (first second : List LedgerAction) :
    storedBy ledger request pool (first ++ second) =
      storedBy ledger request pool first +
        storedBy ledger request (pool.run ledger.program first) second := by
  induction first generalizing pool with
  | nil => simp [storedBy]
  | cons action actions ih =>
      rw [List.cons_append, storedBy, storedBy, ih, Pool.run_cons]
      omega

/-! ## Once something stands in the way -/

/-- A stored transfer rules out every envelope that `allowed` describes: it has
their id, or it has consumed a posting of theirs. -/
def RuledOut (allowed : Envelope → Prop) (store : InMemoryStore) : Prop :=
  (∃ tid, (∀ envelope, allowed envelope → envelopeId envelope = tid) ∧ tid ∈ store.transfers) ∨
    ∃ id, (∀ envelope, allowed envelope → id ∈ envelope.consumes) ∧ Consumed store id

variable {allowed : Envelope → Prop} {before after store : InMemoryStore} {ledger}

theorem RuledOut.step {submits : Envelope → Prop} (hruled : RuledOut allowed before)
    (hstep : StoreStep submits before after) : RuledOut allowed after := by
  rcases hruled with ⟨tid, hid, hstored⟩ | ⟨id, hconsumes, tid, record, hlookup, hmem⟩
  · obtain ⟨record, hlookup⟩ := HashMap.mem_iff_exists_lookup.mp hstored
    exact .inl ⟨tid, hid, HashMap.mem_iff_exists_lookup.mpr ⟨record, hstep.lookup_transfers hlookup⟩⟩
  · exact .inr ⟨id, hconsumes, tid, record, hstep.lookup_transfers hlookup, hmem⟩

/-- An allowed envelope that is applied rules out all of them from then on. -/
theorem ruledOut_applyCommit (hsame : (∃ tid, ∀ envelope, allowed envelope → envelopeId envelope = tid) ∨
      ∃ id, ∀ envelope, allowed envelope → id ∈ envelope.consumes)
    {clock : Clock} {req : CommitRequest} {consumed : List Posting}
    (hvalid : Validated store req consumed) (hallowed : allowed req.record.envelope) :
    RuledOut allowed (store.applyCommit clock req) := by
  have hlookup : (store.applyCommit clock req).transfers.lookup req.transferId = some req.record := by
    rw [lookup_transfers_applyCommit, if_pos rfl]
  rcases hsame with ⟨tid, hid⟩ | ⟨id, hconsumes⟩
  · refine .inl ⟨tid, hid, ?_⟩
    rw [← hid _ hallowed, ← hvalid.transferId]
    exact HashMap.mem_iff_exists_lookup.mpr ⟨_, hlookup⟩
  · exact .inr ⟨id, hconsumes, _, _, hlookup, hconsumes _ hallowed⟩

/-- What is ruled out is not applied. -/
theorem RuledOut.not_applied (hruled : RuledOut allowed store) (hconsistent : Consistent store)
    {order : IterationOrder} {req : CommitRequest} {consumed : List Posting}
    (hvalid : Validated store req consumed) (hallowed : allowed req.record.envelope)
    (hfresh : req.transferId ∉ store.transfers) :
    store.commitGuards order req ≠ .ok () := by
  intro hguards
  rcases hruled with ⟨tid, hid, hstored⟩ | ⟨id, hconsumes, hconsumed⟩
  · rw [hvalid.transferId, hid _ hallowed] at hfresh
    exact hfresh hstored
  · obtain ⟨_, hactive, _⟩ := InMemoryStore.commitGuards_eq_ok_iff.mp hguards
    rw [InMemoryStore.doubleSpendGuard_eq_ok_iff, hvalid.consume] at hactive
    exact ((hconsistent.mem_active id).mp (hactive id (hconsumes _ hallowed))).2 hconsumed

theorem exists_of_stores {request : Request} {pool : LedgerPool} {action : LedgerAction}
    (hstores : stores ledger request pool action = true) :
    ∃ index choice call, action = .advance index choice ∧ pool.calls[index]? = some call ∧
      call.request = request ∧ pool.shared.store.transferCount <
        (pool.act ledger.program action).shared.store.transferCount := by
  cases action with
  | start request => cases hstores
  | advance index choice =>
      simp only [stores, Bool.and_eq_true, decide_eq_true_eq, Option.any_eq_true] at hstores
      obtain ⟨⟨call, hcall, hrequest⟩, hgrown⟩ := hstores
      exact ⟨index, choice, call, rfl, hcall, hrequest, hgrown⟩

/-- An action that stores a transfer is a step of the call it advances. -/
theorem step_of_grown {submits : Request → Envelope → Prop}
    {assume : Request → Async Choice World (Except LedgerError Response) → Choice → World → Prop}
    (hsubmitting : Submitting ledger assume submits) {actions : List LedgerAction} {index : Nat}
    {choice : Choice} (hrun : LedgerPool.initial.Respects ledger.program assume
      (actions ++ [.advance index choice]))
    {call : Call Request Choice World (Except LedgerError Response)}
    (hcall : (LedgerPool.after ledger actions).calls[index]? = some call)
    (hgrown : (storeAfter ledger actions).transferCount <
      (storeAfter ledger (actions ++ [.advance index choice])).transferCount) :
    StoreStep (submits call.request) (storeAfter ledger actions)
      (storeAfter ledger (actions ++ [.advance index choice])) := by
  obtain hsame | ⟨_, _, other, haction, hother, hstep⟩ := step_after hsubmitting hrun
  · rw [hsame] at hgrown
    exact absurd hgrown (lt_irrefl _)
  · cases haction
    rw [hcall] at hother
    cases hother
    exact hstep

/-- In runs whose actions meet `assume`, a request stores one transfer at most
when all envelopes it may commit have one id, or one posting, in common. -/
theorem storedBy_le_one
    {assume : Request → Async Choice World (Except LedgerError Response) → Choice → World → Prop}
    {request : Request}
    (hsubmitting : Submitting ledger assume fun other envelope => other = request → allowed envelope)
    (hsame : (∃ tid, ∀ envelope, allowed envelope → envelopeId envelope = tid) ∨
      ∃ id, ∀ envelope, allowed envelope → id ∈ envelope.consumes)
    {actions : List LedgerAction}
    (hrun : LedgerPool.initial.Respects ledger.program assume actions) :
    storedBy ledger request .initial actions ≤ 1 := by
  -- the count may only be one when something stored rules out the next one
  have hcount : storedBy ledger request .initial actions = 0 ∨
      storedBy ledger request .initial actions = 1 ∧
        RuledOut allowed (storeAfter ledger actions) := by
    induction actions using List.reverseRecOn with
    | nil => exact .inl rfl
    | append_singleton actions action ih =>
        have ih := ih hrun.of_append.1
        have hkeep : RuledOut allowed (storeAfter ledger actions) →
            RuledOut allowed (storeAfter ledger (actions ++ [action])) :=
          fun hruled => hruled.step (storeStep_after ledger actions action)
        rw [storedBy_append]
        simp only [storedBy, Nat.add_zero]
        by_cases hstores : stores ledger request (LedgerPool.after ledger actions) action = true
        · obtain ⟨index, choice, call, rfl, hcall, hrequest, hgrown⟩ := exists_of_stores hstores
          rw [← after_append_singleton] at hgrown
          have hstep := step_of_grown hsubmitting hrun hcall hgrown
          obtain ⟨_, htransfers, _⟩ | ⟨order, clock, req, consumed, hvalid, hallowed, hfresh, hguards,
            hafter⟩ := hstep.postings_cases
          · rw [InMemoryStore.transferCount, InMemoryStore.transferCount, htransfers] at hgrown
            exact absurd hgrown (lt_irrefl _)
          · have hallowed := hallowed hrequest
            rcases ih with hzero | ⟨_, hruled⟩
            · refine .inr ⟨?_, hafter ▸ ruledOut_applyCommit hsame hvalid hallowed⟩
              rw [hzero, Nat.zero_add]
              exact congrArg Bool.toNat hstores
            · exact absurd hguards
                (hruled.not_applied (consistent_after ledger actions) hvalid hallowed hfresh)
        · have hsilent : (stores ledger request (LedgerPool.initial.run ledger.program actions)
              action).toNat = 0 := by
            rw [Bool.not_eq_true] at hstores
            exact congrArg Bool.toNat hstores
          rw [hsilent]
          exact ih.imp id fun ⟨hone, hruled⟩ => ⟨hone, hkeep hruled⟩
  omega

/-! ## Pinning before the id is computed -/

/-- What is left of a call that is about to pin an envelope and commit it. -/
def committing (envelope : Envelope) : Async Choice World (Except LedgerError Response) :=
  (do return .receipt (← commitEnvelope envelope) : LedgerM Response).run

/-- Whenever a call of `request` is about to pin `envelope`, the accounts are in
the versions that make it `pinned`. -/
def PinsTo (request : Request) (envelope pinned : Envelope) (other : Request)
    (rest : Async Choice World (Except LedgerError Response)) (_ : Choice) (world : World) : Prop :=
  other = request → rest = committing envelope → ∀ result,
    pinnedIn world.store envelope = .ok result → result = pinned

/-- An envelope that pins nothing starts by reading the accounts it pins. -/
theorem pinSnapshots_keeps_pinned {submits : Envelope → Prop} {state : World}
    {assume : Async Choice World (Except LedgerError Envelope) → Choice → World → Prop}
    {envelope pinned : Envelope} (hempty : envelope.accountSnapshots = [])
    (hassume : ∀ choice world, assume (pinSnapshots envelope).run choice world →
      ∀ result, pinnedIn world.store envelope = .ok result → result = pinned) :
    Keeps assume Interferes (LedgerStep submits) (fun result _ => result = pinned)
      (pinSnapshots envelope) state := by
  unfold pinSnapshots pinnedIn at *
  simp only [if_pos hempty] at *
  refine keeps_bind environment (keeps_bind environment (keeps_bind environment ?_))
  refine keeps_read environment fun later _ choice hchoice last _ => ?_
  rw [← run_bind_eq, ← run_bind_eq, ← run_bind_eq] at hchoice
  refine keeps_attempt fun accounts haccounts _ _ => keeps_pure fun _ _ => keeps_pure fun _ _ => ?_
  rw [Except.mapError_eq_ok_iff] at haccounts
  refine hassume choice later hchoice _ ?_
  rw [haccounts]
  rfl

/-- A commit hands over only what pinning may make of its envelope; it is one
envelope when the accounts are always pinned in the same versions. -/
theorem commitEnvelope_keeps_allowed {state : World}
    {assume : Async Choice World (Except LedgerError Receipt) → Choice → World → Prop}
    {envelope : Envelope} (hwell : WellFormed state.store)
    (hallowed : (∀ pinned, Pinned envelope pinned → allowed pinned) ∨
      envelope.accountSnapshots = [] ∧ ∃ pinned, allowed pinned ∧
        ∀ choice world, assume (commitEnvelope envelope).run choice world →
          ∀ result, pinnedIn world.store envelope = .ok result → result = pinned) :
    Keeps assume Interferes (LedgerStep allowed) (fun _ _ => True) (commitEnvelope envelope)
      state := by
  rcases hallowed with hallowed | ⟨hempty, pinned, hallowed, hassume⟩
  · exact (commitEnvelope_steps envelope hwell hallowed).assuming
  · refine commitEnvelope_keeps hwell ?_
    have hpin : Keeps (fun first => assume (first >>= continueWith commitUnlessStored)) Interferes
        (LedgerStep allowed) (fun result _ => result = pinned) (pinSnapshots envelope) state := by
      refine pinSnapshots_keeps_pinned hempty fun choice world hchoice => ?_
      rw [← run_bind_eq] at hchoice
      exact hassume choice world hchoice
    exact hpin.weaken fun result _ hresult => hresult ▸ hallowed

/-- It suffices to look at the calls of the request in question. -/
theorem submitting_only
    {assume : Async Choice World (Except LedgerError Response) → Choice → World → Prop}
    {request : Request} (hrequest : ∀ state, WellFormed state.store →
      Keeps assume Interferes (LedgerStep allowed) (fun _ _ => True) (ledger.operation request) state) :
    Submitting ledger (fun other rest choice world => other = request → assume rest choice world)
      fun other envelope => other = request → allowed envelope := by
  intro other state hwell
  by_cases hsame : other = request
  · subst hsame
    exact Guarantees.mono (hrequest state hwell) (fun _ _ _ h => h rfl)
      (fun _ _ hstep => hstep.mono fun _ h _ => h) fun _ _ h => h
  · exact Guarantees.mono (submitting_any ledger other state hwell) (fun _ _ _ _ => trivial)
      (fun _ _ hstep => hstep.mono fun _ _ heq => absurd heq hsame) fun _ _ h => h

/-! ## Submitting an envelope again -/

/-- However often an envelope is submitted, and whatever runs in between, one of
the calls at most stores a transfer: if the envelope pins account versions or
consumes a posting, or if the calls find its accounts in the same versions. -/
theorem envelope_stored_once (ledger : Ledger) (envelope : Envelope) (actions : List LedgerAction)
    (hsame : envelope.accountSnapshots ≠ [] ∨ envelope.consumes ≠ [] ∨
      ∃ pinned, LedgerPool.initial.Respects ledger.program
        (PinsTo (.commitEnvelope envelope) envelope pinned) actions) :
    storedBy ledger (.commitEnvelope envelope) .initial actions ≤ 1 := by
  have hany : LedgerPool.initial.Respects ledger.program
      (fun other rest choice world => other = .commitEnvelope envelope →
        anyAction rest choice world) actions :=
    (Pool.respects_anyAction ledger.program LedgerPool.initial actions).mono
      ledger.program fun _ _ _ _ _ _ => trivial
  have hkeeps : ∀ allowed : Envelope → Prop, (∀ pinned, Pinned envelope pinned → allowed pinned) →
      ∀ state, WellFormed state.store → Keeps anyAction Interferes (LedgerStep allowed)
        (fun _ _ => True) (ledger.operation (.commitEnvelope envelope)) state :=
    fun allowed hallowed state hwell => (commitEnvelope_steps envelope hwell hallowed).andThen
  by_cases hempty : envelope.accountSnapshots = []
  swap
  · have hsame : ∀ pinned, Pinned envelope pinned → pinned = envelope := by
      intro pinned hpinned
      rwa [Pinned, if_neg hempty] at hpinned
    exact storedBy_le_one (submitting_only (hkeeps (· = envelope) hsame))
      (.inl ⟨_, fun _ heq => congrArg _ heq⟩) hany
  rcases hsame with hpins | hconsumes | ⟨pinned, hrun⟩
  · exact absurd hempty hpins
  · obtain ⟨id, hid⟩ := List.exists_mem_of_ne_nil _ hconsumes
    refine storedBy_le_one (submitting_only (hkeeps (Pinned envelope) fun _ h => h))
      (.inr ⟨id, fun pinned hpinned => ?_⟩) hany
    rw [Pinned, if_pos hempty] at hpinned
    obtain ⟨snapshots, rfl⟩ := hpinned
    exact hid
  · have hsubmitting : Submitting ledger (PinsTo (.commitEnvelope envelope) envelope pinned)
        fun other result => other = .commitEnvelope envelope → result = pinned := by
      refine submitting_only fun state hwell => ?_
      refine keeps_bind environment (Keeps.weaken (commitEnvelope_keeps_allowed hwell
        (.inr ⟨hempty, pinned, rfl, fun choice world hchoice => ?_⟩))
        fun _ _ _ => (ReadOnly.pure _).steps.assuming)
      rw [← run_bind_eq] at hchoice
      exact hchoice rfl
    exact storedBy_le_one hsubmitting (.inl ⟨_, fun _ heq => congrArg _ heq⟩) hrun

end Theory

open Sample in
/-- An envelope that consumes and pins nothing. -/
def unpinnedDeposit : Envelope where
  consumes := []
  creates := [⟨external, usd, .ofI64 (-5), none⟩, ⟨alice, usd, .ofI64 5, some external⟩]
  accountSnapshots := []
  book := DEFAULT_BOOK
  metadata := .empty

open Sample in
/-- The same envelope with the first versions of its accounts pinned. -/
def pinnedDeposit : Envelope := unpinnedDeposit.setAccountSnapshots
  [accountSnapshotId (.new external), accountSnapshotId (.debitMustNotExceedCredit alice)]

open Sample in
/-- An envelope is submitted again after its receiver was frozen and unfrozen. -/
def resubmitted (envelope : Envelope) : List LedgerAction :=
  sequentially (accounts ++
    [.commitEnvelope envelope, .freeze alice, .unfreeze alice, .commitEnvelope envelope])

open Sample in
/-- Both submissions store a transfer, and the deposit is credited twice. -/
theorem envelope_stored_twice :
    storedBy ledger (.commitEnvelope unpinnedDeposit) .initial (resubmitted unpinnedDeposit) = 2 ∧
      (storeAfter ledger (resubmitted unpinnedDeposit)).liveBalance (alice, usd) = 10 := by
  decide +kernel

open Sample in
/-- With its account versions pinned by the client, the same deposit is stored once. -/
theorem envelope_stored_once_pinned :
    storedBy ledger (.commitEnvelope pinnedDeposit) .initial (resubmitted pinnedDeposit) ≤ 1 :=
  envelope_stored_once ledger _ _ (.inl (by decide))

end Kuatia
