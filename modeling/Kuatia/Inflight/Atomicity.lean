import Kuatia.Ledger.CommitEffect
import Kuatia.Ledger.Creating
import Kuatia.Service.Runs
import Kuatia.Inflight.Sample

/-! # What a failed authorization leaves behind

The holds are created before the parking transfer is committed, each in an
action of its own. A failure after the first of them leaves it open, and the same
trade can then never be authorized.
-/

namespace Kuatia

open LedgerM

section Theory

variable [MoneyWidth] [Sha256] {before after : World}

/-- A commit that runs alone and fails changes nothing. -/
theorem commit_error {transfer : Transfer} {err : LedgerError} (hwell : WellFormed before.store)
    (halone : Alone (commit transfer) before (.error err) after) : after.store = before.store := by
  obtain ⟨_, _, hsame⟩ | ⟨_, _, _, _, _, _, _, _, hends⟩ := commit_alone hwell halone
  · exact hsame
  · generalize after.store = later at hends ⊢
    cases hends
    rfl

variable [Cbor]

omit [Sha256] in
/-- A hold is opened unless its account exists. What is opened takes part in
transfers, even if the clock fails afterwards. -/
theorem openHold_alone {book : BookId} {sub : Int64} {destination : AccountId}
    {result : Except LedgerError Unit}
    (halone : Alone (openHold book sub destination) before result after) :
    (holdOf sub destination ∈ before.store.accounts ∧
      result = .error (.inflightAlreadyOpen (holdOf sub destination)) ∧
      after.store = before.store) ∨
    ∃ account, account.id = holdOf sub destination ∧ account.isFrozen = false ∧
      account.isClosed = false ∧ Creates before.store after.store account ∧
      (result = .ok () ∨ result = .error .overflow ∧ after.clock = none) := by
  obtain ⟨payload, hpayload, _⟩ := exists_encodeMeta (.hold destination)
  obtain ⟨account, middle, hattempt, hrest⟩ | ⟨err, hattempt, _⟩ := alone_bind_iff.mp halone
  · obtain ⟨haccount, rfl⟩ := alone_attempt_iff.mp hattempt
    simp only [holdAccount, metaMap, hpayload] at haccount
    cases haccount
    obtain ⟨returned, hcreate, rfl⟩ := alone_adapt_iff.mp hrest
    obtain ⟨hexists, rfl, hsame⟩ | ⟨hcreates, hresult⟩ := createAccount_alone hcreate
    · exact .inl ⟨hexists, rfl, hsame⟩
    · have hflags : ∀ flag ∈ [AccountFlags.FROZEN, .CLOSED],
          (AccountFlags.INFLIGHT.insert .DEBIT_MUST_NOT_EXCEED_CREDIT).contains flag = false := by
        decide
      refine .inr ⟨_, rfl, ?_, ?_, hcreates, ?_⟩
      · exact hflags _ (by simp)
      · exact hflags _ (by simp)
      rcases hresult with rfl | ⟨rfl, hclock⟩
      · exact .inl rfl
      · exact .inr ⟨rfl, hclock⟩
  · obtain ⟨herr, _⟩ := alone_attempt_iff.mp hattempt
    simp only [holdAccount, metaMap, hpayload] at herr
    cases herr

omit [Sha256] in
/-- Unless the hold was there, some version of it is there now. -/
theorem openHold_created {book : BookId} {sub : Int64} {destination : AccountId}
    {result : Except LedgerError Unit}
    (halone : Alone (openHold book sub destination) before result after) :
    (holdOf sub destination ∈ before.store.accounts ∧
      result = .error (.inflightAlreadyOpen (holdOf sub destination)) ∧
      after.store = before.store) ∨
    holdOf sub destination ∉ before.store.accounts ∧
      ∃ account, account ∈ after.store.versions (holdOf sub destination) := by
  refine (openHold_alone halone).imp_right ?_
  rintro ⟨account, hid, _, _, hcreates, _⟩
  rw [← hid]
  refine ⟨hcreates.fresh, account, ?_⟩
  rw [hcreates.versions]
  exact List.mem_singleton.mpr rfl

/-! ## Exactly when a failure is atomic -/

/-- Accounts, postings, transfers and events are as they were. -/
def Untouched (before after : InMemoryStore) : Prop :=
  after.accounts = before.accounts ∧ after.postings = before.postings ∧
    after.transfers = before.transfers ∧ after.events = before.events

omit [Sha256] [Cbor] in
theorem untouched_of_eq {before after : InMemoryStore} (hsame : after = before) :
    Untouched before after := by
  subst hsame
  exact ⟨rfl, rfl, rfl, rfl⟩

/-- The account of the hold that would be created first exists already. -/
def FirstHoldExists (store : InMemoryStore) (transfer : Transfer) : Prop :=
  ∃ destination, (destinationsOf transfer).head? = some destination ∧
    holdOf (inflightSubaccount transfer) destination ∈ store.accounts

/-- What an authorization does once the holds are open. -/
def park (transfer : Transfer) : LedgerM Authorization := do
  let sub := inflightSubaccount transfer
  let legs := transfer.movements.map (legOf sub)
  let payload ← attempt (encodeMeta (.authorize legs))
  let receipt ← commit (parkingTransfer transfer sub payload)
  return ⟨receipt.transferId, legs⟩

theorem authorize_eq (transfer : Transfer) :
    authorize transfer =
      match transfer.movements.find? fun movement => movement.fromAccount = movement.toAccount with
      | some movement => throw (.inflightSelfMovement movement.fromAccount)
      | none => (destinationsOf transfer).forM
          (openHold transfer.book (inflightSubaccount transfer)) >>= fun _ => park transfer := rfl

theorem park_moves (transfer : Transfer) :
    Moves (fun _ => True) (fun _ => True) (fun _ => True) (park transfer) := by
  apply Moves.bind (.attempt fun _ _ => trivial)
  intro payload _
  exact .bind (.of_steps fun _ hwell => commit_steps _ hwell fun _ => trivial)
    fun _ _ => .pure trivial

/-- Parking takes an encoded leg table and a commit. -/
theorem park_ok {transfer : Transfer} {payload : List UInt8} {receipt : Receipt}
    (hpayload : encodeMeta (.authorize
      (transfer.movements.map (legOf (inflightSubaccount transfer)))) = .ok payload)
    (hcommit : Alone (commit (parkingTransfer transfer (inflightSubaccount transfer) payload))
      before (.ok receipt) after) :
    Alone (park transfer) before (.ok ⟨receipt.transferId,
      transfer.movements.map (legOf (inflightSubaccount transfer))⟩) after := by
  refine alone_bind_ok_iff.mpr ⟨payload, before, alone_attempt_iff.mpr ⟨hpayload.symm, rfl⟩, ?_⟩
  exact alone_bind_ok_iff.mpr ⟨receipt, after, hcommit, alone_pure_iff.mpr ⟨rfl, rfl⟩⟩

/-- Parking that runs alone and fails changes nothing. -/
theorem park_error {transfer : Transfer} {err : LedgerError} (hwell : WellFormed before.store)
    (halone : Alone (park transfer) before (.error err) after) : after.store = before.store := by
  obtain ⟨payload, middle, hattempt, hrest⟩ | ⟨_, hattempt, _⟩ := alone_bind_iff.mp halone
  · obtain ⟨_, rfl⟩ := alone_attempt_iff.mp hattempt
    obtain ⟨_, _, _, hpure⟩ | ⟨_, hcommit, _⟩ := alone_bind_iff.mp hrest
    · cases (alone_pure_iff.mp hpure).1
    · exact commit_error hwell hcommit
  · obtain ⟨_, rfl⟩ := alone_attempt_iff.mp hattempt
    rfl

omit [Sha256] [Cbor] in
theorem destinationsOf_eq_nil_iff {transfer : Transfer} :
    destinationsOf transfer = [] ↔ transfer.movements = [] := by
  simp [List.eq_nil_iff_forall_not_mem, destinationsOf]

/-- In every reachable state, an authorization that runs alone and fails leaves
everything as it was exactly when it fails before it has created a hold: the trade
has no movement, one of its movements has a single account, or the first hold
exists already. -/
theorem authorize_untouched_iff (ledger : Ledger) (actions : List ServiceAction)
    (transfer : Transfer) (err : LedgerError) (after : World)
    (halone : Alone (authorize transfer) (ServicePool.after ledger actions).shared (.error err)
      after) :
    Untouched (servedStore ledger actions) after.store ↔
      transfer.movements = [] ∨
        (∃ movement ∈ transfer.movements, movement.fromAccount = movement.toAccount) ∨
        FirstHoldExists (servedStore ledger actions) transfer := by
  have hwell := wellFormed_served ledger actions
  rw [authorize_eq] at halone
  split at halone
  next movement hself =>
    have hmem := List.mem_of_find?_eq_some hself
    have heq := of_decide_eq_true (List.find?_some hself :)
    obtain ⟨_, rfl⟩ := alone_throw_iff.mp halone
    exact iff_of_true (untouched_of_eq rfl) (.inr (.inl ⟨movement, hmem, heq⟩))
  next hdistinct =>
    cases hdestinations : destinationsOf transfer with
    | nil =>
        rw [hdestinations, List.forM, pure_bind] at halone
        exact iff_of_true (untouched_of_eq (park_error hwell halone))
          (.inl (destinationsOf_eq_nil_iff.mp hdestinations))
    | cons first rest =>
        rw [hdestinations, List.forM, bind_assoc] at halone
        let hold := holdOf (inflightSubaccount transfer) first
        -- nothing changes if the first hold exists, and otherwise it stays open
        have hends : (hold ∈ (servedStore ledger actions).accounts ∧
            after.store = servedStore ledger actions) ∨
            hold ∉ (servedStore ledger actions).accounts ∧
              ∃ account, account ∈ after.store.versions hold := by
          obtain ⟨_, middle, hopen, hrest⟩ | ⟨_, hopen, _⟩ := alone_bind_iff.mp halone
          · obtain ⟨_, herr, _⟩ | ⟨hnew, account, hversions⟩ := openHold_created hopen
            · cases herr
            · have hmiddle := (openHold_moves _ _ first).evolves hwell hopen
              have hlater := ((Moves.forM fun destination _ => openHold_moves _ _ destination).bind
                fun _ _ => park_moves transfer).evolves (hmiddle.wellFormed hwell) hrest
              exact .inr ⟨hnew, account, hlater.mem_versions hversions⟩
          · obtain ⟨hexists, _, hsame⟩ | hnew := openHold_created hopen
            · exact .inl ⟨hexists, hsame⟩
            · exact .inr hnew
        obtain ⟨hexists, hsame⟩ | ⟨hnew, account, hversions⟩ := hends
        · exact iff_of_true (untouched_of_eq hsame)
            (.inr (.inr ⟨first, by rw [hdestinations]; rfl, hexists⟩))
        · apply iff_of_false
          · intro huntouched
            rw [InMemoryStore.versions, huntouched.1, AList.lookup_eq_none.mpr hnew] at hversions
            cases hversions
          · rintro (hempty | ⟨movement, hmem, heq⟩ | ⟨other, hother, hexists⟩)
            · rw [destinationsOf_eq_nil_iff.mpr hempty] at hdestinations
              cases hdestinations
            · exact List.find?_eq_none.mp hdistinct movement hmem (decide_eq_true heq)
            · rw [hdestinations] at hother
              cases hother
              exact hnew hexists

end Theory

open Sample in
/-- A payment of alice is inflight: its hold is open and has her funds. -/
@[irreducible] def pending : List ServiceAction :=
  inTurn (opening ++ [.ledger (.commit (deposit 5)), .authorize (pay alice bob 5)])

open Sample in
/-- Authorizing the payment again is refused, and leaves everything as it is. -/
theorem authorize_untouched_pending : ∃ after,
    (servedStore ledger pending).liveBalance (⟨3, 5⟩, usd) = 5 ∧
    Alone (authorize (pay alice bob 5)) (ServicePool.after ledger pending).shared
        (.error (.inflightAlreadyOpen ⟨3, 5⟩)) after ∧
      Untouched (servedStore ledger pending) after.store := by
  let before := (ServicePool.after ledger pending).shared
  have hruns := Async.runs_runWith noon (authorize (pay alice bob 5)).run before
  have hends : (servedStore ledger pending).liveBalance (⟨3, 5⟩, usd) = 5 ∧
      ⟨3, 5⟩ ∈ (servedStore ledger pending).accounts.keys ∧
      failure (Async.runWith noon (authorize (pay alice bob 5)).run before).1 =
        some (.inflightAlreadyOpen ⟨3, 5⟩) := by
    decide +kernel
  obtain ⟨hheld, hexists, hrefused⟩ := hends
  rw [eq_error_of_failure hrefused] at hruns
  refine ⟨_, hheld, hruns, (authorize_untouched_iff ledger pending _ _ _ hruns).mpr
    (.inr (.inr ⟨bob, rfl, ?_⟩))⟩
  have hhold : holdOf (inflightSubaccount (pay alice bob 5)) bob = ⟨3, 5⟩ := by decide +kernel
  rw [hhold]
  exact AList.mem_keys.mpr hexists

open Sample in
/-- Three accounts and no funds; the elaborator has no need to compute this run. -/
@[irreducible] def unfunded : List ServiceAction := inTurn opening

open Sample in
/-- Alice has no funds. Authorizing her payment fails, but the hold stays open,
and the same call will be refused from then on. -/
theorem authorize_leaves_hold : ∃ after retried,
    Alone (authorize (pay alice bob 5)) (ServicePool.after ledger unfunded).shared
        (.error (.selection ⟨.ofI64 0, .ofI64 5⟩)) after ∧
      ¬Untouched (servedStore ledger unfunded) after.store ∧
      Alone (authorize (pay alice bob 5)) after (.error (.inflightAlreadyOpen ⟨3, 5⟩)) retried := by
  let before := (ServicePool.after ledger unfunded).shared
  let first := Async.runWith noon (authorize (pay alice bob 5)).run before
  have hfirst := Async.runs_runWith noon (authorize (pay alice bob 5)).run before
  have hsecond := Async.runs_runWith noon (authorize (pay alice bob 5)).run first.2
  have hends : failure first.1 = some (.selection ⟨.ofI64 0, .ofI64 5⟩) ∧
      first.2.store.accounts.keys ≠ before.store.accounts.keys ∧
      failure (Async.runWith noon (authorize (pay alice bob 5)).run first.2).1 =
        some (.inflightAlreadyOpen ⟨3, 5⟩) := by
    decide +kernel
  obtain ⟨hfailed, haccounts, hrefused⟩ := hends
  rw [eq_error_of_failure hfailed] at hfirst
  rw [eq_error_of_failure hrefused] at hsecond
  refine ⟨_, _, hfirst, fun huntouched => haccounts ?_, hsecond⟩
  rw [huntouched.1]

end Kuatia
