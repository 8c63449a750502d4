import Kuatia.Inflight.Atomicity
import Kuatia.Inflight.Orderly
import Kuatia.Ledger.Reversal

/-! # What a failed workflow leaves behind

A workflow that fails reverses what it has committed. It restores every balance when
each step has stored a new transfer and each reversal is one: a step may be the replay
of a stored transfer, a reversal may have the content of a stored one, and when a
movement cannot be built, nothing is reversed at all.
-/

namespace Kuatia.Saga

open LedgerM

section Theory

variable [MoneyWidth]

/-- What a commit of the movement changes: sources are debited what they owe on
balance, if that is positive. -/
def Movement.moved (movement : Movement) (key : BalanceKey) : Int :=
  match movement.build with
  | .ok transfer => transfer.incoming key - max 0 (transfer.outgoing key)
  | .error _ => 0

variable [Sha256]

/-! ## The run of a call -/

/-- The step is not the replay of a stored transfer, and it takes what was recorded. -/
def NewStep (store : InMemoryStore) (envelope : Envelope) : Prop :=
  envelopeId envelope ∉ store.transfers ∧ TakenAsRecorded store envelope

instance (store : InMemoryStore) (envelope : Envelope) : Decidable (NewStep store envelope) :=
  inferInstanceAs (Decidable (_ ∧ _))

/-- The reversal of the transfer creates at most 65536 postings, and it is not a stored
transfer itself. -/
def NewReversal (store : InMemoryStore) (id : EnvelopeId) : Prop :=
  ∀ record ∈ store.transfers.lookup id, record.envelope.consumes.length ≤ 65536 ∧
    ∀ reversal ∈ (pinnedIn store (reversalIn store record)).toOption,
      envelopeId reversal ∉ store.transfers

instance (store : InMemoryStore) (id : EnvelopeId) : Decidable (NewReversal store id) :=
  inferInstanceAs (Decidable (∀ record ∈ store.transfers.lookup id, _ ∧ _))

/-- What is asked of a call: of each step and of each reversal in the store before it,
and of the steps that came before a movement which cannot be built. -/
structure Conditions where
  step : InMemoryStore → Envelope → Prop
  reversal : InMemoryStore → EnvelopeId → Prop
  unbuilt : List Movement → Prop

def Conditions.none : Conditions := ⟨fun _ _ => True, fun _ _ => True, fun _ => True⟩

def Conditions.new : Conditions := ⟨NewStep, NewReversal, fun done => done = []⟩

/-- The movements are committed one after the other. -/
inductive Steps (conditions : Conditions) : World → List Movement → List Receipt → World → Prop where
  | nil {world : World} : Steps conditions world [] [] world
  | cons {before resolved middle after : World} {movement : Movement} {transfer : Transfer}
      {envelope : Envelope} {receipt : Receipt} {movements : List Movement}
      {receipts : List Receipt} (hbuild : movement.build = .ok transfer)
      (hresolve : Alone (resolve transfer) before (.ok envelope) resolved)
      (hmeets : conditions.step before.store envelope)
      (hcommit : Alone (commitEnvelope envelope) resolved (.ok receipt) middle)
      (hrest : Steps conditions middle movements receipts after) :
      Steps conditions before (movement :: movements) (receipt :: receipts) after

/-- The transfers of the receipts are reversed one after the other. -/
inductive Reversals (conditions : Conditions) : World → List Receipt → World → Prop where
  | nil {world : World} : Reversals conditions world [] world
  | cons {before middle after : World} {receipt reversed : Receipt} {receipts : List Receipt}
      (hmeets : conditions.reversal before.store receipt.transferId)
      (hreverse : Alone (reverse receipt.transferId) before (.ok reversed) middle)
      (hrest : Reversals conditions middle receipts after) :
      Reversals conditions before (receipt :: receipts) after

/-- A call that fails at a movement: its commit fails and the steps before it are
reversed, or it cannot be built and the call ends at once. -/
inductive FailedRun (conditions : Conditions) (start : World) :
    List Movement → LedgerError → World → Prop where
  | committing {done rest : List Movement} {movement : Movement} {receipts : List Receipt}
      {middle failed after : World} {transfer : Transfer} {err : LedgerError}
      (hsteps : Steps conditions start done receipts middle)
      (hbuild : movement.build = .ok transfer)
      (hcommit : Alone (commit transfer) middle (.error err) failed)
      (hreversals : Reversals conditions failed receipts.reverse after) :
      FailedRun conditions start (done ++ movement :: rest) err after
  | building {done rest : List Movement} {movement : Movement} {receipts : List Receipt}
      {middle : World} {err : LedgerError} (hsteps : Steps conditions start done receipts middle)
      (hbuild : movement.build = .error err) (hmeets : conditions.unbuilt done) :
      FailedRun conditions start (done ++ movement :: rest) err middle

/-! ## Every failed call runs so -/

section Runs

variable {before after : World} {movements : List Movement} {receipts all : List Receipt}

theorem compensate_bind (original : LedgerError) (receipts : List Receipt)
    (rest : List Receipt → LedgerM (List Receipt)) :
    compensate original receipts >>= rest = compensate original receipts := by
  induction receipts with
  | nil => rfl
  | cons receipt receipts ih =>
      rw [compensate, bind_assoc]
      refine bind_congr fun reversed => ?_
      cases reversed with
      | error compensation => rfl
      | ok _ => exact ih

theorem compensate_fails {original : LedgerError} :
    ¬Alone (compensate original receipts) before (.ok all) after := by
  rw [← compensate_bind original receipts fun _ => throw original]
  intro halone
  rcases alone_bind_ok_iff.mp halone with ⟨_, _, _, hthrow⟩
  cases (alone_throw_iff.mp hthrow).1

/-- A workflow is one movement after the other. -/
theorem runFrom_cons (receipts : List Receipt) (movement : Movement) (rest : List Movement) :
    runFrom receipts (movement :: rest) =
      runFrom receipts [movement] >>= fun receipts => runFrom receipts rest := by
  simp only [runFrom, bind_assoc]
  refine bind_congr fun transfer => bind_congr fun committed => ?_
  cases committed with
  | ok receipt => exact (pure_bind _ _).symm
  | error err => exact (compensate_bind err receipts.reverse _).symm

omit [Sha256] in
theorem Movement.length_build {movement : Movement} {transfer : Transfer}
    (hbuild : movement.build = .ok transfer) : transfer.movements.length ≤ 2 := by
  cases movement with
  | pay input =>
      cases hbuild
      simp
  | deposit input =>
      rcases Except.bind_eq_ok_iff.mp hbuild with ⟨negated, _, hvalue⟩
      cases hvalue
      simp

/-- One movement succeeds by a commit of its transfer. -/
theorem runFrom_singleton {movement : Movement}
    (halone : Alone (runFrom receipts [movement]) before (.ok all) after) :
    ∃ transfer receipt, movement.build = .ok transfer ∧ all = receipts ++ [receipt] ∧
      Alone (commit transfer) before (.ok receipt) after := by
  rcases alone_bind_ok_iff.mp halone with ⟨transfer, _, hattempt, hrest⟩
  rcases alone_attempt_iff.mp hattempt with ⟨hbuild, rfl⟩
  rcases alone_bind_ok_iff.mp hrest with ⟨committed, middle, houtcome, hrest⟩
  rcases alone_outcome_iff.mp houtcome with ⟨returned, hcommit, hreturned⟩
  cases hreturned
  cases committed with
  | error err => exact absurd hrest compensate_fails
  | ok receipt =>
      rcases alone_pure_iff.mp hrest with ⟨hvalue, rfl⟩
      cases hvalue
      exact ⟨transfer, receipt, hbuild.symm, rfl, hcommit⟩

/-- The steps of a part that succeeds. -/
theorem exists_steps (halone : Alone (runFrom receipts movements) before (.ok all) after) :
    ∃ more, all = receipts ++ more ∧ Steps .none before movements more after := by
  induction movements generalizing receipts before with
  | nil =>
      rcases alone_pure_iff.mp halone with ⟨hvalue, rfl⟩
      cases hvalue
      exact ⟨[], (List.append_nil _).symm, .nil⟩
  | cons movement rest ih =>
      rw [runFrom_cons] at halone
      rcases alone_bind_ok_iff.mp halone with ⟨first, middle, hfirst, hrest⟩
      rcases runFrom_singleton hfirst with ⟨transfer, receipt, hbuild, rfl, hcommit⟩
      rcases alone_bind_ok_iff.mp hcommit with ⟨envelope, resolved, hresolve, hcommit⟩
      rcases ih hrest with ⟨more, rfl, hmore⟩
      exact ⟨receipt :: more, by simp, .cons hbuild hresolve trivial hcommit hmore⟩

/-- A workflow that fails succeeds up to the movement at which it fails. -/
theorem runFrom_error {err : LedgerError}
    (halone : Alone (runFrom receipts movements) before (.error err) after) :
    ∃ done movement rest committed middle, movements = done ++ movement :: rest ∧
      Alone (runFrom receipts done) before (.ok committed) middle ∧
      Alone (runFrom committed [movement]) middle (.error err) after := by
  induction movements generalizing receipts before with
  | nil => cases (alone_pure_iff.mp halone).1
  | cons movement rest ih =>
      rw [runFrom_cons] at halone
      rcases alone_bind_iff.mp halone with ⟨first, middle, hfirst, hrest⟩ | ⟨_, hfailed, hvalue⟩
      · rcases ih hrest with ⟨done, failing, others, committed, last, rfl, hdone, hfailed⟩
        refine ⟨movement :: done, failing, others, committed, last, rfl, ?_, hfailed⟩
        rw [runFrom_cons]
        exact alone_bind_ok_iff.mpr ⟨first, middle, hfirst, hdone⟩
      · cases hvalue
        exact ⟨[], movement, rest, receipts, before, rfl, alone_pure_iff.mpr ⟨rfl, rfl⟩, hfailed⟩

/-- Compensation that does not fail itself reverses every receipt in turn. -/
theorem reversals_of_compensate {original err : LedgerError}
    (halone : Alone (compensate original receipts) before (.error err) after)
    (hcompensated : ∀ original compensation, err ≠ .compensationFailed original compensation) :
    err = original ∧ Reversals .none before receipts after := by
  induction receipts generalizing before with
  | nil =>
      rcases alone_throw_iff.mp halone with ⟨herr, rfl⟩
      cases herr
      exact ⟨rfl, .nil⟩
  | cons receipt rest ih =>
      rcases alone_bind_iff.mp halone with ⟨reversed, middle, houtcome, hrest⟩ | ⟨_, houtcome, _⟩
      · rcases alone_outcome_iff.mp houtcome with ⟨returned, hreverse, hreturned⟩
        cases hreturned
        cases reversed with
        | error compensation =>
            cases (alone_throw_iff.mp hrest).1
            exact absurd rfl (hcompensated _ _)
        | ok reversed =>
            rcases ih hrest with ⟨rfl, hreversals⟩
            exact ⟨rfl, .cons trivial hreverse hreversals⟩
      · rcases alone_outcome_iff.mp houtcome with ⟨_, _, hvalue⟩
        cases hvalue

theorem failedRun_of_alone {err : LedgerError}
    (halone : Alone (runMovements movements) before (.error err) after)
    (hcompensated : ∀ original compensation, err ≠ .compensationFailed original compensation) :
    FailedRun .none before movements err after := by
  rcases runFrom_error halone with ⟨done, movement, rest, receipts, middle, rfl, hdone, hfailed⟩
  rcases exists_steps hdone with ⟨receipts, rfl, hsteps⟩
  rcases alone_bind_iff.mp hfailed with ⟨transfer, _, hattempt, hrest⟩ | ⟨_, hattempt, herr⟩
  · rcases alone_attempt_iff.mp hattempt with ⟨hbuild, rfl⟩
    rcases alone_bind_iff.mp hrest with ⟨committed, failed, houtcome, hrest⟩ | ⟨_, houtcome, _⟩
    · rcases alone_outcome_iff.mp houtcome with ⟨returned, hcommit, hreturned⟩
      cases hreturned
      cases committed with
      | ok receipt => cases (alone_pure_iff.mp hrest).1
      | error failure =>
          rcases reversals_of_compensate hrest hcompensated with ⟨rfl, hreversals⟩
          exact .committing hsteps hbuild.symm hcommit hreversals
    · rcases alone_outcome_iff.mp houtcome with ⟨_, _, hvalue⟩
      cases hvalue
  · rcases alone_attempt_iff.mp hattempt with ⟨hbuild, rfl⟩
    cases herr
    exact .building hsteps hbuild.symm trivial

theorem Steps.alone {conditions : Conditions} {done rest : List Movement} {middle : World}
    {result : Except LedgerError (List Receipt)} (hsteps : Steps conditions before done all middle)
    (hrest : Alone (runFrom (receipts ++ all) rest) middle result after) :
    Alone (runFrom receipts (done ++ rest)) before result after := by
  induction hsteps generalizing receipts with
  | nil => simpa using hrest
  | @cons _ resolved middle _ _ transfer envelope receipt _ more hbuild hresolve _ hcommit _ ih =>
      have halone : Alone (commit transfer) _ (.ok receipt) middle :=
        alone_bind_ok_iff.mpr ⟨envelope, resolved, hresolve, hcommit⟩
      refine alone_bind_iff.mpr (.inl ⟨transfer, _, alone_attempt_iff.mpr ⟨hbuild.symm, rfl⟩, ?_⟩)
      refine alone_bind_iff.mpr (.inl ⟨_, _, alone_outcome_iff.mpr ⟨_, halone, rfl⟩, ?_⟩)
      exact ih (by rwa [List.append_assoc])

theorem Reversals.alone {conditions : Conditions} (original : LedgerError)
    (hreversals : Reversals conditions before receipts after) :
    Alone (compensate original receipts) before (.error original) after := by
  induction hreversals with
  | nil => exact alone_throw_iff.mpr ⟨rfl, rfl⟩
  | cons _ hreverse _ ih =>
      exact alone_bind_iff.mpr (.inl ⟨_, _, alone_outcome_iff.mpr ⟨_, hreverse, rfl⟩, ih⟩)

theorem FailedRun.alone {conditions : Conditions} {err : LedgerError}
    (hrun : FailedRun conditions before movements err after) :
    Alone (runMovements movements) before (.error err) after := by
  cases hrun with
  | committing hsteps hbuild hcommit hreversals =>
      refine hsteps.alone (alone_bind_iff.mpr (.inl ⟨_, _,
        alone_attempt_iff.mpr ⟨hbuild.symm, rfl⟩, ?_⟩))
      exact alone_bind_iff.mpr (.inl ⟨_, _, alone_outcome_iff.mpr ⟨_, hcommit, rfl⟩,
        hreversals.alone _⟩)
  | building hsteps hbuild _ =>
      exact hsteps.alone (alone_bind_iff.mpr (.inr ⟨_, alone_attempt_iff.mpr ⟨hbuild.symm, rfl⟩,
        rfl⟩))

end Runs

/-! ## There and back -/

section Moves

variable {before resolved after : World} {movement : Movement} {movements : List Movement}
  {transfer : Transfer} {envelope : Envelope} {receipt : Receipt} {receipts : List Receipt}

/-- The receipt is of a stored transfer that is recorded with what the movement moves. -/
def Moved (store : InMemoryStore) (movement : Movement) (receipt : Receipt) : Prop :=
  ∃ record, store.transfers.lookup receipt.transferId = some record ∧
    ∀ key, changeBy store record key = movement.moved key

theorem Moved.later {store later : InMemoryStore} {movement : Movement} {receipt : Receipt}
    (hconsistent : Consistent store) (hevolves : Evolves store later)
    (hmoved : Moved store movement receipt) : Moved later movement receipt := by
  rcases hmoved with ⟨record, hlookup, hchange⟩
  refine ⟨record, hevolves.lookup_transfers hlookup, fun key => ?_⟩
  rw [← hchange, changeBy, changeBy, hevolves.recorded hconsistent hlookup]

/-- A new step adds what it moves, and is recorded with it. -/
theorem moves_of_step (haccounted : Accounted before.store) (hbuild : movement.build = .ok transfer)
    (hresolve : Alone (resolve transfer) before (.ok envelope) resolved)
    (hnew : NewStep before.store envelope)
    (hcommit : Alone (commitEnvelope envelope) resolved (.ok receipt) after) :
    Evolves before.store after.store ∧ Moved after.store movement receipt ∧
      ∀ key, after.store.liveBalance key = before.store.liveBalance key + movement.moved key := by
  have hmoves : Moves (fun _ => True) (fun _ => True) (fun _ => True) (commit transfer) :=
    .of_steps fun _ hwell => commit_steps _ hwell fun _ => trivial
  have halone : Alone (commit transfer) before (.ok receipt) after :=
    alone_bind_ok_iff.mpr ⟨envelope, resolved, hresolve, hcommit⟩
  refine ⟨hmoves.evolves haccounted.wellFormed halone, ?_⟩
  rcases hnew with ⟨hunstored, htaken⟩
  rcases resolve_alone hresolve with ⟨spent, extra, hresolved⟩
  have hstore := (resolve_readOnly transfer).store_eq hresolve
  rcases commitEnvelope_alone (hstore ▸ haccounted.wellFormed) hcommit with
    ⟨pinned, hpinned, hends⟩ | ⟨_, herror, _⟩
  swap
  · cases herror
  rw [hstore] at hpinned hends
  cases hresolved.pinnedIn_eq.symm.trans hpinned
  have hfew : envelope.creates.length ≤ 65536 := by
    have hlength := hresolved.length_creates_le
    have hmovements := Movement.length_build hbuild
    omega
  have hrecords := HashMap.filterMap_lookup_eq
    (hresolved.forall₂_of_taken haccounted.consistent htaken)
  have hmoved : ∀ key, movement.moved key = transfer.incoming key - max 0 (transfer.outgoing key) :=
    fun key => by rw [Movement.moved, hbuild]
  generalize after.store = later at hends ⊢
  cases hends with
  | stored hlookup => exact absurd (HashMap.mem_iff_exists_lookup.mpr ⟨_, hlookup⟩) hunstored
  | @applied order clock req consumed hvalid henvelope hfresh hguards =>
      refine ⟨⟨req.record, ?_, fun key => ?_⟩, fun key => ?_⟩
      · rw [lookup_transfers_applyCommit, if_pos rfl]
      · have hnet := hresolved.net key
        rw [changeBy, hvalid.recorded, ← HashMap.filterMap_lookup_eq hvalid.found, henvelope,
          hrecords, hnet, hmoved]
      · rw [hresolved.liveBalance_applyCommit clock haccounted.consistent hfew hvalid
          (by rw [henvelope]) (by rw [henvelope]) hfresh hguards, hmoved]
        omega

/-- A new reversal gives back what was moved. -/
theorem moves_of_reversal {reversed : Receipt} (haccounted : Accounted before.store)
    (hmoved : Moved before.store movement receipt)
    (hnew : NewReversal before.store receipt.transferId)
    (hreverse : Alone (reverse receipt.transferId) before (.ok reversed) after) :
    Evolves before.store after.store ∧
      ∀ key, after.store.liveBalance key = before.store.liveBalance key - movement.moved key := by
  have hmoves : Moves (fun _ => True) (fun _ => True) (fun _ => True)
      (reverse receipt.transferId) := .of_steps fun _ hwell => reverse_steps _ hwell fun _ => trivial
  refine ⟨hmoves.evolves haccounted.wellFormed hreverse, fun key => ?_⟩
  rcases hmoved with ⟨record, hlookup, hchange⟩
  rcases hnew record hlookup with ⟨hindex, hunstored⟩
  rcases reverse_alone haccounted.wellFormed hlookup hreverse with ⟨pinned, hpinned, hends⟩
  have hunstored : envelopeId pinned ∉ before.store.transfers := by
    refine hunstored pinned ?_
    rw [hpinned]
    rfl
  generalize after.store = later at hends ⊢
  cases hends with
  | stored hlookup => exact absurd (HashMap.mem_iff_exists_lookup.mpr ⟨_, hlookup⟩) hunstored
  | applied clock hvalid henvelope hfresh hguards =>
      rw [liveBalance_of_reversal haccounted.consistent haccounted.faithful hlookup hpinned hvalid
        henvelope hfresh hguards, keyTotal_activated_reversal hindex hpinned,
        keyTotal_reversal hpinned, ← hchange, changeBy]
      omega

/-- What movements change together. -/
def movedBy (movements : List Movement) (key : BalanceKey) : Int :=
  (movements.map fun movement => movement.moved key).sum

/-- New steps add what they move, and are recorded with it. -/
theorem Steps.moves (hsteps : Steps .new before movements receipts after)
    (haccounted : Accounted before.store) :
    Evolves before.store after.store ∧ List.Forall₂ (Moved after.store) movements receipts ∧
      ∀ key, after.store.liveBalance key = before.store.liveBalance key + movedBy movements key := by
  induction hsteps with
  | nil => exact ⟨.refl _, .nil, fun key => by simp [movedBy]⟩
  | @cons before resolved middle after movement _ _ receipt movements receipts hbuild hresolve
      hmeets hcommit hrest ih =>
      rcases moves_of_step haccounted hbuild hresolve hmeets hcommit with ⟨hfirst, hmoved, hadds⟩
      have hmiddle : Accounted middle.store :=
        hfirst.keep Accounted (fun _ _ hstep => hstep.accounted) haccounted
      rcases ih hmiddle with ⟨hlater, hothers, hrest⟩
      refine ⟨hfirst.trans hlater, .cons (hmoved.later hmiddle.consistent hlater) hothers,
        fun key => ?_⟩
      rw [hrest, hadds, movedBy, movedBy, List.map_cons, List.sum_cons, add_assoc]

/-- New reversals give back what was moved. -/
theorem Reversals.moves (hreversals : Reversals .new before receipts after)
    (haccounted : Accounted before.store)
    (hmoved : List.Forall₂ (Moved before.store) movements receipts) (key : BalanceKey) :
    after.store.liveBalance key = before.store.liveBalance key - movedBy movements key := by
  induction hreversals generalizing movements with
  | nil =>
      cases hmoved
      simp [movedBy]
  | @cons before middle after receipt reversed receipts hmeets hreverse hrest ih =>
      cases hmoved with
      | @cons movement _ movements _ hfirst hothers =>
          rcases moves_of_reversal haccounted hfirst hmeets hreverse with ⟨hevolves, hgives⟩
          have hmiddle : Accounted middle.store :=
            hevolves.keep Accounted (fun _ _ hstep => hstep.accounted) haccounted
          have hothers := hothers.imp fun _ _ hmoved =>
            hmoved.later haccounted.consistent hevolves
          rw [ih hmiddle hothers, hgives, movedBy, movedBy, List.map_cons, List.sum_cons]
          omega

end Moves

variable [Cbor]

/-- In every reachable state, a workflow that runs alone and fails, without failing to
compensate, is a run of steps and reversals. When in such a run each step and each
reversal is new to the store before it, and the movement at which it fails can be built
or is the first one, every balance is as before. -/
theorem runMovements_restores (ledger : Ledger) (actions : List ServiceAction)
    (movements : List Movement) (err : LedgerError) (after : World)
    (hcompensated : ∀ original compensation, err ≠ .compensationFailed original compensation) :
    (Alone (runMovements movements) (ServicePool.after ledger actions).shared (.error err) after ↔
      FailedRun .none (ServicePool.after ledger actions).shared movements err after) ∧
    (FailedRun .new (ServicePool.after ledger actions).shared movements err after →
      ∀ key, after.store.liveBalance key = (servedStore ledger actions).liveBalance key) := by
  refine ⟨⟨fun halone => failedRun_of_alone halone hcompensated, FailedRun.alone⟩,
    fun hrun key => ?_⟩
  have haccounted := accounted_served ledger actions
  cases hrun with
  | @committing done _ movement receipts middle failed _ transfer _ hsteps _ hcommit hreversals =>
      rcases hsteps.moves haccounted with ⟨hevolves, hmoved, hadds⟩
      have hmiddle : Accounted middle.store :=
        hevolves.keep Accounted (fun _ _ hstep => hstep.accounted) haccounted
      have hsame := commit_error hmiddle.wellFormed hcommit
      rw [← hsame] at hmiddle hmoved
      have hback := hreversals.moves hmiddle (List.rel_reverse hmoved) key
      have hthere := hadds key
      have hreverse : movedBy done.reverse key = movedBy done key := by
        simp [movedBy, List.sum_reverse]
      rw [hback, hsame, hthere, hreverse, add_sub_cancel_right]
  | building hsteps _ hmeets =>
      cases hmeets
      cases hsteps
      rfl

end Theory

open Sample in
/-- Alice is given 50, and is to pay 100 then. -/
def unaffordable : List Movement :=
  [.deposit ⟨alice, usd, .ofI64 50, external⟩, .pay ⟨alice, bob, usd, .ofI64 100⟩]

open Sample in
/-- The deposit is new, the payment fails, and the reversal of the deposit is new: alice
has what she had. -/
theorem runMovements_restores_unaffordable : ∃ after,
    Alone (runMovements unaffordable) (ServicePool.after ledger unfunded).shared
      (.error (.selection ⟨.ofI64 50, .ofI64 100⟩)) after ∧
    ∀ key, after.store.liveBalance key = (servedStore ledger unfunded).liveBalance key := by
  let start := (ServicePool.after ledger unfunded).shared
  let payment : Transfer := ⟨[⟨alice, bob, usd, .ofI64 100⟩], DEFAULT_BOOK, .empty⟩
  have hany : (Async.runWith noon (resolve (deposit 50)).run start).1.toOption.any (fun envelope =>
      decide (NewStep start.store envelope ∧ (Async.runWith noon (commitEnvelope envelope).run
        (Async.runWith noon (resolve (deposit 50)).run start).2).1.toOption.any (fun receipt =>
          decide (
            let middle := (Async.runWith noon (commitEnvelope envelope).run
              (Async.runWith noon (resolve (deposit 50)).run start).2).2
            let failed := Async.runWith noon (commit payment).run middle
            failure failed.1 = some (.selection ⟨.ofI64 50, .ofI64 100⟩) ∧
              NewReversal failed.2.store receipt.transferId ∧
              failure (Async.runWith noon (reverse receipt.transferId).run failed.2).1 =
                none)) = true)) = true := by
    decide +kernel
  obtain ⟨envelope, hresolved, hnew, hany⟩ := exists_ok_of_any hany
  obtain ⟨receipt, hcommitted, hfailed, hreversal, hreversed⟩ := exists_ok_of_any hany
  obtain ⟨reversed, hreversed⟩ := exists_of_no_failure hreversed
  have hresolve := Async.runs_runWith noon (resolve (deposit 50)).run start
  rw [hresolved] at hresolve
  have hcommit := Async.runs_runWith noon (commitEnvelope envelope).run
    (Async.runWith noon (resolve (deposit 50)).run start).2
  rw [hcommitted] at hcommit
  have hfails := Async.runs_runWith noon (commit payment).run
    (Async.runWith noon (commitEnvelope envelope).run
      (Async.runWith noon (resolve (deposit 50)).run start).2).2
  rw [eq_error_of_failure hfailed] at hfails
  have hreverse := Async.runs_runWith noon (reverse receipt.transferId).run
    (Async.runWith noon (commit payment).run (Async.runWith noon (commitEnvelope envelope).run
      (Async.runWith noon (resolve (deposit 50)).run start).2).2).2
  rw [hreversed] at hreverse
  have hsteps : Steps .new start [.deposit ⟨alice, usd, .ofI64 50, external⟩] [receipt] _ :=
    .cons rfl hresolve hnew hcommit .nil
  have hrun : FailedRun .new start ([.deposit ⟨alice, usd, .ofI64 50, external⟩] ++
      .pay ⟨alice, bob, usd, .ofI64 100⟩ :: []) (.selection ⟨.ofI64 50, .ofI64 100⟩) _ :=
    .committing hsteps rfl hfails (.cons hreversal hreverse .nil)
  exact ⟨_, hrun.alone, (runMovements_restores ledger unfunded unaffordable
    (.selection ⟨.ofI64 50, .ofI64 100⟩) _ nofun).2 hrun⟩

open Sample in
/-- The smallest amount has no negation, so the second deposit cannot be built. The
first one stays. -/
theorem runMovements_keeps_deposit :
    let movements : List Movement := [.deposit ⟨alice, usd, .ofI64 5, external⟩,
      .deposit ⟨alice, usd, .ofI64 Int64.minValue, external⟩]
    ∃ after, Alone (runMovements movements) (ServicePool.after ledger unfunded).shared
        (.error .overflow) after ∧
      (servedStore ledger unfunded).liveBalance (alice, usd) = 0 ∧
      after.store.liveBalance (alice, usd) = 5 := by
  intro movements
  let before := (ServicePool.after ledger unfunded).shared
  let outcome := Async.runWith noon (runMovements movements).run before
  have hruns := Async.runs_runWith noon (runMovements movements).run before
  have hends : failure outcome.1 = some .overflow ∧ before.store.liveBalance (alice, usd) = 0 ∧
      outcome.2.store.liveBalance (alice, usd) = 5 := by
    decide +kernel
  rw [eq_error_of_failure hends.1] at hruns
  exact ⟨_, hruns, hends.2⟩

end Kuatia.Saga
