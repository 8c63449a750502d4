import Kuatia.Ledger.Clients

/-! # Runs of any number of clients

Every action of a run is a step of the store, so a property of the store that
every step keeps holds in every reachable state.
-/

namespace Kuatia

open Async Interleaving LedgerM

variable [MoneyWidth] [Sha256] (ledger : Ledger)

/-- The store after a run. -/
abbrev storeAfter (actions : List LedgerAction) : InMemoryStore :=
  (LedgerPool.after ledger actions).shared.store

theorem after_append_singleton (actions : List LedgerAction) (action : LedgerAction) :
    LedgerPool.after ledger (actions ++ [action]) =
      (LedgerPool.after ledger actions).act ledger.program action :=
  Pool.run_append ledger.program LedgerPool.initial actions [action]

section Assuming

variable {assume : Request → Async Choice World (Except LedgerError Response) → Choice → World → Prop}
  {submits : Request → Envelope → Prop} {ledger}

/-- The operations commit only what `submits` allows, in runs that respect `assume`. -/
def Submitting (ledger : Ledger)
    (assume : Request → Async Choice World (Except LedgerError Response) → Choice → World → Prop)
    (submits : Request → Envelope → Prop) : Prop :=
  ∀ request state, WellFormed state.store →
    Keeps (assume request) Interferes (LedgerStep (submits request)) (fun _ _ => True)
      (ledger.operation request) state

theorem sound_after (hsubmitting : Submitting ledger assume submits) {actions : List LedgerAction}
    (hrun : LedgerPool.initial.Respects ledger.program assume actions) :
    (LedgerPool.after ledger actions).Sound assume Interferes
        (fun request => LedgerStep (submits request)) ∧
      WellFormed (storeAfter ledger actions) := by
  have hcommits : Commits ledger.operation assume submits := hsubmitting
  exact hcommits.sound hrun

/-- The next action of a run is a step of the call that takes it. -/
theorem step_after (hsubmitting : Submitting ledger assume submits) {actions : List LedgerAction}
    {action : LedgerAction}
    (hrun : LedgerPool.initial.Respects ledger.program assume (actions ++ [action])) :
    storeAfter ledger (actions ++ [action]) = storeAfter ledger actions ∨
      ∃ index choice call, action = .advance index choice ∧
        (LedgerPool.after ledger actions).calls[index]? = some call ∧
        StoreStep (submits call.request) (storeAfter ledger actions)
          (storeAfter ledger (actions ++ [action])) := by
  have hcommits : Commits ledger.operation assume submits := hsubmitting
  exact hcommits.step hrun

end Assuming

theorem submitting_any : Submitting ledger (fun _ => anyAction) fun _ _ => True :=
  fun request _ hwell => operation_steps ledger request hwell fun _ => trivial

/-- One more action is one more step of the store, whatever the run. -/
theorem storeStep_after (actions : List LedgerAction) (action : LedgerAction) :
    StoreStep (fun _ => True) (storeAfter ledger actions)
      (storeAfter ledger (actions ++ [action])) := by
  obtain hsame | ⟨_, _, _, _, _, hstep⟩ := step_after (submitting_any ledger)
    (Pool.respects_anyAction ledger.program LedgerPool.initial (actions ++ [action]))
  · rw [hsame]
    exact .idle _
  · exact hstep

theorem wellFormed_after (actions : List LedgerAction) : WellFormed (storeAfter ledger actions) :=
  (sound_after (submitting_any ledger)
    (Pool.respects_anyAction ledger.program LedgerPool.initial actions)).2

/-- Induction over the reachable states of the store. -/
theorem reachable_induction {inv : InMemoryStore → Prop} (hnew : inv .new)
    (hkeep : ∀ before after, WellFormed before → StoreStep (fun _ => True) before after →
      inv before → inv after) (actions : List LedgerAction) : inv (storeAfter ledger actions) := by
  induction actions using List.reverseRecOn with
  | nil => exact hnew
  | append_singleton actions action ih =>
      exact hkeep _ _ (wellFormed_after ledger actions) (storeStep_after ledger actions action) ih

theorem evolves_after (first second : List LedgerAction) :
    Evolves (storeAfter ledger first) (storeAfter ledger (first ++ second)) := by
  induction second using List.reverseRecOn with
  | nil =>
      rw [List.append_nil]
      exact .refl _
  | append_singleton second action ih =>
      rw [← List.append_assoc]
      exact ih.trans (.of_step (storeStep_after ledger (first ++ second) action))

theorem evolves_later {first later : List LedgerAction} (hlater : first <+: later) :
    Evolves (storeAfter ledger first) (storeAfter ledger later) := by
  obtain ⟨more, rfl⟩ := hlater
  exact evolves_after ledger first more

/-- Every action of a run sees a store that evolves into the last one. -/
theorem respects_evolves (first rest : List LedgerAction) :
    (LedgerPool.after ledger first).Respects ledger.program
      (fun _ _ _ world => Evolves world.store (storeAfter ledger (first ++ rest))) rest := by
  induction rest generalizing first with
  | nil => trivial
  | cons action rest ih =>
      refine ⟨fun _ _ _ _ _ => evolves_after ledger first (action :: rest), ?_⟩
      rw [← after_append_singleton, List.append_cons]
      exact ih (first ++ [action])

/-- A call that runs alone under one choice extends a run and returns. -/
theorem exists_call_with (actions : List LedgerAction) (request : Request) (choice : Choice) :
    ∃ n, LedgerPool.after ledger (actions ++ .start request ::
        .replicate n (.advance (LedgerPool.after ledger actions).calls.length choice)) =
      ⟨(runWith choice (ledger.program request) (LedgerPool.after ledger actions).shared).2,
        (LedgerPool.after ledger actions).calls ++ [⟨request,
          .done (runWith choice (ledger.program request)
            (LedgerPool.after ledger actions).shared).1⟩]⟩ := by
  let started := (LedgerPool.after ledger actions).act ledger.program (.start request)
  have hcall : started.calls[(LedgerPool.after ledger actions).calls.length]? =
      some ⟨request, ledger.program request⟩ := List.getElem?_concat_length
  obtain ⟨n, hrun⟩ := Pool.exists_run_with ledger.program choice hcall
  refine ⟨n, ?_⟩
  rw [LedgerPool.after, Pool.run_append, Pool.run_cons]
  refine hrun.trans (congrArg (Pool.mk _) ?_)
  refine (List.set_append_right _ _ (Nat.le_refl _)).trans ?_
  rw [Nat.sub_self]
  rfl

/-- What an operation does when it runs alone is the end of some run. -/
theorem exists_run_alone (actions : List LedgerAction) (request : Request)
    {result : Except LedgerError Response} {after : World}
    (halone : Async.Runs (ledger.program request) (LedgerPool.after ledger actions).shared result
      after) : ∃ more, (LedgerPool.after ledger (actions ++ more)).shared = after := by
  let index := (LedgerPool.after ledger actions).calls.length
  let started := (LedgerPool.after ledger actions).act ledger.program (.start request)
  have hcall : started.calls[index]? = some ⟨request, ledger.program request⟩ :=
    List.getElem?_concat_length
  obtain ⟨choices, hrun⟩ := Pool.exists_run_of_runs ledger.program hcall halone
  refine ⟨.start request :: choices.map (.advance index), ?_⟩
  rw [LedgerPool.after, Pool.run_append, Pool.run_cons]
  exact congrArg Pool.shared hrun

end Kuatia
