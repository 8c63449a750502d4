import Kuatia.Ledger.Guarantees

/-! # Clients of one store

Whatever the operations of a service are, as long as each of them moves the
store in steps, a property of the store that every step keeps holds in every
state that any number of clients may reach from the empty store.
-/

namespace Kuatia

open Async Interleaving LedgerM

variable [MoneyWidth] [Sha256] {Req α : Type} {operation : Req → LedgerM α}
  {assume : Req → Async Choice World (Except LedgerError α) → Choice → World → Prop}
  {submits : Req → Envelope → Prop}

/-- The operations commit only what `submits` allows, in runs that respect `assume`. -/
def Commits (operation : Req → LedgerM α)
    (assume : Req → Async Choice World (Except LedgerError α) → Choice → World → Prop)
    (submits : Req → Envelope → Prop) : Prop :=
  ∀ request state, WellFormed state.store →
    Keeps (assume request) Interferes (LedgerStep (submits request)) (fun _ _ => True)
      (operation request) state

/-- The pool after a run of such operations from the empty store. -/
abbrev poolAfter (operation : Req → LedgerM α) (actions : List (Action Req Choice)) :
    Pool Req Choice World (Except LedgerError α) :=
  Pool.run (fun request => (operation request).run) ⟨⟨.new, none⟩, []⟩ actions

namespace Commits

theorem sound (hcommits : Commits operation assume submits) {actions : List (Action Req Choice)}
    (hrun : Pool.Respects (fun request => (operation request).run) assume ⟨⟨.new, none⟩, []⟩
      actions) :
    (poolAfter operation actions).Sound assume Interferes
        (fun request => LedgerStep (submits request)) ∧
      WellFormed (poolAfter operation actions).shared.store := by
  have hsteps : ∀ request (before after : World), LedgerStep (submits request) before after →
      Interferes before after := fun _ _ _ => Evolves.of_step
  have hprogram : ∀ request state, WellFormed state.store →
      Guarantees (assume request) Interferes (LedgerStep (submits request)) (fun _ _ => True)
        (operation request).run state := fun request state hwell =>
    Guarantees.weakenPost (hcommits request state hwell) fun _ _ _ => trivial
  have hkeep : ∀ request (before after : World), WellFormed before.store →
      LedgerStep (submits request) before after → WellFormed after.store :=
    fun _ _ _ hwell hstep => StoreStep.wellFormed hstep hwell
  have henv : Environment Interferes (LedgerStep fun _ => True) := environment
  exact Pool.run_induction henv.refl henv.trans hsteps hprogram hkeep
    (fun _ hcall => absurd hcall List.not_mem_nil) wellFormed_new actions hrun

/-- The next action of a run is a step of the call that takes it. -/
theorem step (hcommits : Commits operation assume submits) {actions : List (Action Req Choice)}
    {action : Action Req Choice}
    (hrun : Pool.Respects (fun request => (operation request).run) assume ⟨⟨.new, none⟩, []⟩
      (actions ++ [action])) :
    (poolAfter operation (actions ++ [action])).shared.store =
        (poolAfter operation actions).shared.store ∨
      ∃ index choice call, action = .advance index choice ∧
        (poolAfter operation actions).calls[index]? = some call ∧
        StoreStep (submits call.request) (poolAfter operation actions).shared.store
          (poolAfter operation (actions ++ [action])).shared.store := by
  obtain ⟨hfirst, hlast⟩ := hrun.of_append
  have hsound := (hcommits.sound hfirst).1
  rw [poolAfter, Pool.run_append]
  have henv : Environment Interferes (LedgerStep fun _ => True) := environment
  obtain hsame | ⟨index, choice, call, haction, hcall, hstep⟩ :=
    Pool.Sound.act_shared hsound henv.refl action hlast.1
  · exact .inl (congrArg World.store hsame)
  · exact .inr ⟨index, choice, call, haction, hcall, hstep⟩

end Commits

end Kuatia
