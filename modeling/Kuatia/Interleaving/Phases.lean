import Kuatia.Interleaving.History

/-! # Calls that go through phases

The actions that a call takes itself follow an order that its program fixes. A
phase remembers how far the call has come: every action leads from one phase to
the next in a way that is allowed there. The phases of all calls are ghost state
beside the pool, and invariants may relate them to the shared state.
-/

universe u v w x

namespace Async

variable {ε : Type u} {σ : Type v} {α β : Type w} {Phase : Type}
  {allowed allowed' : Phase → σ → σ → Phase → Prop}

/-- In whatever state each action of the program finds the shared state, it leads
from `phase` on in an allowed way, and a result is returned in a phase that
satisfies `post`. -/
def Follows (allowed : Phase → σ → σ → Phase → Prop) (post : Phase → α → Prop) :
    Phase → Async ε σ α → Prop
  | phase, .done result => post phase result
  | phase, .step update next => ∀ choice state, ∃ later,
      allowed phase state (update choice state) later ∧
        Follows allowed post later (next choice state)

namespace Follows

variable {post post' : Phase → α → Prop} {after : Phase → β → Prop} {phase : Phase}

theorem mono {program : Async ε σ α} (hfollows : Follows allowed post phase program)
    (hallowed : ∀ phase before after later, allowed phase before after later →
      allowed' phase before after later)
    (hpost : ∀ later result, post later result → post' later result) :
    Follows allowed' post' phase program := by
  induction program generalizing phase with
  | done result => exact hpost _ _ hfollows
  | step update next ih =>
      intro choice state
      obtain ⟨later, hstep, hrest⟩ := hfollows choice state
      exact ⟨later, hallowed _ _ _ _ hstep, ih choice state hrest⟩

theorem weaken {program : Async ε σ α} (hfollows : Follows allowed post phase program)
    (hpost : ∀ later result, post later result → post' later result) :
    Follows allowed post' phase program :=
  hfollows.mono (fun _ _ _ _ hstep => hstep) hpost

/-- A program that may do anything in its phase. -/
theorem idle (hallowed : ∀ before after, allowed phase before after phase)
    (program : Async ε σ α) : Follows allowed (fun _ _ => True) phase program := by
  induction program with
  | done => trivial
  | step update next ih => exact fun choice state => ⟨phase, hallowed _ _, ih choice state⟩

theorem bind {program : Async ε σ α} {rest : α → Async ε σ β}
    (hfollows : Follows allowed post phase program)
    (hrest : ∀ later result, post later result → Follows allowed after later (rest result)) :
    Follows allowed after phase (program >>= rest) := by
  induction program generalizing phase with
  | done result => exact hrest _ _ hfollows
  | step update next ih =>
      intro choice state
      obtain ⟨later, hstep, hnext⟩ := hfollows choice state
      exact ⟨later, hstep, ih choice state hnext⟩

/-- A program all of whose actions are allowed in a phase stays in it. -/
theorem stay {promise : σ → σ → Prop} {result : α → σ → Prop} {program : Async ε σ α} {state : σ}
    (hprogram : Guarantees anyAction (fun _ _ => True) promise result program state)
    (hallowed : ∀ before after, promise before after → allowed phase before after phase) :
    Follows allowed (fun later _ => later = phase) phase program := by
  induction program generalizing state with
  | done => rfl
  | step update next ih =>
      intro choice found
      obtain ⟨hstep, hrest⟩ := hprogram found trivial choice trivial
      exact ⟨phase, hallowed _ _ hstep, ih choice found hrest⟩

end Follows

end Async

namespace Interleaving

open Async

variable {Req : Type x} {ε : Type u} {σ : Type v} {ρ : Type w} {Phase : Type}
  {program : Req → Async ε σ ρ} {allowed : Req → Phase → σ → σ → Phase → Prop} {start : Phase}

/-- The phases that the calls of a pool are in; a call that has not started yet is
in the first one. -/
structure Pool.Phased (allowed : Req → Phase → σ → σ → Phase → Prop) (start : Phase)
    (pool : Pool Req ε σ ρ) (phases : Nat → Phase) : Prop where
  follows : ∀ index call, pool.calls[index]? = some call →
    Follows (allowed call.request) (fun _ _ => True) (phases index) call.rest
  waiting : ∀ index, pool.calls.length ≤ index → phases index = start

/-- An action leaves the shared state and the phases alone, or it is an action of
one call and leads that call on. -/
theorem Pool.Phased.act {pool : Pool Req ε σ ρ} {phases : Nat → Phase}
    (hphased : pool.Phased allowed start phases)
    (hstart : ∀ request, Follows (allowed request) (fun _ _ => True) start (program request))
    (action : Action Req ε) :
    ((pool.act program action).shared = pool.shared ∧
      (pool.act program action).Phased allowed start phases) ∨
    ∃ index choice call later, action = .advance index choice ∧ pool.calls[index]? = some call ∧
      allowed call.request (phases index) pool.shared (pool.act program action).shared later ∧
      (pool.act program action).Phased allowed start (Function.update phases index later) := by
  cases action with
  | start request =>
      refine .inl ⟨rfl, fun index call hcall => ?_, fun index hindex => ?_⟩
      · obtain hold | ⟨_, heq, hlength, rfl⟩ | ⟨_, _, _, _, heq, _⟩ := Pool.act_call_cases hcall
        · exact hphased.follows index call hold
        · cases heq
          rw [hphased.waiting index (Nat.le_of_eq hlength)]
          exact hstart request
        · cases heq
      · apply hphased.waiting
        exact Nat.le_trans (pool.length_act_calls (.start request)) hindex
  | advance index choice =>
      cases hcall : pool.calls[index]? with
      | none => exact .inl (by simpa [Pool.act, hcall] using hphased)
      | some call =>
          obtain ⟨request, rest⟩ := call
          have hfollows := hphased.follows index _ hcall
          cases rest with
          | done result =>
              have hkeep : pool.calls.set index ⟨request, .done result⟩ = pool.calls :=
                List.set_eq_self_of_getElem? hcall
              exact .inl (by simpa [Pool.act, hcall, Call.advance, hkeep] using hphased)
          | step update next =>
              obtain ⟨later, hstep, hrest⟩ := hfollows choice pool.shared
              have hlength := (List.getElem?_eq_some_iff.mp hcall).1
              refine .inr ⟨index, choice, _, later, rfl, hcall, ?_, ?_, ?_⟩
              · simpa [Pool.act, hcall, Call.advance] using hstep
              · -- the call that has acted is in its next phase, and every other one where it was
                intro other call hother
                simp only [Pool.act, hcall, Call.advance] at hother
                by_cases hsame : other = index
                · subst hsame
                  rw [List.getElem?_set_self hlength] at hother
                  cases hother
                  rw [Function.update_self]
                  exact hrest
                · rw [List.getElem?_set_ne (Ne.symm hsame)] at hother
                  rw [Function.update_of_ne hsame]
                  exact hphased.follows other call hother
              · intro other hother
                simp only [Pool.act, hcall, Call.advance, List.length_set] at hother
                rw [Function.update_of_ne (by omega)]
                exact hphased.waiting other hother

theorem Pool.phased_nil (shared : σ) :
    (⟨shared, []⟩ : Pool Req ε σ ρ).Phased allowed start fun _ => start where
  follows _ _ hcall := by cases hcall
  waiting _ _ := rfl

end Interleaving
