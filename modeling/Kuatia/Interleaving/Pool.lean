import Kuatia.Interleaving.RelyGuarantee
import Mathlib.Data.List.Basic

/-! # Any number of interleaved calls

A pool is a shared state with the calls made so far, each at some point of its
program. At any time a new call may start, or some call may take its next
action. Calls are never removed, so the position of a call in the list is its
identity, and a client that issues its calls one after the other is one of the
interleavings of the pool.
-/

universe u v w x

namespace Interleaving

open Async

/-- One call: what was asked, and what is left to run. -/
structure Call (Req : Type x) (ε : Type u) (σ : Type v) (ρ : Type w) where
  request : Req
  rest : Async ε σ ρ

/-- The shared state and every call made so far. -/
structure Pool (Req : Type x) (ε : Type u) (σ : Type v) (ρ : Type w) where
  shared : σ
  calls : List (Call Req ε σ ρ)

/-- What may happen next: a call starts, or a call takes one action. -/
inductive Action (Req : Type x) (ε : Type u) where
  | start (request : Req)
  | advance (call : Nat) (choice : ε)

variable {Req : Type x} {ε : Type u} {σ : Type v} {ρ : Type w}

theorem List.set_eq_self_of_getElem? {α : Type*} {list : List α} {index : Nat} {value : α}
    (hvalue : list[index]? = some value) : list.set index value = list := by
  obtain ⟨hlength, rfl⟩ := List.getElem?_eq_some_iff.mp hvalue
  exact List.set_getElem_self hlength

def Call.advance (call : Call Req ε σ ρ) (choice : ε) (shared : σ) : Call Req ε σ ρ × σ :=
  match call.rest with
  | .done _ => (call, shared)
  | .step update next =>
      ({ call with rest := next choice shared }, update choice shared)

namespace Pool

variable (program : Req → Async ε σ ρ)

def act (pool : Pool Req ε σ ρ) : Action Req ε → Pool Req ε σ ρ
  | .start request => { pool with calls := pool.calls ++ [⟨request, program request⟩] }
  | .advance index choice =>
      match pool.calls[index]? with
      | none => pool
      | some call =>
          let (next, shared) := call.advance choice pool.shared
          ⟨shared, pool.calls.set index next⟩

def run (pool : Pool Req ε σ ρ) (actions : List (Action Req ε)) : Pool Req ε σ ρ :=
  actions.foldl (act program) pool

@[simp] theorem run_nil (pool : Pool Req ε σ ρ) : pool.run program [] = pool := rfl

@[simp] theorem run_cons (pool : Pool Req ε σ ρ) (action : Action Req ε)
    (actions : List (Action Req ε)) :
    pool.run program (action :: actions) = (pool.act program action).run program actions := rfl

theorem run_append (pool : Pool Req ε σ ρ) (first second : List (Action Req ε)) :
    pool.run program (first ++ second) = (pool.run program first).run program second :=
  List.foldl_append

/-- Every action of a run that advances a call meets the assumption. -/
def Respects (assume : Req → Async ε σ ρ → ε → σ → Prop) :
    Pool Req ε σ ρ → List (Action Req ε) → Prop
  | _, [] => True
  | pool, action :: actions =>
      (∀ index choice, action = .advance index choice → ∀ call, pool.calls[index]? = some call →
        assume call.request call.rest choice pool.shared) ∧
      Respects assume (pool.act program action) actions

variable {program} in
theorem Respects.start {assume : Req → Async ε σ ρ → ε → σ → Prop} {pool : Pool Req ε σ ρ}
    {actions : List (Action Req ε)} {request : Req}
    (hrest : (pool.act program (.start request)).Respects program assume actions) :
    pool.Respects program assume (.start request :: actions) :=
  ⟨nofun, hrest⟩

variable {program} in
theorem Respects.advance {assume : Req → Async ε σ ρ → ε → σ → Prop} {pool : Pool Req ε σ ρ}
    {actions : List (Action Req ε)} {index : Nat} {choice : ε} {call : Call Req ε σ ρ}
    (hcall : pool.calls[index]? = some call)
    (hassume : assume call.request call.rest choice pool.shared)
    (hrest : (pool.act program (.advance index choice)).Respects program assume actions) :
    pool.Respects program assume (.advance index choice :: actions) := by
  refine ⟨fun other taken haction acting hacting => ?_, hrest⟩
  cases haction
  rw [hcall] at hacting
  cases hacting
  exact hassume

theorem respects_anyAction (pool : Pool Req ε σ ρ) (actions : List (Action Req ε)) :
    pool.Respects program (fun _ => anyAction) actions := by
  induction actions generalizing pool with
  | nil => trivial
  | cons action actions ih => exact ⟨fun _ _ _ _ _ => trivial, ih _⟩

theorem Respects.mono {assume assume' : Req → Async ε σ ρ → ε → σ → Prop} {pool : Pool Req ε σ ρ}
    {actions : List (Action Req ε)} (hrun : pool.Respects program assume actions)
    (hassume : ∀ request rest choice state, assume request rest choice state →
      assume' request rest choice state) : pool.Respects program assume' actions := by
  induction actions generalizing pool with
  | nil => trivial
  | cons action actions ih =>
      exact ⟨fun index choice haction call hcall =>
        hassume _ _ _ _ (hrun.1 index choice haction call hcall), ih hrun.2⟩

theorem Respects.and {assume assume' : Req → Async ε σ ρ → ε → σ → Prop} {pool : Pool Req ε σ ρ}
    {actions : List (Action Req ε)} (hrun : pool.Respects program assume actions)
    (hrun' : pool.Respects program assume' actions) :
    pool.Respects program (fun request rest choice state =>
      assume request rest choice state ∧ assume' request rest choice state) actions := by
  induction actions generalizing pool with
  | nil => trivial
  | cons action actions ih =>
      exact ⟨fun index choice haction call hcall => ⟨hrun.1 index choice haction call hcall,
        hrun'.1 index choice haction call hcall⟩, ih hrun.2 hrun'.2⟩

theorem Respects.append {assume : Req → Async ε σ ρ → ε → σ → Prop} {pool : Pool Req ε σ ρ}
    {first second : List (Action Req ε)}
    (hfirst : pool.Respects program assume first)
    (hsecond : (pool.run program first).Respects program assume second) :
    pool.Respects program assume (first ++ second) := by
  induction first generalizing pool with
  | nil => exact hsecond
  | cons action actions ih => exact ⟨hfirst.1, ih hfirst.2 hsecond⟩

theorem Respects.of_append {assume : Req → Async ε σ ρ → ε → σ → Prop} {pool : Pool Req ε σ ρ}
    {first second : List (Action Req ε)}
    (h : pool.Respects program assume (first ++ second)) :
    pool.Respects program assume first ∧
      (pool.run program first).Respects program assume second := by
  induction first generalizing pool with
  | nil => exact ⟨trivial, h⟩
  | cons action actions ih =>
      obtain ⟨hfirst, hsecond⟩ := ih h.2
      exact ⟨⟨h.1, hfirst⟩, hsecond⟩

section Guarantee

variable (assume : Req → Async ε σ ρ → ε → σ → Prop) (rely : σ → σ → Prop)
  (guarantee : Req → σ → σ → Prop)

/-- Every call of the pool still keeps the promise of its request. -/
def Sound (pool : Pool Req ε σ ρ) : Prop :=
  ∀ call ∈ pool.calls,
    Guarantees (assume call.request) rely (guarantee call.request) (fun _ _ => True) call.rest pool.shared

variable {program assume rely guarantee}

/-- One action of a sound pool either leaves the shared state alone or moves it
along the guarantee of the call that acts. -/
theorem Sound.act_shared {pool : Pool Req ε σ ρ} (hsound : pool.Sound assume rely guarantee)
    (hrefl : ∀ a, rely a a) (action : Action Req ε)
    (hassume : ∀ index choice, action = .advance index choice →
      ∀ call, pool.calls[index]? = some call → assume call.request call.rest choice pool.shared) :
    (pool.act program action).shared = pool.shared ∨
      ∃ index choice call, action = .advance index choice ∧ pool.calls[index]? = some call ∧
        guarantee call.request pool.shared (pool.act program action).shared := by
  cases action with
  | start request => exact .inl rfl
  | advance index choice =>
      cases hcall : pool.calls[index]? with
      | none => exact .inl (by simp [act, hcall])
      | some call =>
          have hmem := List.mem_of_getElem? hcall
          have hpromise := hsound call hmem
          have hchoice := hassume index choice rfl call hcall
          obtain ⟨request, rest⟩ := call
          cases rest with
          | done result => exact .inl (by simp [act, hcall, Call.advance])
          | step update next =>
              obtain ⟨hstep, _⟩ := hpromise pool.shared (hrefl _) choice hchoice
              exact .inr ⟨index, choice, _, rfl, hcall, by simpa [act, hcall, Call.advance]⟩

/-- Soundness of the pool is kept by every action, when programs keep the
promise of their request from any state that satisfies `inv`. -/
theorem Sound.act {inv : σ → Prop} {pool : Pool Req ε σ ρ}
    (hsound : pool.Sound assume rely guarantee)
    (hrefl : ∀ a, rely a a) (htrans : ∀ a b c, rely a b → rely b c → rely a c)
    (hguarantee : ∀ request before after, guarantee request before after → rely before after)
    (hprogram : ∀ request state, inv state →
      Guarantees (assume request) rely (guarantee request) (fun _ _ => True) (program request) state)
    (hinv : inv pool.shared) (action : Action Req ε)
    (hassume : ∀ index choice, action = .advance index choice →
      ∀ call, pool.calls[index]? = some call → assume call.request call.rest choice pool.shared) :
    (pool.act program action).Sound assume rely guarantee := by
  cases action with
  | start request =>
      intro call hcall
      rcases List.mem_append.mp hcall with hcall | hcall
      · exact hsound call hcall
      · rw [List.mem_singleton.mp hcall]
        exact hprogram request pool.shared hinv
  | advance index choice =>
      cases hcall : pool.calls[index]? with
      | none => simpa [Pool.act, hcall] using hsound
      | some acting =>
          have hmem := List.mem_of_getElem? hcall
          have hpromise := hsound acting hmem
          have hchoice := hassume index choice rfl acting hcall
          obtain ⟨request, rest⟩ := acting
          cases rest with
          | done result =>
              have hkeep : pool.calls.set index ⟨request, .done result⟩ = pool.calls :=
                List.set_eq_self_of_getElem? hcall
              simpa [Pool.act, hcall, Call.advance, hkeep] using hsound
          | step update next =>
              obtain ⟨hstep, hrest⟩ := hpromise pool.shared (hrefl _) choice hchoice
              intro call hmem'
              simp only [Pool.act, hcall, Call.advance] at hmem' ⊢
              rcases List.mem_or_eq_of_mem_set hmem' with hold | rfl
              · have hmoved : rely pool.shared (update choice pool.shared) :=
                  hguarantee request _ _ hstep
                exact (hsound call hold).later htrans hmoved
              · exact hrest

/-- Induction over the runs of a pool whose calls keep their promises: a
property of the shared state holds throughout when every guarantee keeps it. -/
theorem run_induction {inv : σ → Prop}
    (hrefl : ∀ a, rely a a) (htrans : ∀ a b c, rely a b → rely b c → rely a c)
    (hguarantee : ∀ request before after, guarantee request before after → rely before after)
    (hprogram : ∀ request state, inv state →
      Guarantees (assume request) rely (guarantee request) (fun _ _ => True) (program request) state)
    (hkeep : ∀ request before after, inv before → guarantee request before after → inv after)
    {pool : Pool Req ε σ ρ} (hsound : pool.Sound assume rely guarantee) (hinv : inv pool.shared)
    (actions : List (Action Req ε)) (hrun : pool.Respects program assume actions) :
    (pool.run program actions).Sound assume rely guarantee ∧
      inv (pool.run program actions).shared := by
  induction actions generalizing pool with
  | nil => exact ⟨hsound, hinv⟩
  | cons action actions ih =>
      refine ih (hsound.act hrefl htrans hguarantee hprogram hinv action hrun.1) ?_ hrun.2
      obtain hsame | ⟨_, _, call, _, _, hstep⟩ := hsound.act_shared hrefl action hrun.1
      · rw [hsame]
        exact hinv
      · exact hkeep _ _ _ hinv hstep

end Guarantee

/-! ## Running one call of the pool alone -/

/-- A program run alone is one of the interleavings of the pool: the call that
runs it is advanced until it returns. -/
theorem exists_run_of_runs {pool : Pool Req ε σ ρ} {index : Nat} {call : Call Req ε σ ρ}
    (hcall : pool.calls[index]? = some call) {result : ρ} {final : σ}
    (hruns : Runs call.rest pool.shared result final) :
    ∃ choices : List ε,
      pool.run program (choices.map (.advance index)) =
        ⟨final, pool.calls.set index ⟨call.request, .done result⟩⟩ := by
  obtain ⟨shared, calls⟩ := pool
  obtain ⟨request, rest⟩ := call
  dsimp only at hcall hruns ⊢
  induction hruns generalizing calls with
  | done result state => exact ⟨[], by simp [List.set_eq_self_of_getElem? hcall]⟩
  | @step update next state final result choice _ ih =>
      have hlength : index < calls.length := (List.getElem?_eq_some_iff.mp hcall).1
      obtain ⟨choices, hrun⟩ := ih (calls.set index ⟨request, next choice state⟩)
        (by simp [hlength])
      refine ⟨choice :: choices, ?_⟩
      simpa [act, hcall, Call.advance] using hrun

/-- So is the run in which the environment always makes the same choice. -/
theorem exists_run_with (choice : ε) {pool : Pool Req ε σ ρ} {index : Nat}
    {call : Call Req ε σ ρ} (hcall : pool.calls[index]? = some call) :
    ∃ n, pool.run program (.replicate n (.advance index choice)) =
      ⟨(runWith choice call.rest pool.shared).2,
        pool.calls.set index ⟨call.request, .done (runWith choice call.rest pool.shared).1⟩⟩ := by
  obtain ⟨shared, calls⟩ := pool
  obtain ⟨request, rest⟩ := call
  dsimp only at hcall ⊢
  induction rest generalizing shared calls with
  | done result => exact ⟨0, by simp [runWith, List.set_eq_self_of_getElem? hcall]⟩
  | step update next ih =>
      have hlength : index < calls.length := (List.getElem?_eq_some_iff.mp hcall).1
      obtain ⟨n, hrun⟩ := ih choice shared (update choice shared)
        (calls.set index ⟨request, next choice shared⟩) (by simp [hlength])
      refine ⟨n + 1, ?_⟩
      rw [List.replicate_succ, run_cons]
      simpa [act, hcall, Call.advance, runWith] using hrun

end Pool

end Interleaving
