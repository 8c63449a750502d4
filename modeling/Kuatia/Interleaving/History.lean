import Kuatia.Interleaving.Pool
import Mathlib.Data.List.Induction
import Mathlib.Order.Basic

/-! # Calls in the history of a run

When a call has returned, what it promises may speak of any instant between its
start and its return. `Traces` follows a program through the runs of a pool, as
`Guarantees` follows it through states.
-/

universe u v w x

namespace Interleaving

open Async

variable {Req : Type x} {ε : Type u} {σ : Type v} {ρ α β : Type w}
  (program : Req → Async ε σ ρ) (initial : Pool Req ε σ ρ) (index : Nat)

/-- When the call at `index` has come to a point of its program with the actions
`past`, its actions keep to `guarantee` and it returns only what satisfies
`post`. Both are properties of the actions done by then, and so is what is
assumed of its actions. -/
def Traces (assume : Async ε σ α → ε → List (Action Req ε) → Prop)
    (guarantee : List (Action Req ε) → List (Action Req ε) → Prop)
    (post : α → List (Action Req ε) → Prop) : Async ε σ α → List (Action Req ε) → Prop
  | .done result, past => post result past
  | .step update next, past => ∀ others choice,
      assume (.step update next) choice (past ++ others) →
      (initial.run program (past ++ others ++ [.advance index choice])).shared =
        update choice (initial.run program (past ++ others)).shared →
      guarantee (past ++ others) (past ++ others ++ [.advance index choice]) ∧
        Traces assume guarantee post
          (next choice (initial.run program (past ++ others)).shared)
          (past ++ others ++ [.advance index choice])

/-- What is assumed of the state, as a property of the actions that have led to it. -/
def AtInstant (assume : Async ε σ α → ε → σ → Prop) :
    Async ε σ α → ε → List (Action Req ε) → Prop :=
  fun rest choice past => assume rest choice (initial.run program past).shared

variable {program initial index} {assume assume' : Async ε σ α → ε → List (Action Req ε) → Prop}
  {guarantee guarantee' : List (Action Req ε) → List (Action Req ε) → Prop}
  {post post' : α → List (Action Req ε) → Prop} {rest : Async ε σ α}
  {past : List (Action Req ε)}

namespace Traces

theorem mono (htraces : Traces program initial index assume guarantee post rest past)
    (hassume : ∀ rest choice past, assume' rest choice past → assume rest choice past)
    (hguarantee : ∀ before after, guarantee before after → guarantee' before after)
    (hpost : ∀ result later, post result later → post' result later) :
    Traces program initial index assume' guarantee' post' rest past := by
  induction rest generalizing past with
  | done result => exact hpost _ _ htraces
  | step update next ih =>
      intro others choice hchoice hmoved
      obtain ⟨hstep, hrest⟩ := htraces others choice (hassume _ _ _ hchoice) hmoved
      exact ⟨hguarantee _ _ hstep, ih _ _ hrest⟩

theorem weaken (htraces : Traces program initial index assume guarantee post rest past)
    (hpost : ∀ result later, post result later → post' result later) :
    Traces program initial index assume guarantee post' rest past :=
  htraces.mono (fun _ _ _ h => h) (fun _ _ h => h) hpost

/-- Every program promises nothing. -/
theorem vacuous (hguarantee : ∀ before after, guarantee before after)
    (hpost : ∀ result later, post result later) (rest : Async ε σ α) (past : List (Action Req ε)) :
    Traces program initial index assume guarantee post rest past := by
  induction rest generalizing past with
  | done result => exact hpost _ _
  | step update next ih => exact fun _ _ _ _ => ⟨hguarantee _ _, ih _ _ _⟩

/-- What a call returns is known together with the actions it started from: they
stay in the past. -/
theorem since (htraces : Traces program initial index assume guarantee post rest past) :
    Traces program initial index assume guarantee
      (fun result later => post result later ∧ past <+: later) rest past := by
  suffices hsince : ∀ later, past <+: later →
      Traces program initial index assume guarantee post rest later →
      Traces program initial index assume guarantee
        (fun result later => post result later ∧ past <+: later) rest later from
    hsince past (List.prefix_refl _) htraces
  clear htraces
  induction rest with
  | done result => exact fun later hlater hpost => ⟨hpost, hlater⟩
  | step update next ih =>
      intro later hlater hrest others choice hchoice hmoved
      obtain ⟨hstep, hrest⟩ := hrest others choice hchoice hmoved
      refine ⟨hstep, ih _ _ _ (hlater.trans ?_) hrest⟩
      rw [List.append_assoc]
      exact List.prefix_append _ _

/-- What a program promises of states it promises of the states of a run. -/
theorem of_guarantees {assume : Async ε σ α → ε → σ → Prop} {rely guarantee : σ → σ → Prop}
    {post : α → σ → Prop}
    (hrely : ∀ before others, rely (initial.run program before).shared
      (initial.run program (before ++ others)).shared)
    (hrefl : ∀ state, rely state state)
    (hrest : Guarantees assume rely guarantee post rest (initial.run program past).shared) :
    Traces program initial index (AtInstant program initial assume)
      (fun before after =>
        guarantee (initial.run program before).shared (initial.run program after).shared)
      (fun result later => post result (initial.run program later).shared) rest past := by
  induction rest generalizing past with
  | done result => exact hrest _ (hrefl _)
  | step update next ih =>
      intro others choice hchoice hmoved
      obtain ⟨hstep, hrest⟩ := hrest _ (hrely past others) choice hchoice
      rw [← hmoved] at hstep hrest
      exact ⟨hstep, ih _ _ hrest⟩

/-- The rule of sequence. -/
theorem bind {assume : Async ε σ β → ε → List (Action Req ε) → Prop}
    {post : β → List (Action Req ε) → Prop} {next : α → Async ε σ β}
    (htraces : Traces program initial index (fun first => assume (first >>= next)) guarantee
      (fun value later => Traces program initial index assume guarantee post (next value) later)
      rest past) :
    Traces program initial index assume guarantee post (rest >>= next) past := by
  induction rest generalizing past with
  | done value => exact htraces
  | step update next ih =>
      intro others choice hchoice hmoved
      obtain ⟨hstep, hrest⟩ := htraces others choice hchoice hmoved
      exact ⟨hstep, ih _ _ hrest⟩

end Traces

/-- The rule of sequence for programs that may fail: a failure ends the call. -/
theorem traces_except_bind {E : Type w}
    {assume : Async ε σ (Except E β) → ε → List (Action Req ε) → Prop}
    {post : Except E β → List (Action Req ε) → Prop} {first : ExceptT E (Async ε σ) α}
    {next : α → ExceptT E (Async ε σ) β}
    (htraces : Traces program initial index (fun first => assume (first >>= continueWith next))
      guarantee
      (fun result later => match result with
        | .ok value => Traces program initial index assume guarantee post (next value).run later
        | .error err => post (.error err) later) first.run past) :
    Traces program initial index assume guarantee post (first >>= next).run past := by
  rw [run_bind_eq]
  refine (htraces.weaken fun result later hresult => ?_).bind
  cases result with
  | ok value => exact hresult
  | error err => exact hresult

/-! ## The span of a call -/

/-- The call at `index` started after the actions `start`, came to where it is
with the last of the actions `past`, and has waited since. -/
structure Arrived (program : Req → Async ε σ ρ) (initial : Pool Req ε σ ρ) (index : Nat)
    (actions : List (Action Req ε)) (call : Call Req ε σ ρ) (start past : List (Action Req ε)) :
    Prop where
  position : (initial.run program start).calls.length = index
  started : start ++ [.start call.request] <+: past
  within : past <+: actions
  waiting : ∀ later, past <+: later → later <+: actions →
    (initial.run program later).calls[index]? = some call
  busy : ∀ earlier, earlier <+: past → earlier ≠ past → ∀ value,
    (initial.run program earlier).calls[index]? ≠ some ⟨call.request, .done value⟩

theorem Pool.length_act_calls (pool : Pool Req ε σ ρ) (action : Action Req ε) :
    pool.calls.length ≤ (pool.act program action).calls.length := by
  cases action with
  | start request => simp [act]
  | advance index choice =>
      simp only [act]
      split <;> simp

variable (program) in
/-- A call stays in its place with its request. -/
theorem Pool.exists_act_call {pool : Pool Req ε σ ρ} (action : Action Req ε) {index : Nat}
    {call : Call Req ε σ ρ} (hcall : pool.calls[index]? = some call) :
    ∃ later, (pool.act program action).calls[index]? = some later ∧
      later.request = call.request := by
  obtain ⟨hlength, hget⟩ := List.getElem?_eq_some_iff.mp hcall
  cases action with
  | start request =>
      refine ⟨call, ?_, rfl⟩
      simp only [Pool.act]
      rw [List.getElem?_append_left hlength, hcall]
  | advance other choice =>
      cases hother : pool.calls[other]? with
      | none => exact ⟨call, by simpa [Pool.act, hother] using hcall, rfl⟩
      | some acting =>
          by_cases heq : other = index
          · subst heq
            rw [hcall] at hother
            cases hother
            refine ⟨(call.advance choice pool.shared).1, by simp [Pool.act, hget, hlength], ?_⟩
            unfold Call.advance
            split
            next => rfl
            next => rfl
          · exact ⟨call, by simp [Pool.act, hother, heq, hcall], rfl⟩

variable (program) in
theorem Pool.exists_run_call {pool : Pool Req ε σ ρ} (actions : List (Action Req ε)) {index : Nat}
    {call : Call Req ε σ ρ} (hcall : pool.calls[index]? = some call) :
    ∃ later, (pool.run program actions).calls[index]? = some later ∧
      later.request = call.request := by
  induction actions generalizing pool call with
  | nil => exact ⟨call, hcall, rfl⟩
  | cons action actions ih =>
      obtain ⟨next, hnext, hsame⟩ := exists_act_call program action hcall
      obtain ⟨later, hlater, hkept⟩ := ih hnext
      exact ⟨later, hlater, hkept.trans hsame⟩

theorem Pool.length_run_calls (pool : Pool Req ε σ ρ) (actions : List (Action Req ε)) :
    pool.calls.length ≤ (pool.run program actions).calls.length := by
  induction actions generalizing pool with
  | nil => exact Nat.le_refl _
  | cons action actions ih => exact Nat.le_trans (pool.length_act_calls action) (ih _)

/-- Where the call at `index` is after one more action. -/
theorem Pool.act_call_cases {pool : Pool Req ε σ ρ} {action : Action Req ε}
    {call : Call Req ε σ ρ} (hcall : (pool.act program action).calls[index]? = some call) :
    pool.calls[index]? = some call ∨
    (∃ request, action = .start request ∧ pool.calls.length = index ∧
      call = ⟨request, program request⟩) ∨
    ∃ choice request update next, action = .advance index choice ∧
      pool.calls[index]? = some ⟨request, .step update next⟩ ∧
      call = ⟨request, next choice pool.shared⟩ ∧
      (pool.act program action).shared = update choice pool.shared := by
  cases action with
  | start request =>
      simp only [act, List.getElem?_append] at hcall
      split at hcall
      next => exact .inl hcall
      next hlength =>
        obtain ⟨hindex, rfl⟩ := List.getElem?_eq_some_iff.mp hcall
        rw [List.length_singleton] at hindex
        exact .inr (.inl ⟨request, rfl, by omega, by simp⟩)
  | advance other choice =>
      cases hother : pool.calls[other]? with
      | none => exact .inl (by simpa [act, hother] using hcall)
      | some acting =>
          obtain ⟨request, rest⟩ := acting
          by_cases hsame : other = index
          · subst hsame
            cases rest with
            | done result =>
                refine .inl ?_
                simpa [act, hother, Call.advance, List.set_eq_self_of_getElem? hother] using hcall
            | step update next =>
                have hlength := (List.getElem?_eq_some_iff.mp hother).1
                refine .inr (.inr ⟨choice, request, update, next, rfl, hother, ?_, ?_⟩)
                · simp only [act, hother, Call.advance] at hcall
                  rw [List.getElem?_set_self hlength] at hcall
                  exact (Option.some.inj hcall).symm
                · simp [act, hother, Call.advance]
          · exact .inl (by simpa [act, hother, List.getElem?_set_ne hsame] using hcall)

/-- Every action that the call at `index` takes meets the assumption. -/
def Obeys (program : Req → Async ε σ ρ) (initial : Pool Req ε σ ρ) (index : Nat)
    (assume : Req → Async ε σ ρ → ε → List (Action Req ε) → Prop)
    (actions : List (Action Req ε)) : Prop :=
  ∀ first choice call, first ++ [.advance index choice] <+: actions →
    (initial.run program first).calls[index]? = some call →
      assume call.request call.rest choice first

theorem Obeys.earlier {assume : Req → Async ε σ ρ → ε → List (Action Req ε) → Prop}
    {first later : List (Action Req ε)} (hobeys : Obeys program initial index assume later)
    (hearlier : first <+: later) : Obeys program initial index assume first :=
  fun past choice call hpast => hobeys past choice call (hpast.trans hearlier)

theorem Pool.Respects.obeys {assume : Req → Async ε σ ρ → ε → σ → Prop}
    {actions : List (Action Req ε)} (hrun : initial.Respects program assume actions) :
    Obeys program initial index (fun request => AtInstant program initial (assume request))
      actions := by
  rintro first choice call ⟨rest, rfl⟩ hcall
  exact hrun.of_append.1.of_append.2.1 _ _ rfl _ hcall

/-- Every call of a run has come to where it is from its start, and what its
program promises from the start holds for it. -/
theorem exists_arrived {assume : Req → Async ε σ ρ → ε → List (Action Req ε) → Prop}
    {guarantee : Req → List (Action Req ε) → List (Action Req ε) → List (Action Req ε) → Prop}
    {post : Req → List (Action Req ε) → ρ → List (Action Req ε) → Prop}
    {actions : List (Action Req ε)} {call : Call Req ε σ ρ} (hnew : initial.calls.length ≤ index)
    (hrun : Obeys program initial index assume actions)
    (hstart : ∀ request start, (initial.run program start).calls.length = index →
      Traces program initial index (assume request) (guarantee request start) (post request start)
        (program request) (start ++ [.start request]))
    (hcall : (initial.run program actions).calls[index]? = some call) :
    ∃ start past, Arrived program initial index actions call start past ∧
      Traces program initial index (assume call.request) (guarantee call.request start)
        (post call.request start) call.rest past := by
  induction actions using List.reverseRecOn generalizing call with
  | nil =>
      have hlength := (List.getElem?_eq_some_iff.mp hcall).1
      rw [Pool.run_nil] at hlength
      omega
  | append_singleton actions action ih =>
      have hfirst := hrun.earlier (List.prefix_append actions [action])
      rw [Pool.run_append, Pool.run_cons, Pool.run_nil] at hcall
      -- the action is of another call, or starts this one, or advances it
      obtain hold | ⟨request, rfl, hlength, rfl⟩ |
        ⟨choice, request, update, next, rfl, hstep, rfl, hmoved⟩ := Pool.act_call_cases hcall
      · obtain ⟨start, past, harrived, htraces⟩ := ih hfirst hold
        refine ⟨start, past, { harrived with within := ?_, waiting := ?_ }, htraces⟩
        · exact harrived.within.trans (List.prefix_append _ _)
        · intro later hpast hlater
          rcases List.prefix_concat_iff.mp hlater with rfl | hlater
          · rw [Pool.run_append, Pool.run_cons, Pool.run_nil]
            exact hcall
          · exact harrived.waiting later hpast hlater
      · refine ⟨actions, _, ⟨hlength, List.prefix_refl _, List.prefix_refl _, ?_, ?_⟩,
          hstart request actions hlength⟩
        · intro later hpast hlater
          rw [hlater.eq_of_length_le hpast.length_le, Pool.run_append, Pool.run_cons, Pool.run_nil]
          exact hcall
        · intro earlier hearlier hne value hreturned
          obtain ⟨more, rfl⟩ := (List.prefix_concat_iff.mp hearlier).resolve_left hne
          have hindex := (List.getElem?_eq_some_iff.mp hreturned).1
          have hgrows : (initial.run program earlier).calls.length ≤
              ((initial.run program earlier).run program more).calls.length :=
            Pool.length_run_calls _ more
          rw [← Pool.run_append, hlength] at hgrows
          omega
      · obtain ⟨start, past, harrived, htraces⟩ := ih hfirst hstep
        obtain ⟨others, rfl⟩ := harrived.within
        refine ⟨start, _, ⟨harrived.position, ?_, List.prefix_refl _, ?_, ?_⟩,
          (htraces others choice (hrun _ _ _ (List.prefix_refl _) hstep) ?_).2⟩
        · rw [List.append_assoc]
          exact harrived.started.trans (List.prefix_append _ _)
        · intro later hpast hlater
          rw [hlater.eq_of_length_le hpast.length_le, Pool.run_append _ _ (past ++ others), Pool.run_cons,
            Pool.run_nil]
          exact hcall
        · intro earlier hearlier hne value hreturned
          have hearlier := (List.prefix_concat_iff.mp hearlier).resolve_left hne
          rcases List.prefix_or_prefix_of_prefix hearlier (List.prefix_append past others) with
            hbefore | hafter
          · -- at its last own action the call was still running, and so it was before
            by_cases hsame : earlier = past
            · subst hsame
              rw [harrived.waiting _ (List.prefix_refl _) hearlier] at hreturned
              cases hreturned
            · exact harrived.busy earlier hbefore hsame value hreturned
          · rw [harrived.waiting _ hafter hearlier] at hreturned
            cases hreturned
        · rw [Pool.run_append _ _ (past ++ others), Pool.run_cons, Pool.run_nil]
          exact hmoved

/-- An action that a call takes keeps to the guarantee of that call. -/
theorem guarantee_of_advance {assume : Req → Async ε σ ρ → ε → List (Action Req ε) → Prop}
    {guarantee : Req → List (Action Req ε) → List (Action Req ε) → List (Action Req ε) → Prop}
    {actions : List (Action Req ε)} {choice : ε} {call : Call Req ε σ ρ}
    (hnew : initial.calls.length ≤ index)
    (hrun : Obeys program initial index assume (actions ++ [.advance index choice]))
    (hstart : ∀ request start, (initial.run program start).calls.length = index →
      Traces program initial index (assume request) (guarantee request start) (fun _ _ => True)
        (program request) (start ++ [.start request]))
    (hcall : (initial.run program actions).calls[index]? = some call) :
    (initial.run program (actions ++ [.advance index choice])).shared =
      (initial.run program actions).shared ∨
    ∃ start, (initial.run program start).calls.length = index ∧
      start ++ [.start call.request] <+: actions ∧
      guarantee call.request start actions (actions ++ [.advance index choice]) := by
  obtain ⟨start, past, harrived, htraces⟩ :=
    exists_arrived hnew (hrun.earlier (List.prefix_append _ _)) hstart hcall
  obtain ⟨request, rest⟩ := call
  rw [Pool.run_append, Pool.run_cons, Pool.run_nil]
  cases rest with
  | done result => exact .inl (by simp [Pool.act, hcall, Call.advance])
  | step update next =>
      obtain ⟨others, rfl⟩ := harrived.within
      have hmoved : (initial.run program (past ++ others ++ [.advance index choice])).shared =
          update choice (initial.run program (past ++ others)).shared := by
        rw [Pool.run_append _ _ (past ++ others), Pool.run_cons, Pool.run_nil]
        simp [Pool.act, hcall, Call.advance]
      exact .inr ⟨start, harrived.position, harrived.started.trans harrived.within,
        (htraces others choice (hrun _ _ _ (List.prefix_refl _) hcall) hmoved).1⟩

end Interleaving
