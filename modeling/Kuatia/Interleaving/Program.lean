import Mathlib.Logic.Basic
import Mathlib.Tactic.Common

/-! # Programs whose actions interleave

An asynchronous program over a shared state is a tree of atomic actions. Each
action reads a choice of the environment and the shared state, updates the
state in one go, and decides how the program continues. Between two actions
any other program may act, so what one action has read may be stale when the
next one runs.
-/

universe u v w

/-- A program over the shared state `σ` with environment choices `ε`. -/
inductive Async (ε : Type u) (σ : Type v) (α : Type w) where
  | done (result : α)
  | step (update : ε → σ → σ) (next : ε → σ → Async ε σ α)

namespace Async

variable {ε : Type u} {σ : Type v} {α β γ : Type w}

/-- The program has returned. -/
def isDone : Async ε σ α → Bool
  | .done _ => true
  | .step .. => false

protected def bind : Async ε σ α → (α → Async ε σ β) → Async ε σ β
  | .done result, rest => rest result
  | .step update next, rest => .step update fun choice state => (next choice state).bind rest

/-- One atomic action: compute an answer and the new state together. -/
def atomic (action : ε → σ → α × σ) : Async ε σ α :=
  .step (fun choice state => (action choice state).2)
    fun choice state => .done (action choice state).1

instance : Monad (Async ε σ) where
  pure := .done
  bind := Async.bind

@[simp] theorem pure_eq (result : α) : (pure result : Async ε σ α) = .done result := rfl

@[simp] theorem done_bind (result : α) (rest : α → Async ε σ β) :
    (Async.done result >>= rest) = rest result := rfl

@[simp] theorem step_bind (update : ε → σ → σ) (next : ε → σ → Async ε σ α)
    (rest : α → Async ε σ β) :
    (Async.step update next >>= rest) =
      .step update fun choice state => next choice state >>= rest := rfl

instance : LawfulMonad (Async ε σ) := by
  refine LawfulMonad.mk' _ (fun program => ?_) (fun _ _ => rfl) fun program first second => ?_
  · induction program with
    | done => rfl
    | step update next ih =>
        change Async.step update _ = _
        exact congrArg _ (funext fun choice => funext fun state => ih choice state)
  · induction program with
    | done => rfl
    | step update next ih =>
        change Async.step update _ = Async.step update _
        exact congrArg _ (funext fun choice => funext fun state => ih choice state)

/-! ## Running alone -/

/-- `Runs program state result final`: with no other program acting, `program`
may take `state` to `final` and return `result`. -/
inductive Runs : Async ε σ α → σ → α → σ → Prop where
  | done (result : α) (state : σ) : Runs (.done result) state result state
  | step {update : ε → σ → σ} {next : ε → σ → Async ε σ α} {state final : σ} {result : α}
      (choice : ε) (rest : Runs (next choice state) (update choice state) result final) :
      Runs (.step update next) state result final

@[simp] theorem runs_done_iff {result returned : α} {state final : σ} :
    Runs (.done result : Async ε σ α) state returned final ↔
      returned = result ∧ final = state := by
  constructor
  · rintro ⟨⟩
    exact ⟨rfl, rfl⟩
  · rintro ⟨rfl, rfl⟩
    exact .done _ _

theorem runs_step_iff {update : ε → σ → σ} {next : ε → σ → Async ε σ α} {state final : σ}
    {result : α} :
    Runs (.step update next) state result final ↔
      ∃ choice, Runs (next choice state) (update choice state) result final := by
  constructor
  · rintro (_ | ⟨choice, rest⟩)
    exact ⟨choice, rest⟩
  · rintro ⟨choice, rest⟩
    exact .step choice rest

theorem runs_bind_iff {program : Async ε σ α} {rest : α → Async ε σ β} {state final : σ}
    {result : β} :
    Runs (program >>= rest) state result final ↔
      ∃ value middle, Runs program state value middle ∧ Runs (rest value) middle result final := by
  induction program generalizing state with
  | done value => simp
  | step update next ih =>
      simp only [step_bind, runs_step_iff, ih]
      constructor
      · rintro ⟨choice, value, middle, hfirst, hrest⟩
        exact ⟨value, middle, ⟨choice, hfirst⟩, hrest⟩
      · rintro ⟨value, middle, ⟨choice, hfirst⟩, hrest⟩
        exact ⟨choice, value, middle, hfirst, hrest⟩

/-- A program run alone always returns: it is a well-founded tree. -/
theorem exists_runs [Nonempty ε] (program : Async ε σ α) (state : σ) :
    ∃ result final, Runs program state result final := by
  induction program generalizing state with
  | done result => exact ⟨result, state, .done _ _⟩
  | step update next ih =>
      obtain ⟨choice⟩ := ‹Nonempty ε›
      obtain ⟨result, final, hrest⟩ := ih choice state (update choice state)
      exact ⟨result, final, .step choice hrest⟩

/-- The run in which the environment always makes the same choice. -/
def runWith (choice : ε) : Async ε σ α → σ → α × σ
  | .done result, state => (result, state)
  | .step update next, state => runWith choice (next choice state) (update choice state)

theorem runs_runWith (choice : ε) (program : Async ε σ α) (state : σ) :
    Runs program state (runWith choice program state).1 (runWith choice program state).2 := by
  induction program generalizing state with
  | done result => exact .done _ _
  | step update next ih => exact .step choice (ih choice state (update choice state))

theorem runWith_bind (choice : ε) (program : Async ε σ α) (rest : α → Async ε σ β) (state : σ) :
    runWith choice (program >>= rest) state =
      runWith choice (rest (runWith choice program state).1) (runWith choice program state).2 := by
  induction program generalizing state with
  | done result => rfl
  | step update next ih => exact ih choice state (update choice state)

/-! ## Programs that may fail -/

section Fallible

variable {E α β : Type w}

/-- A failing program stops where it fails; otherwise the rest runs on its value. -/
theorem runs_except_bind_iff {program : ExceptT E (Async ε σ) α}
    {rest : α → ExceptT E (Async ε σ) β} {state final : σ} {result : Except E β} :
    Runs (program >>= rest).run state result final ↔
      (∃ value middle, Runs program.run state (.ok value) middle ∧
        Runs (rest value).run middle result final) ∨
      ∃ err, Runs program.run state (.error err) final ∧ result = .error err := by
  rw [ExceptT.run_bind, runs_bind_iff]
  constructor
  · rintro ⟨value | value, middle, hfirst, hrest⟩
    · obtain ⟨rfl, rfl⟩ := runs_done_iff.mp hrest
      exact .inr ⟨value, hfirst, rfl⟩
    · exact .inl ⟨value, middle, hfirst, hrest⟩
  · rintro (⟨value, middle, hfirst, hrest⟩ | ⟨err, hfirst, rfl⟩)
    · exact ⟨.ok value, middle, hfirst, hrest⟩
    · exact ⟨.error err, final, hfirst, .done _ _⟩

theorem runs_except_bind_ok_iff {program : ExceptT E (Async ε σ) α}
    {rest : α → ExceptT E (Async ε σ) β} {state final : σ} {result : β} :
    Runs (program >>= rest).run state (.ok result) final ↔
      ∃ value middle, Runs program.run state (.ok value) middle ∧
        Runs (rest value).run middle (.ok result) final := by
  rw [runs_except_bind_iff]
  simp

theorem runWith_except_bind {choice : ε} {program : ExceptT E (Async ε σ) α}
    {rest : α → ExceptT E (Async ε σ) β} {state middle : σ} {value : α}
    (hfirst : runWith choice program.run state = (.ok value, middle)) :
    runWith choice (program >>= rest).run state = runWith choice (rest value).run middle := by
  rw [ExceptT.run_bind, runWith_bind, hfirst]

end Fallible

end Async
