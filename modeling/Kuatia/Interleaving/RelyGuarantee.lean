import Kuatia.Interleaving.Program
import Mathlib.Logic.Relation

/-! # Rely and guarantee

`Guarantees assume rely guarantee post program state` says what a program does
from `state` on while others act between its actions. The others move the state
along `rely`; each action of the program that meets `assume` moves it along
`guarantee`; and a returned result satisfies `post` for as long as the others
keep acting. `assume` sees the rest of the program, the choice and the state of
the action, so a condition on single actions of a run can be stated with it.
-/

universe u v w

namespace Async

variable {ε : Type u} {σ : Type v} {α β : Type w}

def Guarantees (assume : Async ε σ α → ε → σ → Prop) (rely guarantee : σ → σ → Prop)
    (post : α → σ → Prop) : Async ε σ α → σ → Prop
  | .done result, state => ∀ later, rely state later → post result later
  | .step update next, state => ∀ later, rely state later → ∀ choice,
      assume (.step update next) choice later →
      guarantee later (update choice later) ∧
        Guarantees assume rely guarantee post (next choice later) (update choice later)

/-- The assumption that excludes no action. -/
def anyAction : Async ε σ α → ε → σ → Prop := fun _ _ _ => True

variable {assume assume' : Async ε σ α → ε → σ → Prop} {rely guarantee guarantee' : σ → σ → Prop}
  {post post' : α → σ → Prop}

/-- A promise survives the actions of others. -/
theorem Guarantees.later (htrans : ∀ a b c, rely a b → rely b c → rely a c)
    {program : Async ε σ α} {state later : σ}
    (hprogram : Guarantees assume rely guarantee post program state) (hrely : rely state later) :
    Guarantees assume rely guarantee post program later := by
  cases program with
  | done result => exact fun last hlast => hprogram last (htrans _ _ _ hrely hlast)
  | step update next => exact fun last hlast => hprogram last (htrans _ _ _ hrely hlast)

theorem Guarantees.mono {program : Async ε σ α} {state : σ}
    (hprogram : Guarantees assume rely guarantee post program state)
    (hassume : ∀ rest choice state, assume' rest choice state → assume rest choice state)
    (hguarantee : ∀ before after, guarantee before after → guarantee' before after)
    (hpost : ∀ result state, post result state → post' result state) :
    Guarantees assume' rely guarantee' post' program state := by
  induction program generalizing state with
  | done result => exact fun later hlater => hpost _ _ (hprogram later hlater)
  | step update next ih =>
      intro later hlater choice hchoice
      obtain ⟨hstep, hrest⟩ := hprogram later hlater choice (hassume _ _ _ hchoice)
      exact ⟨hguarantee _ _ hstep, ih choice later hrest⟩

theorem Guarantees.weakenPost {program : Async ε σ α} {state : σ}
    (hprogram : Guarantees assume rely guarantee post program state)
    (hpost : ∀ result state, post result state → post' result state) :
    Guarantees assume rely guarantee post' program state :=
  hprogram.mono (fun _ _ _ => id) (fun _ _ => id) hpost

theorem Guarantees.assuming {program : Async ε σ α} {state : σ}
    (hprogram : Guarantees anyAction rely guarantee post program state) :
    Guarantees assume rely guarantee post program state :=
  hprogram.mono (fun _ _ _ _ => trivial) (fun _ _ => id) fun _ _ => id

/-- A fact that every action keeps, ours and the others', still holds at the end. -/
theorem Guarantees.frame (fact : σ → Prop) {program : Async ε σ α} {state : σ}
    (hprogram : Guarantees assume rely guarantee post program state)
    (hrely : ∀ before after, rely before after → fact before → fact after)
    (hguarantee : ∀ before after, guarantee before after → fact before → fact after)
    (hfact : fact state) :
    Guarantees assume rely guarantee (fun result later => post result later ∧ fact later)
      program state := by
  induction program generalizing state with
  | done result => exact fun later hlater => ⟨hprogram later hlater, hrely _ _ hlater hfact⟩
  | step update next ih =>
      intro later hlater choice hchoice
      obtain ⟨hstep, hrest⟩ := hprogram later hlater choice hchoice
      exact ⟨hstep, ih choice later hrest
        (hguarantee _ _ hstep (hrely _ _ hlater hfact))⟩

/-- The rule of sequence. The assumption sees the first program with its
continuation attached. -/
theorem Guarantees.bind (hrefl : ∀ a, rely a a) {assume : Async ε σ β → ε → σ → Prop}
    {post : β → σ → Prop} {program : Async ε σ α} {rest : α → Async ε σ β} {state : σ}
    (hprogram : Guarantees (fun first => assume (first >>= rest)) rely guarantee
      (fun value later => Guarantees assume rely guarantee post (rest value) later)
      program state) :
    Guarantees assume rely guarantee post (program >>= rest) state := by
  induction program generalizing state with
  | done value => exact hprogram state (hrefl state)
  | step update next ih =>
      intro later hlater choice hchoice
      obtain ⟨hstep, hrest⟩ := hprogram later hlater choice hchoice
      exact ⟨hstep, ih choice later hrest⟩

section Fallible

variable {E : Type w}

/-- How a program that may fail goes on after its first part. -/
def continueWith (rest : α → ExceptT E (Async ε σ) β) :
    Except E α → Async ε σ (Except E β)
  | .ok value => (rest value).run
  | .error err => .done (.error err)

theorem run_bind_eq (program : ExceptT E (Async ε σ) α) (rest : α → ExceptT E (Async ε σ) β) :
    (program >>= rest).run = program.run >>= continueWith rest := by
  rw [ExceptT.run_bind]
  congr 1
  funext result
  cases result <;> rfl

variable {assume : Async ε σ (Except E β) → ε → σ → Prop} {post : Except E β → σ → Prop}

/-- The rule of sequence for programs that may fail: a failure ends the whole
program, so it has to meet the postcondition at once. -/
theorem guarantees_except_bind (hrefl : ∀ a, rely a a)
    {program : ExceptT E (Async ε σ) α} {rest : α → ExceptT E (Async ε σ) β} {state : σ}
    (hprogram : Guarantees (fun first => assume (first >>= continueWith rest)) rely guarantee
      (fun result later => match result with
        | .ok value => Guarantees assume rely guarantee post (rest value).run later
        | .error err => ∀ last, rely later last → post (.error err) last)
      program.run state) :
    Guarantees assume rely guarantee post (program >>= rest).run state := by
  rw [run_bind_eq]
  refine Guarantees.bind hrefl (hprogram.weakenPost ?_)
  rintro (err | value) later hresult
  · exact fun last hlast => hresult last hlast
  · exact hresult

end Fallible

/-- A promise made under more interference holds under less. -/
theorem Guarantees.narrow {rely' : σ → σ → Prop} {program : Async ε σ α} {state : σ}
    (hprogram : Guarantees assume rely guarantee post program state)
    (hrely : ∀ before after, rely' before after → rely before after) :
    Guarantees assume rely' guarantee post program state := by
  induction program generalizing state with
  | done result => exact fun later hlater => hprogram later (hrely _ _ hlater)
  | step update next ih =>
      intro later hlater choice hchoice
      obtain ⟨hstep, hrest⟩ := hprogram later (hrely _ _ hlater) choice hchoice
      exact ⟨hstep, ih choice later hrest⟩

/-- A program that keeps its promise while nobody else acts keeps it when it
runs alone. -/
theorem Guarantees.runs {program : Async ε σ α} {state final : σ} {result : α}
    (hprogram : Guarantees anyAction (· = ·) guarantee post program state)
    (hruns : Runs program state result final) :
    Relation.ReflTransGen guarantee state final ∧ post result final := by
  induction hruns with
  | done result state => exact ⟨.refl, hprogram state rfl⟩
  | step choice _ ih =>
      obtain ⟨hstep, hrest⟩ := hprogram _ rfl choice trivial
      obtain ⟨hpath, hpost⟩ := ih hrest
      exact ⟨.head hstep hpath, hpost⟩

end Async
