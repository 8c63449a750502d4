import Kuatia.Ledger.Alone
import Kuatia.Saga.RunMovements

/-! # Operations composed of other operations

An operation that calls others moves the store as they do. `Moves` says so for
every well-formed state at once, which is what sequences and loops need: each
part starts from the state that the interference has left behind. A fact about a
value that is read holds when every state that is seen has it.
-/

namespace Kuatia

open Async LedgerM

variable [MoneyWidth] [Sha256] {α β : Type}

/-- Started in any well-formed state, and as long as each state that it acts on
is `seen`, the program commits only what `submits` allows and returns `post`. -/
def Moves (seen : World → Prop) (submits : Envelope → Prop) (post : α → Prop)
    (program : LedgerM α) : Prop :=
  ∀ state, WellFormed state.store →
    Keeps (fun _ _ world => seen world) Interferes (LedgerStep submits) (fun value _ => post value)
      program state

variable {seen : World → Prop} {submits : Envelope → Prop} {post : α → Prop} {after : β → Prop}

namespace Moves

theorem weaken {post' : α → Prop} {program : LedgerM α} (hprogram : Moves seen submits post program)
    (hpost : ∀ value, post value → post' value) : Moves seen submits post' program :=
  fun state hwell => (hprogram state hwell).weaken fun value _ => hpost value

theorem bind {program : LedgerM α} {rest : α → LedgerM β}
    (hprogram : Moves seen submits post program)
    (hrest : ∀ value, post value → Moves seen submits after (rest value)) :
    Moves seen submits after (program >>= rest) := by
  intro state hwell
  apply keeps_bind environment
  apply (hprogram state hwell).since.weaken
  intro value later hvalue
  exact hrest value hvalue.1 later (hvalue.2.wellFormed hwell)

theorem pure {value : α} (hvalue : post value) : Moves seen submits post (pure value) :=
  fun _ _ => keeps_pure fun _ _ => hvalue

theorem throw (err : LedgerError) : Moves seen submits post (throw err : LedgerM α) :=
  fun _ _ => keeps_throw

theorem attempt {result : Except LedgerError α} (hresult : ∀ value, result = .ok value → post value) :
    Moves seen submits post (attempt result) :=
  fun _ _ => keeps_attempt fun value hvalue _ _ => hresult value hvalue

theorem read {query : IterationOrder → InMemoryStore → α}
    (hquery : ∀ order world, seen world → post (query order world.store)) :
    Moves seen submits post (read query) :=
  fun _ _ => keeps_read environment fun later _ choice hseen _ _ => hquery choice.order later hseen

theorem of_readOnly {program : LedgerM α} (hprogram : ReadOnly program) :
    Moves seen submits (fun _ => True) program :=
  fun _ _ => hprogram.steps.assuming

theorem of_steps {program : LedgerM α}
    (hprogram : ∀ state, WellFormed state.store → Steps submits program state) :
    Moves seen submits (fun _ => True) program :=
  fun state hwell => (hprogram state hwell).assuming

theorem foldlM (inv : β → Prop) {step : β → α → LedgerM β} {items : List α} {start : β}
    (hstep : ∀ acc, inv acc → ∀ item ∈ items, Moves seen submits inv (step acc item))
    (hstart : inv start) : Moves seen submits inv (items.foldlM step start) := by
  induction items generalizing start with
  | nil => exact .pure hstart
  | cons head tail ih =>
      refine (hstep start hstart head List.mem_cons_self).bind fun next hnext => ?_
      exact ih (fun acc hacc item hitem => hstep acc hacc item (List.mem_cons_of_mem _ hitem)) hnext

theorem loop {step : β → α → LedgerM β} {items : List α} {start : β}
    (hstep : ∀ acc, ∀ item ∈ items, Moves seen submits (fun _ => True) (step acc item)) :
    Moves seen submits (fun _ => True) (items.foldlM step start) :=
  .foldlM (fun _ => True) (fun acc _ => hstep acc) trivial

theorem forM {body : α → LedgerM Unit} {items : List α}
    (hbody : ∀ item ∈ items, Moves seen submits (fun _ => True) (body item)) :
    Moves seen submits (fun _ => True) (items.forM body) := by
  induction items with
  | nil => exact .pure trivial
  | cons head tail ih =>
      refine (hbody head List.mem_cons_self).bind fun _ _ => ?_
      exact ih fun item hitem => hbody item (List.mem_cons_of_mem _ hitem)

/-- Converting the error changes nothing else. -/
theorem adapt {convert : LedgerError → LedgerError} {program : LedgerM α}
    (hprogram : Moves seen submits post program) :
    Moves seen submits post (ExceptT.adapt convert program) := by
  intro state hwell
  have henv : Environment Interferes (LedgerStep submits) := environment
  refine Guarantees.bind henv.refl ?_
  refine (hprogram state hwell).since.mono (fun _ _ _ hseen => hseen) (fun _ _ hstep => hstep) ?_
  intro result later hresult last _ value heq
  cases result with
  | error err => cases heq
  | ok returned =>
      cases heq
      exact (hresult value rfl).1

/-- A program whose failures are caught. -/
theorem outcome {program : LedgerM α} (hprogram : Moves seen submits post program) :
    Moves seen submits (fun result => ∀ value, result = .ok value → post value)
      (outcome program) := by
  intro state hwell
  have henv : Environment Interferes (LedgerStep submits) := environment
  refine Guarantees.bind henv.refl ?_
  refine (hprogram state hwell).since.mono (fun _ _ _ hseen => hseen) (fun _ _ hstep => hstep) ?_
  intro result later hresult last _ value heq
  cases heq
  intro returned hreturned
  exact (hresult returned hreturned).1

/-- A program made of steps of the store moves it along them when it runs alone. -/
theorem evolves {before after : World} {post : α → Prop} {program : LedgerM α}
    (hprogram : Moves (fun _ => True) (fun _ => True) post program) (hwell : WellFormed before.store)
    {result : Except LedgerError α} (halone : Alone program before result after) :
    Evolves before.store after.store := by
  have halways : ∀ a b : World, a = b → Interferes a b := by
    rintro a _ rfl
    exact Evolves.refl _
  have hsteps := (Async.Guarantees.runs (Async.Guarantees.narrow (hprogram before hwell) halways)
    halone).1
  clear halone
  induction hsteps with
  | refl => exact .refl _
  | tail _ hstep ih => exact ih.trans (.of_step hstep)

end Moves

end Kuatia
