import Kuatia.Ledger.Actions

/-! # Promises of ledger programs

The rules of `Guarantees` for programs built from ledger actions. A program
that only reads promises nothing but to leave the store alone, whatever the
others do.
-/

namespace Kuatia

open Async

variable [MoneyWidth] {α β : Type}

/-- What the rules below need of the actions of the others and of our own. -/
structure Environment (rely guarantee : World → World → Prop) : Prop where
  refl : ∀ world, rely world world
  trans : ∀ a b c, rely a b → rely b c → rely a c
  idle : ∀ world clock, guarantee world ⟨world.store, clock⟩

namespace LedgerM

/-- The actions of `program` keep to `guarantee`, and a value it returns
satisfies `post`. -/
def Keeps (assume : Async Choice World (Except LedgerError α) → Choice → World → Prop)
    (rely guarantee : World → World → Prop) (post : α → World → Prop) (program : LedgerM α)
    (state : World) : Prop :=
  Guarantees assume rely guarantee
    (fun result later => ∀ value, result = .ok value → post value later) program.run state

section Rules

variable {assume : Async Choice World (Except LedgerError α) → Choice → World → Prop}
  {rely guarantee : World → World → Prop} {post : α → World → Prop} {state : World}

theorem Keeps.weaken {post' : α → World → Prop} {program : LedgerM α}
    (hprogram : Keeps assume rely guarantee post program state)
    (hpost : ∀ value later, post value later → post' value later) :
    Keeps assume rely guarantee post' program state :=
  Guarantees.weakenPost hprogram fun _ _ hvalue value heq => hpost _ _ (hvalue value heq)

theorem Keeps.assuming {program : LedgerM α}
    (hprogram : Keeps anyAction rely guarantee post program state) :
    Keeps assume rely guarantee post program state :=
  Guarantees.assuming hprogram

theorem keeps_bind (henv : Environment rely guarantee)
    {assume : Async Choice World (Except LedgerError β) → Choice → World → Prop}
    {post : β → World → Prop} {program : LedgerM α} {rest : α → LedgerM β}
    (hprogram : Keeps (fun first => assume (first >>= continueWith rest)) rely guarantee
      (fun value later => Keeps assume rely guarantee post (rest value) later) program state) :
    Keeps assume rely guarantee post (program >>= rest) state := by
  refine guarantees_except_bind henv.refl (Guarantees.weakenPost hprogram ?_)
  rintro (err | value) later hresult
  · intro last _ value heq
    cases heq
  · exact hresult value rfl

theorem keeps_pure {value : α} (hpost : ∀ later, rely state later → post value later) :
    Keeps assume rely guarantee post (pure value) state := by
  intro later hlater result heq
  cases heq
  exact hpost later hlater

theorem keeps_throw {err : LedgerError} :
    Keeps assume rely guarantee post (throw err : LedgerM α) state := by
  intro later hlater result heq
  cases heq

theorem keeps_attempt {result : Except LedgerError α}
    (hpost : ∀ value, result = .ok value → ∀ later, rely state later → post value later) :
    Keeps assume rely guarantee post (attempt result) state :=
  fun later hlater value heq => hpost value heq later hlater

theorem keeps_act {body : Choice → InMemoryStore → α × InMemoryStore}
    (hbody : ∀ later, rely state later → ∀ choice, assume (act body).run choice later →
      guarantee later ⟨(body choice later.store).2, choice.clock⟩ ∧
        ∀ last, rely ⟨(body choice later.store).2, choice.clock⟩ last →
          post (body choice later.store).1 last) :
    Keeps assume rely guarantee post (act body) state := by
  intro later hlater choice hchoice
  obtain ⟨hstep, hpost⟩ := hbody later hlater choice hchoice
  refine ⟨hstep, fun last hlast value heq => ?_⟩
  cases heq
  exact hpost last hlast

theorem keeps_read (henv : Environment rely guarantee) {query : IterationOrder → InMemoryStore → α}
    (hquery : ∀ later, rely state later → ∀ choice, assume (read query).run choice later →
      ∀ last, rely ⟨later.store, choice.clock⟩ last →
        post (query choice.order later.store) last) :
    Keeps assume rely guarantee post (read query) state :=
  keeps_act fun later hlater choice hchoice =>
    ⟨henv.idle later choice.clock, hquery later hlater choice hchoice⟩

end Rules

/-! ## Programs that only read -/

/-- No action of the program changes the store. -/
def ReadOnly (program : LedgerM α) : Prop :=
  ∀ rely guarantee, Environment rely guarantee → ∀ state,
    Keeps anyAction rely guarantee (fun _ _ => True) program state

namespace ReadOnly

theorem pure (value : α) : ReadOnly (pure value : LedgerM α) :=
  fun _ _ _ _ => keeps_pure fun _ _ => trivial

theorem throw (err : LedgerError) : ReadOnly (throw err : LedgerM α) :=
  fun _ _ _ _ => keeps_throw

theorem attempt (result : Except LedgerError α) : ReadOnly (attempt result) :=
  fun _ _ _ _ => keeps_attempt fun _ _ _ _ => trivial

theorem read (query : IterationOrder → InMemoryStore → α) : ReadOnly (read query) :=
  fun _ _ henv _ => keeps_read henv fun _ _ _ _ _ _ => trivial

theorem bind {program : LedgerM α} {rest : α → LedgerM β} (hprogram : ReadOnly program)
    (hrest : ∀ value, ReadOnly (rest value)) : ReadOnly (program >>= rest) :=
  fun rely guarantee henv state => keeps_bind henv
    ((hprogram rely guarantee henv state).weaken fun value later _ =>
      hrest value rely guarantee henv later)

theorem compute (result : IterationOrder → Except LedgerError α) : ReadOnly (compute result) :=
  (read _).bind attempt

theorem nowMillis : ReadOnly nowMillis := by
  refine bind (fun _ _ henv _ => keeps_act fun later _ choice _ =>
    ⟨henv.idle later choice.clock, fun _ _ => trivial⟩) fun clock => ?_
  cases clock with
  | none => exact throw _
  | some ms => exact pure _

theorem foldlM {step : β → α → LedgerM β} (hstep : ∀ acc item, ReadOnly (step acc item))
    (items : List α) (start : β) : ReadOnly (items.foldlM step start) := by
  induction items generalizing start with
  | nil => exact pure _
  | cons head tail ih => exact (hstep start head).bind ih

/-- A program that only reads leaves the store as it is when it runs alone. -/
theorem store_eq {program : LedgerM α} (hprogram : ReadOnly program) {before after : World}
    {result : Except LedgerError α} (hruns : Runs program.run before result after) :
    after.store = before.store := by
  have henv : Environment (· = ·) fun a b : World => b.store = a.store :=
    ⟨fun _ => rfl, fun _ _ _ => .trans, fun _ _ => rfl⟩
  have hpath := (Guarantees.runs (hprogram _ _ henv before) hruns).1
  clear hruns
  induction hpath with
  | refl => rfl
  | tail _ hstep ih => exact hstep.trans ih

end ReadOnly

end LedgerM

end Kuatia
