import Mathlib.Data.List.Perm.Basic

/-! # Transactions beside each other

A server runs any number of transactions over one database. A step of a transaction
sees the others, so that it can wait for what they hold, and may record an effect in
the log. Transactions are never removed, so the position of one is its identity.
-/

universe u v w x y

namespace Interleaving

/-- How a transaction begins for a request, and what it does next; there is no next
step while it waits. -/
structure TransactionSystem (D : Type u) (T : Type v) (Q : Type w) (C : Type x) (E : Type y) where
  begin : Q → T
  step : C → D → List T → T → Option (D × T × Option E)

structure TransactionServer (D : Type u) (T : Type v) (E : Type y) where
  db : D
  transactions : List T
  log : List E

/-- What may happen next: a transaction begins, or one takes its next step. -/
inductive TransactionAction (Q : Type w) (C : Type x) where
  | start (request : Q)
  | advance (index : Nat) (choice : C)

variable {D : Type u} {T : Type v} {Q : Type w} {C : Type x} {E : Type y}

namespace TransactionServer

def act (system : TransactionSystem D T Q C E) (server : TransactionServer D T E) :
    TransactionAction Q C → TransactionServer D T E
  | .start request =>
      { server with transactions := server.transactions ++ [system.begin request] }
  | .advance index choice =>
      match server.transactions[index]? with
      | none => server
      | some tx =>
          match system.step choice server.db (server.transactions.eraseIdx index) tx with
          | none => server
          | some (db, next, effect) =>
              ⟨db, server.transactions.set index next, server.log ++ effect.toList⟩

def run (system : TransactionSystem D T Q C E) (server : TransactionServer D T E)
    (actions : List (TransactionAction Q C)) : TransactionServer D T E :=
  actions.foldl (act system) server

variable {system : TransactionSystem D T Q C E}

@[simp] theorem run_nil (server : TransactionServer D T E) : server.run system [] = server := rfl

@[simp] theorem run_cons (server : TransactionServer D T E) (action : TransactionAction Q C)
    (actions : List (TransactionAction Q C)) :
    server.run system (action :: actions) = (server.act system action).run system actions := rfl

theorem run_append (server : TransactionServer D T E) (first second : List (TransactionAction Q C)) :
    server.run system (first ++ second) = (server.run system first).run system second :=
  List.foldl_append

/-- Nothing is taken out of the log. -/
theorem log_prefix_act (server : TransactionServer D T E) (action : TransactionAction Q C) :
    server.log <+: (server.act system action).log := by
  cases action with
  | start request => exact List.prefix_refl _
  | advance index choice =>
      simp only [act]
      split
      next => exact List.prefix_refl _
      next =>
        split
        next => exact List.prefix_refl _
        next => exact List.prefix_append _ _

theorem log_prefix_run (server : TransactionServer D T E) (actions : List (TransactionAction Q C)) :
    server.log <+: (server.run system actions).log := by
  induction actions generalizing server with
  | nil => exact List.prefix_refl _
  | cons action actions ih => exact (log_prefix_act server action).trans (ih _)

/-- Every entry of the log is that of a transaction, if each step that records one leaves
it to its transaction for good. -/
theorem exists_of_mem_log {records : E → T → Prop}
    (hnew : ∀ {choice db others tx db' next effect},
      system.step choice db others tx = some (db', next, some effect) → records effect next)
    (hkept : ∀ {choice db others tx db' next effect entry}, records entry tx →
      system.step choice db others tx = some (db', next, effect) → records entry next)
    {server : TransactionServer D T E}
    (hserver : ∀ entry ∈ server.log, ∃ tx ∈ server.transactions, records entry tx)
    (actions : List (TransactionAction Q C)) :
    ∀ entry ∈ (server.run system actions).log,
      ∃ tx ∈ (server.run system actions).transactions, records entry tx := by
  induction actions generalizing server with
  | nil => exact hserver
  | cons action actions ih =>
      refine ih fun entry hentry => ?_
      cases action with
      | start request =>
          obtain ⟨tx, htx, hrecords⟩ := hserver entry hentry
          exact ⟨tx, List.mem_append_left _ htx, hrecords⟩
      | advance index choice =>
          simp only [act] at hentry ⊢
          split at hentry
          next => exact hserver entry hentry
          next tx hindex =>
            split at hentry
            next => exact hserver entry hentry
            next db next effect hstep =>
              have hplace : index < server.transactions.length :=
                (List.getElem?_eq_some_iff.mp hindex).1
              rcases List.mem_append.mp hentry with hold | hrecorded
              · obtain ⟨other, hother, hrecords⟩ := hserver entry hold
                obtain ⟨place, hfound⟩ := List.mem_iff_getElem?.mp hother
                by_cases hsame : index = place
                · subst hsame
                  rw [hindex] at hfound
                  cases hfound
                  exact ⟨next, List.mem_set hplace _, hkept hrecords hstep⟩
                · refine ⟨other, List.mem_iff_getElem?.mpr ⟨place, ?_⟩, hrecords⟩
                  rw [List.getElem?_set_ne hsame, hfound]
              · rw [Option.mem_toList] at hrecorded
                cases hrecorded
                exact ⟨next, List.mem_set hplace _, hnew hstep⟩

end TransactionServer

/-- What every state keeps: of the database with its log, of each transaction, and of
every two of them. A step has to keep it for the transaction and for the others. -/
structure TransactionInvariant (system : TransactionSystem D T Q C E) where
  whole : List E → D → Prop
  own : List E → D → T → Prop
  apart : T → T → Prop
  symm : ∀ {first second}, apart first second → apart second first
  step : ∀ {choice log db others tx db' next effect}, whole log db → own log db tx →
    (∀ other ∈ others, own log db other ∧ apart tx other) →
    system.step choice db others tx = some (db', next, effect) →
    whole (log ++ effect.toList) db' ∧ own (log ++ effect.toList) db' next ∧
      ∀ other ∈ others, own (log ++ effect.toList) db' other ∧ apart next other

namespace TransactionInvariant

variable {system : TransactionSystem D T Q C E} (invariant : TransactionInvariant system)

structure Holds (server : TransactionServer D T E) : Prop where
  whole : invariant.whole server.log server.db
  own : ∀ tx ∈ server.transactions, invariant.own server.log server.db tx
  apart : server.transactions.Pairwise invariant.apart

/-- A transaction may begin if that keeps the invariant, whatever else is going on. -/
def Admits (request : Q) : Prop :=
  (∀ log db, invariant.whole log db → invariant.own log db (system.begin request)) ∧
    ∀ tx, invariant.apart (system.begin request) tx

variable {invariant} {server : TransactionServer D T E}

theorem Holds.start (hholds : invariant.Holds server) {request : Q}
    (hadmits : invariant.Admits request) : invariant.Holds (server.act system (.start request)) where
  whole := hholds.whole
  own := by
    intro tx htx
    rcases List.mem_append.mp htx with htx | htx
    · exact hholds.own tx htx
    · rw [List.mem_singleton.mp htx]
      exact hadmits.1 _ _ hholds.whole
  apart := by
    refine List.pairwise_append.mpr ⟨hholds.apart, List.pairwise_singleton _ _, ?_⟩
    intro tx _ other hother
    rw [List.mem_singleton.mp hother]
    exact invariant.symm (hadmits.2 tx)

/-- The transaction that takes a step is brought to the front, where the others are
the rest of the list. -/
theorem Holds.advance (hholds : invariant.Holds server) (index : Nat) (choice : C) :
    invariant.Holds (server.act system (.advance index choice)) := by
  simp only [TransactionServer.act]
  split
  next => exact hholds
  next tx htx =>
    split
    next => exact hholds
    next db next effect hstep =>
      obtain ⟨hindex, rfl⟩ := List.getElem?_eq_some_iff.mp htx
      have hfront := List.getElem_cons_eraseIdx_perm hindex
      have hback := List.set_perm_cons_eraseIdx hindex next
      have hown : ∀ other ∈ server.transactions[index] :: server.transactions.eraseIdx index,
          invariant.own server.log server.db other :=
        fun other hother => hholds.own other (hfront.mem_iff.mp hother)
      obtain ⟨hapart, hrest⟩ := List.pairwise_cons.mp
        ((hfront.symm.pairwise_iff invariant.symm).mp hholds.apart)
      rw [List.forall_mem_cons] at hown
      obtain ⟨hwhole, hnext, hothers⟩ := invariant.step hholds.whole hown.1
        (fun other hother => ⟨hown.2 other hother, hapart other hother⟩) hstep
      constructor
      · exact hwhole
      · intro other hother
        rcases List.mem_cons.mp (hback.mem_iff.mp hother) with rfl | hother
        · exact hnext
        · exact (hothers other hother).1
      · refine (hback.symm.pairwise_iff invariant.symm).mp (List.pairwise_cons.mpr ⟨?_, hrest⟩)
        exact fun other hother => (hothers other hother).2

/-- What every step keeps, every run keeps. -/
theorem Holds.run {actions : List (TransactionAction Q C)} (hholds : invariant.Holds server)
    (hadmits : ∀ request, .start request ∈ actions → invariant.Admits request) :
    invariant.Holds (server.run system actions) := by
  induction actions generalizing server with
  | nil => exact hholds
  | cons action actions ih =>
      refine ih ?_ fun request hrequest => hadmits request (List.mem_cons_of_mem _ hrequest)
      cases action with
      | start request => exact hholds.start (hadmits request List.mem_cons_self)
      | advance index choice => exact hholds.advance index choice

end TransactionInvariant

end Interleaving
