import Kuatia.Interleaving.History
import Kuatia.Ledger.Runs

/-! # Instants of a run

The state of the ledger at an instant is the state after the actions up to then.
The rules below follow one call through a run: what it reads it reads at an
instant, and what it returns may speak of all instants since its start.
-/

namespace Kuatia

open Async Interleaving

variable [MoneyWidth] [Sha256] {α β : Type} {ledger : Ledger} {index : Nat}

/-- The actions of the call at `index` keep to `guarantee`, and a value it returns
satisfies `post`. -/
def LedgerM.Follows (ledger : Ledger) (index : Nat)
    (assume : Async Choice World (Except LedgerError α) → Choice → List LedgerAction → Prop)
    (guarantee : List LedgerAction → List LedgerAction → Prop)
    (post : α → List LedgerAction → Prop) (program : LedgerM α) (past : List LedgerAction) : Prop :=
  Traces ledger.program LedgerPool.initial index assume guarantee
    (fun result later => ∀ value, result = .ok value → post value later) program.run past

/-- Actions that leave the store alone keep to the guarantee. -/
def Idles (ledger : Ledger) (guarantee : List LedgerAction → List LedgerAction → Prop) : Prop :=
  ∀ before after, storeAfter ledger after = storeAfter ledger before → guarantee before after

namespace LedgerM

variable {assume : Async Choice World (Except LedgerError α) → Choice → List LedgerAction → Prop}
  {guarantee : List LedgerAction → List LedgerAction → Prop}
  {post : α → List LedgerAction → Prop} {past : List LedgerAction}

theorem Follows.weaken {post' : α → List LedgerAction → Prop} {program : LedgerM α}
    (hprogram : Follows ledger index assume guarantee post program past)
    (hpost : ∀ value later, post value later → post' value later) :
    Follows ledger index assume guarantee post' program past :=
  Traces.weaken hprogram fun _ _ hvalue value heq => hpost _ _ (hvalue value heq)

/-- What is returned is known together with the actions it started from. -/
theorem Follows.since {program : LedgerM α}
    (hprogram : Follows ledger index assume guarantee post program past) :
    Follows ledger index assume guarantee
      (fun value later => post value later ∧ past <+: later) program past :=
  Traces.weaken (Traces.since hprogram) fun _ _ ⟨hpost, hlater⟩ value heq =>
    ⟨hpost value heq, hlater⟩

theorem follows_bind
    {assume : Async Choice World (Except LedgerError β) → Choice → List LedgerAction → Prop}
    {post : β → List LedgerAction → Prop} {program : LedgerM α} {next : α → LedgerM β}
    (hprogram : Follows ledger index (fun first => assume (first >>= continueWith next)) guarantee
      (fun value later => Follows ledger index assume guarantee post (next value) later)
      program past) :
    Follows ledger index assume guarantee post (program >>= next) past := by
  refine traces_except_bind (Traces.weaken hprogram fun result later hresult => ?_)
  cases result with
  | ok value => exact hresult value rfl
  | error err => nofun

theorem follows_pure {value : α} (hpost : post value past) :
    Follows ledger index assume guarantee post (pure value) past := by
  intro returned heq
  cases heq
  exact hpost

theorem follows_throw {err : LedgerError} :
    Follows ledger index assume guarantee post (throw err) past := by
  intro returned heq
  cases heq

theorem follows_attempt {result : Except LedgerError α}
    (hpost : ∀ value, result = .ok value → post value past) :
    Follows ledger index assume guarantee post (attempt result) past := hpost

/-- An action happens at one instant, after some actions of others. -/
theorem follows_act {body : Choice → InMemoryStore → α × InMemoryStore}
    (hbody : ∀ others choice,
      assume (act body).run choice (past ++ others) →
      storeAfter ledger (past ++ others ++ [.advance index choice]) =
        (body choice (storeAfter ledger (past ++ others))).2 →
      guarantee (past ++ others) (past ++ others ++ [.advance index choice]) ∧
        post (body choice (storeAfter ledger (past ++ others))).1
          (past ++ others ++ [.advance index choice])) :
    Follows ledger index assume guarantee post (act body) past := by
  intro others choice hchoice hmoved
  obtain ⟨hstep, hpost⟩ := hbody others choice hchoice (congrArg World.store hmoved)
  refine ⟨hstep, fun value heq => ?_⟩
  cases heq
  exact hpost

theorem follows_read {query : IterationOrder → InMemoryStore → α} (hidle : Idles ledger guarantee)
    (hquery : ∀ others choice,
      assume (read query).run choice (past ++ others) →
      post (query choice.order (storeAfter ledger (past ++ others)))
        (past ++ others ++ [.advance index choice])) :
    Follows ledger index assume guarantee post (read query) past :=
  follows_act fun others choice hchoice hmoved =>
    ⟨hidle _ _ hmoved, hquery others choice hchoice⟩

/-- What a program promises of states it promises of the states of a run. -/
theorem Keeps.follows {post : α → World → Prop} {program : LedgerM α}
    (hprogram : Keeps anyAction Interferes (fun before after => after.store = before.store) post
      program (LedgerPool.after ledger past).shared) (hidle : Idles ledger guarantee) :
    Follows ledger index assume guarantee
      (fun value later => post value (LedgerPool.after ledger later).shared) program past := by
  have hrely : ∀ before others, Interferes (LedgerPool.after ledger before).shared
      (LedgerPool.after ledger (before ++ others)).shared := evolves_after ledger
  exact (Traces.of_guarantees hrely (fun world => Evolves.refl world.store) hprogram).mono
    (fun _ _ _ _ => trivial) (fun before after hsame => hidle before after hsame) fun _ _ h => h

/-- A program that only reads may take its time. -/
theorem ReadOnly.follows {program : LedgerM α} (hprogram : ReadOnly program)
    (hidle : Idles ledger guarantee) :
    Follows ledger index assume guarantee (fun _ _ => True) program past := by
  have henv : Environment Interferes fun before after : World => after.store = before.store :=
    ⟨fun world => Evolves.refl world.store, fun _ _ _ => Evolves.trans, fun _ _ => rfl⟩
  exact Keeps.follows (hprogram _ _ henv _) hidle

end LedgerM

/-! ## Versions in time -/

/-- The versions of each account are numbered in ascending order. -/
def Ascending (store : InMemoryStore) : Prop :=
  ∀ id, (store.versions id).Pairwise fun first second => first.version < second.version

omit [Sha256] in
/-- The latest version has the greatest number. -/
theorem Ascending.version_le {store : InMemoryStore} (hascending : Ascending store)
    {id : AccountId} {account current : Account} (hlatest : store.latest id = some current)
    (haccount : account ∈ store.versions id) : account.version ≤ current.version := by
  obtain ⟨earlier, hversions⟩ := List.getLast?_eq_some_iff.mp hlatest
  have hpairwise := hascending id
  rw [hversions] at hpairwise haccount
  rcases List.mem_append.mp haccount with hearlier | hlast
  · have hlt := (List.pairwise_append.mp hpairwise).2.2 account hearlier current
      (List.mem_singleton_self _)
    exact UInt64.le_of_lt hlt
  · rw [List.mem_singleton.mp hlast]
    exact UInt64.le_refl _

theorem StoreStep.ascending {submits : Envelope → Prop} {before after : InMemoryStore}
    (hstep : StoreStep submits before after) (hascending : Ascending before) : Ascending after := by
  intro id
  obtain hsame | ⟨first, _, _, hnew⟩ | ⟨current, change, seen, hlatest, _, _, _, hversion, hroom,
    hnew⟩ := hstep.versions_cases id
  · exact hsame ▸ hascending id
  · rw [hnew]
    exact List.pairwise_singleton _ _
  · rw [hnew, List.pairwise_append]
    refine ⟨hascending id, List.pairwise_singleton _ _, fun account haccount next hnext => ?_⟩
    rw [List.mem_singleton.mp hnext]
    have hle := UInt64.le_iff_toNat_le.mp (hascending.version_le hlatest haccount)
    have hsucc : (LifecycleChange.nextVersion change seen).version.toNat =
        current.version.toNat + 1 := by
      change (seen.version + 1).toNat = _
      rw [hversion, UInt64.toNat_add, UInt64.toNat_one, Nat.mod_eq_of_lt hroom]
    rw [UInt64.lt_iff_toNat_lt]
    omega

theorem ascending_after (ledger : Ledger) (actions : List LedgerAction) :
    Ascending (storeAfter ledger actions) :=
  reachable_induction ledger (fun _ => .nil) (fun _ _ _ hstep => hstep.ascending) actions

theorem versions_prefix_later (ledger : Ledger) {first later : List LedgerAction}
    (hlater : first <+: later) (id : AccountId) :
    (storeAfter ledger first).versions id <+: (storeAfter ledger later).versions id := by
  exact (evolves_later ledger hlater).keep
    (fun store => (storeAfter ledger first).versions id <+: store.versions id)
    (fun _ _ hstep hearlier => hearlier.trans (hstep.versions_prefix id)) (List.prefix_refl _)

/-- A version that was not there at one instant was the latest at some later one. -/
theorem exists_latest_of_mem_versions {past later : List LedgerAction} (hlater : past <+: later)
    {id : AccountId} {account : Account} (hmem : account ∈ (storeAfter ledger later).versions id)
    (hnew : account ∉ (storeAfter ledger past).versions id) :
    ∃ instant, past <+: instant ∧ instant <+: later ∧
      (storeAfter ledger instant).latest id = some account := by
  obtain ⟨more, rfl⟩ := hlater
  induction more using List.reverseRecOn with
  | nil =>
      rw [List.append_nil] at hmem
      exact absurd hmem hnew
  | append_singleton more action ih =>
      rw [← List.append_assoc] at hmem ⊢
      have hstep := storeStep_after ledger (past ++ more) action
      have hextend : past ++ more <+: past ++ more ++ [action] := List.prefix_append _ _
      by_cases hearlier : account ∈ (storeAfter ledger (past ++ more)).versions id
      · obtain ⟨instant, hpast, hinstant, hlatest⟩ := ih hearlier
        exact ⟨instant, hpast, hinstant.trans hextend, hlatest⟩
      · refine ⟨_, (List.prefix_append _ _).trans hextend, List.prefix_refl _, ?_⟩
        rw [InMemoryStore.latest]
        obtain hsame | ⟨first, _, _, hversions⟩ | ⟨_, _, _, _, _, _, _, _, _, hversions⟩ :=
          hstep.versions_cases id
        · exact absurd (hsame ▸ hmem) hearlier
        · rw [hversions] at hmem ⊢
          rw [List.mem_singleton.mp hmem]
          rfl
        · rw [hversions] at hmem ⊢
          have hlast := (List.mem_append.mp hmem).resolve_left hearlier
          rw [List.mem_singleton.mp hlast]
          exact List.getLast?_concat

end Kuatia
