import Kuatia.Ledger.Instants
import Kuatia.Ledger.Sample

/-! # Lifecycle calls take effect

A call of `freeze`, `unfreeze` or `close` reads the latest version and later
hands the next one to the store. The store answers `alreadyApplied` as soon as
that version number is taken, whoever took it and whatever for.
-/

namespace Kuatia

open Async Interleaving LedgerM

section Theory

variable [MoneyWidth]

namespace LifecycleChange

/-- The state of the account that the change is for. -/
def Holds : LifecycleChange → Account → Prop
  | .freeze, account => account.isFrozen = true
  | .unfreeze, account => account.isFrozen = false
  | .close, account => account.isClosed = true

def request : LifecycleChange → AccountId → Request
  | .freeze => .freeze
  | .unfreeze => .unfreeze
  | .close => .close

omit [MoneyWidth] in
theorem holds_nextVersion (change : LifecycleChange) (current : Account) :
    change.Holds (change.nextVersion current) := by
  cases change with
  | freeze => exact AccountFlags.contains_insert_self _ _
  | unfreeze => exact AccountFlags.contains_remove_self _ (by decide)
  | close =>
      exact (AccountFlags.contains_remove (by decide)).trans
        (AccountFlags.contains_insert_self _ _)

end LifecycleChange

/-- The last part of a transition: hand the next version to the store. -/
def appendVersion (change : LifecycleChange) (current : Account) (id : AccountId) (now : Int64) :
    LedgerM Unit := do
  let next := change.nextVersion current
  let outcome ← act fun choice store => store.commitTransition choice.clock next
    { seq := 0, timestamp := now, kind := change.makeEvent id next.version }
  let outcome ← attempt (outcome.mapError .store)
  attempt (transitionResult outcome)

variable [Sha256]

/-- What is left of a call that is about to hand the next version to the store. -/
def appending (change : LifecycleChange) (current : Account) (id : AccountId) (now : Int64) :
    Async Choice World (Except LedgerError Response) :=
  (do appendVersion change current id now; return .unit : LedgerM Response).run

/-- Nobody else has taken the next version number after `current`, or since then
some version was in the state that the change is for. -/
def Undisputed (store : InMemoryStore) (change : LifecycleChange) (current : Account) : Prop :=
  (∀ latest, store.latest current.id = some latest →
    latest.version < (change.nextVersion current).version) ∨
  ∃ account ∈ store.versions current.id,
    (change.nextVersion current).version ≤ account.version ∧ change.Holds account

/-- Whenever a call is about to hand over the next version, it is undisputed. -/
def Unovertaken (rest : Async Choice World (Except LedgerError Response)) (_ : Choice)
    (world : World) : Prop :=
  ∀ change current id now, rest = appending change current id now →
    Undisputed world.store change current

/-- So it is at the instants of a run. -/
abbrev UnovertakenAt (ledger : Ledger) :
    Async Choice World (Except LedgerError Response) → Choice → List LedgerAction → Prop :=
  AtInstant ledger.program LedgerPool.initial Unovertaken

/-- At some instant from `past` on the account was in the state that the change is for. -/
def TookEffect (ledger : Ledger) (change : LifecycleChange) (id : AccountId)
    (past later : List LedgerAction) : Prop :=
  ∃ instant account, past <+: instant ∧ instant <+: later ∧
    (storeAfter ledger instant).latest id = some account ∧ change.Holds account

variable {ledger : Ledger} {index : Nat} {change : LifecycleChange} {id : AccountId}
  {past : List LedgerAction}

/-- A version that the store accepts, or finds accepted already, was the latest
with the state of the change at some instant since `current` was read. -/
theorem tookEffect_of_outcome {read before after : List LedgerAction} {current : Account}
    {clock : Clock} {event : LedgerEvent} {outcome : TransitionOutcome}
    (hread : (storeAfter ledger read).latest current.id = some current)
    (hroom : current.version.toNat + 1 ≠ 2 ^ 64) (hbefore : read <+: before)
    (hafter : before <+: after)
    (hundisputed : Undisputed (storeAfter ledger before) change current)
    (hmoved : storeAfter ledger after = ((storeAfter ledger before).commitTransition clock
      (change.nextVersion current) event).2)
    (houtcome : ((storeAfter ledger before).commitTransition clock (change.nextVersion current)
      event).1 = .ok outcome)
    (hok : transitionResult outcome = .ok ()) :
    TookEffect ledger change current.id read after := by
  obtain ⟨_, hnapplied, hnalready⟩ | ⟨_, latest, hlatest, _, hle⟩ | ⟨_, _, _, _, _, hnew⟩ :=
    (storeAfter ledger before).commitTransition_cases clock (change.nextVersion current) event
  · cases outcome with
    | applied => exact absurd houtcome hnapplied
    | alreadyApplied => exact absurd houtcome hnalready
    | rejected reason => cases reason <;> cases hok
  · obtain hyounger | ⟨account, hmem, hnumber, hholds⟩ := hundisputed
    · exact absurd (hyounger latest hlatest) (UInt64.not_lt.mpr hle)
    · have hfresh : account ∉ (storeAfter ledger read).versions current.id := by
        intro hold
        have hle := UInt64.le_iff_toNat_le.mp ((ascending_after ledger read).version_le hread hold)
        have hnumber := UInt64.le_iff_toNat_le.mp hnumber
        have hsucc : (change.nextVersion current).version.toNat = current.version.toNat + 1 := by
          change (current.version + 1).toNat = _
          have hlt := current.version.toNat_lt
          rw [UInt64.toNat_add, UInt64.toNat_one, Nat.mod_eq_of_lt (by omega)]
        omega
      obtain ⟨instant, hpast, hinstant, hlatest⟩ :=
        exists_latest_of_mem_versions hbefore hmem hfresh
      exact ⟨instant, account, hpast, hinstant.trans hafter, hlatest, hholds⟩
  · refine ⟨after, change.nextVersion current, hbefore.trans hafter, List.prefix_refl _, ?_,
      change.holds_nextVersion current⟩
    rw [hmoved, hnew]
    simp [InMemoryStore.latest, InMemoryStore.versions, LifecycleChange.nextVersion]

theorem appendVersion_follows {read : List LedgerAction} {current : Account} {now : Int64}
    {assume : Async Choice World (Except LedgerError Unit) → Choice → List LedgerAction → Prop}
    (hassume : ∀ choice past, assume (appendVersion change current id now).run choice past →
      Undisputed (storeAfter ledger past) change current)
    (hread : (storeAfter ledger read).latest id = some current) (hid : current.id = id)
    (hroom : current.version.toNat + 1 ≠ 2 ^ 64) (hpast : read <+: past) :
    Follows ledger index assume (fun _ _ => True)
      (fun _ later => TookEffect ledger change id read later)
      (appendVersion change current id now) past := by
  subst hid
  refine follows_bind (follows_act fun others choice hchoice hmoved => ⟨trivial, ?_⟩)
  refine follows_bind (follows_attempt fun outcome houtcome => ?_)
  refine follows_attempt fun _ hresult => ?_
  rw [Except.mapError_eq_ok_iff] at houtcome
  rw [← run_bind_eq] at hchoice
  exact tookEffect_of_outcome hread hroom (hpast.trans (List.prefix_append _ _))
    (List.prefix_append _ _) (hassume _ _ hchoice) hmoved houtcome hresult

theorem transition_follows
    {assume : Async Choice World (Except LedgerError Unit) → Choice → List LedgerAction → Prop}
    (hassume : ∀ current now choice past,
      assume (appendVersion change current id now).run choice past →
        Undisputed (storeAfter ledger past) change current) :
    Follows ledger index assume (fun _ _ => True)
      (fun _ later => TookEffect ledger change id past later) (transition id change) past := by
  have hidle : Idles ledger fun _ _ => True := fun _ _ _ => trivial
  refine follows_bind (follows_read hidle fun others choice _ => ?_)
  refine follows_bind (follows_attempt fun current hcurrent => ?_)
  rw [Except.mapError_eq_ok_iff, InMemoryStore.getAccount_eq_ok_iff] at hcurrent
  have hwell := wellFormed_after ledger (past ++ others)
  have hid := hwell.versions id current (InMemoryStore.mem_versions_of_latest hcurrent)
  split
  next => exact follows_throw
  next =>
    split
    next => exact follows_throw
    next hroom =>
      refine follows_bind ((ReadOnly.nowMillis.follows hidle).since.weaken ?_)
      intro now later hlater
      refine (appendVersion_follows (hassume current now) hcurrent hid hroom
        ((List.prefix_append _ _).trans hlater.2)).weaken fun _ last heffect => ?_
      obtain ⟨instant, account, hpast, hrest⟩ := heffect
      exact ⟨instant, account, (List.prefix_append _ _).trans hpast, hrest⟩

theorem close_follows
    {assume : Async Choice World (Except LedgerError Unit) → Choice → List LedgerAction → Prop}
    (hassume : ∀ current now choice past,
      assume (appendVersion .close current id now).run choice past →
        Undisputed (storeAfter ledger past) .close current) :
    Follows ledger index assume (fun _ _ => True)
      (fun _ later => TookEffect ledger .close id past later) (close id) past := by
  have hidle : Idles ledger fun _ _ => True := fun _ _ _ => trivial
  refine follows_bind (((hasLivePostings_readOnly id).follows hidle).since.weaken ?_)
  intro live later hlater
  split
  next => exact follows_throw
  next =>
    refine (transition_follows hassume).weaken fun _ last heffect => ?_
    obtain ⟨instant, account, hpast, hrest⟩ := heffect
    exact ⟨instant, account, hlater.2.trans hpast, hrest⟩

/-- Each of the three calls takes effect where the next version is undisputed. -/
theorem operation_follows :
    Follows ledger index (UnovertakenAt ledger) (fun _ _ => True)
      (fun _ later => TookEffect ledger change id past later)
      (ledger.operation (change.request id)) past := by
  have hassume : ∀ change current now choice past,
      UnovertakenAt ledger ((appendVersion change current id now).run >>=
        continueWith fun _ => pure Response.unit) choice past →
      Undisputed (storeAfter ledger past) change current := by
    intro change current now choice past hchoice
    rw [← run_bind_eq] at hchoice
    exact hchoice change current id now rfl
  cases change with
  | freeze =>
      exact follows_bind ((transition_follows (hassume .freeze)).weaken fun _ _ heffect =>
        follows_pure heffect)
  | unfreeze =>
      exact follows_bind ((transition_follows (hassume .unfreeze)).weaken fun _ _ heffect =>
        follows_pure heffect)
  | close =>
      exact follows_bind ((close_follows (hassume .close)).weaken fun _ _ heffect =>
        follows_pure heffect)

/-- In runs in which no other change takes the number of a version that is about
to be appended, every lifecycle call that returns without an error has taken
effect at some instant between its start and its return. -/
theorem lifecycle_took_effect (ledger : Ledger) (actions : List LedgerAction) (index : Nat)
    (change : LifecycleChange) (id : AccountId) (response : Response)
    (hrun : LedgerPool.initial.Respects ledger.program (fun _ => Unovertaken) actions)
    (hreturned : (LedgerPool.after ledger actions).calls[index]? =
      some ⟨change.request id, .done (.ok response)⟩) :
    ∃ start past, Arrived ledger.program LedgerPool.initial index actions
        ⟨change.request id, .done (.ok response)⟩ start past ∧
      TookEffect ledger change id (start ++ [.start (change.request id)]) past := by
  have hstart : ∀ request start, (LedgerPool.after ledger start).calls.length = index →
      Traces ledger.program LedgerPool.initial index (UnovertakenAt ledger) (fun _ _ => True)
        (fun result past => request = change.request id → ∀ value, result = .ok value →
          TookEffect ledger change id (start ++ [.start request]) past)
        (ledger.program request) (start ++ [.start request]) := by
    intro request start _
    by_cases hrequest : request = change.request id
    · subst hrequest
      exact Traces.weaken operation_follows fun result past hpost _ => hpost
    · exact Traces.vacuous (fun _ _ => trivial) (fun _ _ hsame => absurd hsame hrequest) _ _
  obtain ⟨start, past, harrived, hpost⟩ := exists_arrived (Nat.zero_le _) hrun.obeys hstart hreturned
  exact ⟨start, past, harrived, hpost rfl response rfl⟩

/-! ## Telling whether a call is about to append a version -/

section Telling

variable {update : Choice → World → World}
  {next : Choice → World → Async Choice World (Except LedgerError Response)} {choice : Choice}
  {world : World}

omit [Sha256] in
theorem update_of_appending {current : Account} {now : Int64}
    (hrest : .step update next = appending change current id now) (choice : Choice)
    (world : World) : ∃ event, (update choice world).store =
      (world.store.commitTransition choice.clock (change.nextVersion current) event).2 := by
  injection hrest with hupdate
  rw [hupdate]
  exact ⟨_, rfl⟩

omit [Sha256] in
/-- An action that appends a version has found it undisputed. -/
theorem unovertaken_of_versions {account : AccountId}
    (hmoved : (update choice world).store.versions account ≠ world.store.versions account) :
    Unovertaken (.step update next) choice world := by
  intro change current id now hrest
  obtain ⟨event, hupdate⟩ := update_of_appending hrest choice world
  obtain ⟨hsame, _⟩ | ⟨heq, _⟩ | ⟨latest, hlatest, _, hversion, hroom, _⟩ :=
    world.store.commitTransition_cases choice.clock (change.nextVersion current) event
  · rw [hupdate, hsame] at hmoved
    exact absurd rfl hmoved
  · rw [hupdate, heq] at hmoved
    exact absurd (InMemoryStore.versions_congr (by simp) account) hmoved
  · refine .inl fun other hother => ?_
    have hsame : latest = other := Option.some.inj (hlatest.symm.trans hother)
    subst hsame
    rw [hversion, UInt64.lt_iff_toNat_lt, UInt64.toNat_add, UInt64.toNat_one,
      Nat.mod_eq_of_lt hroom]
    omega

omit [Sha256] in
/-- An action that would append a version which is there already finds it undisputed. -/
theorem unovertaken_of_repeats (account : AccountId) (version : Account) (probe : World)
    (happends : version ∈ (update choice probe).store.versions account)
    (hnew : version ∉ probe.store.versions account)
    (hthere : version ∈ world.store.versions account) :
    Unovertaken (.step update next) choice world := by
  intro change current id now hrest
  obtain ⟨event, hupdate⟩ := update_of_appending hrest choice probe
  rw [hupdate] at happends
  obtain ⟨hsame, _⟩ | ⟨heq, _⟩ | ⟨_, _, _, _, _, heq⟩ :=
    probe.store.commitTransition_cases choice.clock (change.nextVersion current) event
  · rw [hsame] at happends
    exact absurd happends hnew
  · have hsame : (probe.store.appendEventLocked choice.clock event).versions account =
        probe.store.versions account := InMemoryStore.versions_congr (by simp) account
    rw [heq, hsame] at happends
    exact absurd happends hnew
  · rw [heq] at happends
    simp only [InMemoryStore.versions, InMemoryStore.appendEventLocked_accounts,
      HashMap.lookup_insert_eq] at happends
    split at happends
    next hid =>
      have hlast := (List.mem_append.mp happends).resolve_left (hid ▸ hnew)
      cases List.mem_singleton.mp hlast
      exact .inr ⟨_, hid ▸ hthere, UInt64.le_refl _, change.holds_nextVersion current⟩
    next => exact absurd happends hnew

omit [Sha256] in
/-- An action that gives an empty store an account appends no version. -/
theorem unovertaken_of_creates {account : AccountId}
    (hcreates : (update choice ⟨.new, none⟩).store.versions account ≠ []) :
    Unovertaken (.step update next) choice world := by
  intro change current id now hrest
  obtain ⟨event, hupdate⟩ := update_of_appending hrest choice ⟨.new, none⟩
  rw [hupdate] at hcreates
  exact absurd rfl hcreates

omit [Sha256] in
/-- An action that leaves every store alone appends no version. -/
theorem unovertaken_of_reads (hreads : ∀ world, (update choice world).store = world.store) :
    Unovertaken (.step update next) choice world := by
  intro change current id now hrest
  exfalso
  -- probe it with a store that holds the version the call has read
  let held : Account := { current with flags := .empty }
  let store : InMemoryStore := { InMemoryStore.new with accounts := .insert current.id [held] ∅ }
  have haccounts : store.accounts.lookup current.id = some [held] := AList.lookup_insert _
  obtain ⟨event, hupdate⟩ := update_of_appending hrest choice ⟨store, none⟩
  have hevents : (store.commitTransition choice.clock (change.nextVersion current)
      event).2.events = [] := by
    rw [← hupdate, hreads]
    rfl
  have hgrows : ∀ other : InMemoryStore, other.events = [] →
      (other.appendEventLocked choice.clock event).events ≠ [] := by
    intro other hother
    have hnew : InMemoryStore.findEvent [] event.kind = none := by
      rw [InMemoryStore.findEvent]
      cases eventDedupKey event.kind <;> rfl
    rw [InMemoryStore.appendEventLocked, hother, hnew]
    exact List.append_ne_nil_of_right_ne_nil _ (List.cons_ne_nil _ _)
  have hlatest : [held].getLast? = some held := rfl
  have hclosed : held.isClosed = false :=
    (by decide : AccountFlags.empty.contains .CLOSED = false)
  have hnext : (change.nextVersion current).version = held.version + 1 := rfl
  unfold InMemoryStore.commitTransition at hevents
  rw [show (change.nextVersion current).id = current.id from rfl, haccounts] at hevents
  simp only [hlatest, hclosed, Bool.false_eq_true, if_false] at hevents
  split at hevents
  next => exact hgrows store rfl hevents
  next hyounger =>
    split at hevents
    next hfull =>
      refine hyounger ?_
      rw [hnext, UInt64.le_iff_toNat_le, UInt64.toNat_add, UInt64.toNat_one, hfull]
      exact Nat.zero_le _
    next =>
      rw [if_neg (not_not.mpr hnext)] at hevents
      exact hgrows _ rfl hevents

end Telling

end Theory

open Sample in
/-- Two clients have read the same version of an account, and both freeze it. -/
def frozenTogether : List LedgerAction :=
  [.start (.createAccount (.new external)), .advance 0 noon,
    .start (.freeze external), .start (.freeze external), .advance 1 noon, .advance 2 noon,
    .advance 1 noon, .advance 2 noon, .advance 1 noon, .advance 2 noon]

open Sample in
/-- The second one is told that its version is there, which is the frozen one. -/
theorem lifecycle_took_effect_together :
    (∃ start past, Arrived ledger.program LedgerPool.initial 1 frozenTogether
        ⟨.freeze external, .done (.ok .unit)⟩ start past ∧
      TookEffect ledger .freeze external (start ++ [.start (.freeze external)]) past) ∧
    ∃ start past, Arrived ledger.program LedgerPool.initial 2 frozenTogether
        ⟨.freeze external, .done (.ok .unit)⟩ start past ∧
      TookEffect ledger .freeze external (start ++ [.start (.freeze external)]) past := by
  have hrun : LedgerPool.initial.Respects ledger.program (fun _ => Unovertaken)
      frozenTogether := by
    refine .start (Pool.Respects.advance rfl
      (unovertaken_of_creates (show InMemoryStore.versions _ external ≠ [] by decide)) ?_)
    refine .start (Pool.Respects.start ?_)
    -- both read the version and the clock
    refine .advance rfl (unovertaken_of_reads fun _ => rfl) ?_
    refine .advance rfl (unovertaken_of_reads fun _ => rfl) ?_
    refine .advance rfl (unovertaken_of_reads fun _ => rfl) ?_
    refine .advance rfl (unovertaken_of_reads fun _ => rfl) ?_
    refine .advance rfl
      (unovertaken_of_versions (show InMemoryStore.versions _ external ≠ _ by decide)) ?_
    refine .advance rfl (unovertaken_of_repeats external
      { Account.new external with version := 2, flags := .FROZEN }
      ⟨storeAfter ledger (frozenTogether.take 2), none⟩ ?_ ?_ ?_) trivial
    · decide
    · decide
    · decide
  have hreturned : ∀ index ∈ [1, 2], (LedgerPool.after ledger frozenTogether).calls[index]? =
      some ⟨.freeze external, .done (.ok .unit)⟩ := by
    simp only [List.forall_mem_cons, List.not_mem_nil, false_imp_iff, implies_true, and_true]
    exact ⟨rfl, rfl⟩
  exact ⟨lifecycle_took_effect ledger frozenTogether 1 .freeze external .unit hrun
      (hreturned 1 (by decide)),
    lifecycle_took_effect ledger frozenTogether 2 .freeze external .unit hrun
      (hreturned 2 (by decide))⟩

open Sample in
/-- Two clients have read the same version of alice. One unfreezes her, which
takes the next number, and then the other freezes her. -/
def frozenInVain : List LedgerAction :=
  sequentially accounts ++ [.start (.freeze alice), .start (.unfreeze alice), .advance 2 noon] ++
    .replicate 10 (.advance 3 noon) ++ .replicate 10 (.advance 2 noon)

/-- What the call at `index` asked for, if it has returned without an error. -/
def succeeded [MoneyWidth] (pool : LedgerPool) (index : Nat) : Option Request :=
  match pool.calls[index]? with
  | some ⟨request, .done (.ok _)⟩ => some request
  | _ => none

open Sample in
/-- The call that freezes returns without an error, and alice was never frozen. -/
theorem freeze_without_effect :
    succeeded (LedgerPool.after ledger frozenInVain) 2 = some (.freeze alice) ∧
    ∀ instant, instant <+: frozenInVain → ∀ account,
      (storeAfter ledger instant).latest alice = some account → account.isFrozen = false := by
  have hnever : ∀ instant ∈ frozenInVain.inits, ((storeAfter ledger instant).latest alice).all
      fun account => !account.isFrozen := by decide +kernel
  refine ⟨by decide +kernel, fun instant hinstant account hlatest => ?_⟩
  have hthawed := hnever instant ((List.mem_inits _ _).mpr hinstant)
  rw [hlatest] at hthawed
  simpa using hthawed

end Kuatia
