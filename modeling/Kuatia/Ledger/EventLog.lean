import Kuatia.Ledger.Transitions
import Kuatia.Storage.EventKey

/-! # The event log mirrors the state

A transfer and its event, and an account version and its event, are written in
one action. The keys keep retries and overtaken calls from writing another one.
-/

namespace Kuatia

section Theory

variable [MoneyWidth]

/-- The transfer that an event commits. -/
def LedgerEventKind.committed : LedgerEventKind → Option EnvelopeId
  | .transferCommitted transferId => some transferId
  | .accountCreated _ | .accountFrozen _ _ | .accountUnfrozen _ _ | .accountClosed _ _ => none

/-- The event freezes, unfreezes or closes the account. -/
def LedgerEventKind.isLifecycleOf (id : AccountId) : LedgerEventKind → Bool
  | .accountFrozen account _ | .accountUnfrozen account _ | .accountClosed account _ =>
      account = id
  | .transferCommitted _ | .accountCreated _ => false

/-- The event that agrees with the flags of a version. -/
def Account.lifecycleEvent (account : Account) : LedgerEventKind :=
  if account.isClosed then .accountClosed account.id account.version
  else if account.isFrozen then .accountFrozen account.id account.version
  else .accountUnfrozen account.id account.version

/-- Each stored transfer has one committed event, and each version of an account
above the first one the lifecycle event that agrees with its flags. There are no
others, and no two versions have the same number. -/
structure EventsMirror (store : InMemoryStore) : Prop where
  transfers : ((store.events.map (·.kind)).filterMap (·.committed)).Perm store.transfers.keys
  lifecycle : ∀ id, (store.events.map (·.kind)).filter (·.isLifecycleOf id) =
    (store.versions id).tail.map Account.lifecycleEvent
  ascending : Ascending store

/-! ## What an event is about -/

section Subjects

omit [MoneyWidth]

theorem committed_eq_some_iff {kind : LedgerEventKind} {transferId : EnvelopeId} :
    kind.committed = some transferId ↔ kind.subject = some (.inl transferId) := by
  cases kind <;> simp [LedgerEventKind.committed, LedgerEventKind.subject]

theorem isLifecycleOf_iff {kind : LedgerEventKind} {id : AccountId} :
    kind.isLifecycleOf id = true ↔ ∃ version, kind.subject = some (.inr (id, version)) := by
  cases kind <;> simp [LedgerEventKind.isLifecycleOf, LedgerEventKind.subject]

theorem subject_lifecycleEvent (account : Account) :
    account.lifecycleEvent.subject = some (.inr (account.id, account.version)) := by
  unfold Account.lifecycleEvent
  split
  · rfl
  · split <;> rfl

/-- A change appends the event that agrees with the flags of its version. -/
theorem makeEvent_eq (change : LifecycleChange) {current : Account}
    (hopen : current.isClosed = false) :
    change.makeEvent current.id (change.nextVersion current).version =
      (change.nextVersion current).lifecycleEvent := by
  have hflags : ∀ flags : AccountFlags, flags.contains .CLOSED = false →
      ((flags.insert .FROZEN).contains .CLOSED = false ∧
        (flags.remove .FROZEN).contains .CLOSED = false) := by
    intro flags hclosed
    rw [AccountFlags.contains_insert (by decide), AccountFlags.contains_remove (by decide)]
    exact ⟨hclosed, hclosed⟩
  have hafter := change.holds_nextVersion current
  cases change with
  | freeze =>
      have hclosed : (LifecycleChange.freeze.nextVersion current).isClosed = false :=
        (hflags current.flags hopen).1
      have hfrozen : (LifecycleChange.freeze.nextVersion current).isFrozen = true := hafter
      rw [Account.lifecycleEvent, hclosed, hfrozen]
      rfl
  | unfreeze =>
      have hclosed : (LifecycleChange.unfreeze.nextVersion current).isClosed = false :=
        (hflags current.flags hopen).2
      have hfrozen : (LifecycleChange.unfreeze.nextVersion current).isFrozen = false := hafter
      rw [Account.lifecycleEvent, hclosed, hfrozen]
      rfl
  | close =>
      have hclosed : (LifecycleChange.close.nextVersion current).isClosed = true := hafter
      rw [Account.lifecycleEvent, hclosed]
      rfl

end Subjects

/-! ## Appending to the log -/

section Log

variable {store : InMemoryStore} {event : LedgerEvent} (clock : Clock)

theorem appendEventLocked_of_found
    (hfound : ∃ other ∈ store.events, other.kind.subject = event.kind.subject)
    (hsubject : event.kind.subject ≠ none) : store.appendEventLocked clock event = store := by
  have hfind : InMemoryStore.findEvent store.events event.kind ≠ none := by
    intro hnone
    obtain ⟨other, hmem, heq⟩ := hfound
    exact (InMemoryStore.findEvent_eq_none_iff.mp hnone).elim hsubject fun hall => hall other hmem heq
  unfold InMemoryStore.appendEventLocked
  split
  next => rfl
  next hnone => exact absurd hnone hfind

theorem kinds_appendEventLocked (hnew : event.kind.subject = none ∨
      ∀ other ∈ store.events, other.kind.subject ≠ event.kind.subject) :
    (store.appendEventLocked clock event).events.map (·.kind) =
      store.events.map (·.kind) ++ [event.kind] := by
  have hnone := InMemoryStore.findEvent_eq_none_iff.mpr hnew
  unfold InMemoryStore.appendEventLocked
  split
  next hfound =>
    rw [hnone] at hfound
    cases hfound
  next => rw [List.map_append, List.map_singleton]

/-- Some event is about the transfer exactly when it is stored. -/
theorem EventsMirror.exists_committed_iff (hmirror : EventsMirror store) {transferId : EnvelopeId} :
    (∃ event ∈ store.events, event.kind.subject = some (.inl transferId)) ↔
      transferId ∈ store.transfers := by
  rw [AList.mem_keys, ← hmirror.transfers.mem_iff, List.mem_filterMap]
  simp only [List.mem_map, exists_exists_and_eq_and, committed_eq_some_iff]

/-- Some event is about the version of an account exactly when it is above the
first one. -/
theorem EventsMirror.exists_lifecycle_iff (hmirror : EventsMirror store)
    (hkeyed : ∀ id, ∀ account ∈ store.versions id, account.id = id) {id : AccountId}
    {version : UInt64} :
    (∃ event ∈ store.events, event.kind.subject = some (.inr (id, version))) ↔
      ∃ account ∈ (store.versions id).tail, account.version = version := by
  have hkinds : ∀ kind, kind ∈ (store.events.map (·.kind)).filter (·.isLifecycleOf id) ↔
      kind ∈ (store.versions id).tail.map Account.lifecycleEvent := by
    intro kind
    rw [hmirror.lifecycle]
  constructor
  · rintro ⟨event, hevent, hsubject⟩
    have hmem := (hkinds event.kind).mp (List.mem_filter.mpr
      ⟨List.mem_map_of_mem hevent, isLifecycleOf_iff.mpr ⟨version, hsubject⟩⟩)
    obtain ⟨account, haccount, heq⟩ := List.mem_map.mp hmem
    rw [← heq, subject_lifecycleEvent, Option.some.injEq, Sum.inr.injEq, Prod.mk.injEq] at hsubject
    exact ⟨account, haccount, hsubject.2⟩
  · rintro ⟨account, haccount, rfl⟩
    have hmem := (hkinds account.lifecycleEvent).mpr (List.mem_map_of_mem haccount)
    obtain ⟨event, hevent, heq⟩ := List.mem_map.mp (List.mem_filter.mp hmem).1
    refine ⟨event, hevent, ?_⟩
    rw [heq, subject_lifecycleEvent, hkeyed id account (List.mem_of_mem_tail haccount)]

/-- The log mirrors the state as long as the kinds of its events do. -/
theorem EventsMirror.congr {after : InMemoryStore} (hmirror : EventsMirror store)
    (hascending : Ascending after) (hkinds : after.events.map (·.kind) = store.events.map (·.kind))
    (htransfers : after.transfers = store.transfers)
    (hversions : ∀ id, (after.versions id).tail = (store.versions id).tail) :
    EventsMirror after where
  transfers := by
    rw [hkinds, htransfers]
    exact hmirror.transfers
  lifecycle id := by
    rw [hkinds, hversions]
    exact hmirror.lifecycle id
  ascending := hascending

end Log

/-! ## The numbers of the versions -/

/-- Each version of an account has the next number. -/
def Numbered (store : InMemoryStore) : Prop :=
  ∀ id, (store.versions id).IsChain fun first second =>
    second.version.toNat = first.version.toNat + 1

/-- A version that is not the latest is followed by one with the next number. -/
theorem Numbered.exists_next {store : InMemoryStore} (hnumbered : Numbered store) {id : AccountId}
    {seen current : Account} (hlatest : store.latest id = some current)
    (hseen : seen ∈ store.versions id) (hlt : seen.version < current.version) :
    ∃ account ∈ (store.versions id).tail, account.version.toNat = seen.version.toNat + 1 := by
  obtain ⟨earlier, later, hversions⟩ := List.append_of_mem hseen
  have hchain := hnumbered id
  rw [InMemoryStore.latest] at hlatest
  rw [hversions] at hchain hlatest ⊢
  cases later with
  | nil =>
      rw [List.getLast?_concat] at hlatest
      cases hlatest
      exact absurd hlt (UInt64.lt_irrefl _)
  | cons next later =>
      have hnext := (List.isChain_append.mp hchain).2.1
      refine ⟨next, ?_, (List.isChain_cons_cons.mp hnext).1⟩
      cases earlier <;> simp

section Steps

variable [Sha256] {submits : Envelope → Prop} {before after : InMemoryStore}

theorem StoreStep.numbered (hstep : StoreStep submits before after) (hnumbered : Numbered before) :
    Numbered after := by
  intro id
  obtain hsame | ⟨first, _, _, hnew⟩ | ⟨current, change, seen, hlatest, _, _, _, hversion, hroom,
    hnew⟩ := hstep.versions_cases id
  · exact hsame ▸ hnumbered id
  · rw [hnew]
    exact .singleton _
  · rw [hnew]
    refine List.isChain_append.mpr ⟨hnumbered id, .singleton _, fun last hlast next hnext => ?_⟩
    rw [Option.mem_def, ← InMemoryStore.latest, hlatest] at hlast
    cases hlast
    cases hnext
    change (seen.version + 1).toNat = _
    rw [hversion, UInt64.toNat_add, UInt64.toNat_one, Nat.mod_eq_of_lt hroom]

/-! ## The steps -/

/-- A transfer that was not stored gets its event. -/
theorem EventsMirror.commit (hmirror : EventsMirror before) (hascending : Ascending after)
    {clock : Clock} {req : CommitRequest} {consumed : List Posting}
    (hvalid : Validated before req consumed) (hfresh : req.transferId ∉ before.transfers)
    (hafter : after = before.applyCommit clock req) : EventsMirror after := by
  have hnew : ∀ other ∈ before.events, other.kind.subject ≠ req.event.kind.subject := by
    intro other hother heq
    rw [hvalid.event] at heq
    exact hfresh (hmirror.exists_committed_iff.mp ⟨other, hother, heq⟩)
  have hkinds : after.events.map (·.kind) =
      before.events.map (·.kind) ++ [.transferCommitted req.transferId] := by
    rw [hafter, ← hvalid.event]
    exact kinds_appendEventLocked clock (.inr hnew)
  have hversions : after.versions = before.versions := by
    funext id
    rw [hafter]
    exact InMemoryStore.versions_congr (InMemoryStore.applyCommit_accounts ..) id
  constructor
  · have hkeys : after.transfers.keys = req.transferId :: before.transfers.keys := by
      rw [hafter, InMemoryStore.applyCommit_transfers, AList.keys_insert,
        List.erase_of_not_mem (mt AList.mem_keys.mpr hfresh)]
    rw [hkinds, hkeys, List.filterMap_append]
    exact (List.perm_append_singleton _ _).trans (hmirror.transfers.cons _)
  · intro id
    rw [hkinds, List.filter_append, hmirror.lifecycle, hversions]
    exact List.append_nil _
  · exact hascending

omit [Sha256] in
/-- A version gets the event that agrees with its flags, unless its number is
taken: then the event for that number is there. -/
theorem EventsMirror.transition (hmirror : EventsMirror before) (hwell : WellFormed before)
    (hnumbered : Numbered before) (hascending : Ascending after) {clock : Clock}
    {change : LifecycleChange} {current : Account} {seq : UInt64} {timestamp : Int64}
    (hread : current ∈ before.versions current.id) (hopen : current.isClosed = false)
    (hroom : current.version.toNat + 1 ≠ 2 ^ 64)
    (hafter : after = (before.commitTransition clock (change.nextVersion current)
      ⟨seq, timestamp, change.makeEvent current.id (change.nextVersion current).version⟩).2) :
    EventsMirror after := by
  let next := change.nextVersion current
  let event : LedgerEvent := ⟨seq, timestamp, change.makeEvent current.id next.version⟩
  have hevent : event.kind = next.lifecycleEvent := makeEvent_eq change hopen
  have hsubject : event.kind.subject = some (.inr (current.id, next.version)) := by
    rw [hevent, subject_lifecycleEvent]
    rfl
  have hlt := current.version.toNat_lt
  have hnumber : next.version.toNat = current.version.toNat + 1 := by
    change (current.version + 1).toNat = _
    rw [UInt64.toNat_add, UInt64.toNat_one, Nat.mod_eq_of_lt (by omega)]
  obtain ⟨hsame, _⟩ | ⟨heq, latest, hlatest, _, hle⟩ | ⟨latest, hlatest, _, hversion, hlarge, heq⟩ :=
    before.commitTransition_cases clock next event
  · rw [hafter, hsame]
    exact hmirror
  · -- the number is taken, so its event is in the log
    have hlower : current.version < latest.version := by
      rw [UInt64.lt_iff_toNat_lt]
      have := UInt64.le_iff_toNat_le.mp hle
      omega
    obtain ⟨account, haccount, hsucc⟩ := hnumbered.exists_next hlatest hread hlower
    have hfound : ∃ other ∈ before.events, other.kind.subject = event.kind.subject := by
      rw [hsubject]
      refine (hmirror.exists_lifecycle_iff hwell.versions).mpr ⟨account, haccount, ?_⟩
      exact UInt64.toNat_inj.mp (hsucc.trans hnumber.symm)
    have hsame : before.appendEventLocked clock event = before :=
      appendEventLocked_of_found clock hfound (by simp [hsubject])
    rw [hafter, heq, hsame]
    exact hmirror
  · -- the version is new, so the log gets its event and the account its version
    have hnew : ∀ other ∈ before.events, other.kind.subject ≠ event.kind.subject := by
      intro other hother hsameSubject
      rw [hsubject] at hsameSubject
      obtain ⟨account, haccount, htaken⟩ := (hmirror.exists_lifecycle_iff hwell.versions).mp
        ⟨other, hother, hsameSubject⟩
      have hle := UInt64.le_iff_toNat_le.mp
        (hmirror.ascending.version_le hlatest (List.mem_of_mem_tail haccount))
      have hsucc : next.version.toNat = latest.version.toNat + 1 := by
        rw [hversion, UInt64.toNat_add, UInt64.toNat_one, Nat.mod_eq_of_lt hlarge]
      rw [htaken] at hle
      omega
    let moved : InMemoryStore := { before with
      accounts := before.accounts.insert next.id (before.versions next.id ++ [next]) }
    have hmoved : after = moved.appendEventLocked clock event := by
      rw [hafter, heq]
    have hkinds : after.events.map (·.kind) =
        before.events.map (·.kind) ++ [next.lifecycleEvent] := by
      rw [hmoved, ← hevent]
      exact @kinds_appendEventLocked _ moved event clock (.inr hnew)
    have hversions : ∀ id, after.versions id =
        if id = current.id then before.versions id ++ [next] else before.versions id := by
      intro id
      have hnext : next.id = current.id := rfl
      rw [hmoved, InMemoryStore.versions, InMemoryStore.appendEventLocked_accounts,
        HashMap.lookup_insert_eq, hnext]
      by_cases hid : id = current.id
      · subst hid
        rw [if_pos rfl, if_pos rfl]
        rfl
      · rw [if_neg hid, if_neg hid]
        rfl
    constructor
    · -- the new event tells of no transfer
      have hcommitted : next.lifecycleEvent.committed = none := by
        apply Option.eq_none_iff_forall_not_mem.mpr
        intro transferId hmem
        have hboth := committed_eq_some_iff.mp hmem
        rw [subject_lifecycleEvent] at hboth
        cases hboth
      have htransfers : after.transfers = before.transfers := by
        rw [hmoved, InMemoryStore.appendEventLocked_transfers]
      rw [hkinds, htransfers, List.filterMap_append, List.filterMap_cons_none hcommitted,
        List.filterMap_nil, List.append_nil]
      exact hmirror.transfers
    · intro id
      have hconcerns : next.lifecycleEvent.isLifecycleOf id = decide (id = current.id) := by
        rw [Bool.eq_iff_iff, isLifecycleOf_iff, subject_lifecycleEvent, decide_eq_true_eq]
        simp [eq_comm, next, LifecycleChange.nextVersion]
      rw [hkinds, List.filter_append, hmirror.lifecycle, hversions]
      by_cases hid : id = current.id
      · have hsome : before.versions id ≠ [] := by
          rw [hid]
          exact List.ne_nil_of_mem hread
        rw [if_pos hid, List.tail_append_of_ne_nil hsome, List.map_append, List.map_singleton,
          List.filter_singleton, hconcerns, decide_eq_true hid]
        rfl
      · rw [if_neg hid, List.filter_singleton, hconcerns, decide_eq_false hid]
        exact List.append_nil _
    · exact hascending

theorem StoreStep.eventsMirror (hstep : StoreStep submits before after) (hwell : WellFormed before)
    (hnumbered : Numbered before) (hmirror : EventsMirror before) : EventsMirror after := by
  have hascending := hstep.ascending hmirror.ascending
  cases hstep with
  | idle => exact hmirror
  | createAccount account =>
      refine hmirror.congr hascending ?_ ?_ fun id => ?_
      · unfold InMemoryStore.createAccount
        split <;> rfl
      · unfold InMemoryStore.createAccount
        split <;> rfl
      · obtain hsame | ⟨_, hnone, hnew⟩ := before.versions_createAccount account id
        · rw [hsame]
        · rw [hnone, hnew]
          rfl
  | createBook book =>
      unfold InMemoryStore.createBook at hascending ⊢
      split at hascending
      next hold =>
        rw [if_pos hold]
        exact hmirror
      next hnew =>
        rw [if_neg hnew]
        exact hmirror.congr hascending rfl rfl fun _ => rfl
  | project => exact hmirror.congr hascending rfl rfl fun _ => rfl
  | accountCreated clock seq timestamp account =>
      rw [InMemoryStore.appendEvent_store] at hascending ⊢
      have hkinds : (before.appendEventLocked clock
          ⟨seq, timestamp, .accountCreated account⟩).events.map (·.kind) =
          before.events.map (·.kind) ++ [.accountCreated account] :=
        kinds_appendEventLocked clock (.inl rfl)
      constructor
      · rw [hkinds, List.filterMap_append, InMemoryStore.appendEventLocked_transfers]
        exact (List.append_nil _).symm ▸ hmirror.transfers
      · intro id
        rw [hkinds, List.filter_append, hmirror.lifecycle,
          InMemoryStore.versions_congr (InMemoryStore.appendEventLocked_accounts ..)]
        exact List.append_nil _
      · exact hascending
  | transition clock change current seq timestamp hread hopen hroom =>
      exact hmirror.transition hwell hnumbered hascending hread hopen hroom rfl
  | commit order clock hvalid hsubmits =>
      obtain ⟨hsame, _⟩ | ⟨hfresh, _, heq⟩ := before.commitEnvelope_cases order clock _
      · rw [hsame]
        exact hmirror
      · exact hmirror.commit hascending hvalid hfresh (congrArg Prod.snd heq)

/-- In every reachable state the event log mirrors the stored transfers and the
account versions. -/
theorem eventsMirror_after (ledger : Ledger) (actions : List LedgerAction) :
    EventsMirror (storeAfter ledger actions) := by
  have hnew : Numbered InMemoryStore.new ∧ EventsMirror InMemoryStore.new :=
    ⟨fun _ => .nil, ⟨.nil, fun _ => rfl, fun _ => .nil⟩⟩
  have hkeep : ∀ before after : InMemoryStore, WellFormed before →
      StoreStep (fun _ => True) before after → Numbered before ∧ EventsMirror before →
      Numbered after ∧ EventsMirror after :=
    fun _ _ hwell hstep h => ⟨hstep.numbered h.1, hstep.eventsMirror hwell h.1 h.2⟩
  exact (reachable_induction ledger hnew hkeep actions).2

end Steps

end Theory

end Kuatia
