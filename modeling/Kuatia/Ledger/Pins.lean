import Kuatia.Ledger.DoubleSpend
import Kuatia.Ledger.Instants
import Kuatia.Ledger.Loading
import Kuatia.Ledger.Sample

/-! # Pinned account versions

A commit compares the account versions that its envelope pins with the versions
it has loaded, all of them read in one action. The store does not compare them
again: a version that is appended to a pinned account between the two actions
goes unnoticed.
-/

namespace Kuatia

open Async Interleaving LedgerM

section Theory

variable [MoneyWidth] [Sha256]

/-- The pinned hash is that of the latest version of the account. -/
def PinHolds (store : InMemoryStore) (snapshot : AccountSnapshotId) : Prop :=
  ∃ account, store.latest snapshot.account = some account ∧
    snapshot.snapshotId = accountHash account

instance (store : InMemoryStore) (snapshot : AccountSnapshotId) :
    Decidable (PinHolds store snapshot) :=
  decidable_of_iff ((store.latest snapshot.account).any
    fun account => snapshot.snapshotId = accountHash account) (by simp [PinHolds, Option.any_eq_true])

/-- What is left of `load` once it has the postings: it reads the accounts next. -/
def loadRest (envelope : Envelope) (consumedPostings : List Posting) : LedgerM LoadedState := do
  let required := requiredState envelope consumedPostings
  let accounts ← getAccounts required.accounts
  let balances ← loadBalances required.balances
  let book ← loadBook envelope.book
  return ⟨consumedPostings, HashMap.insertAll ∅ (·.id) accounts, balances, book⟩

omit [Sha256] in
theorem load_eq (envelope : Envelope) :
    load envelope = getPostings envelope.consumes >>= loadRest envelope := rfl

/-- The next action of the call at `index` reads the accounts to validate the envelope. -/
def ReadsAccounts (ledger : Ledger) (index : Nat) (envelope : Envelope)
    (past : List LedgerAction) : Prop :=
  ∃ request consumedPostings rest, (LedgerPool.after ledger past).calls[index]? =
    some ⟨request, (loadRest envelope consumedPostings).run >>= rest⟩

/-- An action stores no transfer, or one whose pins all held when the call read the
accounts after `origin`. -/
def PinsSeen (ledger : Ledger) (index : Nat) (origin before after : List LedgerAction) : Prop :=
  (storeAfter ledger after).transfers = (storeAfter ledger before).transfers ∨
  ∃ seen choice tid record, origin <+: seen ∧ seen ++ [.advance index choice] <+: before ∧
    ReadsAccounts ledger index record.envelope seen ∧
    (storeAfter ledger after).transfers = (storeAfter ledger before).transfers.insert tid record ∧
    ∀ snapshot ∈ record.envelope.accountSnapshots, PinHolds (storeAfter ledger seen) snapshot

variable {ledger : Ledger} {index : Nat} {origin past : List LedgerAction} {α β : Type}

theorem idles_pinsSeen : Idles ledger (PinsSeen ledger index origin) :=
  fun _ _ hsame => .inl (congrArg InMemoryStore.transfers hsame)

/-! ## Following a commit -/

section Commit

variable {assume : Async Choice World (Except LedgerError α) → Choice → List LedgerAction → Prop}
  {guarantee : List LedgerAction → List LedgerAction → Prop}

/-- Whatever goes on by reading the accounts is what the call at `index` goes on with. -/
def TellsReads (ledger : Ledger) (index : Nat)
    (assume : Async Choice World (Except LedgerError α) → Choice → List LedgerAction → Prop) :
    Prop :=
  ∀ envelope consumedPostings rest choice past,
    assume ((loadRest envelope consumedPostings).run >>= rest) choice past →
      ReadsAccounts ledger index envelope past

/-- The first part of a program reads what the whole program reads. -/
theorem TellsReads.first (htells : TellsReads ledger index assume)
    {next : β → LedgerM α} :
    TellsReads ledger index fun first => assume (first >>= continueWith next) := by
  intro envelope consumedPostings rest choice past hassume
  rw [bind_assoc] at hassume
  exact htells _ _ _ _ _ hassume

/-- The accounts are read with one action. -/
theorem getAccounts_follows
    {assume : Async Choice World (Except LedgerError (List Account)) → Choice → List LedgerAction → Prop}
    (hidle : Idles ledger guarantee) (ids : List AccountId) :
    Follows ledger index assume guarantee
      (fun accounts later => ∃ seen choice, past <+: seen ∧
        seen ++ [.advance index choice] <+: later ∧ assume (getAccounts ids).run choice seen ∧
        (storeAfter ledger seen).getAccounts ids = .ok accounts) (getAccounts ids) past := by
  refine follows_bind (follows_read hidle fun others choice hchoice => ?_)
  refine follows_attempt fun accounts haccounts => ?_
  rw [Except.mapError_eq_ok_iff] at haccounts
  rw [← run_bind_eq] at hchoice
  exact ⟨past ++ others, choice, List.prefix_append _ _, List.prefix_refl _, hchoice, haccounts⟩

/-- All loaded account versions were the latest when the accounts were read. -/
theorem loadRest_follows
    {assume : Async Choice World (Except LedgerError LoadedState) → Choice → List LedgerAction → Prop}
    (hidle : Idles ledger guarantee) (htells : TellsReads ledger index assume)
    (envelope : Envelope) (consumedPostings : List Posting) :
    Follows ledger index assume guarantee
      (fun loaded later => ∃ seen choice, past <+: seen ∧
        seen ++ [.advance index choice] <+: later ∧ ReadsAccounts ledger index envelope seen ∧
        ∀ id account, loaded.accounts.lookup id = some account →
          (storeAfter ledger seen).latest id = some account)
      (loadRest envelope consumedPostings) past := by
  refine follows_bind ((getAccounts_follows hidle _).weaken ?_)
  intro accounts first hfirst
  obtain ⟨seen, choice, hseen, hlater, hassume, haccounts⟩ := hfirst
  rw [← run_bind_eq] at hassume
  have hreads : ReadsAccounts ledger index envelope seen := by
    refine htells envelope consumedPostings pure choice seen ?_
    rw [bind_pure]
    exact hassume
  refine follows_bind (((loadBalances_readOnly _).follows hidle).since.weaken ?_)
  intro balances second hsecond
  refine follows_bind (((loadBook_readOnly _).follows hidle).since.weaken ?_)
  intro book third hthird
  refine follows_pure ⟨seen, choice, hseen, hlater.trans (hsecond.2.trans hthird.2), hreads, ?_⟩
  exact fun id account => latest_of_insertAll (wellFormed_after ledger seen) haccounts

theorem load_follows
    {assume : Async Choice World (Except LedgerError LoadedState) → Choice → List LedgerAction → Prop}
    (hidle : Idles ledger guarantee) (htells : TellsReads ledger index assume)
    (envelope : Envelope) :
    Follows ledger index assume guarantee
      (fun loaded later => ∃ seen choice, past <+: seen ∧
        seen ++ [.advance index choice] <+: later ∧ ReadsAccounts ledger index envelope seen ∧
        ∀ id account, loaded.accounts.lookup id = some account →
          (storeAfter ledger seen).latest id = some account) (load envelope) past := by
  rw [load_eq]
  refine follows_bind (((getPostings_readOnly _).follows hidle).since.weaken ?_)
  intro consumedPostings first hfirst
  refine (loadRest_follows hidle htells envelope consumedPostings).weaken ?_
  intro loaded later hlater
  obtain ⟨seen, choice, hseen, hrest⟩ := hlater
  exact ⟨seen, choice, hfirst.2.trans hseen, hrest⟩

theorem compute_follows (hidle : Idles ledger guarantee)
    (result : IterationOrder → Except LedgerError α) :
    Follows ledger index assume guarantee (fun value _ => ∃ order, result order = .ok value)
      (compute result) past :=
  follows_bind (follows_read hidle fun _ choice _ =>
    follows_attempt fun _ hvalue => ⟨choice.order, hvalue⟩)

/-- What a commit stores has pins that held when the accounts were read. -/
theorem commitPinned_follows
    {assume : Async Choice World (Except LedgerError Receipt) → Choice → List LedgerAction → Prop}
    (htells : TellsReads ledger index assume) (horigin : origin <+: past) (envelope : Envelope) :
    Follows ledger index assume (PinsSeen ledger index origin) (fun _ _ => True)
      (commitPinned envelope) past := by
  refine follows_bind ((load_follows idles_pinsSeen htells.first envelope).weaken ?_)
  intro loaded first hloaded
  obtain ⟨seen, read, hseen, hfirst, hreads, hlatest⟩ := hloaded
  refine follows_bind ((compute_follows idles_pinsSeen _).since.weaken ?_)
  intro result second hresult
  obtain ⟨⟨order, hplan⟩, hsecond⟩ := hresult
  refine follows_bind ((ReadOnly.nowMillis.follows idles_pinsSeen).since.weaken ?_)
  intro ts third hthird
  let req := commitRequest envelope result loaded ts
  refine follows_bind (follows_act fun others choice _ hmoved => ⟨?_, ?_⟩)
  · obtain ⟨hsame, _⟩ | ⟨_, _, heq⟩ :=
      (storeAfter ledger (third ++ others)).commitEnvelope_cases choice.order choice.clock req
    · exact idles_pinsSeen _ _ (hmoved.trans hsame)
    · obtain ⟨_, consumed, hchecked⟩ := plan_eq_ok hplan
      refine .inr ⟨seen, read, req.transferId, req.record, horigin.trans hseen, ?_, hreads, ?_, ?_⟩
      · exact hfirst.trans (hsecond.trans (hthird.2.trans (List.prefix_append _ _)))
      · rw [hmoved, heq, InMemoryStore.applyCommit_transfers]
      · intro snapshot hsnapshot
        obtain ⟨account, hlookup, hhash⟩ := hchecked.snapshots snapshot hsnapshot
        exact ⟨account, hlatest _ _ hlookup, hhash⟩
  · exact ((ReadOnly.attempt _).bind fun _ => .attempt _).follows idles_pinsSeen

theorem commitEnvelope_follows
    {assume : Async Choice World (Except LedgerError Receipt) → Choice → List LedgerAction → Prop}
    (htells : TellsReads ledger index assume) (horigin : origin <+: past) (envelope : Envelope) :
    Follows ledger index assume (PinsSeen ledger index origin) (fun _ _ => True)
      (commitEnvelope envelope) past := by
  refine follows_bind (((pinSnapshots_readOnly _).follows idles_pinsSeen).since.weaken ?_)
  intro pinned first hfirst
  refine follows_bind (((ReadOnly.read _).follows idles_pinsSeen).since.weaken ?_)
  intro existing second hsecond
  cases existing with
  | some record => exact follows_pure trivial
  | none => exact commitPinned_follows htells (horigin.trans (hfirst.2.trans hsecond.2)) pinned

theorem commit_follows
    {assume : Async Choice World (Except LedgerError Receipt) → Choice → List LedgerAction → Prop}
    (htells : TellsReads ledger index assume) (horigin : origin <+: past) (transfer : Transfer) :
    Follows ledger index assume (PinsSeen ledger index origin) (fun _ _ => True) (commit transfer)
      past := by
  refine follows_bind (((resolve_readOnly _).follows idles_pinsSeen).since.weaken ?_)
  exact fun envelope first hfirst =>
    commitEnvelope_follows htells (horigin.trans hfirst.2) envelope

theorem reverse_follows
    {assume : Async Choice World (Except LedgerError Receipt) → Choice → List LedgerAction → Prop}
    (htells : TellsReads ledger index assume) (horigin : origin <+: past) (id : EnvelopeId) :
    Follows ledger index assume (PinsSeen ledger index origin) (fun _ _ => True) (reverse id)
      past := by
  refine follows_bind (((ReadOnly.read _).follows idles_pinsSeen).since.weaken ?_)
  intro record first hfirst
  cases record with
  | none => exact follows_throw
  | some record =>
      refine follows_bind (((getPostings_readOnly _).follows idles_pinsSeen).since.weaken ?_)
      exact fun consumed second hsecond =>
        commitEnvelope_follows htells (horigin.trans (hfirst.2.trans hsecond.2)) _

end Commit

/-! ## Every call -/

/-- The call at `index` answers the request and goes on with `rest`. -/
def GoesOn (ledger : Ledger) (index : Nat) (request : Request)
    (rest : Async Choice World (Except LedgerError Response)) (_ : Choice)
    (past : List LedgerAction) : Prop :=
  (LedgerPool.after ledger past).calls[index]? = some ⟨request, rest⟩

theorem tellsReads_goesOn (request : Request) :
    TellsReads ledger index (GoesOn ledger index request) :=
  fun _ consumedPostings rest _ _ hcall => ⟨request, consumedPostings, rest, hcall⟩

/-- An operation that commits nothing stores no transfer. -/
theorem traces_of_steps {request : Request}
    {assume : Async Choice World (Except LedgerError Response) → Choice → List LedgerAction → Prop}
    (hsteps : Steps (fun _ => False) (ledger.operation request)
      (LedgerPool.after ledger past).shared) :
    Traces ledger.program LedgerPool.initial index assume (PinsSeen ledger index origin)
      (fun _ _ => True) (ledger.program request) past := by
  have hrely : ∀ before others, Interferes (LedgerPool.after ledger before).shared
      (LedgerPool.after ledger (before ++ others)).shared := evolves_after ledger
  refine (Traces.of_guarantees hrely (fun world => Evolves.refl world.store) hsteps).mono
    (fun _ _ _ _ => trivial) (fun before after hstep => .inl ?_) fun _ _ _ => trivial
  obtain ⟨_, htransfers, _⟩ | ⟨_, _, _, _, _, hnone, _⟩ := StoreStep.postings_cases hstep
  · exact htransfers
  · exact hnone.elim

theorem follows_andThen
    {assume : Async Choice World (Except LedgerError β) → Choice → List LedgerAction → Prop}
    {program : LedgerM α} {rest : α → β}
    (hprogram : Follows ledger index
      (fun first => assume (first >>= continueWith fun value => pure (rest value)))
      (PinsSeen ledger index origin) (fun _ _ => True) program past) :
    Traces ledger.program LedgerPool.initial index assume (PinsSeen ledger index origin)
      (fun _ _ => True) (do let value ← program; return rest value : LedgerM β).run past := by
  have hbind : Follows ledger index assume (PinsSeen ledger index origin) (fun _ _ => True)
      (do let value ← program; return rest value : LedgerM β) past :=
    follows_bind (hprogram.weaken fun _ _ _ => follows_pure trivial)
  exact Traces.weaken hbind fun _ _ _ => trivial

/-- Whatever a call asks for, it stores only transfers whose pins held when it read
the accounts. -/
theorem program_traces (request : Request) (past : List LedgerAction) :
    Traces ledger.program LedgerPool.initial index (GoesOn ledger index request)
      (PinsSeen ledger index past) (fun _ _ => True) (ledger.program request) past := by
  have hwell := wellFormed_after ledger past
  have horigin : past <+: past := List.prefix_refl _
  have htells : TellsReads ledger index (GoesOn ledger index request) := tellsReads_goesOn request
  cases request with
  | commit transfer => exact follows_andThen (commit_follows htells.first horigin transfer)
  | commitEnvelope envelope =>
      exact follows_andThen (commitEnvelope_follows htells.first horigin envelope)
  | reverse id => exact follows_andThen (reverse_follows htells.first horigin id)
  | createAccount account => exact traces_of_steps (createAccount_steps account).andThen
  | createBook book => exact traces_of_steps (createBook_steps book).andThen
  | resolve transfer => exact traces_of_steps (resolve_readOnly transfer).steps.andThen
  | freeze id => exact traces_of_steps (transition_steps id .freeze hwell).andThen
  | unfreeze id => exact traces_of_steps (transition_steps id .unfreeze hwell).andThen
  | close id => exact traces_of_steps (close_steps id hwell).andThen
  | computeBalance account asset =>
      exact traces_of_steps (computeBalance_readOnly account asset).steps.andThen
  | balance account asset => exact traces_of_steps (balance_readOnly account asset).steps.andThen
  | spawnAppend account asset =>
      exact traces_of_steps (appendCachePointWith_steps _ _ _ account asset).andThen
  | appendCachePoint account asset =>
      exact traces_of_steps (appendCachePointWith_steps _ _ _ account asset).andThen

/-- A call that started after the actions `start` stores the transfer with the
action after `before`. -/
structure Stores (ledger : Ledger) (actions : List LedgerAction) (tid : EnvelopeId)
    (record : EnvelopeRecord) (start before : List LedgerAction) : Prop where
  call : ∃ request choice, start ++ [.start request] <+: before ∧
    before ++ [.advance (LedgerPool.after ledger start).calls.length choice] <+: actions ∧
    (storeAfter ledger (before ++ [.advance (LedgerPool.after ledger start).calls.length
      choice])).transfers.lookup tid = some record
  fresh : tid ∉ (storeAfter ledger before).transfers

/-- The call has read the accounts, to validate the envelope, with the action after
`seen`. -/
structure ReadsThenStores (ledger : Ledger) (actions : List LedgerAction) (tid : EnvelopeId)
    (record : EnvelopeRecord) (start seen before : List LedgerAction) : Prop
    extends Stores ledger actions tid record start before where
  started : start <+: seen
  reads : ReadsAccounts ledger (LedgerPool.after ledger start).calls.length record.envelope seen
  done : ∃ choice,
    seen ++ [.advance (LedgerPool.after ledger start).calls.length choice] <+: before

section Order

variable {actions start seen before : List LedgerAction} {tid : EnvelopeId} {record : EnvelopeRecord}

theorem Stores.within (hstores : Stores ledger actions tid record start before) :
    before <+: actions := by
  obtain ⟨_, _, _, hdone, _⟩ := hstores.call
  exact (List.prefix_append _ _).trans hdone

theorem ReadsThenStores.later
    (hstores : ReadsThenStores ledger actions tid record start seen before) : seen <+: before := by
  obtain ⟨_, hdone⟩ := hstores.done
  exact (List.prefix_append _ _).trans hdone

end Order

/-- All pins of the envelope are those of the latest versions. -/
def PinsHold (store : InMemoryStore) (envelope : Envelope) : Prop :=
  ∀ snapshot ∈ envelope.accountSnapshots, PinHolds store snapshot

/-- The call that stores a transfer has seen its pins hold. -/
theorem exists_readsThenStores (ledger : Ledger) {actions : List LedgerAction} {tid : EnvelopeId}
    {record : EnvelopeRecord}
    (hstored : (storeAfter ledger actions).transfers.lookup tid = some record) :
    ∃ start seen before, ReadsThenStores ledger actions tid record start seen before ∧
      PinsHold (storeAfter ledger seen) record.envelope := by
  obtain ⟨first, action, rest, _, _, req, _, rfl, _, rfl, rfl, hfresh, _, hafter⟩ :=
    exists_commit_of_stored ledger hstored
  have hlookup : (storeAfter ledger (first ++ [action])).transfers.lookup req.transferId =
      some req.record := by
    rw [hafter, lookup_transfers_applyCommit, if_pos rfl]
  have hwithin : first ++ [action] <+: first ++ action :: rest :=
    (List.prefix_append_right_inj first).mpr ⟨rest, rfl⟩
  have hmoved : (LedgerPool.after ledger (first ++ [action])).shared ≠
      (LedgerPool.after ledger first).shared := by
    intro hsame
    rw [storeAfter, hsame] at hlookup
    exact hfresh (HashMap.mem_iff_exists_lookup.mpr ⟨_, hlookup⟩)
  cases action with
  | start request =>
      rw [after_append_singleton] at hmoved
      exact absurd rfl hmoved
  | advance index choice =>
      cases hcall : (LedgerPool.after ledger first).calls[index]? with
      | none =>
          rw [after_append_singleton] at hmoved
          exact absurd (by simp [Pool.act, hcall]) hmoved
      | some call =>
          have hobeys : Obeys ledger.program LedgerPool.initial index (GoesOn ledger index)
              (first ++ [.advance index choice]) := fun _ _ _ _ hcall => hcall
          obtain hsame | ⟨start, rfl, hstart, hstep⟩ := guarantee_of_advance (Nat.zero_le _) hobeys
            (fun request start _ => program_traces request (start ++ [.start request])) hcall
          · exact absurd hsame hmoved
          · obtain hsame | ⟨seen, read, tid, record, hseen, hread, hreads, hinsert, hpins⟩ := hstep
            · rw [hsame] at hlookup
              exact absurd (HashMap.mem_iff_exists_lookup.mpr ⟨_, hlookup⟩) hfresh
            · have hfound := hlookup
              rw [hinsert, HashMap.lookup_insert_eq] at hlookup
              split at hlookup
              next =>
                cases hlookup
                refine ⟨start, seen, first, ⟨⟨⟨call.request, choice, hstart, hwithin, hfound⟩,
                  hfresh⟩, (List.prefix_append _ _).trans hseen, hreads, read, hread⟩, hpins⟩
              next => exact absurd (HashMap.mem_iff_exists_lookup.mpr ⟨_, hlookup⟩) hfresh

/-! ## Versions since the read -/

/-- Between two instants no version is appended to an account that the envelope pins. -/
def PinnedUnchanged (ledger : Ledger) (envelope : Envelope) (seen before : List LedgerAction) :
    Prop :=
  ∀ snapshot ∈ envelope.accountSnapshots,
    (storeAfter ledger before).versions snapshot.account =
      (storeAfter ledger seen).versions snapshot.account

/-- The hash tells the versions of each pinned account apart. -/
def HashesDiffer (store : InMemoryStore) (envelope : Envelope) : Prop :=
  ∀ snapshot ∈ envelope.accountSnapshots, ∀ first ∈ store.versions snapshot.account,
    ∀ second ∈ store.versions snapshot.account, accountHash first = accountHash second →
      first = second

theorem PinsHold.later {envelope : Envelope} {seen before : List LedgerAction}
    (hpins : PinsHold (storeAfter ledger seen) envelope)
    (hunchanged : PinnedUnchanged ledger envelope seen before) :
    PinsHold (storeAfter ledger before) envelope := by
  intro snapshot hsnapshot
  obtain ⟨account, hlatest, hhash⟩ := hpins snapshot hsnapshot
  refine ⟨account, ?_, hhash⟩
  rw [InMemoryStore.latest, hunchanged snapshot hsnapshot]
  exact hlatest

/-- A version that is still the latest has had none appended after it. -/
theorem versions_eq_of_latest {seen before : List LedgerAction} (hlater : seen <+: before)
    {id : AccountId} {account : Account} (hseen : (storeAfter ledger seen).latest id = some account)
    (hbefore : (storeAfter ledger before).latest id = some account) :
    (storeAfter ledger before).versions id = (storeAfter ledger seen).versions id := by
  obtain ⟨more, hversions⟩ := versions_prefix_later ledger hlater id
  have hpairwise := ascending_after ledger before id
  rw [← hversions] at hpairwise
  rcases List.eq_nil_or_concat more with rfl | ⟨earlier, last, rfl⟩
  · rw [← hversions, List.append_nil]
  · rw [InMemoryStore.latest, ← hversions, List.concat_eq_append, ← List.append_assoc,
      List.getLast?_concat] at hbefore
    cases hbefore
    have hlt := (List.pairwise_append.mp hpairwise).2.2 account (List.mem_of_getLast? hseen) account
      (by simp)
    exact absurd hlt (UInt64.lt_irrefl _)

theorem pinnedUnchanged_of_pinsHold {envelope : Envelope} {seen before : List LedgerAction}
    (hlater : seen <+: before) (hseen : PinsHold (storeAfter ledger seen) envelope)
    (hbefore : PinsHold (storeAfter ledger before) envelope)
    (hdiffer : HashesDiffer (storeAfter ledger before) envelope) :
    PinnedUnchanged ledger envelope seen before := by
  intro snapshot hsnapshot
  obtain ⟨first, hfirst, hhash⟩ := hseen snapshot hsnapshot
  obtain ⟨second, hsecond, hsame⟩ := hbefore snapshot hsnapshot
  have hkept : first ∈ (storeAfter ledger before).versions snapshot.account :=
    (versions_prefix_later ledger hlater _).mem (List.mem_of_getLast? hfirst)
  have heq : first = second :=
    hdiffer snapshot hsnapshot _ hkept _ (List.mem_of_getLast? hsecond) (hhash.symm.trans hsame)
  subst heq
  exact versions_eq_of_latest hlater hfirst hsecond

/-- The pins of a stored transfer held together when the call that stored it read the
accounts. They still held when it stored the transfer if no version was appended to
a pinned account in between, and only then as far as the hash tells the versions apart. -/
theorem pins_hold_iff (ledger : Ledger) (actions : List LedgerAction) (tid : EnvelopeId)
    (record : EnvelopeRecord)
    (hstored : (storeAfter ledger actions).transfers.lookup tid = some record) :
    ∃ start seen before, ReadsThenStores ledger actions tid record start seen before ∧
      PinsHold (storeAfter ledger seen) record.envelope ∧
      (PinnedUnchanged ledger record.envelope seen before →
        PinsHold (storeAfter ledger before) record.envelope) ∧
      (HashesDiffer (storeAfter ledger before) record.envelope →
        (PinsHold (storeAfter ledger before) record.envelope ↔
          PinnedUnchanged ledger record.envelope seen before)) := by
  obtain ⟨start, seen, before, hstores, hpins⟩ := exists_readsThenStores ledger hstored
  exact ⟨start, seen, before, hstores, hpins, hpins.later, fun hdiffer =>
    ⟨fun hbefore => pinnedUnchanged_of_pinsHold hstores.later hpins hbefore hdiffer, hpins.later⟩⟩

end Theory

open Sample in
/-- A deposit to alice is on its way while another client freezes bob. -/
def bobFreezing : List LedgerAction :=
  sequentially (accounts ++ [.createAccount (.new bob)]) ++
    [.start (.commit (deposit 5))] ++ .replicate 8 (.advance 3 noon) ++
    [.start (.freeze bob)] ++ .replicate 3 (.advance 4 noon) ++ .replicate 2 (.advance 3 noon)

open Sample in
/-- No version is appended to what the deposit pins: its pins hold when it is stored. -/
theorem pins_hold_iff_bobFreezing :
    ((storeAfter ledger bobFreezing).versions bob).length = 2 ∧
    ∃ tid record start seen before,
      ReadsThenStores ledger bobFreezing tid record start seen before ∧
      record.envelope.accountSnapshots.map (·.account) = [external, alice] ∧
      HashesDiffer (storeAfter ledger before) record.envelope ∧
      PinnedUnchanged ledger record.envelope seen before ∧
      PinsHold (storeAfter ledger before) record.envelope := by
  refine ⟨by decide +kernel, ?_⟩
  have hsome : (storeAfter ledger bobFreezing).transfers.entries ≠ [] := by decide +kernel
  have hpinned : ∀ entry ∈ (storeAfter ledger bobFreezing).transfers.entries,
      entry.2.envelope.accountSnapshots.map (·.account) = [external, alice] ∧
      ∀ snapshot ∈ entry.2.envelope.accountSnapshots,
        ((storeAfter ledger bobFreezing).versions snapshot.account).length = 1 := by
    decide +kernel
  obtain ⟨⟨tid, record⟩, hentry⟩ := List.exists_mem_of_ne_nil _ hsome
  obtain ⟨haccounts, hsingle⟩ := hpinned _ hentry
  obtain ⟨start, seen, before, hstores, hseen, hholds, hiff⟩ :=
    pins_hold_iff ledger _ tid record (AList.mem_lookup_iff.mpr hentry)
  -- a pinned account has the one version from its creation to the end
  have hone : ∀ snapshot ∈ record.envelope.accountSnapshots,
      ((storeAfter ledger before).versions snapshot.account).length ≤ 1 := fun snapshot hsnapshot =>
    ((versions_prefix_later ledger hstores.within snapshot.account).length_le).trans_eq
      (hsingle snapshot hsnapshot)
  have hunchanged : PinnedUnchanged ledger record.envelope seen before := by
    intro snapshot hsnapshot
    obtain ⟨account, hlatest, _⟩ := hseen snapshot hsnapshot
    have hpositive := List.length_pos_of_mem (List.mem_of_getLast? hlatest)
    exact ((versions_prefix_later ledger hstores.later _).eq_of_length_le
      ((hone snapshot hsnapshot).trans hpositive)).symm
  have hdiffer : HashesDiffer (storeAfter ledger before) record.envelope := by
    intro snapshot hsnapshot first hfirst second hsecond _
    obtain ⟨only, honly⟩ := List.length_eq_one_iff.mp
      (Nat.le_antisymm (hone snapshot hsnapshot) (List.length_pos_of_mem hfirst))
    rw [honly, List.mem_singleton] at hfirst hsecond
    rw [hfirst, hsecond]
  exact ⟨tid, record, start, seen, before, hstores, haccounts, hdiffer, hunchanged,
    (hiff hdiffer).mpr hunchanged⟩

open Sample in
/-- A deposit is about to be stored when its receiver is frozen and unfrozen. -/
def outdated : List LedgerAction :=
  sequentially accounts ++ [.start (.commit (deposit 5))] ++ .replicate 8 (.advance 2 noon) ++
    [.start (.freeze alice)] ++ .replicate 3 (.advance 3 noon) ++
    [.start (.unfreeze alice)] ++ .replicate 3 (.advance 4 noon) ++ [.advance 2 noon]

open Sample in
/-- The deposit is stored although the version it pins is not the latest any more. -/
theorem outdated_pin_stored :
    ∃ entry ∈ (storeAfter ledger (outdated ++ [.advance 2 noon])).transfers.entries,
      entry.1 ∉ (storeAfter ledger outdated).transfers ∧
      ∃ snapshot ∈ entry.2.envelope.accountSnapshots,
        ¬PinHolds (storeAfter ledger outdated) snapshot := by
  decide +kernel

end Kuatia
