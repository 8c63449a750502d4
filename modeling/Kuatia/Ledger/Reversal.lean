import Kuatia.Ledger.Accounts
import Kuatia.Ledger.Submissions

/-! # Taking a transfer back

A reversal consumes what a stored transfer has created and creates again what
it has consumed. Nothing records that a transfer was reversed: a second
reversal fails on the spent postings, or it is the same envelope again.
-/

namespace Kuatia

open Async Interleaving LedgerM

section Theory

variable [MoneyWidth]

/-- The envelope that takes back a stored transfer, as the records of `store`
determine it. -/
def reversalIn (store : InMemoryStore) (record : EnvelopeRecord) : Envelope :=
  reverseEnvelope record (record.envelope.consumes.filterMap store.postings.immutable.lookup)

variable [Sha256] {ledger : Ledger} {allowed : Envelope → Prop} {state : World}
  {final : InMemoryStore} {id : EnvelopeId} {record : EnvelopeRecord}

/-- Actions that meet `assume` see stores that evolve into `final`. -/
def LeadsTo {α : Type}
    (assume : Async Choice World (Except LedgerError α) → Choice → World → Prop)
    (final : InMemoryStore) : Prop :=
  ∀ rest choice world, assume rest choice world → Evolves world.store final

theorem getTransfer_keeps_final
    {assume : Async Choice World (Except LedgerError (Option EnvelopeRecord)) → Choice → World → Prop}
    (hleads : LeadsTo assume final) (hstored : final.transfers.lookup id = some record) :
    Keeps assume Interferes (LedgerStep allowed) (fun found _ => ∀ other, found = some other →
      other = record) (read fun _ store => store.getTransfer id) state := by
  refine keeps_read environment fun later _ choice hchoice last _ other hother => ?_
  have hfinal := (hleads _ _ _ hchoice).lookup_transfers hother
  rw [hstored] at hfinal
  exact (Option.some.inj hfinal).symm

theorem getPostings_keeps_final
    {assume : Async Choice World (Except LedgerError (List Posting)) → Choice → World → Prop}
    (hleads : LeadsTo assume final) (ids : List PostingId) :
    Keeps assume Interferes (LedgerStep allowed)
      (fun postings _ => postings = ids.filterMap final.postings.immutable.lookup)
      (getPostings ids) state := by
  unfold getPostings
  split
  next hnil =>
    subst hnil
    exact keeps_pure fun _ _ => rfl
  next =>
    refine keeps_bind environment (keeps_read environment fun later _ choice hchoice last _ => ?_)
    refine keeps_attempt fun postings hpostings _ _ => ?_
    rw [Except.mapError_eq_ok_iff, InMemoryStore.getPostings_eq_ok_iff] at hpostings
    have hevolves := hleads _ _ _ hchoice
    exact (HashMap.filterMap_lookup_eq
      (hpostings.imp fun _ _ => hevolves.lookup_immutable)).symm

/-- In a run that leads to `final`, reversing `id` builds one envelope only. -/
theorem reverse_keeps_allowed
    {assume : Async Choice World (Except LedgerError Receipt) → Choice → World → Prop}
    (hwell : WellFormed state.store) (hleads : LeadsTo assume final)
    (hstored : final.transfers.lookup id = some record)
    (hcommit : ∀ later, WellFormed later.store →
      Keeps assume Interferes (LedgerStep allowed) (fun _ _ => True)
        (commitEnvelope (reversalIn final record)) later) :
    Keeps assume Interferes (LedgerStep allowed) (fun _ _ => True) (reverse id) state := by
  refine keeps_bind environment
    ((getTransfer_keeps_final (fun _ => hleads _) hstored).since.weaken ?_)
  rintro found first ⟨hfound, hfirst⟩
  cases found with
  | none => exact (ReadOnly.throw _).steps.assuming
  | some other =>
      rw [hfound other rfl]
      refine keeps_bind environment
        ((getPostings_keeps_final (fun _ => hleads _) record.envelope.consumes).since.weaken ?_)
      rintro postings second ⟨rfl, hsecond⟩
      exact hcommit second ((hfirst.trans hsecond).wellFormed hwell)

theorem operation_reverse_keeps
    {assume : Async Choice World (Except LedgerError Response) → Choice → World → Prop}
    (hwell : WellFormed state.store) (hleads : LeadsTo assume final)
    (hstored : final.transfers.lookup id = some record)
    (hallowed : (∀ pinned, Pinned (reversalIn final record) pinned → allowed pinned) ∨
      ∃ pinned, allowed pinned ∧
        ∀ choice world, assume (committing (reversalIn final record)) choice world →
          ∀ result, pinnedIn world.store (reversalIn final record) = .ok result → result = pinned) :
    Keeps assume Interferes (LedgerStep allowed) (fun _ _ => True) (ledger.operation (.reverse id))
      state := by
  refine keeps_bind environment (Keeps.weaken (reverse_keeps_allowed hwell (fun _ => hleads _)
    hstored fun later hlater =>
      commitEnvelope_keeps_allowed hlater ?_) fun _ _ _ => (ReadOnly.pure _).steps.assuming)
  refine hallowed.imp (fun h => h) fun ⟨pinned, hpinned, hpins⟩ => ⟨rfl, pinned, hpinned, ?_⟩
  intro choice world hchoice
  rw [← run_bind_eq] at hchoice
  exact hpins choice world hchoice

/-- However often a stored transfer is reversed, and whatever runs in between,
one of the calls at most stores a transfer: if the reversed one creates a
posting, or if the calls find the accounts they pin in the same versions. -/
theorem reversed_once (ledger : Ledger) (actions : List LedgerAction) (id : EnvelopeId)
    (record : EnvelopeRecord)
    (hstored : (storeAfter ledger actions).transfers.lookup id = some record)
    (hsame : record.envelope.creates ≠ [] ∨
      ∃ pinned, LedgerPool.initial.Respects ledger.program
        (PinsTo (.reverse id) (reversalIn (storeAfter ledger actions) record) pinned) actions) :
    storedBy ledger (.reverse id) .initial actions ≤ 1 := by
  have hleads := respects_evolves ledger [] actions
  rcases hsame with hcreates | ⟨pinned, hrun⟩
  · obtain ⟨posting, rest, hcons⟩ := List.exists_cons_of_ne_nil hcreates
    have hsubmitting : Submitting ledger (fun other _ _ world => other = .reverse id →
        Evolves world.store (storeAfter ledger actions))
        fun other envelope => other = .reverse id →
          Pinned (reversalIn (storeAfter ledger actions) record) envelope :=
      submitting_only fun state hwell => operation_reverse_keeps hwell
        (fun _ _ _ h => h) hstored (.inl fun _ h => h)
    refine storedBy_le_one hsubmitting (.inr ⟨⟨record.receipt.transferId, 0⟩, ?_⟩)
      (hleads.mono ledger.program fun _ _ _ _ h _ => h)
    rintro _ ⟨snapshots, rfl⟩
    change _ ∈ createdPostingIds record.receipt.transferId record.envelope.creates
    rw [hcons, createdPostingIds, List.mapIdx_cons]
    exact List.mem_cons_self
  · have hsubmitting : Submitting ledger (fun other rest choice world => other = .reverse id →
        Evolves world.store (storeAfter ledger actions) ∧ PinsTo (.reverse id)
          (reversalIn (storeAfter ledger actions) record) pinned (.reverse id) rest choice world)
        fun other envelope => other = .reverse id → envelope = pinned :=
      submitting_only fun state hwell => operation_reverse_keeps hwell
        (fun _ _ _ h => h.1) hstored (.inr ⟨pinned, rfl, fun _ _ h => h.2 rfl rfl⟩)
    refine storedBy_le_one hsubmitting (.inl ⟨envelopeId pinned, ?_⟩)
      ((hleads.and ledger.program hrun).mono ledger.program ?_)
    · rintro _ rfl
      rfl
    · rintro _ rest choice world ⟨hevolves, hpins⟩ rfl
      exact ⟨hevolves, hpins⟩

/-! ## What a reversal changes -/

variable {before after : World}

/-- A reversal run alone commits the one envelope that the records determine. -/
theorem reverse_alone {receipt : Receipt} (hwell : WellFormed before.store)
    (hstored : before.store.transfers.lookup id = some record)
    (halone : Alone (reverse id) before (.ok receipt) after) :
    ∃ pinned, pinnedIn before.store (reversalIn before.store record) = .ok pinned ∧
      CommitEnds before.store pinned (.ok receipt) after.store := by
  obtain ⟨found, first, hread, hrest⟩ := alone_bind_ok_iff.mp halone
  obtain ⟨choice, hvalue, rfl⟩ := alone_read_iff.mp hread
  cases hvalue
  rw [InMemoryStore.getTransfer, hstored] at hrest
  obtain ⟨postings, second, hpostings, hrest⟩ := alone_bind_ok_iff.mp hrest
  have hstore := (getPostings_readOnly _).store_eq hpostings
  have hfound := (getPostings_alone hpostings).symm
  rw [Except.mapError_eq_ok_iff, InMemoryStore.getPostings_eq_ok_iff] at hfound
  rw [← HashMap.filterMap_lookup_eq hfound] at hrest
  obtain ⟨pinned, hpinned, hends⟩ | ⟨_, herror, _⟩ :=
    commitEnvelope_alone (hstore ▸ hwell) hrest
  · rw [hstore] at hpinned hends
    exact ⟨pinned, hpinned, hends⟩
  · cases herror

/-- The reversal has an effect: no stored transfer has its content when the
current account versions are pinned, and its created postings do not replace
each other. A transfer that changes no balance needs no reversal. -/
def TakesEffect (store : InMemoryStore) (record : EnvelopeRecord) : Prop :=
  ∀ pinned, pinnedIn store (reversalIn store record) = .ok pinned →
    if envelopeId pinned ∈ store.transfers then ∀ key, changeBy store record key = 0
    else ∀ key, keyTotal Posting.key Posting.value
      (activated (createdPostings (envelopeId pinned) pinned.creates)) key =
        keyTotal NewPosting.key NewPosting.value pinned.creates key

theorem takesEffect_iff {store : InMemoryStore} {pinned : Envelope}
    (hpinned : pinnedIn store (reversalIn store record) = .ok pinned) :
    TakesEffect store record ↔
      if envelopeId pinned ∈ store.transfers then ∀ key, changeBy store record key = 0
      else ∀ key, keyTotal Posting.key Posting.value
        (activated (createdPostings (envelopeId pinned) pinned.creates)) key =
          keyTotal NewPosting.key NewPosting.value pinned.creates key := by
  constructor
  · exact fun heffect => heffect pinned hpinned
  · intro heffect other hother
    rw [hpinned] at hother
    cases hother
    exact heffect

/-- A reversal creates again what was consumed. -/
theorem keyTotal_reversal {store : InMemoryStore} {pinned : Envelope}
    (hpinned : pinnedIn store (reversalIn store record) = .ok pinned) (key : BalanceKey) :
    keyTotal NewPosting.key NewPosting.value pinned.creates key =
      keyTotal Posting.key Posting.value
        (record.envelope.consumes.filterMap store.postings.immutable.lookup) key := by
  rw [(creates_of_pinnedIn hpinned).1, reversalIn, reverseEnvelope, keyTotal_map]
  rfl

/-- A reversal of at most 65536 postings activates all that it creates. -/
theorem keyTotal_activated_reversal {store : InMemoryStore} {pinned : Envelope}
    (hindex : record.envelope.consumes.length ≤ 65536)
    (hpinned : pinnedIn store (reversalIn store record) = .ok pinned) (key : BalanceKey) :
    keyTotal Posting.key Posting.value
        (activated (createdPostings (envelopeId pinned) pinned.creates)) key =
      keyTotal NewPosting.key NewPosting.value pinned.creates key := by
  have hlength : pinned.creates.length ≤ 65536 := by
    rw [(creates_of_pinnedIn hpinned).1, reversalIn, reverseEnvelope, List.length_map]
    exact (List.length_filterMap_le _ _).trans hindex
  rw [keyTotal_perm (activated_perm (nodup_map_id_createdPostings hlength)),
    keyTotal_createdPostings]

theorem takesEffect_of_unstored {store : InMemoryStore} {pinned : Envelope}
    (hindex : record.envelope.consumes.length ≤ 65536)
    (hpinned : pinnedIn store (reversalIn store record) = .ok pinned)
    (hunstored : envelopeId pinned ∉ store.transfers) : TakesEffect store record := by
  rw [takesEffect_iff hpinned, if_neg hunstored]
  exact keyTotal_activated_reversal hindex hpinned

/-- When the reversal is applied, the postings it consumes are the ones that the
reversed transfer has created. -/
theorem liveBalance_of_reversal {store : InMemoryStore} {pinned : Envelope} {clock : Clock}
    {order : IterationOrder} {req : CommitRequest} {consumed : List Posting}
    (hconsistent : Consistent store) (hfaithful : Faithful store)
    (hstored : store.transfers.lookup id = some record)
    (hpinned : pinnedIn store (reversalIn store record) = .ok pinned)
    (hvalid : Validated store req consumed) (henvelope : req.record.envelope = pinned)
    (hfresh : req.transferId ∉ store.transfers) (hguards : store.commitGuards order req = .ok ())
    (key : BalanceKey) :
    (store.applyCommit clock req).liveBalance key = store.liveBalance key -
      keyTotal NewPosting.key NewPosting.value record.envelope.creates key +
      keyTotal Posting.key Posting.value
        (activated (createdPostings (envelopeId pinned) pinned.creates)) key := by
  have hconsumes : req.consume = createdPostingIds id record.envelope.creates := by
    rw [hvalid.consume, henvelope, (creates_of_pinnedIn hpinned).2, reversalIn, reverseEnvelope,
      hfaithful.filed id record hstored]
  have hnodup : (createdPostingIds id record.envelope.creates).Nodup := by
    rw [← hconsumes, hvalid.consume]
    exact hvalid.nodup
  have hindex := length_le_of_nodup_createdPostingIds hnodup
  obtain ⟨_, hactive, _⟩ := InMemoryStore.commitGuards_eq_ok_iff.mp hguards
  rw [InMemoryStore.doubleSpendGuard_eq_ok_iff, hconsumes] at hactive
  rw [liveBalance_applyCommit clock hconsistent hvalid hfresh hguards, hconsumes,
    hfaithful.activeOf_created hstored hindex hactive, keyTotal_createdPostings, hvalid.create,
    hvalid.transferId, henvelope]

theorem reversal_undoes_iff {store later : InMemoryStore} {pinned : Envelope} {receipt : Receipt}
    (hconsistent : Consistent store) (hfaithful : Faithful store)
    (hstored : store.transfers.lookup id = some record)
    (hpinned : pinnedIn store (reversalIn store record) = .ok pinned)
    (hends : CommitEnds store pinned (.ok receipt) later) :
    (∀ key, later.liveBalance key = store.liveBalance key - changeBy store record key) ↔
      TakesEffect store record := by
  rw [takesEffect_iff hpinned]
  cases hends with
  | stored hlookup =>
      rw [if_pos (HashMap.mem_iff_exists_lookup.mpr ⟨_, hlookup⟩)]
      exact forall_congr' fun key => by omega
  | applied clock hvalid henvelope hfresh hguards =>
      have hunstored : envelopeId pinned ∉ store.transfers := by
        rwa [hvalid.transferId, henvelope] at hfresh
      rw [if_neg hunstored]
      refine forall_congr' fun key => ?_
      have hcreates := keyTotal_reversal hpinned key
      rw [liveBalance_of_reversal hconsistent hfaithful hstored hpinned hvalid henvelope hfresh
        hguards, changeBy, hcreates]
      omega

/-- In every reachable state, a reversal that runs alone and succeeds undoes the
balance changes of its transfer exactly when it takes effect. -/
theorem reverse_undoes (ledger : Ledger) (actions : List LedgerAction) (id : EnvelopeId)
    (record : EnvelopeRecord) (receipt : Receipt) (after : World)
    (hstored : (storeAfter ledger actions).transfers.lookup id = some record)
    (hreversed : Alone (reverse id) (LedgerPool.after ledger actions).shared (.ok receipt) after) :
    (∀ key, after.store.liveBalance key = (storeAfter ledger actions).liveBalance key -
        changeBy (storeAfter ledger actions) record key) ↔
      TakesEffect (storeAfter ledger actions) record := by
  obtain ⟨pinned, hpinned, hends⟩ :=
    reverse_alone (wellFormed_after ledger actions) hstored hreversed
  exact reversal_undoes_iff (consistent_after ledger actions) (faithful_after ledger actions)
    hstored hpinned hends

end Theory

open Sample in
/-- An envelope that spends both postings of the deposit and creates none. -/
def settlement : Envelope where
  consumes := createdPostingIds (envelopeId pinnedDeposit) pinnedDeposit.creates
  creates := []
  accountSnapshots := []
  book := DEFAULT_BOOK
  metadata := .empty

open Sample in
/-- The settlement is reversed twice, an account being frozen and unfrozen in between. -/
def reversedTwice : List LedgerAction :=
  sequentially (accounts ++ [.commitEnvelope pinnedDeposit, .freeze alice, .unfreeze alice,
    .commitEnvelope settlement, .reverse (envelopeId settlement), .freeze alice, .unfreeze alice,
    .reverse (envelopeId settlement)])

open Sample in
/-- Both reversals of the settlement store a transfer, and the receiver of the
deposit is refunded twice. -/
theorem settlement_reversed_twice :
    storedBy ledger (.reverse (envelopeId settlement)) .initial reversedTwice = 2 ∧
      (storeAfter ledger reversedTwice).liveBalance (alice, usd) = 10 := by
  decide +kernel

open Sample in
/-- A transfer that creates postings is reversed once in such a run. -/
theorem reversed_once_deposit :
    let reversals := sequentially (accounts ++ [.commitEnvelope pinnedDeposit,
      .reverse (envelopeId pinnedDeposit), .freeze alice, .unfreeze alice,
      .reverse (envelopeId pinnedDeposit)])
    storedBy ledger (.reverse (envelopeId pinnedDeposit)) .initial reversals ≤ 1 :=
  reversed_once ledger _ _ ⟨pinnedDeposit, ⟨envelopeId pinnedDeposit⟩, 1800000000000⟩
    (by decide +kernel) (.inl (by decide))

open Sample in
/-- The deposit was reversed once; its reversal has the content of the settlement. -/
def reversedDeposit : List Request :=
  accounts ++ [.commitEnvelope pinnedDeposit, .reverse (envelopeId pinnedDeposit)]

open Sample in
/-- The reversal of a deposit is reversed for the first time: the call succeeds,
but it finds the deposit again and returns its id, and no balance changes. -/
theorem reversal_not_undone :
    let world := (LedgerPool.after ledger (sequentially reversedDeposit)).shared
    let outcome := runWith noon (reverse (envelopeId settlement)).run world
    Request.reverse (envelopeId settlement) ∉ reversedDeposit ∧
    Alone (reverse (envelopeId settlement)) world outcome.1 outcome.2 ∧
    outcome.1 = .ok ⟨envelopeId pinnedDeposit⟩ ∧
    ∃ record, world.store.transfers.lookup (envelopeId settlement) = some record ∧
      changeBy world.store record (alice, usd) = -5 ∧
      world.store.liveBalance (alice, usd) = 0 ∧
      outcome.2.store.liveBalance (alice, usd) = 0 := by
  refine ⟨by decide, runs_runWith _ _ _, by decide +kernel,
    ⟨settlement, ⟨envelopeId settlement⟩, 1800000000000⟩, ?_⟩
  decide +kernel

open Sample in
/-- What is recorded of the deposit. -/
def depositRecord : EnvelopeRecord := ⟨pinnedDeposit, ⟨envelopeId pinnedDeposit⟩, 1800000000000⟩

open Sample in
/-- The elaborator has no need to compute this run. -/
@[irreducible] def deposited : List LedgerAction := sequentially (accounts ++ [.commitEnvelope pinnedDeposit])

open Sample in
/-- The first reversal of the deposit takes effect and undoes it. -/
theorem reverse_undoes_deposit :
    ∃ receipt after, Alone (reverse (envelopeId pinnedDeposit))
        (LedgerPool.after ledger deposited).shared (.ok receipt) after ∧
      ∀ key, after.store.liveBalance key = (storeAfter ledger deposited).liveBalance key -
        changeBy (storeAfter ledger deposited) depositRecord key := by
  have hstored : (storeAfter ledger deposited).transfers.lookup (envelopeId pinnedDeposit) =
      some depositRecord := by decide +kernel
  have hpinned : pinnedIn (storeAfter ledger deposited)
      (reversalIn (storeAfter ledger deposited) depositRecord) = .ok settlement := by
    decide +kernel
  have hindex : depositRecord.envelope.consumes.length ≤ 65536 := by decide +kernel
  have hunstored : envelopeId settlement ∉ (storeAfter ledger deposited).transfers := by
    decide +kernel
  have heffect : TakesEffect (storeAfter ledger deposited) depositRecord :=
    takesEffect_of_unstored hindex hpinned hunstored
  have hruns := runs_runWith noon (reverse (envelopeId pinnedDeposit)).run
    (LedgerPool.after ledger deposited).shared
  have hok : (runWith noon (reverse (envelopeId pinnedDeposit)).run
      (LedgerPool.after ledger deposited).shared).1 = .ok ⟨envelopeId settlement⟩ := by
    decide +kernel
  rw [hok] at hruns
  exact ⟨_, _, hruns, (reverse_undoes ledger deposited _ _ _ _ hstored hruns).mpr heffect⟩

end Kuatia
