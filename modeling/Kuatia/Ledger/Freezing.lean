import Kuatia.Ledger.AuditTrail
import Kuatia.Ledger.Crowded
import Kuatia.Ledger.DoubleSpend
import Kuatia.Ledger.Instants

/-! # Frozen accounts

The store checks the latest version of every involved account as it applies a
transfer, so it does not matter what the client has seen before. The involved
accounts are the owners of the created postings and the recorded owners of the
consumed ones.
-/

namespace Kuatia

open LedgerM

section Theory

variable [MoneyWidth]

/-- The account exists and is neither frozen nor closed. -/
def Open (store : InMemoryStore) (id : AccountId) : Prop :=
  ∃ account, store.latest id = some account ∧ account.isFrozen = false ∧ account.isClosed = false

/-- The live posting under each consumed id belongs to the account that its record names. -/
def TrueOwners (store : InMemoryStore) (record : EnvelopeRecord) : Prop :=
  ∀ id ∈ record.envelope.consumes, ∀ live recorded,
    store.postings.active.lookup id = some live →
      store.postings.immutable.lookup id = some recorded → live.owner = recorded.owner

variable [Sha256] {submits : Envelope → Prop} {before after : InMemoryStore} {ledger : Ledger}

/-- Every stored transfer was applied when the owners of the postings it creates,
and of the live postings it takes out, were neither frozen nor closed: provided
that at this moment the live postings belonged to the accounts on record. -/
theorem owners_open (ledger : Ledger) (actions : List LedgerAction) (tid : EnvelopeId)
    (record : EnvelopeRecord)
    (hstored : (storeAfter ledger actions).transfers.lookup tid = some record)
    (htrue : ∀ first action, first ++ [action] <+: actions →
      tid ∉ (storeAfter ledger first).transfers →
      tid ∈ (storeAfter ledger (first ++ [action])).transfers →
      TrueOwners (storeAfter ledger first) record) :
    ∃ first action, first ++ [action] <+: actions ∧ tid ∉ (storeAfter ledger first).transfers ∧
      (storeAfter ledger (first ++ [action])).transfers.lookup tid = some record ∧
      (∀ posting ∈ record.envelope.creates, Open (storeAfter ledger first) posting.owner) ∧
      ∀ id ∈ record.envelope.consumes, ∃ posting,
        (storeAfter ledger first).postings.active.lookup id = some posting ∧
          Open (storeAfter ledger first) posting.owner := by
  obtain ⟨first, action, rest, order, clock, req, consumed, rfl, hvalid, rfl, rfl, hfresh, hguards,
    hafter⟩ := exists_commit_of_stored ledger hstored
  have hwithin : first ++ [action] <+: first ++ action :: rest :=
    (List.prefix_append_right_inj first).mpr ⟨rest, rfl⟩
  have hlookup : (storeAfter ledger (first ++ [action])).transfers.lookup req.transferId =
      some req.record := by
    rw [hafter, lookup_transfers_applyCommit, if_pos rfl]
  have htrue := htrue first action hwithin hfresh (HashMap.mem_iff_exists_lookup.mpr ⟨_, hlookup⟩)
  obtain ⟨hfreeze, hactive, _⟩ := InMemoryStore.commitGuards_eq_ok_iff.mp hguards
  rw [InMemoryStore.freezeGuard_eq_ok_iff] at hfreeze
  rw [InMemoryStore.doubleSpendGuard_eq_ok_iff, hvalid.consume] at hactive
  refine ⟨first, action, hwithin, hfresh, hlookup, fun posting hposting => ?_, fun id hid => ?_⟩
  · exact hfreeze _ ((hvalid.involved _).mpr (.inl ⟨posting, hposting, rfl⟩))
  · obtain ⟨live, hlive⟩ := HashMap.mem_iff_exists_lookup.mp (hactive id hid)
    obtain ⟨recorded, hmem, hrecorded⟩ := hvalid.found.exists_of_mem_left hid
    refine ⟨live, hlive, ?_⟩
    rw [htrue id hid live recorded hlive hrecorded]
    exact hfreeze _ ((hvalid.involved _).mpr (.inr ⟨recorded, hmem, rfl⟩))

omit [Sha256] in
/-- The condition is met as long as no index wraps. -/
theorem trueOwners_of_indexed {store : InMemoryStore} {record : EnvelopeRecord}
    (haccounted : Accounted store) (hindexed : Indexed store) : TrueOwners store record := by
  intro id _ live recorded hlive hrecorded
  rw [lookup_immutable_of_active haccounted hindexed hlive] at hrecorded
  cases hrecorded
  rfl

/-! ## A live posting does not change -/

theorem StoreStep.lookup_active (hstep : StoreStep submits before after)
    (hconsistent : Consistent before) {id : PostingId} {posting : Posting}
    (hlookup : before.postings.active.lookup id = some posting) (hactive : id ∈ after.postings.active) :
    after.postings.active.lookup id = some posting := by
  obtain ⟨hpostings, _⟩ | ⟨order, clock, req, consumed, hvalid, _, hfresh, _, rfl⟩ :=
    hstep.postings_cases
  · rwa [hpostings]
  · obtain ⟨found, hfound⟩ := HashMap.mem_iff_exists_lookup.mp hactive
    rw [hfound]
    rw [InMemoryStore.applyCommit_active] at hfound
    obtain ⟨hmem, rfl⟩ | ⟨hold, _⟩ := HashMap.lookup_insertAll_cases hfound
    · rw [hvalid.create] at hmem
      have hcreated : found.id ∈ createdPostingIds req.transferId req.record.envelope.creates := by
        rw [← map_id_createdPostings]
        exact List.mem_map_of_mem hmem
      have hbefore := HashMap.mem_iff_exists_lookup.mpr ⟨_, hlookup⟩
      exact absurd ((hconsistent.mem_active _).mp hbefore).1 (not_created_of_fresh hfresh hcreated)
    · rw [HashMap.lookup_eraseAll] at hold
      split at hold
      next => cases hold
      next => rw [← hlookup, hold]

/-- What is active at two instants is the same posting at both. -/
theorem lookup_active_later {first later : List LedgerAction} (hlater : first <+: later)
    {id : PostingId} {posting : Posting}
    (hlookup : (storeAfter ledger first).postings.active.lookup id = some posting)
    (hactive : id ∈ (storeAfter ledger later).postings.active) :
    (storeAfter ledger later).postings.active.lookup id = some posting := by
  obtain ⟨more, rfl⟩ := hlater
  induction more using List.reverseRecOn with
  | nil => rwa [List.append_nil]
  | append_singleton more action ih =>
      rw [← List.append_assoc] at hactive ⊢
      have hstep := storeStep_after ledger (first ++ more) action
      have hconsistent := consistent_after ledger (first ++ more)
      refine hstep.lookup_active hconsistent (ih ?_) hactive
      -- what is active now has been created, and was not consumed earlier either
      obtain ⟨_, hunspent⟩ := ((consistent_after ledger _).mem_active id).mp hactive
      have hcreated := ((consistent_after ledger first).mem_active id).mp
        (HashMap.mem_iff_exists_lookup.mpr ⟨_, hlookup⟩)
      refine (hconsistent.mem_active id).mpr ⟨?_, fun hconsumed => hunspent ?_⟩
      · obtain ⟨tid, record, hstored, hmem⟩ := hcreated.1
        exact ⟨tid, record, (evolves_after ledger first more).lookup_transfers hstored, hmem⟩
      · obtain ⟨tid, record, hstored, hmem⟩ := hconsumed
        exact ⟨tid, record, hstep.lookup_transfers hstored, hmem⟩

/-- A transfer that is not there at one instant is stored by an action after it. -/
theorem prefix_of_stored_late {past first actions : List LedgerAction} {action : LedgerAction}
    {tid : EnvelopeId} {record : EnvelopeRecord} (hpast : past <+: actions)
    (hwithin : first ++ [action] <+: actions) (hlate : tid ∉ (storeAfter ledger past).transfers)
    (hstored : (storeAfter ledger (first ++ [action])).transfers.lookup tid = some record) :
    past <+: first := by
  rcases List.prefix_or_prefix_of_prefix hpast hwithin with hearlier | hafter
  · rcases List.prefix_concat_iff.mp hearlier with rfl | hearlier
    · exact absurd (HashMap.mem_iff_exists_lookup.mpr ⟨record, hstored⟩) hlate
    · exact hearlier
  · have hkept := (evolves_later ledger hafter).lookup_transfers hstored
    exact absurd (HashMap.mem_iff_exists_lookup.mpr ⟨record, hkept⟩) hlate

/-- A transfer that is stored from here on takes out postings that are active then. -/
theorem exists_commit_later {past more : List LedgerAction} {tid : EnvelopeId}
    {record : EnvelopeRecord} (hfresh : tid ∉ (storeAfter ledger past).transfers)
    (hstored : (storeAfter ledger (past ++ more)).transfers.lookup tid = some record) :
    ∃ first action, first ++ [action] <+: past ++ more ∧ past <+: first ∧
      tid ∉ (storeAfter ledger first).transfers ∧
      (storeAfter ledger (first ++ [action])).transfers.lookup tid = some record ∧
      ∀ id ∈ record.envelope.consumes, id ∈ (storeAfter ledger first).postings.active := by
  obtain ⟨first, action, rest, _, _, req, _, hactions, hvalid, rfl, rfl, hunstored, hguards,
    hafter⟩ := exists_commit_of_stored ledger hstored
  have hwithin : first ++ [action] <+: past ++ more :=
    hactions ▸ (List.prefix_append_right_inj first).mpr ⟨rest, rfl⟩
  have hlookup : (storeAfter ledger (first ++ [action])).transfers.lookup req.transferId =
      some req.record := by
    rw [hafter, lookup_transfers_applyCommit, if_pos rfl]
  refine ⟨first, action, hwithin, ?_, hunstored, hlookup, ?_⟩
  · exact prefix_of_stored_late (List.prefix_append past more) hwithin hfresh hlookup
  · obtain ⟨_, hactive, _⟩ := InMemoryStore.commitGuards_eq_ok_iff.mp hguards
    rwa [InMemoryStore.doubleSpendGuard_eq_ok_iff, hvalid.consume] at hactive

/-! ## A transition that runs alone -/

omit [Sha256] in
/-- An account that is not closed gets its next version. -/
theorem exists_transition_alone {store : InMemoryStore} {current : Account}
    (hlatest : store.latest current.id = some current) (hopen : current.isClosed = false)
    (hroom : current.version.toNat + 1 ≠ 2 ^ 64) (change : LifecycleChange) (clock : Clock)
    (ts : Int64) : ∃ later,
      Alone (transition current.id change) ⟨store, clock⟩ (.ok ()) ⟨later, some ts⟩ ∧
        later.postings = store.postings ∧ later.transfers = store.transfers ∧
        later.books = store.books ∧ ∀ id, later.versions id =
          if id = current.id then store.versions id ++ [change.nextVersion current]
          else store.versions id := by
  let next := change.nextVersion current
  let event : LedgerEvent :=
    { seq := 0, timestamp := ts, kind := change.makeEvent current.id next.version }
  have hlt := current.version.toNat_lt
  have hnext : next.version = current.version + 1 := rfl
  have hnumber : ¬next.version ≤ current.version := by
    rw [hnext, UInt64.le_iff_toNat_le, UInt64.toNat_add, UInt64.toNat_one, Nat.mod_eq_of_lt (by omega)]
    omega
  obtain ⟨earlier, hversions⟩ : ∃ earlier, store.versions current.id = earlier ++ [current] :=
    List.getLast?_eq_some_iff.mp hlatest
  have haccounts : store.accounts.lookup current.id = some (store.versions current.id) := by
    rw [InMemoryStore.versions] at hversions ⊢
    cases hlookup : store.accounts.lookup current.id with
    | none =>
        rw [hlookup] at hversions
        exact absurd hversions.symm (List.append_ne_nil_of_right_ne_nil _ (List.cons_ne_nil _ _))
    | some versions => rfl
  have hlast : (store.versions current.id).getLast? = some current := hlatest
  let versions := store.versions current.id ++ [next]
  let moved : InMemoryStore := { store with accounts := store.accounts.insert current.id versions }
  -- the version is new, has room and is the successor, so every check passes
  have happlied : store.commitTransition (some ts) next event =
      (.ok .applied, moved.appendEventLocked (some ts) event) := by
    unfold InMemoryStore.commitTransition
    rw [show next.id = current.id from rfl, haccounts]
    dsimp only
    rw [hlast]
    dsimp only
    rw [hopen, if_neg (by simp), if_neg hnumber, if_neg hroom,
      if_neg (not_not.mpr hnext)]
  refine ⟨moved.appendEventLocked (some ts) event, ?_, ?_, ?_, ?_, ?_⟩
  rotate_left
  · exact InMemoryStore.appendEventLocked_postings ..
  · exact InMemoryStore.appendEventLocked_transfers ..
  · exact InMemoryStore.appendEventLocked_books ..
  · intro id
    rw [InMemoryStore.versions, InMemoryStore.appendEventLocked_accounts, HashMap.lookup_insert_eq]
    split
    next heq => rw [heq]; rfl
    next => rfl
  · refine alone_bind_ok_iff.mpr ⟨.ok current, ⟨store, none⟩,
      alone_read_iff.mpr ⟨⟨.listed, none⟩, ?_, rfl⟩, ?_⟩
    · exact congrArg Except.ok (InMemoryStore.getAccount_eq_ok_iff.mpr hlatest).symm
    refine alone_bind_ok_iff.mpr ⟨current, _, alone_attempt_iff.mpr ⟨rfl, rfl⟩, ?_⟩
    rw [hopen, if_neg (by simp), if_neg hroom]
    refine alone_bind_ok_iff.mpr ⟨ts, _, alone_nowMillis ts, ?_⟩
    refine alone_bind_ok_iff.mpr ⟨_, _, alone_act_iff.mpr ⟨⟨.listed, some ts⟩, rfl, rfl⟩, ?_⟩
    rw [happlied]
    exact alone_bind_ok_iff.mpr ⟨_, _, alone_attempt_iff.mpr ⟨rfl, rfl⟩,
      alone_attempt_iff.mpr ⟨rfl, rfl⟩⟩

end Theory

open Sample in
/-- Alice gets 5, and then bob is frozen. -/
def bobLocked : List LedgerAction :=
  sequentially (accounts ++
    [.createAccount (.debitMustNotExceedCredit bob), .commit (deposit 5), .freeze bob])

open Sample in
/-- Alice pays back 3. -/
def payingBack : Transfer where
  movements := [⟨alice, external, usd, .ofI64 3⟩]
  book := DEFAULT_BOOK
  metadata := .single "nonce" (.replicate 32 1)

open Sample in
/-- While bob is frozen, alice's posting is consumed: she, and the owners of what is
created, are open. -/
theorem owners_open_payingBack :
    let actions := bobLocked ++ .start (.commit payingBack) :: .replicate 40 (.advance 5 noon)
    ∃ tid record first action, first ++ [action] <+: actions ∧
      tid ∉ (storeAfter ledger first).transfers ∧
      (storeAfter ledger (first ++ [action])).transfers.lookup tid = some record ∧
      record.envelope.consumes ≠ [] ∧ ¬Open (storeAfter ledger first) bob ∧
      (∀ posting ∈ record.envelope.creates, Open (storeAfter ledger first) posting.owner) ∧
      ∀ id ∈ record.envelope.consumes, ∃ posting,
        (storeAfter ledger first).postings.active.lookup id = some posting ∧
          Open (storeAfter ledger first) posting.owner := by
  intro actions
  have hindexed : Indexed (storeAfter ledger actions) := by decide +kernel
  have hconsumes : ∃ entry ∈ (storeAfter ledger actions).transfers.entries,
      entry.2.envelope.consumes ≠ [] ∧ entry.1 ∉ (storeAfter ledger bobLocked).transfers := by
    decide +kernel
  obtain ⟨⟨tid, record⟩, hentry, hconsumes, hlate⟩ := hconsumes
  obtain ⟨first, action, hwithin, hfresh, hstored, hopen, hconsumed⟩ :=
    owners_open ledger actions tid record (AList.mem_lookup_iff.mpr hentry)
      fun first action hwithin _ _ => trueOwners_of_indexed (accounted_after ledger first)
        (hindexed.earlier (evolves_later ledger ((List.prefix_append _ _).trans hwithin)))
  -- the payment is stored after bob was frozen, and nothing happens to him then
  have hpast : bobLocked <+: first :=
    prefix_of_stored_late (List.prefix_append _ _) hwithin hlate hstored
  have hversions : (storeAfter ledger first).versions bob =
      (storeAfter ledger bobLocked).versions bob := by
    have hbefore := versions_prefix_later ledger hpast bob
    have hafter := versions_prefix_later ledger ((List.prefix_append first [action]).trans hwithin) bob
    have hsame : (storeAfter ledger actions).versions bob =
        (storeAfter ledger bobLocked).versions bob := by
      decide +kernel
    rw [hsame] at hafter
    exact (hbefore.eq_of_length_le hafter.length_le).symm
  have hfrozen : ¬Open (storeAfter ledger first) bob := by
    have hlatest : ((storeAfter ledger bobLocked).versions bob).getLast?.any (·.isFrozen) = true := by
      decide +kernel
    rintro ⟨account, hopen, hunfrozen, _⟩
    rw [InMemoryStore.latest, hversions] at hopen
    rw [hopen, Option.any_some, hunfrozen] at hlatest
    cases hlatest
  exact ⟨tid, record, first, action, hwithin, hfresh, hstored, hconsumes, hfrozen, hopen, hconsumed⟩

open Sample in
/-- It consumes the posting that bob inherited, which is recorded as another's. -/
def inherited : Envelope where
  consumes := [⟨envelopeId (crowd external bob), 0⟩]
  creates := [⟨external, usd, .ofI64 5, none⟩]
  accountSnapshots := [accountSnapshotId (.new external)]
  book := DEFAULT_BOOK
  metadata := .single "nonce" (.replicate 32 3)

open Sample in
/-- Once bob is frozen the envelope is still acceptable: its record does not mention him. -/
theorem inherited_acceptable {store : InMemoryStore} {actions : List LedgerAction}
    (hcrowd : CrowdedBy external bob (storeAfter ledger actions))
    (hpostings : store.postings = (storeAfter ledger actions).postings)
    (hbooks : store.books = (storeAfter ledger actions).books)
    (hlatest : store.latest external = some (.new external)) :
    Acceptable store inherited
      [NewPosting.withId { smaller with owner := external } ⟨envelopeId (crowd external bob), 0⟩] := by
  have hunrestricted := unrestricted_new hlatest
  constructor
  constructor
  case creates => exact List.cons_ne_nil _ _
  case nodup => exact List.nodup_singleton _
  case found => exact .cons (hpostings ▸ hcrowd.recorded) .nil
  case owners =>
    intro id hid
    rcases hid with hid | hid
    · rw [List.mem_singleton.mp hid]
      exact hunrestricted
    · rw [List.mem_singleton.mp hid]
      exact hunrestricted
  case pins =>
    intro snapshot hsnapshot
    rw [List.mem_singleton.mp hsnapshot]
    exact ⟨_, hlatest, rfl⟩
  case book => rfl
  case unrestricted =>
    rw [hbooks, hcrowd.books]
    exact AList.notMem_empty _
  case room =>
    have hlive : store.liveMagnitude ≤ 24 := by
      rw [InMemoryStore.liveMagnitude, InMemoryStore.livePostings, hpostings]
      exact hcrowd.magnitude
    have hspent : Cent.magnitude ([NewPosting.withId { smaller with owner := external }
        ⟨envelopeId (crowd external bob), 0⟩].map Posting.value) = 5 := rfl
    have hmade : Cent.magnitude (inherited.creates.map NewPosting.value) = 5 := rfl
    have hmax : (34 : Int) ≤ Backing.max MoneyWidth.backing := by decide
    rw [hspent, hmade]
    omega
  case pinned => exact List.cons_ne_nil _ _
  case active =>
    intro id hid
    rw [List.mem_singleton.mp hid, hpostings]
    exact HashMap.mem_iff_exists_lookup.mpr ⟨_, hcrowd.active⟩
  case balanced =>
    intro asset
    rw [keyTotal_of_key (show ∀ posting ∈ [_], Posting.asset posting = usd from
      fun posting hposting => List.mem_singleton.mp hposting ▸ rfl),
      keyTotal_of_key (show ∀ posting ∈ inherited.creates, posting.asset = usd by decide)]
    rfl

open Sample in
/-- Bob is frozen, and his live posting is spent all the same. -/
theorem frozen_posting_spent : ∃ actions tid record first action,
    first ++ [action] <+: actions ∧ tid ∉ (storeAfter ledger first).transfers ∧
      (storeAfter ledger (first ++ [action])).transfers.lookup tid = some record ∧
      ∃ id ∈ record.envelope.consumes, ∃ posting account,
        (storeAfter ledger first).postings.active.lookup id = some posting ∧
        (storeAfter ledger first).latest posting.owner = some account ∧
        account.isFrozen = true := by
  obtain ⟨actions, hcrowd⟩ := @exists_crowd external bob ⟨.inl rfl, .inr rfl⟩
  let spentId : PostingId := ⟨envelopeId (crowd external bob), 0⟩
  -- bob is frozen
  have hnew : (storeAfter ledger actions).latest (Account.new bob).id = some (.new bob) :=
    hcrowd.accounts.2
  obtain ⟨frozen, hfreeze, hpostings, htransfers, hbooks, hversions⟩ :=
    exists_transition_alone hnew (by decide) (by decide) .freeze
      (LedgerPool.after ledger actions).shared.clock 1800000000000
  obtain ⟨more, hmore⟩ := exists_run_alone ledger actions (.freeze bob)
    (alone_bind_ok_iff.mpr ⟨_, _, hfreeze, alone_pure_iff.mpr ⟨rfl, rfl⟩⟩)
  have hstore : storeAfter ledger (actions ++ more) = frozen := congrArg World.store hmore
  have hexternal : frozen.latest external = some (.new external) := by
    rw [InMemoryStore.latest, hversions, if_neg (by decide)]
    exact hcrowd.accounts.1
  have hbob : frozen.latest bob = some (LifecycleChange.freeze.nextVersion (.new bob)) := by
    rw [InMemoryStore.latest, hversions, if_pos (by rfl)]
    exact List.getLast?_concat
  -- the envelope is committed
  have hacceptable := inherited_acceptable hcrowd hpostings hbooks hexternal
  have hunstored : envelopeId inherited ∉ frozen.transfers := by
    rw [htransfers]
    intro hstored
    have hbytes := congrArg (fun id : EnvelopeId => id.bytes.toList) (hcrowd.transfers _ hstored)
    rw [envelopeId_of_metadata (show inherited.metadata = .single "nonce" _ from rfl) rfl,
      envelopeId_of_metadata (show (crowd external bob).metadata = .single "nonce" _ from rfl) rfl]
      at hbytes
    exact absurd hbytes (by decide)
  obtain ⟨loaded, _, hcommit⟩ := hacceptable.admissible.commits (hstore ▸ wellFormed_after ledger _)
    (hstore ▸ consistent_after ledger _) hunstored (some 1800000000000) 1800000000000
  rw [← hmore] at hcommit
  obtain ⟨last, hlast⟩ := exists_run_alone ledger (actions ++ more) (.commitEnvelope inherited)
    (alone_bind_ok_iff.mpr ⟨_, _, hcommit, alone_pure_iff.mpr ⟨rfl, rfl⟩⟩)
  let req := commitRequest inherited (planOf inherited) loaded 1800000000000
  have hfinal : storeAfter ledger (actions ++ more ++ last) =
      frozen.applyCommit (some 1800000000000) req := congrArg World.store hlast
  have hstored : (storeAfter ledger (actions ++ more ++ last)).transfers.lookup
      (envelopeId inherited) = some req.record := by
    rw [hfinal, InMemoryStore.applyCommit_transfers]
    exact AList.lookup_insert _
  rw [← hstore] at hunstored
  obtain ⟨first, action, hwithin, hpast, hfresh, hlookup, hactive⟩ :=
    exists_commit_later hunstored hstored
  -- nothing has happened to bob in between
  have hsame : (storeAfter ledger first).versions bob = frozen.versions bob := by
    have hbefore := versions_prefix_later ledger hpast bob
    have hafter := versions_prefix_later ledger ((List.prefix_append _ _).trans hwithin) bob
    rw [hfinal, InMemoryStore.versions_congr (InMemoryStore.applyCommit_accounts ..)] at hafter
    rw [hstore] at hbefore
    exact hafter.eq_of_length_le hbefore.length_le
  have hposting : (storeAfter ledger first).postings.active.lookup spentId =
      some (NewPosting.withId { larger with owner := bob } spentId) := by
    refine lookup_active_later hpast ?_ (hactive spentId (List.mem_singleton_self _))
    rw [hstore, hpostings]
    exact hcrowd.active
  have howner : (storeAfter ledger first).latest bob =
      some (LifecycleChange.freeze.nextVersion (.new bob)) := by
    rw [InMemoryStore.latest, hsame]
    exact hbob
  exact ⟨_, _, _, first, action, hwithin, hfresh, hlookup, spentId, List.mem_singleton_self _, _, _,
    hposting, howner, by decide⟩

end Kuatia
