import Kuatia.Inflight.Holding
import Kuatia.Ledger.CachedBalance
import Kuatia.Ledger.Closing
import Kuatia.Ledger.CommitEffect
import Kuatia.Ledger.Transitions

/-! # Paying out of holds

One settlement takes its amount out of a hold, and leaves every other balance of
the holds and the cache points for them as they were. Payouts compose, and so a
sequence of them is described like a single one.
-/

namespace Kuatia

open LedgerM

variable [MoneyWidth] [Sha256]

/-- What some payouts take under one key. -/
def takenFrom (drawn : List (BalanceKey × Cent)) (key : BalanceKey) : Int :=
  keyTotal Prod.fst Prod.snd drawn key

/-- The accounts that are watched have paid out `drawn`, and nothing was paid to them
but change. What is not positive is never paid out, and what has become live is
change. -/
structure PaidOut (watched : AccountId → Prop) (drawn : List (BalanceKey × Cent))
    (before after : InMemoryStore) : Prop where
  balances : ∀ key, watched key.1 →
    after.liveBalance key = before.liveBalance key - takenFrom drawn key
  kept : ∀ posting ∈ before.livePostings, ¬0 < posting.value.val → posting ∈ after.livePostings
  fresh : ∀ posting ∈ after.livePostings, watched posting.owner → posting ∈ before.livePostings ∨
    0 < posting.value.val ∧ posting.key ∈ drawn.map Prod.fst
  caches : ∀ key room, watched key.1 → key ∉ drawn.map Prod.fst →
    CacheSound before key (room + drawn.length) → CacheSound after key room

namespace PaidOut

variable {watched : AccountId → Prop} {drawn more : List (BalanceKey × Cent)}
  {before middle after : InMemoryStore}

omit [Sha256] in
theorem trans (hfirst : PaidOut watched drawn before middle)
    (hsecond : PaidOut watched more middle after) :
    PaidOut watched (drawn ++ more) before after where
  balances key hkey := by
    rw [hsecond.balances key hkey, hfirst.balances key hkey, takenFrom, takenFrom, takenFrom,
      keyTotal_append]
    omega
  kept posting hposting hvalue := hsecond.kept posting (hfirst.kept posting hposting hvalue) hvalue
  fresh posting hposting howner := by
    rw [List.map_append, List.mem_append]
    obtain hmiddle | ⟨hpositive, hdrawn⟩ := hsecond.fresh posting hposting howner
    · obtain hbefore | ⟨hpositive, hdrawn⟩ := hfirst.fresh posting hmiddle howner
      · exact .inl hbefore
      · exact .inr ⟨hpositive, .inl hdrawn⟩
    · exact .inr ⟨hpositive, .inr hdrawn⟩
  caches key room hkey hdrawn hsound := by
    rw [List.map_append, List.mem_append, not_or] at hdrawn
    rw [List.length_append, ← Nat.add_assoc, Nat.add_right_comm] at hsound
    exact hsecond.caches key room hkey hdrawn.2 (hfirst.caches key _ hkey hdrawn.1 hsound)

omit [Sha256] in
/-- A step that leaves the postings, the transfers and the cache points alone pays
nothing out. -/
theorem of_same (hpostings : after.postings = before.postings)
    (htransfers : after.transfers = before.transfers)
    (hfiled : after.transferAccounts = before.transferAccounts)
    (hprojections : after.projections = before.projections) : PaidOut watched [] before after := by
  have hlive : after.livePostings = before.livePostings := by
    rw [InMemoryStore.livePostings, InMemoryStore.livePostings, hpostings]
  refine ⟨fun key _ => ?_, fun posting hposting _ => ?_, fun posting hposting _ => ?_,
    fun key room _ _ hsound => ⟨fun hpoints => ?_, ?_, ?_⟩⟩
  · rw [InMemoryStore.liveBalance, hlive, takenFrom, keyTotal_nil, sub_zero]
    rfl
  · rwa [hlive]
  · exact .inl (hlive ▸ hposting)
  · have hindexed := hsound.indexed (by rwa [InMemoryStore.pointsOf, ← hprojections])
    unfold IndexedFor InMemoryStore.filedUnder at hindexed ⊢
    rwa [htransfers, hfiled]
  · intro point hpoint
    rw [InMemoryStore.pointsOf, hprojections] at hpoint
    have hcovers := hsound.covers point hpoint
    unfold changeByAll changeBy InMemoryStore.coveredBy InMemoryStore.transfersOf at hcovers ⊢
    rwa [hpostings, htransfers, hfiled]
  · intro point hpoint
    rw [InMemoryStore.pointsOf, hprojections] at hpoint
    have hshort := hsound.short point hpoint
    unfold InMemoryStore.tailOf InMemoryStore.transfersOf at hshort ⊢
    rwa [htransfers, hfiled]

end PaidOut

/-! ## A settlement that is applied -/

section Applied

variable {watched : AccountId → Prop} {store : InMemoryStore} {clock : Clock} {order : IterationOrder}
  {req : CommitRequest} {consumed : List Posting} {key : BalanceKey}

/-- The request takes positive postings under one key, and the watched accounts get
nothing but change under it. -/
structure TakesUnder (watched : AccountId → Prop) (store : InMemoryStore) (req : CommitRequest)
    (key : BalanceKey) : Prop where
  creates : ∀ posting ∈ req.record.envelope.creates, watched posting.owner →
    posting.key = key ∧ 0 < posting.value.val
  consumes : ∀ id ∈ req.record.envelope.consumes, ∃ posting,
    store.postings.active.lookup id = some posting ∧ posting.key = key ∧ 0 < posting.value.val
  short : req.record.envelope.creates.length ≤ 65536

/-- What is not positive stays live. -/
theorem TakesUnder.kept (htakes : TakesUnder watched store req key) (hconsistent : Consistent store)
    (hvalid : Validated store req consumed) (hfresh : req.transferId ∉ store.transfers)
    {posting : Posting} (hposting : posting ∈ store.livePostings) (hvalue : ¬0 < posting.value.val) :
    posting ∈ (store.applyCommit clock req).livePostings := by
  have hreserved : (store.applyCommit clock req).postings.reserved = ∅ := by
    rw [InMemoryStore.applyCommit_reserved, hconsistent.reserved]
  rw [InMemoryStore.mem_livePostings hconsistent.reserved] at hposting
  obtain ⟨id, hlookup⟩ := hposting
  refine (InMemoryStore.mem_livePostings hreserved).mpr ⟨id, ?_⟩
  have hcreated := ((hconsistent.mem_active id).mp
    (HashMap.mem_iff_exists_lookup.mpr ⟨posting, hlookup⟩)).1
  have hmade : ∀ created ∈ req.create, created.id ≠ id := by
    rintro created hmem rfl
    rw [hvalid.create] at hmem
    have hid : created.id ∈ createdPostingIds req.transferId req.record.envelope.creates := by
      rw [← map_id_createdPostings]
      exact List.mem_map_of_mem hmem
    exact not_created_of_fresh hfresh hid hcreated
  have hunspent : id ∉ req.consume := by
    intro hid
    rw [hvalid.consume] at hid
    obtain ⟨spent, hspent, _, hpositive⟩ := htakes.consumes id hid
    rw [hlookup] at hspent
    cases hspent
    exact hvalue hpositive
  rw [InMemoryStore.applyCommit_active, HashMap.lookup_insertAll_of_notMem hmade,
    HashMap.lookup_eraseAll, if_neg hunspent, hlookup]

/-- What has become live for a watched account is change. -/
theorem TakesUnder.fresh (htakes : TakesUnder watched store req key) (hconsistent : Consistent store)
    (hvalid : Validated store req consumed) {posting : Posting}
    (hposting : posting ∈ (store.applyCommit clock req).livePostings)
    (howner : watched posting.owner) :
    posting ∈ store.livePostings ∨ 0 < posting.value.val ∧ posting.key = key := by
  have hreserved : (store.applyCommit clock req).postings.reserved = ∅ := by
    rw [InMemoryStore.applyCommit_reserved, hconsistent.reserved]
  rw [InMemoryStore.mem_livePostings hreserved, InMemoryStore.applyCommit_active] at hposting
  obtain ⟨id, hlookup⟩ := hposting
  obtain ⟨hmade, _⟩ | ⟨hold, _⟩ := HashMap.lookup_insertAll_cases hlookup
  · rw [hvalid.create] at hmade
    obtain ⟨source, hsource, hsame, hasset, hvalue⟩ := exists_of_mem_createdPostings hmade
    obtain ⟨hkey, hpositive⟩ := htakes.creates source hsource (hsame ▸ howner)
    right
    rw [hvalue, ← hkey, Posting.key, NewPosting.key, hsame, hasset]
    exact ⟨hpositive, rfl⟩
  · rw [HashMap.lookup_eraseAll] at hold
    split at hold
    next => cases hold
    next => exact .inl ((InMemoryStore.mem_livePostings hconsistent.reserved).mpr ⟨id, hold⟩)

/-- The transfer changes no other balance of a watched account whose transfers are
all indexed. -/
theorem TakesUnder.changeBy_eq_zero (htakes : TakesUnder watched store req key)
    (haccounted : Accounted store) (hvalid : Validated store req consumed) {other : BalanceKey}
    (hother : watched other.1) (hne : other ≠ key) (hindexed : IndexedFor store other.1) :
    changeBy (store.applyCommit clock req) req.record other = 0 := by
  rw [changeBy, hvalid.recorded clock, keyTotal_eq_zero, keyTotal_eq_zero, sub_zero]
  · intro posting hposting hkey
    obtain ⟨id, hid, hrecorded⟩ := hvalid.found.exists_of_mem_right hposting
    obtain ⟨live, hlive, hunder, _⟩ := htakes.consumes id hid
    have hsame := haccounted.eq_recorded hindexed hlive hrecorded
      (.inr (congrArg Prod.fst hkey))
    rw [← hsame, hunder] at hkey
    exact hne hkey.symm
  · intro posting hposting hkey
    have howner : posting.owner = other.1 := congrArg Prod.fst hkey
    rw [(htakes.creates posting hposting (howner ▸ hother)).1] at hkey
    exact hne hkey.symm

/-- The cache points of the other keys stay sound. -/
theorem TakesUnder.caches (htakes : TakesUnder watched store req key) (haccounted : Accounted store)
    (hvalid : Validated store req consumed) (hfresh : req.transferId ∉ store.transfers)
    {other : BalanceKey} (hother : watched other.1) (hne : other ≠ key) {room : Nat}
    (hsound : CacheSound store other (room + 1)) :
    CacheSound (store.applyCommit clock req) other room := by
  have hpoints : (store.applyCommit clock req).pointsOf other = store.pointsOf other := by
    rw [InMemoryStore.pointsOf, InMemoryStore.applyCommit_projections]
    rfl
  have hstored : ∀ record ∈ store.transfersOf other.1,
      changeBy (store.applyCommit clock req) record other = changeBy store record other := by
    intro record hrecord
    obtain ⟨tid, hlookup, _⟩ := InMemoryStore.mem_transfersOf.mp hrecord
    rw [changeBy, changeBy, recorded_applyCommit haccounted.consistent hlookup]
  have htransfers : (store.applyCommit clock req).transfersOf other.1 =
      (if other.1 ∈ req.involved then [req.record] else []) ++ store.transfersOf other.1 :=
    transfersOf_applyCommit haccounted.catalogued hfresh other.1
  constructor
  · intro hsome
    have hindexed := hsound.indexed (hpoints ▸ hsome)
    intro tid record hlookup hfiled
    rw [lookup_transfers_applyCommit] at hlookup
    rw [filedUnder_applyCommit] at hfiled
    split at hlookup
    next =>
      cases hlookup
      exact htakes.short
    next hother =>
      rw [if_neg hother] at hfiled
      exact hindexed tid record hlookup hfiled
  · intro point hpoint
    rw [hpoints] at hpoint
    have hindexed := hsound.indexed (List.ne_nil_of_mem hpoint)
    have hzero : changeBy (store.applyCommit clock req) req.record other = 0 :=
      htakes.changeBy_eq_zero haccounted hvalid hother hne hindexed
    rw [hsound.covers point hpoint, InMemoryStore.coveredBy, InMemoryStore.coveredBy, htransfers,
      List.filter_append, changeByAll_append]
    have hnew : changeByAll (store.applyCommit clock req) ((if other.1 ∈ req.involved then
        [req.record] else []).filter (¬saturatingAdd point.watermark 1 ≤ ·.createdAt)) other = 0 := by
      refine List.sum_eq_zero fun value hvalue => ?_
      obtain ⟨record, hrecord, rfl⟩ := List.mem_map.mp hvalue
      have hmem := (List.mem_filter.mp hrecord).1
      split at hmem
      next => rw [List.mem_singleton.mp hmem, hzero]
      next => cases hmem
    rw [hnew, zero_add, changeByAll, changeByAll]
    refine congrArg List.sum (List.map_congr_left fun record hrecord => ?_)
    exact (hstored record (List.mem_filter.mp hrecord).1).symm
  · intro point hpoint
    rw [hpoints] at hpoint
    have hshort := hsound.short point hpoint
    rw [InMemoryStore.tailOf] at hshort ⊢
    rw [htransfers, List.filter_append, List.length_append]
    have hnew : ((if other.1 ∈ req.involved then [req.record] else []).filter
        (saturatingAdd point.watermark 1 ≤ ·.createdAt)).length ≤ 1 := by
      refine (List.length_filter_le _ _).trans ?_
      split <;> simp
    omega

theorem TakesUnder.paidOut (htakes : TakesUnder watched store req key) {amount : Cent}
    (haccounted : Accounted store) (hvalid : Validated store req consumed)
    (hfresh : req.transferId ∉ store.transfers)
    (hbalances : ∀ other, watched other.1 → (store.applyCommit clock req).liveBalance other =
      store.liveBalance other - if key = other then amount.val else 0) :
    PaidOut watched [(key, amount)] store (store.applyCommit clock req) where
  balances other hother := by
    rw [hbalances other hother, takenFrom, keyTotal_cons, keyTotal_nil, add_zero]
  kept _ hposting hvalue := htakes.kept haccounted.consistent hvalid hfresh hposting hvalue
  fresh _ hposting howner := by
    rw [List.map_singleton, List.mem_singleton]
    exact htakes.fresh haccounted.consistent hvalid hposting howner
  caches other room hother hne hsound := by
    rw [List.map_singleton, List.mem_singleton] at hne
    exact htakes.caches haccounted hvalid hfresh hother hne hsound

end Applied

/-! ## Settlements and closings that run alone -/

section Alone

variable {watched : AccountId → Prop} {before after : World} {book : BookId}
  {hold target : AccountId} {asset : AssetId} {amount : Cent} {metadata : Metadata}
  {receipt : Receipt}

omit [Sha256] in
theorem outgoing_settlingTransfer (key : BalanceKey) :
    (settlingTransfer book hold target asset amount metadata).outgoing key =
      if (hold, asset) = key then amount.val else 0 := by
  rw [Transfer.outgoing, settlingTransfer, keyTotal_cons, keyTotal_nil, add_zero]
  rfl

omit [Sha256] in
theorem incoming_settlingTransfer (key : BalanceKey) :
    (settlingTransfer book hold target asset amount metadata).incoming key =
      if (target, asset) = key then amount.val else 0 := by
  rw [Transfer.incoming, settlingTransfer, keyTotal_cons, keyTotal_nil, add_zero]
  rfl

/-- What a settlement resolves to takes positive postings of the hold, and gives
change back. -/
theorem Resolved.takesUnder {store : InMemoryStore} {envelope : Envelope} {spent : List Posting}
    {extra : List NewPosting} {req : CommitRequest}
    (hresolved : Resolved store (settlingTransfer book hold target asset amount metadata) envelope
      spent extra) (hnonzero : ∀ posting ∈ extra, posting.value.val ≠ 0)
    (hmadeUp : MadeUp (settlingTransfer book hold target asset amount metadata) extra)
    (hconsistent : Consistent store) (hsafe : OverdraftSafe store)
    (hforbids : ∃ account ∈ store.versions hold, account.forbidsOverdraft = true)
    (htarget : ¬watched target) (hcreates : req.record.envelope.creates = envelope.creates)
    (hconsumes : req.record.envelope.consumes = envelope.consumes) :
    TakesUnder watched store req (hold, asset) where
  creates posting hposting howner := by
    rw [hcreates, hresolved.creates] at hposting
    rcases List.mem_append.mp hposting with hcredit | hextra
    · rw [settlingTransfer, List.map_singleton, List.mem_singleton] at hcredit
      subst hcredit
      exact absurd howner htarget
    · have howed := hmadeUp.owed posting hextra
      rw [outgoing_settlingTransfer] at howed
      have hkey : (hold, asset) = posting.key := by
        by_contra hne
        rw [if_neg hne] at howed
        exact absurd howed (lt_irrefl 0)
      refine ⟨hkey.symm, ?_⟩
      have hzero := hnonzero posting hextra
      by_contra hnegative
      obtain ⟨other, hlatest, hpermits⟩ := hresolved.permits posting hextra (by omega)
      obtain ⟨account, haccount, hforbids⟩ := hforbids
      have hhold : posting.owner = hold := (congrArg Prod.fst hkey).symm
      rw [hhold] at hlatest
      have hsame := hsafe.uniform hold account haccount other
        (InMemoryStore.mem_versions_of_latest hlatest)
      rw [hforbids, hpermits] at hsame
      cases hsame
  consumes id hid := by
    rw [hconsumes, hresolved.consumes] at hid
    obtain ⟨posting, hposting, rfl⟩ := List.mem_map.mp hid
    refine ⟨posting, hresolved.lookup_active hconsistent hposting, ?_, ?_⟩
    · have hdebited := hresolved.debited posting hposting
      rw [outgoing_settlingTransfer] at hdebited
      by_contra hne
      rw [if_neg (Ne.symm hne)] at hdebited
      exact absurd hdebited (lt_irrefl 0)
    · have hpositive := (List.mem_filter.mp (hresolved.mem_active hposting)).2
      exact Cent.isPositive_iff.mp hpositive
  short := by
    rw [hcreates]
    have hlength : envelope.creates.length ≤ 2 * 1 := hresolved.length_creates_le
    omega

/-- A settlement that stores a new transfer has paid its amount out of the hold. -/
theorem commit_paidOut (haccounted : Accounted before.store) (hsafe : OverdraftSafe before.store)
    (hforbids : ∃ account ∈ before.store.versions hold, account.forbidsOverdraft = true)
    (hamount : 0 < amount.val) (htarget : ¬watched target)
    (halone : Alone (commit (settlingTransfer book hold target asset amount metadata)) before
      (.ok receipt) after) (hnew : receipt.transferId ∉ before.store.transfers) :
    PaidOut watched [((hold, asset), amount)] before.store after.store := by
  obtain ⟨_, herror, _⟩ | ⟨envelope, middle, spent, extra, pinned, hresolve, hresolved, hpinned,
    hends⟩ := commit_alone haccounted.wellFormed halone
  · cases herror
  obtain ⟨hcreates, hconsumes⟩ := creates_of_pinnedIn hpinned
  obtain ⟨_, others, hothers, hmadeUp, hnonzero⟩ := resolve_alone_nonzero hresolve
  have hsame : extra = others := by
    have heq := hresolved.creates.symm.trans hothers.creates
    exact List.append_cancel_left heq
  subst hsame
  generalize after.store = later at hends ⊢
  cases hends with
  | stored hlookup =>
      have hfiled := haccounted.faithful.filed _ _ hlookup
      exact absurd (HashMap.mem_iff_exists_lookup.mpr ⟨_, hlookup⟩) (hfiled ▸ hnew)
  | applied clock hvalid henvelope hfresh hguards =>
      rw [← henvelope] at hcreates hconsumes
      have htakes := hresolved.takesUnder hnonzero hmadeUp haccounted.consistent hsafe hforbids
        htarget hcreates hconsumes
      refine htakes.paidOut haccounted hvalid hfresh fun other hother => ?_
      have hne : (target, asset) ≠ other := by
        rintro rfl
        exact htarget hother
      rw [hresolved.liveBalance_applyCommit clock haccounted.consistent (hcreates ▸ htakes.short)
        hvalid hconsumes hcreates hfresh hguards, incoming_settlingTransfer, if_neg hne, add_zero,
        outgoing_settlingTransfer]
      split <;> omega

omit [Sha256] in
/-- A transition that runs alone appends its version, and changes nothing else. -/
theorem transition_alone {id : AccountId} {change : LifecycleChange}
    (hwell : WellFormed before.store) (halone : Alone (transition id change) before (.ok ()) after) :
    PaidOut watched [] before.store after.store ∧
      after.store.transfers = before.store.transfers ∧
      ∃ current, after.store.latest id = some (change.nextVersion current) := by
  obtain ⟨read, first, hread, hrest⟩ := alone_bind_ok_iff.mp halone
  obtain ⟨choice, hvalue, rfl⟩ := alone_read_iff.mp hread
  cases hvalue
  obtain ⟨current, second, hcurrent, hrest⟩ := alone_bind_ok_iff.mp hrest
  obtain ⟨hfound, rfl⟩ := alone_attempt_iff.mp hcurrent
  have hlatest := InMemoryStore.getAccount_eq_ok_iff.mp (Except.mapError_eq_ok_iff.mp hfound.symm)
  have hid : current.id = id :=
    hwell.versions id current (InMemoryStore.mem_versions_of_latest hlatest)
  split at hrest
  next => cases (alone_throw_iff.mp hrest).1
  next hopen =>
    split at hrest
    next => cases (alone_throw_iff.mp hrest).1
    next hroom =>
      obtain ⟨now, third, hnow, hrest⟩ := alone_bind_ok_iff.mp hrest
      have hthird := ReadOnly.nowMillis.store_eq hnow
      obtain ⟨returned, fourth, hact, hrest⟩ := alone_bind_ok_iff.mp hrest
      obtain ⟨later, hreturned, rfl⟩ := alone_act_iff.mp hact
      obtain ⟨outcome, fifth, houtcome, hresult⟩ := alone_bind_ok_iff.mp hrest
      obtain ⟨hmapped, rfl⟩ := alone_attempt_iff.mp houtcome
      obtain ⟨hok, rfl⟩ := alone_attempt_iff.mp hresult
      cases hreturned
      have hmapped := Except.mapError_eq_ok_iff.mp hmapped.symm
      rw [hthird] at hmapped ⊢
      let event : LedgerEvent :=
        { seq := 0, timestamp := now, kind := change.makeEvent id (change.nextVersion current).version }
      obtain ⟨_, hnapplied, hnalready⟩ | ⟨_, latest, hsame, _, hle⟩ |
        ⟨latest, hsame, _, _, _, hmoved⟩ :=
          before.store.commitTransition_cases later.clock (change.nextVersion current) event
      · cases outcome with
        | applied => exact absurd hmapped hnapplied
        | alreadyApplied => exact absurd hmapped hnalready
        | rejected reason => cases reason <;> cases hok
      · -- nobody else has appended the version, so it is not there
        have hnext : (change.nextVersion current).id = id := hid
        rw [hnext, hlatest] at hsame
        cases hsame
        have hsucc : (change.nextVersion current).version.toNat = current.version.toNat + 1 := by
          change (current.version + 1).toNat = _
          have hlt := current.version.toNat_lt
          rw [UInt64.toNat_add, UInt64.toNat_one, Nat.mod_eq_of_lt (by omega)]
        have hle := UInt64.le_iff_toNat_le.mp hle
        omega
      · rw [hmoved]
        refine ⟨.of_same ?_ ?_ ?_ ?_, ?_, current, ?_⟩
        · simp
        · simp
        · simp
        · simp
        · simp
        · have hnext : (change.nextVersion current).id = id := hid
          simp [InMemoryStore.latest, InMemoryStore.versions, hnext]

omit [Sha256] in
/-- An account that owns nothing is found without live postings. -/
theorem hasLivePostings_alone {account : AccountId} {live : Bool}
    (hnothing : OwnsNothing before.store account)
    (halone : Alone (hasLivePostings account) before (.ok live) after) : live = false := by
  obtain ⟨postings, middle, hread, hpure⟩ := alone_bind_ok_iff.mp halone
  obtain ⟨choice, hvalue, rfl⟩ := alone_read_iff.mp hread
  cases hvalue
  cases (alone_pure_iff.mp hpure).1
  rw [Bool.not_eq_false', List.isEmpty_iff, List.eq_nil_iff_forall_not_mem]
  intro posting hposting
  have hfound := List.mem_filter.mp ((List.perm_insertionSort _ _).mem_iff.mp hposting)
  have hmem := (InMemoryStore.postingsOf_live_perm choice.order).mem_iff.mp hfound.1
  apply hnothing posting hmem
  obtain ⟨id, sub⟩ := account
  obtain ⟨_, ⟨ownerId, ownerSub⟩, _⟩ := posting
  simpa [AccountId.mk.injEq] using hfound.2

omit [Sha256] in
/-- Closing a hold that is drained moves no funds. A hold that owns nothing is closed
afterwards. -/
theorem closeIfDrained_alone (hwell : WellFormed before.store)
    (halone : Alone (closeIfDrained hold) before (.ok ()) after) :
    PaidOut watched [] before.store after.store ∧
      after.store.transfers = before.store.transfers ∧
      (OwnsNothing before.store hold → Closed after.store hold) := by
  have hsame : PaidOut watched [] before.store before.store := .of_same rfl rfl rfl rfl
  obtain ⟨live, first, hlive, hrest⟩ := alone_bind_ok_iff.mp halone
  have hfirst := (hasLivePostings_readOnly hold).store_eq hlive
  cases live with
  | true =>
      obtain ⟨_, rfl⟩ := alone_pure_iff.mp hrest
      rw [hfirst]
      refine ⟨hsame, rfl, fun hnothing => ?_⟩
      cases hasLivePostings_alone hnothing hlive
  | false =>
      obtain ⟨read, second, hread, hrest⟩ := alone_bind_ok_iff.mp hrest
      obtain ⟨choice, hvalue, rfl⟩ := alone_read_iff.mp hread
      cases hvalue
      obtain ⟨account, third, haccount, hrest⟩ := alone_bind_ok_iff.mp hrest
      obtain ⟨hfound, rfl⟩ := alone_attempt_iff.mp haccount
      rw [hfirst] at hfound hrest
      have hlatest := InMemoryStore.getAccount_eq_ok_iff.mp
        (Except.mapError_eq_ok_iff.mp hfound.symm)
      split at hrest
      next hclosed =>
        obtain ⟨_, rfl⟩ := alone_pure_iff.mp hrest
        exact ⟨hsame, rfl, fun _ => ⟨account, hlatest, hclosed⟩⟩
      next =>
        obtain ⟨again, fourth, hagain, hrest⟩ := alone_bind_ok_iff.mp hrest
        have hfourth := (hasLivePostings_readOnly hold).store_eq hagain
        split at hrest
        next => cases (alone_throw_iff.mp hrest).1
        next =>
          rw [← hfourth] at hwell ⊢
          obtain ⟨hpaid, htransfers, current, hnew⟩ := transition_alone hwell hrest
          exact ⟨hpaid, htransfers, fun _ =>
            ⟨_, hnew, LifecycleChange.holds_nextVersion .close current⟩⟩

end Alone

end Kuatia
