import Kuatia.Ledger.Acceptance
import Kuatia.Ledger.Balances
import Kuatia.Ledger.Sample

/-! # An index that wraps

The index of a created posting is a `u16`. The 65537th posting of a transfer
takes the id of the first: the active table keeps the later one and the
immutable table the earlier one.
-/

namespace Kuatia

open LedgerM

section Theory

variable [MoneyWidth]

/-- The posting with the given id that an entry of a transfer creates. -/
def NewPosting.withId (posting : NewPosting) (id : PostingId) : Posting :=
  ⟨id, posting.owner, posting.asset, posting.value⟩

@[simp] theorem withId_id (posting : NewPosting) (id : PostingId) :
    (posting.withId id).id = id := rfl

/-- The first and the last of 65537 created postings have one id. Without the
first one the ids are distinct. -/
theorem createdPostings_wrapped (tid : EnvelopeId) (first last : NewPosting)
    {middle : List NewPosting} (hlength : middle.length = 65535) :
    ∃ between, createdPostings tid (first :: middle ++ [last]) =
        first.withId ⟨tid, 0⟩ :: between ++ [last.withId ⟨tid, 0⟩] ∧
      createdPostings tid (last :: middle) = last.withId ⟨tid, 0⟩ :: between ∧
      ∀ posting ∈ between, ∃ source ∈ middle, posting.key = source.key := by
  refine ⟨middle.mapIdx fun i posting => posting.withId ⟨tid, UInt16.ofNat (i + 1)⟩, ?_, ?_, ?_⟩
  · have hlast : (first :: middle).length = 65536 := by rw [List.length_cons, hlength]
    rw [createdPostings, List.mapIdx_concat, List.mapIdx_cons, hlast]
    rfl
  · rw [createdPostings, List.mapIdx_cons]
    rfl
  · intro posting hposting
    obtain ⟨i, hi, rfl⟩ := List.mem_mapIdx.mp hposting
    exact ⟨middle[i], List.getElem_mem hi, rfl⟩

/-- Of such a transfer all postings but the first become active. -/
theorem keyTotal_activated_wrapped (tid : EnvelopeId) (first last : NewPosting)
    {middle : List NewPosting} (hlength : middle.length = 65535) (key : BalanceKey) :
    keyTotal Posting.key Posting.value
        (activated (createdPostings tid (first :: middle ++ [last]))) key =
      keyTotal NewPosting.key NewPosting.value (last :: middle) key := by
  obtain ⟨between, hcreated, hrest, _⟩ := createdPostings_wrapped tid first last hlength
  have hindex : (last :: middle).length ≤ 65536 := by rw [List.length_cons, hlength]
  have hnodup : ((createdPostings tid (last :: middle)).map (·.id)).Nodup :=
    nodup_map_id_createdPostings hindex
  have hrotated : (between ++ [last.withId ⟨tid, 0⟩]).Perm (createdPostings tid (last :: middle)) :=
    hrest ▸ List.perm_append_singleton _ _
  have hactivated : (activated (createdPostings tid (first :: middle ++ [last]))).Perm
      (createdPostings tid (last :: middle)) := by
    have hsame : ∀ id : PostingId,
        (HashMap.insertAll ∅ (·.id) (first.withId ⟨tid, 0⟩ ::
          (between ++ [last.withId ⟨tid, 0⟩]))).lookup id =
        (HashMap.insertAll ∅ (·.id) (between ++ [last.withId ⟨tid, 0⟩])).lookup id :=
      HashMap.lookup_insertAll_shadowed (List.mem_append_right _ List.mem_cons_self) rfl
    rw [hcreated]
    refine (HashMap.values_perm hsame).trans ?_
    exact (activated_perm ((hrotated.map _).nodup_iff.mpr hnodup)).trans hrotated
  rw [keyTotal_perm hactivated, keyTotal_createdPostings]

/-- After such a transfer the last posting is active in the place of the first,
which is the one on record. -/
theorem lookup_applyCommit_wrapped {store : InMemoryStore} (clock : Clock) {req : CommitRequest}
    {tid : EnvelopeId} {first last : NewPosting} {middle : List NewPosting}
    (hlength : middle.length = 65535)
    (hcreate : req.create = createdPostings tid (first :: middle ++ [last]))
    (hfresh : (⟨tid, 0⟩ : PostingId) ∉ store.postings.immutable) :
    (store.applyCommit clock req).postings.active.lookup ⟨tid, 0⟩ =
        some (last.withId ⟨tid, 0⟩) ∧
      (store.applyCommit clock req).postings.immutable.lookup ⟨tid, 0⟩ =
        some (first.withId ⟨tid, 0⟩) := by
  obtain ⟨between, hcreated, _⟩ := createdPostings_wrapped tid first last hlength
  rw [InMemoryStore.applyCommit_active, InMemoryStore.applyCommit_immutable, hcreate, hcreated]
  constructor
  · have hnone : ∀ other ∈ ([] : List Posting), other.id ≠ (last.withId ⟨tid, 0⟩).id := nofun
    exact HashMap.lookup_insertAll_of_split hnone
  · rw [List.cons_append, InMemoryStore.insertMissing_cons, if_neg (withId_id first _ ▸ hfresh)]
    exact InMemoryStore.lookup_insertMissing_of_mem (AList.lookup_insert _)

end Theory

namespace Sample

/-- Two accounts that may be overdrawn. -/
@[irreducible] def opened : List LedgerAction :=
  sequentially [.createAccount (.new external), .createAccount (.new bob)]

theorem opened_tables : (storeAfter ledger opened).postings.active = ∅ ∧
    (storeAfter ledger opened).postings.immutable = ∅ ∧
    (storeAfter ledger opened).transfers = ∅ ∧ (storeAfter ledger opened).books = ∅ := by
  have hentries : (storeAfter ledger opened).postings.active.entries = [] ∧
      (storeAfter ledger opened).postings.immutable.entries = [] ∧
      (storeAfter ledger opened).transfers.entries = [] ∧
      (storeAfter ledger opened).books.entries = [] := by decide +kernel
  obtain ⟨hactive, himmutable, htransfers, hbooks⟩ := hentries
  exact ⟨AList.ext hactive, AList.ext himmutable, AList.ext htransfers, AList.ext hbooks⟩

theorem opened_accounts :
    (storeAfter ledger opened).latest external = some (.new external) ∧
      (storeAfter ledger opened).latest bob = some (.new bob) := by
  decide +kernel

theorem unrestricted_new {store : InMemoryStore} {id : AccountId}
    (hlatest : store.latest id = some (.new id)) : Unrestricted store id := by
  have hflags : AccountFlags.empty.contains .FROZEN = false ∧
      AccountFlags.empty.contains .CLOSED = false ∧
      AccountFlags.empty.contains .DEBIT_MUST_NOT_EXCEED_CREDIT = false := by decide
  exact ⟨_, hlatest, hflags⟩

/-- Postings that two accounts give each other out of nothing are accepted. -/
theorem acceptable_between {store : InMemoryStore}
    (haccounts : store.latest external = some (.new external) ∧ store.latest bob = some (.new bob))
    (hbooks : store.books = ∅) {creates : List NewPosting} {metadata : Metadata}
    (hcreates : creates ≠ [])
    (howners : ∀ posting ∈ creates, posting.owner = external ∨ posting.owner = bob)
    (hbalanced : ∀ asset, keyTotal NewPosting.asset NewPosting.value creates asset = 0)
    (hroom : store.liveMagnitude + Cent.magnitude (creates.map NewPosting.value) ≤
      Backing.max MoneyWidth.backing) :
    Acceptable store ⟨[], creates, [accountSnapshotId (.new external), accountSnapshotId (.new bob)],
      DEFAULT_BOOK, metadata⟩ [] := by
  constructor
  constructor
  case creates => exact hcreates
  case nodup => exact .nil
  case found => exact .nil
  case owners =>
    intro id hid
    obtain ⟨posting, hposting, rfl⟩ := List.mem_map.mp (hid.resolve_right List.not_mem_nil)
    rcases howners posting hposting with howner | howner
    · exact howner ▸ unrestricted_new haccounts.1
    · exact howner ▸ unrestricted_new haccounts.2
  case pins =>
    intro snapshot hsnapshot
    rcases List.mem_pair.mp hsnapshot with rfl | rfl
    · exact ⟨_, haccounts.1, rfl⟩
    · exact ⟨_, haccounts.2, rfl⟩
  case book => rfl
  case unrestricted =>
    rw [hbooks]
    exact AList.notMem_empty _
  case room =>
    rw [List.map_nil, Cent.magnitude_nil, add_zero]
    exact hroom
  case pinned => exact List.cons_ne_nil _ _
  case active => exact fun id hid => absurd hid List.not_mem_nil
  case balanced => exact fun asset => (hbalanced asset).symm

def smaller : NewPosting := ⟨bob, usd, .ofI64 5, none⟩

def larger : NewPosting := ⟨bob, usd, .ofI64 7, none⟩

/-- What the external account gives, and many postings of nothing. -/
@[irreducible] def filler : List NewPosting :=
  ⟨external, usd, .ofI64 (-12), none⟩ :: .replicate 65534 ⟨external, usd, .ZERO, none⟩

/-- 65537 postings, of which the first and the last are bob's. -/
def crowded : Envelope where
  consumes := []
  creates := smaller :: filler ++ [larger]
  accountSnapshots := [accountSnapshotId (.new external), accountSnapshotId (.new bob)]
  book := DEFAULT_BOOK
  metadata := .single "nonce" (.replicate 32 1)

/-- The same with other owners of the first and the last posting. -/
def crowd (payee heir : AccountId) : Envelope :=
  { crowded with creates := { smaller with owner := payee } :: filler ++
      [{ larger with owner := heir }] }

theorem length_filler : filler.length = 65535 := by
  rw [filler, List.length_cons, List.length_replicate]

theorem key_of_mem_filler {posting : NewPosting} (hposting : posting ∈ filler) :
    posting.key = (external, usd) := by
  rw [filler] at hposting
  rcases List.mem_cons.mp hposting with rfl | hposting
  · rfl
  · rw [List.eq_of_mem_replicate hposting]
    rfl

section Crowd

variable {payee heir : AccountId}

theorem key_of_mem_crowd {posting : NewPosting} (hposting : posting ∈ (crowd payee heir).creates) :
    posting.key = (external, usd) ∨ posting.key = (payee, usd) ∨ posting.key = (heir, usd) := by
  rcases List.mem_append.mp hposting with hposting | hposting
  · rcases List.mem_cons.mp hposting with rfl | hposting
    · exact .inr (.inl rfl)
    · exact .inl (key_of_mem_filler hposting)
  · rw [List.mem_singleton.mp hposting]
    exact .inr (.inr rfl)

theorem map_value_crowd : (crowd payee heir).creates.map NewPosting.value =
    .ofI64 5 :: .ofI64 (-12) :: List.replicate 65534 .ZERO ++ [.ofI64 7] := by
  change (_ :: filler ++ [_]).map NewPosting.value = _
  rw [List.map_append, List.map_cons, filler, List.map_cons, List.map_replicate]
  rfl

theorem magnitude_crowd :
    Cent.magnitude ((crowd payee heir).creates.map NewPosting.value) = 24 := by
  have hzeros : Cent.magnitude (List.replicate 65534 .ZERO) = 0 := by
    rw [Cent.magnitude, List.map_replicate, List.sum_replicate]
    rfl
  rw [map_value_crowd, Cent.magnitude_append, Cent.magnitude_cons, Cent.magnitude_cons, hzeros]
  decide

theorem crowd_balanced (asset : AssetId) :
    keyTotal NewPosting.asset NewPosting.value (crowd payee heir).creates asset = 0 := by
  have hasset : ∀ posting ∈ (crowd payee heir).creates, posting.asset = usd := by
    intro posting hposting
    rcases key_of_mem_crowd hposting with hkey | hkey | hkey <;> exact congrArg Prod.snd hkey
  have hsum : ((crowd payee heir).creates.map fun posting => posting.value.val).sum = 0 := by
    have hvalues := congrArg (List.map Cent.val) (@map_value_crowd payee heir)
    rw [List.map_map] at hvalues
    change (List.map (Cent.val ∘ NewPosting.value) (crowd payee heir).creates).sum = 0
    rw [hvalues, List.map_append, List.map_cons, List.map_cons, List.map_replicate, List.sum_append,
      List.sum_cons, List.sum_cons, List.sum_replicate]
    decide
  rw [keyTotal_of_key hasset, hsum, ite_self]

/-- The owners of the first and the last posting are among the two accounts. -/
def Opened (payee heir : AccountId) : Prop :=
  (payee = external ∨ payee = bob) ∧ (heir = external ∨ heir = bob)

theorem crowd_acceptable (hopened : Opened payee heir) :
    Acceptable (storeAfter ledger opened) (crowd payee heir) [] := by
  obtain ⟨hactive, _, _, hbooks⟩ := opened_tables
  refine acceptable_between opened_accounts hbooks (List.cons_ne_nil _ _)
    (fun posting hposting => ?_) crowd_balanced ?_
  · rcases key_of_mem_crowd hposting with hkey | hkey | hkey
    · exact .inl (congrArg Prod.fst hkey)
    · have howner : posting.owner = payee := congrArg Prod.fst hkey
      exact howner ▸ hopened.1
    · have howner : posting.owner = heir := congrArg Prod.fst hkey
      exact howner ▸ hopened.2
  · have hmagnitude := @magnitude_crowd payee heir
    rw [crowd] at hmagnitude
    rw [InMemoryStore.liveMagnitude,
      InMemoryStore.livePostings_of_reserved (consistent_after ledger opened).reserved, hactive,
      hmagnitude]
    decide

/-- What one meets after such a transfer: the heir owns the live posting with the
id under which the payee's is on record. -/
structure CrowdedBy (payee heir : AccountId) (store : InMemoryStore) : Prop where
  accounts : store.latest external = some (.new external) ∧ store.latest bob = some (.new bob)
  books : store.books = ∅
  transfers : ∀ id ∈ store.transfers, id = envelopeId (crowd payee heir)
  active : store.postings.active.lookup ⟨envelopeId (crowd payee heir), 0⟩ =
    some (NewPosting.withId { larger with owner := heir } ⟨envelopeId (crowd payee heir), 0⟩)
  recorded : store.postings.immutable.lookup ⟨envelopeId (crowd payee heir), 0⟩ =
    some (NewPosting.withId { smaller with owner := payee } ⟨envelopeId (crowd payee heir), 0⟩)
  keys : ∀ id posting, store.postings.active.lookup id = some posting →
    posting.key = (external, usd) ∨
      posting = NewPosting.withId { larger with owner := heir } ⟨envelopeId (crowd payee heir), 0⟩
  magnitude : store.liveMagnitude ≤ 24

theorem exists_crowd (hopened : Opened payee heir) :
    ∃ actions, CrowdedBy payee heir (storeAfter ledger actions) := by
  obtain ⟨hactive, himmutable, htransfers, hbooks⟩ := opened_tables
  have hunstored : envelopeId (crowd payee heir) ∉ (storeAfter ledger opened).transfers := by
    rw [htransfers]
    exact AList.notMem_empty _
  obtain ⟨loaded, _, halone⟩ := (crowd_acceptable hopened).admissible.commits
    (wellFormed_after ledger opened) (consistent_after ledger opened) hunstored
    (LedgerPool.after ledger opened).shared.clock 1800000000000
  obtain ⟨more, hmore⟩ := exists_run_alone ledger opened (.commitEnvelope (crowd payee heir))
    (alone_bind_ok_iff.mpr ⟨_, _, halone, alone_pure_iff.mpr ⟨rfl, rfl⟩⟩)
  let first : NewPosting := { smaller with owner := payee }
  let last : NewPosting := { larger with owner := heir }
  let req := commitRequest (crowd payee heir) (planOf (crowd payee heir)) loaded 1800000000000
  have hcreate : req.create =
      createdPostings (envelopeId (crowd payee heir)) (first :: filler ++ [last]) := rfl
  have hfresh : (⟨envelopeId (crowd payee heir), 0⟩ : PostingId) ∉
      (storeAfter ledger opened).postings.immutable := by
    rw [himmutable]
    exact AList.notMem_empty _
  obtain ⟨hlive, hrecord⟩ :=
    lookup_applyCommit_wrapped (some 1800000000000) length_filler hcreate hfresh
  refine ⟨opened ++ more, ?_⟩
  rw [storeAfter, hmore]
  change CrowdedBy payee heir
    (InMemoryStore.applyCommit (some 1800000000000) req (storeAfter ledger opened))
  constructor
  case accounts =>
    rw [InMemoryStore.latest, InMemoryStore.latest,
      InMemoryStore.versions_congr (InMemoryStore.applyCommit_accounts ..),
      InMemoryStore.versions_congr (InMemoryStore.applyCommit_accounts ..)]
    exact opened_accounts
  case books => rw [InMemoryStore.applyCommit_books, hbooks]
  case transfers =>
    intro id hid
    rw [InMemoryStore.applyCommit_transfers, AList.mem_insert, htransfers] at hid
    exact hid.resolve_right (AList.notMem_empty id)
  case active => exact hlive
  case recorded => exact hrecord
  case keys =>
    intro id posting hlookup
    have hfound := hlookup
    rw [InMemoryStore.applyCommit_active, hactive] at hfound
    -- nothing was active before, so what is found was created
    obtain ⟨hmem, rfl⟩ | ⟨hold, _⟩ := HashMap.lookup_insertAll_cases hfound
    · obtain ⟨between, hcreated, _, hkeys⟩ :=
        createdPostings_wrapped (envelopeId (crowd payee heir)) first last length_filler
      rw [hcreate, hcreated] at hmem
      rcases List.mem_append.mp hmem with hmem | hmem
      · rcases List.mem_cons.mp hmem with rfl | hmem
        · rw [withId_id, hlive] at hlookup
          exact .inr (Option.some.inj hlookup).symm
        · obtain ⟨source, hsource, hkey⟩ := hkeys posting hmem
          exact .inl (hkey.trans (key_of_mem_filler hsource))
      · exact .inr (List.mem_singleton.mp hmem)
    · cases hold
  case magnitude =>
    refine (InMemoryStore.liveMagnitude_applyCommit_le ..).trans ?_
    have hnone : (storeAfter ledger opened).liveMagnitude = 0 := by
      rw [InMemoryStore.liveMagnitude,
        InMemoryStore.livePostings_of_reserved (consistent_after ledger opened).reserved, hactive]
      rfl
    have hvalues : req.create.map Posting.value =
        (crowd payee heir).creates.map NewPosting.value :=
      map_createdPostings _ _ fun _ _ value => value
    rw [hnone, hvalues, magnitude_crowd]
    decide

end Crowd

/-- What one meets after the crowded transfer: bob owns one live posting, of
another value than the one on record. -/
abbrev Crowded (store : InMemoryStore) : Prop := CrowdedBy bob bob store

theorem exists_crowded : ∃ actions, Crowded (storeAfter ledger actions) :=
  exists_crowd ⟨.inr rfl, .inr rfl⟩

section InTheCrowd

variable {store : InMemoryStore}

/-- The posting that bob can spend. -/
theorem Crowded.available (hcrowded : Crowded store) (hconsistent : Consistent store) :
    store.getPostingsByAccount .listed bob.id (some bob.sub) (some usd) .active =
      [larger.withId ⟨envelopeId crowded, 0⟩] := by
  have hquery : (store.getPostingsByAccount .listed bob.id (some bob.sub) (some usd) .active).Perm
      (store.postings.active.values.filter (·.key = (bob, usd))) :=
    InMemoryStore.getPostingsByAccount_perm .listed (bob, usd) .active
      (InMemoryStore.postingsOf_active_perm .listed)
  have hnodup : store.postings.active.values.Nodup :=
    List.Nodup.of_map _ (HashMap.nodup_map_values hconsistent.active_keyed)
  refine List.perm_singleton.mp (hquery.trans ?_)
  rw [List.perm_ext_iff_of_nodup (hnodup.filter _) (List.nodup_singleton _)]
  intro posting
  rw [List.mem_filter, HashMap.mem_values_iff, List.mem_singleton, decide_eq_true_eq]
  constructor
  · intro hmem
    obtain ⟨⟨id, hlookup⟩, hkey⟩ := hmem
    refine (hcrowded.keys id posting hlookup).resolve_left fun hexternal => ?_
    rw [hexternal] at hkey
    exact absurd hkey (by decide)
  · intro heq
    subst heq
    exact ⟨⟨_, hcrowded.active⟩, rfl⟩

/-- A transfer that owes bob's live posting resolves to that posting. -/
theorem Crowded.resolve (hcrowded : Crowded store) (hconsistent : Consistent store)
    {transfer : Transfer} {creates : List NewPosting}
    (hdraft : draftMovements .listed transfer = .ok ⟨creates, [⟨bob, usd, .ofI64 7⟩]⟩)
    (howners : (creates.map (·.owner)).sortDedup (· ≤ ·) = [external]) (clock : Clock) :
    Alone (Kuatia.resolve transfer) ⟨store, clock⟩
      (.ok ⟨[⟨envelopeId crowded, 0⟩], creates, [accountSnapshotId (.new external)], transfer.book,
        transfer.metadata⟩) ⟨store, none⟩ := by
  let live := larger.withId ⟨envelopeId crowded, 0⟩
  let state : ResolveState := ⟨.insert (bob, usd) [live] ∅, .insert bob (.new bob) ∅⟩
  have hload : Alone (List.foldlM loadDebit ⟨∅, ∅⟩ [⟨bob, usd, .ofI64 7⟩]) ⟨store, none⟩
      (.ok state) ⟨store, none⟩ := by
    refine alone_bind_ok_iff.mpr ⟨state, ⟨store, none⟩, ?_,
      alone_pure_iff.mpr ⟨rfl, rfl⟩⟩
    refine alone_bind_ok_iff.mpr
      ⟨[live], ⟨store, none⟩, alone_read_iff.mpr ⟨⟨.listed, none⟩, ?_, rfl⟩, ?_⟩
    · exact congrArg Except.ok (hcrowded.available hconsistent).symm
    refine alone_bind_ok_iff.mpr ⟨.ok (.new bob), ⟨store, none⟩,
      alone_read_iff.mpr ⟨⟨.listed, none⟩, ?_, rfl⟩, ?_⟩
    · exact congrArg Except.ok (InMemoryStore.getAccount_eq_ok_iff.mpr hcrowded.accounts.2).symm
    exact alone_bind_ok_iff.mpr ⟨.new bob, ⟨store, none⟩,
      alone_attempt_iff.mpr ⟨rfl, rfl⟩, alone_pure_iff.mpr ⟨rfl, rfl⟩⟩
  have hdebit : resolveDebit state.available state.accounts ⟨[], creates⟩ ⟨bob, usd, .ofI64 7⟩ =
      .ok ⟨[⟨envelopeId crowded, 0⟩], creates ++ []⟩ := rfl
  have henvelope : resolveEnvelope transfer ⟨creates, [⟨bob, usd, .ofI64 7⟩]⟩ state.available
      state.accounts = .ok ⟨[⟨envelopeId crowded, 0⟩], creates, [], transfer.book,
        transfer.metadata⟩ := by
    rw [List.append_nil] at hdebit
    rw [resolveEnvelope, List.foldlM_cons, hdebit]
    rfl
  have haccounts : store.getAccounts [external] = .ok [.new external] :=
    InMemoryStore.getAccounts_eq_ok_iff.mpr (.cons hcrowded.accounts.1 .nil)
  have hsnapshots : Alone (resolveSnapshots [external]) ⟨store, none⟩
      (.ok [accountSnapshotId (.new external)]) ⟨store, none⟩ := by
    refine alone_bind_ok_iff.mpr ⟨[.new external], ⟨store, none⟩, ?_,
      alone_pure_iff.mpr ⟨rfl, rfl⟩⟩
    refine alone_bind_ok_iff.mpr ⟨.ok [.new external], ⟨store, none⟩,
      alone_read_iff.mpr ⟨⟨.listed, none⟩, congrArg Except.ok haccounts.symm, rfl⟩, ?_⟩
    exact alone_attempt_iff.mpr ⟨rfl, rfl⟩
  refine alone_bind_ok_iff.mpr ⟨⟨creates, [⟨bob, usd, .ofI64 7⟩]⟩, ⟨store, none⟩, ?_, ?_⟩
  · refine alone_bind_ok_iff.mpr ⟨_, _, alone_read_iff.mpr
      ⟨⟨.listed, none⟩, rfl, rfl⟩, alone_attempt_iff.mpr ⟨?_, rfl⟩⟩
    exact (Except.mapError_eq_ok_iff.mpr hdraft).symm
  refine alone_bind_ok_iff.mpr ⟨state, ⟨store, none⟩, hload, ?_⟩
  refine alone_bind_ok_iff.mpr ⟨_, ⟨store, none⟩, alone_attempt_iff.mpr
    ⟨(Except.mapError_eq_ok_iff.mpr henvelope).symm, rfl⟩, ?_⟩
  -- what is left is to pin the one owner
  rw [Envelope.referencedAccounts, howners]
  exact alone_bind_ok_iff.mpr ⟨_, ⟨store, none⟩, hsnapshots,
    alone_pure_iff.mpr ⟨rfl, rfl⟩⟩

/-- What was selected from the active table is presentable by its record. -/
theorem Crowded.presentable (hcrowded : Crowded store) {creates : List NewPosting} (metadata : Metadata) (hcreates : creates ≠ [])
    (howners : ∀ posting ∈ creates, posting.owner = external)
    (hmagnitude : Cent.magnitude (creates.map NewPosting.value) ≤ 100) :
    Presentable store ⟨[⟨envelopeId crowded, 0⟩], creates, [accountSnapshotId (.new external)],
      DEFAULT_BOOK, metadata⟩ [smaller.withId ⟨envelopeId crowded, 0⟩] := by
  constructor
  case creates => exact hcreates
  case nodup => exact List.nodup_singleton _
  case found => exact .cons hcrowded.recorded .nil
  case owners =>
    intro id hid
    rcases hid with hid | hid
    · obtain ⟨posting, hposting, rfl⟩ := List.mem_map.mp hid
      rw [howners posting hposting]
      exact unrestricted_new hcrowded.accounts.1
    · rw [List.mem_singleton.mp hid]
      exact unrestricted_new hcrowded.accounts.2
  case pins =>
    intro snapshot hsnapshot
    rw [List.mem_singleton.mp hsnapshot]
    exact ⟨_, hcrowded.accounts.1, rfl⟩
  case book => rfl
  case unrestricted =>
    rw [hcrowded.books]
    exact AList.notMem_empty _
  case room =>
    have hlive := hcrowded.magnitude
    have hspent : Cent.magnitude ([smaller.withId ⟨envelopeId crowded, 0⟩].map Posting.value) = 5 :=
      rfl
    have hmax : (124 + 5 : Int) ≤ Backing.max MoneyWidth.backing := by decide
    rw [hspent]
    dsimp only
    omega

theorem Crowded.key_of_live (hcrowded : Crowded store) {id : PostingId} {posting : Posting}
    (hlookup : store.postings.active.lookup id = some posting) :
    posting.key = (external, usd) ∨ posting.key = (bob, usd) := by
  rcases hcrowded.keys id posting hlookup with hkey | heq
  · exact .inl hkey
  · rw [heq]
    exact .inr rfl

end InTheCrowd

end Sample

end Kuatia
