import Kuatia.Inflight.Completing
import Kuatia.Inflight.Sweeping
import Kuatia.Ledger.Retiring

/-! # What settlements move

A settlement moves an amount from a hold to a party of the trade. The postings under
every other key stay as they are, and so does every account that is not closed. What a
sequence of settlements changes is the sum of what each of them moves.
-/

namespace Kuatia

open LedgerM

variable [MoneyWidth]

/-- What some movements give less what they take, under one key. -/
def netMoved (moved : List Movement) (key : BalanceKey) : Int :=
  keyTotal Movement.destination Movement.amount moved key -
    keyTotal Movement.source Movement.amount moved key

@[simp] theorem netMoved_nil (key : BalanceKey) : netMoved [] key = 0 := rfl

theorem netMoved_append (moved more : List Movement) (key : BalanceKey) :
    netMoved (moved ++ more) key = netMoved moved key + netMoved more key := by
  rw [netMoved, netMoved, netMoved, keyTotal_append, keyTotal_append]
  omega

theorem netMoved_singleton (movement : Movement) (key : BalanceKey) :
    netMoved [movement] key = (if movement.destination = key then movement.amount.val else 0) -
      if movement.source = key then movement.amount.val else 0 := by
  rw [netMoved, keyTotal_cons, keyTotal_cons, keyTotal_nil, keyTotal_nil, add_zero, add_zero]

/-! ## Postings that stay -/

/-- The same postings are active under the key. -/
def SameUnder (key : BalanceKey) (before after : InMemoryStore) : Prop :=
  ∀ id posting, posting.key = key →
    (after.postings.active.lookup id = some posting ↔
      before.postings.active.lookup id = some posting)

namespace SameUnder

variable {key : BalanceKey} {before middle after : InMemoryStore}

theorem of_postings (hpostings : after.postings = before.postings) : SameUnder key before after := by
  intro id posting _
  rw [hpostings]

theorem trans (hfirst : SameUnder key before middle) (hsecond : SameUnder key middle after) :
    SameUnder key before after :=
  fun id posting hkey => (hsecond id posting hkey).trans (hfirst id posting hkey)

theorem values_perm (hsame : SameUnder key before after) (hbefore : Consistent before)
    (hafter : Consistent after) : (after.livePostings.filter (·.key = key)).Perm
      (before.livePostings.filter (·.key = key)) := by
  rw [InMemoryStore.livePostings_of_reserved hbefore.reserved,
    InMemoryStore.livePostings_of_reserved hafter.reserved]
  have hnodup : ∀ {store : InMemoryStore}, Consistent store →
      (store.postings.active.values.filter (·.key = key)).Nodup := fun hconsistent =>
    (List.Nodup.of_map _ (HashMap.nodup_map_values hconsistent.active_keyed)).filter _
  refine (List.perm_ext_iff_of_nodup (hnodup hafter) (hnodup hbefore)).mpr fun posting => ?_
  rw [List.mem_filter, List.mem_filter, HashMap.mem_values_iff, HashMap.mem_values_iff]
  refine and_congr_left fun hkey => exists_congr fun id => ?_
  exact hsame id posting (of_decide_eq_true hkey)

theorem liveBalance_eq (hsame : SameUnder key before after) (hbefore : Consistent before)
    (hafter : Consistent after) : after.liveBalance key = before.liveBalance key := by
  rw [InMemoryStore.liveBalance, InMemoryStore.liveBalance, keyTotal, keyTotal]
  exact ((hsame.values_perm hbefore hafter).map _).sum_eq

/-- What is listed under the key is the same, in the same order. -/
theorem listing_eq (hsame : SameUnder key before after) (hbefore : Consistent before)
    (hafter : Consistent after) (order : IterationOrder) :
    after.getPostingsByAccount order key.1.id (some key.1.sub) (some key.2) .live =
      before.getPostingsByAccount order key.1.id (some key.1.sub) (some key.2) .live := by
  have hperm := (InMemoryStore.getPostingsByAccount_live_perm order key).trans
    ((hsame.values_perm hbefore hafter).trans
      (InMemoryStore.getPostingsByAccount_live_perm order key).symm)
  have hsorted : ∀ postings : List Posting,
      postings.insertionSort (fun first second => PostingId.le first.id second.id) =
        Sql.orderBy (fun posting => posting.id.sortKey) postings :=
    fun _ => Sql.insertionSort_eq_orderBy fun _ _ => PostingId.le_iff_sortKey
  rw [InMemoryStore.getPostingsByAccount, InMemoryStore.getPostingsByAccount] at hperm ⊢
  have hlisted := (List.perm_insertionSort _ _).symm.trans
    (hperm.trans (List.perm_insertionSort _ _))
  rw [hsorted, hsorted]
  refine Sql.orderBy_congr ?_ hlisted
  have hset := (after.postingsOf_live_perm order).trans
    (.of_eq (InMemoryStore.livePostings_of_reserved hafter.reserved))
  have hkeys := ((hset.map (·.id)).nodup_iff.mpr
    (HashMap.nodup_map_values hafter.active_keyed)).map PostingId.sortKey_injective
  rw [List.map_map] at hkeys
  exact hkeys.sublist (List.filter_sublist.map _)

theorem sumsUp (hsame : SameUnder key before after) (hbefore : Consistent before)
    (hafter : Consistent after) {order : IterationOrder} (hsums : SumsUp before order key) :
    SumsUp after order key := by
  rw [SumsUp, hsame.listing_eq hbefore hafter]
  exact hsums

/-- What is recorded under the key stays so. -/
theorem recorded (hsame : SameUnder key before after)
    (hkept : ∀ id posting, before.postings.immutable.lookup id = some posting →
      after.postings.immutable.lookup id = some posting) (hrecorded : Recorded before key) :
    Recorded after key := by
  intro posting hposting hkey
  have hmem := List.mem_filter.mp hposting
  obtain ⟨id, hlookup⟩ := HashMap.mem_values_iff.mp hmem.1
  have hearlier := (hsame id posting hkey).mp hlookup
  exact hkept _ _ (hrecorded posting
    (List.mem_filter.mpr ⟨HashMap.mem_values_iff.mpr ⟨id, hearlier⟩, hmem.2⟩) hkey)

end SameUnder

/-! ## One settlement -/

section Applied

variable [Sha256] {store : InMemoryStore} {book : BookId} {hold target : AccountId}
  {asset : AssetId} {amount : Cent} {metadata : Metadata} {envelope : Envelope}
  {spent : List Posting} {extra : List NewPosting} {req : CommitRequest} {consumed : List Posting}

/-- A settlement that is applied leaves the postings under the other keys alone. -/
theorem Resolved.sameUnder
    (hresolved : Resolved store (settlingTransfer book hold target asset amount metadata) envelope
      spent extra)
    (hmadeUp : MadeUp (settlingTransfer book hold target asset amount metadata) extra)
    (hconsistent : Consistent store) (hvalid : Validated store req consumed)
    (hcreates : req.record.envelope.creates = envelope.creates)
    (hconsumes : req.record.envelope.consumes = envelope.consumes)
    (hfresh : req.transferId ∉ store.transfers) (clock : Clock) {key : BalanceKey}
    (hsource : key ≠ (hold, asset)) (htarget : key ≠ (target, asset)) :
    SameUnder key store (store.applyCommit clock req) := by
  have hmade : ∀ posting ∈ req.create, posting.key ≠ key := by
    intro posting hposting
    rw [hvalid.create, hcreates, hresolved.creates] at hposting
    obtain ⟨created, hcreated, howner, hasset, _⟩ := exists_of_mem_createdPostings hposting
    have hkey : posting.key = created.key := by rw [Posting.key, NewPosting.key, howner, hasset]
    rw [hkey]
    rcases List.mem_append.mp hcreated with hcredit | hextra
    · rw [settlingTransfer, List.map_singleton, List.mem_singleton] at hcredit
      subst hcredit
      exact Ne.symm htarget
    · rw [Sweepable.eq_of_outgoing (hmadeUp.owed created hextra)]
      exact Ne.symm hsource
  have hspent : ∀ id ∈ req.consume, ∀ posting, store.postings.active.lookup id = some posting →
      posting.key ≠ key := by
    intro id hid posting hlookup
    rw [hvalid.consume, hconsumes, hresolved.consumes] at hid
    obtain ⟨taken, htaken, rfl⟩ := List.mem_map.mp hid
    rw [hresolved.lookup_active hconsistent htaken] at hlookup
    cases hlookup
    rw [Sweepable.key_of_spent hresolved _ htaken]
    exact Ne.symm hsource
  intro id posting hkey
  rw [InMemoryStore.applyCommit_active]
  constructor
  · intro hlookup
    obtain ⟨hmem, _⟩ | ⟨hold, _⟩ := HashMap.lookup_insertAll_cases hlookup
    · exact absurd hkey (hmade posting hmem)
    · rw [HashMap.lookup_eraseAll] at hold
      split at hold
      next => cases hold
      next => exact hold
  · intro hlookup
    have hcreated := ((hconsistent.mem_active id).mp
      (HashMap.mem_iff_exists_lookup.mpr ⟨posting, hlookup⟩)).1
    have hnew : ∀ created ∈ req.create, created.id ≠ id := by
      rintro created hmem rfl
      rw [hvalid.create] at hmem
      have hid : created.id ∈ createdPostingIds req.transferId req.record.envelope.creates := by
        rw [← map_id_createdPostings]
        exact List.mem_map_of_mem hmem
      exact not_created_of_fresh hfresh hid hcreated
    rw [HashMap.lookup_insertAll_of_notMem hnew, HashMap.lookup_eraseAll, if_neg]
    · exact hlookup
    · exact fun hid => hspent id hid posting hlookup hkey

end Applied

/-! ## Sequences of settlements -/

variable [Sha256]

/-- What has happened since `start`: the settlements with these receipts, which were to
move `moved`, and the closing of some accounts. A settlement that is answered with a
receipt of an older transfer moves nothing. -/
structure Moved (start : InMemoryStore) (moved : List Movement) (closed : List AccountId)
    (receipts : List Receipt) (store : InMemoryStore) : Prop where
  evolves : Evolves start store
  books : store.books = start.books
  projections : store.projections = start.projections
  others : ∀ key, key ∉ moved.map Movement.source → key ∉ moved.map Movement.destination →
    SameUnder key start store
  latest : ∀ id ∉ closed, store.latest id = start.latest id
  logged : ∀ tid ∈ store.transfers, tid ∈ start.transfers ∨ tid ∈ receipts.map (·.transferId)
  exact : AllNew start receipts → ∀ key,
    store.liveBalance key = start.liveBalance key + netMoved moved key

omit [Sha256] in
theorem AllNew.of_append {store : InMemoryStore} {receipts more : List Receipt}
    (hnew : AllNew store (receipts ++ more)) : AllNew store receipts where
  unstored receipt hreceipt := hnew.unstored receipt (List.mem_append_left _ hreceipt)
  nodup := hnew.nodup.sublist ((List.sublist_append_left _ _).map _)

variable {start : InMemoryStore} {moved : List Movement} {closed : List AccountId}
  {receipts : List Receipt}

theorem Moved.refl (start : InMemoryStore) : Moved start [] [] [] start where
  evolves := .refl _
  books := rfl
  projections := rfl
  others _ _ _ := .of_postings rfl
  latest _ _ := rfl
  logged _ := .inl
  exact _ key := by rw [netMoved_nil, add_zero]

/-- One more settlement, whether it is applied or answered with an older receipt. -/
theorem Moved.settlement {before after : World} {book : BookId} {hold target : AccountId}
    {asset : AssetId} {amount : Cent} {metadata : Metadata} {receipt : Receipt}
    (hmoved : Moved start moved closed receipts before.store) (haccounted : Accounted start)
    (hamount : 0 < amount.val)
    (halone : Alone (commit (settlingTransfer book hold target asset amount metadata)) before
      (.ok receipt) after) :
    Moved start (moved ++ [⟨hold, target, asset, amount⟩]) closed (receipts ++ [receipt])
      after.store := by
  have hnow : Accounted before.store :=
    hmoved.evolves.keep Accounted (fun _ _ hstep => hstep.accounted) haccounted
  have hmoves : Moves (fun _ => True) (fun _ => True) (fun _ => True)
      (commit (settlingTransfer book hold target asset amount metadata)) :=
    .of_steps fun _ hwell => commit_steps _ hwell fun _ => trivial
  have hevolves := hmoved.evolves.trans (hmoves.evolves hnow.wellFormed halone)
  obtain ⟨_, herror, _⟩ | ⟨envelope, middle, _, _, pinned, hresolve, _, hpinned, hends⟩ :=
    commit_alone hnow.wellFormed halone
  · cases herror
  obtain ⟨spent, extra, hresolved, hmadeUp⟩ := resolve_alone_madeUp hresolve
  obtain ⟨hcreates, hconsumes⟩ := creates_of_pinnedIn hpinned
  have hkeys : ∀ {key : BalanceKey},
      key ∉ (moved ++ [Movement.mk hold target asset amount]).map Movement.source →
      key ∉ (moved ++ [Movement.mk hold target asset amount]).map Movement.destination →
      SameUnder key start before.store ∧ key ≠ (hold, asset) ∧ key ≠ (target, asset) := by
    intro key hsource htarget
    rw [List.map_append, List.mem_append, not_or] at hsource htarget
    refine ⟨hmoved.others key hsource.1 htarget.1, ?_, ?_⟩
    · rintro rfl
      exact hsource.2 List.mem_cons_self
    · rintro rfl
      exact htarget.2 List.mem_cons_self
  generalize after.store = later at hends hevolves ⊢
  cases hends with
  | stored hlookup =>
      have hfiled := hnow.faithful.filed _ _ hlookup
      have hstored := HashMap.mem_iff_exists_lookup.mpr ⟨_, hlookup⟩
      rw [← hfiled] at hstored
      refine ⟨hevolves, hmoved.books, hmoved.projections, fun key hsource htarget =>
        (hkeys hsource htarget).1, hmoved.latest, fun tid htid => ?_, fun hnew => ?_⟩
      · rw [List.map_append, List.mem_append, ← or_assoc]
        exact .inl (hmoved.logged tid htid)
      · -- the receipt would be an older one
        exfalso
        rcases hmoved.logged _ hstored with hstart | hearlier
        · exact hnew.unstored _ (List.mem_append_right _ List.mem_cons_self) hstart
        · have hnodup := hnew.nodup
          rw [List.map_append, List.nodup_append] at hnodup
          exact hnodup.2.2 _ hearlier _ (List.mem_singleton.mpr rfl) rfl
  | applied clock hvalid henvelope hfresh hguards =>
      rw [← henvelope] at hcreates hconsumes
      constructor
      case evolves => exact hevolves
      case books => rw [InMemoryStore.applyCommit_books, hmoved.books]
      case projections => rw [InMemoryStore.applyCommit_projections, hmoved.projections]
      case others =>
        intro key hsource htarget
        obtain ⟨hsame, hother, hparty⟩ := hkeys hsource htarget
        exact hsame.trans (hresolved.sameUnder hmadeUp hnow.consistent hvalid hcreates hconsumes
          hfresh clock hother hparty)
      case latest =>
        intro id hid
        rw [InMemoryStore.latest, InMemoryStore.versions_congr (InMemoryStore.applyCommit_accounts ..)]
        exact hmoved.latest id hid
      case logged =>
        intro tid htid
        rw [List.map_append, List.mem_append, ← or_assoc]
        rw [InMemoryStore.applyCommit_transfers, AList.mem_insert] at htid
        rcases htid with rfl | hbefore
        · exact .inr (List.mem_singleton.mpr rfl)
        · exact .inl (hmoved.logged tid hbefore)
      case exact =>
        intro hnew key
        have hfew : envelope.creates.length ≤ 2 * 1 := hresolved.length_creates_le
        have hbalance := hresolved.liveBalance_applyCommit clock hnow.consistent (by omega) hvalid
          hconsumes hcreates hfresh hguards key
        rw [hmoved.exact hnew.of_append key, outgoing_settlingTransfer, incoming_settlingTransfer]
          at hbalance
        rw [hbalance, netMoved_append, netMoved_singleton, Movement.source, Movement.destination]
        dsimp only
        split <;> split <;> omega

/-! ## Closing a hold -/

section Closing

variable {before after : World} {hold : AccountId}

omit [Sha256] in
theorem closeIfDrained_cases {result : Except LedgerError Unit} (hwell : WellFormed before.store)
    (hmay : MayChange before.store hold) (halone : Alone (closeIfDrained hold) before result after) :
    OnlyChanged hold before.store after.store ∧ (result = .ok () ∨ after.clock = none) := by
  obtain ⟨live, first, hlive, hrest⟩ | ⟨_, hlive, _⟩ := alone_bind_iff.mp halone
  swap
  · obtain ⟨_, hvalue, _⟩ := hasLivePostings_cases hlive
    cases hvalue
  obtain ⟨_, hvalue, hempty⟩ := hasLivePostings_cases hlive
  cases hvalue
  have hfirst := (hasLivePostings_readOnly hold).store_eq hlive
  cases live with
  | true =>
      obtain ⟨rfl, rfl⟩ := alone_pure_iff.mp hrest
      exact ⟨.of_eq hfirst, .inl rfl⟩
  | false =>
      obtain ⟨account, hlatest, hopen, _⟩ := id hmay
      obtain ⟨read, second, hread, hrest⟩ | ⟨_, hread, _⟩ := alone_bind_iff.mp hrest
      swap
      · obtain ⟨_, hvalue, _⟩ := alone_read_iff.mp hread
        cases hvalue
      obtain ⟨choice, hvalue, rfl⟩ := alone_read_iff.mp hread
      cases hvalue
      rw [hfirst, InMemoryStore.getAccount_eq_ok_iff.mpr hlatest] at hrest
      obtain ⟨found, third, hfound, hrest⟩ | ⟨_, hfound, _⟩ := alone_bind_iff.mp hrest
      swap
      · cases (alone_attempt_iff.mp hfound).1
      obtain ⟨hvalue, rfl⟩ := alone_attempt_iff.mp hfound
      cases hvalue
      rw [if_neg (by simp [hopen])] at hrest
      generalize hworld : World.mk before.store choice.clock = world at hrest
      have hsame : world.store = before.store := by rw [← hworld]
      rw [← hsame] at hwell hmay hempty ⊢
      exact close_cases hwell hmay (hempty.mp rfl) hrest

/-- Closing a hold moves nothing. -/
theorem Moved.close (hmoved : Moved start moved closed receipts before.store)
    (hevolves : Evolves before.store after.store)
    (honly : OnlyChanged hold before.store after.store) :
    Moved start moved (closed ++ [hold]) receipts after.store where
  evolves := hmoved.evolves.trans hevolves
  books := honly.books.trans hmoved.books
  projections := honly.projections.trans hmoved.projections
  others key hsource hparty :=
    (hmoved.others key hsource hparty).trans (.of_postings honly.postings)
  latest id hid := by
    rw [List.mem_append, List.mem_singleton, not_or] at hid
    rw [honly.latest id hid.2, hmoved.latest id hid.1]
  logged := by
    rw [honly.transfers]
    exact hmoved.logged
  exact hnew key := by
    have hsame : after.store.liveBalance key = before.store.liveBalance key := by
      rw [InMemoryStore.liveBalance, InMemoryStore.livePostings, honly.postings]
      rfl
    rw [hsame, hmoved.exact hnew key]

end Closing

end Kuatia
