import Kuatia.Ledger.Validating

/-! # Commits that are applied

A commit that runs alone and returns a new receipt has applied what the transfer
resolves to. Its parties take part in transfers, and it moves exactly what was asked
for.
-/

namespace Kuatia

open LedgerM

open MoneyWidth (backing)

variable [MoneyWidth] [Sha256]

/-- The request applies what the transfer resolves to in the store. -/
structure Applies (store : InMemoryStore) (transfer : Transfer) (spent : List Posting)
    (extra : List NewPosting) (req : CommitRequest) (consumed : List Posting) : Prop where
  resolved : Resolved store transfer req.record.envelope spent extra
  madeUp : MadeUp transfer extra
  valid : Validated store req consumed
  fresh : req.transferId ∉ store.transfers
  guards : ∃ order, store.commitGuards order req = .ok ()

/-- A new receipt is the one of the transfer that has been applied. -/
theorem commit_applies {before after : World} {transfer : Transfer} {receipt : Receipt}
    (haccounted : Accounted before.store)
    (halone : Alone (commit transfer) before (.ok receipt) after)
    (hnew : receipt.transferId ∉ before.store.transfers) :
    ∃ clock spent extra req consumed, Applies before.store transfer spent extra req consumed ∧
      receipt.transferId = req.transferId ∧ after.store = before.store.applyCommit clock req := by
  obtain ⟨_, herror, _⟩ | ⟨envelope, middle, _, _, pinned, hresolve, _, hpinned, hends⟩ :=
    commit_alone haccounted.wellFormed halone
  · cases herror
  obtain ⟨spent, extra, hresolved, hmadeUp⟩ := resolve_alone_madeUp hresolve
  have hsame := hresolved.eq_of_pinnedIn hpinned
  generalize after.store = later at hends ⊢
  cases hends with
  | stored hlookup =>
      refine absurd ?_ hnew
      rw [haccounted.faithful.filed _ _ hlookup]
      exact HashMap.mem_iff_exists_lookup.mpr ⟨_, hlookup⟩
  | applied clock hvalid henvelope hfresh hguards =>
      rw [← hsame, ← henvelope] at hresolved
      exact ⟨clock, spent, extra, _, _, ⟨hresolved, hmadeUp, hvalid, hfresh, _, hguards⟩, rfl, rfl⟩

omit [Sha256] in
/-- A balance is read when it is the sum of amounts that are not negative. -/
theorem sumsUp_of_nonneg {store : InMemoryStore} {key : BalanceKey}
    (hpostings : ∀ posting ∈ store.livePostings, posting.key = key → 0 ≤ posting.value.val)
    (hfits : Cent.Holds (store.liveBalance key)) (order : IterationOrder) :
    SumsUp store order key := by
  have hperm : (store.getPostingsByAccount order key.1.id (some key.1.sub) (some key.2) .live).Perm _ :=
    InMemoryStore.getPostingsByAccount_live_perm order key
  refine Cent.exists_checkedSum ?_
  rw [Cent.magnitude_of_nonneg, List.map_map]
  · rw [(hperm.map _).sum_eq]
    exact hfits.2
  · intro amount hamount
    obtain ⟨posting, hposting, rfl⟩ := List.mem_map.mp hamount
    obtain ⟨hlive, hkey⟩ := List.mem_filter.mp (hperm.mem_iff.mp hposting)
    exact hpostings posting hlive (of_decide_eq_true hkey)

namespace Applies

variable {store : InMemoryStore} {transfer : Transfer} {spent : List Posting}
  {extra : List NewPosting} {req : CommitRequest} {consumed : List Posting}
  (happlies : Applies store transfer spent extra req consumed)

include happlies

theorem length_creates_le (hsmall : transfer.movements.length ≤ 32768) :
    req.record.envelope.creates.length ≤ 65536 := by
  have hfew := happlies.resolved.length_creates_le
  omega

/-- Exactly what was asked for is moved. -/
theorem liveBalance (hconsistent : Consistent store) (hsmall : transfer.movements.length ≤ 32768)
    (hamounts : ∀ movement ∈ transfer.movements, 0 ≤ movement.amount.val) (clock : Clock)
    (key : BalanceKey) : (store.applyCommit clock req).liveBalance key =
      store.liveBalance key + transfer.incoming key - transfer.outgoing key := by
  obtain ⟨order, hguards⟩ := happlies.guards
  have houtgoing : 0 ≤ transfer.outgoing key :=
    keyTotal_nonneg fun movement hmovement _ => hamounts movement hmovement
  rw [happlies.resolved.liveBalance_applyCommit clock hconsistent (happlies.length_creates_le hsmall)
    happlies.valid rfl rfl happlies.fresh hguards key, max_eq_right houtgoing]

/-- Who is credited takes part in transfers. -/
theorem participates_of_created {posting : NewPosting}
    (hposting : posting ∈ req.record.envelope.creates) : Participates store posting.owner := by
  obtain ⟨order, hguards⟩ := happlies.guards
  obtain ⟨hfreeze, _, _⟩ := InMemoryStore.commitGuards_eq_ok_iff.mp hguards
  exact InMemoryStore.freezeGuard_eq_ok_iff.mp hfreeze _
    ((happlies.valid.involved _).mpr (.inl ⟨posting, hposting, rfl⟩))

theorem payee : ∀ movement ∈ transfer.movements, Participates store movement.toAccount := by
  intro movement hmovement
  have hcreated : movement.credit ∈ req.record.envelope.creates := by
    rw [happlies.resolved.creates]
    exact List.mem_append_left _ (List.mem_map_of_mem hmovement)
  exact happlies.participates_of_created hcreated

/-- What is made for an account that may not be overdrawn has been summed up. -/
theorem holds_created {posting : NewPosting} (hposting : posting ∈ req.record.envelope.creates)
    {account : Account} (hlatest : store.latest posting.owner = some account)
    (hforbids : account.forbidsOverdraft = true) :
    Cent.Holds (keyTotal NewPosting.key NewPosting.value req.record.envelope.creates posting.key) := by
  obtain ⟨order, hguards⟩ := happlies.guards
  obtain ⟨_, _, hfloor⟩ := InMemoryStore.commitGuards_eq_ok_iff.mp hguards
  have hinvolved := (happlies.valid.involved posting.owner).mpr (.inl ⟨posting, hposting, rfl⟩)
  obtain ⟨found, hfound, hassets⟩ :=
    Except.bind_eq_ok_iff.mp (List.forM_eq_ok_iff.mp hfloor posting.owner hinvolved)
  rw [InMemoryStore.accountOf_eq_ok_iff, hlatest] at hfound
  cases hfound
  rw [hforbids, if_neg (by decide)] at hassets
  -- the asset is among those that the store looks at
  have htouched : posting.asset ∈ store.touchedAssets req posting.owner := by
    rw [InMemoryStore.touchedAssets, List.mem_dedup, List.mem_append]
    have hpairs : (posting.owner, posting.asset) ∈
        req.create.map fun created => (created.owner, created.asset) := by
      rw [happlies.valid.create, map_createdPostings req.transferId _ fun owner asset _ => (owner, asset)]
      exact List.mem_map_of_mem hposting
    obtain ⟨created, hcreated, hpair⟩ := List.mem_map.mp hpairs
    refine .inl (List.mem_map.mpr ⟨created, List.mem_filter.mpr ⟨hcreated, ?_⟩, ?_⟩)
    · exact decide_eq_true (congrArg Prod.fst hpair)
    · exact congrArg Prod.snd hpair
  obtain ⟨projected, hprojected, _⟩ := Except.bind_eq_ok_iff.mp
    (List.forM_eq_ok_iff.mp hassets posting.asset ((IterationOrder.mem_arrange ..).mpr htouched))
  obtain ⟨live, _, hrest⟩ := Except.bind_eq_ok_iff.mp (Except.mapError_eq_ok_iff.mp hprojected)
  obtain ⟨made, hmade, _⟩ := Except.bind_eq_ok_iff.mp hrest
  have hval := Cent.val_of_checkedSum hmade
  rw [List.map_map] at hval
  rw [← keyTotal_createdPostings req.transferId, ← happlies.valid.create, keyTotal]
  exact hval ▸ Cent.holds_of_val made

/-- Who owns nothing and may not be overdrawn is not debited. -/
theorem outgoing_nonpos {id : AccountId} (hnothing : OwnsNothing store id)
    (hconsistent : Consistent store) (hforbids : ∀ account, store.latest id = some account →
      account.forbidsOverdraft = true) (asset : AssetId) : transfer.outgoing (id, asset) ≤ 0 := by
  have hexact := happlies.resolved.exact (id, asset)
  have hspent : keyTotal Posting.key Posting.value spent (id, asset) = 0 := by
    refine keyTotal_eq_zero fun posting hposting hkey => ?_
    refine hnothing posting ?_ (congrArg Prod.fst hkey)
    rw [InMemoryStore.livePostings_of_reserved hconsistent.reserved]
    exact HashMap.mem_values_iff.mpr ⟨_, happlies.resolved.lookup_active hconsistent hposting⟩
  have hextra : 0 ≤ keyTotal NewPosting.key NewPosting.value extra (id, asset) := by
    refine keyTotal_nonneg fun posting hposting hkey => ?_
    by_contra hnegative
    obtain ⟨account, hlatest, hpermits⟩ :=
      happlies.resolved.permits posting hposting (not_le.mp hnegative)
    have howner : posting.owner = id := congrArg Prod.fst hkey
    rw [howner] at hlatest
    cases (hforbids account hlatest).symm.trans hpermits
  omega

/-- What is made for an owner of nothing is all that it has, as it is recorded. -/
theorem active_of_fresh {id : AccountId} (hnothing : OwnsNothing store id)
    (hconsistent : Consistent store) (hsmall : transfer.movements.length ≤ 32768) (clock : Clock)
    {pid : PostingId} {posting : Posting}
    (hlookup : (store.applyCommit clock req).postings.active.lookup pid = some posting)
    (howner : posting.owner = id) : posting ∈ req.create ∧
      (store.applyCommit clock req).postings.immutable.lookup posting.id = some posting := by
  rw [InMemoryStore.applyCommit_active] at hlookup
  obtain ⟨hmade, _⟩ | ⟨hold, _⟩ := HashMap.lookup_insertAll_cases hlookup
  · refine ⟨hmade, ?_⟩
    rw [InMemoryStore.applyCommit_immutable]
    refine InMemoryStore.lookup_insertMissing_of_fresh ?_ ?_ hmade
    · rw [happlies.valid.create]
      exact nodup_map_id_createdPostings (happlies.length_creates_le hsmall)
    · intro created hcreated hstored
      rw [happlies.valid.create] at hcreated
      have hid : created.id ∈ createdPostingIds req.transferId req.record.envelope.creates := by
        rw [← map_id_createdPostings]
        exact List.mem_map_of_mem hcreated
      exact not_created_of_fresh happlies.fresh hid ((hconsistent.mem_immutable _).mp hstored)
  · rw [HashMap.lookup_eraseAll] at hold
    split at hold
    next => cases hold
    next =>
      refine absurd howner (hnothing posting ?_)
      rw [InMemoryStore.livePostings_of_reserved hconsistent.reserved]
      exact HashMap.mem_values_iff.mpr ⟨pid, hold⟩

end Applies

end Kuatia
