import Kuatia.Core.RequiredState
import Kuatia.Ledger.Delivering
import Kuatia.Ledger.Feasible

/-! # Envelopes that fit

An envelope fits a store when its parties take part in transfers, its sums are
computed without overflow, and where overdraft is forbidden it leaves a balance
that is not negative. Its commit can then only fail with the clock.
-/

namespace Kuatia

open LedgerM

open MoneyWidth (backing)

variable [MoneyWidth] [Sha256]

/-- What is spent under a key is among the funds under it. -/
theorem Resolved.spent_le_funds {store : InMemoryStore} {transfer : Transfer}
    {envelope : Envelope} {spent : List Posting} {extra : List NewPosting}
    (hresolved : Resolved store transfer envelope spent extra) (key : BalanceKey) :
    keyTotal Posting.key Posting.value spent key ≤ store.fundsUnder key := by
  obtain ⟨left, hperm⟩ := hresolved.selected key
  have hsum := (hperm.map (·.value.val)).sum_eq
  have hleft : 0 ≤ (left.map (·.value.val)).sum := by
    refine List.sum_nonneg fun value hvalue => ?_
    obtain ⟨posting, hposting, rfl⟩ := List.mem_map.mp hvalue
    have hmem := hperm.mem_iff.mp (List.mem_append_right _ hposting)
    exact (Cent.isPositive_iff.mp (List.mem_filter.mp hmem).2).le
  rw [List.map_append, List.sum_append] at hsum
  rw [keyTotal, InMemoryStore.fundsUnder]
  omega

/-- Nothing in the store stands against the envelope, which spends `spent`. Only the
sums that are really computed have to fit. -/
structure Fitting (store : InMemoryStore) (envelope : Envelope) (spent : List Posting) : Prop where
  wellFormed : WellFormed store
  consistent : Consistent store
  pinned : envelope.accountSnapshots ≠ []
  pins : ∀ snapshot ∈ envelope.accountSnapshots, ∃ account,
    store.latest snapshot.account = some account ∧ snapshot.snapshotId = accountHash account
  creates : envelope.creates ≠ []
  nodup : envelope.consumes.Nodup
  found : List.Forall₂ (fun id posting => store.postings.immutable.lookup id = some posting)
    envelope.consumes spent
  active : ∀ id ∈ envelope.consumes, id ∈ store.postings.active
  selected : store.activeOf envelope.consumes = spent
  owners : ∀ id, id ∈ envelope.creates.map (·.owner) ∨ id ∈ spent.map (·.owner) →
    Participates store id
  book : AllowsAll store envelope.book
  conserved : ∀ order, checkConservation order envelope spent = .ok ()
  deltas : ∃ deltas, balanceDeltas envelope spent = .ok deltas
  permits : ∀ posting ∈ envelope.creates, posting.value.val < 0 → ∃ account,
    store.latest posting.owner = some account ∧ account.forbidsOverdraft = false
  sums : ∀ key ∈ (requiredState envelope spent).balances, ∀ order, SumsUp store order key
  solvent : ∀ key account, store.latest key.1 = some account → account.forbidsOverdraft = true →
    ∀ posting ∈ store.postings.active.values, posting.key = key → 0 ≤ posting.value.val
  floor : ∀ key ∈ (requiredState envelope spent).balances, ∀ account,
    store.latest key.1 = some account → account.forbidsOverdraft = true →
    keyTotal NewPosting.key NewPosting.value envelope.creates key ≤ Backing.max backing ∧
    0 ≤ store.liveBalance key + keyTotal NewPosting.key NewPosting.value envelope.creates key -
      keyTotal Posting.key Posting.value spent key ∧
    store.liveBalance key + keyTotal NewPosting.key NewPosting.value envelope.creates key -
      keyTotal Posting.key Posting.value spent key ≤ Backing.max backing

namespace Fitting

variable {store : InMemoryStore} {envelope : Envelope} {spent : List Posting}
  (hfitting : Fitting store envelope spent)

include hfitting

/-! ## Validation -/

section Loaded

variable {loaded : LoadedState} (hloaded : LoadedFrom store envelope loaded)

include hloaded

theorem consumed_eq : loaded.consumedPostings = spent := hloaded.consumed.unique hfitting.found

theorem lookup_owner {id : AccountId}
    (hid : id ∈ envelope.creates.map (·.owner) ∨ id ∈ spent.map (·.owner)) {account : Account}
    (hlatest : store.latest id = some account) : loaded.accounts.lookup id = some account := by
  apply hloaded.lookup_of_latest hlatest
  rw [hfitting.consumed_eq hloaded, mem_requiredState_accounts]
  exact .inl (List.mem_sortDedup.mpr (List.mem_append.mpr hid))

/-- The postings that are loaded are found by the ids that are consumed. -/
theorem finds : (loaded.input envelope).Finds spent := by
  have hkeyed : envelope.consumes = spent.map (·.id) := by
    refine List.forall₂_eq_eq_eq ▸ List.forall₂_map_right_iff.mpr (hfitting.found.imp ?_)
    exact fun id posting hlookup => (hfitting.wellFormed.immutable id posting hlookup).symm
  have hnodup := hfitting.nodup
  rw [hkeyed] at hnodup
  rw [PlanInput.Finds, LoadedState.input, hkeyed, List.forall₂_map_left_iff, List.forall₂_same,
    consumedById, hfitting.consumed_eq hloaded]
  exact fun posting hposting => HashMap.lookup_insertAll_of_mem hnodup hposting

/-- The balance that would be left. -/
theorem projected_eq {key : BalanceKey} (htouched : key ∈ (requiredState envelope spent).balances) :
    (loaded.input envelope).projected spent key = store.liveBalance key +
      keyTotal NewPosting.key NewPosting.value envelope.creates key -
        keyTotal Posting.key Posting.value spent key := by
  rw [← hfitting.consumed_eq hloaded] at htouched
  obtain ⟨value, hvalue⟩ := HashMap.mem_iff_exists_lookup.mp (hloaded.covered key htouched)
  have hexact := hloaded.balances key value hvalue
  change ((loaded.balances.lookup key).getD .ZERO).val +
    (keyTotal NewPosting.key NewPosting.value envelope.creates key - _) = _
  rw [hvalue, Option.getD_some, hexact]
  omega

/-- The envelope passes every check. -/
theorem passes (order : IterationOrder) : Checked order (loaded.input envelope) spent := by
  have hsame := hfitting.consumed_eq hloaded
  -- every owner is loaded and open, which three of the checks ask for
  have howner : ∀ {id : AccountId}, id ∈ envelope.creates.map (·.owner) ∨
      id ∈ spent.map (·.owner) → ∃ account, store.latest id = some account ∧
        loaded.accounts.lookup id = some account ∧ account.isFrozen = false ∧
          account.isClosed = false := by
    intro id hid
    obtain ⟨account, hlatest, hopen⟩ := hfitting.owners id hid
    exact ⟨account, hlatest, hfitting.lookup_owner hloaded hid hlatest, hopen⟩
  constructor
  case nonEmpty => exact .inr hfitting.creates
  case nodup => exact hfitting.nodup
  case found => exact hfitting.finds hloaded
  case accounts =>
    intro id hid
    rw [PlanInput.mem_owners_iff, LoadedState.input, hsame] at hid
    obtain ⟨account, _, hlookup, hopen⟩ := howner hid
    exact ⟨account, hlookup, hopen⟩
  case snapshots =>
    intro snapshot hsnapshot
    obtain ⟨account, hlatest, hhash⟩ := hfitting.pins snapshot hsnapshot
    refine ⟨account, hloaded.lookup_of_latest hlatest ?_, hhash⟩
    exact mem_requiredState_accounts.mpr (.inr (List.mem_map_of_mem hsnapshot))
  case book =>
    refine checkBook_of_allowsAll hfitting.book ?_
    rw [LoadedState.input, hloaded.book]
  case conservation => exact hfitting.conserved order
  case negatives =>
    intro posting hposting hnegative
    have howned : posting.owner ∈ envelope.creates.map (·.owner) := List.mem_map_of_mem hposting
    obtain ⟨account, hlatest, hpermits⟩ := hfitting.permits posting hposting hnegative
    exact ⟨account, hfitting.lookup_owner hloaded (.inl howned) hlatest, hpermits⟩
  case overdraft =>
    refine checkOverdraft_eq_ok_iff.mpr ⟨hfitting.deltas, fun key hkey => ?_⟩
    have htouched : key ∈ (requiredState envelope spent).balances :=
      mem_requiredState_balances.mpr hkey.symm
    have hid : key.1 ∈ envelope.creates.map (·.owner) ∨ key.1 ∈ spent.map (·.owner) := by
      refine hkey.symm.imp ?_ ?_
      all_goals
        intro hmem
        obtain ⟨posting, hposting, rfl⟩ := List.mem_map.mp hmem
        exact List.mem_map_of_mem hposting
    obtain ⟨account, hlatest, hlookup, _⟩ := howner hid
    refine ⟨account, hlookup, fun hforbids => ?_⟩
    obtain ⟨_, hnonneg, hle⟩ := hfitting.floor key htouched account hlatest hforbids
    rw [hfitting.projected_eq hloaded htouched]
    refine ⟨Cent.holds_of_abs_le ?_, hnonneg⟩
    rw [abs_of_nonneg hnonneg]
    exact hle

end Loaded

/-! ## The guards of the store -/

/-- Where overdraft is forbidden nothing negative is created. -/
theorem created_nonneg {key : BalanceKey} {account : Account}
    (hlatest : store.latest key.1 = some account) (hforbids : account.forbidsOverdraft = true) :
    ∀ posting ∈ envelope.creates, posting.key = key → 0 ≤ posting.value.val := by
  intro posting hposting hkey
  by_contra hnegative
  obtain ⟨other, hother, hpermits⟩ := hfitting.permits posting hposting (not_le.mp hnegative)
  have howner : posting.owner = key.1 := congrArg Prod.fst hkey
  rw [howner, hlatest] at hother
  cases hother
  cases hforbids.symm.trans hpermits

/-- What the store projects for a balance that must not be negative is not. -/
theorem exists_projectedBalance (order : IterationOrder) {key : BalanceKey}
    (htouched : key ∈ (requiredState envelope spent).balances) {account : Account}
    (hlatest : store.latest key.1 = some account) (hforbids : account.forbidsOverdraft = true)
    {req : CommitRequest} (hconsume : req.consume = envelope.consumes)
    (hcreate : req.create = createdPostings req.transferId envelope.creates) :
    ∃ value, store.projectedBalance order req key = .ok value ∧ 0 ≤ value.val := by
  obtain ⟨hmadeFits, hnonneg, hfits⟩ := hfitting.floor key htouched account hlatest hforbids
  have hmade := hfitting.created_nonneg hlatest hforbids
  have hactive := hfitting.solvent key account hlatest hforbids
  have hlive := (hfitting.sums key htouched order).holds.2
  have hliveRoom : Cent.magnitude (((store.postings.active.values.filter (·.id ∉ req.consume)).filter
      (·.key = key)).map Posting.value) ≤ Backing.max backing := by
    have hsublist : ((store.postings.active.values.filter (·.id ∉ req.consume)).filter
        (·.key = key)).Sublist (store.postings.active.values.filter (·.key = key)) :=
      List.filter_sublist.filter _
    refine (Cent.magnitude_le_of_sublist (hsublist.map Posting.value)).trans ?_
    rw [Cent.magnitude_of_nonneg, List.map_map]
    · rwa [InMemoryStore.liveBalance,
        InMemoryStore.livePostings_of_reserved hfitting.consistent.reserved] at hlive
    · intro amount hamount
      obtain ⟨posting, hposting, rfl⟩ := List.mem_map.mp hamount
      obtain ⟨hmem, hkey⟩ := List.mem_filter.mp hposting
      exact hactive posting hmem (of_decide_eq_true hkey)
  have hmadeRoom : Cent.magnitude ((req.create.filter (·.key = key)).map Posting.value) ≤
      Backing.max backing := by
    rw [Cent.magnitude_of_nonneg, List.map_map]
    · rwa [← keyTotal_createdPostings req.transferId, ← hcreate] at hmadeFits
    · intro amount hamount
      obtain ⟨posting, hposting, rfl⟩ := List.mem_map.mp hamount
      obtain ⟨hmem, hkey⟩ := List.mem_filter.mp hposting
      rw [hcreate] at hmem
      obtain ⟨source, hsource, howner, hasset, hvalue⟩ := exists_of_mem_createdPostings hmem
      rw [hvalue]
      refine hmade source hsource ?_
      rw [← of_decide_eq_true hkey]
      exact Prod.ext howner.symm hasset.symm
  have hspendable := hfitting.active
  have hnodup := hfitting.nodup
  have hspent := hfitting.selected
  rw [← hconsume] at hspendable hnodup hspent
  rw [← hspent] at hnonneg hfits
  obtain ⟨value, hvalue, hval⟩ := Kuatia.exists_projectedBalance hfitting.consistent order hcreate
    hnodup hspendable hliveRoom hmadeRoom (Cent.holds_of_abs_le (by rwa [abs_of_nonneg hnonneg]))
  exact ⟨value, hvalue, hval ▸ hnonneg⟩

/-- Every balance that the store looks at is touched by the envelope. -/
theorem touched_of_mem {req : CommitRequest} (hconsume : req.consume = envelope.consumes)
    (hcreate : req.create = createdPostings req.transferId envelope.creates) {id : AccountId}
    {asset : AssetId} (hasset : asset ∈ store.touchedAssets req id) :
    (id, asset) ∈ (requiredState envelope spent).balances := by
  have hspent : req.consume.filterMap store.postings.active.lookup = spent := by
    rw [hconsume]
    exact hfitting.selected
  rw [InMemoryStore.touchedAssets, List.mem_dedup, hspent, List.mem_append] at hasset
  rw [mem_requiredState_balances]
  rcases hasset with hmade | hconsumed
  · obtain ⟨posting, hposting, rfl⟩ := List.mem_map.mp hmade
    obtain ⟨hmem, howner⟩ := List.mem_filter.mp hposting
    rw [hcreate] at hmem
    obtain ⟨source, hsource, hsourceOwner, hsourceAsset, _⟩ := exists_of_mem_createdPostings hmem
    refine .inl (List.mem_map.mpr ⟨source, hsource, Prod.ext ?_ hsourceAsset.symm⟩)
    exact hsourceOwner.symm.trans (of_decide_eq_true howner)
  · obtain ⟨posting, hposting, rfl⟩ := List.mem_map.mp hconsumed
    obtain ⟨hmem, howner⟩ := List.mem_filter.mp hposting
    exact .inr (List.mem_map.mpr ⟨posting, hmem, Prod.ext (of_decide_eq_true howner) rfl⟩)

/-- The store lets the request pass. -/
theorem guards {loaded : LoadedState} (hloaded : LoadedFrom store envelope loaded)
    (order : IterationOrder) (ts : Int64) :
    store.commitGuards order (commitRequest envelope (planOf envelope) loaded ts) = .ok () := by
  let req := commitRequest envelope (planOf envelope) loaded ts
  have hinvolved : ∀ id ∈ req.involved, Participates store id := by
    intro id hid
    have howners : (planOf envelope).postingsToCreate.map (·.owner) =
        envelope.creates.map (·.owner) := map_createdPostings _ _ fun owner _ _ => owner
    change id ∈ involvedAccounts (planOf envelope) loaded at hid
    rw [involvedAccounts, howners, hfitting.consumed_eq hloaded, List.mem_sortDedup,
      List.mem_append] at hid
    exact hfitting.owners id hid
  refine InMemoryStore.commitGuards_eq_ok_iff.mpr ⟨?_, ?_, ?_⟩
  · exact InMemoryStore.freezeGuard_eq_ok_iff.mpr hinvolved
  · exact InMemoryStore.doubleSpendGuard_eq_ok_iff.mpr hfitting.active
  · refine List.forM_eq_ok_iff.mpr fun id hid => ?_
    obtain ⟨account, hlatest, _⟩ := hinvolved id hid
    refine Except.bind_eq_ok_iff.mpr
      ⟨account, InMemoryStore.accountOf_eq_ok_iff.mpr hlatest, ?_⟩
    cases hforbids : account.forbidsOverdraft with
    | false => rfl
    | true =>
        refine List.forM_eq_ok_iff.mpr fun asset hasset => ?_
        rw [IterationOrder.mem_arrange] at hasset
        have hconsume : req.consume = envelope.consumes := rfl
        obtain ⟨value, hprojected, hnonneg⟩ := hfitting.exists_projectedBalance order
          (hfitting.touched_of_mem hconsume rfl hasset) hlatest hforbids hconsume rfl
        refine Except.bind_eq_ok_iff.mpr ⟨value, Except.mapError_eq_ok_iff.mpr hprojected, ?_⟩
        have hnonnegative : value.isNegative = false := by
          rw [Bool.eq_false_iff, ne_eq, Cent.isNegative_iff]
          omega
        rw [hnonnegative]
        rfl

/-- Only the clock can make a commit of an envelope that fits fail. -/
theorem deliverable : Deliverable store envelope where
  pinned := hfitting.pinned
  loads halone := by
    refine load_total hfitting.wellFormed hfitting.found (fun id hid => ?_) hfitting.sums ?_ halone
    · rcases mem_requiredState_accounts.mp hid with howner | hsnapshot
      · obtain ⟨account, hlatest, _⟩ :=
          hfitting.owners id (List.mem_append.mp (List.mem_sortDedup.mp howner))
        exact ⟨account, hlatest⟩
      · obtain ⟨snapshot, hmem, rfl⟩ := List.mem_map.mp hsnapshot
        obtain ⟨account, hlatest, _⟩ := hfitting.pins snapshot hmem
        exact ⟨account, hlatest⟩
    · rcases hfitting.book with ⟨_, hdefault⟩ | ⟨book, hlookup, _⟩
      · exact .inr hdefault
      · exact .inl (HashMap.mem_iff_exists_lookup.mpr ⟨book, hlookup⟩)
  plans hloaded order := hloaded.plan_eq (hfitting.passes hloaded order)
  passes hloaded order ts := hfitting.guards hloaded order ts

end Fitting

end Kuatia
