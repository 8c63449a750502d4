import Kuatia.Ledger.Affording
import Kuatia.Ledger.CommitEffect

/-! # Transfers that are carried out

When the accounts of a transfer take part, its debtors can pay and there is room
for all amounts, it resolves to an envelope that nothing stands against.
-/

namespace Kuatia

open LedgerM

open MoneyWidth (backing)

variable [MoneyWidth]

/-- Nothing stands against the transfer in this state of the store. -/
structure Feasible (store : InMemoryStore) (transfer : Transfer) : Prop where
  movements : transfer.movements ≠ []
  amounts : ∀ movement ∈ transfer.movements, 0 ≤ movement.amount.val
  payers : ∀ movement ∈ transfer.movements, Participates store movement.fromAccount
  payees : ∀ movement ∈ transfer.movements, Participates store movement.toAccount
  affordable : ∀ key, 0 < transfer.outgoing key → Affordable store key (transfer.outgoing key)
  recorded : ∀ key, 0 < transfer.outgoing key → Recorded store key
  book : AllowsAll store transfer.book
  room : 3 * store.liveMagnitude + 2 * transfer.magnitude ≤ Backing.max backing

theorem Transfer.magnitude_nonneg (transfer : Transfer) : 0 ≤ transfer.magnitude :=
  Cent.magnitude_nonneg _

section Amounts

variable {store : InMemoryStore} {transfer : Transfer}

theorem Feasible.payer_of_outgoing (hfeasible : Feasible store transfer) {key : BalanceKey}
    (houtgoing : 0 < transfer.outgoing key) : Participates store key.1 := by
  obtain ⟨movement, hmovement, rfl⟩ := exists_source_of_outgoing houtgoing
  exact hfeasible.payers movement hmovement

theorem Feasible.outgoing_nonneg (hfeasible : Feasible store transfer) (key : BalanceKey) :
    0 ≤ transfer.outgoing key :=
  keyTotal_nonneg fun movement hmovement _ => hfeasible.amounts movement hmovement

theorem Feasible.incoming_nonneg (hfeasible : Feasible store transfer) (key : BalanceKey) :
    0 ≤ transfer.incoming key :=
  keyTotal_nonneg fun movement hmovement _ => hfeasible.amounts movement hmovement

/-- What an account that forbids overdraft owes, it owns. -/
theorem Feasible.outgoing_le (hfeasible : Feasible store transfer) (hconsistent : Consistent store)
    (hsafe : OverdraftSafe store) {key : BalanceKey} {account : Account}
    (hlatest : store.latest key.1 = some account) (hforbids : account.forbidsOverdraft = true) :
    max 0 (transfer.outgoing key) ≤ store.liveBalance key := by
  have hfunds := hsafe.fundsUnder_eq hconsistent hlatest hforbids
  have hnonneg := store.fundsUnder_nonneg key
  refine max_le (by omega) ?_
  by_cases houtgoing : 0 < transfer.outgoing key
  · obtain henough | ⟨other, hother, hpermits⟩ := hfeasible.affordable key houtgoing
    · exact henough.trans_eq hfunds
    · cases hlatest.symm.trans hother
      cases hforbids.symm.trans hpermits
  · omega

end Amounts

namespace InMemoryStore

theorem liveMagnitude_nonneg (store : InMemoryStore) : 0 ≤ store.liveMagnitude :=
  Cent.magnitude_nonneg _

/-- What is active takes no more room than what is live. -/
theorem magnitude_active_le (store : InMemoryStore) :
    Cent.magnitude (store.postings.active.values.map Posting.value) ≤ store.liveMagnitude := by
  rw [liveMagnitude, livePostings, List.map_append, Cent.magnitude_append]
  have := Cent.magnitude_nonneg
    ((store.postings.reserved.values.map Prod.fst).map Posting.value)
  omega

end InMemoryStore

/-! ## Resolution succeeds -/

section Resolution

variable [Sha256] {before after : World} {store : InMemoryStore} {transfer : Transfer}

omit [Sha256] in
/-- Resolution has what it needs to decide about a feasible transfer. -/
theorem Feasible.answerable (hfeasible : Feasible store transfer) : Answerable store transfer where
  payers movement hmovement := by
    obtain ⟨account, hlatest, _⟩ := hfeasible.payers movement hmovement
    exact ⟨account, hlatest⟩
  payees movement hmovement := by
    obtain ⟨account, hlatest, _⟩ := hfeasible.payees movement hmovement
    exact ⟨account, hlatest⟩
  owed n key := by
    have hroom := hfeasible.room
    have hlive := store.liveMagnitude_nonneg
    have hamounts := transfer.magnitude_nonneg
    refine Cent.holds_of_abs_le ((abs_keyTotal_take_le n key).trans ?_)
    rw [← Transfer.magnitude]
    omega
  funds key _ := by
    have hroom := hfeasible.room
    have hlive := store.liveMagnitude_nonneg
    have hamounts := transfer.magnitude_nonneg
    have hsublist : (positives (store.postings.active.values.filter (·.key = key))).Sublist
        store.postings.active.values := List.filter_sublist.trans List.filter_sublist
    have hsmall := Cent.magnitude_le_of_sublist (hsublist.map Posting.value)
    have hactive := store.magnitude_active_le
    have hsum := Cent.abs_sum_le
      ((positives (store.postings.active.values.filter (·.key = key))).map Posting.value)
    rw [List.map_map] at hsum
    exact Cent.holds_of_abs_le (hsum.trans (by omega))

/-- A feasible transfer is resolved, however its resolution runs. -/
theorem Feasible.resolve_ok (hfeasible : Feasible before.store transfer)
    {result : Except LedgerError Envelope} (halone : Alone (resolve transfer) before result after) :
    ∃ envelope, result = .ok envelope := by
  obtain ⟨_, hok⟩ | ⟨⟨key, hpositive, hpoor⟩, _⟩ := hfeasible.answerable.resolve_decides halone
  · exact hok
  · exact absurd (hfeasible.affordable key hpositive) hpoor

/-! ## What is resolved is admissible -/

section Admitting

variable {envelope : Envelope} {spent : List Posting} {extra : List NewPosting}

/-- The postings that make up the differences take no more room than what is
spent and what is owed. -/
theorem Resolved.magnitude_extra_le (hresolved : Resolved store transfer envelope spent extra)
    (hmadeUp : MadeUp transfer extra) :
    Cent.magnitude (extra.map NewPosting.value) ≤
      Cent.magnitude (spent.map Posting.value) + transfer.magnitude := by
  have hspent : ((extra.map NewPosting.key).map fun key =>
      |keyTotal Posting.key Posting.value spent key|).sum ≤ _ := sum_abs_keyTotal_le hmadeUp.keys
  have howed : ((extra.map NewPosting.key).map fun key => |transfer.outgoing key|).sum ≤
      transfer.magnitude := sum_abs_keyTotal_le hmadeUp.keys
  have heach : ∀ posting ∈ extra, |posting.value.val| ≤
      |keyTotal Posting.key Posting.value spent posting.key| + |transfer.outgoing posting.key| := by
    intro posting hposting
    have hexact := hresolved.exact posting.key
    rw [keyTotal_of_nodup hmadeUp.keys hposting] at hexact
    have howes := hmadeUp.owed posting hposting
    have hsplit := abs_sub (keyTotal Posting.key Posting.value spent posting.key)
      (transfer.outgoing posting.key)
    have hvalue : posting.value.val = keyTotal Posting.key Posting.value spent posting.key -
        transfer.outgoing posting.key := by omega
    rw [hvalue]
    exact hsplit
  have hsum := List.sum_le_sum heach
  rw [List.sum_map_add] at hsum
  rw [List.map_map] at hspent howed
  rw [Cent.magnitude, List.map_map]
  exact hsum.trans (add_le_add hspent howed)

/-- There is room for a resolved envelope. -/
theorem Feasible.room_resolved (hfeasible : Feasible store transfer)
    (hresolved : Resolved store transfer envelope spent extra) (hmadeUp : MadeUp transfer extra) :
    store.liveMagnitude + Cent.magnitude (spent.map Posting.value) +
      Cent.magnitude (envelope.creates.map NewPosting.value) ≤ Backing.max backing := by
  have hroom := hfeasible.room
  obtain ⟨taken, hperm, hsublist⟩ := hresolved.subperm
  have hspent : Cent.magnitude (spent.map Posting.value) ≤ store.liveMagnitude := by
    rw [← Cent.magnitude_perm (hperm.map Posting.value)]
    exact (Cent.magnitude_le_of_sublist (hsublist.map _)).trans store.magnitude_active_le
  have hextra := hresolved.magnitude_extra_le hmadeUp
  have hcredits : (transfer.movements.map Movement.credit).map NewPosting.value =
      transfer.movements.map (·.amount) := by
    rw [List.map_map]
    rfl
  rw [hresolved.creates, List.map_append, Cent.magnitude_append, hcredits, ← Transfer.magnitude]
  omega

theorem Feasible.owners_resolved (hfeasible : Feasible store transfer)
    (hresolved : Resolved store transfer envelope spent extra) (hmadeUp : MadeUp transfer extra) :
    ∀ id, id ∈ envelope.creates.map (·.owner) ∨ id ∈ spent.map (·.owner) →
      Participates store id := by
  rintro id (hid | hid)
  · rw [hresolved.creates, List.map_append, List.map_map, List.mem_append] at hid
    rcases hid with hcredit | hextra
    · obtain ⟨movement, hmovement, rfl⟩ := List.mem_map.mp hcredit
      exact hfeasible.payees movement hmovement
    · obtain ⟨posting, hposting, rfl⟩ := List.mem_map.mp hextra
      exact hfeasible.payer_of_outgoing (hmadeUp.owed posting hposting)
  · obtain ⟨posting, hposting, rfl⟩ := List.mem_map.mp hid
    exact hfeasible.payer_of_outgoing (hresolved.debited posting hposting)

/-- A resolved envelope pins something, and only current versions. -/
theorem Resolved.pins (hresolved : Resolved store transfer envelope spent extra)
    (hwell : WellFormed store) (hmovements : transfer.movements ≠ []) :
    envelope.accountSnapshots ≠ [] ∧ ∀ snapshot ∈ envelope.accountSnapshots, ∃ account,
      store.latest snapshot.account = some account ∧
        snapshot.snapshotId = accountHash account := by
  obtain ⟨accounts, haccounts, hsnapshots⟩ := hresolved.pinned
  rw [InMemoryStore.getAccounts_eq_ok_iff] at haccounts
  constructor
  · obtain ⟨movement, hmovement⟩ := List.exists_mem_of_ne_nil _ hmovements
    have hcredit : movement.credit ∈ envelope.creates := by
      rw [hresolved.creates]
      exact List.mem_append_left _ (List.mem_map_of_mem hmovement)
    have howner : movement.credit.owner ∈ envelope.referencedAccounts :=
      List.mem_sortDedup.mpr (List.mem_map_of_mem hcredit)
    obtain ⟨account, haccount, _⟩ := haccounts.exists_of_mem_left howner
    rw [hsnapshots]
    exact List.ne_nil_of_mem (List.mem_map_of_mem haccount)
  · intro snapshot hsnapshot
    rw [hsnapshots] at hsnapshot
    obtain ⟨account, haccount, rfl⟩ := List.mem_map.mp hsnapshot
    obtain ⟨id, _, hlatest⟩ := haccounts.exists_of_mem_right haccount
    have hid := hwell.versions id account (InMemoryStore.mem_versions_of_latest hlatest)
    rw [← hid] at hlatest
    exact ⟨account, hlatest, rfl⟩

/-- Nothing stands against what a feasible transfer resolves to. -/
theorem Feasible.admissible (hfeasible : Feasible store transfer) (hwell : WellFormed store)
    (hconsistent : Consistent store) (hsafe : OverdraftSafe store)
    (hresolved : Resolved store transfer envelope spent extra) (hmadeUp : MadeUp transfer extra) :
    Admissible store envelope spent := by
  have hnonneg : ∀ key, Guarded store envelope spent key → 0 ≤ store.liveBalance key +
      keyTotal NewPosting.key NewPosting.value envelope.creates key -
        keyTotal Posting.key Posting.value spent key := by
    rintro key ⟨_, account, hlatest, hforbids⟩
    have howed := hfeasible.outgoing_le hconsistent hsafe hlatest hforbids
    have hnet := hresolved.net key
    have hincoming := hfeasible.incoming_nonneg key
    omega
  constructor
  constructor
  case creates =>
    rw [hresolved.creates]
    simp [hfeasible.movements]
  case nodup => exact hresolved.nodup_consumes hconsistent
  case found => exact hresolved.forall₂_recorded hfeasible.recorded
  case owners => exact hfeasible.owners_resolved hresolved hmadeUp
  case pins => exact (hresolved.pins hwell hfeasible.movements).2
  case book => exact hresolved.book ▸ hfeasible.book
  case room => exact hfeasible.room_resolved hresolved hmadeUp
  case pinned => exact (hresolved.pins hwell hfeasible.movements).1
  case active => exact hresolved.consumes_active hconsistent
  case balanced => exact hresolved.balanced_iff.mpr hfeasible.outgoing_nonneg
  case permits =>
    intro posting hposting hnegative
    rw [hresolved.creates] at hposting
    rcases List.mem_append.mp hposting with hcredit | hextra
    · obtain ⟨movement, hmovement, rfl⟩ := List.mem_map.mp hcredit
      have hamount := hfeasible.amounts movement hmovement
      exact absurd hnegative (not_lt.mpr hamount)
    · exact hresolved.permits posting hextra hnegative
  case projected => exact hnonneg
  case floor =>
    rw [hresolved.activeOf_consumes hconsistent]
    exact hnonneg

/-- A feasible transfer whose envelope is not stored yet is committed, at any time. -/
theorem Feasible.exists_commit (hfeasible : Feasible store transfer) (hwell : WellFormed store)
    (hconsistent : Consistent store) (hsafe : OverdraftSafe store)
    (hunstored : ∀ envelope spent extra, Resolved store transfer envelope spent extra →
      envelopeId envelope ∉ store.transfers) (clock : Clock) (ts : Int64) :
    ∃ envelope spent extra loaded, Resolved store transfer envelope spent extra ∧
      MadeUp transfer extra ∧ LoadedFrom store envelope loaded ∧
      Alone (commit transfer) ⟨store, clock⟩ (.ok ⟨envelopeId envelope⟩)
        ⟨store.applyCommit (some ts) (commitRequest envelope (planOf envelope) loaded ts),
          some ts⟩ := by
  obtain ⟨result, later, halone⟩ := (resolve_readOnly transfer).exists_alone ⟨store, clock⟩
  obtain ⟨envelope, rfl⟩ := Feasible.resolve_ok hfeasible halone
  obtain ⟨spent, extra, hresolved, hmadeUp⟩ := resolve_alone_madeUp halone
  obtain ⟨loaded, hloaded, hcommit⟩ := (hfeasible.admissible hwell hconsistent hsafe hresolved
    hmadeUp).commits hwell hconsistent (hunstored envelope spent extra hresolved) later ts
  exact ⟨envelope, spent, extra, loaded, hresolved, hmadeUp, hloaded,
    alone_bind_ok_iff.mpr ⟨envelope, _, halone, hcommit⟩⟩

end Admitting

end Resolution

end Kuatia
