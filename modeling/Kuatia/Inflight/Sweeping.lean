import Kuatia.Inflight.Settling
import Kuatia.Ledger.Fitting

/-! # Paying out a whole balance

A transfer that pays out everything a hold has of an asset spends all its positive
postings and needs no change. It is committed whenever both parties take part in
transfers and the balance of the target has room for the amount.
-/

namespace Kuatia

open LedgerM

open MoneyWidth (backing)

variable [MoneyWidth] [Sha256]

/-- The account takes part in transfers, and may not be overdrawn. -/
def HoldsFunds (store : InMemoryStore) (id : AccountId) : Prop :=
  ∃ account, store.latest id = some account ∧ account.isFrozen = false ∧
    account.isClosed = false ∧ account.forbidsOverdraft = true

omit [Sha256] in
theorem HoldsFunds.participates {store : InMemoryStore} {id : AccountId}
    (hholds : HoldsFunds store id) : Participates store id := by
  obtain ⟨account, hlatest, hfrozen, hclosed, _⟩ := hholds
  exact ⟨account, hlatest, hfrozen, hclosed⟩

omit [Sha256] in
/-- What is active under a key of an account whose transfers are all indexed is recorded. -/
theorem Accounted.recorded {store : InMemoryStore} (haccounted : Accounted store)
    {key : BalanceKey} (hindexed : IndexedFor store key.1) : Recorded store key := by
  intro posting hposting hkey
  obtain ⟨id, hlookup⟩ := HashMap.mem_values_iff.mp (List.mem_filter.mp hposting).1
  have hid := haccounted.consistent.active_keyed id posting hlookup
  have hcreated := ((haccounted.consistent.mem_active id).mp
    (HashMap.mem_iff_exists_lookup.mpr ⟨posting, hlookup⟩)).1
  obtain ⟨recorded, hrecorded⟩ := HashMap.mem_iff_exists_lookup.mp
    ((haccounted.consistent.mem_immutable id).mpr hcreated)
  have hsame := haccounted.eq_recorded hindexed hlookup hrecorded (.inl (congrArg Prod.fst hkey))
  rw [hid, hrecorded, hsame]

/-- All of `amount`, which is what the hold has of the asset, can be paid to `target`. -/
structure Sweepable (store : InMemoryStore) (book : BookId) (hold target : AccountId)
    (asset : AssetId) (amount : Cent) : Prop where
  accounted : Accounted store
  safe : OverdraftSafe store
  payer : HoldsFunds store hold
  recorded : Recorded store (hold, asset)
  payee : Participates store target
  other : target ≠ hold
  positive : 0 < amount.val
  whole : store.liveBalance (hold, asset) = amount.val
  book : AllowsAll store book
  sums : ∀ order, SumsUp store order (hold, asset) ∧ SumsUp store order (target, asset)
  fits : Cent.Holds (store.liveBalance (target, asset) + amount.val)

namespace Sweepable

variable {store : InMemoryStore} {book : BookId} {hold target : AccountId} {asset : AssetId}
  {amount : Cent} {metadata : Metadata} (hsweep : Sweepable store book hold target asset amount)

include hsweep

omit [Sha256] in
/-- The hold has exactly the amount to spend. -/
theorem funds_eq : store.fundsUnder (hold, asset) = amount.val := by
  obtain ⟨account, hlatest, _, _, hforbids⟩ := hsweep.payer
  rw [hsweep.safe.fundsUnder_eq hsweep.accounted.consistent hlatest hforbids, hsweep.whole]

omit [Sha256] hsweep in
theorem eq_of_outgoing {key : BalanceKey}
    (howes : 0 < (settlingTransfer book hold target asset amount metadata).outgoing key) :
    key = (hold, asset) := by
  rw [outgoing_settlingTransfer] at howes
  by_contra hne
  rw [if_neg (Ne.symm hne)] at howes
  exact absurd howes (lt_irrefl 0)

omit [Sha256] in
theorem answerable :
    Answerable store (settlingTransfer book hold target asset amount metadata) where
  payers := by
    obtain ⟨account, hlatest, _⟩ := hsweep.payer
    exact List.forall_mem_singleton.mpr ⟨account, hlatest⟩
  payees := by
    obtain ⟨account, hlatest, _⟩ := hsweep.payee
    exact List.forall_mem_singleton.mpr ⟨account, hlatest⟩
  owed n key := by
    refine Cent.holds_of_abs_le ((abs_keyTotal_take_le n key).trans ?_)
    have hpositive := hsweep.positive
    have hmax := amount.le_max
    simp only [settlingTransfer, List.map_cons, List.map_nil, Cent.magnitude_cons,
      Cent.magnitude_nil, add_zero]
    rw [abs_of_nonneg (by omega)]
    exact hmax
  funds key howes := by
    rw [eq_of_outgoing howes, hsweep.funds_eq]
    exact Cent.holds_of_val amount

/-- However the payout is resolved, it is resolved. -/
theorem resolves {clock : Clock} {result : Except LedgerError Envelope} {after : World}
    (halone : Alone (resolve (settlingTransfer book hold target asset amount metadata))
      ⟨store, clock⟩ result after) : ∃ envelope, result = .ok envelope := by
  obtain ⟨_, hok⟩ | ⟨⟨key, howes, hpoor⟩, _⟩ := hsweep.answerable.resolve_decides halone
  · exact hok
  · refine absurd (.inl ?_) hpoor
    cases eq_of_outgoing howes
    have hfunds := hsweep.funds_eq
    rw [InMemoryStore.fundsUnder] at hfunds
    rw [hfunds, outgoing_settlingTransfer, if_pos rfl]

variable {envelope : Envelope} {spent : List Posting} {extra : List NewPosting}
  (hresolved : Resolved store (settlingTransfer book hold target asset amount metadata) envelope
    spent extra)

include hresolved

omit hsweep in
/-- Only the hold is debited. -/
theorem key_of_spent : ∀ posting ∈ spent, posting.key = (hold, asset) :=
  fun posting hposting => eq_of_outgoing (hresolved.debited posting hposting)

omit hsweep in
theorem spent_positive : ∀ posting ∈ spent, 0 < posting.value.val := fun _ hposting =>
  Cent.isPositive_iff.mp (List.mem_filter.mp (hresolved.mem_active hposting)).2

/-- The hold spends all its funds, so there is no change. -/
theorem no_change (hmadeUp : MadeUp (settlingTransfer book hold target asset amount metadata) extra)
    (hnonzero : ∀ posting ∈ extra, posting.value.val ≠ 0) : extra = [] := by
  by_contra hsome
  obtain ⟨posting, hposting⟩ := List.exists_mem_of_ne_nil _ hsome
  have hkey := eq_of_outgoing (hmadeUp.owed posting hposting)
  have hexact := hresolved.exact (hold, asset)
  have hspent := hresolved.spent_le_funds (hold, asset)
  have hpositive := hsweep.positive
  rw [← hkey, keyTotal_of_nodup hmadeUp.keys hposting, hkey, outgoing_settlingTransfer,
    if_pos rfl, max_eq_right hpositive.le] at hexact
  rw [hsweep.funds_eq] at hspent
  have hvalue := hnonzero posting hposting
  -- the change would be negative, and the hold does not permit that
  obtain ⟨other, hother, hpermits⟩ := hresolved.permits posting hposting (by omega)
  obtain ⟨account, hlatest, _, _, hforbids⟩ := hsweep.payer
  have howner : posting.owner = hold := congrArg Prod.fst hkey
  rw [howner, hlatest] at hother
  cases hother
  cases hforbids.symm.trans hpermits

end Sweepable

section Whole

variable {store : InMemoryStore} {book : BookId} {hold target : AccountId} {asset : AssetId}
  {amount : Cent} {metadata : Metadata} {envelope : Envelope} {spent : List Posting}
  (hsweep : Sweepable store book hold target asset amount)
  (hresolved : Resolved store (settlingTransfer book hold target asset amount metadata) envelope
    spent [])

include hresolved

theorem Sweepable.creates_eq : envelope.creates = [Movement.credit ⟨hold, target, asset, amount⟩] := by
  rw [hresolved.creates, List.append_nil]
  rfl

theorem Sweepable.created_total (key : BalanceKey) :
    keyTotal NewPosting.key NewPosting.value envelope.creates key =
      if (target, asset) = key then amount.val else 0 := by
  rw [Sweepable.creates_eq hresolved, keyTotal_cons, keyTotal_nil, add_zero]
  rfl

/-- What is created fits, by key as by asset. -/
theorem Sweepable.created_take {K : Type} [DecidableEq K] (keyOf : NewPosting → K) (n : Nat)
    (key : K) (hpositive : 0 < amount.val) :
    0 ≤ keyTotal keyOf NewPosting.value (envelope.creates.take n) key ∧
      keyTotal keyOf NewPosting.value (envelope.creates.take n) key ≤ amount.val := by
  rw [Sweepable.creates_eq hresolved]
  have hnonneg : ∀ posting ∈ [Movement.credit ⟨hold, target, asset, amount⟩],
      0 ≤ posting.value.val := List.forall_mem_singleton.mpr hpositive.le
  refine ⟨keyTotal_nonneg fun posting hposting _ =>
    hnonneg posting (List.mem_of_mem_take hposting), ?_⟩
  have hall : keyTotal NewPosting.asset NewPosting.value
      [Movement.credit ⟨hold, target, asset, amount⟩] asset = amount.val := by
    simp [keyTotal_cons, Movement.credit]
  rw [← hall]
  exact keyTotal_le_of_sublist (List.take_sublist n _) hnonneg
    (List.forall_mem_singleton.mpr fun _ => rfl)

/-- The parties are the hold and the target, and so are the balances that are touched. -/
theorem Sweepable.touched {key : BalanceKey}
    (htouched : key ∈ (requiredState envelope spent).balances) :
    key = (target, asset) ∨ key = (hold, asset) := by
  rw [mem_requiredState_balances, Sweepable.creates_eq hresolved] at htouched
  refine htouched.imp (fun hcreated => ?_) fun hspent => ?_
  · exact List.mem_singleton.mp hcreated
  · obtain ⟨posting, hposting, rfl⟩ := List.mem_map.mp hspent
    exact Sweepable.key_of_spent hresolved posting hposting

include hsweep

theorem Sweepable.spent_total :
    keyTotal Posting.key Posting.value spent (hold, asset) = amount.val := by
  have hexact := hresolved.exact (hold, asset)
  rwa [keyTotal_nil, sub_zero, outgoing_settlingTransfer, if_pos rfl,
    max_eq_right hsweep.positive.le] at hexact

/-- What is spent fits, by key as by asset. -/
theorem Sweepable.spent_take {K : Type} [DecidableEq K] (keyOf : Posting → K) (n : Nat) (key : K) :
    0 ≤ keyTotal keyOf Posting.value (spent.take n) key ∧
      keyTotal keyOf Posting.value (spent.take n) key ≤ amount.val := by
  have hpositive := Sweepable.spent_positive hresolved
  refine ⟨keyTotal_nonneg fun posting hposting _ =>
    (hpositive posting (List.mem_of_mem_take hposting)).le, ?_⟩
  rw [← hsweep.spent_total hresolved]
  exact keyTotal_le_of_sublist (List.take_sublist n _) (fun posting hposting =>
    (hpositive posting hposting).le) fun posting hposting _ =>
      Sweepable.key_of_spent hresolved posting hposting

theorem Sweepable.conserved (order : IterationOrder) :
    checkConservation order envelope spent = .ok () := by
  have hmax := amount.le_max
  refine checkConservation_eq_ok_iff.mpr ⟨?_, ?_, hresolved.balanced_iff.mpr fun key => ?_⟩
  · refine Totals.exists_addAll_of_holds fun n key => Cent.holds_of_abs_le ?_
    have hfits := hsweep.spent_take hresolved Posting.asset n key
    rw [Totals.get_empty, Cent.val_ZERO, zero_add, abs_of_nonneg hfits.1]
    omega
  · refine Totals.exists_addAll_of_holds fun n key => Cent.holds_of_abs_le ?_
    have hfits := Sweepable.created_take hresolved NewPosting.asset n key hsweep.positive
    rw [Totals.get_empty, Cent.val_ZERO, zero_add, abs_of_nonneg hfits.1]
    omega
  · have hpositive := hsweep.positive
    rw [outgoing_settlingTransfer]
    split <;> omega

/-- The changes of the balances are computed without overflow. -/
theorem Sweepable.exists_balanceDeltas : ∃ deltas, balanceDeltas envelope spent = .ok deltas := by
  have hmax := amount.le_max
  have hsub : ∃ middle, Totals.subAll ∅ Posting.key Posting.value spent = .ok middle := by
    refine Totals.exists_subAll_of_holds fun n key => Cent.holds_of_abs_le ?_
    have hfits := hsweep.spent_take hresolved Posting.key n key
    rw [Totals.get_empty, Cent.val_ZERO, zero_sub, abs_neg, abs_of_nonneg hfits.1]
    omega
  obtain ⟨middle, hsub⟩ := hsub
  have hadd : ∃ deltas,
      middle.addAll NewPosting.key NewPosting.value envelope.creates = .ok deltas := by
    refine Totals.exists_addAll_of_holds fun n key => Cent.holds_of_abs_le ?_
    have hspent := hsweep.spent_take hresolved Posting.key spent.length key
    have hmade := Sweepable.created_take hresolved NewPosting.key n key hsweep.positive
    rw [List.take_length] at hspent
    rw [Totals.val_get_of_subAll hsub, Totals.get_empty, Cent.val_ZERO, zero_sub, abs_le]
    omega
  obtain ⟨deltas, hadd⟩ := hadd
  exact ⟨deltas, Except.bind_eq_ok_iff.mpr ⟨middle, hsub, hadd⟩⟩

/-- The hold is left with nothing, and the target has room for the amount. -/
theorem Sweepable.floor {key : BalanceKey} (htouched : key ∈ (requiredState envelope spent).balances)
    {account : Account} (hlatest : store.latest key.1 = some account)
    (hforbids : account.forbidsOverdraft = true) :
    keyTotal NewPosting.key NewPosting.value envelope.creates key ≤ Backing.max backing ∧
    0 ≤ store.liveBalance key + keyTotal NewPosting.key NewPosting.value envelope.creates key -
      keyTotal Posting.key Posting.value spent key ∧
    store.liveBalance key + keyTotal NewPosting.key NewPosting.value envelope.creates key -
      keyTotal Posting.key Posting.value spent key ≤ Backing.max backing := by
  have hmax := amount.le_max
  have hpositive := hsweep.positive
  rw [Sweepable.created_total hresolved]
  rcases Sweepable.touched hresolved htouched with rfl | rfl
  · have hspent : keyTotal Posting.key Posting.value spent (target, asset) = 0 := by
      refine keyTotal_eq_zero fun posting hposting hkey => hsweep.other ?_
      rw [Sweepable.key_of_spent hresolved posting hposting] at hkey
      exact (congrArg Prod.fst hkey).symm
    have hlive : 0 ≤ store.liveBalance (target, asset) := by
      refine keyTotal_nonneg fun posting hposting hkey => ?_
      obtain ⟨id, hlookup⟩ :=
        (InMemoryStore.mem_livePostings hsweep.accounted.consistent.reserved).mp hposting
      have howner : posting.owner = target := congrArg Prod.fst hkey
      exact hsweep.safe.nonneg (howner ▸ hlatest) hforbids hlookup
    have hfits := hsweep.fits.2
    rw [hspent, if_pos rfl]
    omega
  · have hne : (target, asset) ≠ (hold, asset) := fun hkey => hsweep.other (congrArg Prod.fst hkey)
    rw [if_neg hne, hsweep.spent_total hresolved, hsweep.whole]
    omega

/-- What a whole balance is paid out by fits the store. -/
theorem Sweepable.fitting : Fitting store envelope spent where
  wellFormed := hsweep.accounted.wellFormed
  consistent := hsweep.accounted.consistent
  pinned := (hresolved.pins hsweep.accounted.wellFormed (List.cons_ne_nil _ _)).1
  pins := (hresolved.pins hsweep.accounted.wellFormed (List.cons_ne_nil _ _)).2
  creates := by
    rw [Sweepable.creates_eq hresolved]
    exact List.cons_ne_nil _ _
  nodup := hresolved.nodup_consumes hsweep.accounted.consistent
  found := by
    refine hresolved.forall₂_recorded fun key howes => ?_
    cases Sweepable.eq_of_outgoing howes
    exact hsweep.recorded
  active := hresolved.consumes_active hsweep.accounted.consistent
  selected := hresolved.activeOf_consumes hsweep.accounted.consistent
  owners id hid := by
    rw [Sweepable.creates_eq hresolved] at hid
    rcases hid with hcredit | hspent
    · rw [List.mem_singleton.mp hcredit]
      exact hsweep.payee
    · obtain ⟨posting, hposting, rfl⟩ := List.mem_map.mp hspent
      have howner : posting.owner = hold :=
        congrArg Prod.fst (Sweepable.key_of_spent hresolved posting hposting)
      exact howner ▸ hsweep.payer.participates
  book := hresolved.book ▸ hsweep.book
  conserved := hsweep.conserved hresolved
  deltas := hsweep.exists_balanceDeltas hresolved
  permits posting hposting hnegative := by
    rw [Sweepable.creates_eq hresolved] at hposting
    rw [List.mem_singleton.mp hposting] at hnegative
    exact absurd hnegative (not_lt.mpr hsweep.positive.le)
  sums key htouched order := by
    rcases Sweepable.touched hresolved htouched with rfl | rfl
    · exact (hsweep.sums order).2
    · exact (hsweep.sums order).1
  solvent key account hlatest hforbids posting hposting hkey := by
    obtain ⟨id, hlookup⟩ := HashMap.mem_values_iff.mp hposting
    have howner : posting.owner = key.1 := congrArg Prod.fst hkey
    exact hsweep.safe.nonneg (howner ▸ hlatest) hforbids hlookup
  floor _ htouched _ := hsweep.floor hresolved htouched

end Whole

/-- Only the clock can keep a whole balance from being paid out. -/
theorem Sweepable.commit {before after : World} {book : BookId} {hold target : AccountId}
    {asset : AssetId} {amount : Cent} {metadata : Metadata}
    (hsweep : Sweepable before.store book hold target asset amount)
    {result : Except LedgerError Receipt}
    (halone : Alone (commit (settlingTransfer book hold target asset amount metadata)) before
      result after) :
    (∃ receipt, result = .ok receipt) ∨ ∃ err, result = .error err ∧ after.clock = none := by
  obtain ⟨envelope, middle, hresolve, hrest⟩ | ⟨_, hresolve, _⟩ := alone_bind_iff.mp halone
  · obtain ⟨spent, extra, hresolved, hmadeUp, hnonzero⟩ := resolve_alone_nonzero hresolve
    cases hsweep.no_change hresolved hmadeUp hnonzero
    have hdeliverable := (hsweep.fitting hresolved).deliverable
    rw [← (resolve_readOnly _).store_eq hresolve] at hdeliverable
    exact hdeliverable.commitEnvelope hrest
  · obtain ⟨_, hok⟩ := hsweep.resolves hresolve
    cases hok

end Kuatia
