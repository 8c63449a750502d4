import Kuatia.Ledger.Fitting

/-! # Payments to new accounts

A trade that is accepted is accepted just as well when its credits go to accounts
that have only just been opened. The debtors are charged the same, no debtor is
credited any more, and an account that owned nothing has room for what it is given.
-/

namespace Kuatia

open LedgerM

open MoneyWidth (backing)

variable [MoneyWidth]

/-- `other` takes what `transfer` takes, and gives it to accounts that have been
opened since. -/
structure PaysNew (before after : InMemoryStore) (transfer other : Transfer) : Prop where
  debits : transfer.SameDebits other
  positive : ∀ movement ∈ other.movements, 0 < movement.amount.val
  fresh : ∀ movement ∈ other.movements, before.versions movement.toAccount = []
  opened : ∀ movement ∈ other.movements, Participates after movement.toAccount
  book : AllowsAll before other.book

/-- What validation has seen of a transfer in a store. -/
structure Examined [Sha256] (store : InMemoryStore) (transfer : Transfer) (envelope : Envelope)
    (spent : List Posting) (extra : List NewPosting) (order : IterationOrder)
    (loaded : LoadedState) : Prop where
  resolved : Resolved store transfer envelope spent extra
  madeUp : MadeUp transfer extra
  recorded : loaded.consumedPostings = spent
  loads : LoadedFrom store envelope loaded
  checked : Checked order (loaded.input envelope) spent
  sums : ∀ key ∈ (requiredState envelope spent).balances, ∃ order, SumsUp store order key

/-- What `transfer` resolves to passes validation before the accounts are opened,
and `other` is resolved after that. Both spend the same. -/
structure Diverts [Sha256] (before after : InMemoryStore) (transfer other : Transfer)
    (envelope diverted : Envelope) (spent : List Posting) (extra : List NewPosting)
    (order : IterationOrder) (loaded : LoadedState) : Prop extends
    Examined before transfer envelope spent extra order loaded where
  consistent : Consistent before ∧ Consistent after
  wellFormed : WellFormed after
  safe : OverdraftSafe before
  owned : Owned before
  opened : OnlyOpened before after
  pays : PaysNew before after transfer other
  diverted : Resolved after other diverted spent extra

section Amounts

variable {before after : InMemoryStore} {transfer other : Transfer}

/-- The credits are of the same assets and amounts. -/
theorem Transfer.SameDebits.credits (hsame : transfer.SameDebits other) :
    (transfer.movements.map Movement.credit).map (fun posting => (posting.asset, posting.value)) =
      (other.movements.map Movement.credit).map fun posting => (posting.asset, posting.value) := by
  have hpairs := congrArg (List.map fun pair : BalanceKey × Cent => (pair.1.2, pair.2)) hsame
  rw [List.map_map, List.map_map] at hpairs ⊢
  exact hpairs

theorem PaysNew.credit_positive (hpays : PaysNew before after transfer other) :
    ∀ posting ∈ other.movements.map Movement.credit, 0 < posting.value.val := by
  intro posting hposting
  obtain ⟨movement, hmovement, rfl⟩ := List.mem_map.mp hposting
  exact hpays.positive movement hmovement

theorem PaysNew.credit_fresh (hpays : PaysNew before after transfer other) :
    ∀ posting ∈ other.movements.map Movement.credit, before.versions posting.owner = [] := by
  intro posting hposting
  obtain ⟨movement, hmovement, rfl⟩ := List.mem_map.mp hposting
  exact hpays.fresh movement hmovement

theorem PaysNew.outgoing_nonneg (hpays : PaysNew before after transfer other) (key : BalanceKey) :
    0 ≤ other.outgoing key :=
  keyTotal_nonneg fun movement hmovement _ => (hpays.positive movement hmovement).le

end Amounts

namespace Diverts

variable [Sha256] {before after : InMemoryStore} {transfer other : Transfer}
  {envelope diverted : Envelope} {spent : List Posting} {extra : List NewPosting}
  {order : IterationOrder} {loaded : LoadedState}
  (hdiverts : Diverts before after transfer other envelope diverted spent extra order loaded)

include hdiverts

/-! ## Debtors and newcomers -/

theorem latest_of_owner {id : AccountId} (hid : id ∈ (loaded.input envelope).owners) :
    Participates before id := by
  obtain ⟨account, hlookup, hopen⟩ := hdiverts.checked.accounts id hid
  exact ⟨account, hdiverts.loads.accounts id account hlookup, hopen⟩

/-- Whoever is debited was there before. -/
theorem debtor {key : BalanceKey} (htouched : (∃ posting ∈ spent, posting.key = key) ∨
    ∃ posting ∈ extra, posting.key = key) : Participates before key.1 := by
  apply hdiverts.latest_of_owner
  rw [PlanInput.mem_owners_iff]
  rcases htouched with ⟨posting, hposting, rfl⟩ | ⟨posting, hposting, rfl⟩
  · right
    exact List.mem_map_of_mem (hdiverts.checked.found.mem_consumedPostings hposting)
  · left
    have hcreated : posting ∈ envelope.creates := by
      rw [hdiverts.resolved.creates]
      exact List.mem_append_right _ hposting
    exact List.mem_map_of_mem hcreated

/-- A newcomer is neither debited nor given change. -/
theorem newcomer {key : BalanceKey} (hfresh : before.versions key.1 = []) :
    (∀ posting ∈ spent, posting.key ≠ key) ∧ ∀ posting ∈ extra, posting.key ≠ key := by
  have hnot : ¬Participates before key.1 := by
    rintro ⟨account, hlatest, _⟩
    rw [InMemoryStore.latest, hfresh] at hlatest
    cases hlatest
  exact ⟨fun posting hposting hkey => hnot (hdiverts.debtor (.inl ⟨posting, hposting, hkey⟩)),
    fun posting hposting hkey => hnot (hdiverts.debtor (.inr ⟨posting, hposting, hkey⟩))⟩

theorem not_credited {key : BalanceKey} (hold : before.versions key.1 ≠ []) :
    ∀ posting ∈ other.movements.map Movement.credit, posting.key ≠ key := by
  rintro posting hposting rfl
  exact hold (hdiverts.pays.credit_fresh posting hposting)

/-- A debtor that is touched owes something. -/
theorem owes {key : BalanceKey} (htouched : (∃ posting ∈ spent, posting.key = key) ∨
    ∃ posting ∈ extra, posting.key = key) : 0 < transfer.outgoing key := by
  rcases htouched with ⟨posting, hposting, rfl⟩ | ⟨posting, hposting, rfl⟩
  · exact hdiverts.resolved.debited posting hposting
  · exact hdiverts.madeUp.owed posting hposting

/-! ## What the newcomers are given -/

/-- Validation has added up what is created of each asset. -/
theorem holds_created (n : Nat) (asset : AssetId) :
    Cent.Holds (keyTotal NewPosting.asset NewPosting.value (envelope.creates.take n) asset) := by
  obtain ⟨_, ⟨created, hcreated⟩, _⟩ := checkConservation_eq_ok_iff.mp hdiverts.checked.conservation
  have hholds := Totals.holds_of_addAll hcreated n asset
  rwa [Totals.get_empty, Cent.val_ZERO, zero_add] at hholds

/-- The credits of one asset fit a `Cent`. -/
theorem credits_le (asset : AssetId) :
    keyTotal NewPosting.asset NewPosting.value (other.movements.map Movement.credit) asset ≤
      Backing.max backing := by
  have hholds := hdiverts.holds_created (transfer.movements.map Movement.credit).length asset
  have hsame : keyTotal NewPosting.asset NewPosting.value (transfer.movements.map Movement.credit)
      asset = keyTotal NewPosting.asset NewPosting.value (other.movements.map Movement.credit)
        asset := keyTotal_congr hdiverts.pays.debits.credits
  rw [hdiverts.resolved.creates, List.take_left, hsame] at hholds
  exact hholds.2

/-- So does any part of the credits of a newcomer. -/
theorem credits_bounded (n : Nat) (key : BalanceKey) :
    0 ≤ keyTotal NewPosting.key NewPosting.value
        ((other.movements.map Movement.credit).take n) key ∧
      keyTotal NewPosting.key NewPosting.value
        ((other.movements.map Movement.credit).take n) key ≤ Backing.max backing := by
  have hpositive := hdiverts.pays.credit_positive
  refine ⟨keyTotal_nonneg fun posting hposting _ =>
    (hpositive posting (List.mem_of_mem_take hposting)).le, le_trans ?_ (hdiverts.credits_le key.2)⟩
  exact keyTotal_le_of_sublist (List.take_sublist n _) (fun posting hposting =>
    (hpositive posting hposting).le) fun posting _ hkey => congrArg Prod.snd hkey

/-- And so does what one source owes. -/
theorem outgoing_bounded (key : BalanceKey) :
    0 ≤ transfer.outgoing key ∧ transfer.outgoing key ≤ Backing.max backing := by
  rw [hdiverts.pays.debits.outgoing]
  have hmoved : keyTotal Movement.asset Movement.amount other.movements key.2 ≤
      Backing.max backing := by
    have hcredits := hdiverts.credits_le key.2
    rwa [keyTotal_map] at hcredits
  refine ⟨hdiverts.pays.outgoing_nonneg key, le_trans ?_ hmoved⟩
  exact keyTotal_le_of_sublist (List.Sublist.refl _) (fun movement hmovement =>
    (hdiverts.pays.positive movement hmovement).le) fun movement _ hkey => congrArg Prod.snd hkey

/-- The first postings that are created, under one key: part of the credits of a
newcomer, or part of what makes up the difference of a debtor. -/
theorem created_take (n : Nat) (key : BalanceKey) :
    keyTotal NewPosting.key NewPosting.value (diverted.creates.take n) key =
      keyTotal NewPosting.key NewPosting.value ((other.movements.map Movement.credit).take n) key +
        keyTotal NewPosting.key NewPosting.value
          (extra.take (n - (other.movements.map Movement.credit).length)) key := by
  rw [hdiverts.diverted.creates, List.take_append, keyTotal_append]

/-- A newcomer is given its credits, and nothing is taken from it. -/
theorem given {key : BalanceKey} (hfresh : before.versions key.1 = []) (n : Nat) :
    0 ≤ keyTotal NewPosting.key NewPosting.value (diverted.creates.take n) key ∧
      keyTotal NewPosting.key NewPosting.value (diverted.creates.take n) key ≤
        Backing.max backing ∧ keyTotal Posting.key Posting.value spent key = 0 := by
  obtain ⟨hspent, hextra⟩ := hdiverts.newcomer hfresh
  have hrest : keyTotal NewPosting.key NewPosting.value
      (extra.take (n - (other.movements.map Movement.credit).length)) key = 0 :=
    keyTotal_eq_zero fun posting hposting => hextra posting (List.mem_of_mem_take hposting)
  have hbounded := hdiverts.credits_bounded n key
  rw [hdiverts.created_take, hrest, add_zero]
  exact ⟨hbounded.1, hbounded.2, keyTotal_eq_zero hspent⟩

/-- A debtor is given nothing but what makes up the difference, and all of it at once. -/
theorem charged {key : BalanceKey} (hold : before.versions key.1 ≠ []) (n : Nat) :
    keyTotal NewPosting.key NewPosting.value (diverted.creates.take n) key = 0 ∨
      keyTotal NewPosting.key NewPosting.value (diverted.creates.take n) key -
        keyTotal Posting.key Posting.value spent key = -transfer.outgoing key := by
  have hcredits : keyTotal NewPosting.key NewPosting.value
      ((other.movements.map Movement.credit).take n) key = 0 :=
    keyTotal_eq_zero fun posting hposting =>
      hdiverts.not_credited hold posting (List.mem_of_mem_take hposting)
  have hexact := hdiverts.resolved.exact key
  have hnonneg := (hdiverts.outgoing_bounded key).1
  rw [hdiverts.created_take, hcredits, zero_add]
  rcases keyTotal_take_of_nodup hdiverts.madeUp.keys
    (n - (other.movements.map Movement.credit).length) key with hnone | hall
  · exact .inl hnone
  · right
    rw [hall]
    omega

/-! ## Balances -/

/-- Every balance that is touched adds up. -/
theorem sumsUp {key : BalanceKey}
    (htouched : key ∈ (requiredState diverted spent).balances) (order : IterationOrder) :
    SumsUp after order key := by
  by_cases hfresh : before.versions key.1 = []
  · have hnothing := hdiverts.owned.ownsNothing hdiverts.consistent.1.reserved hfresh
    exact hdiverts.opened.sumsUp hdiverts.consistent.1 (hnothing.sumsUp order key.2)
  · have hrequired : key ∈ (requiredState envelope spent).balances := by
      rw [mem_requiredState_balances, hdiverts.resolved.creates]
      rw [mem_requiredState_balances, hdiverts.diverted.creates] at htouched
      refine htouched.imp_left fun hcreated => ?_
      rw [List.map_append, List.mem_append] at hcreated ⊢
      refine .inr (hcreated.resolve_left fun hcredit => ?_)
      obtain ⟨posting, hposting, hkey⟩ := List.mem_map.mp hcredit
      exact hdiverts.not_credited hfresh posting hposting hkey
    obtain ⟨other, hsum⟩ := hdiverts.sums key hrequired
    exact hdiverts.opened.sumsUp hdiverts.consistent.1 hsum

/-- The projected balance. -/
theorem mem_touched {key : BalanceKey} (hold : before.versions key.1 ≠ [])
    (htouched : key ∈ (requiredState diverted spent).balances) :
    (∃ posting ∈ spent, posting.key = key) ∨ ∃ posting ∈ extra, posting.key = key := by
  rw [mem_requiredState_balances, hdiverts.diverted.creates, List.map_append, List.mem_append]
    at htouched
  rcases htouched with (hcredit | hextra) | hspent
  · obtain ⟨posting, hposting, hkey⟩ := List.mem_map.mp hcredit
    exact absurd hkey (hdiverts.not_credited hold posting hposting)
  · exact .inr (List.mem_map.mp hextra)
  · exact .inl (List.mem_map.mp hspent)

/-- Where overdraft is forbidden, what is created and what is left fit a `Cent`, and
what is left is not negative. -/
theorem floor {key : BalanceKey} (htouched : key ∈ (requiredState diverted spent).balances)
    {account : Account} (hlatest : after.latest key.1 = some account)
    (hforbids : account.forbidsOverdraft = true) :
    keyTotal NewPosting.key NewPosting.value diverted.creates key ≤ Backing.max backing ∧
    0 ≤ before.liveBalance key + keyTotal NewPosting.key NewPosting.value diverted.creates key -
      keyTotal Posting.key Posting.value spent key ∧
    before.liveBalance key + keyTotal NewPosting.key NewPosting.value diverted.creates key -
      keyTotal Posting.key Posting.value spent key ≤ Backing.max backing := by
  have hnonneg : ∀ posting ∈ diverted.creates, posting.key = key → 0 ≤ posting.value.val := by
    intro posting hposting hkey
    by_contra hnegative
    rw [hdiverts.diverted.creates] at hposting
    rcases List.mem_append.mp hposting with hcredit | hextra
    · have hpositive := hdiverts.pays.credit_positive posting hcredit
      omega
    · obtain ⟨other, hother, hpermits⟩ :=
        hdiverts.diverted.permits posting hextra (not_le.mp hnegative)
      have howner : posting.owner = key.1 := congrArg Prod.fst hkey
      rw [howner, hlatest] at hother
      cases hother
      cases hforbids.symm.trans hpermits
  have hcreated : 0 ≤ keyTotal NewPosting.key NewPosting.value diverted.creates key :=
    keyTotal_nonneg hnonneg
  have hall : diverted.creates.take diverted.creates.length = diverted.creates := List.take_length
  by_cases hfresh : before.versions key.1 = []
  · have hgiven := hdiverts.given hfresh diverted.creates.length
    -- a new account starts from nothing and is only given
    have hnothing := hdiverts.owned.ownsNothing hdiverts.consistent.1.reserved hfresh
    have hlive : before.liveBalance key = 0 := hnothing.liveBalance key.2
    rw [hall] at hgiven
    omega
  · -- a debtor that may not be overdrawn spends what it owns, and gets the change back
    have hdebtor := hdiverts.mem_touched hfresh htouched
    have howes := hdiverts.owes hdebtor
    obtain ⟨other, hother, _⟩ := hdiverts.debtor hdebtor
    cases (hdiverts.opened.latest _ _ hother).symm.trans hlatest
    have hfunds := hdiverts.safe.fundsUnder_eq hdiverts.consistent.1 hother hforbids
    have hspent := hdiverts.resolved.spent_le_funds key
    have hsome := before.fundsUnder_nonneg key
    have hlive := (hdiverts.sumsUp htouched .listed).holds.2
    rw [hdiverts.opened.liveBalance_eq] at hlive
    have hnet := hdiverts.diverted.net key
    have hincoming : other.incoming key = 0 := by
      rw [← keyTotal_credits]
      exact keyTotal_eq_zero (hdiverts.not_credited hfresh)
    have hsame := hdiverts.pays.debits.outgoing key
    omega

/-! ## The checks -/

/-- Everybody concerned takes part in transfers. -/
theorem participates {id : AccountId}
    (hid : id ∈ diverted.creates.map (·.owner) ∨ id ∈ spent.map (·.owner)) :
    Participates after id := by
  have hdebtor : ∀ key : BalanceKey, ((∃ posting ∈ spent, posting.key = key) ∨
      ∃ posting ∈ extra, posting.key = key) → Participates after key.1 := by
    intro key htouched
    obtain ⟨account, hlatest, hopen⟩ := hdiverts.debtor htouched
    exact ⟨account, hdiverts.opened.latest _ _ hlatest, hopen⟩
  rw [hdiverts.diverted.creates, List.map_append, List.mem_append] at hid
  rcases hid with (hcredit | hextra) | hspent
  · rw [List.map_map] at hcredit
    obtain ⟨movement, hmovement, rfl⟩ := List.mem_map.mp hcredit
    exact hdiverts.pays.opened movement hmovement
  · obtain ⟨posting, hposting, rfl⟩ := List.mem_map.mp hextra
    exact hdebtor posting.key (.inr ⟨posting, hposting, rfl⟩)
  · obtain ⟨posting, hposting, rfl⟩ := List.mem_map.mp hspent
    exact hdebtor posting.key (.inl ⟨posting, hposting, rfl⟩)

/-- What was accepted was not empty, so something is moved. -/
theorem movements_ne_nil : other.movements ≠ [] := by
  intro hnone
  have hsame := congrArg List.length hdiverts.pays.debits
  rw [List.length_map, List.length_map, hnone, List.length_nil, List.length_eq_zero_iff] at hsame
  have hextra := hdiverts.resolved.few
  rw [hsame, List.length_nil, Nat.le_zero, List.length_eq_zero_iff] at hextra
  rcases hdiverts.checked.nonEmpty with hconsumes | hcreates
  · obtain ⟨id, hid⟩ := List.exists_mem_of_ne_nil _ hconsumes
    change id ∈ envelope.consumes at hid
    rw [hdiverts.resolved.consumes] at hid
    obtain ⟨posting, hposting, _⟩ := List.mem_map.mp hid
    obtain ⟨movement, hmovement, _⟩ :=
      exists_source_of_outgoing (hdiverts.resolved.debited posting hposting)
    rw [hsame] at hmovement
    cases hmovement
  · change envelope.creates ≠ [] at hcreates
    rw [hdiverts.resolved.creates, hsame, hextra] at hcreates
    exact hcreates rfl

theorem found : List.Forall₂ (fun id posting => after.postings.immutable.lookup id = some posting)
    diverted.consumes spent := by
  have hfound := hdiverts.loads.consumed
  rw [hdiverts.recorded, hdiverts.resolved.consumes, ← hdiverts.diverted.consumes] at hfound
  rw [hdiverts.opened.postings]
  exact hfound

theorem conserved (order : IterationOrder) : checkConservation order diverted spent = .ok () := by
  obtain ⟨hspent, hcreated, _⟩ := checkConservation_eq_ok_iff.mp hdiverts.checked.conservation
  refine checkConservation_eq_ok_iff.mpr ⟨hspent, ?_,
    hdiverts.diverted.balanced_iff.mpr hdiverts.pays.outgoing_nonneg⟩
  obtain ⟨totals, htotals⟩ := hcreated
  refine ⟨totals, htotals ▸ Totals.addAll_congr ∅ ?_⟩
  change _ = envelope.creates.map _
  rw [hdiverts.diverted.creates, hdiverts.resolved.creates, List.map_append, List.map_append,
    hdiverts.pays.debits.credits]

/-- The changes of the balances are computed without overflow. -/
theorem exists_balanceDeltas : ∃ deltas, balanceDeltas diverted spent = .ok deltas := by
  obtain ⟨⟨_, hdeltas⟩, _⟩ := checkOverdraft_eq_ok_iff.mp hdiverts.checked.overdraft
  obtain ⟨middle, hsub, _⟩ := Except.bind_eq_ok_iff.mp hdeltas
  have hadd : ∃ deltas,
      middle.addAll NewPosting.key NewPosting.value diverted.creates = .ok deltas := by
    refine Totals.exists_addAll_of_holds fun n key => ?_
    have hleft := Totals.val_get_of_subAll hsub key
    rw [Totals.get_empty, Cent.val_ZERO, zero_sub] at hleft
    by_cases hfresh : before.versions key.1 = []
    · obtain ⟨hnonneg, hle, hspent⟩ := hdiverts.given hfresh n
      refine Cent.holds_of_abs_le ?_
      rw [hleft, hspent, neg_zero, zero_add, abs_of_nonneg hnonneg]
      exact hle
    · rcases hdiverts.charged hfresh n with hnone | hall
      · rw [hnone, add_zero]
        exact Cent.holds_of_val _
      · obtain ⟨hnonneg, hle⟩ := hdiverts.outgoing_bounded key
        refine Cent.holds_of_abs_le ?_
        rw [hleft, neg_add_eq_sub, hall, abs_neg, abs_of_nonneg hnonneg]
        exact hle
  obtain ⟨deltas, hadd⟩ := hadd
  exact ⟨deltas, Except.bind_eq_ok_iff.mpr ⟨middle, hsub, hadd⟩⟩

/-- An account that forbids overdraft owns nothing negative. -/
theorem active_nonneg {key : BalanceKey} {account : Account}
    (hlatest : after.latest key.1 = some account) (hforbids : account.forbidsOverdraft = true) :
    ∀ posting ∈ after.postings.active.values, posting.key = key → 0 ≤ posting.value.val := by
  intro posting hposting hkey
  obtain ⟨id, hlookup⟩ := HashMap.mem_values_iff.mp hposting
  rw [hdiverts.opened.postings] at hlookup
  have howner : posting.owner = key.1 := congrArg Prod.fst hkey
  have hversions := hdiverts.owned id posting hlookup
  obtain ⟨old, hold⟩ : ∃ old, before.latest posting.owner = some old :=
    ⟨_, List.getLast?_eq_some_getLast hversions⟩
  cases (hdiverts.opened.latest _ _ hold).symm.trans (howner ▸ hlatest)
  exact hdiverts.safe.nonneg hold hforbids hlookup

/-- The diverted envelope fits the store in which the accounts have been opened. -/
theorem fitting : Fitting after diverted spent where
  wellFormed := hdiverts.wellFormed
  consistent := hdiverts.consistent.2
  pinned := (hdiverts.diverted.pins hdiverts.wellFormed hdiverts.movements_ne_nil).1
  pins := (hdiverts.diverted.pins hdiverts.wellFormed hdiverts.movements_ne_nil).2
  creates := by
    rw [hdiverts.diverted.creates]
    simp [hdiverts.movements_ne_nil]
  nodup := hdiverts.diverted.nodup_consumes hdiverts.consistent.2
  found := hdiverts.found
  active := hdiverts.diverted.consumes_active hdiverts.consistent.2
  selected := hdiverts.diverted.activeOf_consumes hdiverts.consistent.2
  owners _ := hdiverts.participates
  book := by
    have hallows := hdiverts.pays.book
    rwa [AllowsAll, ← hdiverts.opened.books, ← hdiverts.diverted.book] at hallows
  conserved := hdiverts.conserved
  deltas := hdiverts.exists_balanceDeltas
  permits posting hposting hnegative := by
    rw [hdiverts.diverted.creates] at hposting
    -- credits are positive; a negative change posting goes to a payer that permits it
    rcases List.mem_append.mp hposting with hcredit | hextra
    · have hpositive := hdiverts.pays.credit_positive posting hcredit
      omega
    · exact hdiverts.diverted.permits posting hextra hnegative
  sums _ := hdiverts.sumsUp
  solvent _ _ := hdiverts.active_nonneg
  floor key htouched account hlatest hforbids := by
    rw [hdiverts.opened.liveBalance_eq]
    exact hdiverts.floor htouched hlatest hforbids

/-- Only the clock can make a commit of the diverted envelope fail. -/
theorem deliverable : Deliverable after diverted := hdiverts.fitting.deliverable

end Diverts

end Kuatia
