import Kuatia.Core.Coverage
import Kuatia.Ledger.Loading
import Kuatia.Ledger.Overdraft
import Kuatia.Ledger.Resolving

/-! # Who can afford a transfer

Resolution looks at the positive active postings of each debtor. It refuses a
transfer exactly when one of the debtors has too little and may not be
overdrawn. Since an account that forbids overdraft owns no negative posting, what
it has to spend is its balance.
-/

namespace Kuatia

open LedgerM

open MoneyWidth (backing)

section Theory

variable [MoneyWidth]

/-- What the positive active postings under one key are worth together. -/
def InMemoryStore.fundsUnder (store : InMemoryStore) (key : BalanceKey) : Int :=
  ((positives (store.postings.active.values.filter (·.key = key))).map (·.value.val)).sum

theorem InMemoryStore.fundsUnder_nonneg (store : InMemoryStore) (key : BalanceKey) :
    0 ≤ store.fundsUnder key := by
  refine List.sum_nonneg fun value hvalue => ?_
  obtain ⟨posting, hposting, rfl⟩ := List.mem_map.mp hvalue
  exact (Cent.isPositive_iff.mp (List.mem_filter.mp hposting).2).le

theorem sum_positives {postings : List Posting}
    (hnonneg : ∀ posting ∈ postings, 0 ≤ posting.value.val) :
    ((positives postings).map (·.value.val)).sum = (postings.map (·.value.val)).sum := by
  induction postings with
  | nil => rfl
  | cons head tail ih =>
      rw [List.forall_mem_cons] at hnonneg
      have htail := ih hnonneg.2
      rw [List.map_cons, List.sum_cons, ← htail, positives, List.filter_cons]
      split
      next => rfl
      next hzero =>
        have hhead := hnonneg.1
        simp only [Cent.isPositive_iff, not_lt] at hzero
        rw [positives]
        omega

/-- An account that forbids overdraft owns nothing negative: it has its balance to
spend. -/
theorem OverdraftSafe.fundsUnder_eq {store : InMemoryStore} (hsafe : OverdraftSafe store)
    (hconsistent : Consistent store) {key : BalanceKey} {account : Account}
    (hlatest : store.latest key.1 = some account) (hforbids : account.forbidsOverdraft = true) :
    store.fundsUnder key = store.liveBalance key := by
  rw [InMemoryStore.fundsUnder, sum_positives, InMemoryStore.liveBalance,
    InMemoryStore.livePostings_of_reserved hconsistent.reserved]
  · rfl
  · intro posting hposting
    obtain ⟨hactive, hkey⟩ := List.mem_filter.mp hposting
    obtain ⟨id, hlookup⟩ := HashMap.mem_values_iff.mp hactive
    have howner : posting.owner = key.1 := congrArg Prod.fst (of_decide_eq_true hkey)
    exact hsafe.nonneg (howner ▸ hlatest) hforbids hlookup

/-- The account has enough positive postings, or may be overdrawn. -/
def Affordable (store : InMemoryStore) (key : BalanceKey) (amount : Int) : Prop :=
  amount ≤ ((positives (store.postings.active.values.filter (·.key = key))).map
    (·.value.val)).sum ∨
    ∃ account, store.latest key.1 = some account ∧ account.forbidsOverdraft = false

/-- The accounts of the transfer exist, and no sum of resolution leaves the range
of a `Cent`. -/
structure Answerable (store : InMemoryStore) (transfer : Transfer) : Prop where
  payers : ∀ movement ∈ transfer.movements, ∃ account,
    store.latest movement.fromAccount = some account
  payees : ∀ movement ∈ transfer.movements, ∃ account,
    store.latest movement.toAccount = some account
  owed : ∀ n key, Cent.Holds
    (keyTotal Movement.source Movement.amount (transfer.movements.take n) key)
  funds : ∀ key, 0 < transfer.outgoing key → Cent.Holds (store.fundsUnder key)

/-! ## Loading the debits -/

section Loading

variable {before after : World}

/-- What has been loaded stays loaded. -/
structure Extends (state next : ResolveState) : Prop where
  available : ∀ key ∈ state.available, key ∈ next.available
  accounts : ∀ id ∈ state.accounts, id ∈ next.accounts

theorem loadDebit_total {state : ResolveState} {debit : Debit} {account : Account}
    (hlatest : before.store.latest debit.account = some account)
    {result : Except LedgerError ResolveState}
    (halone : Alone (loadDebit state debit) before result after) :
    ∃ next, result = .ok next ∧ debit.key ∈ next.available ∧ debit.account ∈ next.accounts ∧
      Extends state next := by
  obtain ⟨postings, first, hread, hrest⟩ | ⟨_, hread, _⟩ := alone_bind_iff.mp halone
  swap
  · obtain ⟨_, hvalue, _⟩ := alone_read_iff.mp hread
    cases hvalue
  obtain ⟨_, _, rfl⟩ := alone_read_iff.mp hread
  have havailable : ∀ key ∈ state.available, key ∈ state.available.insert debit.key postings :=
    fun key hkey => (AList.mem_insert _).mpr (.inr hkey)
  dsimp only at hrest
  split at hrest
  next hloaded =>
    obtain ⟨rfl, _⟩ := alone_pure_iff.mp hrest
    exact ⟨_, rfl, (AList.mem_insert _).mpr (.inl rfl), hloaded, havailable, fun _ hid => hid⟩
  next =>
    obtain ⟨found, second, hread, hrest⟩ | ⟨_, hread, _⟩ := alone_bind_iff.mp hrest
    swap
    · obtain ⟨_, hvalue, _⟩ := alone_read_iff.mp hread
      cases hvalue
    obtain ⟨_, hvalue, rfl⟩ := alone_read_iff.mp hread
    cases hvalue
    have hfound := InMemoryStore.getAccount_eq_ok_iff.mpr hlatest
    rw [hfound] at hrest
    obtain ⟨value, third, haccount, hrest⟩ | ⟨_, haccount, _⟩ := alone_bind_iff.mp hrest
    swap
    · cases (alone_attempt_iff.mp haccount).1
    obtain ⟨rfl, _⟩ := alone_pure_iff.mp hrest
    exact ⟨_, rfl, (AList.mem_insert _).mpr (.inl rfl), (AList.mem_insert _).mpr (.inl rfl),
      havailable, fun id hid => (AList.mem_insert _).mpr (.inr hid)⟩

theorem loadDebits_total {debits : List Debit} {state : ResolveState}
    (hlatest : ∀ debit ∈ debits, ∃ account, before.store.latest debit.account = some account)
    {result : Except LedgerError ResolveState}
    (halone : Alone (debits.foldlM loadDebit state) before result after) :
    ∃ last, result = .ok last ∧ Extends state last ∧
      ∀ debit ∈ debits, debit.key ∈ last.available ∧ debit.account ∈ last.accounts := by
  induction debits generalizing state before with
  | nil =>
      obtain ⟨rfl, _⟩ := alone_pure_iff.mp halone
      exact ⟨state, rfl, ⟨fun _ hkey => hkey, fun _ hid => hid⟩, by simp⟩
  | cons debit debits ih =>
      rw [List.forall_mem_cons] at hlatest
      obtain ⟨account, haccount⟩ := hlatest.1
      obtain ⟨next, middle, hdebit, hrest⟩ | ⟨err, hdebit, _⟩ := alone_bind_iff.mp halone
      · have hstore := (loadDebit_readOnly state debit).store_eq hdebit
        obtain ⟨_, hok, hkey, hid, hextends⟩ := loadDebit_total haccount hdebit
        cases hok
        obtain ⟨last, hlast, hmore, hloaded⟩ := ih (by rw [hstore]; exact hlatest.2) hrest
        refine ⟨last, hlast, ⟨fun key hmem => hmore.available key (hextends.available key hmem),
          fun other hmem => hmore.accounts other (hextends.accounts other hmem)⟩, ?_⟩
        rw [List.forall_mem_cons]
        exact ⟨⟨hmore.available _ hkey, hmore.accounts _ hid⟩, hloaded⟩
      · obtain ⟨_, hok, _⟩ := loadDebit_total haccount hdebit
        cases hok

/-- What was read for a debit decides about it as the store does. -/
theorem Reads.coverable_iff {store : InMemoryStore} {state : ResolveState}
    (hreads : Reads store state) {debit : Debit} (hkey : debit.key ∈ state.available)
    (hid : debit.account ∈ state.accounts) :
    fundsOf state.available debit = store.fundsUnder debit.key ∧
      (Coverable state.available state.accounts debit ↔
        Affordable store debit.key debit.amount.val) := by
  obtain ⟨postings, hpostings⟩ := HashMap.mem_iff_exists_lookup.mp hkey
  obtain ⟨found, hfound⟩ := HashMap.mem_iff_exists_lookup.mp hid
  have hfunds : fundsOf state.available debit = store.fundsUnder debit.key := by
    have hperm := hreads.available _ _ hpostings
    rw [fundsOf, availableTo, hpostings]
    exact ((hperm.filter (·.value.isPositive)).map (·.value.val)).sum_eq
  have hlatest : state.accounts.lookup debit.account = store.latest debit.key.1 :=
    hfound.trans (hreads.accounts _ _ hfound).symm
  refine ⟨hfunds, ?_⟩
  rw [Coverable, ← fundsOf, hfunds, hlatest]
  rfl

end Loading

/-! ## Resolution decides -/

section Resolution

variable [Sha256] {before after : World} {transfer : Transfer}

/-- Accounts that exist are pinned. -/
theorem resolveSnapshots_total {ids : List AccountId}
    (hids : ∀ id ∈ ids, ∃ account, before.store.latest id = some account)
    {result : Except LedgerError (List AccountSnapshotId)}
    (halone : Alone (resolveSnapshots ids) before result after) :
    ∃ snapshots, result = .ok snapshots := by
  obtain ⟨accounts, _, _, hpure⟩ | ⟨err, herror, _⟩ := alone_bind_iff.mp halone
  · exact ⟨_, (alone_pure_iff.mp hpure).1⟩
  · have herr := (getAccounts_alone herror).symm
    rw [Except.mapError_eq_error_iff] at herr
    obtain ⟨cause, hcause, _⟩ := herr
    obtain ⟨id, hid, hmissing, _⟩ := getAccounts_error hcause
    obtain ⟨account, hlatest⟩ := hids id hid
    rw [hmissing] at hlatest
    cases hlatest

omit [Sha256] in
/-- The owners of what a resolved envelope creates exist. -/
theorem Answerable.owners_exist {store : InMemoryStore} (hanswerable : Answerable store transfer)
    {draft : MovementDraft} (hdraft : Drafts transfer draft)
    {available : HashMap BalanceKey (List Posting)} {accounts : HashMap AccountId Account}
    {spent : List Posting} {extra : List NewPosting}
    (hresolves : Resolves available accounts draft.debits spent extra) :
    ∀ posting ∈ transfer.movements.map Movement.credit ++ extra,
      ∃ account, store.latest posting.owner = some account := by
  intro posting hposting
  rcases List.mem_append.mp hposting with hcredit | hextra
  · obtain ⟨movement, hmovement, rfl⟩ := List.mem_map.mp hcredit
    exact hanswerable.payees movement hmovement
  · have hpositive := keyTotal_pos hdraft.positive (hresolves.keyed posting hextra)
    rw [hdraft.covers] at hpositive
    obtain ⟨movement, hmovement, hsource⟩ :=
      exists_source_of_outgoing (show 0 < transfer.outgoing posting.key by omega)
    have howner : movement.fromAccount = posting.owner := congrArg Prod.fst hsource
    rw [← howner]
    exact hanswerable.payers movement hmovement

/-- However resolution runs, it resolves a transfer that its debtors can afford,
and refuses one that some debtor cannot. -/
theorem Answerable.resolve_decides (hanswerable : Answerable before.store transfer)
    {result : Except LedgerError Envelope} (halone : Alone (resolve transfer) before result after) :
    ((∀ key, 0 < transfer.outgoing key → Affordable before.store key (transfer.outgoing key)) ∧
      ∃ envelope, result = .ok envelope) ∨
    ((∃ key, 0 < transfer.outgoing key ∧
        ¬Affordable before.store key (transfer.outgoing key)) ∧
      ∃ insufficient, result = .error (.selection insufficient)) := by
  obtain ⟨draft, first, hdraft, hrest⟩ | ⟨err, herror, _⟩ := alone_bind_iff.mp halone
  swap
  · obtain ⟨order, herror⟩ := alone_compute herror
    obtain ⟨draft, hdraft⟩ := exists_draftMovements_of_holds transfer order hanswerable.owed
    rw [hdraft] at herror
    cases herror
  have hfirst := (ReadOnly.compute _).store_eq hdraft
  obtain ⟨order, hdraft⟩ := alone_compute hdraft
  have hdraft := draftMovements_eq_ok (Except.mapError_eq_ok_iff.mp hdraft.symm)
  have houtgoing : ∀ debit ∈ draft.debits, 0 < transfer.outgoing debit.key := fun debit hdebit =>
    hdraft.amount_eq hdebit ▸ hdraft.positive debit hdebit
  have hdebtors : ∀ debit ∈ draft.debits, ∃ account,
      first.store.latest debit.account = some account := by
    intro debit hdebit
    obtain ⟨movement, hmovement, hsource⟩ := exists_source_of_outgoing (houtgoing debit hdebit)
    have howner : movement.fromAccount = debit.account := congrArg Prod.fst hsource
    rw [hfirst, ← howner]
    exact hanswerable.payers movement hmovement
  obtain ⟨state, second, hload, hrest⟩ | ⟨err, herror, _⟩ := alone_bind_iff.mp hrest
  swap
  · obtain ⟨_, hok, _⟩ := loadDebits_total hdebtors herror
    cases hok
  have hsecond := (ReadOnly.foldlM loadDebit_readOnly _ _).store_eq hload
  obtain ⟨_, hok, _, hloaded⟩ := loadDebits_total hdebtors hload
  cases hok
  have hreads := loadDebits_alone (reads_empty _) hload
  rw [hfirst] at hreads
  -- each debit is decided as the store would decide it
  have hdecided : ∀ debit ∈ draft.debits,
      fundsOf state.available debit ≤ Backing.max backing ∧
      (Coverable state.available state.accounts debit ↔
        Affordable before.store debit.key (transfer.outgoing debit.key)) := by
    intro debit hdebit
    obtain ⟨hfunds, hiff⟩ := hreads.coverable_iff (hloaded debit hdebit).1 (hloaded debit hdebit).2
    rw [hfunds, ← hdraft.amount_eq hdebit]
    exact ⟨(hanswerable.funds _ (houtgoing debit hdebit)).2, hiff⟩
  obtain ⟨hall, selection, hselection⟩ | ⟨⟨debit, hdebit, huncoverable⟩, insufficient, hrefused⟩ :=
    resolveDebits_cases ⟨[], draft.creates⟩ hdraft.positive
      fun debit hdebit => (hdecided debit hdebit).1
  · refine .inl ⟨fun key hpositive => ?_, ?_⟩
    · have hcovers := hdraft.covers key
      have hmem : ∃ debit ∈ draft.debits, debit.key = key := by
        by_contra hnone
        rw [keyTotal_eq_zero fun debit hdebit heq => hnone ⟨debit, hdebit, heq⟩] at hcovers
        omega
      obtain ⟨debit, hdebit, rfl⟩ := hmem
      exact (hdecided debit hdebit).2.mp (hall debit hdebit)
    · have hresolved : ∃ envelope, resolveEnvelope transfer draft state.available state.accounts =
          .ok envelope := Except.exists_bind_eq_ok hselection ⟨_, rfl⟩
      obtain ⟨unpinned, hunpinned⟩ := hresolved
      obtain ⟨spent, extra, hresolves, _, rfl⟩ :=
        resolveEnvelope_eq_ok hreads.keyed hdraft hunpinned
      have hattempt : (resolveEnvelope transfer draft state.available state.accounts).mapError
          LedgerError.ofResolve = .ok _ := Except.mapError_eq_ok_iff.mpr hunpinned
      rw [hattempt] at hrest
      obtain ⟨envelope, third, henvelope, hrest⟩ | ⟨err, herror, _⟩ := alone_bind_iff.mp hrest
      swap
      · cases (alone_attempt_iff.mp herror).1
      obtain ⟨hok, rfl⟩ := alone_attempt_iff.mp henvelope
      cases hok
      obtain ⟨_, _, _, hpure⟩ | ⟨err, herror, _⟩ := alone_bind_iff.mp hrest
      · exact ⟨_, (alone_pure_iff.mp hpure).1⟩
      · refine absurd (resolveSnapshots_total ?_ herror) (by simp)
        intro id hid
        rw [Envelope.referencedAccounts, List.mem_sortDedup, List.mem_map] at hid
        obtain ⟨posting, hposting, rfl⟩ := hid
        rw [hsecond, hfirst]
        exact hanswerable.owners_exist hdraft hresolves posting hposting
  · refine .inr ⟨⟨debit.key, houtgoing debit hdebit, fun haffordable =>
      huncoverable ((hdecided debit hdebit).2.mpr haffordable)⟩, insufficient, ?_⟩
    have hrefusal : (resolveEnvelope transfer draft state.available state.accounts).mapError
        LedgerError.ofResolve = .error (.selection insufficient) := by
      rw [resolveEnvelope, hrefused]
      rfl
    rw [hrefusal] at hrest
    obtain ⟨envelope, _, henvelope, _⟩ | ⟨err, herror, rfl⟩ := alone_bind_iff.mp hrest
    · cases (alone_attempt_iff.mp henvelope).1
    · exact (alone_attempt_iff.mp herror).1

/-- In every reached state, resolution returns the insufficient-funds error exactly
when some debtor forbids overdraft and has a balance below what it owes. -/
theorem resolve_insufficient_iff (ledger : Ledger) (actions : List LedgerAction)
    (transfer : Transfer) (hanswerable : Answerable (storeAfter ledger actions) transfer)
    (result : Except LedgerError Envelope) (after : World)
    (halone : Alone (resolve transfer) (LedgerPool.after ledger actions).shared result after) :
    (∃ insufficient, result = .error (.selection insufficient)) ↔
      ∃ key account, 0 < transfer.outgoing key ∧
        (storeAfter ledger actions).latest key.1 = some account ∧
        account.forbidsOverdraft = true ∧
        (storeAfter ledger actions).liveBalance key < transfer.outgoing key := by
  have hconsistent := consistent_after ledger actions
  have hsafe := overdraftSafe_after ledger actions
  obtain ⟨haffordable, envelope, rfl⟩ | ⟨⟨key, hpositive, hpoor⟩, insufficient, rfl⟩ :=
    hanswerable.resolve_decides halone
  · refine ⟨nofun, ?_⟩
    rintro ⟨key, account, hpositive, hlatest, hforbids, hbelow⟩
    obtain henough | ⟨other, hother, hpermits⟩ := haffordable key hpositive
    · have hfunds := hsafe.fundsUnder_eq hconsistent hlatest hforbids
      rw [InMemoryStore.fundsUnder] at hfunds
      exact absurd (henough.trans_eq hfunds) (not_le.mpr hbelow)
    · cases hlatest.symm.trans hother
      cases hforbids.symm.trans hpermits
  · refine ⟨fun _ => ?_, fun _ => ⟨insufficient, rfl⟩⟩
    obtain ⟨movement, hmovement, rfl⟩ := exists_source_of_outgoing hpositive
    obtain ⟨account, hlatest⟩ := hanswerable.payers movement hmovement
    rw [Affordable, not_or, not_le] at hpoor
    have hforbids : account.forbidsOverdraft = true := by
      by_contra hpermits
      exact hpoor.2 ⟨account, hlatest, by simpa using hpermits⟩
    have hfunds : (storeAfter ledger actions).fundsUnder movement.source =
        (storeAfter ledger actions).liveBalance movement.source :=
      hsafe.fundsUnder_eq hconsistent hlatest hforbids
    exact ⟨_, account, hpositive, hlatest, hforbids, hfunds ▸ hpoor.1⟩

end Resolution

end Theory

/-- Alice, who has 5, tries to pay 7. -/
def Sample.unaffordable : Transfer where
  movements := [⟨alice, external, usd, .ofI64 7⟩]
  book := DEFAULT_BOOK
  metadata := .empty

open Sample in
theorem resolve_insufficient_iff_unaffordable : ∃ result after,
    Alone (resolve unaffordable) (LedgerPool.after ledger funded).shared result after ∧
      ∃ insufficient, result = .error (.selection insufficient) := by
  have hresolve := Async.runs_runWith noon (resolve unaffordable).run
    (LedgerPool.after ledger funded).shared
  have hkey : ∀ key, 0 < unaffordable.outgoing key → key = (alice, usd) := by
    intro key hpositive
    obtain ⟨movement, hmovement, hsource⟩ := exists_source_of_outgoing hpositive
    rw [← hsource, List.mem_singleton.mp hmovement]
    rfl
  have hanswerable : Answerable (storeAfter ledger funded) unaffordable := by
    constructor
    case payers =>
      intro movement hmovement
      rw [List.mem_singleton.mp hmovement]
      exact ⟨.debitMustNotExceedCredit alice, by decide +kernel⟩
    case payees =>
      intro movement hmovement
      rw [List.mem_singleton.mp hmovement]
      exact ⟨.new external, by decide +kernel⟩
    case owed =>
      exact fun n key => Cent.holds_of_abs_le ((abs_keyTotal_take_le n key).trans (by decide))
    case funds =>
      intro key hpositive
      rw [hkey key hpositive]
      have hfunds : (storeAfter ledger funded).fundsUnder (alice, usd) = 5 := by decide +kernel
      rw [hfunds]
      exact ⟨by decide, by decide⟩
  generalize Async.runWith _ _ _ = outcome at hresolve
  refine ⟨_, _, hresolve, (resolve_insufficient_iff ledger funded unaffordable hanswerable _ _
    hresolve).mpr ⟨(alice, usd), .debitMustNotExceedCredit alice, by decide, ?_, by decide, ?_⟩⟩
  · decide +kernel
  · decide +kernel

end Kuatia
