import Kuatia.Bookkeeping.Journal
import Kuatia.Inflight.Orderly
import Kuatia.Inflight.Sample
import Kuatia.Inflight.Status
import Kuatia.Ledger.Conservation
import Kuatia.Ledger.Instants

/-! # The service keeps the books of its accounts

Read as double-entry books, a store says of every account how it stands and has one
entry for every transfer. Whatever the clients of the service do, an action leaves
these books as they are or takes one step in them, so their rules hold in every run.
-/

namespace Kuatia

open Bookkeeping

/-! ## The standing of an account -/

/-- The flags of an account that the ledger acts on. -/
structure Standing where
  frozen : Bool
  closed : Bool
  forbidsOverdraft : Bool
  deriving DecidableEq

def Account.standing (account : Account) : Standing :=
  ⟨account.isFrozen, account.isClosed, account.forbidsOverdraft⟩

namespace Standing

/-- How an account stands after a change. -/
def after (standing : Standing) : LifecycleChange → Standing
  | .freeze => { standing with frozen := true }
  | .unfreeze => { standing with frozen := false }
  | .close => { standing with frozen := false, closed := true }

theorem forbidsOverdraft_after (standing : Standing) (change : LifecycleChange) :
    (standing.after change).forbidsOverdraft = standing.forbidsOverdraft := by
  cases change <;> rfl

end Standing

theorem standing_nextVersion (change : LifecycleChange) (account : Account) :
    (change.nextVersion account).standing = account.standing.after change := by
  have hforbids := change.forbidsOverdraft_nextVersion account
  cases change with
  | freeze =>
      have hclosed : (account.flags.insert .FROZEN).contains .CLOSED = account.isClosed :=
        AccountFlags.contains_insert (by decide)
      exact congr (congrArg₂ Standing.mk (AccountFlags.contains_insert_self _ _) hclosed) hforbids
  | unfreeze =>
      have hclosed : (account.flags.remove .FROZEN).contains .CLOSED = account.isClosed :=
        AccountFlags.contains_remove (by decide)
      exact congr (congrArg₂ Standing.mk (AccountFlags.contains_remove_self _ (by decide)) hclosed)
        hforbids
  | close =>
      exact congr (congrArg₂ Standing.mk (AccountFlags.contains_remove_self _ (by decide))
        ((AccountFlags.contains_remove (by decide)).trans (AccountFlags.contains_insert_self _ _)))
        hforbids

/-- An account that is neither frozen nor closed takes part in transfers, one that
forbids overdraft is not in debt, and a closed one does not change any more. -/
def accountRules : Rules Standing where
  trades standing := standing.frozen = false ∧ standing.closed = false
  solvent standing := standing.forbidsOverdraft = true
  passes standing next := standing.closed = false ∧ ∃ change, next = standing.after change
  solvent_of_passes := by
    rintro standing _ ⟨_, change, rfl⟩ hsolvent
    exact (standing.forbidsOverdraft_after change).symm.trans hsolvent

abbrev AccountBooks := Books EnvelopeId AccountId AssetId Standing

/-! ## The books of a store -/

section Reading

variable [MoneyWidth]

def NewPosting.line (posting : NewPosting) : Line AccountId AssetId :=
  ⟨posting.owner, posting.asset, posting.value.val⟩

def Posting.spentLine (posting : Posting) : Line AccountId AssetId :=
  ⟨posting.owner, posting.asset, -posting.value.val⟩

namespace InMemoryStore

variable (store : InMemoryStore)

/-- The entry of a stored transfer: what it creates against what it consumes. -/
def entryOf (record : EnvelopeRecord) : Entry EnvelopeId AccountId AssetId where
  ref := record.receipt.transferId
  lines := record.envelope.creates.map NewPosting.line ++
    (record.envelope.consumes.filterMap store.postings.immutable.lookup).map Posting.spentLine

def bookkeeping : AccountBooks where
  standing id := (store.latest id).map Account.standing
  journal := store.transfers.values.map store.entryOf

end InMemoryStore

section Sums

variable {A K : Type} [DecidableEq K] (keyOf : A → K) (valueOf : A → Cent) {key : K}
  {selects : A → Prop} [DecidablePred selects]

theorem sum_selected (items : List A) (hselects : ∀ item, selects item ↔ keyOf item = key) :
    (items.map fun item => if selects item then (valueOf item).val else 0).sum =
      keyTotal keyOf valueOf items key := by
  rw [keyTotal_eq_sum]
  exact congrArg List.sum (List.map_congr_left fun item _ => if_congr (hselects item) rfl rfl)

theorem sum_selected_neg (items : List A) (hselects : ∀ item, selects item ↔ keyOf item = key) :
    (items.map fun item => if selects item then -(valueOf item).val else 0).sum =
      -keyTotal keyOf valueOf items key := by
  rw [← sum_selected keyOf valueOf items hselects, List.sum_neg, List.map_map]
  refine congrArg List.sum (List.map_congr_left fun item _ => ?_)
  simp only [Function.comp_apply]
  split <;> simp

end Sums

theorem change_entryOf (store : InMemoryStore) (record : EnvelopeRecord) (id : AccountId)
    (asset : AssetId) :
    (store.entryOf record).change id asset = changeBy store record (id, asset) := by
  rw [Entry.change, InMemoryStore.entryOf, List.map_append, List.sum_append, List.map_map,
    List.map_map, changeBy, sub_eq_add_neg]
  exact congrArg₂ (· + ·) (sum_selected NewPosting.key _ _ fun _ => Prod.mk_inj.symm)
    (sum_selected_neg Posting.key _ _ fun _ => Prod.mk_inj.symm)

theorem Accounted.balanced_entryOf {store : InMemoryStore} (haccounted : Accounted store)
    {tid : EnvelopeId} {record : EnvelopeRecord}
    (hstored : store.transfers.lookup tid = some record) : (store.entryOf record).Balanced := by
  intro asset
  rw [InMemoryStore.entryOf, List.map_append, List.sum_append, List.map_map, List.map_map]
  have hsum := congrArg₂ (· + ·)
    (sum_selected NewPosting.asset NewPosting.value record.envelope.creates
      fun _ => Iff.rfl (a := _ = asset))
    (sum_selected_neg Posting.asset Posting.value
      (record.envelope.consumes.filterMap store.postings.immutable.lookup)
      fun _ => Iff.rfl (a := _ = asset))
  refine hsum.trans ?_
  rw [← haccounted.balanced tid record hstored asset]
  exact add_neg_cancel _

end Reading

/-! ## One step of the store -/

section Steps

variable [MoneyWidth] [Sha256] {store before after : InMemoryStore} {clock : Clock}
  {order : IterationOrder} {req : CommitRequest} {consumed : List Posting}

omit [Sha256] in
theorem bookkeeping_congr (hlatest : ∀ id, after.latest id = before.latest id)
    (htransfers : after.transfers = before.transfers) (hpostings : after.postings = before.postings) :
    after.bookkeeping = before.bookkeeping := by
  unfold InMemoryStore.bookkeeping InMemoryStore.entryOf
  simp only [hlatest, htransfers, hpostings]

omit [Sha256] in
/-- An account with a new latest version stands as that version says. -/
theorem bookkeeping_insert (before after : InMemoryStore) (account : Account)
    (versions : List Account)
    (haccounts : after.accounts = before.accounts.insert account.id (versions ++ [account]))
    (htransfers : after.transfers = before.transfers) (hpostings : after.postings = before.postings) :
    after.bookkeeping = { before.bookkeeping with
      standing := Function.update before.bookkeeping.standing account.id
        (some account.standing) } := by
  unfold InMemoryStore.bookkeeping InMemoryStore.entryOf
  rw [htransfers, hpostings]
  congr 1
  funext id
  rw [Function.update_apply, InMemoryStore.latest, InMemoryStore.versions, haccounts,
    HashMap.lookup_insert_eq]
  split
  next => simp
  next => rfl

omit [Sha256] in
/-- A commit posts the entry of its transfer. -/
theorem bookkeeping_applyCommit (hconsistent : Consistent store)
    (hfresh : req.transferId ∉ store.transfers) :
    (store.applyCommit clock req).bookkeeping = { store.bookkeeping with
      journal := (store.applyCommit clock req).entryOf req.record ::
        store.bookkeeping.journal } := by
  unfold InMemoryStore.bookkeeping
  congr 1
  · funext id
    have hversions : (store.applyCommit clock req).versions id = store.versions id :=
      InMemoryStore.versions_congr (by simp) id
    exact congrArg (fun versions => versions.getLast?.map Account.standing) hversions
  · rw [InMemoryStore.applyCommit_transfers, HashMap.values, AList.entries_insert_of_notMem hfresh,
      List.map_cons, List.map_cons]
    congr 1
    refine List.map_congr_left fun record hrecord => ?_
    obtain ⟨tid, hstored⟩ := HashMap.mem_values_iff.mp hrecord
    rw [InMemoryStore.entryOf, InMemoryStore.entryOf, recorded_applyCommit hconsistent hstored]

/-- On a store whose transfers are indexed, the books say what the live postings say. -/
def Agrees (store : InMemoryStore) : Prop :=
  Indexed store → ∀ id asset, store.bookkeeping.balance id asset = store.liveBalance (id, asset)

theorem Agrees.step {submits : Envelope → Prop} (hstep : StoreStep submits before after)
    (haccounted : Accounted before) (hagrees : Agrees before) : Agrees after := by
  intro hindexed id asset
  have hearlier := hagrees (hindexed.earlier (.of_step hstep)) id asset
  obtain ⟨hpostings, htransfers, _⟩ | ⟨order, clock, req, consumed, hvalid, _, hfresh, hguards, rfl⟩ :=
    hstep.postings_cases
  · have hjournal : after.bookkeeping.journal = before.bookkeeping.journal := by
      unfold InMemoryStore.bookkeeping InMemoryStore.entryOf
      simp only [htransfers, hpostings]
    rw [Books.balance, hjournal, InMemoryStore.liveBalance, InMemoryStore.livePostings, hpostings]
    exact hearlier
  · have hrecord : req.record ∈ (before.applyCommit clock req).transfers.values :=
      HashMap.mem_values_iff.mpr
        ⟨req.transferId, by rw [lookup_transfers_applyCommit, if_pos rfl]⟩
    have hbefore : IndexedFor before id := fun _ _ hlookup _ =>
      (hindexed.earlier (.of_step hstep)).creates_le hlookup
    obtain ⟨_, hactive, _⟩ := InMemoryStore.commitGuards_eq_ok_iff.mp hguards
    rw [InMemoryStore.doubleSpendGuard_eq_ok_iff, hvalid.consume] at hactive
    rw [bookkeeping_applyCommit haccounted.consistent hfresh, Books.balance_post, hearlier,
      change_entryOf, changeBy, hvalid.recorded clock,
      liveBalance_applyCommit clock haccounted.consistent hvalid hfresh hguards, hvalid.consume,
      haccounted.keyTotal_activeOf hbefore hactive, HashMap.filterMap_lookup_eq hvalid.found,
      hvalid.create, keyTotal_perm (activated_perm (nodup_map_id_createdPostings
        (hindexed req.record hrecord))), keyTotal_createdPostings]
    omega

/-- The guards of a commit are the conditions on an entry. -/
theorem Validated.trading (hvalid : Validated store req consumed)
    (hguards : store.commitGuards order req = .ok ()) :
    ∀ line ∈ ((store.applyCommit clock req).entryOf req.record).lines,
      store.bookkeeping.Trading accountRules line.party := by
  intro line hline
  have hinvolved : line.party ∈ req.involved := by
    rw [hvalid.involved]
    rw [InMemoryStore.entryOf, hvalid.recorded clock] at hline
    rcases List.mem_append.mp hline with hline | hline
    · obtain ⟨posting, hposting, rfl⟩ := List.mem_map.mp hline
      exact .inl ⟨posting, hposting, rfl⟩
    · obtain ⟨posting, hposting, rfl⟩ := List.mem_map.mp hline
      exact .inr ⟨posting, hposting, rfl⟩
  obtain ⟨hfreeze, _⟩ := InMemoryStore.commitGuards_eq_ok_iff.mp hguards
  obtain ⟨account, hlatest, hfrozen, hclosed⟩ :=
    InMemoryStore.freezeGuard_eq_ok_iff.mp hfreeze _ hinvolved
  refine ⟨account.standing, ?_, hfrozen, hclosed⟩
  change (store.latest line.party).map Account.standing = _
  rw [hlatest]
  rfl

omit [Sha256] in
/-- Versions of one account that have the same number are one version. -/
theorem Ascending.eq_of_version {store : InMemoryStore} (hascending : Ascending store)
    {id : AccountId} {first second : Account} (hfirst : first ∈ store.versions id)
    (hsecond : second ∈ store.versions id) (hversion : first.version = second.version) :
    first = second := by
  have hnodup : ((store.versions id).map (·.version)).Nodup :=
    List.pairwise_map.mpr ((hascending id).imp UInt64.ne_of_lt)
  exact List.inj_on_of_nodup_map hnodup hfirst hsecond hversion

omit [Sha256] in
/-- Whoever may not be in debt is not in debt after a step. -/
theorem solvent_of_safe (hsafe : OverdraftSafe after) (hconsistent : Consistent after)
    (hagrees : Agrees after) (hindexed : Indexed after) (id : AccountId) (standing : Standing)
    (hstanding : after.bookkeeping.standing id = some standing)
    (hsolvent : accountRules.solvent standing) (asset : AssetId) :
    0 ≤ after.bookkeeping.balance id asset := by
  obtain ⟨account, hlatest, rfl⟩ := Option.map_eq_some_iff.mp hstanding
  rw [hagrees hindexed]
  refine keyTotal_nonneg fun posting hmem hkey => ?_
  obtain ⟨pid, hlookup⟩ := (InMemoryStore.mem_livePostings hconsistent.reserved).mp hmem
  have howner : posting.owner = id := congrArg Prod.fst hkey
  exact hsafe.nonneg (howner ▸ hlatest) hsolvent hlookup

/-- A commit that the store accepts is one more entry. -/
theorem Validated.posts (hvalid : Validated store req consumed) (haccounted : Accounted store)
    (haccepted : Accounted (store.applyCommit clock req)) (hfresh : req.transferId ∉ store.transfers)
    (hguards : store.commitGuards order req = .ok ())
    (hsolvent : ∀ id standing, (store.applyCommit clock req).bookkeeping.standing id = some standing →
      accountRules.solvent standing →
        ∀ asset, 0 ≤ (store.applyCommit clock req).bookkeeping.balance id asset) :
    Books.Step accountRules store.bookkeeping (store.applyCommit clock req).bookkeeping := by
  rw [bookkeeping_applyCommit haccounted.consistent hfresh] at hsolvent ⊢
  refine .post _ (fun posted hposted href => ?_) ?_ (hvalid.trading hguards)
    fun id standing hstanding hsolv asset => ?_
  · obtain ⟨record, hrecord, rfl⟩ := List.mem_map.mp hposted
    obtain ⟨tid, hstored⟩ := HashMap.mem_values_iff.mp hrecord
    have hsame : tid = req.transferId := (haccounted.faithful.filed tid record hstored).symm.trans
      (href.trans (congrArg Receipt.transferId hvalid.receipt))
    exact hfresh (hsame ▸ HashMap.mem_iff_exists_lookup.mpr ⟨record, hstored⟩)
  · exact haccepted.balanced_entryOf (by rw [lookup_transfers_applyCommit, if_pos rfl])
  · rw [← Books.balance_post]
    exact hsolvent id standing hstanding hsolv asset

/-- A step of the store is a step of its books, or leaves them as they are. -/
theorem StoreStep.bookkeeping {submits : Envelope → Prop} (hstep : StoreStep submits before after)
    (haccounted : Accounted before) (hascending : Ascending before) (hsafe : OverdraftSafe before)
    (hagrees : Agrees before) (hindexed : Indexed after) :
    after.bookkeeping = before.bookkeeping ∨
      Books.Step accountRules before.bookkeeping after.bookkeeping := by
  have hafter := hagrees.step hstep haccounted
  have hstill := hstep.overdraftSafe hsafe
  have haccepted := hstep.accounted haccounted
  cases hstep with
  | idle => exact .inl rfl
  | createAccount account =>
      by_cases hnew : account.id ∈ before.accounts
      · left
        rw [InMemoryStore.createAccount, if_pos hnew]
      · right
        have hnone : before.latest account.id = none := by
          simp [InMemoryStore.latest, InMemoryStore.versions, AList.lookup_eq_none.mpr hnew]
        rw [bookkeeping_insert before (before.createAccount account).2 account []
          (by simp [InMemoryStore.createAccount, hnew]) (by simp [InMemoryStore.createAccount, hnew])
          (by simp [InMemoryStore.createAccount, hnew])]
        exact .enrol account.id account.standing (congrArg (Option.map Account.standing) hnone)
  | createBook book =>
      left
      unfold InMemoryStore.createBook
      split <;> rfl
  | accountCreated clock seq timestamp account =>
      left
      refine bookkeeping_congr (fun id => ?_) ?_ ?_ <;>
        simp [InMemoryStore.appendEvent_store, InMemoryStore.latest, InMemoryStore.versions]
  | project => exact .inl rfl
  | transition clock change current seq timestamp hread hopen hroom =>
      obtain ⟨hsame, _⟩ | ⟨heq, _⟩ | ⟨latest, hlatest, hclosed, hversion, hroom, heq⟩ :=
        before.commitTransition_cases clock (change.nextVersion current)
          ⟨seq, timestamp, change.makeEvent current.id (change.nextVersion current).version⟩
      · exact .inl (by rw [hsame])
      · left
        refine bookkeeping_congr (fun id => ?_) ?_ ?_ <;>
          simp [heq, InMemoryStore.latest, InMemoryStore.versions]
      · right
        -- two versions of one account with the same number are one version
        have hnumber : current.version + 1 = latest.version + 1 := hversion
        have hsame : current = latest := hascending.eq_of_version hread
          (InMemoryStore.mem_versions_of_latest hlatest) (by simpa using hnumber)
        subst hsame
        have hstanding : before.bookkeeping.standing current.id = some current.standing :=
          congrArg (Option.map Account.standing) hlatest
        have hbooks := bookkeeping_insert before (before.commitTransition clock
          (change.nextVersion current) ⟨seq, timestamp, change.makeEvent current.id
            (change.nextVersion current).version⟩).2 (change.nextVersion current)
          (before.versions current.id) (by simp [heq]; rfl) (by simp [heq]) (by simp [heq])
        rw [hbooks, standing_nextVersion]
        exact .pass current.id hstanding ⟨hopen, change, rfl⟩
  | commit order clock hvalid hsubmits =>
      obtain ⟨hsame, _⟩ | ⟨hfresh, hguards, heq⟩ := before.commitEnvelope_cases order clock _
      · exact .inl (by rw [hsame])
      · right
        rw [heq] at hindexed hafter hstill haccepted ⊢
        exact hvalid.posts haccounted haccepted hfresh hguards
          (solvent_of_safe hstill haccepted.consistent hafter hindexed)

end Steps

/-! ## Runs -/

section Runs

variable [MoneyWidth] [Sha256] [Cbor] (ledger : Ledger)

theorem ascending_served (actions : List ServiceAction) : Ascending (servedStore ledger actions) :=
  served_induction ledger (fun _ => .nil) (fun _ _ _ hstep => hstep.ascending) actions

theorem agrees_served (actions : List ServiceAction) : Agrees (servedStore ledger actions) := by
  induction actions using List.reverseRecOn with
  | nil => exact fun _ _ _ => rfl
  | append_singleton actions action ih =>
      exact ih.step (storeStep_served ledger actions action) (accounted_served ledger actions)

/-- An action of some client is one step in the books, or none. -/
theorem bookkeeping_served (actions : List ServiceAction) (action : ServiceAction)
    (hindexed : Indexed (servedStore ledger (actions ++ [action]))) :
    (servedStore ledger (actions ++ [action])).bookkeeping =
        (servedStore ledger actions).bookkeeping ∨
      Books.Step accountRules (servedStore ledger actions).bookkeeping
        (servedStore ledger (actions ++ [action])).bookkeeping :=
  (storeStep_served ledger actions action).bookkeeping (accounted_served ledger actions)
    (ascending_served ledger actions) (overdraftSafe_served ledger actions)
    (agrees_served ledger actions) hindexed

theorem leads_served (first second : List ServiceAction)
    (hindexed : Indexed (servedStore ledger (first ++ second))) :
    Books.Leads accountRules (servedStore ledger first).bookkeeping
      (servedStore ledger (first ++ second)).bookkeeping := by
  induction second using List.reverseRecOn with
  | nil =>
      rw [List.append_nil]
      exact .refl
  | append_singleton second action ih =>
      rw [← List.append_assoc] at hindexed ⊢
      have hearlier := hindexed.earlier (evolves_served ledger (first ++ second) [action])
      rcases bookkeeping_served ledger (first ++ second) action hindexed with hsame | hstep
      · exact hsame ▸ ih hearlier
      · exact (ih hearlier).tail hstep

omit [Sha256] [Cbor] in
theorem not_trading {store : InMemoryStore} {id : AccountId}
    (hidle : ∀ account, store.latest id = some account →
      account.isFrozen = true ∨ account.isClosed = true) :
    ¬store.bookkeeping.Trading accountRules id := by
  rintro ⟨standing, hstanding, hfrozen, hclosed⟩
  obtain ⟨account, hlatest, rfl⟩ := Option.map_eq_some_iff.mp hstanding
  rcases hidle account hlatest with hflag | hflag
  · exact absurd (hflag.symm.trans hfrozen) (by decide)
  · exact absurd (hflag.symm.trans hclosed) (by decide)

/-- A stretch of a run at no instant of which the account may trade. -/
theorem balance_of_idle (first second : List ServiceAction)
    (hindexed : Indexed (servedStore ledger (first ++ second))) (id : AccountId)
    (hidle : ∀ more, more <+: second → more ≠ second →
      ¬(servedStore ledger (first ++ more)).bookkeeping.Trading accountRules id)
    (asset : AssetId) : (servedStore ledger (first ++ second)).bookkeeping.balance id asset =
      (servedStore ledger first).bookkeeping.balance id asset := by
  induction second using List.reverseRecOn with
  | nil => rw [List.append_nil]
  | append_singleton second action ih =>
      have hstill := hidle second (List.prefix_append _ _) (by simp)
      rw [← List.append_assoc] at hindexed ⊢
      have hearlier := hindexed.earlier (evolves_served ledger (first ++ second) [action])
      have hsame := ih hearlier fun more hmore _ =>
        hidle more (hmore.trans (List.prefix_append _ _)) fun heq => by
          have hlength := hmore.length_le
          rw [heq, List.length_append, List.length_singleton] at hlength
          omega
      rcases bookkeeping_served ledger (first ++ second) action hindexed with hkept | hstep
      · rw [hkept, hsame]
      · rw [hstep.balance_eq hstill, hsame]

variable (actions : List ServiceAction)

/-- In every run, each action takes one step in the books or none, the books are in
order and say what the live postings come to, and so the accounts of the store sum to
zero. -/
theorem service_keeps_books (hindexed : Indexed (servedStore ledger actions)) :
    (∀ first action rest, actions = first ++ action :: rest →
      (servedStore ledger (first ++ [action])).bookkeeping =
          (servedStore ledger first).bookkeeping ∨
        Books.Step accountRules (servedStore ledger first).bookkeeping
          (servedStore ledger (first ++ [action])).bookkeeping) ∧
    Books.Sound accountRules (servedStore ledger actions).bookkeeping ∧
    (∀ id asset, (servedStore ledger actions).bookkeeping.balance id asset =
      (servedStore ledger actions).liveBalance (id, asset)) ∧
    ∀ asset, ∑ id ∈ (servedStore ledger actions).accounts.keys.toFinset,
      (servedStore ledger actions).liveBalance (id, asset) = 0 := by
  have hsound : Books.Sound accountRules (servedStore ledger actions).bookkeeping :=
    Books.sound_blank.leads (leads_served ledger [] actions hindexed)
  have hagrees := agrees_served ledger actions hindexed
  refine ⟨?_, hsound, hagrees, fun asset => ?_⟩
  · rintro first action rest rfl
    refine bookkeeping_served ledger first action (hindexed.earlier ?_)
    have hevolves := evolves_served ledger (first ++ [action]) rest
    rwa [List.append_assoc] at hevolves
  · simp only [← hagrees]
    refine hsound.trial_balance (fun id hsome => ?_) asset
    rw [List.mem_toFinset, ← AList.mem_keys]
    by_contra hnone
    have hlookup := AList.lookup_eq_none.mpr hnone
    simp [InMemoryStore.bookkeeping, InMemoryStore.latest, InMemoryStore.versions, hlookup] at hsome

/-- Whoever is frozen or closed all the time keeps every balance, and whoever is closed
keeps them for ever and stays closed. -/
theorem idle_keeps_balances (first second : List ServiceAction)
    (hindexed : Indexed (servedStore ledger (first ++ second))) (id : AccountId) :
    ((∀ more, more <+: second → more ≠ second → ∀ account,
        (servedStore ledger (first ++ more)).latest id = some account →
          account.isFrozen = true ∨ account.isClosed = true) →
      ∀ asset, (servedStore ledger (first ++ second)).liveBalance (id, asset) =
        (servedStore ledger first).liveBalance (id, asset)) ∧
    ∀ account, (servedStore ledger first).latest id = some account → account.isClosed = true →
      (∃ later, (servedStore ledger (first ++ second)).latest id = some later ∧
        later.isClosed = true) ∧
      ∀ asset, (servedStore ledger (first ++ second)).liveBalance (id, asset) =
        (servedStore ledger first).liveBalance (id, asset) := by
  have hbefore := agrees_served ledger first
    (hindexed.earlier (evolves_served ledger first second))
  have hafter := agrees_served ledger (first ++ second) hindexed
  simp only [← hbefore, ← hafter]
  constructor
  · exact fun hidle asset => balance_of_idle ledger first second hindexed id
      (fun more hmore hne => not_trading (hidle more hmore hne)) asset
  · intro account hlatest hclosed
    have hstanding : (servedStore ledger first).bookkeeping.standing id = some account.standing :=
      congrArg (Option.map Account.standing) hlatest
    obtain ⟨hkept, hsame⟩ := (leads_served ledger first second hindexed).balance_eq_of_final
      hstanding (fun htrades => absurd (hclosed.symm.trans htrades.2) (by decide))
      fun _ hpasses => absurd (hclosed.symm.trans hpasses.1) (by decide)
    obtain ⟨later, hlater, hstands⟩ := Option.map_eq_some_iff.mp hkept
    exact ⟨⟨later, hlater, (congrArg Standing.closed hstands).trans hclosed⟩, hsame⟩

end Runs

section Paid

open Sample

/-- Bob is to be paid 5, and then is paid. -/
@[irreducible] def paidOut : List ServiceAction :=
  inTurn (opening ++ [.authorize (pay external bob 5), .confirmAll parkedId])

/-- Bob pays some of it back. -/
def paidBack : List ServiceAction :=
  .start (.ledger (.commit (pay bob external 2))) :: List.replicate 60 (.advance 5 noon)

/-- What Bob has been paid, the others are short of. -/
theorem service_keeps_books_paidOut :
    (servedStore ledger paidOut).bookkeeping.balance bob usd = 5 ∧
      ∑ id ∈ (servedStore ledger paidOut).accounts.keys.toFinset,
        (servedStore ledger paidOut).liveBalance (id, usd) = 0 := by
  obtain ⟨_, _, hbalance, hsum⟩ := service_keeps_books ledger paidOut (by decide +kernel)
  exact ⟨(hbalance bob usd).trans (by decide +kernel), hsum usd⟩

/-- The hold is closed when Bob has been paid, and stays closed when he pays back. -/
theorem idle_keeps_balances_paidOut :
    (servedStore ledger (paidOut ++ paidBack)).liveBalance (bob, usd) = 3 ∧
      ∃ later, (servedStore ledger (paidOut ++ paidBack)).latest ⟨3, 5⟩ = some later ∧
        later.isClosed = true := by
  have hany : ((servedStore ledger paidOut).latest ⟨3, 5⟩).any (·.isClosed) = true := by
    decide +kernel
  obtain ⟨account, hlatest, hclosed⟩ := (Option.any_eq_true _ _).mp hany
  obtain ⟨_, hfinal⟩ := idle_keeps_balances ledger paidOut paidBack (by decide +kernel) ⟨3, 5⟩
  exact ⟨by decide +kernel, (hfinal account hlatest hclosed).1⟩

end Paid

end Kuatia
