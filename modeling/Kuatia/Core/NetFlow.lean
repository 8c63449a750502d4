import Kuatia.Core.ResolutionLaws
import Kuatia.Storage.Sample

/-! # The net flow of a resolved transfer

Resolution credits every destination and covers what each source owes on
balance. Where no source owes a negative sum, what an envelope creates less what
it consumes is what the movements give less what they take.
-/

namespace Kuatia

section Theory

variable [MoneyWidth]

omit [MoneyWidth] in
/-- A list whose part under each key comes from a pool comes from it as a whole. -/
theorem subperm_of_filter {α K : Type} [DecidableEq α] [DecidableEq K] (keyOf : α → K)
    {list pool : List α}
    (hfilter : ∀ value ∈ list, (list.filter (keyOf · = keyOf value)).Subperm pool) :
    list.Subperm pool := by
  rw [List.subperm_ext_iff]
  intro value hvalue
  have hcount : (list.filter (keyOf · = keyOf value)).count value = list.count value :=
    List.count_filter (decide_eq_true rfl)
  calc list.count value
      = (list.filter (keyOf · = keyOf value)).count value := hcount.symm
    _ ≤ pool.count value := (hfilter value hvalue).count_le value

theorem keyTotal_credits (transfer : Transfer) (key : BalanceKey) :
    keyTotal NewPosting.key NewPosting.value (transfer.movements.map Movement.credit) key =
      transfer.incoming key := by
  rw [keyTotal_map]
  rfl

/-! ## What covers the debits -/

section Exact

variable {transfer : Transfer} {spent : List Posting} {creates extra : List NewPosting}

/-- What is spent less what is created beside the credits is, under each key,
what the source owes, if that is positive. -/
def MeetsDebits (transfer : Transfer) (spent : List Posting) (extra : List NewPosting) : Prop :=
  ∀ key, keyTotal Posting.key Posting.value spent key -
    keyTotal NewPosting.key NewPosting.value extra key = max 0 (transfer.outgoing key)

/-- What is created less what is spent, under one key. -/
theorem MeetsDebits.net (hmeets : MeetsDebits transfer spent extra)
    (hcreates : creates = transfer.movements.map Movement.credit ++ extra) (key : BalanceKey) :
    keyTotal NewPosting.key NewPosting.value creates key -
      keyTotal Posting.key Posting.value spent key =
        transfer.incoming key - max 0 (transfer.outgoing key) := by
  have hexact := hmeets key
  rw [hcreates, keyTotal_append, keyTotal_credits]
  omega

/-- The keys of one asset that a resolution is concerned with. -/
def Transfer.keysOf (transfer : Transfer) (spent : List Posting) (extra : List NewPosting)
    (asset : AssetId) : Finset BalanceKey :=
  ((spent.map Posting.key ++ extra.map NewPosting.key ++
    transfer.movements.map Movement.source).filter (·.2 = asset)).toFinset

theorem Transfer.mem_keysOf {asset : AssetId} {key : BalanceKey} :
    key ∈ transfer.keysOf spent extra asset ↔
      ((∃ posting ∈ spent, posting.key = key) ∨ (∃ posting ∈ extra, posting.key = key) ∨
        ∃ movement ∈ transfer.movements, movement.source = key) ∧ key.2 = asset := by
  simp only [Transfer.keysOf, List.mem_toFinset, List.mem_filter, List.mem_append, List.mem_map,
    decide_eq_true_eq, or_assoc]

/-- In one asset, what is spent exceeds what is created by the negative sums of
outgoing amounts. -/
theorem MeetsDebits.excess (hmeets : MeetsDebits transfer spent extra)
    (hcreates : creates = transfer.movements.map Movement.credit ++ extra) (asset : AssetId) :
    keyTotal Posting.asset Posting.value spent asset -
      keyTotal NewPosting.asset NewPosting.value creates asset =
        ∑ key ∈ transfer.keysOf spent extra asset,
          (max 0 (transfer.outgoing key) - transfer.outgoing key) := by
  have hkeys : ∀ key ∈ transfer.keysOf spent extra asset, key.2 = asset :=
    fun key hkey => (Transfer.mem_keysOf.mp hkey).2
  have hspent : keyTotal Posting.asset Posting.value spent asset =
      ∑ key ∈ transfer.keysOf spent extra asset, keyTotal Posting.key Posting.value spent key :=
    keyTotal_fiber hkeys fun posting hposting hasset =>
      Transfer.mem_keysOf.mpr ⟨.inl ⟨posting, hposting, rfl⟩, hasset⟩
  have hextra : keyTotal NewPosting.asset NewPosting.value extra asset =
      ∑ key ∈ transfer.keysOf spent extra asset,
        keyTotal NewPosting.key NewPosting.value extra key :=
    keyTotal_fiber hkeys fun posting hposting hasset =>
      Transfer.mem_keysOf.mpr ⟨.inr (.inl ⟨posting, hposting, rfl⟩), hasset⟩
  have hmoved : keyTotal Movement.asset Movement.amount transfer.movements asset =
      ∑ key ∈ transfer.keysOf spent extra asset, transfer.outgoing key :=
    keyTotal_fiber hkeys fun movement hmovement hasset =>
      Transfer.mem_keysOf.mpr ⟨.inr (.inr ⟨movement, hmovement, rfl⟩), hasset⟩
  have hcredits : keyTotal NewPosting.asset NewPosting.value
      (transfer.movements.map Movement.credit) asset =
        keyTotal Movement.asset Movement.amount transfer.movements asset := by
    rw [keyTotal_map]
    rfl
  rw [hcreates, keyTotal_append, hcredits, hspent, hextra, hmoved, Finset.sum_sub_distrib]
  simp only [← hmeets _, Finset.sum_sub_distrib]
  omega

/-- What is spent equals what is created in every asset exactly when no source
has a negative sum of outgoing amounts. -/
theorem MeetsDebits.balanced_iff (hmeets : MeetsDebits transfer spent extra)
    (hcreates : creates = transfer.movements.map Movement.credit ++ extra) :
    (∀ asset, keyTotal Posting.asset Posting.value spent asset =
      keyTotal NewPosting.asset NewPosting.value creates asset) ↔
    ∀ key, 0 ≤ transfer.outgoing key := by
  constructor
  · intro hbalanced key
    have hexcess := hmeets.excess hcreates key.2
    rw [hbalanced, sub_self, eq_comm, Finset.sum_eq_zero_iff_of_nonneg fun key _ => by omega]
      at hexcess
    by_cases hkey : key ∈ transfer.keysOf spent extra key.2
    · have := hexcess key hkey
      omega
    · have hzero : transfer.outgoing key = 0 := keyTotal_eq_zero fun movement hmovement heq =>
        hkey (Transfer.mem_keysOf.mpr ⟨.inr (.inr ⟨movement, hmovement, heq⟩), rfl⟩)
      omega
  · intro houtgoing asset
    have hexcess := hmeets.excess hcreates asset
    rw [Finset.sum_eq_zero fun key _ => by have := houtgoing key; omega] at hexcess
    omega

end Exact

/-! ## The resolved envelope -/

section Resolved

variable {available : HashMap BalanceKey (List Posting)} {accounts : HashMap AccountId Account}

/-- The available postings that an envelope consumes. -/
def Envelope.consumedFrom (envelope : Envelope) (available : HashMap BalanceKey (List Posting)) :
    List Posting :=
  available.values.flatten.filter (·.id ∈ envelope.consumes)

/-- What is spent is available, each posting once. -/
theorem Resolves.subperm {debits : List Debit} {spent : List Posting} {extra : List NewPosting}
    (hresolves : Resolves available accounts debits spent extra) :
    spent.Subperm available.values.flatten := by
  refine subperm_of_filter Posting.key fun posting _ => ?_
  obtain ⟨left, hperm⟩ := hresolves.selected posting.key
  refine (List.sublist_append_left _ left).subperm.trans (hperm.subperm.trans ?_)
  refine List.filter_sublist.subperm.trans (List.Sublist.subperm ?_)
  cases hlookup : available.lookup posting.key with
  | none => exact List.nil_sublist _
  | some postings =>
      exact List.sublist_flatten_of_mem (HashMap.mem_values_iff.mpr ⟨_, hlookup⟩)

/-- Under distinct ids, the postings that the spent ids name are the spent ones. -/
theorem consumedFrom_perm {envelope : Envelope} {spent : List Posting}
    (hids : (available.values.flatten.map (·.id)).Nodup)
    (hsubperm : spent.Subperm available.values.flatten)
    (hconsumes : envelope.consumes = spent.map (·.id)) :
    (envelope.consumedFrom available).Perm spent := by
  have hflat : available.values.flatten.Nodup := .of_map _ hids
  obtain ⟨taken, hperm, hsublist⟩ := hsubperm
  have hspent : spent.Nodup := hperm.nodup_iff.mp (hflat.sublist hsublist)
  refine (List.perm_ext_iff_of_nodup (hflat.filter _) hspent).mpr fun posting => ?_
  rw [List.mem_filter, decide_eq_true_eq, hconsumes]
  constructor
  · rintro ⟨hmem, hid⟩
    obtain ⟨other, hother, heq⟩ := List.mem_map.mp hid
    have hothermem := hsublist.subset (hperm.mem_iff.mpr hother)
    rwa [← List.inj_on_of_nodup_map hids hothermem hmem heq]
  · intro hmem
    exact ⟨hsublist.subset (hperm.mem_iff.mpr hmem), List.mem_map_of_mem hmem⟩

/-- Resolution consumes available postings, none of them twice; it realises the
net flow of every account and asset that owes no negative sum, and conserves
every asset exactly when there are no others. -/
theorem resolveEnvelope_realises (order : IterationOrder) (transfer : Transfer)
    (available : HashMap BalanceKey (List Posting)) (accounts : HashMap AccountId Account)
    (hids : (available.values.flatten.map (·.id)).Nodup)
    (hlisted : ∀ key postings, available.lookup key = some postings →
      ∀ posting ∈ postings, posting.owner = key.1 ∧ posting.asset = key.2)
    {draft : MovementDraft} (hdraft : draftMovements order transfer = .ok draft)
    {envelope : Envelope}
    (henvelope : resolveEnvelope transfer draft available accounts = .ok envelope) :
    envelope.consumes.Nodup ∧
    envelope.consumes.Perm ((envelope.consumedFrom available).map (·.id)) ∧
    (∀ key, 0 ≤ transfer.outgoing key →
      keyTotal NewPosting.key NewPosting.value envelope.creates key -
        keyTotal Posting.key Posting.value (envelope.consumedFrom available) key =
          transfer.incoming key - transfer.outgoing key) ∧
    ((∀ asset, keyTotal Posting.asset Posting.value (envelope.consumedFrom available) asset =
        keyTotal NewPosting.asset NewPosting.value envelope.creates asset) ↔
      ¬∃ key, transfer.outgoing key < 0) := by
  have hkeyed : Keyed available := by
    intro key posting hposting
    cases hlookup : available.lookup key with
    | none => simp [hlookup] at hposting
    | some postings =>
        rw [hlookup] at hposting
        obtain ⟨howner, hasset⟩ := hlisted key postings hlookup posting hposting
        exact Prod.ext howner hasset
  have hdrafts := draftMovements_eq_ok hdraft
  obtain ⟨spent, extra, hresolves, _, rfl⟩ := resolveEnvelope_eq_ok hkeyed hdrafts henvelope
  have hmeets : MeetsDebits transfer spent extra := fun key =>
    (hresolves.exact key).trans (hdrafts.covers key)
  have hperm : (Envelope.consumedFrom ⟨spent.map (·.id), transfer.movements.map Movement.credit ++
      extra, [], transfer.book, transfer.metadata⟩ available).Perm spent :=
    consumedFrom_perm hids hresolves.subperm rfl
  obtain ⟨taken, htaken, hsublist⟩ := hresolves.subperm
  refine ⟨?_, (hperm.map _).symm, fun key hkey => ?_, ?_⟩
  · exact (htaken.map _).nodup_iff.mp (hids.sublist (hsublist.map _))
  · rw [keyTotal_perm hperm, hmeets.net rfl, max_eq_right hkey]
  · simp only [keyTotal_perm hperm, hmeets.balanced_iff rfl, not_exists, not_lt]

end Resolved

end Theory

namespace Sample

def available : HashMap BalanceKey (List Posting) :=
  (∅ : HashMap BalanceKey (List Posting)).insert (alice, usd)
    [postingOf 1 0 alice 3, postingOf 2 0 alice 5]

/-- Alice, who has postings of 3 and 5, pays bob 6. -/
def purchase : Transfer where
  movements := [⟨alice, bob, usd, .ofI64 6⟩]
  book := DEFAULT_BOOK
  metadata := .empty

def purchased : Envelope where
  consumes := [⟨transferOf 2, 0⟩, ⟨transferOf 1, 0⟩]
  creates := [⟨bob, usd, .ofI64 6, some alice⟩, ⟨alice, usd, .ofI64 2, none⟩]
  accountSnapshots := []
  book := DEFAULT_BOOK
  metadata := .empty

end Sample

open Sample in
theorem resolveEnvelope_realises_purchase :
    ∃ draft, draftMovements .listed purchase = .ok draft ∧
      resolveEnvelope purchase draft available ∅ = .ok purchased ∧
      purchased.consumes.Nodup ∧
      ∀ asset, keyTotal Posting.asset Posting.value (purchased.consumedFrom available) asset =
        keyTotal NewPosting.asset NewPosting.value purchased.creates asset := by
  have hlisted : ∀ key postings, available.lookup key = some postings →
      ∀ posting ∈ postings, posting.owner = key.1 ∧ posting.asset = key.2 := by
    intro key postings hlookup
    rw [available, HashMap.lookup_insert_eq] at hlookup
    split at hlookup
    next heq =>
      cases hlookup
      subst heq
      decide
    next => cases hlookup
  have hdraft : draftMovements .listed purchase =
      .ok ⟨[⟨bob, usd, .ofI64 6, some alice⟩], [⟨alice, usd, .ofI64 6⟩]⟩ := by decide +kernel
  have henvelope : resolveEnvelope purchase
      ⟨[⟨bob, usd, .ofI64 6, some alice⟩], [⟨alice, usd, .ofI64 6⟩]⟩ available ∅ =
      .ok purchased := by decide +kernel
  obtain ⟨hnodup, _, _, hconserves⟩ := resolveEnvelope_realises .listed purchase available ∅
    (by decide +kernel) hlisted hdraft henvelope
  refine ⟨_, hdraft, henvelope, hnodup, hconserves.mpr ?_⟩
  rintro ⟨key, hnegative⟩
  have hnonneg : 0 ≤ purchase.outgoing key := by
    refine keyTotal_nonneg fun movement hmovement _ => ?_
    rw [List.mem_singleton.mp hmovement]
    decide
  omega

end Kuatia
