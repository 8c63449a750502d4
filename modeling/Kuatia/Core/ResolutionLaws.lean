import Kuatia.Core.PostingResolution
import Kuatia.Core.Validate

/-! # What resolution selects

The draft asks for the positive net debit of every source. Each debit is covered
exactly: what is taken, less the change or plus the negative posting that stands
for a shortfall, is the amount that was asked for.
-/

namespace Kuatia

variable [MoneyWidth]

namespace Transfer

/-- What the movements take from one account and asset. -/
def outgoing (transfer : Transfer) (key : BalanceKey) : Int :=
  keyTotal Movement.source Movement.amount transfer.movements key

/-- What the movements give to one account and asset. -/
def incoming (transfer : Transfer) (key : BalanceKey) : Int :=
  keyTotal Movement.destination Movement.amount transfer.movements key

end Transfer

/-- What is taken from an account is taken by a movement of it. -/
theorem exists_source_of_outgoing {transfer : Transfer} {key : BalanceKey}
    (hpositive : 0 < transfer.outgoing key) :
    ∃ movement ∈ transfer.movements, movement.source = key := by
  by_contra hnone
  have hzero : transfer.outgoing key = 0 :=
    keyTotal_eq_zero fun movement hmovement hkey => hnone ⟨movement, hmovement, hkey⟩
  omega

/-! ## The draft -/

/-- The entries of a map that are positive, by key. -/
theorem keyTotal_positive_entries {K : Type} [DecidableEq K] {entries : List (Σ _ : K, Cent)}
    (hnodup : entries.NodupKeys) (key : K) :
    keyTotal Sigma.fst Sigma.snd (entries.filter (·.2.isPositive)) key =
      max 0 ((entries.dlookup key).getD .ZERO).val := by
  induction entries with
  | nil => rfl
  | cons head tail ih =>
      obtain ⟨hfresh, htail⟩ := List.nodupKeys_cons.mp hnodup
      obtain ⟨other, amount⟩ := head
      by_cases hkey : key = other
      · subst hkey
        have hrest : keyTotal Sigma.fst Sigma.snd (tail.filter (·.2.isPositive)) key = 0 := by
          refine keyTotal_eq_zero fun item hitem heq => hfresh ?_
          have hmem := List.mem_keys_of_mem (List.mem_filter.mp hitem).1
          rwa [heq] at hmem
        rw [List.dlookup_cons_eq, Option.getD_some, List.filter_cons]
        split
        next hpositive =>
          rw [keyTotal_cons, if_pos rfl, hrest]
          have := Cent.isPositive_iff.mp hpositive
          dsimp only at this ⊢
          omega
        next hpositive =>
          rw [hrest]
          have := mt Cent.isPositive_iff.mpr hpositive
          dsimp only at this
          omega
      · rw [List.dlookup_cons_ne _ _ hkey, ← ih htail, List.filter_cons]
        split
        next => rw [keyTotal_cons, if_neg (Ne.symm hkey), zero_add]
        next => rfl

/-- What the first pass has decided. -/
structure Drafts (transfer : Transfer) (draft : MovementDraft) : Prop where
  creates : draft.creates = transfer.movements.map Movement.credit
  keys : (draft.debits.map Debit.key).Nodup
  positive : ∀ debit ∈ draft.debits, 0 < debit.amount.val
  covers : ∀ key, keyTotal Debit.key Debit.amount draft.debits key = max 0 (transfer.outgoing key)

theorem draftMovements_eq_ok {order : IterationOrder} {transfer : Transfer} {draft : MovementDraft}
    (hdraft : draftMovements order transfer = .ok draft) : Drafts transfer draft := by
  obtain ⟨totals, htotals, hpure⟩ := Except.bind_eq_ok_iff.mp hdraft
  cases hpure
  have hperm : (((order.arrange totals.entries).filter (·.2.isPositive)).map fun entry =>
      ({ account := entry.1.1, asset := entry.1.2, amount := entry.2 } : Debit)).Perm
      ((totals.entries.filter (·.2.isPositive)).map fun entry => ⟨entry.1.1, entry.1.2, entry.2⟩) :=
    ((order.arrange_perm _).filter _).map _
  have hsorted := (List.perm_insertionSort (fun a b : Debit => BalanceKey.le a.key b.key) _).trans
    hperm
  refine ⟨rfl, ?_, fun debit hdebit => ?_, fun key => ?_⟩
  · rw [(hsorted.map Debit.key).nodup_iff, List.map_map]
    exact totals.nodupKeys.sublist List.filter_sublist
  · obtain ⟨entry, hentry, rfl⟩ := List.mem_map.mp (hsorted.mem_iff.mp hdebit)
    exact Cent.isPositive_iff.mp (List.mem_filter.mp hentry).2
  · have hnet := Totals.val_get_of_addAll htotals key
    rw [Totals.get_empty, Cent.val_ZERO, zero_add] at hnet
    rw [keyTotal_perm hsorted, keyTotal_map, Transfer.outgoing, ← hnet]
    exact keyTotal_positive_entries totals.nodupKeys key

/-- There are no more debits than movements: each is of the source of one. -/
theorem Drafts.length_debits_le {transfer : Transfer} {draft : MovementDraft}
    (hdraft : Drafts transfer draft) : draft.debits.length ≤ transfer.movements.length := by
  have hsubset : draft.debits.map Debit.key ⊆ transfer.movements.map Movement.source := by
    intro key hkey
    by_contra hsource
    have hzero : transfer.outgoing key = 0 := keyTotal_eq_zero fun movement hmovement heq =>
      hsource (heq ▸ List.mem_map_of_mem hmovement)
    have hcovers := hdraft.covers key
    have hpositive := keyTotal_pos hdraft.positive hkey
    omega
  have hlength := (List.subperm_of_subset hdraft.keys hsubset).length_le
  rwa [List.length_map, List.length_map] at hlength

/-! ## Covering a debit -/

/-- A prefix is taken and its exact sum returned; it covers the amount unless
everything was taken. -/
theorem takeUntilCovered_eq_ok {amount sum total : Cent} {postings : List Posting}
    {ids : List PostingId} (htake : takeUntilCovered amount postings sum = .ok (ids, total)) :
    ∃ taken left, taken ++ left = postings ∧ ids = taken.map (·.id) ∧
      total.val = sum.val + (taken.map (·.value.val)).sum ∧ (amount ≤ total ∨ left = []) := by
  induction postings generalizing sum ids with
  | nil =>
      cases htake
      exact ⟨[], [], rfl, rfl, by simp, .inr rfl⟩
  | cons posting rest ih =>
      obtain ⟨next, hnext, htake⟩ := Except.bind_eq_ok_iff.mp htake
      rw [Cent.checkedAdd_eq_ok_iff] at hnext
      split at htake
      next hcovered =>
        cases htake
        exact ⟨[posting], rest, rfl, rfl, by simpa using hnext, .inl hcovered⟩
      next =>
        obtain ⟨⟨more, _⟩, hrest, hpure⟩ := Except.bind_eq_ok_iff.mp htake
        cases hpure
        obtain ⟨taken, left, rfl, rfl, htotal, hend⟩ := ih hrest
        refine ⟨posting :: taken, left, rfl, rfl, ?_, hend⟩
        rw [htotal, hnext, List.map_cons, List.sum_cons]
        omega

/-- How one debit is covered by the available postings: some are taken, and the
change or the negative posting makes up the difference to the amount. -/
structure Covers (avail : List Posting) (debit : Debit) (taken : List Posting)
    (extra : List NewPosting) : Prop where
  selected : ∃ left, (taken ++ left).Perm (positives avail)
  keyed : ∀ posting ∈ extra, posting.key = debit.key
  few : extra.length ≤ 1
  nonzero : ∀ posting ∈ extra, posting.value.val ≠ 0
  exact : (taken.map (·.value.val)).sum - (extra.map (·.value.val)).sum = debit.amount.val

theorem resolveDebit_eq_ok {available : HashMap BalanceKey (List Posting)}
    {accounts : HashMap AccountId Account} {selection next : Selection} {debit : Debit}
    (hdebit : resolveDebit available accounts selection debit = .ok next) :
    ∃ taken extra, Covers ((available.lookup debit.key).getD []) debit taken extra ∧
      next = ⟨selection.consumes ++ taken.map (·.id), selection.creates ++ extra⟩ ∧
      ∀ posting ∈ extra, posting.value.val < 0 → ∃ account,
        accounts.lookup debit.account = some account ∧ account.forbidsOverdraft = false := by
  generalize havail : (available.lookup debit.key).getD [] = avail
  unfold resolveDebit at hdebit
  rw [havail] at hdebit
  obtain ⟨totalPositive, htotal, hrest⟩ := Except.bind_eq_ok_iff.mp hdebit
  rw [Except.mapError_eq_ok_iff] at htotal
  have hsum := Cent.val_of_checkedSum htotal
  rw [List.map_map] at hsum
  split at hrest
  next hcovered =>
    obtain ⟨⟨ids, consumedSum⟩, htake, hrest⟩ := Except.bind_eq_ok_iff.mp hrest
    obtain ⟨change, hchange, hpure⟩ := Except.bind_eq_ok_iff.mp hrest
    cases hpure
    rw [Except.mapError_eq_ok_iff] at htake
    rw [Except.mapError_eq_ok_iff, Cent.checkedSub_eq_ok_iff] at hchange
    obtain ⟨taken, left, hsplit, rfl, hconsumed, hend⟩ := takeUntilCovered_eq_ok htake
    rw [Cent.val_ZERO, zero_add] at hconsumed
    have hperm : (taken ++ left).Perm (positives avail) :=
      hsplit ▸ List.perm_insertionSort _ _
    -- everything that is available suffices, so what was taken does too
    have hnonneg : 0 ≤ change.val := by
      rcases hend with hreached | rfl
      · have := Cent.le_iff.mp hreached
        omega
      · have hall := (hperm.map (·.value.val)).sum_eq
        rw [List.append_nil, ← hconsumed] at hall
        have := Cent.le_iff.mp hcovered
        have : totalPositive.val = consumedSum.val := hsum.trans hall.symm
        omega
    refine ⟨taken, _, ⟨⟨left, hperm⟩, ?_, ?_, ?_, ?_⟩, rfl, ?_⟩
    · split
      next => simp [Debit.key, NewPosting.key]
      next => simp
    · split <;> simp
    · split
      next hpositive =>
        have := Cent.isPositive_iff.mp hpositive
        intro posting hposting
        rw [List.mem_singleton.mp hposting]
        dsimp only
        omega
      next => simp
    · split
      next =>
        simp only [List.map_cons, List.map_nil, List.sum_cons, List.sum_nil]
        omega
      next hzero =>
        have := mt Cent.isPositive_iff.mpr hzero
        simp only [List.map_nil, List.sum_nil]
        omega
    · split
      next hpositive =>
        have := Cent.isPositive_iff.mp hpositive
        intro posting hposting hnegative
        rw [List.mem_singleton.mp hposting] at hnegative
        dsimp only at hnegative
        omega
      next => simp
  next huncovered =>
    split at hrest
    next hpermits =>
      obtain ⟨shortfall, hshortfall, hrest⟩ := Except.bind_eq_ok_iff.mp hrest
      obtain ⟨offset, hoffset, hpure⟩ := Except.bind_eq_ok_iff.mp hrest
      cases hpure
      rw [Except.mapError_eq_ok_iff, Cent.checkedSub_eq_ok_iff] at hshortfall
      rw [Except.mapError_eq_ok_iff, Cent.checkedNeg_eq_ok_iff] at hoffset
      refine ⟨positives avail, [⟨debit.account, debit.asset, offset, none⟩],
        ⟨⟨[], by simp⟩, by simp [Debit.key, NewPosting.key], le_rfl, ?_, ?_⟩, rfl, fun _ _ _ => ?_⟩
      · rw [Cent.le_iff, not_le] at huncovered
        intro posting hposting
        rw [List.mem_singleton.mp hposting]
        dsimp only
        omega
      · have hsum : totalPositive.val = ((positives avail).map (·.value.val)).sum := hsum
        simp only [List.map_cons, List.map_nil, List.sum_cons, List.sum_nil]
        omega
      · obtain ⟨account, hlookup, hflag⟩ := Option.any_eq_true _ _ |>.mp hpermits
        exact ⟨account, hlookup, by simpa using hflag⟩
    next => cases hrest

/-! ## Covering all debits -/

section Debits

variable {available : HashMap BalanceKey (List Posting)} {accounts : HashMap AccountId Account}

/-- The available lists hold postings of their own keys. -/
def Keyed (available : HashMap BalanceKey (List Posting)) : Prop :=
  ∀ key, ∀ posting ∈ (available.lookup key).getD [], posting.key = key

/-- How a list of debits under distinct keys is covered. -/
structure Resolves (available : HashMap BalanceKey (List Posting))
    (accounts : HashMap AccountId Account) (debits : List Debit) (spent : List Posting)
    (extra : List NewPosting) : Prop where
  selected : ∀ key, ∃ left, (spent.filter (·.key = key) ++ left).Perm
    (positives ((available.lookup key).getD []))
  debited : ∀ posting ∈ spent, posting.key ∈ debits.map Debit.key
  few : extra.length ≤ debits.length
  keyed : ∀ posting ∈ extra, posting.key ∈ debits.map Debit.key
  nonzero : ∀ posting ∈ extra, posting.value.val ≠ 0
  exact : ∀ key, keyTotal Posting.key Posting.value spent key -
    keyTotal NewPosting.key NewPosting.value extra key = keyTotal Debit.key Debit.amount debits key
  permits : ∀ posting ∈ extra, posting.value.val < 0 → ∃ account,
    accounts.lookup posting.owner = some account ∧ account.forbidsOverdraft = false

theorem Covers.key_of_taken (hkeyed : Keyed available) {debit : Debit} {taken : List Posting}
    {extra : List NewPosting}
    (hcovers : Covers ((available.lookup debit.key).getD []) debit taken extra) :
    ∀ posting ∈ taken, posting.key = debit.key := by
  intro posting hposting
  obtain ⟨left, hperm⟩ := hcovers.selected
  have hmem := hperm.mem_iff.mp (List.mem_append_left left hposting)
  exact hkeyed _ _ (List.mem_filter.mp hmem).1

theorem Covers.exact_key (hkeyed : Keyed available) {debit : Debit} {taken : List Posting}
    {extra : List NewPosting}
    (hcovers : Covers ((available.lookup debit.key).getD []) debit taken extra) (key : BalanceKey) :
    keyTotal Posting.key Posting.value taken key -
      keyTotal NewPosting.key NewPosting.value extra key =
        if debit.key = key then debit.amount.val else 0 := by
  rw [keyTotal_of_key (hcovers.key_of_taken hkeyed), keyTotal_of_key hcovers.keyed]
  split
  next => exact hcovers.exact
  next => rfl

theorem resolves_nil : Resolves available accounts [] [] [] where
  selected key := ⟨_, .refl _⟩
  debited _ hposting := by cases hposting
  few := le_rfl
  keyed _ hposting := by cases hposting
  nonzero _ hposting := by cases hposting
  exact _ := rfl
  permits _ hposting := by cases hposting

theorem Resolves.cons (hkeyed : Keyed available) {debit : Debit} {debits : List Debit}
    (hfresh : debit.key ∉ debits.map Debit.key) {taken spent : List Posting}
    {extra more : List NewPosting}
    (hcovers : Covers ((available.lookup debit.key).getD []) debit taken extra)
    (hpermits : ∀ posting ∈ extra, posting.value.val < 0 → ∃ account,
      accounts.lookup debit.account = some account ∧ account.forbidsOverdraft = false)
    (hrest : Resolves available accounts debits spent more) :
    Resolves available accounts (debit :: debits) (taken ++ spent) (extra ++ more) where
  selected key := by
    have htaken := hcovers.key_of_taken hkeyed
    rw [List.filter_append]
    -- the keys of the debits differ, so only one side selects under this key
    by_cases hkey : debit.key = key
    · subst hkey
      have hspent : spent.filter (·.key = debit.key) = [] := by
        refine List.filter_eq_nil_iff.mpr fun posting hposting heq => hfresh ?_
        exact of_decide_eq_true heq ▸ hrest.debited posting hposting
      rw [hspent, List.append_nil, List.filter_eq_self.mpr (by simpa using htaken)]
      exact hcovers.selected
    · have hnone : taken.filter (·.key = key) = [] := by
        refine List.filter_eq_nil_iff.mpr fun posting hposting heq => hkey ?_
        exact (htaken posting hposting).symm.trans (of_decide_eq_true heq)
      rw [hnone, List.nil_append]
      exact hrest.selected key
  debited posting hposting := by
    rw [List.map_cons, List.mem_cons]
    rcases List.mem_append.mp hposting with hposting | hposting
    · exact .inl (hcovers.key_of_taken hkeyed posting hposting)
    · exact .inr (hrest.debited posting hposting)
  few := by
    have hone := hcovers.few
    have hrest := hrest.few
    rw [List.length_append, List.length_cons]
    omega
  keyed posting hposting := by
    rw [List.map_cons, List.mem_cons]
    exact (List.mem_append.mp hposting).imp (hcovers.keyed posting) (hrest.keyed posting)
  nonzero posting hposting :=
    (List.mem_append.mp hposting).elim (hcovers.nonzero posting) (hrest.nonzero posting)
  exact key := by
    have hfirst := hcovers.exact_key hkeyed key
    have hrest := hrest.exact key
    rw [keyTotal_append, keyTotal_append, keyTotal_cons, ← hrest, ← hfirst]
    omega
  permits posting hposting hnegative := by
    rcases List.mem_append.mp hposting with hposting | hposting
    · have howner : posting.owner = debit.account :=
        congrArg Prod.fst (hcovers.keyed posting hposting)
      rw [howner]
      exact hpermits posting hposting hnegative
    · exact hrest.permits posting hposting hnegative

/-- One debit has at most one more posting, under its own key. -/
theorem Covers.single {avail taken : List Posting} {debit : Debit} {extra : List NewPosting}
    (hcovers : Covers avail debit taken extra) : (extra.map NewPosting.key).Nodup := by
  obtain ⟨_, _, hfew, _, _⟩ := hcovers
  match extra, hfew with
  | [], _ => exact .nil
  | [posting], _ => exact List.nodup_singleton _

theorem resolveDebits_eq_ok (hkeyed : Keyed available) {debits : List Debit}
    (hnodup : (debits.map Debit.key).Nodup) {start next : Selection}
    (hfold : debits.foldlM (resolveDebit available accounts) start = .ok next) :
    ∃ spent extra, Resolves available accounts debits spent extra ∧
      (extra.map NewPosting.key).Nodup ∧
      next = ⟨start.consumes ++ spent.map (·.id), start.creates ++ extra⟩ := by
  induction debits generalizing start with
  | nil =>
      cases hfold
      exact ⟨[], [], resolves_nil, .nil, by simp⟩
  | cons debit debits ih =>
      rw [List.foldlM_cons, Except.bind_eq_ok_iff] at hfold
      obtain ⟨middle, hdebit, hrest⟩ := hfold
      rw [List.map_cons, List.nodup_cons] at hnodup
      obtain ⟨taken, extra, hcovers, rfl, hpermits⟩ := resolveDebit_eq_ok hdebit
      obtain ⟨spent, more, hresolves, hsingle, rfl⟩ := ih hnodup.2 hrest
      refine ⟨taken ++ spent, extra ++ more, hresolves.cons hkeyed hnodup.1 hcovers hpermits, ?_,
        by simp⟩
      rw [List.map_append]
      refine List.Nodup.append hcovers.single hsingle fun key hextra hmore => hnodup.1 ?_
      obtain ⟨posting, hposting, rfl⟩ := List.mem_map.mp hextra
      obtain ⟨other, hother, heq⟩ := List.mem_map.mp hmore
      rw [← hcovers.keyed posting hposting, ← heq]
      exact hresolves.keyed other hother

/-- A resolved envelope consumes what covers the debits, and creates the credits
with whatever makes up the differences, at most one posting for each debit. -/
theorem resolveEnvelope_eq_ok {transfer : Transfer} {draft : MovementDraft} {envelope : Envelope}
    (hkeyed : Keyed available) (hdraft : Drafts transfer draft)
    (henvelope : resolveEnvelope transfer draft available accounts = .ok envelope) :
    ∃ spent extra, Resolves available accounts draft.debits spent extra ∧
      (extra.map NewPosting.key).Nodup ∧
      envelope = ⟨spent.map (·.id), transfer.movements.map Movement.credit ++ extra, [],
        transfer.book, transfer.metadata⟩ := by
  obtain ⟨selection, hfold, hpure⟩ := Except.bind_eq_ok_iff.mp henvelope
  cases hpure
  obtain ⟨spent, extra, hresolves, hsingle, rfl⟩ := resolveDebits_eq_ok hkeyed hdraft.keys hfold
  exact ⟨spent, extra, hresolves, hsingle, by simp [hdraft.creates]⟩

end Debits

end Kuatia
