import Kuatia.Collections.Covering
import Kuatia.Core.Coverage

/-! # As few postings as possible

The positive postings are taken in descending order until they cover the debit, so
as few of them are taken as can cover it.
-/

namespace Kuatia

section Theory

variable [MoneyWidth]

open MoneyWidth (backing)

/-- The numbers of positive available postings that can cover an amount. -/
def coverSizes (avail : List Posting) (amount : Cent) : Set Nat :=
  Covering.sizes (fun posting => posting.value.val) (positives avail) amount.val

/-- The ids are those of positive available postings that cover the amount, and as few
as can cover it. -/
structure TakesFewest (avail : List Posting) (amount : Cent) (ids : List PostingId) : Prop where
  covers : ∃ taken : List Posting, taken.Subperm (positives avail) ∧ ids = taken.map (·.id) ∧
    amount.val ≤ (taken.map (·.value.val)).sum
  fewest : IsLeast (coverSizes avail amount) ids.length

/-- What is taken ends with the first posting that covers the amount. -/
theorem takeUntilCovered_shortest {amount sum total : Cent} {postings : List Posting}
    {ids : List PostingId} (htake : takeUntilCovered amount postings sum = .ok (ids, total))
    (hsum : sum.val < amount.val)
    (henough : amount.val ≤ sum.val + (postings.map (·.value.val)).sum) :
    ∃ earlier last later, postings = earlier ++ last :: later ∧
      ids = (earlier ++ [last]).map (·.id) ∧
      sum.val + (earlier.map (·.value.val)).sum < amount.val ∧
      amount.val ≤ sum.val + ((earlier ++ [last]).map (·.value.val)).sum := by
  induction postings generalizing sum ids with
  | nil =>
      rw [List.map_nil, List.sum_nil, add_zero] at henough
      exact absurd henough (not_le.mpr hsum)
  | cons posting rest ih =>
      obtain ⟨next, hnext, htake⟩ := Except.bind_eq_ok_iff.mp htake
      rw [Cent.checkedAdd_eq_ok_iff] at hnext
      split at htake
      next hcovered =>
        cases htake
        refine ⟨[], posting, rest, rfl, rfl, by simpa using hsum, ?_⟩
        simpa [← hnext] using Cent.le_iff.mp hcovered
      next hshort =>
        obtain ⟨⟨more, _⟩, hrest, hpure⟩ := Except.bind_eq_ok_iff.mp htake
        cases hpure
        rw [List.map_cons, List.sum_cons, ← add_assoc, ← hnext] at henough
        obtain ⟨earlier, last, later, rfl, rfl, hbefore, hafter⟩ :=
          ih hrest (not_le.mp (mt Cent.le_iff.mpr hshort)) henough
        refine ⟨posting :: earlier, last, later, rfl, rfl, ?_, ?_⟩
        · rw [List.map_cons, List.sum_cons, ← add_assoc, ← hnext]
          exact hbefore
        · rw [List.cons_append, List.map_cons, List.sum_cons, ← add_assoc, ← hnext]
          exact hafter

/-- The descending order of the postings that are taken from. -/
theorem pairwise_largestFirst (postings : List Posting) :
    (largestFirst postings).Pairwise fun first second => second.value.val ≤ first.value.val := by
  have : Std.Total fun first second : Posting => second.value ≤ first.value :=
    ⟨fun first second => le_total second.value.val first.value.val⟩
  have : IsTrans Posting fun first second => second.value ≤ first.value :=
    ⟨fun _ _ _ hfirst hsecond => le_trans (α := Int) hsecond hfirst⟩
  exact List.pairwise_insertionSort _ postings

variable {available : HashMap BalanceKey (List Posting)} {accounts : HashMap AccountId Account}

theorem takesFewest_of_takeUntilCovered {avail : List Posting} {amount total : Cent}
    {ids : List PostingId} (hpositive : 0 < amount.val)
    (hcovered : amount.val ≤ ((positives avail).map (·.value.val)).sum)
    (htake : takeUntilCovered amount (largestFirst (positives avail)) .ZERO = .ok (ids, total)) :
    TakesFewest avail amount ids := by
  have hperm : (largestFirst (positives avail)).Perm (positives avail) :=
    List.perm_insertionSort _ _
  rw [← (hperm.map (·.value.val)).sum_eq, ← zero_add (List.sum _)] at hcovered
  obtain ⟨earlier, last, later, hsplit, rfl, hbefore, hafter⟩ :=
    takeUntilCovered_shortest htake hpositive hcovered
  rw [Cent.val_ZERO, zero_add] at hbefore hafter
  have hpositives : ∀ posting ∈ earlier, 0 ≤ posting.value.val := by
    intro posting hposting
    have hmem : posting ∈ positives avail :=
      hperm.mem_iff.mp (hsplit ▸ List.mem_append_left _ hposting)
    exact (Cent.isPositive_iff.mp (List.mem_filter.mp hmem).2).le
  have hsorted := pairwise_largestFirst (positives avail)
  rw [hsplit] at hsorted hperm
  refine ⟨⟨earlier ++ [last], ?_, rfl, hafter⟩, ?_⟩
  · have hprefix := (List.sublist_append_left [last] later).append_left earlier
    exact hprefix.subperm.trans hperm.subperm
  · rw [coverSizes, ← Covering.sizes_perm hperm, List.length_map, List.length_append,
      List.length_singleton]
    exact Covering.isLeast_of_prefix hsorted hpositives hbefore hafter

/-- What resolution takes for a debit that the positive postings cover. -/
theorem takesFewest_of_resolveDebit {selection next : Selection} {debit : Debit}
    (hdebit : resolveDebit available accounts selection debit = .ok next) :
    ∃ ids, next.consumes = selection.consumes ++ ids ∧
      fundsOf available debit ≤ Backing.max backing ∧
      (0 < debit.amount.val → debit.amount.val ≤ fundsOf available debit →
        TakesFewest (availableTo available debit) debit.amount ids) := by
  obtain ⟨totalPositive, htotal, hrest⟩ := Except.bind_eq_ok_iff.mp hdebit
  rw [Except.mapError_eq_ok_iff] at htotal
  have hsum : totalPositive.val = fundsOf available debit := by
    have hval := Cent.val_of_checkedSum htotal
    rwa [List.map_map] at hval
  have hfits := hsum ▸ totalPositive.le_max
  split at hrest
  next =>
    obtain ⟨⟨ids, consumedSum⟩, htake, hrest⟩ := Except.bind_eq_ok_iff.mp hrest
    obtain ⟨change, -, hpure⟩ := Except.bind_eq_ok_iff.mp hrest
    cases hpure
    rw [Except.mapError_eq_ok_iff] at htake
    exact ⟨ids, rfl, hfits, fun hpositive hcovered =>
      takesFewest_of_takeUntilCovered hpositive hcovered htake⟩
  next huncovered =>
    rw [Cent.le_iff, hsum] at huncovered
    split at hrest
    next =>
      obtain ⟨shortfall, -, hrest⟩ := Except.bind_eq_ok_iff.mp hrest
      obtain ⟨offset, -, hpure⟩ := Except.bind_eq_ok_iff.mp hrest
      cases hpure
      exact ⟨_, rfl, hfits, fun _ hcovered => absurd hcovered huncovered⟩
    next => cases hrest

/-- What resolution takes for each of some debits, in their order. -/
theorem takesFewest_of_resolveDebits {debits : List Debit} {start next : Selection}
    (hfold : debits.foldlM (resolveDebit available accounts) start = .ok next) :
    ∃ parts : List (List PostingId), next.consumes = start.consumes ++ parts.flatten ∧
      List.Forall₂ (fun debit ids => fundsOf available debit ≤ Backing.max backing ∧
        (0 < debit.amount.val → debit.amount.val ≤ fundsOf available debit →
          TakesFewest (availableTo available debit) debit.amount ids)) debits parts := by
  induction debits generalizing start with
  | nil =>
      cases hfold
      exact ⟨[], by simp, .nil⟩
  | cons debit debits ih =>
      rw [List.foldlM_cons, Except.bind_eq_ok_iff] at hfold
      obtain ⟨middle, hdebit, hrest⟩ := hfold
      obtain ⟨ids, hids, htakes⟩ := takesFewest_of_resolveDebit hdebit
      obtain ⟨parts, hparts, hall⟩ := ih hrest
      refine ⟨ids :: parts, ?_, .cons htakes hall⟩
      rw [hparts, hids, List.flatten_cons, List.append_assoc]

/-- Debits that positive postings cover are resolved, if the postings can be added up. -/
theorem exists_resolveDebits {debits : List Debit} (start : Selection)
    (hdebits : ∀ debit ∈ debits, 0 < debit.amount.val ∧
      debit.amount.val ≤ fundsOf available debit ∧
      fundsOf available debit ≤ Backing.max backing) :
    ∃ next, debits.foldlM (resolveDebit available accounts) start = .ok next := by
  induction debits generalizing start with
  | nil => exact ⟨start, rfl⟩
  | cons debit debits ih =>
      obtain ⟨⟨hpositive, hcovered, hroom⟩, hrest⟩ := List.forall_mem_cons.mp hdebits
      obtain ⟨middle, hmiddle⟩ := exists_resolveDebit start hpositive hroom (.inl hcovered)
      exact Except.exists_bind_eq_ok hmiddle (ih middle hrest)

/-- An envelope consumes, debit by debit, as few positive postings as cover the debit.
There is one when the positive postings cover every debit and can be added up, and
none when those of some debtor cannot. -/
theorem resolveEnvelope_takesFewest (transfer : Transfer) (draft : MovementDraft)
    (available : HashMap BalanceKey (List Posting)) (accounts : HashMap AccountId Account) :
    (∀ envelope, resolveEnvelope transfer draft available accounts = .ok envelope →
      ∃ parts : List (List PostingId), envelope.consumes = parts.flatten ∧
        List.Forall₂ (fun debit ids => fundsOf available debit ≤ Backing.max backing ∧
          (0 < debit.amount.val → debit.amount.val ≤ fundsOf available debit →
            TakesFewest (availableTo available debit) debit.amount ids)) draft.debits parts) ∧
    ((∀ debit ∈ draft.debits, 0 < debit.amount.val ∧
        debit.amount.val ≤ fundsOf available debit ∧
        fundsOf available debit ≤ Backing.max backing) →
      ∃ envelope, resolveEnvelope transfer draft available accounts = .ok envelope) := by
  constructor
  · intro envelope henvelope
    obtain ⟨selection, hfold, hpure⟩ := Except.bind_eq_ok_iff.mp henvelope
    cases hpure
    exact takesFewest_of_resolveDebits hfold
  · intro hdebits
    exact Except.exists_bind_eq_ok (exists_resolveDebits _ hdebits).choose_spec ⟨_, rfl⟩

end Theory

/-! ## Two runs -/

section Runs

local instance narrow : MoneyWidth := ⟨.i64⟩

/-- The owner's postings of one asset, by their values. -/
def holdings (values : List Int64) : HashMap BalanceKey (List Posting) :=
  (∅ : HashMap BalanceKey (List Posting)).insert (⟨2, 0⟩, ⟨840⟩) (values.zipIdx.map fun (value, index) =>
    ⟨⟨⟨.replicate 32 0⟩, .ofNat index⟩, ⟨2, 0⟩, ⟨840⟩, .ofI64 value⟩)

def owing (amount : Int64) : MovementDraft := ⟨[], [⟨⟨2, 0⟩, ⟨840⟩, .ofI64 amount⟩]⟩

/-- Of postings of 4, 5, -2 and 3 the debit of 7 takes the 5 and the 4; less than two
cannot cover it. -/
theorem resolveEnvelope_takesFewest_seven :
    ∃ envelope, resolveEnvelope ⟨[], DEFAULT_BOOK, .empty⟩ (owing 7) (holdings [4, 5, -2, 3]) ∅ =
        .ok envelope ∧
      envelope.consumes = [⟨⟨.replicate 32 0⟩, 1⟩, ⟨⟨.replicate 32 0⟩, 0⟩] ∧
      IsLeast (coverSizes (availableTo (holdings [4, 5, -2, 3]) ⟨⟨2, 0⟩, ⟨840⟩, .ofI64 7⟩)
        (.ofI64 7)) 2 := by
  obtain ⟨hfewest, hresolves⟩ := resolveEnvelope_takesFewest ⟨[], DEFAULT_BOOK, .empty⟩ (owing 7)
    (holdings [4, 5, -2, 3]) ∅
  obtain ⟨envelope, henvelope⟩ := hresolves (by decide +kernel)
  have hconsumes : envelope.consumes = [⟨⟨.replicate 32 0⟩, 1⟩, ⟨⟨.replicate 32 0⟩, 0⟩] := by
    have hcomputed : (resolveEnvelope ⟨[], DEFAULT_BOOK, .empty⟩ (owing 7)
        (holdings [4, 5, -2, 3]) ∅).toOption.map (·.consumes) =
          some [⟨⟨.replicate 32 0⟩, 1⟩, ⟨⟨.replicate 32 0⟩, 0⟩] := by decide +kernel
    rw [henvelope] at hcomputed
    exact Option.some.inj hcomputed
  refine ⟨envelope, henvelope, hconsumes, ?_⟩
  obtain ⟨parts, hparts, hall⟩ := hfewest envelope henvelope
  obtain ⟨ids, rest, ⟨-, htakes⟩, hnil, rfl⟩ := List.forall₂_cons_left_iff.mp hall
  rw [List.forall₂_nil_left_iff.mp hnil, List.flatten_singleton, hconsumes] at hparts
  have hleast := (htakes (by decide +kernel) (by decide +kernel)).fewest
  rwa [← hparts] at hleast

/-- Two postings that cannot be added up. -/
def large : HashMap BalanceKey (List Posting) :=
  holdings [4611686018427387904, 4611686018427387904]

/-- Either of the two covers a debit of one, but none is taken. -/
theorem resolveEnvelope_overflow :
    1 ∈ coverSizes (availableTo large ⟨⟨2, 0⟩, ⟨840⟩, .ofI64 1⟩) (.ofI64 1) ∧
      resolveEnvelope ⟨[], DEFAULT_BOOK, .empty⟩ (owing 1) large ∅ = .error .overflow :=
  ⟨⟨(positives (availableTo large ⟨⟨2, 0⟩, ⟨840⟩, .ofI64 1⟩)).take 1, List.take_sublist _ _,
    by decide +kernel, by decide +kernel⟩, by decide +kernel⟩

end Runs

end Kuatia
