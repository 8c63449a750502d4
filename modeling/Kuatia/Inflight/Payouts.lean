import Kuatia.Inflight.Projection

/-! # The shares of the funders of a hold

What is left of a hold goes to its funders in the order of the legs, each up to
what it has funded. When the legs have funded at least as much, raising the limit of
the last one changes nothing, as long as the raised limit is high enough.
-/

namespace Kuatia

section Theory

variable [MoneyWidth]

open MoneyWidth (backing)

/-- The legs that have funded a hold with an asset. -/
def fundingLegs (legs : List InflightLeg) (hold : AccountId) (asset : AssetId) :
    List InflightLeg :=
  legs.filter fun leg => leg.hold = hold ∧ leg.asset = asset

/-- What some legs have funded together. -/
def totalFunded (legs : List InflightLeg) : Int := (legs.map (·.amount.val)).sum

/-- The payouts are positive, come to `remaining`, and give no account more than the
legs have funded under its name. -/
structure SplitsFully (legs : List InflightLeg) (remaining : Cent)
    (payouts : List FunderPayout) : Prop where
  positive : ∀ payout ∈ payouts, 0 < payout.give.val
  complete : (payouts.map (·.give.val)).sum = remaining.val
  capped : ∀ funder, keyTotal FunderPayout.funder FunderPayout.give payouts funder ≤
    keyTotal InflightLeg.funder InflightLeg.amount legs funder

/-! ## Paying out -/

/-- The limits of some funders together. -/
def capTotal (caps : List (AccountId × Cent)) : Int := (caps.map (·.2.val)).sum

@[simp] theorem capTotal_cons (head : AccountId × Cent) (tail : List (AccountId × Cent)) :
    capTotal (head :: tail) = head.2.val + capTotal tail := rfl

theorem capTotal_nonneg {caps : List (AccountId × Cent)} (hcaps : ∀ cap ∈ caps, 0 ≤ cap.2.val) :
    0 ≤ capTotal caps := by
  refine List.sum_nonneg fun value hvalue => ?_
  obtain ⟨cap, hcap, rfl⟩ := List.mem_map.mp hvalue
  exact hcaps cap hcap

variable {funder : AccountId} {cap remaining give left : Cent} {rest : List (AccountId × Cent)}

theorem payOut_of_nothing {caps : List (AccountId × Cent)} (hnothing : ¬0 < remaining.val) :
    payOut caps remaining = .ok [] := by
  cases caps with
  | nil => rfl
  | cons head rest => simp [payOut, hnothing]

/-- The share of the first funder is the lesser of its limit and what is left. -/
theorem share_eq (hgive : give.val = min cap.val remaining.val) :
    (if cap < remaining then cap else remaining) = give := by
  rw [Cent.ext_iff, hgive]
  split
  next hless => exact (min_eq_left (Cent.lt_iff.mp hless).le).symm
  next hmore => exact (min_eq_right (not_lt.mp hmore)).symm

theorem payOut_of_empty_cap (hremaining : 0 < remaining.val) (hcap : cap.val = 0) :
    payOut ((funder, cap) :: rest) remaining = payOut rest remaining := by
  have hshare : (if cap < remaining then cap else remaining) = cap :=
    share_eq (by rw [min_eq_left (by omega)])
  simp only [payOut, hshare]
  simp [Cent.isPositive, hremaining, hcap]

theorem payOut_of_share (hgive : give.val = min cap.val remaining.val) (hpositive : 0 < give.val)
    (hleft : left.val = remaining.val - give.val) :
    payOut ((funder, cap) :: rest) remaining = do
      let payouts ← payOut rest left
      return ⟨funder, give⟩ :: payouts := by
  have hremaining : 0 < remaining.val := by omega
  have hsub : remaining.checkedSub give = .ok left := Cent.checkedSub_eq_ok_iff.mpr hleft
  simp only [payOut, share_eq hgive, hsub]
  simp [Cent.isPositive, hremaining, hpositive, bind, Except.bind]

theorem exists_share (hcap : 0 ≤ cap.val) (hremaining : 0 ≤ remaining.val) :
    ∃ give left : Cent, give.val = min cap.val remaining.val ∧
      left.val = remaining.val - give.val := by
  obtain ⟨give, hgive⟩ : ∃ give : Cent, give.val = min cap.val remaining.val := by
    rcases le_total cap.val remaining.val with hle | hle
    · exact ⟨cap, (min_eq_left hle).symm⟩
    · exact ⟨remaining, (min_eq_right hle).symm⟩
  have hmax := remaining.le_max
  obtain ⟨left, -, hleft⟩ := Cent.exists_checked_of_abs_le (v := remaining.val - give.val) (by
    rw [abs_of_nonneg] <;> omega)
  exact ⟨give, left, hgive, hleft⟩

/-- Paying out never fails. It pays all that is left, or all that the limits allow. -/
theorem exists_payOut {caps : List (AccountId × Cent)} (hcaps : ∀ cap ∈ caps, 0 ≤ cap.2.val)
    {remaining : Cent} (hremaining : 0 ≤ remaining.val) :
    ∃ payouts, payOut caps remaining = .ok payouts ∧
      (∀ payout ∈ payouts, 0 < payout.give.val) ∧
      (payouts.map (·.give.val)).sum = min remaining.val (capTotal caps) ∧
      ∀ funder, keyTotal FunderPayout.funder FunderPayout.give payouts funder ≤
        keyTotal Prod.fst Prod.snd caps funder := by
  induction caps generalizing remaining with
  | nil => exact ⟨[], rfl, nofun, by simp [capTotal, hremaining], fun _ => le_rfl⟩
  | cons head rest ih =>
      obtain ⟨funder, cap⟩ := head
      obtain ⟨hcap, hrest⟩ := List.forall_mem_cons.mp hcaps
      have htotal := capTotal_nonneg hrest
      have hnonneg : ∀ other, 0 ≤ keyTotal Prod.fst Prod.snd rest other :=
        fun other => keyTotal_nonneg fun cap hcap _ => hrest cap hcap
      simp only at hcap
      rcases hremaining.eq_or_lt with hzero | hpositive
      · refine ⟨[], payOut_of_nothing (by omega), nofun, ?_, fun other => ?_⟩
        · rw [capTotal_cons, ← hzero, min_eq_left (by simp only; omega)]
          rfl
        · exact keyTotal_nonneg fun cap hmem _ => hcaps cap hmem
      · rcases hcap.eq_or_lt with hempty | hsome
        · obtain ⟨payouts, hpayouts, hpos, hsum, hcapped⟩ := ih hrest hremaining
          refine ⟨payouts, ?_, hpos, ?_, fun other => ?_⟩
          · rw [payOut_of_empty_cap hpositive hempty.symm, hpayouts]
          · rw [hsum, capTotal_cons, ← hempty, zero_add]
          · refine (hcapped other).trans ?_
            rw [keyTotal_cons, ← hempty, ite_self, zero_add]
        · obtain ⟨give, left, hgive, hleft⟩ := exists_share hcap hremaining
          have hgives : 0 < give.val := by omega
          obtain ⟨payouts, hpayouts, hpos, hsum, hcapped⟩ := @ih hrest left (by omega)
          refine ⟨⟨funder, give⟩ :: payouts, ?_, ?_, ?_, fun other => ?_⟩
          · rw [payOut_of_share hgive hgives hleft, hpayouts]
            rfl
          · exact List.forall_mem_cons.mpr ⟨hgives, hpos⟩
          · rw [List.map_cons, List.sum_cons, hsum, capTotal_cons]
            simp only
            omega
          · rw [keyTotal_cons, keyTotal_cons]
            have hother := hcapped other
            simp only
            split <;> omega

/-! ## The raised limit -/

theorem liftLast_cons_cons (first second : AccountId × Cent) (rest : List (AccountId × Cent)) :
    liftLast (first :: second :: rest) = first :: liftLast (second :: rest) := by
  rw [liftLast]
  simp

/-- The limits after the last one has been raised. -/
theorem capTotal_liftLast {caps : List (AccountId × Cent)} (hsome : caps ≠ []) :
    capTotal (liftLast caps) = capTotal caps.dropLast + (2 ^ 63 - 1) := by
  induction caps with
  | nil => exact absurd rfl hsome
  | cons head rest ih =>
      cases rest with
      | nil => rfl
      | cons second rest =>
          rw [liftLast_cons_cons, capTotal_cons, ih (List.cons_ne_nil _ _),
            List.dropLast_cons_of_ne_nil (List.cons_ne_nil _ _), capTotal_cons, add_assoc]

theorem nonneg_liftLast {caps : List (AccountId × Cent)} (hcaps : ∀ cap ∈ caps, 0 ≤ cap.2.val) :
    ∀ cap ∈ liftLast caps, 0 ≤ cap.2.val := by
  induction caps with
  | nil => exact hcaps
  | cons head rest ih =>
      obtain ⟨hhead, hrest⟩ := List.forall_mem_cons.mp hcaps
      cases rest with
      | nil =>
          have hmax : 0 ≤ Int64.maxValue.toInt := by decide
          exact List.forall_mem_singleton.mpr hmax
      | cons second rest =>
          rw [liftLast_cons_cons]
          exact List.forall_mem_cons.mpr ⟨hhead, ih hrest⟩

/-- When the funders have funded what is left, the raised limit makes no difference
as long as it is high enough. -/
theorem payOut_liftLast {caps : List (AccountId × Cent)} (hcaps : ∀ cap ∈ caps, 0 ≤ cap.2.val)
    {remaining : Cent} (hremaining : 0 ≤ remaining.val) (hfunded : remaining.val ≤ capTotal caps)
    (hlimit : remaining.val ≤ capTotal (liftLast caps)) :
    payOut (liftLast caps) remaining = payOut caps remaining := by
  induction caps generalizing remaining with
  | nil => rfl
  | cons head rest ih =>
      obtain ⟨funder, cap⟩ := head
      obtain ⟨hcap, hrest⟩ := List.forall_mem_cons.mp hcaps
      simp only at hcap
      rcases hremaining.eq_or_lt with hzero | hpositive
      · rw [payOut_of_nothing (by omega), payOut_of_nothing (by omega)]
      · cases rest with
        | nil =>
            have hleast : (Cent.ofI64 Int64.maxValue).val = 2 ^ 63 - 1 := rfl
            simp only [liftLast, capTotal, List.map_cons, List.map_nil, List.sum_cons, List.sum_nil,
              add_zero, hleast] at hfunded hlimit ⊢
            have hnothing : (Cent.ZERO).val = remaining.val - remaining.val := by simp
            have hlifted : payOut [(funder, Cent.ofI64 Int64.maxValue)] remaining = _ :=
              payOut_of_share (min_eq_right (hleast ▸ hlimit)).symm hpositive hnothing
            rw [hlifted, payOut_of_share (min_eq_right hfunded).symm hpositive hnothing]
        | cons second rest =>
            have htotal := capTotal_nonneg hrest
            have hlifted := capTotal_nonneg (nonneg_liftLast hrest)
            rw [liftLast_cons_cons, capTotal_cons] at hlimit
            rw [capTotal_cons] at hfunded
            rw [liftLast_cons_cons]
            simp only at hfunded hlimit
            rcases hcap.eq_or_lt with hempty | hsome
            · rw [payOut_of_empty_cap hpositive hempty.symm, payOut_of_empty_cap hpositive hempty.symm,
                ih hrest hremaining (by omega) (by omega)]
            · obtain ⟨give, left, hgive, hleft⟩ := exists_share hcap hremaining
              rw [payOut_of_share hgive (by omega) hleft, payOut_of_share hgive (by omega) hleft,
                ih hrest (by omega) (by omega) (by omega)]

/-! ## The split of the remainder -/

/-- The funders of some legs and their limits. -/
def capsOf (legs : List InflightLeg) : List (AccountId × Cent) :=
  legs.map fun leg => (leg.funder, leg.amount)

theorem capTotal_capsOf (legs : List InflightLeg) : capTotal (capsOf legs) = totalFunded legs := by
  rw [capTotal, capsOf, List.map_map, totalFunded]
  rfl

theorem capTotal_liftLast_capsOf {legs : List InflightLeg} (hsome : legs ≠ []) :
    capTotal (liftLast (capsOf legs)) = totalFunded legs.dropLast + (2 ^ 63 - 1) := by
  rw [capTotal_liftLast (by simpa [capsOf] using hsome), capsOf, ← List.map_dropLast, ← capsOf,
    capTotal_capsOf]

/-- The funders get back all that is left of what they have funded, each at most its
own part, exactly when the share of the last leg fits an `i64`. -/
theorem splitsFully_iff {legs : List InflightLeg} {hold : AccountId} {asset : AssetId}
    {remaining : Cent} (hamounts : ∀ leg ∈ legs, 0 ≤ leg.amount.val)
    (hsome : ∃ leg ∈ legs, leg.hold = hold ∧ leg.asset = asset) (hremaining : 0 ≤ remaining.val)
    (hfunded : remaining.val ≤ totalFunded (fundingLegs legs hold asset)) :
    (∃ payouts, distributeToFunders legs hold asset remaining = .ok payouts ∧
        SplitsFully (fundingLegs legs hold asset) remaining payouts) ↔
      remaining.val ≤ totalFunded (fundingLegs legs hold asset).dropLast + (2 ^ 63 - 1) := by
  have hdistribute : distributeToFunders legs hold asset remaining =
      payOut (liftLast (capsOf (fundingLegs legs hold asset))) remaining := rfl
  have hcaps : ∀ cap ∈ capsOf (fundingLegs legs hold asset), 0 ≤ cap.2.val := by
    intro cap hcap
    obtain ⟨leg, hleg, rfl⟩ := List.mem_map.mp hcap
    exact hamounts leg (List.mem_filter.mp hleg).1
  have hnonempty : fundingLegs legs hold asset ≠ [] := by
    obtain ⟨leg, hleg, hmatch⟩ := hsome
    exact List.ne_nil_of_mem (List.mem_filter.mpr ⟨hleg, decide_eq_true hmatch⟩)
  rw [hdistribute, ← capTotal_liftLast_capsOf hnonempty]
  constructor
  · rintro ⟨payouts, hpayouts, hsplits⟩
    obtain ⟨paid, hpaid, -, hsum, -⟩ := exists_payOut (nonneg_liftLast hcaps) hremaining
    cases hpayouts.symm.trans hpaid
    rw [← hsplits.complete, hsum]
    exact min_le_right _ _
  · intro hlimit
    rw [← capTotal_capsOf] at hfunded
    obtain ⟨payouts, hpayouts, hpositive, hsum, hcapped⟩ := exists_payOut hcaps hremaining
    rw [payOut_liftLast hcaps hremaining hfunded hlimit]
    refine ⟨payouts, hpayouts, hpositive, hsum.trans (min_eq_left hfunded), fun funder => ?_⟩
    have hfunder := hcapped funder
    rwa [capsOf, keyTotal_map] at hfunder

end Theory

/-- Two funders, the first of them twice, get back 20 of 25. -/
theorem splitsFully_three_legs :
    letI : MoneyWidth := ⟨.i64⟩
    let leg := fun (funder : Int64) (amount : Int64) =>
      (⟨⟨9, 0⟩, ⟨9, 1⟩, ⟨funder, 0⟩, ⟨1⟩, .ofI64 amount⟩ : InflightLeg)
    let legs := [leg 1 10, leg 2 5, leg 1 10]
    ∃ payouts, distributeToFunders legs ⟨9, 1⟩ ⟨1⟩ (.ofI64 20) = .ok payouts ∧
      payouts.map (·.give.val) = [10, 5, 5] ∧
      SplitsFully (fundingLegs legs ⟨9, 1⟩ ⟨1⟩) (.ofI64 20) payouts := by
  intro leg legs
  have hgiven : letI : MoneyWidth := ⟨.i64⟩
      ((distributeToFunders legs ⟨9, 1⟩ ⟨1⟩ (.ofI64 20)).map (·.map (·.give.val))).toOption
        = some [10, 5, 5] := by
    decide +kernel
  have hiff := @splitsFully_iff ⟨.i64⟩ legs ⟨9, 1⟩ ⟨1⟩ (@Cent.ofI64 ⟨.i64⟩ 20) (by decide)
    (by decide) (by decide) (by decide)
  obtain ⟨payouts, hpayouts, hsplits⟩ := hiff.mpr (by decide)
  rw [hpayouts] at hgiven
  exact ⟨payouts, hpayouts, Option.some.inj hgiven, hsplits⟩

/-- With the wide backing, a hold of `2 ^ 63` is not paid back to its only funder in full. -/
theorem split_falls_short :
    letI : MoneyWidth := ⟨.i128⟩
    let amount : Cent := ⟨2 ^ 63, by decide, by decide⟩
    let legs := [(⟨⟨9, 0⟩, ⟨9, 1⟩, ⟨1, 0⟩, ⟨1⟩, amount⟩ : InflightLeg)]
    (distributeToFunders legs ⟨9, 1⟩ ⟨1⟩ amount).map (·.map (·.give.val)) = .ok [2 ^ 63 - 1] ∧
      [2 ^ 63 - 1].sum < amount.val := by
  decide

end Kuatia
