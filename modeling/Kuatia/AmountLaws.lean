import Kuatia.Amount
import Mathlib.Tactic.Positivity

/-! # Reading and writing amounts

Reading takes a text apart at the minus sign and at the point, and puts the value
together with checked arithmetic. A written amount is read back unless it is the
least one or the scale is out of range. The integer parser takes a sign of its
own, so a text may have two.
-/

namespace Kuatia

section Theory

variable [MoneyWidth]

open MoneyWidth (backing)

/-! ## The parts of a text -/

omit [MoneyWidth] in
theorem trim_of_forall {text : List Char} (htext : ∀ c ∈ text, isWhitespace c = false) :
    trim text = text := by
  have hfirst : text.dropWhile isWhitespace = text := by
    rw [List.dropWhile_eq_self_iff]
    intro hlength
    simp [htext _ (List.getElem_mem _)]
  rw [trim, hfirst, List.rdropWhile_eq_self_iff]
  intro hnonempty
  simp [htext _ (List.getLast_mem hnonempty)]

omit [MoneyWidth] in
theorem stripMinus_eq_iff {text body : List Char} {negative : Bool} :
    stripMinus text = (negative, body) ↔
      text = (if negative then '-' :: body else body) ∧
        (negative = false → body.head? ≠ some '-') := by
  unfold stripMinus
  split
  next rest =>
    cases negative with
    | false =>
        simp only [Prod.mk.injEq, Bool.true_eq_false, false_and, Bool.false_eq_true, if_false,
          forall_const, false_iff, not_and, not_not]
        rintro rfl
        rfl
    | true => simp
  next hother =>
    cases negative with
    | false =>
        simp only [Prod.mk.injEq, true_and, Bool.false_eq_true, if_false, forall_const]
        constructor
        · rintro rfl
          refine ⟨rfl, fun hhead => ?_⟩
          obtain ⟨rest, rfl⟩ := List.head?_eq_some_iff.mp hhead
          exact hother rest rfl
        · exact fun hboth => hboth.1
    | true =>
        simp only [Prod.mk.injEq, Bool.false_eq_true, false_and, if_true, Bool.true_eq_false,
          false_implies, and_true, false_iff]
        exact hother body

omit [MoneyWidth] in
theorem splitPoint_eq_iff {text whole frac : List Char} :
    splitPoint text = (whole, frac) ↔
      '.' ∉ whole ∧ (text = whole ∧ frac = [] ∨ text = whole ++ '.' :: frac) := by
  induction text generalizing whole with
  | nil =>
      cases whole with
      | nil => simp [splitPoint, eq_comm]
      | cons => simp [splitPoint]
  | cons c text ih =>
      by_cases hpoint : c = '.'
      · subst hpoint
        cases whole with
        | nil => simp [splitPoint, eq_comm]
        | cons first whole =>
            simp only [splitPoint, List.takeWhile_cons, bne_self_eq_false, Bool.false_eq_true,
              if_false, Prod.mk.injEq, reduceCtorEq, false_and, List.mem_cons, not_or,
              List.cons_append, List.cons.injEq, false_iff, not_and]
            rintro ⟨hfirst, -⟩
            exact ⟨fun heq => absurd heq.1 hfirst, fun heq => absurd heq hfirst⟩
      · have hkept : (c != '.') = true := by simpa using hpoint
        cases whole with
        | nil => simp [splitPoint, hkept, hpoint]
        | cons first whole =>
            have hrest := @ih whole
            simp only [splitPoint, Prod.mk.injEq] at hrest
            simp only [splitPoint, List.takeWhile_cons, List.dropWhile_cons, hkept, if_true,
              Prod.mk.injEq, List.cons.injEq, List.mem_cons, not_or, List.cons_append]
            constructor
            · rintro ⟨⟨rfl, hwhole⟩, hfrac⟩
              obtain ⟨hnone, hparts⟩ := hrest.mp ⟨hwhole, hfrac⟩
              refine ⟨⟨Ne.symm hpoint, hnone⟩, ?_⟩
              rcases hparts with ⟨htext, hempty⟩ | htext
              · exact .inl ⟨⟨rfl, htext⟩, hempty⟩
              · exact .inr ⟨rfl, htext⟩
            · rintro ⟨⟨-, hnone⟩, ⟨⟨rfl, htext⟩, hempty⟩ | ⟨rfl, htext⟩⟩
              · obtain ⟨hwhole, hfrac⟩ := hrest.mpr ⟨hnone, .inl ⟨htext, hempty⟩⟩
                exact ⟨⟨rfl, hwhole⟩, hfrac⟩
              · obtain ⟨hwhole, hfrac⟩ := hrest.mpr ⟨hnone, .inr htext⟩
                exact ⟨⟨rfl, hwhole⟩, hfrac⟩

/-! ## The numbers of the parts -/

omit [MoneyWidth] in
/-- The number of a fraction, in units of the last of `decimals` places. -/
def fracNumber (decimals : Nat) (frac : List Char) : Nat :=
  Nat.ofDigitChars 10 frac 0 * 10 ^ (decimals - frac.length)

/-- The number of the part before the point; nothing counts as zero. -/
def wholeNumber (whole : List Char) : Option Int :=
  if whole.isEmpty then some 0 else Decimal.readInt whole

def signed (negative : Bool) (value : Int) : Int := if negative then -value else value

theorem Cent.toOption_checked_eq_some_iff {v : Int} {a : Cent} :
    (Cent.checked v).toOption = some a ↔ a.val = v := by
  rw [← Cent.checked_eq_ok_iff]
  cases Cent.checked v <;> simp [Except.toOption]

theorem CentBacking.parseStr_eq_some_iff {text : List Char} {a : Cent} :
    CentBacking.parseStr text = some a ↔ Decimal.readInt text = some a.val := by
  simp only [CentBacking.parseStr, Option.bind_eq_some_iff, Cent.toOption_checked_eq_some_iff]
  exact ⟨fun ⟨_, hread, hval⟩ => hval ▸ hread, fun hread => ⟨_, hread, rfl⟩⟩

theorem CentBacking.tenPow_eq_some_iff {exp : Nat} {a : Cent} :
    CentBacking.tenPow exp = some a ↔ a.val = 10 ^ exp :=
  Cent.toOption_checked_eq_some_iff

theorem holds_of_nonneg {v : Int} (hnonneg : 0 ≤ v) (hle : v ≤ Backing.max backing) :
    Cent.Holds v :=
  ⟨(Cent.zero_fits backing).1.trans hnonneg, hle⟩

theorem exists_of_holds {v : Int} (hholds : Cent.Holds v) : ∃ a : Cent, a.val = v :=
  ⟨⟨v, hholds.1, hholds.2⟩, rfl⟩

/-! ## What is read -/

omit [MoneyWidth] in
/-- The digits of a fraction, filled up to the places of the format. -/
theorem readInt_padRight {decimals : Nat} {frac : List Char} (hnonempty : frac ≠ [])
    (hdigits : ∀ c ∈ frac, c.isDigit = true) :
    Decimal.readInt (padRight decimals frac) = some (fracNumber decimals frac : Int) := by
  obtain ⟨first, rest, rfl⟩ := List.exists_cons_of_ne_nil hnonempty
  have hfirst := hdigits first List.mem_cons_self
  have hread : Decimal.readNat (padRight decimals (first :: rest)) =
      some (fracNumber decimals (first :: rest)) := by
    rw [Decimal.readNat_eq_some_iff, padRight, Nat.ofDigitChars_append,
      Nat.ofDigitChars_replicate_zero, fracNumber, Nat.mul_comm]
    refine ⟨List.append_ne_nil_of_left_ne_nil hnonempty _, ?_, rfl⟩
    intro c hc
    rcases List.mem_append.mp hc with hc | hc
    · exact hdigits c hc
    · rw [List.eq_of_mem_replicate hc]
      rfl
  rw [Decimal.readInt_of_unsigned, hread]
  · rfl
  · rw [padRight, List.cons_append, List.head?_cons, ne_eq, Option.some.injEq]
    rintro rfl
    exact absurd hfirst (by decide)
  · rw [padRight, List.cons_append, List.head?_cons, ne_eq, Option.some.injEq]
    rintro rfl
    exact absurd hfirst (by decide)

omit [MoneyWidth] in
theorem Amount.okOr_eq_ok_iff {α : Type} {value : Option α} {error : ParseAmountError} {a : α} :
    okOr value error = .ok a ↔ value = some a := by
  cases value <;> simp [okOr]

theorem parseWhole_eq_ok_iff {whole : List Char} {error : ParseAmountError} {a : Cent} :
    Amount.parseWhole whole error = .ok a ↔ wholeNumber whole = some a.val := by
  unfold Amount.parseWhole wholeNumber
  split
  next => rw [Except.ok.injEq, Option.some.injEq, Cent.ext_iff, Cent.val_ZERO]
  next => rw [Amount.okOr_eq_ok_iff, CentBacking.parseStr_eq_some_iff]

theorem parseFrac_eq_ok_iff {amount : Amount} {frac : List Char} {error : ParseAmountError}
    {a : Cent} (hdigits : ∀ c ∈ frac, c.isDigit = true) :
    amount.parseFrac frac error = .ok a ↔ a.val = fracNumber amount.decimals.toNat frac := by
  unfold Amount.parseFrac
  split
  next hempty =>
    rw [List.isEmpty_iff] at hempty
    simp [hempty, fracNumber, Cent.ext_iff, eq_comm]
  next hsome =>
    rw [Amount.okOr_eq_ok_iff, CentBacking.parseStr_eq_some_iff,
      readInt_padRight (by simpa using hsome) hdigits, Option.some.injEq, eq_comm]

omit [MoneyWidth] in
theorem ofDigitChars_lt {digits : List Char} (hdigits : ∀ c ∈ digits, c.isDigit = true) :
    Nat.ofDigitChars 10 digits 0 < 10 ^ digits.length := by
  induction digits using List.reverseRecOn with
  | nil => simp
  | append_singleton digits last ih =>
      have hlast := (isDigit_iff last).mp (hdigits last (by simp))
      have hearlier := ih fun c hc => hdigits c (List.mem_append_left _ hc)
      have hzero : '0'.toNat = 48 := rfl
      rw [Nat.ofDigitChars_append, Nat.ofDigitChars_cons, Nat.ofDigitChars_nil, List.length_append,
        List.length_singleton, Nat.pow_succ]
      omega

omit [MoneyWidth] in
/-- A fraction is less than one. -/
theorem fracNumber_lt {decimals : Nat} {frac : List Char}
    (hdigits : ∀ c ∈ frac, c.isDigit = true) (hlength : frac.length ≤ decimals) :
    fracNumber decimals frac < 10 ^ decimals := by
  have hlt := ofDigitChars_lt hdigits
  calc fracNumber decimals frac < 10 ^ frac.length * 10 ^ (decimals - frac.length) :=
        Nat.mul_lt_mul_of_pos_right hlt (Nat.pow_pos (by decide))
    _ = 10 ^ decimals := by rw [← Nat.pow_add, Nat.add_sub_cancel' hlength]

theorem applySign_eq_ok_iff {negative : Bool} {value v : Cent} {error : ParseAmountError} :
    (if negative then value.checkedNeg.mapError fun _ => error else .ok value) = .ok v ↔
      v.val = signed negative value.val := by
  cases negative with
  | false =>
      rw [if_neg Bool.false_ne_true, Except.ok.injEq, signed, if_neg Bool.false_ne_true,
        Cent.ext_iff, eq_comm]
  | true => simp [signed]

/-- A text is read when its parts are right and every number on the way is held. -/
theorem parse_eq_ok_iff {amount : Amount} {s : String} {v : Cent} {negative : Bool}
    {body whole frac : List Char} (hstrip : stripMinus (trim s.toList) = (negative, body))
    (hsplit : splitPoint body = (whole, frac)) :
    amount.parse s = .ok v ↔
      (whole ≠ [] ∨ frac ≠ []) ∧ (∀ c ∈ frac, c.isDigit = true) ∧
      frac.length ≤ amount.decimals.toNat ∧ 10 ^ amount.decimals.toNat ≤ Backing.max backing ∧
      ∃ number, wholeNumber whole = some number ∧ Cent.Holds number ∧
        Cent.Holds (number * 10 ^ amount.decimals.toNat) ∧
        Cent.Holds (number * 10 ^ amount.decimals.toNat + fracNumber amount.decimals.toNat frac) ∧
        v.val = signed negative
          (number * 10 ^ amount.decimals.toNat + fracNumber amount.decimals.toNat frac) := by
  unfold Amount.parse
  simp only [hstrip, hsplit]
  by_cases hempty : (whole.isEmpty && frac.isEmpty) = true
  · rw [if_pos hempty]
    simp only [Bool.and_eq_true, List.isEmpty_iff] at hempty
    simp [hempty]
  · rw [if_neg hempty]
    have hparts : whole ≠ [] ∨ frac ≠ [] := by
      simpa [List.isEmpty_iff, imp_iff_not_or] using hempty
    simp only [Except.bind_eq_ok_iff, parseWhole_eq_ok_iff, hparts, true_and]
    constructor
    · rintro ⟨number, hwhole, hrest⟩
      split at hrest
      next => cases hrest
      next hfits =>
        split at hrest
        next => cases hrest
        next hguard =>
          have hall : frac.all Char.isDigit = true := by
            cases frac with
            | nil => rfl
            | cons => simpa using hguard
          have hdigits := List.all_eq_true.mp hall
          -- the length is checked in bytes, which for digits is the number of characters
          rw [byteLength_of_forall fun c hc => utf8Size_of_isDigit (hdigits c hc)] at hfits
          obtain ⟨fraction, hfrac, hrest⟩ := Except.bind_eq_ok_iff.mp hrest
          obtain ⟨multiplier, hmultiplier, hrest⟩ := Except.bind_eq_ok_iff.mp hrest
          obtain ⟨scaled, hscaled, hrest⟩ := Except.bind_eq_ok_iff.mp hrest
          obtain ⟨value, hvalue, hsign⟩ := Except.bind_eq_ok_iff.mp hrest
          have hfracVal := (parseFrac_eq_ok_iff hdigits).mp hfrac
          have hscale := CentBacking.tenPow_eq_some_iff.mp (Amount.okOr_eq_ok_iff.mp hmultiplier)
          have hscaledVal := Cent.checked_eq_ok_iff.mp (Except.mapError_eq_ok_iff.mp hscaled)
          have hvalueVal := Cent.checked_eq_ok_iff.mp (Except.mapError_eq_ok_iff.mp hvalue)
          rw [hscale] at hscaledVal
          rw [hscaledVal, hfracVal] at hvalueVal
          refine ⟨hdigits, Nat.le_of_not_lt hfits, hscale ▸ multiplier.le_max, number.val, hwhole,
            Cent.holds_of_val number, hscaledVal ▸ Cent.holds_of_val scaled,
            hvalueVal ▸ Cent.holds_of_val value, ?_⟩
          rw [← hvalueVal, applySign_eq_ok_iff.mp hsign]
    · rintro ⟨hdigits, hlength, hscale, number, hwhole, hnumber, hscaled, hvalue, hval⟩
      have hall : frac.all Char.isDigit = true := List.all_eq_true.mpr hdigits
      have hbytes := byteLength_of_forall fun c hc => utf8Size_of_isDigit (hdigits c hc)
      have hpositive : (0 : Int) < 10 ^ amount.decimals.toNat := Int.pow_pos (by decide)
      have hlt := fracNumber_lt hdigits hlength
      obtain ⟨number, rfl⟩ := exists_of_holds hnumber
      obtain ⟨multiplier, hmultiplier⟩ := exists_of_holds (holds_of_nonneg hpositive.le hscale)
      obtain ⟨scaled, hscaled⟩ := exists_of_holds hscaled
      obtain ⟨value, hvalue⟩ := exists_of_holds hvalue
      obtain ⟨fraction, hfraction⟩ : ∃ fraction : Cent,
          fraction.val = fracNumber amount.decimals.toNat frac := by
        -- the fraction is less than the scale, which is a `Cent`
        apply exists_of_holds (holds_of_nonneg (Int.natCast_nonneg _) _)
        have hltInt : (fracNumber amount.decimals.toNat frac : Int) < 10 ^ amount.decimals.toNat := by
          exact_mod_cast hlt
        exact hltInt.le.trans hscale
      refine ⟨number, hwhole, ?_⟩
      rw [hbytes, if_neg (Nat.not_lt.mpr hlength), hall, Bool.not_true, Bool.and_false,
        if_neg Bool.false_ne_true]
      simp only [Except.bind_eq_ok_iff, parseFrac_eq_ok_iff hdigits, Amount.okOr_eq_ok_iff,
        CentBacking.tenPow_eq_some_iff, Except.mapError_eq_ok_iff, applySign_eq_ok_iff]
      refine ⟨fraction, hfraction, multiplier, hmultiplier, scaled, ?_, value, ?_, ?_⟩
      · exact Cent.checked_eq_ok_iff.mpr (by rw [hscaled, hmultiplier])
      · exact Cent.checked_eq_ok_iff.mpr (by rw [hvalue, hscaled, hfraction])
      · rw [hval, hvalue]

/-! ## What is written -/

omit [MoneyWidth] in
theorem isDigit_of_mem_padLeft {width value : Nat} {c : Char}
    (hc : c ∈ padLeft width (Nat.toDigits 10 value)) : c.isDigit = true := by
  rcases List.mem_append.mp hc with hc | hc
  · rw [List.eq_of_mem_replicate hc]
    rfl
  · exact Nat.isDigit_of_mem_toDigits (by decide) (by decide) hc

omit [MoneyWidth] in
theorem length_padLeft {width value : Nat} (hwidth : 0 < width) (hvalue : value < 10 ^ width) :
    (padLeft width (Nat.toDigits 10 value)).length = width := by
  have hlength := (Nat.length_toDigits_le_iff (b := 10) (by decide) hwidth).mpr hvalue
  rw [padLeft, List.length_append, List.length_replicate]
  omega

omit [MoneyWidth] in
theorem fracNumber_padLeft {decimals value : Nat} (hdecimals : 0 < decimals)
    (hvalue : value < 10 ^ decimals) :
    fracNumber decimals (padLeft decimals (Nat.toDigits 10 value)) = value := by
  rw [fracNumber, length_padLeft hdecimals hvalue, Nat.sub_self, Nat.pow_zero, Nat.mul_one, padLeft,
    Nat.ofDigitChars_append, Nat.ofDigitChars_replicate_zero, Nat.mul_zero,
    Nat.ofDigitChars_ten_toDigits]

/-- The text behind the sign of an amount. -/
def formatBody (decimals value : Nat) : List Char :=
  if decimals = 0 then Nat.toDigits 10 value
  else Nat.toDigits 10 (value / 10 ^ decimals) ++
    '.' :: padLeft decimals (Nat.toDigits 10 (value % 10 ^ decimals))

/-- The text of an amount, when the scale is in range. -/
theorem toList_format {amount : Amount} (cent : Cent)
    (hscale : 10 ^ amount.decimals.toNat ≤ Backing.max backing) :
    (amount.format cent).toList =
      if cent.val < 0 then '-' :: formatBody amount.decimals.toNat cent.val.natAbs
      else formatBody amount.decimals.toNat cent.val.natAbs := by
  have hzero : amount.decimals = 0 ↔ amount.decimals.toNat = 0 := UInt8.toNat_inj.symm
  rw [Amount.format, formatBody]
  by_cases hdecimals : amount.decimals = 0
  · rw [if_pos hdecimals, if_pos (hzero.mp hdecimals), Cent.toText, Decimal.toList_toString]
  · have hpositive : (0 : Int) < 10 ^ amount.decimals.toNat := Int.pow_pos (by decide)
    obtain ⟨multiplier, hval⟩ := exists_of_holds (holds_of_nonneg hpositive.le hscale)
    have habs : multiplier.val.natAbs = 10 ^ amount.decimals.toNat := by
      rw [hval, Int.natAbs_pow]
      rfl
    rw [if_neg hdecimals, if_neg (mt hzero.mpr hdecimals),
      CentBacking.tenPow_eq_some_iff.mpr hval]
    simp only [CentBacking.divRemAbs, habs, String.toList_ofList]
    have hdigits : ∀ number : Nat, (toString number).toList = Nat.toDigits 10 number :=
      fun _ => Nat.toList_repr
    rw [hdigits, hdigits, Cent.isNegative]
    by_cases hnegative : cent.val < 0 <;> simp [hnegative]

omit [MoneyWidth] in
/-- The parts of a written amount. -/
theorem splitPoint_formatBody (decimals value : Nat) :
    ∃ frac, splitPoint (formatBody decimals value) =
        (Nat.toDigits 10 (value / 10 ^ decimals), frac) ∧
      (∀ c ∈ frac, c.isDigit = true) ∧ frac.length ≤ decimals ∧
      fracNumber decimals frac = value % 10 ^ decimals := by
  have hnone : ∀ number, '.' ∉ Nat.toDigits 10 number := fun number hpoint =>
    absurd (Nat.isDigit_of_mem_toDigits (by decide) (by decide) hpoint) (by decide)
  unfold formatBody
  split
  next hzero =>
    subst hzero
    refine ⟨[], splitPoint_eq_iff.mpr ⟨hnone _, .inl ⟨?_, rfl⟩⟩, nofun, Nat.le_refl _, ?_⟩
    · rw [Nat.pow_zero, Nat.div_one]
    · rw [Nat.pow_zero, Nat.mod_one]
      rfl
  next hsome =>
    have hpos := Nat.pos_of_ne_zero hsome
    have hlt : value % 10 ^ decimals < 10 ^ decimals := Nat.mod_lt _ (Nat.pow_pos (by decide))
    refine ⟨_, splitPoint_eq_iff.mpr ⟨hnone _, .inr rfl⟩, fun c => isDigit_of_mem_padLeft,
      (length_padLeft hpos hlt).le, fracNumber_padLeft hpos hlt⟩

omit [MoneyWidth] in
theorem mem_formatBody {decimals value : Nat} {c : Char} (hc : c ∈ formatBody decimals value) :
    c = '.' ∨ c.isDigit = true := by
  unfold formatBody at hc
  split at hc
  next => exact .inr (Nat.isDigit_of_mem_toDigits (by decide) (by decide) hc)
  next =>
    rcases List.mem_append.mp hc with hc | hc
    · exact .inr (Nat.isDigit_of_mem_toDigits (by decide) (by decide) hc)
    · exact (List.mem_cons.mp hc).imp_right isDigit_of_mem_padLeft

omit [MoneyWidth] in
theorem head?_formatBody (decimals value : Nat) : (formatBody decimals value).head? ≠ some '-' := by
  intro hhead
  rcases mem_formatBody (List.mem_of_head? hhead) with hpoint | hdigit
  · exact absurd hpoint (by decide)
  · exact absurd hdigit (by decide)

omit [MoneyWidth] in
theorem isWhitespace_of_isDigit {c : Char} (hdigit : c.isDigit = true) : isWhitespace c = false := by
  have hrange := (isDigit_iff c).mp hdigit
  simp only [isWhitespace, Bool.or_eq_false_iff, Bool.and_eq_false_iff, decide_eq_false_iff_not,
    beq_eq_false_iff_ne]
  omega

/-- A written amount has no whitespace around it. -/
theorem trim_format {amount : Amount} (cent : Cent)
    (hscale : 10 ^ amount.decimals.toNat ≤ Backing.max backing) :
    trim (amount.format cent).toList = (amount.format cent).toList := by
  have hbody : ∀ c ∈ formatBody amount.decimals.toNat cent.val.natAbs, isWhitespace c = false := by
    intro c hc
    rcases mem_formatBody hc with rfl | hdigit
    · rfl
    · exact isWhitespace_of_isDigit hdigit
  apply trim_of_forall
  rw [toList_format cent hscale]
  split
  · exact List.forall_mem_cons.mpr ⟨rfl, hbody⟩
  · exact hbody

/-- What is written is read back exactly when the amount has a negative in the
backing integer and the scale is in its range. -/
theorem parse_format_iff (amount : Amount) (cent : Cent) :
    amount.parse (amount.format cent) = .ok cent ↔
      cent.val ≠ Backing.min backing ∧ 10 ^ amount.decimals.toNat ≤ Backing.max backing := by
  by_cases hscale : (10 : Int) ^ amount.decimals.toNat ≤ Backing.max backing
  · have hstrip : stripMinus (trim (amount.format cent).toList) =
        (decide (cent.val < 0), formatBody amount.decimals.toNat cent.val.natAbs) := by
      rw [trim_format cent hscale, stripMinus_eq_iff, toList_format cent hscale]
      simp only [decide_eq_true_eq, head?_formatBody, ne_eq, not_false_eq_true, implies_true,
        and_true]
    obtain ⟨frac, hsplit, hdigits, hlength, hfrac⟩ :=
      splitPoint_formatBody amount.decimals.toNat cent.val.natAbs
    have hwhole : ∀ number, wholeNumber (Nat.toDigits 10 number) = some (number : Int) := by
      intro number
      rw [wholeNumber, if_neg (by simp), Decimal.readInt_toDigits]
    -- the parts are put together to the absolute value
    have hsum : ((cent.val.natAbs / 10 ^ amount.decimals.toNat : Nat) : Int) *
        10 ^ amount.decimals.toNat + (cent.val.natAbs % 10 ^ amount.decimals.toNat : Nat) =
        cent.val.natAbs := by
      exact_mod_cast Nat.div_add_mod' cent.val.natAbs (10 ^ amount.decimals.toNat)
    have hmin := Backing.min_eq backing
    have hbounds := Cent.holds_of_val cent
    rw [parse_eq_ok_iff hstrip hsplit, hfrac]
    constructor
    · rintro ⟨-, -, -, -, number, hnumber, -, -, hholds, -⟩
      rw [hwhole, Option.some.injEq] at hnumber
      rw [← hnumber, hsum] at hholds
      have hle := hholds.2
      exact ⟨by omega, hscale⟩
    · rintro ⟨hnotMin, -⟩
      have hquotient : ((cent.val.natAbs / 10 ^ amount.decimals.toNat : Nat) : Int) ≤
          cent.val.natAbs := by
        exact_mod_cast Nat.div_le_self _ _
      have hscaled : ((cent.val.natAbs / 10 ^ amount.decimals.toNat : Nat) : Int) *
          10 ^ amount.decimals.toNat ≤ cent.val.natAbs := by
        exact_mod_cast Nat.div_mul_le_self _ _
      have hmax : (cent.val.natAbs : Int) ≤ Backing.max backing := by
        have hlower := hbounds.1
        have hupper := hbounds.2
        omega
      refine ⟨.inl (by simp), hdigits, hlength, hscale, _, hwhole _,
        holds_of_nonneg (Int.natCast_nonneg _) (hquotient.trans hmax),
        holds_of_nonneg (by positivity) (hscaled.trans hmax), ?_, ?_⟩
      · rw [hsum]
        exact holds_of_nonneg (Int.natCast_nonneg _) hmax
      · rw [hsum, signed]
        split
        next hnegative =>
          rw [decide_eq_true_eq] at hnegative
          omega
        next hnonneg =>
          rw [decide_eq_true_eq] at hnonneg
          omega
  · refine iff_of_false (fun hread => ?_) fun hboth => hscale hboth.2
    exact hscale ((parse_eq_ok_iff rfl rfl).mp hread).2.2.2.1

end Theory

/-- The least amount with two decimals, and an amount with more decimals than the
backing integer has. -/
theorem parse_format_fails :
    letI : MoneyWidth := ⟨.i64⟩
    ((⟨2⟩ : Amount).parse ((⟨2⟩ : Amount).format (.ofI64 Int64.minValue)) =
        .error (.invalidFormat "92233720368547758.08")) ∧
      (⟨19⟩ : Amount).parse ((⟨19⟩ : Amount).format (.ofI64 5)) = .error (.invalidFormat "5") := by
  decide +kernel

end Kuatia
