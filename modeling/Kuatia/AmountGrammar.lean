import Kuatia.AmountLaws

/-! # The grammar of amounts

An amount is an optional minus sign, digits, and behind a point no more digits than
the format has decimals. The reader takes exactly these texts, and some with two
signs: the integer parser that reads the part in front of the point takes a sign
of its own.
-/

namespace Kuatia

section Theory

variable [MoneyWidth]

open MoneyWidth (backing)

/-- An optional minus sign, what is in front of the point, and what is behind it;
without a point nothing is behind it. -/
def HasParts (text : List Char) (negative : Bool) (whole frac : List Char) : Prop :=
  ∃ body, text = (if negative then '-' :: body else body) ∧
    (body = whole ∧ frac = [] ∨ body = whole ++ '.' :: frac)

def AllDigits (text : List Char) : Prop := ∀ c ∈ text, c.isDigit = true

/-- `s` is in the grammar, and `value` is its number in units of the last place. -/
def Denotes (s : String) (decimals : Nat) (value : Int) : Prop :=
  ∃ negative whole frac, HasParts (trim s.toList) negative whole frac ∧
    AllDigits whole ∧ AllDigits frac ∧ frac.length ≤ decimals ∧ (whole ≠ [] ∨ frac ≠ []) ∧
    value = signed negative (Nat.ofDigitChars 10 whole 0 * 10 ^ decimals + fracNumber decimals frac)

/-- `s` has a sign, after the minus sign if there is one, that the integer parser
takes, and every number on the way is held. -/
def SecondSign (s : String) (decimals : Nat) : Prop :=
  ∃ negative minus whole frac,
    HasParts (trim s.toList) negative ((if minus then '-' else '+') :: whole) frac ∧
    (minus = true → negative = true) ∧
    AllDigits whole ∧ whole ≠ [] ∧ AllDigits frac ∧ frac.length ≤ decimals ∧
    ∃ number, number = signed minus (Nat.ofDigitChars 10 whole 0) ∧
      Cent.Holds number ∧ Cent.Holds (number * 10 ^ decimals) ∧
      Cent.Holds (number * 10 ^ decimals + fracNumber decimals frac) ∧
      Cent.Holds (signed negative (number * 10 ^ decimals + fracNumber decimals frac))

/-! ## Taking a text apart -/

omit [MoneyWidth] in
/-- The parts of a text are what the reader takes it apart into. -/
theorem exists_split_of_hasParts {text whole frac : List Char} {negative : Bool}
    (hparts : HasParts text negative whole frac) (hpoint : '.' ∉ whole)
    (hhead : negative = false → whole.head? ≠ some '-') :
    ∃ body, stripMinus text = (negative, body) ∧ splitPoint body = (whole, frac) := by
  obtain ⟨body, htext, hbody⟩ := hparts
  refine ⟨body, stripMinus_eq_iff.mpr ⟨htext, fun hnegative => ?_⟩,
    splitPoint_eq_iff.mpr ⟨hpoint, hbody⟩⟩
  rcases hbody with ⟨rfl, -⟩ | rfl
  · exact hhead hnegative
  · cases whole with
    | nil => simp
    | cons => exact hhead hnegative

omit [MoneyWidth] in
theorem hasParts_of_split {text body whole frac : List Char} {negative : Bool}
    (hstrip : stripMinus text = (negative, body)) (hsplit : splitPoint body = (whole, frac)) :
    HasParts text negative whole frac :=
  ⟨body, (stripMinus_eq_iff.mp hstrip).1, (splitPoint_eq_iff.mp hsplit).2⟩

omit [MoneyWidth] in
theorem AllDigits.not_mem {text : List Char} (htext : AllDigits text) {c : Char}
    (hc : c.isDigit = false) : c ∉ text := fun hmem =>
  Bool.false_ne_true (hc.symm.trans (htext c hmem))

omit [MoneyWidth] in
theorem AllDigits.head?_ne {text : List Char} (htext : AllDigits text) {c : Char}
    (hc : c.isDigit = false) : text.head? ≠ some c := fun hhead =>
  htext.not_mem hc (List.mem_of_head? hhead)

omit [MoneyWidth] in
theorem wholeNumber_of_digits {whole : List Char} (hwhole : AllDigits whole) :
    wholeNumber whole = some (Nat.ofDigitChars 10 whole 0 : Int) := by
  rw [wholeNumber]
  split
  next hempty =>
    rw [List.isEmpty_iff] at hempty
    rw [hempty]
    rfl
  next hsome =>
    rw [Decimal.readInt_of_unsigned (hwhole.head?_ne rfl) (hwhole.head?_ne rfl),
      Decimal.readNat_eq_some_iff.mpr ⟨by simpa using hsome, hwhole, rfl⟩]
    rfl

omit [MoneyWidth] in
/-- What the integer parser takes: digits, or digits behind a sign. -/
theorem wholeNumber_eq_some {whole : List Char} {number : Int}
    (hnumber : wholeNumber whole = some number) :
    AllDigits whole ∧ number = Nat.ofDigitChars 10 whole 0 ∨
      ∃ (minus : Bool) (digits : List Char), whole = (if minus then '-' else '+') :: digits ∧
        AllDigits digits ∧ digits ≠ [] ∧ number = signed minus (Nat.ofDigitChars 10 digits 0) := by
  unfold wholeNumber at hnumber
  split at hnumber
  next hempty =>
    rw [List.isEmpty_iff] at hempty
    cases hnumber
    exact .inl ⟨hempty ▸ List.forall_mem_nil _, by rw [hempty]; rfl⟩
  next =>
    unfold Decimal.readInt at hnumber
    split at hnumber
    next digits _ =>
      obtain ⟨value, hread, rfl⟩ := Option.map_eq_some_iff.mp hnumber
      obtain ⟨hsome, hdigits, rfl⟩ := Decimal.readNat_eq_some_iff.mp hread
      exact .inr ⟨true, digits, rfl, hdigits, hsome, rfl⟩
    next digits _ =>
      obtain ⟨value, hread, rfl⟩ := Option.map_eq_some_iff.mp hnumber
      obtain ⟨hsome, hdigits, rfl⟩ := Decimal.readNat_eq_some_iff.mp hread
      exact .inr ⟨false, digits, rfl, hdigits, hsome, rfl⟩
    next =>
      obtain ⟨value, hread, rfl⟩ := Option.map_eq_some_iff.mp hnumber
      obtain ⟨-, hdigits, rfl⟩ := Decimal.readNat_eq_some_iff.mp hread
      exact .inl ⟨hdigits, rfl⟩

omit [MoneyWidth] in
theorem AllDigits.point_not_mem_signed {whole : List Char} (hwhole : AllDigits whole)
    (minus : Bool) : '.' ∉ (if minus then '-' else '+') :: whole := by
  have hnone : '.' ∉ whole := hwhole.not_mem rfl
  cases minus <;> simp [hnone]

/-! ## The accepted texts -/

variable {amount : Amount} {s : String} {v : Cent}

/-- What the grammar allows is read, unless it is the least amount. -/
theorem parse_of_denotes (hscale : 10 ^ amount.decimals.toNat ≤ Backing.max backing)
    (hleast : v.val ≠ Backing.min backing)
    (hdenotes : Denotes s amount.decimals.toNat v.val) : amount.parse s = .ok v := by
  obtain ⟨negative, whole, frac, hparts, hwhole, hfrac, hlength, hsome, hval⟩ := hdenotes
  obtain ⟨body, hstrip, hsplit⟩ :=
    exists_split_of_hasParts hparts (hwhole.not_mem rfl) fun _ => hwhole.head?_ne rfl
  have hscaled : (0 : Int) ≤ Nat.ofDigitChars 10 whole 0 * 10 ^ amount.decimals.toNat := by
    positivity
  have hnumber : (Nat.ofDigitChars 10 whole 0 : Int) ≤
      Nat.ofDigitChars 10 whole 0 * 10 ^ amount.decimals.toNat := by
    exact_mod_cast Nat.le_mul_of_pos_right _ (Nat.pow_pos (by decide))
  -- the parts are at most the absolute value, which is held
  have htotal : (Nat.ofDigitChars 10 whole 0 * 10 ^ amount.decimals.toNat +
      fracNumber amount.decimals.toNat frac : Int) ≤ Backing.max backing := by
    have hmin := Backing.min_eq backing
    have hlower := v.min_le
    have hupper := v.le_max
    rw [signed] at hval
    split at hval <;> omega
  rw [parse_eq_ok_iff hstrip hsplit]
  refine ⟨hsome, hfrac, hlength, hscale, _, wholeNumber_of_digits hwhole, ?_, ?_, ?_, hval⟩
  · exact holds_of_nonneg (by omega) (by omega)
  · exact holds_of_nonneg hscaled (by omega)
  · exact holds_of_nonneg (by omega) htotal

/-- What is read is in the grammar, or has a second sign. -/
theorem denotes_or_secondSign (hread : amount.parse s = .ok v) :
    Denotes s amount.decimals.toNat v.val ∨ SecondSign s amount.decimals.toNat := by
  obtain ⟨negative, body, hstrip⟩ : ∃ negative body, stripMinus (trim s.toList) = (negative, body) :=
    ⟨_, _, rfl⟩
  obtain ⟨whole, frac, hsplit⟩ : ∃ whole frac, splitPoint body = (whole, frac) := ⟨_, _, rfl⟩
  obtain ⟨hsome, hfrac, hlength, -, number, hnumber, hholds, hscaled, hvalue, hval⟩ :=
    (parse_eq_ok_iff hstrip hsplit).mp hread
  have hparts := hasParts_of_split hstrip hsplit
  rcases wholeNumber_eq_some hnumber with ⟨hwhole, rfl⟩ | ⟨minus, digits, rfl, hdigits, hne, rfl⟩
  · exact .inl ⟨negative, whole, frac, hparts, hwhole, hfrac, hlength, hsome, hval⟩
  · refine .inr ⟨negative, minus, digits, frac, hparts, ?_, hdigits, hne, hfrac, hlength, _, rfl,
      hholds, hscaled, hvalue, hval ▸ Cent.holds_of_val v⟩
    rintro rfl
    by_contra hpositive
    rw [Bool.not_eq_true] at hpositive
    -- without a minus sign before it, this one would have been stripped
    have hhead := (stripMinus_eq_iff.mp hstrip).2 hpositive
    rcases (splitPoint_eq_iff.mp hsplit).2 with ⟨rfl, -⟩ | rfl
    · exact hhead rfl
    · exact hhead rfl

omit [MoneyWidth] in
theorem readInt_signed {digits : List Char} (hdigits : AllDigits digits) (hsome : digits ≠ [])
    (minus : Bool) :
    Decimal.readInt ((if minus then '-' else '+') :: digits) =
      some (signed minus (Nat.ofDigitChars 10 digits 0)) := by
  have hread := Decimal.readNat_eq_some_iff.mpr ⟨hsome, hdigits, rfl⟩
  cases minus with
  | false => exact (congrArg (Option.map Int.ofNat) hread).trans rfl
  | true => exact (congrArg (Option.map fun value : Nat => -Int.ofNat value) hread).trans rfl

omit [MoneyWidth] in
/-- After a plus sign there is no minus sign to strip. -/
theorem head?_signed {negative minus : Bool} {whole : List Char}
    (hminus : minus = true → negative = true) (hnegative : negative = false) :
    ((if minus then '-' else '+') :: whole).head? ≠ some '-' := by
  cases minus with
  | false => simp
  | true => exact absurd (hminus rfl) (by simp [hnegative])

/-- What has a second sign is read, though it is not in the grammar. -/
theorem exists_parse_of_secondSign (hscale : 10 ^ amount.decimals.toNat ≤ Backing.max backing)
    (hsecond : SecondSign s amount.decimals.toNat) :
    ∃ v, amount.parse s = .ok v ∧ v.val ≠ Backing.min backing ∧
      ¬Denotes s amount.decimals.toNat v.val := by
  obtain ⟨negative, minus, whole, frac, hparts, hsigns, hwhole, hne, hfrac, hlength, number, hnumber,
    hholds, hscaled, hvalue, hsigned⟩ := hsecond
  obtain ⟨body, hstrip, hsplit⟩ :=
    exists_split_of_hasParts hparts (hwhole.point_not_mem_signed minus) (head?_signed hsigns)
  obtain ⟨v, hval⟩ := exists_of_holds hsigned
  refine ⟨v, ?_, ?_, ?_⟩
  · rw [parse_eq_ok_iff hstrip hsplit]
    refine ⟨.inl (List.cons_ne_nil _ _), hfrac, hlength, hscale, number, ?_, hholds, hscaled, hvalue,
      hval⟩
    rw [wholeNumber, if_neg (by simp), hnumber]
    exact readInt_signed hwhole hne minus
  · have hmin := Backing.min_eq backing
    have hupper := hvalue.2
    intro hleast
    rw [hleast, signed] at hval
    split at hval
    next => omega
    next hpositive =>
      have hplus : minus = false := Bool.eq_false_iff.mpr (mt hsigns hpositive)
      have hnonneg : 0 ≤ number * 10 ^ amount.decimals.toNat +
          (fracNumber amount.decimals.toNat frac : Int) := by
        rw [hnumber, hplus, signed, if_neg Bool.false_ne_true]
        positivity
      have hmax := (Cent.zero_fits backing).2
      omega
  · rintro ⟨negative', whole', frac', hparts', hwhole', -⟩
    obtain ⟨body', hstrip', hsplit'⟩ :=
      exists_split_of_hasParts hparts' (hwhole'.not_mem rfl) fun _ => hwhole'.head?_ne rfl
    cases hstrip.symm.trans hstrip'
    cases hsplit.symm.trans hsplit'
    have hdigit := hwhole' _ List.mem_cons_self
    cases minus with
    | false => exact absurd hdigit (by decide)
    | true => exact absurd hdigit (by decide)

/-- For a scale in range, the reader takes exactly the grammar, and gives the exact
value, when the text has no second sign. -/
theorem parse_grammar_iff (amount : Amount) (s : String)
    (hscale : 10 ^ amount.decimals.toNat ≤ Backing.max backing) :
    (∀ v : Cent, v.val ≠ Backing.min backing →
      (amount.parse s = .ok v ↔ Denotes s amount.decimals.toNat v.val)) ↔
      ¬SecondSign s amount.decimals.toNat := by
  constructor
  · intro hgrammar hsecond
    obtain ⟨v, hread, hleast, hnot⟩ := exists_parse_of_secondSign hscale hsecond
    exact hnot ((hgrammar v hleast).mp hread)
  · intro hsingle v hleast
    exact ⟨fun hread => (denotes_or_secondSign hread).resolve_right hsingle,
      parse_of_denotes hscale hleast⟩

end Theory

theorem not_secondSign_twelve : letI : MoneyWidth := ⟨.i64⟩; ¬SecondSign " -12.3 " 2 := by
  let _ : MoneyWidth := ⟨.i64⟩
  rintro ⟨negative, minus, whole, frac, hparts, hminus, hwhole, -⟩
  obtain ⟨body, hstrip, hsplit⟩ :=
    exists_split_of_hasParts hparts (hwhole.point_not_mem_signed minus) (head?_signed hminus)
  have hparsed : stripMinus (trim " -12.3 ".toList) = (true, "12.3".toList) := by decide +kernel
  cases hparsed.symm.trans hstrip
  have hfirst : (splitPoint "12.3".toList).1.head? = some '1' := by decide +kernel
  rw [hsplit] at hfirst
  cases minus <;> cases hfirst

/-- The number of a text without a second sign is read off the grammar; the grammar
fails for a text with one. -/
theorem parse_grammar_two_decimals :
    letI : MoneyWidth := ⟨.i64⟩
    Denotes " -12.3 " 2 (-1230) ∧
      ¬∀ v : Cent, v.val ≠ Backing.min .i64 →
        ((⟨2⟩ : Amount).parse "--5" = .ok v ↔ Denotes "--5" 2 v.val) := by
  have hread : letI : MoneyWidth := ⟨.i64⟩
      (⟨2⟩ : Amount).parse " -12.3 " = .ok (.ofI64 (-1230)) := by decide +kernel
  let _ : MoneyWidth := ⟨.i64⟩
  constructor
  · have hgrammar := (parse_grammar_iff ⟨2⟩ " -12.3 " (by decide)).mpr not_secondSign_twelve
    exact (hgrammar (.ofI64 (-1230)) (show (-1230 : Int) ≠ -2 ^ 63 by decide)).mp hread
  · intro hgrammar
    refine (parse_grammar_iff ⟨2⟩ "--5" (by decide)).mp hgrammar ?_
    refine ⟨true, true, ['5'], [], ⟨"-5".toList, by decide +kernel, .inl ⟨rfl, rfl⟩⟩, fun _ => rfl,
      by simp [AllDigits], by decide, by simp [AllDigits], by decide, -5, by decide, ?_, ?_, ?_, ?_⟩
    all_goals exact ⟨by decide, by decide⟩

/-- Two minus signs give a positive amount. -/
theorem parse_two_signs :
    letI : MoneyWidth := ⟨.i64⟩
    (⟨2⟩ : Amount).parse "--5" = .ok (.ofI64 500) ∧ ¬Denotes "--5" 2 500 := by
  refine ⟨by decide +kernel, ?_⟩
  rintro ⟨negative, whole, frac, hparts, hwhole, -⟩
  obtain ⟨body, hstrip, hsplit⟩ :=
    exists_split_of_hasParts hparts (hwhole.not_mem rfl) fun _ => hwhole.head?_ne rfl
  have hparsed : stripMinus (trim "--5".toList) = (true, ['-', '5']) := by decide +kernel
  cases hparsed.symm.trans hstrip
  have hwholeEq : (splitPoint ['-', '5']).1 = ['-', '5'] := by decide
  rw [hsplit] at hwholeEq
  subst hwholeEq
  exact absurd (hwhole '-' List.mem_cons_self) (by decide)

end Kuatia
