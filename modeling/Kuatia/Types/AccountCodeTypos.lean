import Kuatia.Types.AccountCodeReading
import Mathlib.Data.Nat.ModEq

/-! # Mistyped account codes

The checksum is taken of the number that a code expands to, a digit as one decimal
digit and a letter as two. Replacing a character by one of its own kind always
changes that number modulo 97. A digit in the place of a letter, or the other way
round, also moves everything in front of it by one decimal place, and that can
make up for the difference.
-/

namespace Kuatia

/-! ## The number that is checked -/

/-- The number of a base-36 character. -/
def charValue (c : Char) : Nat := (base36Value c).getD 0

/-- How far a character moves what is in front of it. -/
def charWeight (c : Char) : Nat := if c.isDigit then 10 else 100

/-- The decimal number of a text in which each letter stands for two digits. -/
def expandedNumber (text : List Char) : Nat :=
  text.foldl (fun number c => number * charWeight c + charValue c) 0

def expandedWeight (text : List Char) : Nat := (text.map charWeight).prod

/-- The base-36 number of a text. -/
def bodyNumber (text : List Char) : Nat := text.foldl (fun value c => value * 36 + charValue c) 0

theorem charValue_base36Digit {digit : Nat} (hdigit : digit < 36) :
    charValue (base36Digit digit) = digit := by
  rw [charValue, (base36Digit_spec hdigit).1, Option.getD_some]

theorem charWeight_base36Digit {digit : Nat} (hdigit : digit < 36) :
    charWeight (base36Digit digit) = if digit < 10 then 10 else 100 := by
  have hall : ∀ digit : Fin 36,
      charWeight (base36Digit digit.val) = if digit.val < 10 then 10 else 100 := by decide
  exact hall ⟨digit, hdigit⟩

theorem isDigit_base36Digit {digit : Nat} (hdigit : digit < 36) :
    (base36Digit digit).isDigit = decide (digit < 10) := by
  have hall : ∀ digit : Fin 36,
      (base36Digit digit.val).isDigit = decide (digit.val < 10) := by decide
  exact hall ⟨digit, hdigit⟩

theorem bodyNumber_map {digits : List Nat} (hdigits : ∀ digit ∈ digits, digit < 36) :
    bodyNumber (digits.map base36Digit) = base36Number digits := by
  induction digits using List.reverseRecOn with
  | nil => rfl
  | append_singleton digits last ih =>
      have hearlier := ih fun digit hdigit => hdigits digit (List.mem_append_left _ hdigit)
      rw [bodyNumber] at hearlier
      rw [bodyNumber, List.map_append, List.foldl_append, hearlier, base36Number_concat,
        List.map_singleton, List.foldl_cons, List.foldl_nil,
        charValue_base36Digit (hdigits last (by simp))]

theorem foldl_expandedNumber (start : Nat) (text : List Char) :
    text.foldl (fun number c => number * charWeight c + charValue c) start =
      start * expandedWeight text + expandedNumber text := by
  induction text generalizing start with
  | nil => simp [expandedNumber, expandedWeight]
  | cons c text ih =>
      rw [expandedNumber, List.foldl_cons, List.foldl_cons, ih, ih (0 * charWeight c + charValue c),
        expandedWeight, expandedWeight, List.map_cons, List.prod_cons]
      ring

/-- The part of one character in the number of a text. -/
theorem expandedNumber_middle (before : List Char) (c : Char) (after : List Char) :
    expandedNumber (before ++ c :: after) =
      (expandedNumber before * charWeight c + charValue c) * expandedWeight after +
        expandedNumber after := by
  rw [expandedNumber, List.foldl_append, ← expandedNumber, List.foldl_cons, foldl_expandedNumber]

theorem coprime_expandedWeight (text : List Char) : Nat.Coprime 97 (expandedWeight text) := by
  induction text with
  | nil => exact Nat.coprime_one_right 97
  | cons c text ih =>
      rw [expandedWeight, List.map_cons, List.prod_cons]
      refine Nat.Coprime.mul_right ?_ ih
      rw [charWeight]
      split <;> decide

theorem ibanExpand_singleton {digit : Nat} (hdigit : digit < 36) :
    ibanExpand [base36Digit digit] =
      if digit < 10 then [base36Digit digit]
      else [base36Digit (digit / 10), base36Digit (digit % 10)] := by
  have hall : ∀ digit : Fin 36, ibanExpand [base36Digit digit.val] =
      if digit.val < 10 then [base36Digit digit.val]
      else [base36Digit (digit.val / 10), base36Digit (digit.val % 10)] := by decide +kernel
  exact hall ⟨digit, hdigit⟩

theorem mod97_concat (digits : List Char) {digit : Nat} (hdigit : digit < 10) :
    mod97 (digits ++ [base36Digit digit]) = (mod97 digits * 10 + digit) % 97 := by
  rw [mod97, List.foldl_append, ← mod97, List.foldl_cons, List.foldl_nil,
    (base36Digit_isDigit hdigit).2]

/-- What `mod97` computes of an expanded text. -/
theorem mod97_ibanExpand {digits : List Nat} (hdigits : ∀ digit ∈ digits, digit < 36) :
    mod97 (ibanExpand (digits.map base36Digit)) = expandedNumber (digits.map base36Digit) % 97 := by
  induction digits using List.reverseRecOn with
  | nil => rfl
  | append_singleton digits last ih =>
      have hlast := hdigits last (by simp)
      have hearlier := ih fun digit hdigit => hdigits digit (List.mem_append_left _ hdigit)
      have hexpand : ibanExpand ((digits ++ [last]).map base36Digit) =
          ibanExpand (digits.map base36Digit) ++ ibanExpand [base36Digit last] := by
        rw [List.map_append, ibanExpand, List.flatMap_append]
        rfl
      have hnumber := expandedNumber_middle (digits.map base36Digit) (base36Digit last) []
      rw [charValue_base36Digit hlast, charWeight_base36Digit hlast] at hnumber
      simp only [expandedWeight, expandedNumber, List.map_nil, List.prod_nil, List.foldl_nil,
        Nat.mul_one, Nat.add_zero] at hnumber
      rw [← expandedNumber, ← expandedNumber] at hnumber
      rw [hexpand, ibanExpand_singleton hlast, List.map_append, List.map_singleton, hnumber]
      split
      next hdigit =>
        rw [mod97_concat _ hdigit, hearlier]
        omega
      next hletter =>
        rw [List.append_cons, mod97_concat _ (by omega), mod97_concat _ (by omega), hearlier]
        omega

/-! ## Reading the digits of a code -/

/-- The digits that a code can consist of: 18 of the body, and two decimal ones that
make the checked number one. -/
structure Readable (digits : List Nat) : Prop where
  check : ∀ digit ∈ digits.drop BODY_LEN, digit < 10
  checked : expandedNumber (digits.map base36Digit) % 97 = 1
  packed : base36Number (digits.take BODY_LEN) ≤ PACK_MASK

theorem map_charValue {digits : List Nat} (hdigits : ∀ digit ∈ digits, digit < 36) :
    (digits.map base36Digit).map charValue = digits := by
  rw [List.map_map]
  refine (List.map_congr_left fun digit hdigit => ?_).trans (List.map_id digits)
  exact charValue_base36Digit (hdigits digit hdigit)

theorem map_base36Digit_inj {first second : List Nat} (hfirst : ∀ digit ∈ first, digit < 36)
    (hsecond : ∀ digit ∈ second, digit < 36)
    (heq : first.map base36Digit = second.map base36Digit) : first = second := by
  rw [← map_charValue hfirst, heq, map_charValue hsecond]

theorem base36Number_base36Digits (i v : Nat) (hv : v < 36 ^ i) :
    base36Number (base36Digits i v) = v := by
  induction i generalizing v with
  | zero =>
      rw [base36Digits, Nat.lt_one_iff.mp hv]
      rfl
  | succ i ih =>
      rw [base36Digits, base36Number_concat,
        ih (v / 36) (Nat.div_lt_of_lt_mul (by rwa [Nat.pow_succ'] at hv))]
      omega

/-- The digits of a packed value and of check digits that satisfy the checksum. -/
theorem readable_append {p : Packed} {check : Nat} (hcheck : check < 100)
    (hsum : (mod97 (ibanExpand (base36Body p.val)) * 100 + check) % 97 = 1) :
    Readable (base36Digits BODY_LEN p.val ++ [check / 10, check % 10]) := by
  have hlength := length_base36Digits BODY_LEN p.val
  have hpower : 2 ^ 93 < 36 ^ BODY_LEN := by decide
  have hlt : p.val < 36 ^ BODY_LEN := p.lt_two_pow.trans hpower
  refine ⟨?_, ?_, ?_⟩
  · rw [List.drop_left' hlength]
    intro digit hdigit
    simp only [List.mem_cons, List.not_mem_nil, or_false] at hdigit
    omega
  · rw [← mod97_ibanExpand (lt_of_mem_code hcheck), List.map_append, ← base36Body_eq,
      List.map_cons, List.map_singleton, ← twoDigits_eq hcheck, mod97_twoDigits _ hcheck, hsum]
  · rw [List.take_left' hlength, base36Number_base36Digits _ _ hlt]
    exact p.property

/-- A text that is cleaned to twenty digits is read as an account exactly when the
digits are readable. -/
theorem exists_fromStr_iff {s : String} {seed : UInt64} {digits : List Nat}
    (hdigits : ∀ digit ∈ digits, digit < 36) (hlength : digits.length = BODY_LEN + 2)
    (hclean : cleanCode s.toList = digits.map base36Digit) :
    (∃ account, AccountId.fromStr s seed = some (.ok account)) ↔ Readable digits := by
  constructor
  · rintro ⟨account, hread⟩
    obtain ⟨p, check, hcheck, htext, hsum, -⟩ := fromStr_eq_ok_iff.mp hread
    have hsame : digits = base36Digits BODY_LEN p.val ++ [check / 10, check % 10] := by
      apply map_base36Digit_inj hdigits (lt_of_mem_code hcheck)
      rw [← hclean, htext, base36Body_eq, twoDigits_eq hcheck, List.map_append]
      rfl
    rw [hsame]
    exact readable_append hcheck hsum
  · intro hreadable
    obtain ⟨hcheck, hsum, hpacked⟩ := hreadable
    have hsplit := List.take_append_drop BODY_LEN digits
    have hbodyLength : (digits.take BODY_LEN).length = BODY_LEN := by
      rw [List.length_take]
      omega
    obtain ⟨tens, ones, hlast⟩ := List.length_eq_two.mp (show (digits.drop BODY_LEN).length = 2 by
      rw [List.length_drop]
      omega)
    have htens := hcheck tens (by rw [hlast]; simp)
    have hones := hcheck ones (by rw [hlast]; simp)
    have hbody := base36Body_base36Number
      (fun digit hdigit => hdigits digit (List.mem_of_mem_take hdigit)) hbodyLength
    have htwo : twoDigits (10 * tens + ones) = [base36Digit tens, base36Digit ones] := by
      rw [twoDigits_eq (by omega), show (10 * tens + ones) / 10 = tens by omega,
        show (10 * tens + ones) % 10 = ones by omega]
    have htext : digits.map base36Digit =
        base36Body (base36Number (digits.take BODY_LEN)) ++ twoDigits (10 * tens + ones) := by
      conv_lhs => rw [← hsplit]
      rw [hbody, htwo, List.map_append, hlast]
      rfl
    rw [← mod97_ibanExpand hdigits, htext, mod97_twoDigits _ (by omega)] at hsum
    have hcheck : 10 * tens + ones < 100 := by omega
    obtain ⟨p, hp⟩ : ∃ p : Packed, p.val = base36Number (digits.take BODY_LEN) :=
      ⟨⟨_, hpacked⟩, rfl⟩
    rw [← hp] at htext hsum
    cases hunpack : unpack (deobfuscate p seed) with
    | mk id sub => exact ⟨⟨id, sub⟩, fromStr_of_cleanCode hcheck (hclean.trans htext) hsum hunpack⟩

/-- A text of base-36 digits is refused when it is not read. -/
theorem fromStr_eq_error_iff {s : String} {seed : UInt64} {digits : List Nat}
    (hdigits : ∀ digit ∈ digits, digit < 36) (hlength : digits.length = BODY_LEN + 2)
    (hclean : cleanCode s.toList = digits.map base36Digit) :
    AccountId.fromStr s seed = some (.error ⟨⟩) ↔ ¬Readable digits := by
  have hbytes : ∀ part : List Nat, part ⊆ digits →
      byteLength (part.map base36Digit) = part.length := by
    intro part hpart
    exact byteLength_map_base36Digit fun digit hdigit => hdigits digit (hpart hdigit)
  -- the cut behind the body is between characters, so the reader gives a result
  have hresult : ∃ result, AccountId.fromStr s seed = some result := by
    have hcut : sliceAt BODY_LEN (digits.map base36Digit) =
        some ((digits.take BODY_LEN).map base36Digit, (digits.drop BODY_LEN).map base36Digit) := by
      rw [sliceAt_eq_some_iff, ← List.map_append, List.take_append_drop,
        hbytes _ (List.take_subset BODY_LEN digits), List.length_take]
      exact ⟨rfl, by omega⟩
    rw [AccountId.fromStr, hclean, ← byteLength, hbytes digits (List.Subset.refl _)]
    simp only [hlength, ne_eq, not_true_eq_false, if_false, hcut, Option.map_some]
    exact ⟨_, rfl⟩
  have hreadable : (∃ account, AccountId.fromStr s seed = some (.ok account)) ↔ Readable digits :=
    exists_fromStr_iff hdigits hlength hclean
  rw [← hreadable]
  obtain ⟨result, hresult⟩ := hresult
  rw [hresult]
  cases result with
  | error => simp
  | ok account => simp

/-! ## One changed character -/

/-- A new character in a place of a code leaves the code readable. -/
structure Unnoticed (code : List Char) (i : Nat) (old new : Char) : Prop where
  inBody : i < 18
  otherKind : new.isDigit ≠ old.isDigit
  balanced : (90 * expandedNumber (code.take i) +
    (max (charValue old) (charValue new) - min (charValue old) (charValue new))) % 97 = 0
  packable : bodyNumber ((code.set i new).take 18) < 2 ^ 93

/-- What one digit adds to the checked number is seen modulo 97 through any digits
behind it. -/
theorem checked_middle_iff (before : List Char) (old new : Char) (after : List Char) :
    expandedNumber (before ++ new :: after) % 97 = expandedNumber (before ++ old :: after) % 97 ↔
      (expandedNumber before * charWeight new + charValue new) % 97 =
        (expandedNumber before * charWeight old + charValue old) % 97 := by
  rw [expandedNumber_middle, expandedNumber_middle]
  constructor
  · intro hsame
    have hscaled := Nat.ModEq.add_right_cancel' _ (show Nat.ModEq 97 _ _ from hsame)
    exact Nat.ModEq.cancel_right_of_coprime (coprime_expandedWeight after) hscaled
  · intro hsame
    exact Nat.ModEq.add_right _ (Nat.ModEq.mul_right _ (show Nat.ModEq 97 _ _ from hsame))

/-- Modulo 97 a digit and a letter can stand for each other, but two of one kind
cannot. -/
theorem same_rest_iff (number : Nat) {old new : Nat} (hold : old < 36) (hnew : new < 36)
    (hne : new ≠ old) :
    (number * (if new < 10 then 10 else 100) + new) % 97 =
        (number * (if old < 10 then 10 else 100) + old) % 97 ↔
      decide (new < 10) ≠ decide (old < 10) ∧
        (90 * number + (max old new - min old new)) % 97 = 0 := by
  by_cases hnewDigit : new < 10
  · by_cases holdDigit : old < 10
    · simp only [hnewDigit, holdDigit, if_true, ne_eq, not_true_eq_false, false_and, iff_false]
      omega
    · simp only [hnewDigit, holdDigit, if_true, if_false, ne_eq, decide_true, decide_false,
        Bool.true_eq_false, not_false_eq_true, true_and]
      omega
  · by_cases holdDigit : old < 10
    · simp only [hnewDigit, holdDigit, if_true, if_false, ne_eq, decide_true, decide_false,
        Bool.false_eq_true, not_false_eq_true, true_and]
      omega
    · simp only [hnewDigit, holdDigit, if_false, ne_eq, not_true_eq_false, false_and, iff_false]
      omega

/-- What is behind the body does not depend on a digit of the body. -/
theorem drop_middle {i : Nat} {before : List Nat} (hbody : before.length < i) (digit : Nat)
    (after : List Nat) :
    (before ++ digit :: after).drop i = after.drop (i - (before.length + 1)) := by
  rw [List.append_cons, List.drop_append, List.drop_eq_nil_of_le]
  · simp
  · simp only [List.length_append, List.length_singleton]
    omega

theorem unnoticed_middle_iff {before after : List Nat} {old new : Nat}
    (hbefore : ∀ digit ∈ before, digit < 36) (hafter : ∀ digit ∈ after, digit < 36)
    (hold : old < 36) (hnew : new < 36) :
    Unnoticed ((before ++ old :: after).map base36Digit) before.length (base36Digit old)
        (base36Digit new) ↔
      before.length < BODY_LEN ∧ decide (new < 10) ≠ decide (old < 10) ∧
      (90 * expandedNumber (before.map base36Digit) + (max old new - min old new)) % 97 = 0 ∧
      base36Number ((before ++ new :: after).take BODY_LEN) ≤ PACK_MASK := by
  have htake : ((before ++ old :: after).map base36Digit).take before.length =
      before.map base36Digit := by
    rw [← List.map_take, List.take_left]
  have hset : ((before ++ old :: after).map base36Digit).set before.length (base36Digit new) =
      (before ++ new :: after).map base36Digit := by
    simp
  have hnumber : bodyNumber (((before ++ new :: after).map base36Digit).take 18) =
      base36Number ((before ++ new :: after).take BODY_LEN) := by
    rw [← List.map_take, bodyNumber_map]
    · rfl
    · intro digit hdigit
      have hmem := List.mem_of_mem_take hdigit
      simp only [List.mem_append, List.mem_cons] at hmem
      rcases hmem with hmem | rfl | hmem
      · exact hbefore digit hmem
      · exact hnew
      · exact hafter digit hmem
  have hmask : ∀ value, value < 2 ^ 93 ↔ value ≤ PACK_MASK := by
    intro value
    rw [PACK_MASK_eq]
    omega
  constructor
  · rintro ⟨hbody, hkind, hbalanced, hpackable⟩
    rw [isDigit_base36Digit hnew, isDigit_base36Digit hold] at hkind
    rw [htake, charValue_base36Digit hold, charValue_base36Digit hnew] at hbalanced
    rw [hset, hnumber, hmask] at hpackable
    exact ⟨hbody, hkind, hbalanced, hpackable⟩
  · rintro ⟨hbody, hkind, hbalanced, hpackable⟩
    refine ⟨hbody, ?_, ?_, ?_⟩
    · rwa [isDigit_base36Digit hnew, isDigit_base36Digit hold]
    · rwa [htake, charValue_base36Digit hold, charValue_base36Digit hnew]
    · rwa [hset, hnumber, hmask]

/-- A changed code is readable exactly when the change goes unnoticed. -/
theorem readable_middle_iff {before after : List Nat} {old new : Nat}
    (hbefore : ∀ digit ∈ before, digit < 36) (hafter : ∀ digit ∈ after, digit < 36)
    (hold : old < 36) (hnew : new < 36) (hne : new ≠ old)
    (hcode : Readable (before ++ old :: after)) :
    Readable (before ++ new :: after) ↔
      Unnoticed ((before ++ old :: after).map base36Digit) before.length (base36Digit old)
        (base36Digit new) := by
  have hchecked : ∀ digit, expandedNumber ((before ++ digit :: after).map base36Digit) =
      expandedNumber (before.map base36Digit ++ base36Digit digit :: after.map base36Digit) := by
    intro digit
    rw [List.map_append, List.map_cons]
  have hsum : expandedNumber ((before ++ new :: after).map base36Digit) % 97 = 1 ↔
      decide (new < 10) ≠ decide (old < 10) ∧
      (90 * expandedNumber (before.map base36Digit) + (max old new - min old new)) % 97 = 0 := by
    rw [← same_rest_iff _ hold hnew hne, ← charWeight_base36Digit hold,
      ← charWeight_base36Digit hnew]
    have hmiddle := checked_middle_iff (before.map base36Digit) (base36Digit old)
      (base36Digit new) (after.map base36Digit)
    rw [← hchecked, ← hchecked, hcode.checked, charValue_base36Digit hold,
      charValue_base36Digit hnew] at hmiddle
    exact hmiddle
  rw [unnoticed_middle_iff hbefore hafter hold hnew]
  constructor
  · rintro ⟨hcheck, hnumber, hpacked⟩
    obtain ⟨hkind, hbalanced⟩ := hsum.mp hnumber
    refine ⟨?_, hkind, hbalanced, hpacked⟩
    -- among the check digits both would be decimal
    by_contra hlast
    have hdigit : ∀ digit, digit ∈ (before ++ digit :: after).drop BODY_LEN := by
      intro digit
      rw [List.drop_append_of_le_length (by omega)]
      simp
    exact hkind (by simp [hcheck new (hdigit new), hcode.check old (hdigit old)])
  · rintro ⟨hbody, hkind, hbalanced, hpacked⟩
    refine ⟨?_, hsum.mpr ⟨hkind, hbalanced⟩, hpacked⟩
    rw [drop_middle hbody, ← drop_middle hbody old]
    exact hcode.check

theorem readable_codeDigits (p : Packed) : Readable (codeDigits p) :=
  readable_append (checkDigits_lt _) (mod97_checkDigits _)

/-- A code with one character replaced is refused, unless a digit has been replaced
by a letter, or a letter by a digit, in a place of the body where the characters in
front make up for it. -/
theorem typo_rejected_iff (account : AccountId) (seed : UInt64) {i : Nat} {old new : Char}
    (hold : (account.display seed).toList[i]? = some old) (hnew : isBase36 new = true)
    (hne : new ≠ old) :
    AccountId.fromStr (.ofList ((account.display seed).toList.set i new)) seed =
        some (.error ⟨⟩) ↔
      ¬Unnoticed (account.display seed).toList i old new := by
  rw [AccountId.display, String.toList_ofList, accountCode_eq] at hold ⊢
  obtain ⟨newDigit, hnewDigit, rfl⟩ := exists_digit_of_isBase36 hnew
  have hcode := readable_codeDigits (obfuscate (pack account.id account.sub) seed)
  have hdigits : ∀ digit ∈ codeDigits (obfuscate (pack account.id account.sub) seed), digit < 36 :=
    fun _ => codeDigits_lt
  have hlength : (codeDigits (obfuscate (pack account.id account.sub) seed)).length =
      BODY_LEN + 2 := by
    simp [codeDigits]
  generalize codeDigits (obfuscate (pack account.id account.sub) seed) = digits at *
  obtain ⟨oldDigit, hplace, rfl⟩ := Option.map_eq_some_iff.mp ((List.getElem?_map ..).symm.trans hold)
  obtain ⟨hi, hget⟩ := List.getElem?_eq_some_iff.mp hplace
  obtain ⟨before, after, rfl, rfl⟩ : ∃ before after, digits = before ++ oldDigit :: after ∧
      before.length = i := by
    refine ⟨digits.take i, digits.drop (i + 1), ?_, List.length_take_of_le hi.le⟩
    rw [← hget, List.cons_getElem_drop_succ, List.take_append_drop]
  have hbefore : ∀ digit ∈ before, digit < 36 :=
    fun digit hdigit => hdigits digit (List.mem_append_left _ hdigit)
  have hafter : ∀ digit ∈ after, digit < 36 :=
    fun digit hdigit => hdigits digit (List.mem_append_right _ (List.mem_cons_of_mem _ hdigit))
  have hset : ((before ++ oldDigit :: after).map base36Digit).set before.length
      (base36Digit newDigit) = (before ++ newDigit :: after).map base36Digit := by
    simp
  have htypo : ∀ digit ∈ before ++ newDigit :: after, digit < 36 := by
    intro digit hdigit
    rcases List.mem_append.mp hdigit with hdigit | hdigit
    · exact hbefore digit hdigit
    · rcases List.mem_cons.mp hdigit with rfl | hdigit
      · exact hnewDigit
      · exact hafter digit hdigit
  rw [hset, fromStr_eq_error_iff htypo (by simpa using hlength)
    (cleanCode_spelling htypo (by rw [String.toList_ofList]; exact .refl _)),
    readable_middle_iff hbefore hafter (hdigits oldDigit (by simp)) hnewDigit
      (fun heq => hne (congrArg base36Digit heq)) hcode]

theorem display_five : AccountId.display ⟨5, 0⟩ DEFAULT_ID_SEED = "IOER8DHT57FNKES2Z677" := by
  rw [AccountId.display, accountCode, val_obfuscate_of_le (by decide +kernel)]
  decide +kernel

theorem unnoticed_five : Unnoticed "IOER8DHT57FNKES2Z677".toList 9 '7' 'O' where
  inBody := by decide
  otherKind := by decide
  balanced := by decide +kernel
  packable := by decide +kernel

/-- A digit of a code is noticed in the place of another one, a letter is not. -/
theorem typo_rejected_seven_six :
    AccountId.fromStr (.ofList ((AccountId.display ⟨5, 0⟩ DEFAULT_ID_SEED).toList.set 9 '6'))
        DEFAULT_ID_SEED = some (.error ⟨⟩) ∧
      AccountId.fromStr (.ofList ((AccountId.display ⟨5, 0⟩ DEFAULT_ID_SEED).toList.set 9 'O'))
        DEFAULT_ID_SEED ≠ some (.error ⟨⟩) := by
  have hold : (AccountId.display ⟨5, 0⟩ DEFAULT_ID_SEED).toList[9]? = some '7' := by
    rw [display_five]
    decide +kernel
  constructor
  · exact (typo_rejected_iff ⟨5, 0⟩ DEFAULT_ID_SEED hold (by decide) (by decide)).mpr
      fun hunnoticed => hunnoticed.otherKind rfl
  · intro hrejected
    refine (typo_rejected_iff ⟨5, 0⟩ DEFAULT_ID_SEED hold (by decide) (by decide)).mp hrejected ?_
    rw [display_five]
    exact unnoticed_five

/-- The tenth character `7` typed as the letter `O` gives the code of another account. -/
theorem typo_accepted :
    (AccountId.display ⟨5, 0⟩ DEFAULT_ID_SEED).toList[9]? = some '7' ∧
      AccountId.fromStr (.ofList ((AccountId.display ⟨5, 0⟩ DEFAULT_ID_SEED).toList.set 9 'O'))
        DEFAULT_ID_SEED = some (.ok ⟨1012501949910598682, 577699533⟩) := by
  rw [display_five]
  refine ⟨by decide +kernel, ?_⟩
  exact fromStr_of_oneTurn ⟨1012501949910598682, 577699533⟩ DEFAULT_ID_SEED 77 (by decide)
    (by decide) (by decide) (by decide +kernel) (by decide) (by decide +kernel) (by decide +kernel)

end Kuatia
