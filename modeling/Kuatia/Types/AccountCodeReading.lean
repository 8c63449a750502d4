import Kuatia.Types.AccountCodeLaws

/-! # What the account code reader accepts

The reader takes a text exactly when the characters it keeps are the body of a
packed value and two decimal digits that satisfy the checksum. The one step that
can panic is the cut between the two, and that depends on where the characters
of the text begin.
-/

namespace Kuatia

/-! ## Base-36 characters -/

theorem isUpper_iff (c : Char) : c.isUpper = true ↔ 65 ≤ c.toNat ∧ c.toNat ≤ 90 := by
  have hrange : c.isUpper = true ↔ 'A'.val ≤ c.val ∧ c.val ≤ 'Z'.val := decide_eq_true_iff
  rw [hrange, UInt32.le_iff_toNat_le, UInt32.le_iff_toNat_le]
  rfl

theorem exists_digit_of_isDigit {c : Char} (hc : c.isDigit = true) :
    ∃ digit < 10, c = base36Digit digit := by
  have hrange := (isDigit_iff c).mp hc
  have hall : ∀ digit : Fin 10, Char.ofNat (48 + digit.val) = base36Digit digit.val := by decide
  refine ⟨c.toNat - 48, by omega, ?_⟩
  rw [← hall ⟨c.toNat - 48, by omega⟩, Nat.add_sub_cancel' hrange.1, Char.ofNat_toNat]

theorem exists_digit_of_isUpper {c : Char} (hc : c.isUpper = true) :
    ∃ digit, 10 ≤ digit ∧ digit < 36 ∧ c = base36Digit digit := by
  have hrange := (isUpper_iff c).mp hc
  have hall : ∀ letter : Fin 26, Char.ofNat (65 + letter.val) = base36Digit (10 + letter.val) := by
    decide
  refine ⟨10 + (c.toNat - 65), by omega, by omega, ?_⟩
  rw [← hall ⟨c.toNat - 65, by omega⟩, Nat.add_sub_cancel' hrange.1, Char.ofNat_toNat]

theorem exists_digit_of_isBase36 {c : Char} (hc : isBase36 c = true) :
    ∃ digit < 36, c = base36Digit digit := by
  rcases (Bool.or_eq_true _ _).mp hc with hdigit | hletter
  · obtain ⟨digit, hlt, rfl⟩ := exists_digit_of_isDigit hdigit
    exact ⟨digit, by omega, rfl⟩
  · obtain ⟨digit, -, hlt, rfl⟩ := exists_digit_of_isUpper hletter
    exact ⟨digit, hlt, rfl⟩

/-- A text of base-36 characters is the text of a list of digits. -/
theorem exists_digits_of_all {text : List Char} (htext : text.all isBase36 = true) :
    ∃ digits : List Nat, (∀ digit ∈ digits, digit < 36) ∧ text = digits.map base36Digit := by
  induction text with
  | nil => exact ⟨[], nofun, rfl⟩
  | cons c text ih =>
      rw [List.all_cons, Bool.and_eq_true] at htext
      obtain ⟨digit, hdigit, rfl⟩ := exists_digit_of_isBase36 htext.1
      obtain ⟨digits, hdigits, rfl⟩ := ih htext.2
      exact ⟨digit :: digits, List.forall_mem_cons.mpr ⟨hdigit, hdigits⟩, rfl⟩

/-! ## The number of a body -/

/-- The number that base-36 digits stand for. -/
def base36Number (digits : List Nat) : Nat := digits.foldl (fun value digit => value * 36 + digit) 0

@[simp] theorem base36Number_concat (digits : List Nat) (last : Nat) :
    base36Number (digits ++ [last]) = base36Number digits * 36 + last := by
  simp [base36Number]

theorem base36Number_lt {digits : List Nat} (hdigits : ∀ digit ∈ digits, digit < 36) :
    base36Number digits < 36 ^ digits.length := by
  induction digits using List.reverseRecOn with
  | nil => decide
  | append_singleton digits last ih =>
      have hlast := hdigits last (by simp)
      have hearlier := ih fun digit hdigit => hdigits digit (List.mem_append_left _ hdigit)
      rw [base36Number_concat, List.length_append, List.length_singleton, Nat.pow_succ]
      omega

/-- Digits are written as they were read. -/
theorem base36Digits_base36Number {digits : List Nat} (hdigits : ∀ digit ∈ digits, digit < 36) :
    base36Digits digits.length (base36Number digits) = digits := by
  induction digits using List.reverseRecOn with
  | nil => rfl
  | append_singleton digits last ih =>
      have hlast := hdigits last (by simp)
      have hearlier := ih fun digit hdigit => hdigits digit (List.mem_append_left _ hdigit)
      have hquotient : (base36Number digits * 36 + last) / 36 = base36Number digits := by omega
      have hremainder : (base36Number digits * 36 + last) % 36 = last := by omega
      rw [base36Number_concat, List.length_append, List.length_singleton, base36Digits, hquotient,
        hremainder, hearlier]

theorem base36Body_base36Number {digits : List Nat} (hdigits : ∀ digit ∈ digits, digit < 36)
    (hlength : digits.length = BODY_LEN) :
    base36Body (base36Number digits) = digits.map base36Digit := by
  rw [base36Body_eq, ← hlength, base36Digits_base36Number hdigits]

/-- A body is read as its number, which no `u128` is too small for. -/
theorem fromStrRadix36_map {digits : List Nat} (hdigits : ∀ digit ∈ digits, digit < 36)
    (hlength : digits.length = BODY_LEN) :
    fromStrRadix36 (digits.map base36Digit) = some (base36Number digits) := by
  have hlt := base36Number_lt hdigits
  rw [hlength] at hlt
  have hfits : 0 * 36 ^ BODY_LEN + base36Number digits < 2 ^ 128 := by
    have hpower : 36 ^ BODY_LEN < 2 ^ 128 := by decide
    omega
  have hread := foldlM_base36Digits BODY_LEN (base36Number digits) 0 hlt hfits
  rw [← hlength, base36Digits_base36Number hdigits] at hread
  have hnonempty : (digits.map base36Digit).isEmpty = false := by
    cases digits with
    | nil => exact absurd hlength (by decide)
    | cons => rfl
  rw [fromStrRadix36, hnonempty, if_neg Bool.false_ne_true, hread, Nat.zero_mul, Nat.zero_add]

theorem isBase36_of_isDigit {c : Char} (hc : c.isDigit = true) : isBase36 c = true := by
  rw [isBase36, hc, Bool.true_or]

/-- A text of base-36 characters has as many bytes as characters. -/
theorem byteLength_of_all {text : List Char} (htext : text.all isBase36 = true) :
    byteLength text = text.length := by
  obtain ⟨digits, hdigits, rfl⟩ := exists_digits_of_all htext
  rw [byteLength_map_base36Digit hdigits, List.length_map]

/-! ## The accepted texts -/

/-- The body and the two check digits of a text, when their characters are right. -/
theorem exists_digits_of_cut {text body check : List Char}
    (hcut : sliceAt BODY_LEN text = some (body, check)) (hsize : byteLength text = BODY_LEN + 2)
    (hchars : ¬(!check.all Char.isDigit || !body.all isBase36) = true) :
    ∃ digits : List Nat, ∃ number < 100, (∀ digit ∈ digits, digit < 36) ∧
      digits.length = BODY_LEN ∧ body = digits.map base36Digit ∧ check = twoDigits number := by
  simp only [Bool.or_eq_true, Bool.not_eq_true', not_or, Bool.not_eq_false] at hchars
  obtain ⟨hcheck, hbody⟩ := hchars
  obtain ⟨rfl, hbodyBytes⟩ := sliceAt_eq_some_iff.mp hcut
  obtain ⟨digits, hdigits, rfl⟩ := exists_digits_of_all hbody
  have hcheckBytes : byteLength check = check.length :=
    byteLength_of_all (List.all_eq_true.mpr fun c hc =>
      isBase36_of_isDigit (List.all_eq_true.mp hcheck c hc))
  have htwo : check.length = 2 := by
    rw [byteLength_append] at hsize
    omega
  obtain ⟨first, second, rfl⟩ := List.length_eq_two.mp htwo
  simp only [List.all_cons, List.all_nil, Bool.and_true, Bool.and_eq_true] at hcheck
  obtain ⟨tens, htens, rfl⟩ := exists_digit_of_isDigit hcheck.1
  obtain ⟨ones, hones, rfl⟩ := exists_digit_of_isDigit hcheck.2
  refine ⟨digits, 10 * tens + ones, by omega, hdigits, ?_, rfl, ?_⟩
  · rw [byteLength_of_all hbody, List.length_map] at hbodyBytes
    exact hbodyBytes
  · rw [twoDigits_eq (by omega), show (10 * tens + ones) / 10 = tens by omega,
      show (10 * tens + ones) % 10 = ones by omega]

/-- A text is read as an account exactly when it is cleaned to the body of a packed
value and two digits that make the checked number one, and the account is what
was packed. -/
theorem fromStr_eq_ok_iff {s : String} {seed : UInt64} {account : AccountId} :
    AccountId.fromStr s seed = some (.ok account) ↔
      ∃ p : Packed, ∃ check < 100,
        cleanCode s.toList = base36Body p.val ++ twoDigits check ∧
        (mod97 (ibanExpand (base36Body p.val)) * 100 + check) % 97 = 1 ∧
        unpack (deobfuscate p seed) = (account.id, account.sub) := by
  constructor
  · intro hread
    rw [AccountId.fromStr] at hread
    simp only at hread
    split at hread
    next => cases hread
    next hsize =>
      rw [not_not] at hsize
      obtain ⟨⟨body, check⟩, hcut, hread⟩ := Option.map_eq_some_iff.mp hread
      obtain ⟨hjoined, -⟩ := sliceAt_eq_some_iff.mp hcut
      simp only at hread
      split at hread
      next => cases hread
      next hchars =>
        obtain ⟨digits, number, hnumber, hdigits, hlength, rfl, rfl⟩ :=
          exists_digits_of_cut hcut hsize hchars
        rw [mod97_twoDigits _ hnumber, fromStrRadix36_map hdigits hlength] at hread
        split at hread
        next => cases hread
        next hsum =>
          rw [not_not] at hsum
          simp only at hread
          split at hread
          next hobf =>
            cases hread
            refine ⟨⟨base36Number digits, hobf⟩, number, hnumber, ?_, ?_, rfl⟩
            · rw [base36Body_base36Number hdigits hlength, hjoined]
            · rwa [base36Body_base36Number hdigits hlength]
          next => cases hread
  · rintro ⟨p, check, hcheck, hclean, hsum, hunpack⟩
    exact fromStr_of_cleanCode hcheck hclean hsum hunpack

/-! ## Panics -/

/-- `c - base` on bytes; `none` where the subtraction panics. -/
def subByte (c base : Char) : Option Nat :=
  if base ≤ c then some (c.toNat - base.toNat) else none

/-- `iban_expand` with its subtraction checked. -/
def ibanExpandChecked (text : List Char) : Option (List Char) := do
  let parts ← text.mapM fun c =>
    if c.isDigit then some [c]
    else do
      let v ← subByte c 'A'
      return (toString (v + 10)).toList
  return parts.flatten

/-- `mod97` with its `u32` arithmetic checked. -/
def mod97Checked (digits : List Char) : Option Nat :=
  digits.foldlM (fun rem b => do
    let digit ← subByte b '0'
    if rem * 10 + digit < 2 ^ 32 then some ((rem * 10 + digit) % 97) else none) 0

/-- `from_str` with every slice and every subtraction checked; `none` is a panic. -/
def AccountId.fromStrChecked (s : String) (seed : UInt64) :
    Option (Except ParseAccountIdError AccountId) := do
  let cleaned := cleanCode s.toList
  if byteLength cleaned ≠ BODY_LEN + 2 then return .error ⟨⟩
  let (body, rest) ← sliceAt BODY_LEN cleaned
  let (check, _) ← sliceAt 2 rest
  if !check.all Char.isDigit || !body.all isBase36 then return .error ⟨⟩
  let expanded ← ibanExpandChecked (body ++ check)
  let rem ← mod97Checked expanded
  if rem ≠ 1 then return .error ⟨⟩
  match fromStrRadix36 body with
  | none => return .error ⟨⟩
  | some obf =>
      if hobf : obf ≤ PACK_MASK then
        let (id, sub) := unpack (deobfuscate ⟨obf, hobf⟩ seed)
        return .ok ⟨id, sub⟩
      else return .error ⟨⟩

theorem subByte_of_le {c base : Char} (hle : base.toNat ≤ c.toNat) :
    subByte c base = some (c.toNat - base.toNat) := by
  rw [subByte, if_pos]
  exact hle

theorem ibanExpandChecked_of_all {text : List Char} (htext : text.all isBase36 = true) :
    ibanExpandChecked text = some (ibanExpand text) := by
  have hparts : (text.mapM fun c =>
      if c.isDigit then some [c]
      else do
        let v ← subByte c 'A'
        return (toString (v + 10)).toList) =
      some (text.map fun c =>
        if c.isDigit then [c] else (toString (c.toNat - 'A'.toNat + 10)).toList) := by
    induction text with
    | nil => rfl
    | cons c text ih =>
        rw [List.all_cons, Bool.and_eq_true] at htext
        rw [List.mapM_cons, ih htext.2]
        by_cases hdigit : c.isDigit = true
        · simp [hdigit]
        · have hletter : c.isUpper = true := by
            rcases (Bool.or_eq_true _ _).mp htext.1 with hdigit' | hletter
            · exact absurd hdigit' hdigit
            · exact hletter
          have hrange := (isUpper_iff c).mp hletter
          have hsub : subByte c 'A' = some (c.toNat - 'A'.toNat) := subByte_of_le hrange.1
          simp [hdigit, hsub]
  rw [ibanExpandChecked, hparts, ibanExpand, List.flatMap_def]
  rfl

theorem mod97Checked_of_digits {digits : List Char} (hdigits : ∀ b ∈ digits, b.isDigit = true) :
    mod97Checked digits = some (mod97 digits) := by
  induction digits using List.reverseRecOn with
  | nil => rfl
  | append_singleton earlier last ih =>
      have hlast := (isDigit_iff last).mp (hdigits last (by simp))
      have hearlier := ih fun b hb => hdigits b (List.mem_append_left _ hb)
      have hrem := mod97_lt earlier
      have hsub : subByte last '0' = some (last.toNat - '0'.toNat) := subByte_of_le hlast.1
      have hzero : '0'.toNat = 48 := rfl
      have hfits : mod97 earlier * 10 + (last.toNat - '0'.toNat) < 2 ^ 32 := by omega
      rw [mod97Checked] at hearlier
      rw [mod97Checked, mod97, List.foldlM_append, hearlier, List.foldl_append, ← mod97]
      simp only [List.foldlM_cons, List.foldlM_nil, List.foldl_cons, List.foldl_nil, hsub, hfits,
        Option.bind_eq_bind, Option.bind_some, if_pos]
      rfl

/-- What is expanded are decimal digits. -/
theorem isDigit_of_mem_ibanExpand {text : List Char} {b : Char} (hb : b ∈ ibanExpand text) :
    b.isDigit = true := by
  obtain ⟨c, -, hb⟩ := List.mem_flatMap.mp hb
  split at hb
  next hdigit => rwa [List.mem_singleton.mp hb]
  next =>
    have hnat : (toString (c.toNat - 'A'.toNat + 10)).toList =
        Nat.toDigits 10 (c.toNat - 'A'.toNat + 10) := Nat.toList_repr
    rw [hnat] at hb
    exact Nat.isDigit_of_mem_toDigits (by decide) (by decide) hb

/-- Behind the cut no step of the reader can panic. -/
theorem fromStrChecked_eq (s : String) (seed : UInt64) :
    AccountId.fromStrChecked s seed = AccountId.fromStr s seed := by
  rw [AccountId.fromStrChecked, AccountId.fromStr, ← byteLength]
  generalize cleanCode s.toList = cleaned
  by_cases hsize : byteLength cleaned = BODY_LEN + 2
  · cases hcut : sliceAt BODY_LEN cleaned with
    | none => simp [hsize]
    | some parts =>
        obtain ⟨body, check⟩ := parts
        obtain ⟨rfl, hbody⟩ := sliceAt_eq_some_iff.mp hcut
        have hcheck : sliceAt 2 check = some (check, []) := by
          rw [byteLength_append] at hsize
          exact sliceAt_eq_some_iff.mpr ⟨(List.append_nil check).symm, by omega⟩
        simp only [hsize, hcheck, ne_eq, not_true_eq_false, if_false, Option.bind_eq_bind,
          Option.bind_some, Option.map_some, Option.pure_def]
        split
        next => rfl
        next hchars =>
          have hall : (body ++ check).all isBase36 = true := by
            simp only [Bool.or_eq_true, Bool.not_eq_true', not_or, Bool.not_eq_false] at hchars
            rw [List.all_append, hchars.2, Bool.true_and, List.all_eq_true]
            exact fun c hc => isBase36_of_isDigit (List.all_eq_true.mp hchars.1 c hc)
          rw [ibanExpandChecked_of_all hall, Option.bind_some,
            mod97Checked_of_digits fun b => isDigit_of_mem_ibanExpand, Option.bind_some]
          split
          next => rfl
          next =>
            cases fromStrRadix36 body with
            | none => rfl
            | some obf =>
                by_cases hobf : obf ≤ PACK_MASK
                · simp only [hobf, dif_pos]
                · simp only [hobf, dif_neg, not_false_eq_true]
  · simp [hsize]

/-- The characters of a text other than whitespace and dashes. -/
def keptChars (s : String) : List Char := s.toList.filter fun c => !isWhitespace c && c != '-'

/-- A text is read without a panic exactly when the characters it keeps do not take
20 bytes, or some of them take the first 18. -/
theorem isSome_fromStrChecked_iff (s : String) (seed : UInt64) :
    (AccountId.fromStrChecked s seed).isSome = true ↔
      byteLength (keptChars s) ≠ 20 ∨
      ∃ before after, keptChars s = before ++ after ∧ byteLength before = 18 := by
  have hclean : cleanCode s.toList = (keptChars s).map Char.toUpper := rfl
  rw [fromStrChecked_eq, AccountId.fromStr, ← byteLength, hclean, byteLength_map_toUpper]
  by_cases hsize : byteLength (keptChars s) = 20
  · simp only [hsize, BODY_LEN, ne_eq, not_true_eq_false, if_false, Option.isSome_map, false_or,
      Option.isSome_iff_exists, Prod.exists, sliceAt_eq_some_iff, List.map_eq_append_iff]
    constructor
    · rintro ⟨_, _, ⟨before, after, hsplit, rfl, rfl⟩, hbytes⟩
      exact ⟨before, after, hsplit, byteLength_map_toUpper before ▸ hbytes⟩
    · rintro ⟨before, after, hsplit, hbytes⟩
      exact ⟨_, _, ⟨before, after, hsplit, rfl, rfl⟩, (byteLength_map_toUpper before).trans hbytes⟩
  · simp [hsize, BODY_LEN]

/-- Seventeen letters, a letter of two bytes and another letter. -/
theorem fromStrChecked_straddled :
    AccountId.fromStrChecked "AAAAAAAAAAAAAAAAAéA" DEFAULT_ID_SEED = none := by
  decide +kernel

/-! ## Second spellings -/

theorem twoDigits_inj {first second : Nat} (hfirst : first < 100) (hsecond : second < 100)
    (heq : twoDigits first = twoDigits second) : first = second := by
  have hvalues := congrArg (List.map base36Value) heq
  rw [twoDigits_eq hfirst, twoDigits_eq hsecond] at hvalues
  simp only [List.map_cons, List.map_nil, List.cons.injEq, and_true,
    (base36Digit_spec (show first / 10 < 36 by omega)).1,
    (base36Digit_spec (show first % 10 < 36 by omega)).1,
    (base36Digit_spec (show second / 10 < 36 by omega)).1,
    (base36Digit_spec (show second % 10 < 36 by omega)).1, Option.some.injEq] at hvalues
  omega

/-- The value of a walk that ends after one turn. -/
theorem val_obfuscate_of_le {p : Packed} {seed : UInt64} (hinside : feistel94 p.val seed ≤ PACK_MASK) :
    (obfuscate p seed).val = feistel94 p.val seed := by
  change CycleWalk.walk (feistel94 · seed) (· ≤ PACK_MASK) p.val (returns_feistel94 p seed) = _
  rw [CycleWalk.walk, dif_pos hinside]

theorem asU128_ofNat {n : Nat} (hn : n < 2 ^ 63) : asU128 (Int64.ofNat n) = n := by
  have hvalue := Int64.toInt_ofNat_of_lt hn
  rw [asU128_of_nonneg (by omega), hvalue, Int.toNat_natCast]

/-- The two legs of a packed value are packed to the value. -/
theorem pack_unpack (p : Packed) : pack (unpack p).1 (unpack p).2 = p := by
  have hlt := p.lt_two_pow
  apply Subtype.ext
  change packBits (unpack p).1 (unpack p).2 = p.val
  rw [packBits_eq, unpack_eq, asU128_ofNat (by omega), asU128_ofNat (by omega)]
  omega

/-- A text that is read as an account is cleaned to the body of its code, and check
digits that are those of the code up to a multiple of 97. -/
theorem cleanCode_of_fromStr {s : String} {seed : UInt64} {account : AccountId}
    (hread : AccountId.fromStr s seed = some (.ok account)) :
    ∃ check < 100, cleanCode s.toList =
        base36Body (obfuscate (pack account.id account.sub) seed).val ++ twoDigits check ∧
      (account.display seed).toList = base36Body (obfuscate (pack account.id account.sub) seed).val ++
        twoDigits ((check + 95) % 97 + 2) := by
  obtain ⟨p, check, hcheck, hclean, hsum, hunpack⟩ := fromStr_eq_ok_iff.mp hread
  have hpacked : obfuscate (pack account.id account.sub) seed = p := by
    have hlegs := pack_unpack (deobfuscate p seed)
    rw [hunpack] at hlegs
    rw [hlegs, obfuscate_deobfuscate]
  have hdigits : checkDigits (base36Body p.val) = (check + 95) % 97 + 2 := by
    rw [checkDigits_eq]
    omega
  rw [hpacked]
  refine ⟨check, hcheck, hclean, ?_⟩
  rw [AccountId.display, String.toList_ofList, accountCode, hpacked, hdigits]

/-- An account that some text is read as is read from its own code. -/
theorem fromStr_display_of_fromStr {s : String} {seed : UInt64} {account : AccountId}
    (hread : AccountId.fromStr s seed = some (.ok account)) :
    AccountId.fromStr (account.display seed) seed = some (.ok account) := by
  obtain ⟨p, check, _, _, _, hunpack⟩ := fromStr_eq_ok_iff.mp hread
  have hpacked : pack account.id account.sub = deobfuscate p seed := by
    have hlegs := pack_unpack (deobfuscate p seed)
    rwa [hunpack] at hlegs
  have hclean : ∀ spelled, Spelling spelled (account.display seed).toList →
      cleanCode spelled = base36Body (obfuscate (pack account.id account.sub) seed).val ++
        twoDigits (checkDigits (base36Body (obfuscate (pack account.id account.sub) seed).val)) := by
    intro spelled hspelled
    rw [AccountId.display, String.toList_ofList, accountCode_eq] at hspelled
    rw [cleanCode_spelling (fun _ => codeDigits_lt) hspelled, map_codeDigits]
  apply fromStr_of_cleanCode (checkDigits_lt _) (hclean _ (.refl _)) (mod97_checkDigits _)
  rw [deobfuscate_obfuscate, hpacked, hunpack]

/-- The code of an account that was read has the body that was read, and the check
digits that were read up to a multiple of 97. The account is read from its code, and
from one other text at most. -/
theorem display_of_fromStr {s : String} {seed : UInt64} {account : AccountId}
    (hread : AccountId.fromStr s seed = some (.ok account)) :
    (∃ body : List Char, ∃ check < 100, body.length = 18 ∧
      cleanCode s.toList = body ++ twoDigits check ∧
      account.display seed = .ofList (body ++ twoDigits ((check + 95) % 97 + 2)) ∧
      (account.display seed = .ofList (cleanCode s.toList) ↔ 2 ≤ check ∧ check ≤ 98)) ∧
    AccountId.fromStr (account.display seed) seed = some (.ok account) ∧
    ∀ other : String, AccountId.fromStr other seed = some (.ok account) →
      cleanCode s.toList = (account.display seed).toList ∨
      cleanCode other.toList = (account.display seed).toList ∨
      cleanCode other.toList = cleanCode s.toList := by
  obtain ⟨check, hcheck, hclean, hdisplay⟩ := cleanCode_of_fromStr hread
  refine ⟨⟨_, check, hcheck, by simp [base36Body_eq, BODY_LEN], hclean, ?_, ?_⟩,
    fromStr_display_of_fromStr hread, fun other hother => ?_⟩
  · rw [← hdisplay, String.ofList_toList]
  · rw [← String.toList_inj, String.toList_ofList, hdisplay, hclean, List.append_cancel_left_eq]
    constructor
    · intro hsame
      have hnumber := twoDigits_inj (by omega) hcheck hsame
      omega
    · intro hrange
      rw [show (check + 95) % 97 + 2 = check by omega]
  · obtain ⟨second, hsecond, hcleanSecond, hdisplaySecond⟩ := cleanCode_of_fromStr hother
    have hsame : (check + 95) % 97 + 2 = (second + 95) % 97 + 2 := by
      rw [hdisplay, List.append_cancel_left_eq] at hdisplaySecond
      exact twoDigits_inj (by omega) (by omega) hdisplaySecond
    -- a residue has the digits of the code, and at most one number beside them
    by_cases hown : (check + 95) % 97 + 2 = check
    · exact .inl (by rw [hclean, hdisplay, hown])
    · by_cases hother : (check + 95) % 97 + 2 = second
      · exact .inr (.inl (by rw [hcleanSecond, hdisplay, hother]))
      · exact .inr (.inr (by rw [hcleanSecond, hclean, show second = check by omega]))

/-- A code is read as its account, where one turn of the cipher keeps the packed pair inside. -/
theorem fromStr_of_oneTurn {s : String} (account : AccountId) (seed : UInt64) (check : Nat)
    (hid : 0 ≤ account.id.toInt) (hsub : 0 ≤ account.sub.toInt) (hlt : account.sub.toInt < 2 ^ 30)
    (hinside : feistel94 (pack account.id account.sub).val seed ≤ PACK_MASK) (hcheck : check < 100)
    (hclean : cleanCode s.toList =
      base36Body (feistel94 (pack account.id account.sub).val seed) ++ twoDigits check)
    (hsum : (mod97 (ibanExpand (base36Body (feistel94 (pack account.id account.sub).val seed))) *
      100 + check) % 97 = 1) : AccountId.fromStr s seed = some (.ok account) := by
  rw [← val_obfuscate_of_le hinside] at hclean hsum
  refine fromStr_of_cleanCode hcheck hclean hsum ?_
  rw [deobfuscate_obfuscate, unpack_pack hid hsub hlt]

/-- The check digits 02 of this account, written as 99. -/
theorem fromStr_ninetyNine :
    AccountId.fromStr "8FSNUCCKURF8FBRFDC99" DEFAULT_ID_SEED = some (.ok ⟨11, 0⟩) :=
  fromStr_of_oneTurn ⟨11, 0⟩ DEFAULT_ID_SEED 99 (by decide) (by decide) (by decide)
    (by decide +kernel) (by decide) (by decide +kernel) (by decide +kernel)

theorem display_eleven :
    AccountId.display ⟨11, 0⟩ DEFAULT_ID_SEED = "8FSNUCCKURF8FBRFDC02" := by
  rw [AccountId.display, accountCode, val_obfuscate_of_le (by decide +kernel)]
  decide +kernel

/-- The account is read from its code and from the text with 99, and from nothing else. -/
theorem display_of_fromStr_ninetyNine :
    AccountId.fromStr "8FSNUCCKURF8FBRFDC02" DEFAULT_ID_SEED = some (.ok ⟨11, 0⟩) ∧
    ∀ other : String, AccountId.fromStr other DEFAULT_ID_SEED = some (.ok ⟨11, 0⟩) →
      cleanCode other.toList = "8FSNUCCKURF8FBRFDC02".toList ∨
      cleanCode other.toList = "8FSNUCCKURF8FBRFDC99".toList := by
  obtain ⟨-, hcode, hothers⟩ := display_of_fromStr fromStr_ninetyNine
  rw [display_eleven] at hcode
  refine ⟨hcode, fun other hother => ?_⟩
  have hclean : cleanCode "8FSNUCCKURF8FBRFDC99".toList = "8FSNUCCKURF8FBRFDC99".toList := by
    decide +kernel
  have hcases := hothers other hother
  rw [display_eleven, hclean] at hcases
  exact hcases.resolve_left (by decide +kernel)

/-- Two codes of one account. -/
theorem second_code_accepted :
    ∃ s : String, (∀ c ∈ s.toList, c.toNat < 128) ∧ ∃ seed : UInt64, ∃ account : AccountId,
      AccountId.fromStr s seed = some (.ok account) ∧
      account.display seed ≠ .ofList (cleanCode s.toList) := by
  have hascii : "8FSNUCCKURF8FBRFDC99".toList.all (·.toNat < 128) = true := by decide +kernel
  refine ⟨"8FSNUCCKURF8FBRFDC99", fun c hc => of_decide_eq_true (List.all_eq_true.mp hascii c hc),
    DEFAULT_ID_SEED, ⟨11, 0⟩, fromStr_ninetyNine, ?_⟩
  rw [display_eleven]
  decide +kernel

end Kuatia
