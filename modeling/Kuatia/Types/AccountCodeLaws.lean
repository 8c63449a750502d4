import Kuatia.Types.AccountCode
import Mathlib.Tactic.Ring

/-! # Account codes read back

Each stage of writing a code has an inverse: the legs are unpacked, the walk of
the permutation is walked back, the base-36 digits are the value again, and the
check digits make the checked number one modulo 97. Spaces, dashes and the case
of letters do not matter to the reader.
-/

namespace Kuatia

/-! ## The two legs -/

theorem asU128_of_nonneg {v : Int64} (hnonneg : 0 ≤ v.toInt) : asU128 v = v.toInt.toNat := by
  have hlt := v.toInt_lt
  rw [asU128, Int.emod_eq_of_lt hnonneg (by omega)]

theorem ofNat_toNat {v : Int64} (hnonneg : 0 ≤ v.toInt) : Int64.ofNat v.toInt.toNat = v := by
  rw [← Int64.ofInt_eq_ofNat, Int.toNat_of_nonneg hnonneg, Int64.ofInt_toInt]

theorem unpack_eq (p : Packed) :
    unpack p = (Int64.ofNat (p.val / 2 ^ 30), Int64.ofNat (p.val % 2 ^ 30)) := by
  have hbits : SUB_BITS.toNat = 30 := rfl
  rw [unpack, hbits, Nat.one_shiftLeft, Nat.and_two_pow_sub_one_eq_mod, Nat.shiftRight_eq_div_pow]

theorem unpack_pack {id sub : Int64} (hid : 0 ≤ id.toInt) (hsub : 0 ≤ sub.toInt)
    (hlt : sub.toInt < 2 ^ 30) : unpack (pack id sub) = (id, sub) := by
  have hbound := id.toInt_lt
  have hidWord : asU128 id % 2 ^ 63 = id.toInt.toNat := by
    rw [asU128_of_nonneg hid]
    exact Nat.mod_eq_of_lt (by omega)
  have hsubWord : asU128 sub % 2 ^ 30 = sub.toInt.toNat := by
    rw [asU128_of_nonneg hsub]
    exact Nat.mod_eq_of_lt (by omega)
  have hvalue : (pack id sub).val = 2 ^ 30 * id.toInt.toNat + sub.toInt.toNat := by
    rw [← hidWord, ← hsubWord]
    exact packBits_eq id sub
  have hlow : (pack id sub).val % 2 ^ 30 = sub.toInt.toNat := by omega
  have hhigh : (pack id sub).val / 2 ^ 30 = id.toInt.toNat := by omega
  rw [unpack_eq, hlow, hhigh, ofNat_toNat hid, ofNat_toNat hsub]

/-! ## The permutation -/

theorem deobfuscate_obfuscate (p : Packed) (seed : UInt64) :
    deobfuscate (obfuscate p seed) seed = p := by
  apply Subtype.ext
  have hmaps : Set.MapsTo (feistel94 · seed) {block | block < 2 ^ 94} {block | block < 2 ^ 94} :=
    fun block _ => feistel94_lt block seed
  exact CycleWalk.walk_walk hmaps (fun _ => feistel94Inv_feistel94 seed) p.lt p.property rfl
    (returns_feistel94Inv (obfuscate p seed) seed)

theorem obfuscate_deobfuscate (p : Packed) (seed : UInt64) :
    obfuscate (deobfuscate p seed) seed = p := by
  apply Subtype.ext
  have hmaps : Set.MapsTo (feistel94Inv · seed) {block | block < 2 ^ 94} {block | block < 2 ^ 94} :=
    fun block _ => feistel94Inv_lt block seed
  exact CycleWalk.walk_walk hmaps (fun _ => feistel94_feistel94Inv seed) p.lt p.property rfl
    (returns_feistel94 (deobfuscate p seed) seed)

/-- The loop of `obfuscate`, cut off after `fuel` turns. -/
def obfuscateWithin (fuel p : Nat) (seed : UInt64) : Option Nat :=
  CycleWalk.walkWithin (feistel94 · seed) (· ≤ PACK_MASK) fuel p

/-- The loop of `deobfuscate`, cut off after `fuel` turns. -/
def deobfuscateWithin (fuel y : Nat) (seed : UInt64) : Option Nat :=
  CycleWalk.walkWithin (feistel94Inv · seed) (· ≤ PACK_MASK) fuel y

theorem Packed.lt_two_pow (p : Packed) : p.val < 2 ^ 93 := p.property.trans_lt (by decide)

/-- On every packed value both loops end below `2 ^ 93`, and each takes the value
that the other ends at back to where it has started. -/
theorem obfuscate_permutes (seed : UInt64) (p : Packed) :
    (∃ enough, ∀ fuel, enough ≤ fuel →
      obfuscateWithin fuel p.val seed = some (obfuscate p seed).val) ∧
    (∃ enough, ∀ fuel, enough ≤ fuel →
      deobfuscateWithin fuel p.val seed = some (deobfuscate p seed).val) ∧
    (obfuscate p seed).val < 2 ^ 93 ∧ (deobfuscate p seed).val < 2 ^ 93 ∧
    deobfuscate (obfuscate p seed) seed = p ∧ obfuscate (deobfuscate p seed) seed = p :=
  ⟨CycleWalk.exists_walkWithin (returns_feistel94 p seed),
    CycleWalk.exists_walkWithin (returns_feistel94Inv p seed),
    (obfuscate p seed).lt_two_pow, (deobfuscate p seed).lt_two_pow,
    deobfuscate_obfuscate p seed, obfuscate_deobfuscate p seed⟩

/-! ## Base-36 digits -/

theorem base36Digit_spec {digit : Nat} (hdigit : digit < 36) :
    base36Value (base36Digit digit) = some digit ∧ isBase36 (base36Digit digit) = true := by
  have hall : ∀ digit : Fin 36, base36Value (base36Digit digit.val) = some digit.val ∧
      isBase36 (base36Digit digit.val) = true := by decide
  exact hall ⟨digit, hdigit⟩

/-- The last `i` base-36 digits of a value. -/
def base36Digits : (i : Nat) → (v : Nat) → List Nat
  | 0, _ => []
  | i + 1, v => base36Digits i (v / 36) ++ [v % 36]

@[simp] theorem length_base36Digits (i v : Nat) : (base36Digits i v).length = i := by
  induction i generalizing v with
  | zero => rfl
  | succ i ih => simp [base36Digits, ih]

theorem lt_of_mem_base36Digits {i v digit : Nat} (hdigit : digit ∈ base36Digits i v) :
    digit < 36 := by
  induction i generalizing v with
  | zero => cases hdigit
  | succ i ih =>
      rcases List.mem_append.mp hdigit with hearlier | hlast
      · exact ih hearlier
      · rw [List.mem_singleton.mp hlast]
        exact Nat.mod_lt _ (by decide)

theorem base36Digits_zero (i : Nat) : base36Digits i 0 = List.replicate i 0 := by
  induction i with
  | zero => rfl
  | succ i ih => rw [base36Digits, Nat.zero_div, ih, Nat.zero_mod, List.replicate_succ']

theorem base36Loop_eq (i v : Nat) (out : List Char) :
    base36Loop i v out = (base36Digits i v).map base36Digit ++ out := by
  induction i generalizing v out with
  | zero => rfl
  | succ i ih =>
      rw [base36Loop]
      split
      next hpos => rw [ih, base36Digits]; simp
      next hzero =>
        rw [Nat.eq_zero_of_not_pos hzero, base36Digits_zero, List.map_replicate]
        rfl

theorem base36Body_eq (v : Nat) : base36Body v = (base36Digits BODY_LEN v).map base36Digit := by
  rw [base36Body, base36Loop_eq, List.append_nil]

/-- Reading goes on from the value read so far. -/
theorem foldlM_base36Digits (i v earlier : Nat) (hv : v < 36 ^ i)
    (hfits : earlier * 36 ^ i + v < 2 ^ 128) :
    ((base36Digits i v).map base36Digit).foldlM (fun value c => do
      let digit ← base36Value c
      if value * 36 + digit < 2 ^ 128 then some (value * 36 + digit) else none) earlier =
      some (earlier * 36 ^ i + v) := by
  induction i generalizing v with
  | zero =>
      have hzero : v = 0 := by omega
      simp [base36Digits, hzero]
  | succ i ih =>
      have hstep : (earlier * 36 ^ i + v / 36) * 36 + v % 36 = earlier * 36 ^ (i + 1) + v := by
        rw [Nat.pow_succ, Nat.add_mul, Nat.mul_assoc, Nat.add_assoc, Nat.div_add_mod']
      have hrest : earlier * 36 ^ i + v / 36 < 2 ^ 128 := by omega
      have hearlier := ih (v / 36) (Nat.div_lt_of_lt_mul (by rwa [Nat.pow_succ'] at hv)) hrest
      rw [base36Digits, List.map_append, List.foldlM_append, hearlier, Option.bind_eq_bind,
        Option.bind_some, List.map_singleton, List.foldlM_cons,
        (base36Digit_spec (Nat.mod_lt v (by decide))).1, Option.bind_eq_bind, Option.bind_some,
        hstep, if_pos hfits]
      rfl

theorem fromStrRadix36_base36Body (p : Packed) : fromStrRadix36 (base36Body p.val) = some p.val := by
  have hle : p.val ≤ 2 ^ 93 - 1 := PACK_MASK_eq ▸ p.property
  have hlength : base36Body p.val ≠ [] := by
    rw [base36Body_eq, ← List.length_pos_iff, List.length_map, length_base36Digits]
    decide
  rw [fromStrRadix36, if_neg (by simpa using hlength), base36Body_eq, BODY_LEN,
    foldlM_base36Digits 18 p.val 0 (by omega) (by omega), Nat.zero_mul, Nat.zero_add]

/-! ## Check digits -/

theorem twoDigits_eq {n : Nat} (hn : n < 100) :
    twoDigits n = [base36Digit (n / 10), base36Digit (n % 10)] := by
  have hall : ∀ n : Fin 100,
      twoDigits n.val = [base36Digit (n.val / 10), base36Digit (n.val % 10)] := by
    decide +kernel
  exact hall ⟨n, hn⟩

theorem base36Digit_isDigit {digit : Nat} (hdigit : digit < 10) :
    (base36Digit digit).isDigit = true ∧ (base36Digit digit).toNat - '0'.toNat = digit := by
  have hall : ∀ digit : Fin 10, (base36Digit digit.val).isDigit = true ∧
      (base36Digit digit.val).toNat - '0'.toNat = digit.val := by decide
  exact hall ⟨digit, hdigit⟩

/-- Two decimal digits behind a text. -/
theorem mod97_ibanExpand_append (text : List Char) {first second : Nat} (hfirst : first < 10)
    (hsecond : second < 10) :
    mod97 (ibanExpand (text ++ [base36Digit first, base36Digit second])) =
      (mod97 (ibanExpand text) * 100 + first * 10 + second) % 97 := by
  obtain ⟨hfirstDigit, hfirstValue⟩ := base36Digit_isDigit hfirst
  obtain ⟨hsecondDigit, hsecondValue⟩ := base36Digit_isDigit hsecond
  have hexpand : ibanExpand (text ++ [base36Digit first, base36Digit second]) =
      ibanExpand text ++ [base36Digit first, base36Digit second] := by
    simp [ibanExpand, hfirstDigit, hsecondDigit]
  rw [hexpand, mod97, List.foldl_append, ← mod97, List.foldl_cons, List.foldl_cons, List.foldl_nil,
    hfirstValue, hsecondValue]
  omega

theorem mod97_lt (digits : List Char) : mod97 digits < 97 := by
  rcases List.eq_nil_or_concat digits with rfl | ⟨earlier, last, rfl⟩
  · decide
  · rw [mod97, List.concat_eq_append, List.foldl_append]
    exact Nat.mod_lt _ (by decide)

theorem checkDigits_eq (body : List Char) :
    checkDigits body = 98 - mod97 (ibanExpand body) * 100 % 97 := by
  have hzeros : "00".toList = [base36Digit 0, base36Digit 0] := by decide
  rw [checkDigits, hzeros, mod97_ibanExpand_append body (by decide) (by decide)]
  rfl

theorem checkDigits_lt (body : List Char) : checkDigits body < 100 := by
  rw [checkDigits_eq]
  omega

/-- The checksum of a body and two decimal digits. -/
theorem mod97_twoDigits (body : List Char) {check : Nat} (hcheck : check < 100) :
    mod97 (ibanExpand (body ++ twoDigits check)) =
      (mod97 (ibanExpand body) * 100 + check) % 97 := by
  rw [twoDigits_eq hcheck, mod97_ibanExpand_append body (by omega) (by omega)]
  congr 1
  omega

/-- The check digits make the checked number one. -/
theorem mod97_checkDigits (body : List Char) :
    (mod97 (ibanExpand body) * 100 + checkDigits body) % 97 = 1 := by
  rw [checkDigits_eq]
  omega

/-! ## Spellings of a code -/

/-- Another way to write a text: with separators put in anywhere, and any of its
letters in lower case. -/
inductive Spelling : List Char → List Char → Prop
  | nil : Spelling [] []
  | whitespace (c : Char) (hwhite : isWhitespace c = true) {spelled text : List Char} :
      Spelling spelled text → Spelling (c :: spelled) text
  | dash {spelled text : List Char} : Spelling spelled text → Spelling ('-' :: spelled) text
  | same (c : Char) {spelled text : List Char} :
      Spelling spelled text → Spelling (c :: spelled) (c :: text)
  | lower (c : Char) {spelled text : List Char} :
      Spelling spelled text → Spelling (c.toLower :: spelled) (c :: text)

theorem Spelling.refl (text : List Char) : Spelling text text := by
  induction text with
  | nil => exact .nil
  | cons c text ih => exact .same c ih

theorem cleanCode_cons_kept {c : Char} (hkept : (!isWhitespace c && c != '-') = true)
    (text : List Char) : cleanCode (c :: text) = c.toUpper :: cleanCode text := by
  rw [cleanCode, List.filter_cons, if_pos hkept, List.map_cons, ← cleanCode]

theorem cleanCode_cons_dropped {c : Char} (hdropped : (!isWhitespace c && c != '-') = false)
    (text : List Char) : cleanCode (c :: text) = cleanCode text := by
  rw [cleanCode, List.filter_cons, hdropped]
  rfl

/-- The characters of a code survive cleaning, in either case, and take a byte each. -/
theorem base36Digit_cleaned {digit : Nat} (hdigit : digit < 36) :
    (!isWhitespace (base36Digit digit) && base36Digit digit != '-') = true ∧
    (base36Digit digit).toUpper = base36Digit digit ∧
    (!isWhitespace (base36Digit digit).toLower && (base36Digit digit).toLower != '-') = true ∧
    (base36Digit digit).toLower.toUpper = base36Digit digit ∧
    (base36Digit digit).utf8Size = 1 := by
  have hall : ∀ digit : Fin 36,
      (!isWhitespace (base36Digit digit.val) && base36Digit digit.val != '-') = true ∧
      (base36Digit digit.val).toUpper = base36Digit digit.val ∧
      (!isWhitespace (base36Digit digit.val).toLower &&
        (base36Digit digit.val).toLower != '-') = true ∧
      (base36Digit digit.val).toLower.toUpper = base36Digit digit.val ∧
      (base36Digit digit.val).utf8Size = 1 := by decide +kernel
  exact hall ⟨digit, hdigit⟩

theorem byteLength_map_base36Digit {digits : List Nat} (hdigits : ∀ digit ∈ digits, digit < 36) :
    byteLength (digits.map base36Digit) = digits.length := by
  rw [byteLength_of_forall, List.length_map]
  intro c hc
  obtain ⟨digit, hdigit, rfl⟩ := List.mem_map.mp hc
  exact (base36Digit_cleaned (hdigits digit hdigit)).2.2.2.2

/-- Cleaning a spelling of a code gives the code. -/
theorem cleanCode_spelling {spelled : List Char} {digits : List Nat}
    (hdigits : ∀ digit ∈ digits, digit < 36)
    (hspelling : Spelling spelled (digits.map base36Digit)) :
    cleanCode spelled = digits.map base36Digit := by
  generalize htext : digits.map base36Digit = text at hspelling
  induction hspelling generalizing digits with
  | nil => rfl
  | whitespace c hwhite _ ih =>
      rw [cleanCode_cons_dropped (by simp [hwhite])]
      exact ih hdigits htext
  | dash _ ih =>
      rw [cleanCode_cons_dropped (by simp)]
      exact ih hdigits htext
  | same c _ ih =>
      cases digits with
      | nil => cases htext
      | cons digit digits =>
          cases htext
          obtain ⟨hkept, hupper, -⟩ := base36Digit_cleaned (hdigits digit List.mem_cons_self)
          rw [cleanCode_cons_kept hkept, hupper]
          exact congrArg _ (ih (fun later hlater => hdigits later (List.mem_cons_of_mem _ hlater)) rfl)
  | lower c _ ih =>
      cases digits with
      | nil => cases htext
      | cons digit digits =>
          cases htext
          obtain ⟨-, -, hkept, hupper, -⟩ := base36Digit_cleaned (hdigits digit List.mem_cons_self)
          rw [cleanCode_cons_kept hkept, hupper]
          exact congrArg _ (ih (fun later hlater => hdigits later (List.mem_cons_of_mem _ hlater)) rfl)

/-! ## The round trip -/

/-- The digits of the code of a packed value, the check digits last. -/
def codeDigits (p : Packed) : List Nat :=
  base36Digits BODY_LEN p.val ++
    [checkDigits (base36Body p.val) / 10, checkDigits (base36Body p.val) % 10]

theorem lt_of_mem_code {i v check : Nat} (hcheck : check < 100) :
    ∀ digit ∈ base36Digits i v ++ [check / 10, check % 10], digit < 36 := by
  intro digit hdigit
  rcases List.mem_append.mp hdigit with hbody | hlast
  · exact lt_of_mem_base36Digits hbody
  · simp only [List.mem_cons, List.not_mem_nil, or_false] at hlast
    omega

theorem codeDigits_lt {p : Packed} {digit : Nat} (hdigit : digit ∈ codeDigits p) : digit < 36 :=
  lt_of_mem_code (checkDigits_lt _) digit hdigit

theorem map_codeDigits (p : Packed) : (codeDigits p).map base36Digit =
    base36Body p.val ++ twoDigits (checkDigits (base36Body p.val)) := by
  rw [codeDigits, List.map_append, ← base36Body_eq, twoDigits_eq (checkDigits_lt _)]
  rfl

theorem accountCode_eq (account : AccountId) (seed : UInt64) :
    accountCode account seed =
      (codeDigits (obfuscate (pack account.id account.sub) seed)).map base36Digit :=
  (map_codeDigits _).symm

theorem all_isBase36_base36Body (v : Nat) : (base36Body v).all isBase36 = true := by
  rw [base36Body_eq, List.all_map, List.all_eq_true]
  exact fun digit hdigit => (base36Digit_spec (lt_of_mem_base36Digits hdigit)).2

theorem all_isDigit_twoDigits {n : Nat} (hn : n < 100) :
    (twoDigits n).all Char.isDigit = true := by
  rw [twoDigits_eq hn]
  simp [base36Digit_isDigit (show n / 10 < 10 by omega),
    base36Digit_isDigit (Nat.mod_lt n (show 0 < 10 by decide))]

/-- A text that is cleaned to the body of a packed value and two digits that
satisfy the checksum is read as what was packed. -/
theorem fromStr_of_cleanCode {s : String} {p : Packed} {check : Nat} {account : AccountId}
    {seed : UInt64} (hcheck : check < 100)
    (hclean : cleanCode s.toList = base36Body p.val ++ twoDigits check)
    (hsum : (mod97 (ibanExpand (base36Body p.val)) * 100 + check) % 97 = 1)
    (hunpack : unpack (deobfuscate p seed) = (account.id, account.sub)) :
    AccountId.fromStr s seed = some (.ok account) := by
  have hbody : byteLength (base36Body p.val) = BODY_LEN := by
    rw [base36Body_eq, byteLength_map_base36Digit fun _ => lt_of_mem_base36Digits,
      length_base36Digits]
  have hsize : ((base36Body p.val ++ twoDigits check).map Char.utf8Size).sum = BODY_LEN + 2 := by
    rw [← byteLength, byteLength_append, hbody, twoDigits_eq hcheck, byteLength_cons,
      byteLength_cons, (base36Digit_cleaned (show check / 10 < 36 by omega)).2.2.2.2,
      (base36Digit_cleaned (show check % 10 < 36 by omega)).2.2.2.2]
    rfl
  have hcut : sliceAt BODY_LEN (base36Body p.val ++ twoDigits check) =
      some (base36Body p.val, twoDigits check) := sliceAt_eq_some_iff.mpr ⟨rfl, hbody⟩
  rw [AccountId.fromStr, hclean]
  simp only [hsize, ne_eq, not_true_eq_false, if_false, hcut, Option.map_some,
    all_isDigit_twoDigits hcheck, all_isBase36_base36Body, Bool.not_true, Bool.or_self,
    Bool.false_eq_true, mod97_twoDigits _ hcheck, hsum, fromStrRadix36_base36Body, p.property,
    dif_pos, hunpack]

/-- The code of an account whose legs fit is read back as the account, and so is
any spelling of the code. -/
theorem fromStr_display (account : AccountId) (hid : 0 ≤ account.id.toInt)
    (hsub : 0 ≤ account.sub.toInt) (hlt : account.sub.toInt < 2 ^ 30) (seed : UInt64) :
    AccountId.fromStr (account.display seed) seed = some (.ok account) ∧
      ∀ spelled : String, Spelling spelled.toList (account.display seed).toList →
        AccountId.fromStr spelled seed = some (.ok account) := by
  have hspellings : ∀ spelled : String, Spelling spelled.toList (account.display seed).toList →
      AccountId.fromStr spelled seed = some (.ok account) := by
    intro spelled hspelling
    rw [AccountId.display, String.toList_ofList, accountCode_eq] at hspelling
    have hclean := cleanCode_spelling (fun _ => codeDigits_lt) hspelling
    rw [map_codeDigits] at hclean
    apply fromStr_of_cleanCode (checkDigits_lt _) hclean (mod97_checkDigits _)
    rw [deobfuscate_obfuscate, unpack_pack hid hsub hlt]
  exact ⟨hspellings _ (.refl _), hspellings⟩

/-- A code behind a space and a dash. -/
theorem fromStr_display_separated :
    AccountId.fromStr (.ofList (' ' :: '-' :: (AccountId.display ⟨5, 7⟩ DEFAULT_ID_SEED).toList))
      DEFAULT_ID_SEED = some (.ok ⟨5, 7⟩) := by
  apply (fromStr_display ⟨5, 7⟩ (by decide) (by decide) (by decide) DEFAULT_ID_SEED).2
  rw [String.toList_ofList]
  exact .whitespace ' ' (by decide) (.dash (.refl _))

end Kuatia
