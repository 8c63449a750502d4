import Kuatia.Collections.Permutation
import Kuatia.Types.Ids
import Kuatia.Types.Text
import Mathlib.Data.Nat.Bitwise

/-! # Account codes

The text of an account id has 18 base-36 characters and two check digits. The two
legs are packed into 93 bits, permuted under a seed and then written. A `u128` is
a number here: none of the values reaches `2 ^ 94`.
-/

namespace Kuatia

/-! ## Packing the two legs -/

def ID_BITS : Nat := 63

def SUB_BITS : UInt64 := 30

def BODY_LEN : Nat := 18

def PACK_MASK : Nat := (1 <<< (ID_BITS + SUB_BITS.toNat)) - 1

theorem PACK_MASK_eq : PACK_MASK = 2 ^ 93 - 1 := by decide

/-- `v as u128`: the sign is extended. -/
def asU128 (v : Int64) : Nat := (v.toInt % 2 ^ 128).toNat

/-- A value that a code can carry. -/
abbrev Packed := { p : Nat // p ≤ PACK_MASK }

def packBits (id sub : Int64) : Nat :=
  let id := asU128 id &&& ((1 <<< ID_BITS) - 1)
  let sub := asU128 sub &&& ((1 <<< SUB_BITS.toNat) - 1)
  (id <<< SUB_BITS.toNat) ||| sub

theorem packBits_eq (id sub : Int64) :
    packBits id sub = 2 ^ 30 * (asU128 id % 2 ^ 63) + asU128 sub % 2 ^ 30 := by
  have hlow : asU128 sub % 2 ^ 30 < 2 ^ 30 := Nat.mod_lt _ (Nat.two_pow_pos 30)
  have hbits : SUB_BITS.toNat = 30 := rfl
  rw [Nat.two_pow_add_eq_or_of_lt hlow, packBits, ID_BITS, hbits, Nat.one_shiftLeft,
    Nat.one_shiftLeft, Nat.and_two_pow_sub_one_eq_mod, Nat.and_two_pow_sub_one_eq_mod,
    Nat.shiftLeft_eq, Nat.mul_comm]

theorem packBits_le (id sub : Int64) : packBits id sub ≤ PACK_MASK := by
  rw [packBits_eq, PACK_MASK_eq]
  omega

def pack (id sub : Int64) : Packed := ⟨packBits id sub, packBits_le id sub⟩

def unpack (p : Packed) : Int64 × Int64 :=
  let sub := Int64.ofNat (p.val &&& ((1 <<< SUB_BITS.toNat) - 1))
  let id := Int64.ofNat (p.val >>> SUB_BITS.toNat)
  (id, sub)

/-! ## The body and the check digits -/

def base36Digit (digit : Nat) : Char :=
  "0123456789ABCDEFGHIJKLMNOPQRSTUVWXYZ".toList.getD digit '?'

/-- Fill the `i` free places in front of `out`, from the right. -/
def base36Loop : (i : Nat) → (v : Nat) → (out : List Char) → List Char
  | 0, _, out => out
  | i + 1, v, out =>
      if 0 < v then base36Loop i (v / 36) (base36Digit (v % 36) :: out)
      else List.replicate (i + 1) '0' ++ out

def base36Body (v : Nat) : List Char := base36Loop BODY_LEN v []

/-- Digits stay, and letters become the numbers from 10 to 35. -/
def ibanExpand (text : List Char) : List Char :=
  text.flatMap fun c =>
    if c.isDigit then [c] else (toString (c.toNat - 'A'.toNat + 10)).toList

def mod97 (digits : List Char) : Nat :=
  digits.foldl (fun rem b => (rem * 10 + (b.toNat - '0'.toNat)) % 97) 0

def checkDigits (body : List Char) : Nat := 98 - mod97 (ibanExpand (body ++ "00".toList))

/-! ## The permutation -/

def DEFAULT_ID_SEED : UInt64 := 0x9E3779B97F4A7C15

def FEISTEL_ROUNDS : Nat := 4

def mix64 (z : UInt64) : UInt64 :=
  let z := (z ^^^ (z >>> 30)) * 0xBF58476D1CE4E5B9
  let z := (z ^^^ (z >>> 27)) * 0x94D049BB133111EB
  z ^^^ (z >>> 31)

def roundKey (seed : UInt64) (round : Nat) : UInt64 :=
  mix64 (seed ^^^ (.ofNat round * 0x9E3779B97F4A7C15))

def FEISTEL_HALF_BITS : Nat := 47

def FEISTEL_HALF_MASK : Nat := (1 <<< FEISTEL_HALF_BITS) - 1

def feistel94 (block : Nat) (seed : UInt64) : Nat :=
  let l := (block >>> FEISTEL_HALF_BITS) &&& FEISTEL_HALF_MASK
  let r := block &&& FEISTEL_HALF_MASK
  let (l, r) := (List.range FEISTEL_ROUNDS).foldl (fun (l, r) round =>
    let f := (mix64 (.ofNat r ^^^ roundKey seed round)).toNat &&& FEISTEL_HALF_MASK
    (r, (l ^^^ f) &&& FEISTEL_HALF_MASK)) (l, r)
  (l <<< FEISTEL_HALF_BITS) ||| r

def feistel94Inv (block : Nat) (seed : UInt64) : Nat :=
  let l := (block >>> FEISTEL_HALF_BITS) &&& FEISTEL_HALF_MASK
  let r := block &&& FEISTEL_HALF_MASK
  let (l, r) := (List.range FEISTEL_ROUNDS).reverse.foldl (fun (l, r) round =>
    let f := (mix64 (.ofNat l ^^^ roundKey seed round)).toNat &&& FEISTEL_HALF_MASK
    ((r ^^^ f) &&& FEISTEL_HALF_MASK, l)) (l, r)
  (l <<< FEISTEL_HALF_BITS) ||| r

/-! ### It is a permutation of the 94-bit blocks -/

/-- The two halves of a block. -/
def blockHalves (block : Nat) : Nat × Nat :=
  ((block >>> FEISTEL_HALF_BITS) &&& FEISTEL_HALF_MASK, block &&& FEISTEL_HALF_MASK)

def joinHalves (halves : Nat × Nat) : Nat := (halves.1 <<< FEISTEL_HALF_BITS) ||| halves.2

/-- `(l ^ f) & FEISTEL_HALF_MASK`. -/
def mixHalf (half key : Nat) : Nat := (half ^^^ key) &&& FEISTEL_HALF_MASK

/-- The round function of a seed. -/
def roundValue (seed : UInt64) (round half : Nat) : Nat :=
  (mix64 (.ofNat half ^^^ roundKey seed round)).toNat &&& FEISTEL_HALF_MASK

theorem and_FEISTEL_HALF_MASK (n : Nat) : n &&& FEISTEL_HALF_MASK = n % 2 ^ 47 := by
  rw [FEISTEL_HALF_MASK, FEISTEL_HALF_BITS, Nat.one_shiftLeft, Nat.and_two_pow_sub_one_eq_mod]

theorem cancels_mixHalf : Feistel.Cancels mixHalf (· < 2 ^ 47) where
  valid_mix half key := by
    rw [mixHalf, and_FEISTEL_HALF_MASK]
    exact Nat.mod_lt _ (Nat.two_pow_pos 47)
  mix_mix half key hhalf := by
    rw [mixHalf, mixHalf, and_FEISTEL_HALF_MASK, and_FEISTEL_HALF_MASK, Nat.xor_mod_two_pow,
      Nat.mod_mod, ← Nat.xor_mod_two_pow, Nat.xor_assoc, Nat.xor_self, Nat.xor_zero]
    exact Nat.mod_eq_of_lt hhalf

theorem blockHalves_eq (block : Nat) :
    blockHalves block = (block / 2 ^ 47 % 2 ^ 47, block % 2 ^ 47) := by
  rw [blockHalves, and_FEISTEL_HALF_MASK, and_FEISTEL_HALF_MASK, FEISTEL_HALF_BITS,
    Nat.shiftRight_eq_div_pow]

theorem valid_blockHalves (block : Nat) : Feistel.Valid (· < 2 ^ 47) (blockHalves block) := by
  rw [blockHalves_eq]
  exact ⟨Nat.mod_lt _ (Nat.two_pow_pos 47), Nat.mod_lt _ (Nat.two_pow_pos 47)⟩

theorem joinHalves_eq {halves : Nat × Nat} (hhalves : Feistel.Valid (· < 2 ^ 47) halves) :
    joinHalves halves = 2 ^ 47 * halves.1 + halves.2 := by
  rw [Nat.two_pow_add_eq_or_of_lt hhalves.2, joinHalves, FEISTEL_HALF_BITS, Nat.shiftLeft_eq,
    Nat.mul_comm]

theorem joinHalves_lt {halves : Nat × Nat} (hhalves : Feistel.Valid (· < 2 ^ 47) halves) :
    joinHalves halves < 2 ^ 94 := by
  have hleft : halves.1 < 2 ^ 47 := hhalves.1
  have hright : halves.2 < 2 ^ 47 := hhalves.2
  rw [joinHalves_eq hhalves]
  omega

theorem blockHalves_joinHalves {halves : Nat × Nat} (hhalves : Feistel.Valid (· < 2 ^ 47) halves) :
    blockHalves (joinHalves halves) = halves := by
  have hleft : halves.1 < 2 ^ 47 := hhalves.1
  have hright : halves.2 < 2 ^ 47 := hhalves.2
  rw [blockHalves_eq, joinHalves_eq hhalves]
  ext <;> simp only <;> omega

theorem joinHalves_blockHalves {block : Nat} (hblock : block < 2 ^ 94) :
    joinHalves (blockHalves block) = block := by
  rw [joinHalves_eq (valid_blockHalves block), blockHalves_eq]
  simp only
  omega

theorem feistel94_eq (block : Nat) (seed : UInt64) :
    feistel94 block seed = joinHalves
      ((List.range FEISTEL_ROUNDS).foldl (Feistel.round mixHalf (roundValue seed))
        (blockHalves block)) := rfl

theorem feistel94Inv_eq (block : Nat) (seed : UInt64) :
    feistel94Inv block seed = joinHalves
      ((List.range FEISTEL_ROUNDS).reverse.foldl (Feistel.unround mixHalf (roundValue seed))
        (blockHalves block)) := rfl

/-- The rounds keep both halves below `2 ^ 47`, in either direction. -/
theorem valid_rounds (block : Nat) (seed : UInt64) (rounds : List Nat) :
    Feistel.Valid (· < 2 ^ 47) (rounds.foldl (Feistel.round mixHalf (roundValue seed))
      (blockHalves block)) ∧
    Feistel.Valid (· < 2 ^ 47) (rounds.foldl (Feistel.unround mixHalf (roundValue seed))
      (blockHalves block)) := by
  have hhalves := valid_blockHalves block
  refine ⟨Feistel.valid_foldl_round cancels_mixHalf _ hhalves, ?_⟩
  rw [Feistel.foldl_unround]
  have hswapped : Feistel.Valid (· < 2 ^ 47)
      (rounds.foldl (Feistel.round mixHalf (roundValue seed)) (blockHalves block).swap) :=
    Feistel.valid_foldl_round cancels_mixHalf rounds ⟨hhalves.2, hhalves.1⟩
  exact ⟨hswapped.2, hswapped.1⟩

theorem feistel94_lt (block : Nat) (seed : UInt64) : feistel94 block seed < 2 ^ 94 := by
  rw [feistel94_eq]
  exact joinHalves_lt (valid_rounds block seed _).1

theorem feistel94Inv_lt (block : Nat) (seed : UInt64) : feistel94Inv block seed < 2 ^ 94 := by
  rw [feistel94Inv_eq]
  exact joinHalves_lt (valid_rounds block seed _).2

theorem feistel94Inv_feistel94 (seed : UInt64) {block : Nat} (hblock : block < 2 ^ 94) :
    feistel94Inv (feistel94 block seed) seed = block := by
  rw [feistel94Inv_eq, feistel94_eq, blockHalves_joinHalves (valid_rounds block seed _).1,
    Feistel.unrounds_rounds cancels_mixHalf _ (valid_blockHalves block),
    joinHalves_blockHalves hblock]

theorem feistel94_feistel94Inv (seed : UInt64) {block : Nat} (hblock : block < 2 ^ 94) :
    feistel94 (feistel94Inv block seed) seed = block := by
  rw [feistel94Inv_eq, feistel94_eq, blockHalves_joinHalves (valid_rounds block seed _).2,
    Feistel.rounds_unrounds cancels_mixHalf _ (valid_blockHalves block),
    joinHalves_blockHalves hblock]

theorem Packed.lt (p : Packed) : p.val < 2 ^ 94 := p.property.trans_lt (by decide)

/-- A packed value comes back below the mask, however the blocks are permuted. -/
theorem returns_of_inverse (step back : Nat → Nat) (hlt : ∀ block, step block < 2 ^ 94)
    (hback : ∀ block < 2 ^ 94, back (step block) = block) (p : Packed) :
    CycleWalk.Returns step (· ≤ PACK_MASK) p.val :=
  CycleWalk.returns_of_injOn (Set.finite_lt_nat (2 ^ 94)) (fun block _ => hlt block)
    (fun first hfirst second hsecond heq => by rw [← hback first hfirst, heq, hback second hsecond])
    p.lt p.property

theorem returns_feistel94 (p : Packed) (seed : UInt64) :
    CycleWalk.Returns (feistel94 · seed) (· ≤ PACK_MASK) p.val :=
  returns_of_inverse _ (feistel94Inv · seed) (feistel94_lt · seed)
    (fun _ => feistel94Inv_feistel94 seed) p

theorem returns_feistel94Inv (p : Packed) (seed : UInt64) :
    CycleWalk.Returns (feistel94Inv · seed) (· ≤ PACK_MASK) p.val :=
  returns_of_inverse _ (feistel94 · seed) (feistel94Inv_lt · seed)
    (fun _ => feistel94_feistel94Inv seed) p

/-- `loop { v = feistel94(v, seed); if v <= PACK_MASK { return v; } }` -/
def obfuscate (p : Packed) (seed : UInt64) : Packed :=
  ⟨CycleWalk.walk (feistel94 · seed) (· ≤ PACK_MASK) p.val (returns_feistel94 p seed),
    CycleWalk.inside_walk (returns_feistel94 p seed)⟩

def deobfuscate (p : Packed) (seed : UInt64) : Packed :=
  ⟨CycleWalk.walk (feistel94Inv · seed) (· ≤ PACK_MASK) p.val (returns_feistel94Inv p seed),
    CycleWalk.inside_walk (returns_feistel94Inv p seed)⟩

/-! ## Text -/

/-- `{:02}`. -/
def twoDigits (n : Nat) : List Char :=
  if n < 10 then '0' :: (toString n).toList else (toString n).toList

def accountCode (account : AccountId) (seed : UInt64) : List Char :=
  let body := base36Body (obfuscate (pack account.id account.sub) seed).val
  body ++ twoDigits (checkDigits body)

/-- The machine form of an account id. -/
def AccountId.display (account : AccountId) (seed : UInt64) : String :=
  .ofList (accountCode account seed)

/-- The text is not a valid account code. -/
structure ParseAccountIdError where
  deriving DecidableEq

def isBase36 (c : Char) : Bool := c.isDigit || c.isUpper

def base36Value (c : Char) : Option Nat :=
  if c.isDigit then some (c.toNat - '0'.toNat)
  else if c.isUpper then some (c.toNat - 'A'.toNat + 10)
  else if c.isLower then some (c.toNat - 'a'.toNat + 10)
  else none

/-- `u128::from_str_radix(text, 36)`, for a text without a sign. -/
def fromStrRadix36 (text : List Char) : Option Nat :=
  if text.isEmpty then none
  else text.foldlM (fun value c => do
    let digit ← base36Value c
    if value * 36 + digit < 2 ^ 128 then some (value * 36 + digit) else none) 0

/-- Separators are dropped, and letters are put in upper case. -/
def cleanCode (text : List Char) : List Char :=
  (text.filter fun c => !isWhitespace c && c != '-').map Char.toUpper

/-- Read an account code. The outer `none` is a panic. -/
def AccountId.fromStr (s : String) (seed : UInt64) :
    Option (Except ParseAccountIdError AccountId) :=
  let cleaned := cleanCode s.toList
  if (cleaned.map Char.utf8Size).sum ≠ BODY_LEN + 2 then some (.error ⟨⟩)
  else
    (sliceAt BODY_LEN cleaned).map fun (body, check) =>
      if !check.all Char.isDigit || !body.all isBase36 then .error ⟨⟩
      else if mod97 (ibanExpand (body ++ check)) ≠ 1 then .error ⟨⟩
      else
        match fromStrRadix36 body with
        | none => .error ⟨⟩
        | some obf =>
            if hobf : obf ≤ PACK_MASK then
              let (id, sub) := unpack (deobfuscate ⟨obf, hobf⟩ seed)
              .ok ⟨id, sub⟩
            else .error ⟨⟩

end Kuatia
