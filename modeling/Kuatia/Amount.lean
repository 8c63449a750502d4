import Kuatia.Collections.Decimal
import Kuatia.Money
import Kuatia.Types.Text

/-! # Amounts as text

A `Cent` is written as a decimal integer. An `Amount` writes it with a fixed number
of decimals behind a point, and reads such texts. Every number on the way is held
in the backing integer.
-/

namespace Kuatia

variable [MoneyWidth]

open MoneyWidth (backing)

namespace Cent

def toText (amount : Cent) : String := toString amount.val

def fromStr (text : String) : Option Cent :=
  (Decimal.readInt text.toList).bind fun value => (checked value).toOption

theorem fromStr_toText (amount : Cent) : fromStr amount.toText = some amount := by
  rw [fromStr, toText, Decimal.readInt_toString, Option.bind_some,
    (checked_eq_ok_iff (a := amount)).mpr rfl]
  rfl

def checkedMul (a b : Cent) : Except OverflowError Cent := checked (a.val * b.val)

end Cent

namespace CentBacking

/-- `10.checked_pow(exp)`. -/
def tenPow (exp : Nat) : Option Cent := (Cent.checked (10 ^ exp)).toOption

/-- `str::parse`: an optional sign of either kind, and digits. -/
def parseStr (text : List Char) : Option Cent :=
  (Decimal.readInt text).bind fun value => (Cent.checked value).toOption

def divRemAbs (a d : Cent) : Nat × Nat :=
  if d.val.natAbs = 0 then (0, 0) else (a.val.natAbs / d.val.natAbs, a.val.natAbs % d.val.natAbs)

end CentBacking

/-- A text format with a fixed number of decimals. -/
structure Amount where
  decimals : UInt8
  deriving DecidableEq

inductive ParseAmountError where
  | invalidFormat (text : String)
  | tooManyDecimals (max : UInt8) (found : Nat)
  deriving DecidableEq

/-- `strip_prefix('-')`, and whether there was one. -/
def stripMinus : List Char → Bool × List Char
  | '-' :: rest => (true, rest)
  | text => (false, text)

/-- `split_once('.')`, or the whole text and nothing. -/
def splitPoint (text : List Char) : List Char × List Char :=
  (text.takeWhile (· != '.'), (text.dropWhile (· != '.')).tail)

/-- `{:0<width$}`. -/
def padRight (width : Nat) (text : List Char) : List Char :=
  text ++ List.replicate (width - text.length) '0'

/-- `{:0>width$}`. -/
def padLeft (width : Nat) (text : List Char) : List Char :=
  List.replicate (width - text.length) '0' ++ text

namespace Amount

variable (amount : Amount)

/-- `ok_or_else`. -/
def okOr {α : Type} (value : Option α) (error : ParseAmountError) : Except ParseAmountError α :=
  value.elim (.error error) .ok

/-- The part before the point; nothing counts as zero. -/
def parseWhole (wholeStr : List Char) (invalid : ParseAmountError) :
    Except ParseAmountError Cent :=
  if wholeStr.isEmpty then .ok .ZERO else okOr (CentBacking.parseStr wholeStr) invalid

/-- The part behind the point, filled up with zeros. -/
def parseFrac (fracStr : List Char) (invalid : ParseAmountError) : Except ParseAmountError Cent :=
  if fracStr.isEmpty then .ok .ZERO
  else okOr (CentBacking.parseStr (padRight amount.decimals.toNat fracStr)) invalid

def parse (s : String) : Except ParseAmountError Cent :=
  let (negative, s) := stripMinus (trim s.toList)
  let (wholeStr, fracStr) := splitPoint s
  let invalid := ParseAmountError.invalidFormat (.ofList s)
  if wholeStr.isEmpty && fracStr.isEmpty then .error invalid
  else do
    let whole ← parseWhole wholeStr invalid
    if amount.decimals.toNat < byteLength fracStr then
      .error (.tooManyDecimals amount.decimals (byteLength fracStr))
    else if !fracStr.isEmpty && !fracStr.all Char.isDigit then .error invalid
    else do
      let frac ← parseFrac amount fracStr invalid
      let multiplier ← okOr (CentBacking.tenPow amount.decimals.toNat) invalid
      let scaled ← (whole.checkedMul multiplier).mapError fun _ => invalid
      let value ← (scaled.checkedAdd frac).mapError fun _ => invalid
      if negative then value.checkedNeg.mapError fun _ => invalid else .ok value

def format (cent : Cent) : String :=
  if amount.decimals = 0 then cent.toText
  else
    match CentBacking.tenPow amount.decimals.toNat with
    | none => cent.toText
    | some multiplier =>
        let (whole, frac) := CentBacking.divRemAbs cent multiplier
        let sign := if cent.isNegative then ['-'] else []
        .ofList (sign ++ (toString whole).toList ++
          '.' :: padLeft amount.decimals.toNat (toString frac).toList)

end Amount

end Kuatia
