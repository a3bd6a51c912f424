import MiLanguage.Text.Digits

set_option autoImplicit false

namespace MiLanguage

/-- A binary floating point format: so many bits of precision, and the exponent of the smallest
positive value. -/
structure BinaryFormat where
  precision : Nat
  minExponent : Int
  exponentBits : Nat

inductive FloatValue where
  | nan
  | infinite (negative : Bool)
  -- `mantissa * 2 ^ exponent`, with a sign that zero has as well.
  | finite (negative : Bool) (mantissa : Nat) (exponent : Int)
  deriving DecidableEq, Repr

namespace BinaryFormat

def double : BinaryFormat := ⟨53, -1074, 11⟩
def single : BinaryFormat := ⟨24, -149, 8⟩

-- The number of bits below the exponent field, which the leading bit is not stored in.
def fractionBits (f : BinaryFormat) : Nat := f.precision - 1
def maxExponentField (f : BinaryFormat) : Nat := Nat.pow 2 f.exponentBits - 1
def signBit (f : BinaryFormat) : Nat := Nat.pow 2 (f.fractionBits + f.exponentBits)
def infinityBits (f : BinaryFormat) : Nat := f.maxExponentField * Nat.pow 2 f.fractionBits

-- Every finite value is below two to this power.
def maxExponent (f : BinaryFormat) : Int := f.minExponent + f.precision + f.maxExponentField - 2

def decode (f : BinaryFormat) (bits : Nat) : FloatValue :=
  let negative := f.signBit ≤ bits
  let magnitude := bits % f.signBit
  let field := magnitude / Nat.pow 2 f.fractionBits
  let fraction := magnitude % Nat.pow 2 f.fractionBits
  if field = f.maxExponentField then
    if fraction = 0 then .infinite negative else .nan
  else if field = 0 then .finite negative fraction f.minExponent
  else .finite negative (fraction + Nat.pow 2 f.fractionBits) (f.minExponent + (field - 1))

-- A half goes to the even neighbour.
def roundDiv (num den : Nat) : Nat :=
  let quotient := num / den
  let twice := 2 * (num % den)
  if twice < den then quotient
  else if den < twice then quotient + 1
  else quotient + quotient % 2

-- `num / den` in units of `2 ^ exponent`.
def inUnits (num den : Nat) (exponent : Int) : Nat × Nat :=
  if 0 ≤ exponent then (num, den * Nat.pow 2 exponent.toNat)
  else (num * Nat.pow 2 (-exponent).toNat, den)

-- The bits of the value nearest to `num / den`.
def nearest (f : BinaryFormat) (num den : Nat) : Nat :=
  if num = 0 then 0
  else
    let guess : Int := max f.minExponent (num.log2 - den.log2 - f.precision)
    let (n, d) := inUnits num den guess
    let exponent := if n / d < Nat.pow 2 f.precision then guess else guess + 1
    let (n, d) := inUnits num den exponent
    min f.infinityBits
      ((exponent - f.minExponent).toNat * Nat.pow 2 f.fractionBits + roundDiv n d)

end BinaryFormat

/-- `digits * 10 ^ exponent`. -/
structure Decimal where
  digits : Nat
  exponent : Int
  deriving DecidableEq, Repr

/-- The numbers `low / den` to `high / den` that round to `value / den`, which lies between. -/
structure RoundingInterval where
  low : Nat
  value : Nat
  high : Nat
  den : Nat
  closed : Bool

namespace RoundingInterval

-- In quarters of a unit, so that half the gap to either neighbour is a whole number. Below a power
-- of two the gap is half as wide, unless the exponent is the smallest.
def ofFloat (f : BinaryFormat) (mantissa : Nat) (exponent : Int) : RoundingInterval :=
  let below := if mantissa = Nat.pow 2 f.fractionBits && f.minExponent < exponent then 1 else 2
  let scale : Int := exponent - 2
  let up := Nat.pow 2 scale.toNat
  { low := (4 * mantissa - below) * up
    value := 4 * mantissa * up
    high := (4 * mantissa + 2) * up
    den := Nat.pow 2 (-scale).toNat
    closed := mantissa % 2 = 0 }

-- `num / den` against `d`, both times the same power of ten.
def crossed (num den : Nat) (d : Decimal) : Nat × Nat :=
  (num * Nat.pow 10 (-d.exponent).toNat, d.digits * den * Nat.pow 10 d.exponent.toNat)

def contains (i : RoundingInterval) (d : Decimal) : Bool :=
  let (low, n) := crossed i.low i.den d
  let (high, _) := crossed i.high i.den d
  if i.closed then low ≤ n && n ≤ high else low < n && n < high

-- The least `k` with `value < 10 ^ k`.
def magnitude (i : RoundingInterval) : Int :=
  if i.den ≤ i.value then digitCount (i.value / i.den)
  else 1 - digitCount ((i.den + i.value - 1) / i.value - 1)

-- The neighbours of the value on the grid of `count` digits; the nearer one that is inside.
def onGrid (i : RoundingInterval) (count : Nat) : Option Decimal :=
  let exponent := i.magnitude - count
  let num := i.value * Nat.pow 10 (-exponent).toNat
  let den := i.den * Nat.pow 10 exponent.toNat
  let low : Decimal := ⟨num / den, exponent⟩
  let high : Decimal := ⟨num / den + 1, exponent⟩
  let nearer := if 2 * (num % den) < den then [low, high] else [high, low]
  nearer.find? i.contains

-- The fewest digits that read back as the value. Seventeen always do.
def shortest (i : RoundingInterval) : Decimal :=
  ((List.range 17).findSome? fun n => i.onGrid (n + 1)).getD ⟨0, 0⟩

end RoundingInterval

namespace Decimal

def trimZeros (fraction : List Char) : List Char := (fraction.reverse.dropWhile (· = '0')).reverse

-- Positional, never with an exponent, and without a point if no fraction follows it.
def text (d : Decimal) : String :=
  let digits := Nat.toDigits 10 d.digits ++ List.replicate d.exponent.toNat '0'
  let places := (-d.exponent).toNat
  let padded := List.replicate (places + 1 - digits.length) '0' ++ digits
  let whole := padded.take (padded.length - places)
  match trimZeros (padded.drop (padded.length - places)) with
  | [] => String.ofList whole
  | fraction => String.ofList (whole ++ '.' :: fraction)

end Decimal

def FloatValue.text (f : BinaryFormat) : FloatValue → String
  | .nan => "NaN"
  | .infinite negative => if negative then "-inf" else "inf"
  | .finite negative mantissa exponent =>
      let magnitude :=
        if mantissa = 0 then "0" else (RoundingInterval.ofFloat f mantissa exponent).shortest.text
      if negative then "-" ++ magnitude else magnitude

/-- A decimal number with an optional point and exponent, as bits of the format. -/
structure DecimalText where
  negative : Bool
  digits : Nat
  exponent : Int

namespace DecimalText

def readExponent : List Char → Option Int
  | '-' :: cs => if cs.isEmpty || !cs.all Char.isDigit then none else some (-digitsValue 10 cs)
  | '+' :: cs => if cs.isEmpty || !cs.all Char.isDigit then none else some (digitsValue 10 cs)
  | cs => if cs.isEmpty || !cs.all Char.isDigit then none else some (digitsValue 10 cs)

def readMagnitude (negative : Bool) (cs : List Char) : Option DecimalText := do
  let whole := cs.takeWhile Char.isDigit
  let afterWhole := cs.dropWhile Char.isDigit
  let (fraction, rest) := match afterWhole with
    | '.' :: cs => (cs.takeWhile Char.isDigit, cs.dropWhile Char.isDigit)
    | cs => ([], cs)
  if whole.isEmpty && fraction.isEmpty then none
  let exponent ← match rest with
    | [] => some 0
    | c :: cs => if c.toLower = 'e' then readExponent cs else none
  some ⟨negative, digitsValue 10 (whole ++ fraction), exponent - fraction.length⟩

def read (text : String) : Option DecimalText :=
  match text.toList with
  | '-' :: cs => readMagnitude true cs
  | '+' :: cs => readMagnitude false cs
  | cs => readMagnitude false cs

-- The number is below ten to this power, and not below the power before unless it is zero.
def order (d : DecimalText) : Int := digitCount d.digits + d.exponent

-- Numbers far outside of the format's range are not worked out.
def magnitudeBits (f : BinaryFormat) (d : DecimalText) : Nat :=
  if d.digits = 0 || d.order < f.minExponent then 0
  else if f.maxExponent < d.order then f.infinityBits
  else f.nearest (d.digits * Nat.pow 10 d.exponent.toNat) (Nat.pow 10 (-d.exponent).toNat)

def bits (f : BinaryFormat) (d : DecimalText) : Nat :=
  d.magnitudeBits f + if d.negative then f.signBit else 0

end DecimalText

-- Reads what `FloatValue.text` writes, and numbers with an exponent besides.
def BinaryFormat.read (f : BinaryFormat) (text : String) : Option Nat :=
  match text with
  | "NaN" => some (f.infinityBits + Nat.pow 2 (f.fractionBits - 1))
  | "inf" => some f.infinityBits
  | "-inf" => some (f.signBit + f.infinityBits)
  | _ => (DecimalText.read text).map (·.bits f)

end MiLanguage
