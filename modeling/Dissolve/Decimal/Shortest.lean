/-!
# Decimal.Shortest — the fewest digits that read back

A finite binary floating-point number is `m · 2 ^ q`. Every real in its rounding interval reads back
as this number; the interval reaches half way to both neighbours, and its ends belong to it exactly
when `m` is even.

* `FloatFormat.decode` splits the bits of a number into sign and magnitude,
* `shortestDigits` finds the decimal with the fewest digits inside the interval. On each grid of
  decimals with `n` digits only the two neighbours of the number can be the nearest, so these two
  are tried for `n = 1, 2, …`; of two hits the nearer wins, and the upper one when both are equally
  near,
* `FloatFormat.text` writes the result positionally, never with an exponent.

All arithmetic is exact, on natural numbers.
-/

namespace Dissolve.Decimal

structure FloatFormat where
  fractionBits : Nat
  exponentBits : Nat
  maxDigits : Nat

def single : FloatFormat := ⟨23, 8, 9⟩

def double : FloatFormat := ⟨52, 11, 17⟩

inductive Magnitude
  | nan
  | infinite
  /-- The value `significand · 2 ^ exponent`; `narrowBelow` marks a power of two, whose neighbour
  below is only half as far as the one above. -/
  | finite (significand : Nat) (exponent : Int) (narrowBelow : Bool)

def FloatFormat.decode (fmt : FloatFormat) (bits : Nat) : Bool × Magnitude :=
  let negative := bits / Nat.pow 2 (fmt.fractionBits + fmt.exponentBits) % 2 = 1
  let exponent := bits / Nat.pow 2 fmt.fractionBits % Nat.pow 2 fmt.exponentBits
  let fraction := bits % Nat.pow 2 fmt.fractionBits
  let least : Int := 2 - (Nat.pow 2 (fmt.exponentBits - 1) : Int) - (fmt.fractionBits : Int)
  let magnitude :=
    if exponent = Nat.pow 2 fmt.exponentBits - 1 then
      if fraction = 0 then .infinite else .nan
    else if exponent = 0 then .finite fraction least false
    else
      .finite (Nat.pow 2 fmt.fractionBits + fraction) (least + (exponent : Int) - 1)
        (fraction = 0 && exponent > 1)
  (negative, magnitude)

structure Fraction where
  num : Nat
  den : Nat

def Fraction.ofScaled (m : Nat) (q : Int) : Fraction :=
  if 0 ≤ q then ⟨m * Nat.pow 2 q.toNat, 1⟩ else ⟨m, Nat.pow 2 (-q).toNat⟩

structure Numeral where
  digits : Nat
  exponent : Int

def Numeral.toFraction (n : Numeral) : Fraction :=
  if 0 ≤ n.exponent then ⟨n.digits * Nat.pow 10 n.exponent.toNat, 1⟩
  else ⟨n.digits, Nat.pow 10 (-n.exponent).toNat⟩

def Fraction.le (a b : Fraction) : Bool :=
  a.num * b.den ≤ b.num * a.den

def Fraction.lt (a b : Fraction) : Bool :=
  a.num * b.den < b.num * a.den

/-- The number of zeros between the decimal point and the first digit of `num / den < 1`. -/
def leadingZeros : Nat → Nat → Nat → Nat
  | 0, _, _ => 0
  | fuel + 1, num, den => if den ≤ num * 10 then 0 else leadingZeros fuel (num * 10) den + 1

/-- The number of digits before the decimal point of a positive fraction; minus the number of
leading zeros behind the point when there are none. -/
def Fraction.magnitude (v : Fraction) : Int :=
  if v.den ≤ v.num then ((Nat.toDigits 10 (v.num / v.den)).length : Int)
  else -(leadingZeros (v.den.log2 + 1) v.num v.den : Int)

/-- The largest decimal with the given exponent that is at most `v`. -/
def Fraction.floorAt (v : Fraction) (exponent : Int) : Nat :=
  if 0 ≤ exponent then v.num / (v.den * Nat.pow 10 exponent.toNat)
  else v.num * Nat.pow 10 (-exponent).toNat / v.den

structure Interval where
  low : Fraction
  high : Fraction
  closed : Bool

def Interval.contains (i : Interval) (x : Fraction) : Bool :=
  if i.closed then i.low.le x && x.le i.high else i.low.lt x && x.lt i.high

/-- Whether `v` is at least as near to its upper neighbour as to its lower one: the sum of the two
neighbours is then at most twice `v`. -/
def upperNearer (v : Fraction) (lower upper : Numeral) : Bool :=
  let a := lower.toFraction
  let b := upper.toFraction
  (a.num * b.den + b.num * a.den) * v.den ≤ 2 * v.num * (a.den * b.den)

/-- Tries the two neighbours of `v` on the grids with `count`, `count + 1`, … digits. -/
def searchDigits (v : Fraction) (within : Interval) (places : Int) : Nat → Nat → Numeral
  | 0, count =>
    let exponent := places - (count : Int)
    ⟨v.floorAt exponent, exponent⟩
  | fuel + 1, count =>
    let exponent := places - (count : Int)
    let lower : Numeral := ⟨v.floorAt exponent, exponent⟩
    let upper : Numeral := ⟨lower.digits + 1, exponent⟩
    match within.contains lower.toFraction, within.contains upper.toFraction with
    | true, true => if upperNearer v lower upper then upper else lower
    | true, false => lower
    | false, true => upper
    | false, false => searchDigits v within places fuel (count + 1)

/-- The decimal with the fewest digits that reads back as `m · 2 ^ q`, for positive `m`. -/
def shortestDigits (fmt : FloatFormat) (m : Nat) (q : Int) (narrowBelow : Bool) : Numeral :=
  let v := Fraction.ofScaled (4 * m) (q - 2)
  let low := Fraction.ofScaled (4 * m - if narrowBelow then 1 else 2) (q - 2)
  let high := Fraction.ofScaled (4 * m + 2) (q - 2)
  searchDigits v ⟨low, high, m % 2 = 0⟩ v.magnitude fmt.maxDigits 1

def dropTrailingZeros (digits : List Char) : List Char :=
  (digits.reverse.dropWhile (· = '0')).reverse

/-- A decimal written with a point where it has a fraction, and without an exponent. -/
def Numeral.positional (n : Numeral) : String :=
  let digits := Nat.toDigits 10 n.digits
  if 0 ≤ n.exponent then
    String.ofList (digits ++ List.replicate n.exponent.toNat '0')
  else
    let places := (-n.exponent).toNat
    let padded := List.replicate (places + 1 - digits.length) '0' ++ digits
    let whole := padded.take (padded.length - places)
    let fraction := dropTrailingZeros (padded.drop (padded.length - places))
    String.ofList (if fraction.isEmpty then whole else whole ++ '.' :: fraction)

def FloatFormat.text (fmt : FloatFormat) (bits : Nat) : String :=
  match fmt.decode bits with
  | (_, .nan) => "NaN"
  | (negative, .infinite) => if negative then "-inf" else "inf"
  | (negative, .finite m q narrowBelow) =>
    let sign := if negative then "-" else ""
    if m = 0 then sign ++ "0"
    else sign ++ (shortestDigits fmt m q narrowBelow).positional

def FloatFormat.isNumber (fmt : FloatFormat) (bits : Nat) : Bool :=
  match fmt.decode bits with
  | (_, .nan) => false
  | _ => true

def FloatFormat.isZero (fmt : FloatFormat) (bits : Nat) : Bool :=
  match fmt.decode bits with
  | (_, .finite 0 _ _) => true
  | _ => false

/-- Numerical equality: the zeros are equal and a NaN differs from everything. -/
def FloatFormat.numericallyEqual (fmt : FloatFormat) (a b : Nat) : Bool :=
  fmt.isNumber a && fmt.isNumber b && (a = b || (fmt.isZero a && fmt.isZero b))

end Dissolve.Decimal
