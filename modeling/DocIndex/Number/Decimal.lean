import DocIndex.Number.Pair

/-! # Decimal text of binary64 numbers

Reading takes a significand of at most 64 bits and a power of ten, and rounds twice: once for the
significand and once for the scaling. Writing gives the shortest decimal that lies closer to the
number than to its neighbours, or one of so many digits, laid out by a `DecimalLayout`. For the latter the
number is scaled up or down to an integer of 18 or 19 digits, the last of which need not be right.
-/

namespace DocIndex

/-- Decimal digits with the power of ten that the last one counts. -/
structure Decimal where
  digits : Nat
  exponent : Int
  deriving DecidableEq, Repr

/-- How a number is written. Numbers in `[10 ^ low, 10 ^ high)` have no exponent. -/
structure DecimalLayout where
  low : Int
  high : Int
  /-- Significant digits kept at most; as many as it takes to read the number back if not given. -/
  precision? : Option Nat := none
  /-- Whether a point follows the first digit in front of an exponent even if it is the only one. -/
  pointed : Bool := false
  /-- Least number of digits of an exponent. -/
  exponentWidth : Nat := 1
  /-- Whether a negative zero shows its sign. -/
  signedZero : Bool := true

namespace Decimal

/-- The same number without trailing zeros, dropping at most `count` of them. -/
def trim : Nat → Decimal → Decimal
  | 0, d => d
  | count + 1, d =>
    if d.digits ≠ 0 ∧ d.digits % 10 = 0 then trim count ⟨d.digits / 10, d.exponent + 1⟩ else d

/-- The decimal with at most `count` digits nearest to it; a half goes up. -/
def roundTo (count : Nat) (d : Decimal) : Decimal :=
  let unit := Nat.pow 10 ((Nat.toDigits 10 d.digits).length - count)
  trim (count + 1) ⟨(2 * d.digits + unit) / (2 * unit), d.exponent + ((Nat.toDigits 10 d.digits).length - count : Nat)⟩

/-- Whether the decimal is too large to be rounded to a finite number: it reaches the middle between the
largest one and the power of two after it. -/
def overflows (d : Decimal) : Bool :=
  let places : Int := (Nat.toDigits 10 d.digits).length + d.exponent
  d.digits != 0 && (309 < places ||
    places == 309 && (Nat.pow 2 1024 - Nat.pow 2 970) * Nat.pow 10 (-d.exponent).toNat ≤ d.digits * Nat.pow 10 d.exponent.toNat)

/-- An exponent; it always shows its sign. -/
def exponentText (layout : DecimalLayout) (e : Int) : String :=
  let ds := Nat.toDigits 10 e.natAbs
  String.ofList ('e' :: (if e < 0 then '-' else '+') :: List.replicate (layout.exponentWidth - ds.length) '0' ++ ds)

def text (layout : DecimalLayout) (d : Decimal) : String :=
  let ds := Nat.toDigits 10 d.digits
  let point : Int := ds.length + d.exponent
  if point ≤ layout.low ∨ layout.high < point then
    let tail := if ds.length = 1 ∧ layout.pointed then ['0'] else ds.drop 1
    String.ofList (ds.take 1 ++ (if tail.isEmpty then [] else '.' :: tail)) ++ exponentText layout (point - 1)
  else if 0 ≤ d.exponent then
    String.ofList (ds ++ List.replicate d.exponent.toNat '0') ++ ".0"
  else if 0 < point then
    String.ofList (ds.take point.toNat ++ '.' :: ds.drop point.toNat)
  else
    "0." ++ String.ofList (List.replicate (-point).toNat '0' ++ ds)

end Decimal

namespace Binary64

/-- Scale by a power of ten; `none` when the result is too large. -/
def scaleTen : Nat → Binary64 → Int → Option Binary64
  | 0, x, _ => some x
  | rounds + 1, x, e =>
    if 308 < e.natAbs then
      if x.magnitude = 0 then some x
      else if 0 ≤ e then none
      else scaleTen rounds (x.divPow10 308) (e + 308)
    else if 0 ≤ e then
      let y := x.mulPow10 e.natAbs
      if y.isFinite then some y else none
    else some (x.divPow10 e.natAbs)

/-- The number written as `significand` times ten to the `exponent`. Three rounds of scaling take
any 64-bit significand down to zero. -/
def ofDecimal? (significand : Nat) (exponent : Int) : Option Binary64 :=
  scaleTen 4 (ofNat significand) exponent

/-- The place of the leading digit of `num / den`: its value lies in `[10 ^ e, 10 ^ (e + 1))`. -/
def leadingPlace (num den : Nat) : Int :=
  if den ≤ num then ((Nat.toDigits 10 (num / den)).length : Int) - 1
  else -((((List.range 400).find? fun k => den ≤ num * Nat.pow 10 k).getD 0 : Nat) : Int)

/-- The numbers that read back as `x`, and `x` itself, in quarters of a unit. The ends belong to it
when the significand is even. -/
structure Interval where
  low : Nat
  value : Nat
  high : Nat
  closed : Bool

/-- Half way to either neighbour; below a power of two the neighbour is half as far. -/
def interval (x : Binary64) : Interval where
  low := 4 * x.magnitude - (if x.fractionField = 0 ∧ 1 < x.exponentField then 1 else 2) * Nat.pow 2 x.shift
  value := 4 * x.magnitude
  high := 4 * x.magnitude + 2 * Nat.pow 2 x.shift
  closed := x.significand % 2 == 0

/-- The point of the grid of multiples of `10 ^ e` nearest to the value, if one lies in the interval. -/
def Interval.gridPoint? (i : Interval) (e : Int) : Option Decimal :=
  let up := 4 * one * Nat.pow 10 e.toNat
  let down := Nat.pow 10 (-e).toNat
  let d := i.value * down / up
  let inside (d : Nat) : Bool :=
    let p := d * up
    (i.low * down < p || i.closed && i.low * down == p) &&
      (p < i.high * down || i.closed && p == i.high * down)
  let below := i.value * down - d * up
  let above := (d + 1) * up - i.value * down
  let (near, far) := if below < above || below == above && d % 2 == 0 then (d, d + 1) else (d + 1, d)
  if inside near then some ⟨near, e⟩ else if inside far then some ⟨far, e⟩ else none

/-- The shortest decimal that reads back as the magnitude of a finite non-zero number: of the grids
with 1 to 17 digits the first with a point in the interval. -/
def shortest (x : Binary64) : Decimal :=
  let i := x.interval
  let lead := leadingPlace i.value (4 * one)
  ((List.range 17).findSome? fun (k : Nat) => i.gridPoint? (lead - k)).getD ⟨0, 0⟩ |>.trim 20

/-- Multiply by a factor as long as it is asked for, and count the power of ten; `fuel` bounds how often. -/
def scaleWhile (goesOn : Int → Bool) (factor : Pair) (step : Int) : Nat → Pair × Int → Pair × Int
  | 0, s => s
  | fuel + 1, (x, e) =>
    if goesOn x.high.units then scaleWhile goesOn factor step fuel (x.mul factor, e + step) else (x, e)

/-- The leading digits of the magnitude of a finite non-zero number. It is scaled by the powers of ten with
the exponents 100, 10 and 1, in this order. -/
def leading (x : Binary64) : Decimal :=
  let limit (num den : Nat) : Int := (nearest num den).units
  let d := 9223372036854774784
  let start : Pair × Int := ({ high := nearest x.magnitude one }, 0)
  let (scaled, e) :=
    if limit d 1 < start.1.high.units then
      let s := scaleWhile (limit (d * Nat.pow 10 100) 1 < ·) (.ofRatio 1 (Nat.pow 10 100)) 100 4 start
      let s := scaleWhile (limit (d * Nat.pow 10 10) 1 < ·) (.ofRatio 1 (Nat.pow 10 10)) 10 12 s
      scaleWhile (limit d 1 < ·) (.ofRatio 1 10) 1 12 s
    else
      let s := scaleWhile (· < limit d (Nat.pow 10 101)) (.ofRatio (Nat.pow 10 100) 1) (-100) 4 start
      let s := scaleWhile (· < limit d (Nat.pow 10 11)) (.ofRatio (Nat.pow 10 10) 1) (-10) 12 s
      scaleWhile (· < limit 922337203685477478 1) (.ofRatio 10 1) (-1) 12 s
  ⟨scaled.whole.toNat, e⟩

def text (layout : DecimalLayout) (x : Binary64) : String :=
  if x.magnitude = 0 then (if x.isNegative && layout.signedZero then "-0.0" else "0.0")
  else (if x.isNegative then "-" else "") ++
    (layout.precision?.elim x.shortest (x.leading.roundTo ·)).text layout

end Binary64

end DocIndex
