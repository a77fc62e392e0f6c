/-! # Binary64 numbers

A 64-bit binary floating-point number is held as its bits. Every finite number is a whole multiple
of `2 ^ -1074`; `Binary64.units` is that multiple, so two numbers are compared exactly, and with
integers too, by comparing `Int`s. `Binary64.nearest` rounds a quotient of naturals to the nearest
number, a half going to the even significand.
-/

namespace DocIndex

/-- A number in the 64-bit binary interchange format. -/
structure Binary64 where
  bits : UInt64
  deriving DecidableEq, Repr

namespace Binary64

/-- Units in one: the smallest positive number is `1 / one`. -/
def one : Nat := Nat.pow 2 1074

def isNegative (x : Binary64) : Bool := x.bits.toNat / Nat.pow 2 63 == 1

def exponentField (x : Binary64) : Nat := x.bits.toNat / Nat.pow 2 52 % Nat.pow 2 11

def fractionField (x : Binary64) : Nat := x.bits.toNat % Nat.pow 2 52

/-- The significand as an integer; the leading bit is implied unless the exponent field is zero. -/
def significand (x : Binary64) : Nat :=
  if x.exponentField = 0 then x.fractionField else Nat.pow 2 52 + x.fractionField

/-- Places by which the significand is shifted up to count units. -/
def shift (x : Binary64) : Nat := x.exponentField - 1

def magnitude (x : Binary64) : Nat := x.significand * Nat.pow 2 x.shift

/-- The value in units of `2 ^ -1074`. -/
def units (x : Binary64) : Int :=
  if x.isNegative then -(x.magnitude : Int) else x.magnitude

def isFinite (x : Binary64) : Bool := x.exponentField != Nat.pow 2 11 - 1

def negate (x : Binary64) : Binary64 := ⟨x.bits ^^^ 0x8000000000000000⟩

def zero : Binary64 := ⟨0⟩

def infinity : Binary64 := ⟨0x7ff0000000000000⟩

/-- The quotient rounded to the nearest natural, a half going to the even one. -/
def divRound (num den : Nat) : Nat :=
  let q := num / den
  let r := num % den
  if 2 * r < den then q else if den < 2 * r then q + 1 else if q % 2 = 0 then q else q + 1

/-- The number nearest to `num / den`, for a positive `den`. -/
def nearest (num den : Nat) : Binary64 :=
  let scaled := num * one
  let places := Nat.log2 (scaled / den) - 52
  let rounded := divRound scaled (den * Nat.pow 2 places)
  let code := places * Nat.pow 2 52 + rounded
  if code < 0x7ff0000000000000 then ⟨UInt64.ofNat code⟩ else infinity

def ofNat (n : Nat) : Binary64 := nearest n 1

def ofInt (i : Int) : Binary64 :=
  if i < 0 then (ofNat i.natAbs).negate else ofNat i.natAbs

/-- The product with `10 ^ k`, where `10 ^ k` is itself rounded first. The sign is kept. -/
def mulPow10 (x : Binary64) (k : Nat) : Binary64 :=
  let r := nearest (x.magnitude * (ofNat (Nat.pow 10 k)).magnitude) (one * one)
  if x.isNegative then r.negate else r

/-- The quotient by `10 ^ k`, where `10 ^ k` is itself rounded first. The sign is kept. -/
def divPow10 (x : Binary64) (k : Nat) : Binary64 :=
  let r := nearest x.magnitude (ofNat (Nat.pow 10 k)).magnitude
  if x.isNegative then r.negate else r

end Binary64

end DocIndex
