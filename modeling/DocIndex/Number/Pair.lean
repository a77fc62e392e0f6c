import DocIndex.Number.Binary64

/-! # Pairs of numbers

A pair stands for the sum of its numbers, the second of which is small against the first, so that it holds
about twice as many digits. A product of pairs is not exact: its first part is put together from the halves
of the numbers, and where those have too many places the last one is rounded.
-/

namespace DocIndex

namespace Binary64

def nearestTo (num : Int) (den : Nat) : Binary64 :=
  if num < 0 then (nearest num.natAbs den).negate else nearest num.natAbs den

def add (x y : Binary64) : Binary64 := nearestTo (x.units + y.units) one

def sub (x y : Binary64) : Binary64 := nearestTo (x.units - y.units) one

def mul (x y : Binary64) : Binary64 := nearestTo (x.units * y.units) (one * one)

/-- The number with only the upper half of its significand. -/
def upper (x : Binary64) : Binary64 := ⟨x.bits &&& 0xfffffffffc000000⟩

end Binary64

/-- Two numbers that stand for their sum. -/
structure Pair where
  high : Binary64
  low : Binary64 := .zero
  deriving DecidableEq, Repr

namespace Pair

/-- The pair for `num / den`: the nearest number, and the one nearest to what is left. -/
def ofRatio (num den : Nat) : Pair :=
  let high := Binary64.nearest num den
  { high, low := Binary64.nearestTo (num * Binary64.one - high.magnitude * den : Int) (den * Binary64.one) }

def mul (x y : Pair) : Pair :=
  let hx := x.high.upper
  let tx := x.high.sub hx
  let hy := y.high.upper
  let ty := y.high.sub hy
  let p := hx.mul hy
  let q := (hx.mul ty).add (tx.mul hy)
  let c := p.add q
  let rest := ((p.sub c).add q).add (tx.mul ty)
  let rest := ((x.high.mul y.low).add (x.low.mul y.high)).add rest
  let high := c.add rest
  { high, low := (c.sub high).add rest }

/-- The integer that a pair stands for. Each part loses its fraction. -/
def whole (x : Pair) : Int := Int.tdiv x.high.units Binary64.one + Int.tdiv x.low.units Binary64.one

end Pair

end DocIndex
