import Lox.Decimal.Binary

/-! # The shortest decimal that reads back

Every finite double is a whole number of units of `10 ^ -1076`, so the decimals that read back as a
given double are found by whole-number arithmetic alone.  Among the grids of multiples of a power of
ten, `shortest` takes the coarsest that meets the interval of reals rounding to the double, and on it
the point nearest to the double's own value. -/

namespace Lox.Decimal

/-- A decimal numeral: `digits * 10 ^ power`. -/
structure Numeral where
  digits : Nat
  power : Int
  deriving DecidableEq, Repr

/-- What is done with a value half way between two decimals. -/
inductive Tie where
  | up
  | toEven
  deriving DecidableEq, Repr

/-- The whole numbers between two bounds, with one of them marked. -/
structure Interval where
  lo : Nat
  value : Nat
  hi : Nat
  /-- Do the bounds belong to the interval? -/
  closed : Bool

/-- Does a number lie in the interval? -/
def Interval.contains (i : Interval) (n : Nat) : Bool :=
  if i.closed then i.lo ≤ n && n ≤ i.hi else i.lo < n && n < i.hi

/-- The units of `10 ^ -1076` in a unit of `2 ^ -1076`. -/
def unitsPerQuarter : Nat := Nat.pow 5 1076

/-- The reals that round to a magnitude, in units of `10 ^ -1076`.  A bound lies half way to the
neighbouring double, which is nearer below a power of two; it rounds to the even mantissa. -/
def Magnitude.interval (size : Magnitude) : Interval :=
  let quarter := Nat.pow 2 size.scale * unitsPerQuarter
  let value := 4 * size.mantissa * quarter
  let below := if size.mantissa = Nat.pow 2 52 ∧ size.scale ≠ 0 then quarter else 2 * quarter
  ⟨value - below, value, value + 2 * quarter, size.mantissa % 2 = 0⟩

/-- The multiple of `step` in the interval nearest to the marked value, as a count of steps. -/
def Interval.multiple? (i : Interval) (tie : Tie) (step : Nat) : Option Nat :=
  let below := i.value / step
  let low := below * step
  let high := low + step
  match i.contains low, i.contains high with
  | false, false => none
  | true, false => some below
  | false, true => some (below + 1)
  | true, true =>
    if i.value - low < high - i.value then some below
    else if high - i.value < i.value - low then some (below + 1)
    else match tie with
      | .up => some (below + 1)
      | .toEven => some (below + below % 2)

/-- The coarsest grid, of at most `10 ^ n` units, with a point in the interval, and that point. -/
def Interval.coarsest (i : Interval) (tie : Tie) : Nat → Nat × Nat
  | 0 => (i.value, 0)
  | n + 1 =>
    match i.multiple? tie (Nat.pow 10 (n + 1)) with
    | some count => (count, n + 1)
    | none => i.coarsest tie n

/-- The decimal of fewest digits that reads back as the magnitude, of these the nearest to it. -/
def shortest (tie : Tie) (size : Magnitude) : Numeral :=
  let i := size.interval
  let (digits, grid) := i.coarsest tie (i.hi.log2 * 30103 / 100000 + 1)
  ⟨digits, grid - 1076⟩

end Lox.Decimal
