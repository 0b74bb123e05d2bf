/-! # Doubles as binary fractions

A finite double is a sign and a magnitude `mantissa * 2 ^ scale` in units of `2 ^ -1074`, the least
positive double.  `classify` takes the bits apart; `nearestBits` goes the other way and finds the
double nearest to a fraction, an exact tie going to the even mantissa.  The bits of a magnitude, read
as a number, are `scale * 2 ^ 52 + mantissa`, also when rounding up carries into the exponent.

Powers are written with `Nat.pow`, which is the same whatever is imported besides. -/

namespace Lox.Decimal

/-- The size of a finite double: `mantissa * 2 ^ scale` units of `2 ^ -1074`. -/
structure Magnitude where
  mantissa : Nat
  scale : Nat
  deriving DecidableEq, Repr

/-- What the bits of a double stand for. -/
inductive Shape where
  | nan
  | infinite (negative : Bool)
  | finite (negative : Bool) (size : Magnitude)
  deriving DecidableEq, Repr

/-- The magnitude that the sixty-three bits below the sign stand for, when it is finite: the first
two exponents share one scale, and all exponents but the first add a leading one. -/
def Magnitude.ofBits (bits : Nat) : Magnitude :=
  if bits / Nat.pow 2 52 = 0 then ⟨bits, 0⟩
  else ⟨Nat.pow 2 52 + bits % Nat.pow 2 52, bits / Nat.pow 2 52 - 1⟩

/-- The sixty-three bits of a magnitude. -/
def Magnitude.toBits (size : Magnitude) : Nat := size.scale * Nat.pow 2 52 + size.mantissa

/-- Reading bits and writing them again changes nothing. -/
theorem Magnitude.toBits_ofBits (bits : Nat) : (Magnitude.ofBits bits).toBits = bits := by
  unfold Magnitude.ofBits Magnitude.toBits
  generalize Nat.pow 2 52 = b
  have h := Nat.div_add_mod bits b
  split
  · rw [Nat.zero_mul, Nat.zero_add]
  · obtain ⟨k, hk⟩ := Nat.exists_eq_succ_of_ne_zero ‹_›
    rw [hk] at h ⊢
    rw [Nat.succ_sub_one, ← Nat.add_assoc, ← Nat.succ_mul, Nat.mul_comm]
    exact h

/-- The bits of positive infinity, which are the least that no finite magnitude has. -/
def infinityBits : Nat := 2047 * Nat.pow 2 52

/-- Takes the bits of a double apart. -/
def classify (x : Float) : Shape :=
  let bits := x.toBits.toNat
  let negative := decide (Nat.pow 2 63 ≤ bits)
  let rest := bits % Nat.pow 2 63
  if rest < infinityBits then .finite negative (.ofBits rest)
  else if rest = infinityBits then .infinite negative
  else .nan

/-- The quotient rounded to the nearest whole number, a tie to the even one. -/
def roundDiv (num den : Nat) : Nat :=
  let quotient := num / den
  let twice := 2 * (num % den)
  if twice < den then quotient
  else if den < twice then quotient + 1
  else quotient + quotient % 2

/-- The bits of the double nearest to `num / den`, infinity when that is too large. -/
def nearestBits (num den : Nat) : Nat :=
  let units := num * Nat.pow 2 1074
  let scale := (units / den).log2 - 52
  min infinityBits (Magnitude.toBits ⟨roundDiv units (den * Nat.pow 2 scale), scale⟩)

/-- The double nearest to `num / den`. -/
def nearest (num den : Nat) : Float := Float.ofBits (UInt64.ofNat (nearestBits num den))

/-- The number that decimal digits spell. -/
def digitsValue (digits : List Char) : Nat :=
  digits.foldl (fun n c => 10 * n + (c.toNat - '0'.toNat)) 0

/-- The double nearest to the decimal with these digits before and after its point. -/
def ofDigits (whole fraction : List Char) : Float :=
  nearest (digitsValue (whole ++ fraction)) (Nat.pow 10 fraction.length)

end Lox.Decimal
