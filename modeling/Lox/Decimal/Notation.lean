import Lox.Decimal.Shortest

/-! # Texts of numbers

A number has three texts: `valueText` is what a program prints, `literalText` what a number token and
the printed tree show, `jsonText` what a listing of tokens holds.  All three take shortest digits; they
differ in how whole numbers, large numbers and ties are written. -/

namespace Lox.Decimal

/-- The decimal digits of a number, most significant first. -/
def digitsOf (n : Nat) : List Char := Nat.toDigits 10 n

/-- Puts a point before the last `places` digits, after at least one digit. -/
def withPoint (digits : List Char) (places : Nat) : List Char :=
  let padded := List.replicate (places + 1 - digits.length) '0' ++ digits
  padded.take (padded.length - places) ++ '.' :: padded.drop (padded.length - places)

/-- A numeral without exponent. -/
def Numeral.positional (n : Numeral) : List Char :=
  match n.power with
  | .ofNat zeros => digitsOf n.digits ++ List.replicate zeros '0'
  | .negSucc places => withPoint (digitsOf n.digits) (places + 1)

/-- A numeral with one digit before the point and a signed exponent. -/
def Numeral.scientific (n : Numeral) : List Char :=
  let digits := digitsOf n.digits
  let exponent := n.power + digits.length - 1
  let mantissa := if digits.length = 1 then digits else withPoint digits (digits.length - 1)
  let sign := if exponent < 0 then '-' else '+'
  mantissa ++ 'e' :: sign :: digitsOf exponent.natAbs

/-- Writes a sign before a text. -/
def signed (negative : Bool) (text : List Char) : List Char :=
  if negative then '-' :: text else text

/-- The whole number that a magnitude is, if it has no fraction. -/
def Magnitude.whole? (size : Magnitude) : Option Nat :=
  let units := size.mantissa * Nat.pow 2 size.scale
  if units % Nat.pow 2 1074 = 0 then some (units / Nat.pow 2 1074) else none

end Lox.Decimal

namespace Lox.Number

open Decimal

/-- The text a program prints: a number without fraction in all its digits, any other in shortest
digits, neither with an exponent. -/
def valueText (x : Float) : String :=
  match classify x with
  | .nan => "NaN"
  | .infinite negative => String.ofList (signed negative "inf".toList)
  | .finite negative size =>
    match size.whole? with
    | some n => String.ofList (signed negative (digitsOf n))
    | none => String.ofList (signed negative (shortest .up size).positional)

/-- The text of a number in a token or a tree: a number without fraction below `10 ^ 15` keeps one
decimal place, any other is written in shortest digits without exponent. -/
def literalText (x : Float) : String :=
  match classify x with
  | .nan => "NaN"
  | .infinite negative => String.ofList (signed negative "inf".toList)
  | .finite negative size =>
    match size.whole? with
    | some n =>
      if n < Nat.pow 10 15 then String.ofList (signed (negative && n != 0) (digitsOf n ++ ".0".toList))
      else String.ofList (signed negative (shortest .up size).positional)
    | none => String.ofList (signed negative (shortest .up size).positional)

/-- The text of a number in a listing: in shortest digits, plain and with a fraction from `10 ^ -5`
to below `10 ^ 16`, elsewhere with an exponent; there is no text for an infinity. -/
def jsonText (x : Float) : String :=
  match classify x with
  | .nan => "null"
  | .infinite _ => "null"
  | .finite negative ⟨0, _⟩ => String.ofList (signed negative "0.0".toList)
  | .finite negative size =>
    let n := shortest .toEven size
    let exponent := n.power + (digitsOf n.digits).length - 1
    let text :=
      if -5 ≤ exponent ∧ exponent < 16 then
        if n.power < 0 then n.positional else n.positional ++ ".0".toList
      else n.scientific
    String.ofList (signed negative text)

end Lox.Number
