import ClassLang.Number.Binary

/-!
# Decimals

A decimal is `significand * 10 ^ exponent`. This file reads one from digits (`Decimal.read?`) and
rounds it to the nearest double (`Decimal.toFloat`).
-/

namespace ClassLang.Number

/-- The number `significand * 10 ^ exponent`. -/
structure Decimal where
  significand : Nat
  exponent : Int
deriving DecidableEq, Repr

/-- The value of a run of decimal digits. -/
def ofDigits (digits : List Char) : Nat :=
  digits.foldl (fun n c => 10 * n + (c.toNat - '0'.toNat)) 0

/-- The decimal digits of a natural, most significant first. -/
def digitsOf (n : Nat) : List Char := Nat.toDigits 10 n

namespace Decimal

/-- The nearest double. Exponents far outside the range of doubles are decided by the number of
digits alone, so the powers that are computed stay small. -/
def toFloat (negative : Bool) (d : Decimal) : Float :=
  let magnitude := (digitsOf d.significand).length + d.exponent
  if d.significand = 0 ∨ magnitude < -330 then nearestFraction negative 0 1
  else if 310 < magnitude then nearestFraction negative (Nat.pow 2 1024) 1
  else if 0 ≤ d.exponent then nearestFraction negative (d.significand * Nat.pow 10 d.exponent.toNat) 1
  else nearestFraction negative d.significand (Nat.pow 10 (-d.exponent).toNat)

/-- An exponent part: `e` or `E`, an optional sign and at least one digit, up to the end. -/
def readExponent? : List Char → Option Int
  | [] => some 0
  | e :: rest =>
    if e = 'e' ∨ e = 'E' then
      let (negative, digits) := match rest with
        | '-' :: digits => (true, digits)
        | '+' :: digits => (false, digits)
        | digits => (false, digits)
      if digits ≠ [] ∧ digits.all Char.isDigit then
        some (if negative then -(ofDigits digits : Int) else ofDigits digits)
      else none
    else none

/-- Reads digits, a point and digits, and an exponent part; at least one digit stands before the
exponent part. -/
def read? (cs : List Char) : Option Decimal :=
  let whole := cs.takeWhile Char.isDigit
  let rest := cs.dropWhile Char.isDigit
  let (fraction, rest) := match rest with
    | '.' :: more => (more.takeWhile Char.isDigit, more.dropWhile Char.isDigit)
    | _ => ([], rest)
  if whole = [] ∧ fraction = [] then none
  else do
    let exponent ← readExponent? rest
    some ⟨ofDigits (whole ++ fraction), exponent - fraction.length⟩

/-- The same number with a significand that does not end in a zero. -/
def normal (d : Decimal) : Decimal :=
  let zeros := ((digitsOf d.significand).reverse.takeWhile (· == '0')).length
  if d.significand = 0 then ⟨0, 0⟩ else ⟨d.significand / Nat.pow 10 zeros, d.exponent + zeros⟩

example : read? "12.50e3".toList = some ⟨1250, 1⟩ := by decide +kernel
example : read? ".5".toList = some ⟨5, -1⟩ := by decide +kernel
example : read? "e5".toList = none := by decide +kernel

end Decimal

end ClassLang.Number
