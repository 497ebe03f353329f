/-!
# Doubles as exact binary fractions

A finite double is `± mantissa * 2 ^ exponent`. `Shape.ofFloat` reads a double as such a fraction and
`nearestFraction` goes back: it gives the double nearest to a quotient of naturals, ties to the even
mantissa. Both work on exact naturals, so no intermediate step rounds.
-/

namespace ClassLang.Number

/-- What a double is: not a number, an infinity, or `± mantissa * 2 ^ exponent`. -/
inductive Shape where
  | nan
  | infinite (negative : Bool)
  | finite (negative : Bool) (mantissa : Nat) (exponent : Int)
deriving DecidableEq, Repr

/-- The exponent of the smallest positive double. -/
def leastExponent : Int := -1074

/-- The exponent field, fraction field and sign of a double, put together as a fraction. -/
def Shape.ofFloat (x : Float) : Shape :=
  let bits : Nat := x.toBits.toNat
  let negative := decide (Nat.pow 2 63 ≤ bits)
  let field : Nat := bits / Nat.pow 2 52 % Nat.pow 2 11
  let fraction : Nat := bits % Nat.pow 2 52
  if field = 2047 then
    if fraction = 0 then .infinite negative else .nan
  else if field = 0 then .finite negative fraction leastExponent
  else .finite negative (Nat.pow 2 52 + fraction) ((field : Int) - 1075)

/-- `num / den` as a quotient of naturals after division by `2 ^ q`. -/
def scaled (num den : Nat) (q : Int) : Nat × Nat :=
  if 0 ≤ q then (num, den * Nat.pow 2 q.toNat) else (num * Nat.pow 2 (-q).toNat, den)

/-- `num / den` rounded to a natural, a tie going to the even one. -/
def roundHalfEven (num den : Nat) : Nat :=
  let floor := num / den
  let twice := 2 * (num % den)
  if twice < den then floor
  else if twice > den then floor + 1
  else floor + floor % 2

/-- The exponent at which `num / den` has a mantissa of 53 bits, or the least one. -/
def mantissaExponent (num den : Nat) : Int :=
  let q := max ((num.log2 : Int) - den.log2 - 53) leastExponent
  let (n, d) := scaled num den q
  if n / d < Nat.pow 2 53 then q else q + 1

/-- The bits of the double nearest to `num / den`, infinity's if it is too large. A mantissa that
rounds up to `2 ^ 53` carries into the exponent field. -/
def nearestBits (num den : Nat) : Nat :=
  let q := mantissaExponent num den
  let (n, d) := scaled num den q
  min ((q - leastExponent).toNat * Nat.pow 2 52 + roundHalfEven n d) (2047 * Nat.pow 2 52)

/-- The double nearest to `± num / den`. -/
def nearestFraction (negative : Bool) (num den : Nat) : Float :=
  let bits := if num = 0 then 0 else nearestBits num den
  Float.ofBits (UInt64.ofNat (if negative then Nat.pow 2 63 + bits else bits))

example : nearestFraction false 1 10 = 0.1 := by decide +kernel
example : nearestFraction true 3 2 = -1.5 := by decide +kernel

end ClassLang.Number
