import ClassLang.Number.Shortest

/-!
# The text of a number

Numbers are printed positionally with the shortest digits that read back, at any size: no exponent
and no trailing `.0`. Of two such decimals at the same distance the greater magnitude is printed.
`Number.ofText?` reads any decimal, an optional sign, and the names of the infinities and of the value
that is not a number.
-/

namespace ClassLang.Number

/-- Zeros, as many as given. -/
def zeros (n : Nat) : List Char := List.replicate n '0'

/-- A decimal without an exponent: zeros stand in for the places that its digits leave open. -/
def Decimal.positional (d : Decimal) : List Char :=
  let digits := digitsOf d.significand
  let point : Int := digits.length + d.exponent
  if 0 ≤ d.exponent then digits ++ zeros d.exponent.toNat
  else if 0 < point then digits.take point.toNat ++ '.' :: digits.drop point.toNat
  else '0' :: '.' :: zeros (-point).toNat ++ digits

/-- A magnitude with its sign in front. -/
def signed (negative : Bool) (magnitude : List Char) : String :=
  String.ofList (if negative then '-' :: magnitude else magnitude)

/-- The printed form of a double. -/
def text (x : Float) : String :=
  match Shape.ofFloat x with
  | .nan => "NaN"
  | .infinite negative => signed negative "inf".toList
  | .finite negative mantissa exponent =>
    if mantissa = 0 then signed negative ['0']
    else signed negative (shortest .up mantissa exponent).positional

/-- Reads the name of a special value or a decimal, in any case and without a sign. -/
def ofMagnitude? (negative : Bool) (cs : List Char) : Option Float :=
  let name := String.ofList (cs.map Char.toLower)
  if name = "nan" then some (0.0 / 0.0)
  else if name = "inf" ∨ name = "infinity" then some (nearestFraction negative (Nat.pow 2 1024) 1)
  else (Decimal.read? cs).map (Decimal.toFloat negative)

/-- The double nearest to a written number. -/
def ofText? (s : String) : Option Float :=
  match s.toList with
  | '-' :: cs => ofMagnitude? true cs
  | '+' :: cs => ofMagnitude? false cs
  | cs => ofMagnitude? false cs

end ClassLang.Number
