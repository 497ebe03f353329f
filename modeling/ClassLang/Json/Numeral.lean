import ClassLang.Number.Text

/-!
# Numerals of JSON

A number as it is written, and the two ways to read it: as a natural, and as a double. Doubles are read
with 64 bits of significand and one scaling by a power of ten, so a numeral with many digits may give a
neighbour of the nearest double. They are written with the shortest digits, of two equally near ones with
the even last digit.
-/

namespace ClassLang.Json

/-- The exponent part of a numeral. -/
structure ExponentPart where
  negative : Bool
  digits : List Char
deriving DecidableEq, Repr

/-- A written number: an optional minus, whole digits, and maybe a fraction and an exponent. -/
structure Numeral where
  negative : Bool
  whole : List Char
  fraction : List Char
  exponent : Option ExponentPart
deriving DecidableEq, Repr

/-- A significand that fits in 64 bits, and an exponent of ten. -/
structure Scaled where
  significand : Nat
  exponent : Int
deriving DecidableEq, Repr

namespace Numeral

/-- The natural that is written, without a sign, fraction or exponent. -/
def toNat? (n : Numeral) : Option Nat :=
  if n.negative || n.fraction ≠ [] || n.exponent.isSome then none
  else some (Number.ofDigits n.whole)

/-! ## Doubles -/

/-- The greatest significand. -/
def significandLimit : Nat := Nat.pow 2 64 - 1

/-- The greatest exponent that is written out in digits. -/
def exponentLimit : Nat := Nat.pow 2 31 - 1

/-- Takes up whole digits as long as they fit; each of the others adds one to the exponent. -/
def takeWhole (significand : Nat) : List Char → Scaled
  | [] => ⟨significand, 0⟩
  | c :: cs =>
    let next := 10 * significand + Number.ofDigits [c]
    if next ≤ significandLimit then takeWhole next cs
    else ⟨significand, (cs.length : Int) + 1⟩

/-- Takes up digits of a fraction as long as they fit; the others do not count. -/
def takeFraction (s : Scaled) : List Char → Scaled
  | [] => s
  | c :: cs =>
    let next := 10 * s.significand + Number.ofDigits [c]
    if next ≤ significandLimit then takeFraction ⟨next, s.exponent - 1⟩ cs else s

/-- The power of ten up to which doubles are scaled at once. -/
def scaleLimit : Nat := 308

/-- The double nearest to a power of ten. -/
def powerOfTen (n : Nat) : Float := Number.nearestFraction false (Nat.pow 10 n) 1

/-- A double times a power of ten, unless it is too large. Very small numbers are scaled in steps, until
they are within reach or zero. -/
def scale (x : Float) (exponent : Int) : Option Float :=
  if exponent.natAbs ≤ scaleLimit then
    if 0 ≤ exponent then
      let y := x * powerOfTen exponent.natAbs
      if y.isInf then none else some y
    else some (x / powerOfTen exponent.natAbs)
  else if x == 0.0 then some x
  else if 0 ≤ exponent then none
  else scale (x / powerOfTen scaleLimit) (exponent + scaleLimit)
termination_by exponent.natAbs
decreasing_by
  simp only [scaleLimit] at *
  omega

/-- The double that is written, unless it is too large. -/
def toFloat? (n : Numeral) : Option Float :=
  let s := takeFraction (takeWhole 0 n.whole) n.fraction
  let x := Number.nearestFraction false s.significand 1
  let magnitude := match n.exponent with
    | none => scale x s.exponent
    | some e =>
      let exponent : Nat := Number.ofDigits e.digits
      if exponentLimit < exponent then
        if s.significand ≠ 0 && !e.negative then none else some 0.0
      else scale x (if e.negative then s.exponent - exponent else s.exponent + exponent)
  magnitude.map fun y => if n.negative then -y else y

/-! ## Writing -/

/-- The numeral of a natural. -/
def ofNat (n : Nat) : Numeral := ⟨false, Number.digitsOf n, [], none⟩

/-- The numeral of a positive decimal: positional from `0.00001` up to seventeen digits, with an exponent
beyond. -/
def ofDecimal (negative : Bool) (d : Number.Decimal) : Numeral :=
  let digits := Number.digitsOf d.significand
  let point : Int := digits.length + d.exponent
  if 0 ≤ d.exponent ∧ point ≤ 16 then
    ⟨negative, digits ++ Number.zeros d.exponent.toNat, ['0'], none⟩
  else if 0 < point ∧ point ≤ 16 then
    ⟨negative, digits.take point.toNat, digits.drop point.toNat, none⟩
  else if -5 < point ∧ point ≤ 0 then
    ⟨negative, ['0'], Number.zeros (-point).toNat ++ digits, none⟩
  else
    let exponent := point - 1
    ⟨negative, digits.take 1, digits.drop 1,
      some ⟨decide (exponent < 0), Number.digitsOf exponent.natAbs⟩⟩

/-- The numeral of a double, unless it is infinite or no number. -/
def ofFloat? (x : Float) : Option Numeral :=
  match Number.Shape.ofFloat x with
  | .nan | .infinite _ => none
  | .finite negative mantissa exponent =>
    if mantissa = 0 then some ⟨negative, ['0'], ['0'], none⟩
    else some (ofDecimal negative (Number.shortest .even mantissa exponent))

/-- The characters of a numeral. -/
def text (n : Numeral) : List Char :=
  let sign (negative : Bool) := if negative then ['-'] else []
  let fraction := if n.fraction = [] then [] else '.' :: n.fraction
  let exponent := match n.exponent with
    | none => []
    | some e => 'e' :: sign e.negative ++ e.digits
  sign n.negative ++ n.whole ++ fraction ++ exponent

end Numeral

end ClassLang.Json
