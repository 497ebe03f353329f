import ClassLang.Number.Decimal

/-!
# Shortest decimals

Many decimals round to one double. `shortest` finds the one with the fewest digits, and of those the
nearest to the double; the caller says what to do about a tie. It looks at grids of 1, 2, ... 17 digits: if any point of a grid rounds to the
double, so does one of the two points next to it.
-/

namespace ClassLang.Number

/-- A power with an integer exponent, as numerator and denominator. -/
def fractionPower (base : Nat) (exponent : Int) : Nat × Nat :=
  (base.pow exponent.toNat, base.pow (-exponent).toNat)

/-- The reals that round to a positive double, measured in quarters of its last binary place: half a
place on either side, but only a quarter below a power of two. The two ends round to the double as
well if the mantissa is even. -/
structure Interval where
  low : Nat
  value : Nat
  high : Nat
  closed : Bool

/-- The interval of `mantissa * 2 ^ exponent`. -/
def Interval.around (mantissa : Nat) (exponent : Int) : Interval where
  low := if mantissa = Nat.pow 2 52 ∧ leastExponent < exponent then 4 * mantissa - 1
    else 4 * mantissa - 2
  value := 4 * mantissa
  high := 4 * mantissa + 2
  closed := mantissa % 2 = 0

/-- `x / y` quarters lie in the interval. -/
def Interval.contains (i : Interval) (x y : Nat) : Bool :=
  if i.closed then decide (i.low * y ≤ x ∧ x ≤ i.high * y)
  else decide (i.low * y < x ∧ x < i.high * y)

/-- The position of the leading digit: `10 ^ (p - 1) ≤ num / den < 10 ^ p`. -/
def leadingPosition (num den : Nat) : Int :=
  if den ≤ num then (digitsOf (num / den)).length else 1 - (digitsOf (den / num)).length

/-- Which of two neighbours on a grid is taken for a number halfway between them: the upper one, or the
one with an even last digit. -/
inductive Tie where
  | up
  | even
deriving DecidableEq, Repr

/-- The upper neighbour is the better one. The number lies `rest` above the lower neighbour, which is
`below` gaps of size `gap` above zero. -/
def Tie.takesUpper (tie : Tie) (below rest gap : Nat) : Bool :=
  match tie with
  | .up => gap ≤ 2 * rest
  | .even => gap < 2 * rest ∨ (gap = 2 * rest ∧ below % 2 = 1)

/-- Of the two multiples of `10 ^ step` next to `mantissa * 2 ^ exponent`, the nearer one that rounds
to it. -/
def nearestMultiple? (tie : Tie) (mantissa : Nat) (exponent step : Int) : Option Decimal :=
  let i := Interval.around mantissa exponent
  let (twos, halves) := fractionPower 2 (exponent - 2)
  let (tens, tenths) := fractionPower 10 step
  -- one multiple is `tens * halves / (tenths * twos)` quarters
  let num := tens * halves
  let den := tenths * twos
  let below := i.value * den / num
  let rest := i.value * den % num
  let inside (k : Nat) := i.contains (k * num) den
  if inside (below + 1) && (!inside below || tie.takesUpper below rest num) then
    some ⟨below + 1, step⟩
  else if inside below then some ⟨below, step⟩
  else none

/-- The shortest decimal that rounds to `mantissa * 2 ^ exponent`, for a positive mantissa. -/
def shortest (tie : Tie) (mantissa : Nat) (exponent : Int) : Decimal :=
  let (twos, halves) := fractionPower 2 exponent
  let position := leadingPosition (mantissa * twos) halves
  let digits := List.range' 1 17
  let found := digits.findSome? fun n : Nat => nearestMultiple? tie mantissa exponent (position - n)
  (found.getD ⟨0, 0⟩).normal

example : shortest .up (Nat.pow 2 52 + 2702159776422298) (-56) = ⟨1, -1⟩ := by decide +kernel
example : shortest .up 1 leastExponent = ⟨5, -324⟩ := by decide +kernel
example : shortest .up (Nat.pow 2 52 + 1) (-2) = ⟨11258999068426243, -1⟩ := by decide +kernel
example : shortest .even (Nat.pow 2 52 + 1) (-2) = ⟨11258999068426242, -1⟩ := by decide +kernel

end ClassLang.Number
