import ClassLang.Number.Binary

/-!
# Remainders of doubles

The remainder of a division that truncates: exact, and with the sign of the dividend.
-/

namespace ClassLang.Number

/-- `x - y * trunc (x / y)`, computed on the naturals below both mantissas. There is none for an
infinite dividend or a zero divisor; an infinite divisor leaves the dividend. -/
def remainder (x y : Float) : Float :=
  let nan : Float := 0.0 / 0.0
  match Shape.ofFloat x, Shape.ofFloat y with
  | .finite negative m e, .finite _ n f =>
    if n = 0 then nan
    else
      let least := min e f
      let rest := m * Nat.pow 2 (e - least).toNat % (n * Nat.pow 2 (f - least).toNat)
      let (num, den) := scaled rest 1 (-least)
      nearestFraction negative num den
  | .finite .., .infinite _ => x
  | _, _ => nan

example : remainder (-7.0) 3.0 = -1.0 := by decide +kernel
example : remainder 5.5 0.25 = 0.0 := by decide +kernel

end ClassLang.Number
