import ClassLang.Json.Literal
import ClassLang.Json.Numeral

/-!
# JSON values

A JSON value with its numbers and strings as they are written and its fields in order. The functions at
the end read the shapes that data takes in JSON: naturals with a limit, structures and variants.
-/

namespace ClassLang

/-- A JSON value. -/
inductive Json where
  | null
  | boolean (value : Bool)
  | number (numeral : Json.Numeral)
  | string (literal : List Char)
  | array (items : List Json)
  | object (fields : List (List Char × Json))
deriving Repr

namespace Json

/-! ## Making values -/

/-- A string. -/
def ofString (s : String) : Json := .string (encode s)

/-- A natural. -/
def ofNat (n : Nat) : Json := .number (.ofNat n)

/-- An object. -/
def ofFields (fields : List (String × Json)) : Json :=
  .object (fields.map fun (name, value) => (encode name, value))

/-- A variant with a payload. -/
def variant (name : String) (payload : Json) : Json := ofFields [(name, payload)]

/-! ## Reading shapes -/

/-- A truth value. -/
def toBool? : Json → Option Bool
  | .boolean b => some b
  | _ => none

/-- A text. -/
def toString? : Json → Option String
  | .string literal => decode? literal
  | _ => none

/-- A natural below `2 ^ bits`. -/
def toNat? (bits : Nat) : Json → Option Nat
  | .number n => n.toNat?.filter (· < Nat.pow 2 bits)
  | _ => none

/-- A number. -/
def toFloat? : Json → Option Float
  | .number n => n.toFloat?
  | _ => none

/-- A list. -/
def toList? {α : Type} (f : Json → Option α) : Json → Option (List α)
  | .array items => items.mapM f
  | _ => none

/-- A value, or null for none. -/
def toOption? {α : Type} (f : Json → Option α) : Json → Option (Option α)
  | .null => some none
  | j => (f j).map some

/-- The value of a field that occurs at most once: no value if it is missing. -/
def field? (name : String) (fields : List (String × Json)) : Option (Option Json) :=
  match fields.filter (·.1 == name) with
  | [] => some none
  | [(_, value)] => some (some value)
  | _ => none

/-- The fields of a structure: an object, whose other fields are ignored, or an array of just the
values in the order of the names. -/
def structure? (names : List String) : Json → Option (List (Option Json))
  | .object fields => do
    let named ← fields.mapM fun (name, value) => return (← decode? name, value)
    names.mapM (field? · named)
  | .array items => if items.length = names.length then some (items.map some) else none
  | _ => none

/-- A variant: a name alone, or an object whose one field is the name with the payload. -/
def variant? : Json → Option (String × Option Json)
  | .string name => return (← decode? name, none)
  | .object [(name, payload)] => return (← decode? name, some payload)
  | _ => none

/-- The name of a variant without a payload. -/
def plainVariant? (j : Json) : Option String :=
  match j.variant? with
  | some (name, none) | some (name, some .null) => some name
  | _ => none

end Json

end ClassLang
