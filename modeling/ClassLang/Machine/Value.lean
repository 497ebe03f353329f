import ClassLang.Library.Ty
import ClassLang.Machine.Fault
import ClassLang.Number.Text
import ClassLang.Text.Quoted

/-!
# Values

Null, numbers, truth values, strings and references to objects of the heap. Two references are equal
if they are to the same object, all else is equal by value.
-/

namespace ClassLang

/-- A value of a running program. -/
inductive Value where
  | null
  | number (value : Float)
  | boolean (value : Bool)
  | string (value : String)
  | object (address : Nat)
deriving Repr

namespace Value

/-- The kind of a value. -/
def kind : Value → Kind
  | .null => .null
  | .number _ => .number
  | .boolean _ => .boolean
  | .string _ => .string
  | .object _ => .object

/-- The same value; for objects, the same object. -/
def equals : Value → Value → Bool
  | .null, .null => true
  | .number x, .number y => x == y
  | .boolean a, .boolean b => a == b
  | .string s, .string t => s == t
  | .object a, .object b => a == b
  | _, _ => false

/-- The number that a value has to be. -/
def asNumber : Value → Except Fault Float
  | .number x => .ok x
  | v => .error (.kind (.unexpected .number v.kind))

/-- The truth value that a value has to be. -/
def asBoolean : Value → Except Fault Bool
  | .boolean b => .ok b
  | v => .error (.kind (.unexpected .boolean v.kind))

/-- The string that a value has to be. -/
def asString : Value → Except Fault String
  | .string s => .ok s
  | v => .error (.kind (.unexpected .string v.kind))

end Value

end ClassLang
