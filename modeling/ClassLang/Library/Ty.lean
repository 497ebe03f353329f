/-!
# Types

A type is a class, a class or null, or the type of `null` itself. Classes are referred to by their
index in the class table; the built-in classes have fixed ones.
-/

namespace ClassLang

/-- The index of a class in the class table. -/
abbrev TypeId := Nat

namespace TypeId

/-- The class that all others inherit from. -/
def any : TypeId := 0

/-- The class of numbers. -/
def number : TypeId := 1

/-- The class of strings. -/
def string : TypeId := 2

/-- The class of truth values. -/
def boolean : TypeId := 3

/-- The class of the console. -/
def console : TypeId := 4

/-- The type of members that return nothing. It has no instances and no construct. -/
def unit : TypeId := 5

end TypeId

/-- The type of an expression or a declaration. An option of an option is the same option. -/
inductive Ty where
  | plain (id : TypeId)
  | option (id : TypeId)
  | null
deriving DecidableEq, Repr

namespace Ty

/-- The type of numbers. -/
def number : Ty := .plain TypeId.number

/-- The type of strings. -/
def string : Ty := .plain TypeId.string

/-- The type of truth values. -/
def boolean : Ty := .plain TypeId.boolean

/-- The type of members that return nothing. -/
def unit : Ty := .plain TypeId.unit

/-- The class behind a type. -/
def class? : Ty → Option TypeId
  | .plain id | .option id => some id
  | .null => none

/-- A value of this type may be null. -/
def isNullable : Ty → Bool
  | .plain _ => false
  | .option _ | .null => true

/-- The type that admits null as well. -/
def optional : Ty → Ty
  | .plain id => .option id
  | t => t

/-- The type of the values other than null, for an option. -/
def unwrapped? : Ty → Option Ty
  | .option id => some (.plain id)
  | _ => none

example : number.optional.optional = number.optional := by decide

end Ty

end ClassLang
