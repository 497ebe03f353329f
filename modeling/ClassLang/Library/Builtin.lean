import ClassLang.Library.MemberKey
import ClassLang.Library.Native
import ClassLang.Library.Ty

/-!
# The built-in classes

`any`, `number`, `string`, `boolean` and `IO`: their fields, the signatures of their methods and the
natives behind them. A class's index in the list is both its type and its construct.
-/

namespace ClassLang

/-- A method of a built-in class. -/
structure BuiltinMethod where
  key : MemberKey
  params : List Ty
  returns : Ty
  native : Native
deriving DecidableEq, Repr

/-- A built-in class. Nothing can inherit from a sealed one. -/
structure BuiltinClass where
  name : String
  parent : Option TypeId
  isSealed : Bool
  fields : List (String × Ty)
  methods : List BuiltinMethod
deriving DecidableEq, Repr

namespace Builtin

/-- Anything at all, null included. -/
def anything : Ty := .option TypeId.any

/-- The operator methods on numbers that take a number and return `returns`. -/
def numberMethods (returns : Ty) (ops : List (BinaryOp × Native)) : List BuiltinMethod :=
  ops.map fun (op, native) => ⟨.binary op, [.number], returns, native⟩

/-- The root of all classes. -/
def any : BuiltinClass where
  name := "any"
  parent := none
  isSealed := false
  fields := []
  methods := [
    ⟨.constructor, [], .unit, .anyNew⟩,
    ⟨.initializer, [], .unit, .anyInit⟩,
    ⟨.binary .equal, [anything], .boolean, .anyEqual⟩,
    ⟨.binary .notEqual, [anything], .boolean, .anyNotEqual⟩]

/-- Numbers. -/
def number : BuiltinClass where
  name := "number"
  parent := some TypeId.any
  isSealed := true
  fields := []
  methods :=
    numberMethods .number [(.add, .numberAdd), (.subtract, .numberSubtract),
      (.multiply, .numberMultiply), (.divide, .numberDivide), (.modulo, .numberModulo)] ++
    numberMethods .boolean [(.less, .numberLess), (.greater, .numberGreater),
      (.lessEqual, .numberLessEqual), (.greaterEqual, .numberGreaterEqual)] ++
    [⟨.unary .negate, [], .number, .numberNegate⟩]

/-- Strings. -/
def string : BuiltinClass where
  name := "string"
  parent := some TypeId.any
  isSealed := true
  fields := [("length", .number)]
  methods := [⟨.binary .add, [anything], .string, .stringConcat⟩]

/-- Truth values. -/
def boolean : BuiltinClass where
  name := "boolean"
  parent := some TypeId.any
  isSealed := true
  fields := []
  methods := [
    ⟨.binary .and, [.boolean], .boolean, .booleanAnd⟩,
    ⟨.binary .or, [.boolean], .boolean, .booleanOr⟩,
    ⟨.unary .not, [], .boolean, .booleanNot⟩]

/-- The console: a line out, a line in. -/
def console : BuiltinClass where
  name := "IO"
  parent := some TypeId.any
  isSealed := false
  fields := []
  methods := [
    ⟨.constructor, [], .unit, .anyNew⟩,
    ⟨.named "out", [anything], .unit, .consoleOut⟩,
    ⟨.named "in", [], .string, .consoleIn⟩]

/-- The built-in classes in the order of their indices. -/
def classes : List BuiltinClass := [any, number, string, boolean, console]

/-- The number of built-in classes; user classes have constructs from here on. -/
def count : Nat := classes.length

/-- The index and the description of the built-in class of a name. -/
def find? (name : String) : Option (TypeId × BuiltinClass) :=
  (classes.findIdx? (·.name == name)).bind fun id => (classes[id]?).map (id, ·)

example : count = TypeId.unit := by decide

/-- Every native gets the receiver and one argument per parameter. -/
example : ∀ c ∈ classes, ∀ m ∈ c.methods, m.native.arity = m.params.length + 1 := by decide

end Builtin

end ClassLang
