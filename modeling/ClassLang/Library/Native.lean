/-!
# Natives

The operations that the machine provides itself, behind the methods of the built-in classes.
-/

namespace ClassLang

/-- An operation of the machine. -/
inductive Native where
  | anyNew | anyInit | anyEqual | anyNotEqual
  | numberAdd | numberSubtract | numberMultiply | numberDivide | numberModulo
  | numberLess | numberGreater | numberLessEqual | numberGreaterEqual | numberNegate
  | stringConcat
  | booleanAnd | booleanOr | booleanNot
  | consoleOut | consoleIn
deriving DecidableEq, Repr

namespace Native

/-- Every native. -/
def all : List Native :=
  [.anyNew, .anyInit, .anyEqual, .anyNotEqual, .numberAdd, .numberSubtract, .numberMultiply,
    .numberDivide, .numberModulo, .numberLess, .numberGreater, .numberLessEqual,
    .numberGreaterEqual, .numberNegate, .stringConcat, .booleanAnd, .booleanOr, .booleanNot,
    .consoleOut, .consoleIn]

/-- The name of a native in images and listings. -/
def text : Native → String
  | .anyNew => "AnyNew"
  | .anyInit => "AnyInit"
  | .anyEqual => "AnyEqual"
  | .anyNotEqual => "AnyNotEqual"
  | .numberAdd => "NumberAdd"
  | .numberSubtract => "NumberSubtract"
  | .numberMultiply => "NumberMultiply"
  | .numberDivide => "NumberDivide"
  | .numberModulo => "NumberModulo"
  | .numberLess => "NumberLess"
  | .numberGreater => "NumberGreater"
  | .numberLessEqual => "NumberLessEqual"
  | .numberGreaterEqual => "NumberGreaterEqual"
  | .numberNegate => "NumberNegate"
  | .stringConcat => "StringConcat"
  | .booleanAnd => "BooleanAnd"
  | .booleanOr => "BooleanOr"
  | .booleanNot => "BooleanNot"
  | .consoleOut => "IoOut"
  | .consoleIn => "IoIn"

/-- The native of a given name. -/
def ofText? (s : String) : Option Native := all.find? (·.text == s)

/-- The number of arguments, the receiver included. -/
def arity : Native → Nat
  | .anyNew | .anyInit | .numberNegate | .booleanNot | .consoleIn => 1
  | _ => 2

example : all.length = 20 := by decide

end Native

end ClassLang
