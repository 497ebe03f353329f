import ClassLang.Library.Native

/-!
# Faults

What stops the machine. A fault names the values and members it is about as a reader knows them.
-/

namespace ClassLang

/-- The kind of a value. -/
inductive Kind where
  | null | number | boolean | string | object
deriving DecidableEq, Repr

/-- The name of a kind. -/
def Kind.text : Kind → String
  | .null => "null"
  | .number => "number"
  | .boolean => "boolean"
  | .string => "string"
  | .object => "instance"

/-- A value of the wrong kind. -/
inductive KindFault where
  | unexpected (expected found : Kind)
  | noField (found : Kind) (offset : Nat)
  | noFields (found : Kind)
deriving DecidableEq, Repr

namespace KindFault

/-- The kind of the value that is at fault. -/
def found : KindFault → Kind
  | .unexpected _ found | .noField found _ | .noFields found => found

/-- The wording of the fault. -/
def text : KindFault → String
  | .unexpected expected found => s!"expected {expected.text}, found {found.text}"
  | .noField found offset => s!"{found.text} has no field #{offset}"
  | .noFields found => s!"cannot assign fields of {found.text}"

end KindFault

/-- Code that refers to something that is not there. -/
inductive CodeFault where
  | pastEnd (ip : Nat)
  | localSlot (slot : Nat)
  | constant (index : Nat)
  | construct (index : Nat)
  | fieldOffset (offset fieldCount : Nat)
  | arity (name : String) (actual : Nat) (owner : String) (expected : Nat) (declared : String)
  | nativeArguments (native : Native) (given : Nat)
deriving DecidableEq, Repr

/-- The wording of the fault. -/
def CodeFault.text : CodeFault → String
  | .pastEnd ip => s!"instruction pointer {ip} past end of chunk"
  | .localSlot slot => s!"local slot {slot} out of range"
  | .constant index => s!"constant #{index} out of range"
  | .construct index => s!"construct @{index} out of range"
  | .fieldOffset offset count =>
    s!"field offset {offset} out of bounds (instance has {count} fields)"
  | .arity name actual owner expected declared =>
    s!"'{name}' takes {actual} arguments on '{owner}' but {expected} on '{declared}'"
  | .nativeArguments native given =>
    s!"native {native.text} expects {native.arity} arguments, got {given}"

/-- What stops the machine. -/
inductive Fault where
  | stackUnderflow
  | nullReceiver (memberName : String)
  | nullAssertion
  | invalidCast (value target : String)
  | missingBody (constructName memberName : String)
  | kind (fault : KindFault)
  | code (fault : CodeFault)
  | malformedInput
deriving DecidableEq, Repr

/-- The wording of a fault. -/
def Fault.message : Fault → String
  | .stackUnderflow => "Stack underflow"
  | .nullReceiver name => s!"Null receiver for '{name}'"
  | .nullAssertion => "Assertion failed: value is null"
  | .invalidCast value target => s!"Invalid cast: {value} is not {target}"
  | .missingBody owner name => s!"No chunk for '{name}' on '{owner}'"
  | .kind fault => s!"Type error: {fault.text}"
  | .code fault => s!"Invalid bytecode: {fault.text}"
  | .malformedInput => "IO error: stream did not contain valid UTF-8"

end ClassLang
