import ClassLang.Machine.Console
import ClassLang.Machine.Heap
import ClassLang.Number.Remainder

/-!
# Natives at work

What each native does with its arguments, the receiver first. Operands are checked from left to right,
and those of `and` and `or` only as far as they are needed.
-/

namespace ClassLang

namespace Value

/-- A function of two numbers. -/
def ofNumbers (a b : Value) (f : Float → Float → Value) : Except Fault Value := do
  let x ← a.asNumber
  let y ← b.asNumber
  return f x y

end Value

namespace Native

/-- The value of a native that leaves the console alone, given the texts of values. The first argument is
the receiver. -/
def value (text : Value → String) (native : Native) (args : List Value) : Except Fault Value :=
  match native, args with
  | .anyNew, [_] => .ok .null
  | .anyInit, [a] => .ok a
  | .anyEqual, [a, b] => .ok (.boolean (a.equals b))
  | .anyNotEqual, [a, b] => .ok (.boolean (!a.equals b))
  | .numberAdd, [a, b] => a.ofNumbers b fun x y => .number (x + y)
  | .numberSubtract, [a, b] => a.ofNumbers b fun x y => .number (x - y)
  | .numberMultiply, [a, b] => a.ofNumbers b fun x y => .number (x * y)
  | .numberDivide, [a, b] => a.ofNumbers b fun x y => .number (x / y)
  | .numberModulo, [a, b] => a.ofNumbers b fun x y => .number (Number.remainder x y)
  | .numberLess, [a, b] => a.ofNumbers b fun x y => .boolean (x < y)
  | .numberGreater, [a, b] => a.ofNumbers b fun x y => .boolean (y < x)
  | .numberLessEqual, [a, b] => a.ofNumbers b fun x y => .boolean (x ≤ y)
  | .numberGreaterEqual, [a, b] => a.ofNumbers b fun x y => .boolean (y ≤ x)
  | .numberNegate, [a] => return .number (-(← a.asNumber))
  | .stringConcat, [a, b] => return .string ((← a.asString) ++ text b)
  | .booleanAnd, [a, b] => do
    if ← a.asBoolean then return .boolean (← b.asBoolean) else return .boolean false
  | .booleanOr, [a, b] => do
    if ← a.asBoolean then return .boolean true else return .boolean (← b.asBoolean)
  | .booleanNot, [a] => return .boolean (!(← a.asBoolean))
  | _, _ => .error (.code (.nativeArguments native args.length))

/-- The value of a native and the console behind it, given the texts of values. -/
def apply (text : Value → String) (console : Console) (native : Native) (args : List Value) :
    Except Fault Value × Console :=
  match native, args with
  | .consoleOut, [_, v] => (.ok .null, console.writeLine (text v))
  | .consoleIn, [_] =>
    let (line, console) := console.readLine
    (line.map .string, console)
  | _, _ => (native.value text args, console)

/-- Calls a native. -/
def call (image : Image) (heap : Heap) (console : Console) (native : Native) (args : List Value) :
    Except Fault Value × Console :=
  native.apply (heap.text image) console args

end Native

end ClassLang
