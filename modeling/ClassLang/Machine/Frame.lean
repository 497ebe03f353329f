import ClassLang.Image.Basic
import ClassLang.Machine.Heap
import ClassLang.Number.Remainder

/-!
# Frames

The activation of a chunk: the next instruction, the operands and the local slots. An operation takes its
operands from the frame and gives the frame after it, or the fault that stops the machine.
-/

namespace ClassLang

/-- The activation of a chunk. The top of the stack comes first. -/
structure Frame where
  code : Array Instr
  ip : Nat
  stack : List Value
  locals : Array Value
deriving Repr

namespace Frame

/-- A frame that starts a chunk. Arguments take the first slots, and the other slots are null. -/
def start (chunk : Chunk) (args : List Value) : Frame where
  code := chunk.code
  ip := 0
  stack := []
  locals := (args ++ List.replicate (chunk.locals - args.length) Value.null).toArray

/-- The next instruction, and the frame behind it. -/
def fetch (f : Frame) : Except Fault (Instr × Frame) :=
  match f.code[f.ip]? with
  | some i => .ok (i, { f with ip := f.ip + 1 })
  | none => .error (.code (.pastEnd f.ip))

/-- Goes on at an instruction. -/
def jump (f : Frame) (target : Nat) : Frame := { f with ip := target }

/-! ## Operands -/

/-- The number of operands. -/
def depth (f : Frame) : Nat := f.stack.length

/-- Pushes an operand. -/
def push (f : Frame) (v : Value) : Frame := { f with stack := v :: f.stack }

/-- Pops the top operand. -/
def pop (f : Frame) : Except Fault (Value × Frame) :=
  match f.stack with
  | v :: rest => .ok (v, { f with stack := rest })
  | [] => .error .stackUnderflow

/-- The operand with as many others above it. -/
def peekAt (f : Frame) (n : Nat) : Except Fault Value :=
  match f.stack[n]? with
  | some v => .ok v
  | none => .error .stackUnderflow

/-- The top operand. -/
def peek (f : Frame) : Except Fault Value := f.peekAt 0

/-- Pops operands; the one pushed first comes first. -/
def popMany (f : Frame) (n : Nat) : Except Fault (List Value × Frame) :=
  if n ≤ f.depth then .ok ((f.stack.take n).reverse, { f with stack := f.stack.drop n })
  else .error .stackUnderflow

/-- Pops a number. -/
def popNumber (f : Frame) : Except Fault (Float × Frame) := do
  let (v, f) ← f.pop
  return (← v.asNumber, f)

/-- Pops a truth value. -/
def popBoolean (f : Frame) : Except Fault (Bool × Frame) := do
  let (v, f) ← f.pop
  return (← v.asBoolean, f)

/-! ## Local slots -/

/-- The value in a slot. -/
def load (f : Frame) (slot : Nat) : Except Fault Value :=
  match f.locals[slot]? with
  | some v => .ok v
  | none => .error (.code (.localSlot slot))

/-- Puts a value into a slot. -/
def store (f : Frame) (slot : Nat) (v : Value) : Except Fault Frame :=
  if h : slot < f.locals.size then .ok { f with locals := f.locals.set slot v h }
  else .error (.code (.localSlot slot))

/-! ## Operators -/

/-- Applies a function to two numbers, the right one on top. -/
def onNumbers (f : Frame) (g : Float → Float → Value) : Except Fault Frame := do
  let (y, f) ← f.popNumber
  let (x, f) ← f.popNumber
  return f.push (g x y)

/-- Applies a function to two truth values, the right one on top. -/
def onBooleans (f : Frame) (g : Bool → Bool → Bool) : Except Fault Frame := do
  let (b, f) ← f.popBoolean
  let (a, f) ← f.popBoolean
  return f.push (.boolean (g a b))

/-- Applies a function to two values, the right one on top. -/
def onValues (f : Frame) (g : Value → Value → Bool) : Except Fault Frame := do
  let (b, f) ← f.pop
  let (a, f) ← f.pop
  return f.push (.boolean (g a b))

/-- Applies a binary operator. Both operands are there, so `and` and `or` check both. -/
def binary (f : Frame) : BinaryOp → Except Fault Frame
  | .add => f.onNumbers fun x y => .number (x + y)
  | .subtract => f.onNumbers fun x y => .number (x - y)
  | .multiply => f.onNumbers fun x y => .number (x * y)
  | .divide => f.onNumbers fun x y => .number (x / y)
  | .modulo => f.onNumbers fun x y => .number (Number.remainder x y)
  | .less => f.onNumbers fun x y => .boolean (x < y)
  | .greater => f.onNumbers fun x y => .boolean (y < x)
  | .lessEqual => f.onNumbers fun x y => .boolean (x ≤ y)
  | .greaterEqual => f.onNumbers fun x y => .boolean (y ≤ x)
  | .equal => f.onValues Value.equals
  | .notEqual => f.onValues fun a b => !a.equals b
  | .and => f.onBooleans (· && ·)
  | .or => f.onBooleans (· || ·)

/-- Applies a unary operator. -/
def unary (f : Frame) : UnaryOp → Except Fault Frame
  | .negate => do
    let (x, f) ← f.popNumber
    return f.push (.number (-x))
  | .not => do
    let (b, f) ← f.popBoolean
    return f.push (.boolean (!b))

end Frame

/-! ## Types of values -/

namespace Heap

/-- A value is an instance of a construct, or null where that is allowed. -/
def isInstance (h : Heap) (image : Image) (v : Value) (construct : Nat) (nullable : Bool) : Bool :=
  match h.construct? v with
  | none => nullable
  | some own => image.isInstance own construct

end Heap

namespace Image

/-- The name of a construct in a fault. -/
def constructName (image : Image) (index : Nat) : String :=
  ((image.construct? index).map (·.name)).getD s!"@{index}"

/-- The name of a member in a fault. -/
def memberName (image : Image) (member : Nat) : String :=
  ((image.member? member).map (·.text)).getD s!"${member}"

/-- A constant as a value. -/
def constantValue? (image : Image) (index : Nat) : Option Value :=
  (image.constants.get? index).map fun
    | .number x => .number x
    | .string s => .string s

end Image

end ClassLang
