import ClassLang.Machine.Frame
import ClassLang.Machine.Native

/-!
# Steps of the machine

A machine has a frame that is at work, the frames that wait for it, the heap and the console. `step`
executes one instruction: the machine goes on, halts with a result, or stops with a fault.
-/

namespace ClassLang

/-- The state of a run. The callers wait, the latest first. -/
structure Machine where
  frame : Frame
  callers : List Frame
  heap : Heap
  console : Console
deriving Repr

/-- What an instruction leads to. -/
inductive Outcome where
  | next (machine : Machine)
  | halt (result : Value) (heap : Heap) (console : Console)
  | fault (cause : Fault) (console : Console)
deriving Repr

namespace Machine

/-- The machine before the first instruction of an image. -/
def start (image : Image) (console : Console) : Machine :=
  ⟨.start image.entry [], [], .empty, console⟩

/-- Goes on with a changed frame, or stops. -/
def withFrame (m : Machine) : Except Fault Frame → Outcome
  | .ok frame => .next { m with frame }
  | .error e => .fault e m.console

/-! ## Calls -/

/-- The body of a member that a construct has or inherits, with its owner. -/
def resolve (image : Image) (construct member : Nat) : Except Fault (Nat × Body) :=
  match image.resolve? construct member with
  | some found => .ok found
  | none =>
    .error (.missingBody (image.constructName construct) (image.memberName member))

/-- Runs a body. A native pushes its result at once; a chunk gets a frame of its own. -/
def call (image : Image) (m : Machine) (body : Body) (args : List Value) : Outcome :=
  match body with
  | .native native _ =>
    match native.call image m.heap m.console args with
    | (.ok v, console) => .next { m with frame := m.frame.push v, console }
    | (.error e, console) => .fault e console
  | .compiled chunk =>
    .next { m with frame := .start chunk args, callers := m.frame :: m.callers }

/-- A body with its arguments, and the frame without them. -/
abbrev Target := Body × List Value × Frame

/-- The target of a call that is bound to a construct. -/
def staticTarget (image : Image) (f : Frame) (construct member : Nat) : Except Fault Target := do
  let (_, body) ← resolve image construct member
  let (args, f) ← f.popMany body.arguments
  return (body, args, f)

/-- The target of a call that is bound to the receiver's construct, or to `onNull` if the receiver is
null. The body that the static construct has tells where the receiver lies, and both bodies take the
same number of arguments. -/
def virtualTarget (image : Image) (heap : Heap) (f : Frame) (construct member : Nat)
    (onNull : Option Nat) : Except Fault Target := do
  let (_, declared) ← resolve image construct member
  let receiver ← f.peekAt (declared.arguments - 1)
  match (heap.construct? receiver).or onNull with
  | none => throw (.nullReceiver (image.memberName member))
  | some own =>
    let (owner, body) ← resolve image own member
    if body.arguments ≠ declared.arguments then
      throw (.code (.arity (image.memberName member) body.arguments (image.constructName owner)
        declared.arguments (image.constructName construct)))
    let (args, f) ← f.popMany declared.arguments
    return (body, args, f)

/-- Calls a target, or stops. -/
def callTarget (image : Image) (m : Machine) : Except Fault Target → Outcome
  | .ok (body, args, frame) => { m with frame }.call image body args
  | .error e => .fault e m.console

/-! ## Objects -/

/-- Makes an instance and runs its field initializer, which returns it. -/
def new (image : Image) (m : Machine) (index : Nat) : Outcome :=
  match image.construct? index with
  | none => .fault (.code (.construct index)) m.console
  | some c =>
    let (v, heap) := m.heap.allocate index c.fieldCount
    match image.memberId? .initializer with
    | none => .next { m with frame := m.frame.push v, heap }
    | some member =>
      match resolve image index member with
      | .ok (_, body) => { m with heap }.call image body [v]
      | .error e => .fault e m.console

/-- Pops an object and pushes one of its fields. -/
def getField (m : Machine) (offset : Nat) : Except Fault Frame := do
  let (target, f) ← m.frame.pop
  return f.push (← m.heap.field target offset)

/-- Pops a value and an object, assigns one of its fields and pushes the value. -/
def setField (m : Machine) (offset : Nat) : Except Fault (Frame × Heap) := do
  let (v, f) ← m.frame.pop
  let (target, f) ← f.pop
  return (f.push v, ← m.heap.setField target offset v)

/-! ## Instructions -/

/-- Pushes a constant. -/
def pushConstant (image : Image) (f : Frame) (index : Nat) : Except Fault Frame :=
  match image.constantValue? index with
  | some v => .ok (f.push v)
  | none => .error (.code (.constant index))

/-- Leaves the top operand if it has the type. -/
def castTop (image : Image) (m : Machine) (construct : Nat) (nullable : Bool) :
    Except Fault Frame := do
  let v ← m.frame.peek
  if m.heap.isInstance image v construct nullable then return m.frame
  else
    throw (.invalidCast (m.heap.text image v)
      (image.constructName construct ++ Instr.nullMark nullable))

/-- Pops the result of the frame and hands it to the caller. The last frame hands it to the outside. -/
def leave (m : Machine) : Outcome :=
  match m.frame.pop, m.callers with
  | .error e, _ => .fault e m.console
  | .ok (v, _), [] => .halt v m.heap m.console
  | .ok (v, _), caller :: callers => .next { m with frame := caller.push v, callers }

/-- Executes an instruction. -/
def execute (image : Image) (m : Machine) (i : Instr) : Outcome :=
  let f := m.frame
  match i with
  | .pushConst index => m.withFrame (pushConstant image f index)
  | .pushZero => m.withFrame (.ok (f.push (.number 0.0)))
  | .pushOne => m.withFrame (.ok (f.push (.number 1.0)))
  | .pushTrue => m.withFrame (.ok (f.push (.boolean true)))
  | .pushFalse => m.withFrame (.ok (f.push (.boolean false)))
  | .pushNull => m.withFrame (.ok (f.push .null))
  | .pop => m.withFrame (f.pop.map (·.2))
  | .dup => m.withFrame (f.peek.map f.push)
  | .load slot => m.withFrame ((f.load slot).map f.push)
  | .store slot => m.withFrame do let (v, f) ← f.pop; f.store slot v
  | .new index => m.new image index
  | .getField offset => m.withFrame (m.getField offset)
  | .setField offset =>
    match m.setField offset with
    | .ok (frame, heap) => .next { m with frame, heap }
    | .error e => .fault e m.console
  | .jump target => m.withFrame (.ok (f.jump target))
  | .jumpIfFalse target => m.withFrame do
    let (b, f) ← f.popBoolean
    return if b then f else f.jump target
  | .return => m.leave
  | .invoke c member => m.callTarget image (staticTarget image f c member)
  | .callVirtual c member => m.callTarget image (virtualTarget image m.heap f c member none)
  | .virtualOrAny c member =>
    m.callTarget image (virtualTarget image m.heap f c member (some TypeId.any))
  | .binary op => m.withFrame (f.binary op)
  | .unary op => m.withFrame (f.unary op)
  | .isInstance c nullable => m.withFrame do
    let (v, f) ← f.pop
    return f.push (.boolean (m.heap.isInstance image v c nullable))
  | .isNull => m.withFrame do
    let (v, f) ← f.pop
    return f.push (.boolean (v.kind = .null))
  | .cast c nullable => m.withFrame (m.castTop image c nullable)
  | .assert => m.withFrame do
    let v ← f.peek
    if v.kind = .null then throw .nullAssertion else return f

/-- Executes the next instruction. -/
def step (image : Image) (m : Machine) : Outcome :=
  match m.frame.fetch with
  | .ok (i, frame) => { m with frame }.execute image i
  | .error e => .fault e m.console

end Machine

end ClassLang
