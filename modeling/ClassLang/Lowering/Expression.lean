import ClassLang.Image.Instr
import ClassLang.Lowering.Pools
import ClassLang.Lowering.Slots
import ClassLang.Typing.Expression

/-!
# Code of expressions

The code of an expression leaves its value on the stack. Operators on two numbers or two truth values
have an instruction of their own; all others call the operator method of the left operand. Calls are
bound when they run, except those on `base`, which are bound to the parent class.
-/

namespace ClassLang

/-- The construct of a class. Every class has one but the unit type, so those behind it move up by
one. -/
def TypeId.construct? (id : TypeId) : Option Nat :=
  if id < TypeId.unit then some id else if id = TypeId.unit then none else some (id - 1)

namespace Lower

/-- The construct of a class that has to have one. -/
def constructOf (t : ClassTable) (id : TypeId) : Lower Nat :=
  match TypeId.construct? id with
  | some index => pure index
  | none => fail (.noConstruct (t.name id))

/-- The type that the check found. -/
def typeOf (e : Expr Typing) : Lower Ty :=
  match e.note.type with
  | some type => pure type
  | none => fail (.untyped e.note.span)

/-- The class whose members values of a type have. -/
def classOf (type : Ty) : TypeId := type.class?.getD TypeId.any

/-- The slot of a field in instances of a class. -/
def fieldOffset (t : ClassTable) (id : TypeId) (name : String) : Lower Nat :=
  match t.lookupField? id name with
  | some (_, f) => if f.offset ≤ 65535 then pure f.offset else fail .offsetOutOfRange
  | none => fail (.fieldNotFound name)

/-- The operator has an instruction for operands of these types. -/
def isDedicated (op : BinaryOp) (left right : Ty) : Bool :=
  let numbers := left = .number ∧ right = .number
  let booleans := left = .boolean ∧ right = .boolean
  match op with
  | .equal | .notEqual => numbers ∨ booleans
  | .and | .or => booleans
  | _ => numbers

/-- The operator has an instruction for an operand of this type. -/
def isDedicatedUnary (op : UnaryOp) (type : Ty) : Bool :=
  match op with
  | .negate => type = .number
  | .not => type = .boolean

/-- The code that pushes a number. -/
def number (value : Float) : Lower Instr :=
  if value.toBits = (0.0 : Float).toBits then pure .pushZero
  else if value.toBits = (1.0 : Float).toBits then pure .pushOne
  else .pushConst <$> constant (.number value)

/-- The type that an `is` or `as` tests for. -/
def testTarget (t : ClassTable) (target : TypeName) : Lower Ty :=
  match t.resolveType target with
  | .ok type => pure type
  | .error e => fail (.unresolvedType e.cause)

/-- The code of a call on an object. -/
def call (object : Expr Typing) (construct member : Nat) : Instr :=
  match object with
  | .base _ => .invoke construct member
  | _ => .callVirtual construct member

mutual

/-- The code of an expression. -/
def expr (t : ClassTable) (slots : Slots) : Expr Typing → Lower (List Instr)
  | .number value _ => return [← number value]
  | .string content _ => return [.pushConst (← constant (.string content))]
  | .boolean value _ => return [if value then .pushTrue else .pushFalse]
  | .null _ => return [.pushNull]
  | .name x _ => return [.load (← slots.lookup x)]
  | .this _ | .base _ => return [.load 0]
  | .member object property _ => do
    let code ← expr t slots object
    let offset ← fieldOffset t (classOf (← typeOf object)) property.name
    return code ++ [.getField offset]
  | .call (.member object property _) arguments _ => do
    let m ← member (.named property.name)
    let construct ← constructOf t (classOf (← typeOf object))
    let receiver ← expr t slots object
    let rest ← exprs t slots arguments
    return receiver ++ rest ++ [call object construct m]
  | .call .. => fail .calleeNotMember
  | .new className arguments _ => do
    match t.resolve className with
    | .error e => fail (.unresolvedType e.cause)
    | .ok id =>
      let construct ← constructOf t id
      let m ← member .constructor
      let rest ← exprs t slots arguments
      return [.new construct, .dup] ++ rest ++ [.invoke construct m, .pop]
  | .assign (.name x _) value _ => do
    let slot ← slots.lookup x
    let code ← expr t slots value
    return code ++ [.dup, .store slot]
  | .assign (.member object property _) value _ => do
    let offset ← fieldOffset t (classOf (← typeOf object)) property.name
    let receiver ← expr t slots object
    let code ← expr t slots value
    return receiver ++ code ++ [.setField offset]
  | .assign .. => fail .targetNotAssignable
  | .binary op left right _ => do
    let leftType ← typeOf left
    let rightType ← typeOf right
    let operands := (← expr t slots left) ++ (← expr t slots right)
    if isDedicated op leftType rightType then return operands ++ [.binary op]
    else
      let m ← member (.binary op)
      let construct ← constructOf t (classOf leftType)
      if leftType.isNullable && op.isEquality then return operands ++ [.virtualOrAny construct m]
      else return operands ++ [.callVirtual construct m]
  | .unary op operand _ => do
    let type ← typeOf operand
    let code ← expr t slots operand
    if isDedicatedUnary op type then return code ++ [.unary op]
    else
      let construct ← constructOf t (classOf type)
      let m ← member (.unary op)
      return code ++ [.callVirtual construct m]
  | .assert operand _ => return (← expr t slots operand) ++ [.assert]
  | .instanceTest operand target _ => do
    let code ← expr t slots operand
    match ← testTarget t target with
    | .null => return code ++ [.isNull]
    | .plain id => return code ++ [.isInstance (← constructOf t id) false]
    | .option id => return code ++ [.isInstance (← constructOf t id) true]
  | .cast operand target _ => do
    let code ← expr t slots operand
    match ← testTarget t target with
    | .null => fail .castToNull
    | .plain id => return code ++ [.cast (← constructOf t id) false]
    | .option id => return code ++ [.cast (← constructOf t id) true]

/-- The code of arguments, one after the other. -/
def exprs (t : ClassTable) (slots : Slots) : List (Expr Typing) → Lower (List Instr)
  | [] => return []
  | e :: es => return (← expr t slots e) ++ (← exprs t slots es)

end

end Lower

end ClassLang
