import ClassLang.Tree.Operator

/-!
# Instructions

The instructions of the machine. They work on the operands of the innermost frame; a jump names the
index of an instruction of the same chunk. Each operator has an instruction of its own for operands
known to be numbers or truth values.
-/

namespace ClassLang

/-- An instruction with its operands. -/
inductive Instr where
  /-- Push a constant of the pool. -/
  | pushConst (index : Nat)
  | pushZero
  | pushOne
  | pushTrue
  | pushFalse
  | pushNull
  | pop
  | dup
  /-- Push a local slot. -/
  | load (slot : Nat)
  /-- Pop into a local slot. -/
  | store (slot : Nat)
  /-- Make an instance, run its field initializer and push it. -/
  | new (construct : Nat)
  /-- Pop an instance and push the field in a slot. -/
  | getField (offset : Nat)
  /-- Pop a value and an instance, store the value in a slot and push it. -/
  | setField (offset : Nat)
  | jump (target : Nat)
  /-- Pop a truth value and jump if it is false. -/
  | jumpIfFalse (target : Nat)
  /-- Pop the result, leave the frame and push the result for the caller. -/
  | return
  /-- Call the member that a construct has. -/
  | invoke (construct member : Nat)
  /-- Call the member that the receiver's construct has; the named one tells the number of
  arguments. -/
  | callVirtual (construct member : Nat)
  /-- The same, with the root construct for a null receiver. -/
  | virtualOrAny (construct member : Nat)
  /-- Apply an operator to two numbers or two truth values. -/
  | binary (op : BinaryOp)
  /-- Apply an operator to a number or a truth value. -/
  | unary (op : UnaryOp)
  /-- Pop a value and push whether it is an instance of a construct, or null if that is allowed. -/
  | isInstance (construct : Nat) (nullable : Bool)
  | isNull
  /-- Fault unless the top value is an instance of a construct, or null if that is allowed. -/
  | cast (construct : Nat) (nullable : Bool)
  /-- Fault if the top value is null. -/
  | assert
deriving DecidableEq, Repr

/-- The mnemonic of an operator instruction. -/
def BinaryOp.mnemonic : BinaryOp → String
  | .add => "ADD"
  | .subtract => "SUB"
  | .multiply => "MUL"
  | .divide => "DIV"
  | .modulo => "MOD"
  | .less => "LT"
  | .greater => "GT"
  | .lessEqual => "LE"
  | .greaterEqual => "GE"
  | .equal => "EQ"
  | .notEqual => "NE"
  | .and => "AND"
  | .or => "OR"

/-- The mnemonic of an operator instruction. -/
def UnaryOp.mnemonic : UnaryOp → String
  | .negate => "NEG"
  | .not => "NOT"

namespace Instr

/-- The mnemonic of an instruction. -/
def mnemonic : Instr → String
  | .pushConst _ => "CONST"
  | .pushZero => "ZERO"
  | .pushOne => "ONE"
  | .pushTrue => "TRUE"
  | .pushFalse => "FALSE"
  | .pushNull => "NULL"
  | .pop => "POP"
  | .dup => "DUP"
  | .load _ => "LOAD"
  | .store _ => "STORE"
  | .new _ => "NEW"
  | .getField _ => "GET_FIELD"
  | .setField _ => "SET_FIELD"
  | .jump _ => "JUMP"
  | .jumpIfFalse _ => "JUMP_IF_FALSE"
  | .return => "RETURN"
  | .invoke .. => "INVOKE"
  | .callVirtual .. => "VIRTUAL"
  | .virtualOrAny .. => "VIRTUAL_OR_ANY"
  | .binary op => op.mnemonic
  | .unary op => op.mnemonic
  | .isInstance .. => "IS"
  | .isNull => "IS_NULL"
  | .cast .. => "CAST"
  | .assert => "ASSERT"

/-- The mark of an operand that admits null. -/
def nullMark (nullable : Bool) : String := if nullable then "?" else ""

/-- An instruction as it stands in a listing. -/
def text (i : Instr) : String :=
  match i with
  | .pushConst index => s!"{i.mnemonic} #{index}"
  | .load n | .store n | .getField n | .setField n => s!"{i.mnemonic} {n}"
  | .new construct => s!"{i.mnemonic} @{construct}"
  | .jump target | .jumpIfFalse target => s!"{i.mnemonic} -> {target}"
  | .invoke construct member | .callVirtual construct member | .virtualOrAny construct member =>
    s!"{i.mnemonic} @{construct} ${member}"
  | .isInstance construct nullable | .cast construct nullable =>
    s!"{i.mnemonic} @{construct}{nullMark nullable}"
  | _ => i.mnemonic

/-- The target of a jump. -/
def jumpTarget? : Instr → Option Nat
  | .jump target | .jumpIfFalse target => some target
  | _ => none

/-- The construct that an instruction names. -/
def construct? : Instr → Option Nat
  | .new construct | .invoke construct _ | .callVirtual construct _ | .virtualOrAny construct _
  | .isInstance construct _ | .cast construct _ => some construct
  | _ => none

/-- The member that an instruction calls. -/
def member? : Instr → Option Nat
  | .invoke _ member | .callVirtual _ member | .virtualOrAny _ member => some member
  | _ => none

/-- The local slot that an instruction uses. -/
def slot? : Instr → Option Nat
  | .load slot | .store slot => some slot
  | _ => none

/-- The constant that an instruction pushes. -/
def constant? : Instr → Option Nat
  | .pushConst index => some index
  | _ => none

end Instr

end ClassLang
