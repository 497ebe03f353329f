/-!
# Operators

The operators that a class can define. The same ones stand in expressions and name operator methods.
-/

namespace ClassLang

/-- Operators between two operands. -/
inductive BinaryOp where
  | add | subtract | multiply | divide | modulo
  | and | or
  | equal | notEqual | less | greater | lessEqual | greaterEqual
deriving DecidableEq, Hashable, Repr

namespace BinaryOp

/-- The spelling of an operator. -/
def text : BinaryOp → String
  | .add => "+"
  | .subtract => "-"
  | .multiply => "*"
  | .divide => "/"
  | .modulo => "%"
  | .and => "&&"
  | .or => "||"
  | .equal => "=="
  | .notEqual => "!="
  | .less => "<"
  | .greater => ">"
  | .lessEqual => "<="
  | .greaterEqual => ">="

/-- `==` and `!=`, which also take operands that may be null. -/
def isEquality : BinaryOp → Bool
  | .equal | .notEqual => true
  | _ => false

end BinaryOp

/-- Operators in front of one operand. -/
inductive UnaryOp where
  | negate | not
deriving DecidableEq, Hashable, Repr

/-- The spelling of an operator. -/
def UnaryOp.text : UnaryOp → String
  | .negate => "-"
  | .not => "!"

end ClassLang
