import ClassLang.Tree.Operator

/-!
# Keys of members

The key under which a class keeps a method. Operators, the constructor and the field initializer have
keys of their own, so no method name clashes with them.
-/

namespace ClassLang

/-- The key of a method, an operator, the constructor or the field initializer. -/
inductive MemberKey where
  | named (name : String)
  | binary (op : BinaryOp)
  | unary (op : UnaryOp)
  | constructor
  | initializer
deriving DecidableEq, Hashable, Repr

/-- The key as it is shown to a reader. -/
def MemberKey.text : MemberKey → String
  | .named name => name
  | .binary op => s!"binary {op.text}"
  | .unary op => s!"unary {op.text}"
  | .constructor => "new"
  | .initializer => "<init>"

end ClassLang
