import ClassLang.Source.Span
import ClassLang.Tree.Operator

/-!
# Expressions

An expression tree carries a note at every node: its span when it comes from a text, and its type as
well once it is checked. `Expr.map` changes the notes and keeps the rest.
-/

namespace ClassLang

/-- A name and where it was written. -/
structure Ident where
  name : String
  span : Span
deriving DecidableEq, Repr

/-- A written type: a class, a class or null, or `null` alone in a test. -/
inductive TypeName where
  | named (name : Ident)
  | optional (name : Ident) (span : Span)
  | null (span : Span)
deriving DecidableEq, Repr

namespace TypeName

/-- Where the type was written. -/
def span : TypeName → Span
  | .named name => name.span
  | .optional _ span => span
  | .null span => span

/-- The type as it is written. -/
def text : TypeName → String
  | .named name => name.name
  | .optional name _ => s!"{name.name}?"
  | .null _ => "null"

end TypeName

/-- An expression with a note of type `ν` at every node. -/
inductive Expr (ν : Type) where
  | number (value : Float) (note : ν)
  | string (content : String) (note : ν)
  | boolean (value : Bool) (note : ν)
  | null (note : ν)
  | name (name : String) (note : ν)
  | this (note : ν)
  | base (note : ν)
  | member (object : Expr ν) (property : Ident) (note : ν)
  | call (callee : Expr ν) (arguments : List (Expr ν)) (note : ν)
  | new (className : Ident) (arguments : List (Expr ν)) (note : ν)
  | assign (target value : Expr ν) (note : ν)
  | binary (op : BinaryOp) (left right : Expr ν) (note : ν)
  | unary (op : UnaryOp) (operand : Expr ν) (note : ν)
  | assert (operand : Expr ν) (note : ν)
  | instanceTest (operand : Expr ν) (target : TypeName) (note : ν)
  | cast (operand : Expr ν) (target : TypeName) (note : ν)
deriving Repr

namespace Expr

variable {ν μ : Type}

/-- The note at the root. -/
def note : Expr ν → ν
  | .number _ n | .string _ n | .boolean _ n | .null n | .name _ n | .this n | .base n
  | .member _ _ n | .call _ _ n | .new _ _ n | .assign _ _ n | .binary _ _ _ n | .unary _ _ n
  | .assert _ n | .instanceTest _ _ n | .cast _ _ n => n

mutual
/-- The same expression with changed notes. -/
def map (f : ν → μ) : Expr ν → Expr μ
  | .number v n => .number v (f n)
  | .string s n => .string s (f n)
  | .boolean b n => .boolean b (f n)
  | .null n => .null (f n)
  | .name x n => .name x (f n)
  | .this n => .this (f n)
  | .base n => .base (f n)
  | .member e p n => .member (e.map f) p (f n)
  | .call e es n => .call (e.map f) (mapList f es) (f n)
  | .new c es n => .new c (mapList f es) (f n)
  | .assign e v n => .assign (e.map f) (v.map f) (f n)
  | .binary op l r n => .binary op (l.map f) (r.map f) (f n)
  | .unary op e n => .unary op (e.map f) (f n)
  | .assert e n => .assert (e.map f) (f n)
  | .instanceTest e t n => .instanceTest (e.map f) t (f n)
  | .cast e t n => .cast (e.map f) t (f n)

/-- `map` on each of several expressions. -/
def mapList (f : ν → μ) : List (Expr ν) → List (Expr μ)
  | [] => []
  | e :: es => e.map f :: mapList f es
end

mutual
/-- The nodes of an expression, each before its parts and the parts in the order of the text. -/
def nodes : Expr ν → List (Expr ν)
  | .member e p n => .member e p n :: e.nodes
  | .call e es n => .call e es n :: (e.nodes ++ nodesList es)
  | .new c es n => .new c es n :: nodesList es
  | .assign e v n => .assign e v n :: (e.nodes ++ v.nodes)
  | .binary op l r n => .binary op l r n :: (l.nodes ++ r.nodes)
  | .unary op e n => .unary op e n :: e.nodes
  | .assert e n => .assert e n :: e.nodes
  | .instanceTest e t n => .instanceTest e t n :: e.nodes
  | .cast e t n => .cast e t n :: e.nodes
  | e => [e]

/-- The nodes of several expressions, one after the other. -/
def nodesList : List (Expr ν) → List (Expr ν)
  | [] => []
  | e :: es => e.nodes ++ nodesList es
end

end Expr

end ClassLang
