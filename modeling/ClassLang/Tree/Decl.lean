import ClassLang.Tree.Stmt

/-!
# Declarations

Classes with their fields, methods and constructors, and programs as lists of classes.
-/

namespace ClassLang

/-- Who may use a member: everyone, the classes above and below its own, or its own class alone. -/
inductive Access where
  | everyone | family | owner
deriving DecidableEq, Repr

namespace Access

/-- The spelling of an access level. -/
def text : Access → String
  | .everyone => "public"
  | .family => "protected"
  | .owner => "private"

/-- How narrow an access level is. -/
def narrowness : Access → Nat
  | .everyone => 0
  | .family => 1
  | .owner => 2

end Access

/-- What a method is called: a name, or an operator that it defines. -/
inductive MethodName where
  | named (name : Ident)
  | binary (op : BinaryOp) (span : Span)
  | unary (op : UnaryOp) (span : Span)
deriving DecidableEq, Repr

/-- Where the name was written. -/
def MethodName.span : MethodName → Span
  | .named name => name.span
  | .binary _ span => span
  | .unary _ span => span

/-- A parameter and its type. -/
structure Param where
  name : Ident
  type : TypeName
  span : Span
deriving DecidableEq, Repr

/-- `access name : Type = initializer`, the initializer being optional. -/
structure FieldDecl (ν : Type) where
  access : Access
  name : Ident
  type : TypeName
  initializer : Option (Expr ν)
  span : Span
deriving Repr

/-- `access override name(params) : Type body`, where `override` and the type are optional. -/
structure MethodDecl (ν : Type) where
  access : Access
  isOverride : Bool
  name : MethodName
  params : List Param
  returns : Option TypeName
  body : Stmt ν
  span : Span
deriving Repr

/-- `access new(params) : base(arguments) body`, the call of the parent's constructor being
optional. -/
structure ConstructorDecl (ν : Type) where
  access : Access
  params : List Param
  baseArguments : Option (List (Expr ν))
  body : Stmt ν
  span : Span
deriving Repr

/-- A member of a class. -/
inductive MemberDecl (ν : Type) where
  | field (decl : FieldDecl ν)
  | method (decl : MethodDecl ν)
  | constructor (decl : ConstructorDecl ν)
deriving Repr

/-- `class Name : Parent { members }`, the parent being optional. -/
structure ClassDecl (ν : Type) where
  name : Ident
  parent : Option Ident
  members : List (MemberDecl ν)
  span : Span
deriving Repr

/-- The classes of a file in the order of the text. -/
structure Program (ν : Type) where
  classes : List (ClassDecl ν)
  span : Span
deriving Repr

variable {ν : Type}

/-- The expression nodes of a member in the order of the text. -/
def MemberDecl.nodes : MemberDecl ν → List (Expr ν)
  | .field d => Expr.nodesList d.initializer.toList
  | .method d => d.body.nodes
  | .constructor d => Expr.nodesList (d.baseArguments.getD []) ++ d.body.nodes

namespace ClassDecl

/-- The fields of a class. -/
def fields (c : ClassDecl ν) : List (FieldDecl ν) :=
  c.members.filterMap fun | .field d => some d | _ => none

/-- The methods of a class. -/
def methods (c : ClassDecl ν) : List (MethodDecl ν) :=
  c.members.filterMap fun | .method d => some d | _ => none

/-- The constructors of a class; a class that checks has at most one. -/
def constructors (c : ClassDecl ν) : List (ConstructorDecl ν) :=
  c.members.filterMap fun | .constructor d => some d | _ => none

end ClassDecl

/-- The expression nodes of a program in the order of the text. -/
def Program.nodes (p : Program ν) : List (Expr ν) :=
  p.classes.flatMap fun c => c.members.flatMap MemberDecl.nodes

end ClassLang
