import ClassLang.Typing.Hierarchy
import ClassLang.Typing.Member

/-!
# Checking programs

The hierarchy is built, the members of all classes are registered, the fields are laid out, and then
every member is checked. All errors are collected; a program without any yields an `Analysis`.
-/

namespace ClassLang

/-- A checked program: its classes, and its tree with the types of all expressions. -/
structure Analysis where
  classes : ClassTable
  program : Program Typing

namespace Registration

/-- The types of parameters. -/
def paramTypes (t : ClassTable) (params : List Param) : Except SemanticError (List Ty) :=
  params.mapM fun p => t.resolveType p.type

/-- The number of parameters that a method has to have because it is an operator. -/
def requiredParams? : MethodName → Option Nat
  | .named _ => none
  | .binary .. => some 1
  | .unary .. => some 0

/-- The type that a member returns. -/
def returnType (t : ClassTable) : Option TypeName → Except SemanticError Ty
  | some type => t.resolveType type
  | none => .ok .unit

/-- The entry of a method in the class table. -/
def methodOf (t : ClassTable) (decl : MethodDecl Span) : Except SemanticError Method := do
  let key := decl.name.key
  match requiredParams? decl.name with
  | some expected =>
    if decl.params.length ≠ expected then
      throw ⟨.operatorArity key.text expected decl.params.length, decl.name.span⟩
  | none => pure ()
  let params ← paramTypes t decl.params
  let returns ← returnType t decl.returns
  return ⟨key, decl.access, params, returns, decl.isOverride, decl.name.span⟩

/-- Enters a member of a class into the table. -/
def member (t : ClassTable) (id : TypeId) : MemberDecl Span → Except SemanticError ClassTable
  | .field decl => do
    let type ← t.resolveType decl.type
    t.addField id decl.name decl.access type
  | .method decl => do t.addMethod id (← methodOf t decl)
  | .constructor decl => do
    let params ← paramTypes t decl.params
    t.addMethod id ⟨.constructor, decl.access, params, .unit, false, decl.span⟩

/-- The members of a class with the news whether they could be entered, the table with them, and the
errors of the others. -/
structure Members where
  members : List (MemberDecl Span × Bool)
  table : ClassTable
  errors : List SemanticError

/-- Enters members one after the other. -/
def memberList (t : ClassTable) (id : TypeId) : List (MemberDecl Span) → Members
  | [] => ⟨[], t, []⟩
  | m :: ms =>
    match member t id m with
    | .ok t' =>
      let r := memberList t' id ms
      { r with members := (m, true) :: r.members }
    | .error e =>
      let r := memberList t id ms
      { r with members := (m, false) :: r.members, errors := e :: r.errors }

/-- The constructor of a class that declares none. -/
def implicitConstructor (d : ClassDecl Span) : Method :=
  ⟨.constructor, .everyone, [], .unit, false, d.name.span⟩

/-- A class whose members are entered. Only entered members are checked, and the implicit constructor
only if the class has it. -/
structure Entered where
  id : TypeId
  decl : ClassDecl Span
  members : List (MemberDecl Span × Bool)
  isImplicit : Bool

/-- Enters the members of a class, and a constructor if it declares none. -/
def classDecl (t : ClassTable) (id : TypeId) (d : ClassDecl Span) :
    Entered × ClassTable × List SemanticError :=
  let r := memberList t id d.members
  if d.constructors.isEmpty then
    match r.table.addMethod id (implicitConstructor d) with
    | .ok t' => (⟨id, d, r.members, true⟩, t', r.errors)
    | .error e => (⟨id, d, r.members, false⟩, r.table, r.errors ++ [e])
  else (⟨id, d, r.members, false⟩, r.table, r.errors)

/-- Enters the members of all classes. -/
def classList (t : ClassTable) :
    List (TypeId × ClassDecl Span) → List Entered × ClassTable × List SemanticError
  | [] => ([], t, [])
  | (id, d) :: rest =>
    let (entered, t', errors) := classDecl t id d
    let (others, t'', more) := classList t' rest
    (entered :: others, t'', errors ++ more)

end Registration

namespace Check

/-- Checks the members of a class that could be entered, one after the other. -/
def membersIn (env : Environment) (id : TypeId) :
    List (MemberDecl Span × Bool) → Checked (List (MemberDecl Typing))
  | [] => ⟨[], env, []⟩
  | (m, isEntered) :: ms =>
    let r := if isEntered then memberIn env id m else ⟨uncheckedMember m, env, []⟩
    let q := membersIn r.env id ms
    ⟨r.value :: q.value, q.env, r.errors ++ q.errors⟩

/-- Checks the members of a class, and its implicit constructor if it has one. -/
def classIn (env : Environment) (c : Registration.Entered) : Checked (ClassDecl Typing) :=
  let r := membersIn env c.id c.members
  let q := if c.isImplicit then implicitIn r.env c.id c.decl.name.span else ⟨(), r.env, []⟩
  ⟨⟨c.decl.name, c.decl.parent, r.value, c.decl.span⟩, q.env, r.errors ++ q.errors⟩

/-- Checks classes one after the other. -/
def classesIn (env : Environment) : List Registration.Entered → Checked (List (ClassDecl Typing))
  | [] => ⟨[], env, []⟩
  | c :: cs =>
    let r := classIn env c
    let q := classesIn r.env cs
    ⟨r.value :: q.value, q.env, r.errors ++ q.errors⟩

/-- Checks a program. -/
def program (p : Program Span) : Except (List SemanticError) Analysis :=
  let hierarchy := Hierarchy.build p.classes
  let (entered, table, entryErrors) := Registration.classList hierarchy.table hierarchy.classes
  let checked := classesIn (.outside table.layout) entered
  match hierarchy.errors ++ entryErrors ++ checked.errors with
  | [] => .ok ⟨checked.env.classes, ⟨checked.value, p.span⟩⟩
  | errors => .error errors

end Check

end ClassLang
