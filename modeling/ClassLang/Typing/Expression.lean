import ClassLang.Typing.Environment

/-!
# Types of expressions

`infer` finds the type of an expression from the types of its parts and writes it at every node. The
callee of a call is the one node without a type: a method is no value. The first thing that is wrong
ends the check of the whole expression.
-/

namespace ClassLang

/-- The note of a checked expression: where it stands, and its type unless it is a callee. -/
structure Typing where
  span : Span
  type : Option Ty
deriving DecidableEq, Repr

/-- The note of an expression that has no type. -/
def Typing.untyped (span : Span) : Typing := ⟨span, none⟩

namespace Check

/-- A value of type `value` may be stored where `target` is required. -/
def assignable (env : Environment) (value target : Ty) (span : Span) : Except SemanticError Unit :=
  if env.classes.isAssignable value target then .ok ()
  else if value = .null then .error ⟨.notAnOption (env.classes.text target), span⟩
  else .error ⟨.typeMismatch (env.classes.text target) (env.classes.text value) none, span⟩

/-- The member being checked may use `member` of the class `owner`. -/
def accessible (env : Environment) (owner : TypeId) (member : String) (access : Access)
    (span : Span) : Except SemanticError Unit :=
  if env.classes.canAccess env.thisClass owner access then .ok ()
  else .error ⟨.memberInaccessible member (env.classes.name owner) access, span⟩

/-- The class of `this`. -/
def thisClass (env : Environment) (span : Span) : Except SemanticError TypeId :=
  match env.thisClass with
  | some id => .ok id
  | none => .error ⟨.notCallable .outsideClass, span⟩

/-- The parent of the class of `this`. -/
def baseClass (env : Environment) (span : Span) : Except SemanticError TypeId := do
  let this ← thisClass env span
  match env.classes.parent? this with
  | some parent => .ok parent
  | none => .error ⟨.notCallable (.noBaseType (env.classes.name this)), span⟩

/-- The error that a type has no such member. -/
def notFound (env : Environment) (member : String) (type : Ty) (span : Span) : SemanticError :=
  ⟨.memberNotFound member (env.classes.text type), span⟩

/-- The class whose members a receiver has. Options have none until they are unwrapped. -/
def receiver (env : Environment) (type : Ty) (member : String) (span : Span) :
    Except SemanticError TypeId :=
  match type with
  | .plain id => if id = TypeId.unit then .error (notFound env member type span) else .ok id
  | _ => .error (notFound env member type span)

/-- The method of a key that a class has, which `type` stands for in errors. -/
def method (env : Environment) (id : TypeId) (key : MemberKey) (type : Ty) (span : Span) :
    Except SemanticError (TypeId × Method) :=
  match env.classes.lookupMethod? id key with
  | some found => .ok found
  | none => .error (notFound env key.text type span)

/-- The field that a member expression reads, with its owner. -/
def field (env : Environment) (object : Ty) (property : Ident) :
    Except SemanticError (TypeId × Field) := do
  let id ← receiver env object property.name property.span
  match env.classes.lookupField? id property.name with
  | some found => .ok found
  | none => .error (notFound env property.name object property.span)

/-- A typed expression is a field of a built-in class. Such fields cannot be assigned: they are not
kept in an instance. -/
def isBuiltinField (env : Environment) : Expr Typing → Bool
  | .member object property _ =>
    match object.note.type with
    | some (.plain id) =>
      (env.classes.lookupField? id property.name).any fun (owner, _) => env.classes.isBuiltin owner
    | _ => false
  | _ => false

/-- The class whose operator method applies to a left operand. Equality on what may be null is that of
the root class. -/
def operatorClass (env : Environment) (op : BinaryOp) (left : Ty) (span : Span) :
    Except SemanticError TypeId :=
  if left.isNullable && op.isEquality then .ok TypeId.any
  else receiver env left (MemberKey.binary op).text span

/-- The type that an `is` or `as` tests for: the operand's type or a more special one, and null only
if the operand may be null. -/
def testTarget (env : Environment) (operand : Ty) (target : TypeName) (operandSpan : Span) :
    Except SemanticError Ty := do
  let type ← env.classes.resolveType target
  let mismatch : SemanticError :=
    ⟨.typeMismatch (env.classes.text operand) (env.classes.text type) (some .unrelatedTarget),
      target.span⟩
  if operand = .null ∨ type = .null then
    if !operand.isNullable then
      throw ⟨.notAnOption (env.classes.text operand), operandSpan⟩
    else if !type.isNullable then throw mismatch
    else return type
  else if env.classes.isAssignable type operand then return type
  else throw mismatch

/-- As many arguments are given as there are parameters. -/
def argumentCount (params : List Ty) (arguments : List (Expr Span)) (span : Span) :
    Except SemanticError Unit :=
  if params.length = arguments.length then .ok ()
  else .error ⟨.argumentCount params.length arguments.length, span⟩

mutual

/-- The type of an expression, and the expression with the types of all its nodes. -/
def infer (env : Environment) : Expr Span → Except SemanticError (Ty × Expr Typing)
  | .number value s => .ok (.number, .number value ⟨s, some .number⟩)
  | .string content s => .ok (.string, .string content ⟨s, some .string⟩)
  | .boolean value s => .ok (.boolean, .boolean value ⟨s, some .boolean⟩)
  | .null s => .ok (.null, .null ⟨s, some .null⟩)
  | .name x s => do
    let type ← env.lookup ⟨x, s⟩
    return (type, .name x ⟨s, some type⟩)
  | .this s => do
    let type := Ty.plain (← thisClass env s)
    return (type, .this ⟨s, some type⟩)
  | .base s => do
    let type := Ty.plain (← baseClass env s)
    return (type, .base ⟨s, some type⟩)
  | .member object property s => do
    let (objectType, object') ← infer env object
    let (owner, f) ← field env objectType property
    accessible env owner property.name f.access property.span
    return (f.type, .member object' property ⟨s, some f.type⟩)
  | .call (.member object property n) arguments s => do
    let (objectType, object') ← infer env object
    let id ← receiver env objectType property.name property.span
    let (owner, m) ← method env id (.named property.name) objectType property.span
    accessible env owner property.name m.access property.span
    argumentCount m.params arguments s
    let arguments' ← inferArguments env m.params arguments
    return (m.returns, .call (.member object' property (.untyped n)) arguments' ⟨s, some m.returns⟩)
  | .call callee _ _ => .error ⟨.notCallable .notAMethod, callee.note⟩
  | .new className arguments s => do
    let id ← env.classes.resolve className
    match env.classes.constructor? id with
    | none => throw ⟨.notCallable (.notConstructible className.name), s⟩
    | some m =>
      accessible env id m.key.text m.access s
      argumentCount m.params arguments s
      let arguments' ← inferArguments env m.params arguments
      return (.plain id, .new className arguments' ⟨s, some (.plain id)⟩)
  | .assign target value s => do
    match target with
    | .name .. | .member .. =>
      let (type, target') ← infer env target
      if isBuiltinField env target' then throw ⟨.notAssignable, target.note⟩
      let (valueType, value') ← infer env value
      assignable env valueType type value.note
      return (type, .assign target' value' ⟨s, some type⟩)
    | other => throw ⟨.notAssignable, other.note⟩
  | .binary op left right s => do
    let (leftType, left') ← infer env left
    let (rightType, right') ← infer env right
    let id ← operatorClass env op leftType s
    let (owner, m) ← method env id (.binary op) leftType s
    accessible env owner m.key.text m.access s
    match m.params with
    | [] => pure ()
    | param :: _ => assignable env rightType param right.note
    return (m.returns, .binary op left' right' ⟨s, some m.returns⟩)
  | .unary op operand s => do
    let (type, operand') ← infer env operand
    let id ← receiver env type (MemberKey.unary op).text s
    let (owner, m) ← method env id (.unary op) type s
    accessible env owner m.key.text m.access s
    return (m.returns, .unary op operand' ⟨s, some m.returns⟩)
  | .assert operand s => do
    let (type, operand') ← infer env operand
    match type.unwrapped? with
    | some inner => return (inner, .assert operand' ⟨s, some inner⟩)
    | none => throw ⟨.notAssertable (env.classes.text type), s⟩
  | .instanceTest operand target s => do
    let (type, operand') ← infer env operand
    let _ ← testTarget env type target operand.note
    return (.boolean, .instanceTest operand' target ⟨s, some .boolean⟩)
  | .cast operand target s => do
    let (type, operand') ← infer env operand
    let result ← testTarget env type target operand.note
    return (result, .cast operand' target ⟨s, some result⟩)

/-- Checks arguments one by one against the parameters. -/
def inferArguments (env : Environment) :
    List Ty → List (Expr Span) → Except SemanticError (List (Expr Typing))
  | param :: params, e :: es => do
    let (type, e') ← infer env e
    assignable env type param e.note
    return e' :: (← inferArguments env params es)
  | _, _ => .ok []

end

end Check

end ClassLang
