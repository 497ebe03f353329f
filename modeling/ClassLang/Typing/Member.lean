import ClassLang.Typing.Statement
import ClassLang.Tree.Decl

/-!
# Checking members

A member is checked against the finished class table. The environment goes from one member to the next, but
what it knows of a member is overwritten where the next one begins, and no member sees the errors of another.
A method that its parent class has as well must say `override` and fit in its place.
-/

namespace ClassLang

/-- The key of a method. -/
def MethodName.key : MethodName → MemberKey
  | .named name => .named name.name
  | .binary op _ => .binary op
  | .unary op _ => .unary op

namespace Check

/-- The parameters of an override take what the parent's parameters take. -/
def overrideParams (t : ClassTable) (owner : TypeId) :
    List Ty → List Ty → List Param → Except SemanticError Unit
  | inherited :: is, own :: os, param :: ps =>
    if t.isAssignable inherited own then overrideParams t owner is os ps
    else
      .error (mismatch (t.text own) (t.text inherited)
        (some (.parameterOf param.name.name (t.name owner))) param.span)
  | _, _, _ => .ok ()

/-- A method fits in the place of the one that its class inherits, if there is one: it says `override`,
is as accessible, has as many parameters, accepts what the inherited one accepts and returns what it
returns. -/
def overrides (t : ClassTable) (id : TypeId) (m : Method) (decl : MethodDecl Span) :
    Except SemanticError Unit :=
  match (t.parent? id).bind (t.lookupMethod? · m.key), decl.isOverride with
  | none, false => .ok ()
  | none, true => .error ⟨.nothingToOverride m.key.text, m.span⟩
  | some (owner, _), false => .error ⟨.overrideMissing m.key.text (t.name owner), m.span⟩
  | some (owner, inherited), true => do
    if m.access.narrowness > inherited.access.narrowness then
      throw ⟨.accessNarrowed m.key.text inherited.access m.access, m.span⟩
    if m.params.length ≠ inherited.params.length then
      throw ⟨.overrideArity m.key.text inherited.params.length m.params.length, m.span⟩
    overrideParams t owner inherited.params m.params decl.params
    if t.isAssignable m.returns inherited.returns then return ()
    else
      let span := match decl.returns with
        | some type => type.span
        | none => m.span
      throw (mismatch (t.text inherited.returns) (t.text m.returns)
        (some (.returnOf (t.name owner))) span)

/-- Binds parameters to their types. A name that is bound already is reported and left out. -/
def bindParams (env : Environment) : List Param → List Ty → Checked Unit
  | p :: ps, type :: types =>
    match env.bind p.name type with
    | .ok env' => bindParams env' ps types
    | .error e =>
      let r := bindParams env ps types
      { r with errors := e :: r.errors }
  | _, _ => ⟨(), env, []⟩

/-- Checks the call of the parent's constructor with which a constructor starts. -/
def baseCall (env : Environment) (id : TypeId) (arguments : List (Expr Span)) (span : Span) :
    Except SemanticError (List (Expr Typing)) :=
  match env.classes.parent? id with
  | none => .ok (arguments.map (·.map .untyped))
  | some parent =>
    match env.classes.constructor? parent with
    | none => .error ⟨.notCallable (.noConstructor (env.classes.name parent)), span⟩
    | some m => do
      accessible env parent m.key.text m.access span
      argumentCount m.params arguments span
      inferArguments env m.params arguments

/-- Checks the initializer of a field. -/
def fieldIn (env : Environment) (id : TypeId) (decl : FieldDecl Span) : Checked (FieldDecl Typing) :=
  let typed (e : Option (Expr Typing)) : FieldDecl Typing :=
    ⟨decl.access, decl.name, decl.type, e, decl.span⟩
  match decl.initializer, (env.classes.record? id).bind (·.field? decl.name.name) with
  | some e, some f =>
    let env := env.beginMember id .unit
    match infer env e with
    | .ok (type, e') => ⟨typed (some e'), env, errorsOf (assignable env type f.type e.note)⟩
    | .error error => ⟨typed (some (e.map .untyped)), env, [error]⟩
  | e, _ => ⟨typed (e.map (·.map .untyped)), env, []⟩

/-- Checks the override rules and the body of a method. A method that breaks the rules is not checked
further. -/
def methodIn (env : Environment) (id : TypeId) (decl : MethodDecl Span) : Checked (MethodDecl Typing) :=
  let typed (body : Stmt Typing) : MethodDecl Typing :=
    ⟨decl.access, decl.isOverride, decl.name, decl.params, decl.returns, body, decl.span⟩
  let unchecked := typed (decl.body.map .untyped)
  match (env.classes.record? id).bind (·.method? decl.name.key) with
  | none => ⟨unchecked, env, []⟩
  | some m =>
    match overrides env.classes id m decl with
    | .error e => ⟨unchecked, env, [e]⟩
    | .ok () =>
      let params := bindParams (env.beginMember id m.returns) decl.params m.params
      let body := stmt params.env decl.body
      let fallsOff := m.returns ≠ .unit ∧ !decl.body.alwaysReturns
      ⟨typed body.value, body.env, params.errors ++ body.errors ++
        if fallsOff then [⟨.missingReturn m.key.text, decl.name.span⟩] else []⟩

/-- Checks the base call and the body of a constructor. -/
def constructorIn (env : Environment) (id : TypeId) (decl : ConstructorDecl Span) :
    Checked (ConstructorDecl Typing) :=
  let typed (arguments : Option (List (Expr Typing))) (body : Stmt Typing) :
      ConstructorDecl Typing :=
    ⟨decl.access, decl.params, arguments, body, decl.span⟩
  let unchecked := decl.baseArguments.map (·.map (·.map Typing.untyped))
  match env.classes.constructor? id with
  | none => ⟨typed unchecked (decl.body.map .untyped), env, []⟩
  | some m =>
    let params := bindParams (env.beginMember id .unit) decl.params m.params
    let base := baseCall params.env id (decl.baseArguments.getD []) decl.span
    let body := stmt params.env decl.body
    let arguments := match base with
      | .ok arguments => decl.baseArguments.map fun _ => arguments
      | .error _ => unchecked
    ⟨typed arguments body.value, body.env, params.errors ++ errorsOf base ++ body.errors⟩

/-- Checks a member of a class and leaves it. -/
def memberIn (env : Environment) (id : TypeId) : MemberDecl Span → Checked (MemberDecl Typing)
  | .field decl => let r := fieldIn env id decl; ⟨.field r.value, r.env.endMember, r.errors⟩
  | .method decl => let r := methodIn env id decl; ⟨.method r.value, r.env.endMember, r.errors⟩
  | .constructor decl =>
    let r := constructorIn env id decl
    ⟨.constructor r.value, r.env.endMember, r.errors⟩

/-- Checks the constructor that a class without one gets: it only calls the parent's. -/
def implicitIn (env : Environment) (id : TypeId) (span : Span) : Checked Unit :=
  let env := env.beginMember id .unit
  ⟨(), env.endMember, errorsOf (baseCall env id [] span)⟩

/-- A member as it stands if it is not checked. -/
def uncheckedMember : MemberDecl Span → MemberDecl Typing
  | .field d => .field
    ⟨d.access, d.name, d.type, d.initializer.map (·.map .untyped), d.span⟩
  | .method d => .method
    ⟨d.access, d.isOverride, d.name, d.params, d.returns, d.body.map .untyped, d.span⟩
  | .constructor d => .constructor
    ⟨d.access, d.params, d.baseArguments.map (·.map (·.map Typing.untyped)), d.body.map .untyped,
      d.span⟩

end Check

end ClassLang
