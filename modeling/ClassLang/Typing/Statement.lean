import ClassLang.Typing.Expression
import ClassLang.Tree.Stmt

/-!
# Checking statements

Every statement is checked by itself: an error in one is noted and the next one is checked all the
same. Blocks and branches have scopes of their own, so what they bind ends with them.
-/

namespace ClassLang

/-- The outcome of a check that goes on past errors: the checked thing, the environment behind it and
the errors in the order of the text. Parts with an error keep their nodes untyped. -/
structure Checked (α : Type) where
  value : α
  env : Environment
  errors : List SemanticError

namespace Check

/-- The errors of a check: one or none. -/
def errorsOf {α : Type} : Except SemanticError α → List SemanticError
  | .ok _ => []
  | .error e => [e]

/-- The error that a value of type `actual` stands where `expected` is required. -/
def mismatch (expected actual : String) (note : Option MismatchNote) (span : Span) : SemanticError :=
  ⟨.typeMismatch expected actual note, span⟩

/-- Checks an expression and puts up with an error. -/
def tolerate (env : Environment) (e : Expr Span) : Expr Typing × List SemanticError :=
  match infer env e with
  | .ok (_, e') => (e', [])
  | .error error => (e.map .untyped, [error])

/-- Checks an expression that has to be a truth value. -/
def condition (env : Environment) (e : Expr Span) : Expr Typing × List SemanticError :=
  match infer env e with
  | .ok (type, e') =>
    (e', if type = .boolean then [] else [mismatch "boolean" (env.classes.text type) none e.note])
  | .error error => (e.map .untyped, [error])

/-- The error of a variable that would hold nothing. -/
def noValue (span : Span) : SemanticError := mismatch "a value" "unit" none span

/-- Checks a variable with a written type. The name is bound even if its value is wrong, so that its
uses are not reported as well. -/
def defineAs (env : Environment) (name : Ident) (type : Ty) (e : Expr Span) :
    Checked (Expr Typing) :=
  let value := infer env e
  let e' := match value with
    | .ok (_, e') => e'
    | .error _ => e.map .untyped
  match env.bind name type with
  | .error duplicate => ⟨e', env, [duplicate]⟩
  | .ok env' =>
    match value with
    | .error error => ⟨e', env', [error]⟩
    | .ok (valueType, _) =>
      match assignable env valueType type e.note with
      | .error error => ⟨e', env', [error]⟩
      | .ok () => ⟨e', env', if type = .unit then [noValue e.note] else []⟩

/-- Checks a variable whose type is that of its value. -/
def defineInferred (env : Environment) (name : Ident) (e : Expr Span) : Checked (Expr Typing) :=
  match infer env e with
  | .error error => ⟨e.map .untyped, env, [error]⟩
  | .ok (type, e') =>
    if type = .null then
      ⟨e', env, [mismatch "a typed value" "null" (some (.uninferable name.name)) e.note]⟩
    else if type = .unit then ⟨e', env, [noValue e.note]⟩
    else
      match env.bind name type with
      | .error duplicate => ⟨e', env, [duplicate]⟩
      | .ok env' => ⟨e', env', []⟩

/-- Checks the definition of a variable. -/
def define (env : Environment) (name : Ident) (type : Option TypeName) (e : Expr Span) :
    Checked (Expr Typing) :=
  match type with
  | none => defineInferred env name e
  | some written =>
    match env.classes.resolveType written with
    | .error error => ⟨e.map .untyped, env, [error]⟩
    | .ok type => defineAs env name type e

/-- Checks the value of a `return`. -/
def returnValue (env : Environment) (value : Option (Expr Span)) (span : Span) :
    Option (Expr Typing) × List SemanticError :=
  match value with
  | none =>
    (none, if env.returns = .unit then []
      else [mismatch (env.classes.text env.returns) "unit" (some .bareReturn) span])
  | some e =>
    match infer env e with
    | .error error => (some (e.map .untyped), [error])
    | .ok (type, e') =>
      (some e', if env.returns = .unit then
          [mismatch "unit" (env.classes.text type) (some .unexpectedValue) e.note]
        else errorsOf (assignable env type env.returns e.note))

mutual

/-- Checks a statement. -/
def stmt (env : Environment) : Stmt Span → Checked (Stmt Typing)
  | .define name type value s =>
    let r := define env name type value
    ⟨.define name type r.value s, r.env, r.errors⟩
  | .return value s =>
    let (value', errors) := returnValue env value s
    ⟨.return value' s, env, errors⟩
  | .ifThen c branch s =>
    let (c', errors) := condition env c
    let r := stmt env.enter branch
    ⟨.ifThen c' r.value s, env, errors ++ r.errors⟩
  | .ifElse c branch otherwise s =>
    let (c', errors) := condition env c
    let r := stmt env.enter branch
    let q := stmt env.enter otherwise
    ⟨.ifElse c' r.value q.value s, env, errors ++ r.errors ++ q.errors⟩
  | .while c body s =>
    let (c', errors) := condition env c
    let r := stmt env.enter body
    ⟨.while c' r.value s, env, errors ++ r.errors⟩
  | .block statements s =>
    let r := stmts env.enter statements
    ⟨.block r.value s, env, r.errors⟩
  | .expression e s =>
    let (e', errors) := tolerate env e
    ⟨.expression e' s, env, errors⟩

/-- Checks statements one after the other in one scope. -/
def stmts (env : Environment) : List (Stmt Span) → Checked (List (Stmt Typing))
  | [] => ⟨[], env, []⟩
  | s :: ss =>
    let r := stmt env s
    let q := stmts r.env ss
    ⟨r.value :: q.value, q.env, r.errors ++ q.errors⟩

end

end Check

end ClassLang
