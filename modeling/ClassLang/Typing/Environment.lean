import ClassLang.Classes.Table
import ClassLang.Typing.Scopes

/-!
# The environment of a check

What a member is checked against: the class table, the local names, the class of `this` and the type
that the member returns. Outside all members there is no `this`, and nothing is returned.
-/

namespace ClassLang

/-- The class table and the member that is being checked. -/
structure Environment where
  classes : ClassTable
  scopes : Scopes
  thisClass : Option TypeId
  returns : Ty

namespace Environment

/-- An environment outside all members. -/
def outside (classes : ClassTable) : Environment := ⟨classes, .start, none, .unit⟩

/-- Enters a member of a class, without any local name. -/
def beginMember (env : Environment) (thisClass : TypeId) (returns : Ty) : Environment :=
  ⟨env.classes, .start, some thisClass, returns⟩

/-- Leaves the member. -/
def endMember (env : Environment) : Environment := { env with thisClass := none, returns := .unit }

/-- Opens a scope. -/
def enter (env : Environment) : Environment := { env with scopes := env.scopes.push }

/-- Closes a scope. -/
def exit (env : Environment) : Environment := { env with scopes := env.scopes.pop }

/-- Binds a local name. -/
def bind (env : Environment) (name : Ident) (type : Ty) : Except SemanticError Environment :=
  return { env with scopes := ← env.scopes.bind name type }

/-- The type of a local name. -/
def lookup (env : Environment) (name : Ident) : Except SemanticError Ty :=
  match env.scopes.lookup? name.name with
  | some (_, b) => .ok b.type
  | none => .error ⟨.undefinedVariable name.name, name.span⟩

/-- Adds a class to the table. -/
def declare (env : Environment) (name : Ident) : Except SemanticError (TypeId × Environment) := do
  let (id, classes) ← env.classes.declare name
  return (id, { env with classes })

end Environment

end ClassLang
