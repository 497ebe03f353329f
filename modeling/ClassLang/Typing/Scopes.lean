import ClassLang.Classes.SemanticError
import ClassLang.Library.Ty

/-!
# Scopes

The local names that are visible at a point of a member: a stack of open scopes. A name may be bound
again in an inner scope, which hides the outer one, but only once in one scope. Every scope gets a
number of its own, also after others are closed.
-/

namespace ClassLang

/-- A local name and its type. -/
structure Binding where
  name : String
  type : Ty
deriving DecidableEq, Repr

/-- A scope: its number and the names bound in it. -/
structure Scope where
  id : Nat
  bindings : List Binding
deriving DecidableEq, Repr

/-- The binding of a name in a scope. -/
def Scope.find? (s : Scope) (name : String) : Option Binding :=
  s.bindings.find? (·.name == name)

/-- The open scopes, innermost first, and how many scopes there have been. -/
structure Scopes where
  current : Scope
  outer : List Scope
  count : Nat
deriving DecidableEq, Repr

namespace Scopes

/-- One scope without names. -/
def start : Scopes := ⟨⟨0, []⟩, [], 1⟩

/-- Opens a scope in the current one. -/
def push (s : Scopes) : Scopes := ⟨⟨s.count, []⟩, s.current :: s.outer, s.count + 1⟩

/-- Closes the current scope. The outermost one stays open. -/
def pop (s : Scopes) : Scopes :=
  match s.outer with
  | [] => s
  | scope :: outer => ⟨scope, outer, s.count⟩

/-- Binds a name in the current scope. -/
def bind (s : Scopes) (name : Ident) (type : Ty) : Except SemanticError Scopes :=
  match s.current.find? name.name with
  | some _ => .error ⟨.duplicateBinding name.name, name.span⟩
  | none =>
    .ok { s with current := { s.current with bindings := ⟨name.name, type⟩ :: s.current.bindings } }

/-- The innermost binding of a name, with its scope. -/
def lookup? (s : Scopes) (name : String) : Option (Scope × Binding) :=
  (s.current :: s.outer).findSome? fun scope => (scope.find? name).map (scope, ·)

end Scopes

end ClassLang
