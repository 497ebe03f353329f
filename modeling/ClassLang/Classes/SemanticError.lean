import ClassLang.Tree.Decl
import ClassLang.Library.MemberKey

/-!
# Semantic errors

What can be wrong with a program that reads well, with the wording and the code of each error. Types
appear in errors by the names a reader knows.
-/

namespace ClassLang

/-- Why a value's type is not the one required. -/
inductive MismatchNote where
  | parameterOf (param owner : String)
  | returnOf (owner : String)
  | uninferable (name : String)
  | bareReturn
  | unexpectedValue
  | unrelatedTarget
deriving DecidableEq, Repr

/-- The wording of a note. -/
def MismatchNote.text : MismatchNote → String
  | .parameterOf param owner => s!"parameter '{param}' must accept the type declared by '{owner}'"
  | .returnOf owner => s!"the return type must be compatible with the one declared by '{owner}'"
  | .uninferable name => s!"cannot infer the type of '{name}'; add an option type"
  | .bareReturn => "a bare return needs a value here"
  | .unexpectedValue => "this member does not return a value"
  | .unrelatedTarget => "the target type must be the operand type or one of its subtypes"

/-- Why something cannot be called or constructed. -/
inductive CallObstacle where
  | outsideClass
  | noBaseType (type : String)
  | notAMethod
  | noConstructor (type : String)
  | notConstructible (type : String)
deriving DecidableEq, Repr

/-- The wording of an obstacle. -/
def CallObstacle.text : CallObstacle → String
  | .outsideClass => "'this' is only available inside a class"
  | .noBaseType type => s!"'{type}' has no base type"
  | .notAMethod => "only methods can be called"
  | .noConstructor type => s!"Type '{type}' has no constructor"
  | .notConstructible type => s!"Type '{type}' cannot be constructed"

/-- What is wrong with a program. -/
inductive SemanticCause where
  | duplicateDeclaration (name : String)
  | duplicateBinding (name : String)
  | unknownType (name : String)
  | undefinedVariable (name : String)
  | cyclicInheritance (name : String)
  | sealedType (name : String)
  | operatorArity (operator : String) (expected actual : Nat)
  | typeMismatch (expected actual : String) (note : Option MismatchNote)
  | notAnOption (type : String)
  | missingReturn (method : String)
  | nothingToOverride (method : String)
  | overrideMissing (method owner : String)
  | accessNarrowed (method : String) (expected actual : Access)
  | overrideArity (method : String) (expected actual : Nat)
  | memberNotFound (member type : String)
  | memberInaccessible (member owner : String) (access : Access)
  | argumentCount (expected actual : Nat)
  | notCallable (obstacle : CallObstacle)
  | notAssignable
  | notAssertable (type : String)
deriving DecidableEq, Repr

namespace SemanticCause

/-- The wording of an error. -/
def message : SemanticCause → String
  | .duplicateDeclaration name => s!"Redefinition of '{name}'"
  | .duplicateBinding name => s!"Variable '{name}' is already defined in this scope"
  | .unknownType name => s!"Type '{name}' not found"
  | .undefinedVariable name => s!"Variable '{name}' not found"
  | .cyclicInheritance name => s!"Cyclic inheritance found at {name}"
  | .sealedType name => s!"Cannot inherit from built-in type '{name}'"
  | .operatorArity operator expected actual =>
    s!"Operator '{operator}' must be declared with {expected} parameter(s), found {actual}"
  | .typeMismatch expected actual _ => s!"Type '{actual}' is not compatible with '{expected}'"
  | .notAnOption type => s!"Type '{type}' is not an option and cannot hold null"
  | .missingReturn method => s!"Method '{method}' does not return a value on every path"
  | .nothingToOverride method =>
    s!"Method '{method}' is marked override but no parent method exists"
  | .overrideMissing method owner =>
    s!"Method '{method}' hides the method inherited from '{owner}' and must be marked override"
  | .accessNarrowed method expected actual =>
    s!"Method '{method}' cannot be {actual.text} when the overridden method is {expected.text}"
  | .overrideArity method expected actual =>
    s!"Method '{method}' overrides a method with {expected} parameter(s) but declares {actual}"
  | .memberNotFound member type => s!"'{member}' not found on type '{type}'"
  | .memberInaccessible member owner access => s!"'{member}' is {access.text} in '{owner}'"
  | .argumentCount expected actual => s!"Expected {expected} argument(s), but got {actual}"
  | .notCallable obstacle => obstacle.text
  | .notAssignable => "Invalid assignment target"
  | .notAssertable type => s!"Cannot unwrap a value of non-option type '{type}'"

/-- The stable code of an error. -/
def code : SemanticCause → String
  | .duplicateDeclaration .. => "E2001"
  | .unknownType .. => "E2002"
  | .cyclicInheritance .. => "E2003"
  | .operatorArity .. => "E2004"
  | .typeMismatch .. => "E2005"
  | .notAnOption .. => "E2006"
  | .missingReturn .. => "E2007"
  | .nothingToOverride .. => "E2008"
  | .overrideMissing .. => "E2009"
  | .accessNarrowed .. => "E2010"
  | .overrideArity .. => "E2011"
  | .memberNotFound .. => "E2012"
  | .memberInaccessible .. => "E2013"
  | .argumentCount .. => "E2014"
  | .notCallable .. => "E2015"
  | .notAssignable => "E2016"
  | .notAssertable .. => "E2017"
  | .duplicateBinding .. => "E2018"
  | .undefinedVariable .. => "E2019"
  | .sealedType .. => "E2020"

end SemanticCause

/-- A semantic error and the text it is about. -/
structure SemanticError where
  cause : SemanticCause
  span : Span
deriving DecidableEq, Repr

/-- The wording of a semantic error. -/
def SemanticError.message (e : SemanticError) : String := e.cause.message

end ClassLang
