import ClassLang.Classes.SemanticError

/-!
# Build errors

Why a checked program has no image. It needs an entry class that is made without arguments. The other
causes are limits of the image format, or faults in the tree that a checked program does not have.
-/

namespace ClassLang

/-- A tree that cannot be lowered. -/
inductive LoweringDefect where
  | tooManyLocals
  | unresolvedLocal (name : String)
  | noJump (index : Nat)
  | noParent (className : String)
  | noConstruct (typeName : String)
  | untyped (span : Span)
  | fieldNotFound (name : String)
  | offsetOutOfRange
  | castToNull
  | calleeNotMember
  | targetNotAssignable
  | unresolvedType (cause : SemanticCause)
deriving DecidableEq, Repr

/-- The wording of a defect. -/
def LoweringDefect.text : LoweringDefect → String
  | .tooManyLocals => "too many local variables"
  | .unresolvedLocal name => s!"unresolved local '{name}'"
  | .noJump index => s!"no jump at instruction {index}"
  | .noParent name => s!"class '{name}' has no parent"
  | .noConstruct name => s!"type '{name}' has no construct"
  | .untyped span => s!"expression at {span.text} has no type"
  | .fieldNotFound name => s!"field '{name}' not found"
  | .offsetOutOfRange => "field offset out of range"
  | .castToNull => "cast to null"
  | .calleeNotMember => "call target is not a member"
  | .targetNotAssignable => "invalid assignment target"
  | .unresolvedType cause => cause.message

/-- Why a checked program has no image. -/
inductive BuildError where
  | missingEntry
  | entryArguments (count : Nat) (span : Span)
  | defect (defect : LoweringDefect)
deriving DecidableEq, Repr

/-- The name of the class that a program starts with. -/
def entryClass : String := "Main"

/-- The wording of a build error. -/
def BuildError.message : BuildError → String
  | .missingEntry => s!"No entry point: the program must declare a class named '{entryClass}'"
  | .entryArguments count _ =>
    s!"The constructor of '{entryClass}' must take no arguments, found {count}"
  | .defect d => s!"Internal compiler error: {d.text}"

end ClassLang
