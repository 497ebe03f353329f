import ClassLang.Grammar.Cursor
import ClassLang.Lowering.BuildError
import ClassLang.Machine.Fault
import ClassLang.Source.Lexeme

/-!
# Failures

Why a text cannot be run to its end: the errors of the first stage that has any.
-/

namespace ClassLang

/-- The errors of the stage that failed. -/
inductive Failure where
  | lexical (errors : List LexError)
  | syntactic (errors : List ParseError)
  | semantic (errors : List SemanticError)
  | build (error : BuildError)
  | runtime (fault : Fault)
deriving Repr

/-- The wording of a failure. -/
def Failure.message : Failure → String
  | .lexical errors => s!"{errors.length} lexical error(s)"
  | .syntactic errors => s!"{errors.length} syntax error(s)"
  | .semantic errors => s!"{errors.length} semantic error(s)"
  | .build error => error.message
  | .runtime fault => s!"Runtime fault: {fault.message}"

end ClassLang
