import ClassLang.Build.Failure
import ClassLang.Grammar.Parser
import ClassLang.Lowering.Program
import ClassLang.Machine.Run
import ClassLang.Source.Layout

/-!
# From text to image

Reading, checking and lowering one after the other. The first stage with errors ends the way.
-/

namespace ClassLang

/-- The tokens of a text that matter: of the line breaks, only those that end a statement. -/
def significantTokens (source : String) : Except Failure (List (Located Token)) :=
  ((tokenize source).map significantBreaks).mapError .lexical

/-- Reads a program. -/
def Program.ofSource (source : String) : Except Failure (Program Span) := do
  (Grammar.program (← significantTokens source)).mapError .syntactic

/-- Reads and checks a program. -/
def Analysis.ofSource (source : String) : Except Failure Analysis := do
  (Check.program (← Program.ofSource source)).mapError .semantic

/-- Reads, checks and lowers a program. -/
def Image.ofSource (source : String) : Except Failure Image := do
  (Lower.image (← Analysis.ofSource source)).mapError .build

end ClassLang
