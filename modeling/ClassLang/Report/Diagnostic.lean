import ClassLang.Build.Failure

/-!
# Diagnostics

Errors for one who edits a file: a stable code, a label on the text that the error is about, and notes
with advice. Lines and columns of a label are found again in the text of the file.
-/

namespace ClassLang

/-- The text that an error is about and what is said of it. -/
structure Label where
  span : Span
  message : String
deriving DecidableEq, Repr

/-- An error as it is reported. -/
structure Diagnostic where
  code : String
  message : String
  label : Option Label
  notes : List String
deriving DecidableEq, Repr

namespace Diagnostic

/-- A note with advice. -/
def help (advice : String) : String := s!"help: {advice}"

/-- A lexical error as it is reported. -/
def ofLexError (e : LexError) : Diagnostic :=
  ⟨"E1000", e.message, some ⟨e.span, "invalid token"⟩, (e.hint?.map help).toList⟩

/-- The code and the label of a syntax error. -/
def syntaxLabel : ParseCause → String × String
  | .unexpectedToken .. => ("E1001", "unexpected token")
  | .unexpectedEnd _ => ("E1002", "unexpected end of input")
  | _ => ("E1003", "invalid syntax")

/-- A syntax error as it is reported. -/
def ofParseError (e : ParseError) : Diagnostic :=
  let (code, label) := syntaxLabel e.cause
  ⟨code, e.message, some ⟨e.span, label⟩, (e.advice.map fun a => help a.text).toList⟩

/-- What is said of the text of a semantic error. -/
def semanticLabel : SemanticCause → String
  | .duplicateDeclaration _ => "already declared"
  | .duplicateBinding _ => "already bound in this scope"
  | .unknownType _ => "type not found"
  | .undefinedVariable _ => "not found in this scope"
  | .cyclicInheritance _ => "inherits from itself"
  | .sealedType _ => "sealed built-in type"
  | .operatorArity _ expected _ =>
    if expected = 0 then "unary operators take no parameters"
    else "binary operators take exactly one parameter"
  | .typeMismatch expected actual _ => s!"expected '{expected}', found '{actual}'"
  | .notAnOption _ => "cannot be null"
  | .missingReturn _ => "not every path returns"
  | .nothingToOverride _ => "nothing to override"
  | .overrideMissing .. => "hides an inherited method"
  | .accessNarrowed .. => "less accessible than the overridden method"
  | .overrideArity .. => "parameter count differs"
  | .memberNotFound .. => "member not found"
  | .memberInaccessible .. => "not accessible from here"
  | .argumentCount .. => "incorrect number of arguments"
  | .notCallable _ => "cannot be called"
  | .notAssignable => "cannot assign to this"
  | .notAssertable _ => "not an option"

/-- A type that may be null, by its text. -/
def isNullableText (type : String) : Bool := type.toList.getLast? == some '?' || type == "null"

/-- What is noted on a semantic error. -/
def semanticNote? : SemanticCause → Option String
  | .duplicateDeclaration _ => some (help "rename one of the declarations")
  | .cyclicInheritance _ => some "a class cannot be its own ancestor"
  | .typeMismatch _ _ note => note.map MismatchNote.text
  | .notAnOption type => some (help s!"declare the type as '{type}?'")
  | .missingReturn _ => some "a while loop may run zero times and an if needs an else"
  | .nothingToOverride _ => some (help "remove the override modifier")
  | .overrideMissing .. => some (help "add the override modifier")
  | .memberNotFound _ type =>
    if isNullableText type then some (help "unwrap the option with '!' first") else none
  | .notAssignable => some "only variables and fields can be assigned"
  | _ => none

/-- A semantic error as it is reported. -/
def ofSemanticError (e : SemanticError) : Diagnostic :=
  ⟨e.cause.code, e.message, some ⟨e.span, semanticLabel e.cause⟩, (semanticNote? e.cause).toList⟩

/-- A build error as it is reported. -/
def ofBuildError (e : BuildError) : Diagnostic :=
  match e with
  | .missingEntry =>
    let advice := s!"declare a class named '{entryClass}' with a constructor taking no arguments"
    ⟨"E3001", e.message, none, [help advice]⟩
  | .entryArguments _ span =>
    ⟨"E3002", e.message, some ⟨span, "entry constructor must take no arguments"⟩, []⟩
  | .defect _ => ⟨"E3999", e.message, none, []⟩

/-- A diagnostic on one line: the file, the place if there is one, and the message. -/
def oneLine (d : Diagnostic) (file : String) : String :=
  match d.label.filter (0 < ·.span.line) with
  | some label => s!"{file}:{label.span.text} - {d.message}"
  | none => s!"{file} - {d.message}"

end Diagnostic

/-- The points at which a label starts and ends, found in the text of the file. -/
def Label.ends (label : Label) (source : String) : Position × Position :=
  (Position.start.advanceTo label.span.start source.toList,
    Position.start.advanceTo label.span.stop source.toList)

/-- The diagnostics of a failure. Faults have no place in the text and yield none. -/
def Failure.diagnostics : Failure → List Diagnostic
  | .lexical errors => errors.map .ofLexError
  | .syntactic errors => errors.map .ofParseError
  | .semantic errors => errors.map .ofSemanticError
  | .build error => [.ofBuildError error]
  | .runtime _ => []

end ClassLang
