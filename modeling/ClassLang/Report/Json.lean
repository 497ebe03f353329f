import ClassLang.Json.Text
import ClassLang.Report.Diagnostic

/-!
# Diagnostics as JSON

Diagnostics for an editor: every label with the lines and columns at which it starts and ends.
-/

namespace ClassLang

/-- A label of a file as JSON. -/
def Label.toJson (l : Label) (file source : String) : Json :=
  let (first, last) := l.ends source
  .ofFields [("file", .ofString file), ("start_line", .ofNat first.line),
    ("start_column", .ofNat first.column), ("end_line", .ofNat last.line),
    ("end_column", .ofNat last.column), ("message", .ofString l.message),
    ("style", .ofString "primary")]

/-- A diagnostic of a file as JSON. -/
def Diagnostic.toJson (d : Diagnostic) (file source : String) : Json :=
  .ofFields [("code", .ofString d.code), ("severity", .ofString "error"),
    ("message", .ofString d.message),
    ("labels", .array (d.label.toList.map (·.toJson file source))),
    ("notes", .array (d.notes.map .ofString))]

end ClassLang
