import ClassLang.Machine.Fault

/-!
# The console

The lines that a program has not read yet, and the text that it has written. Input comes as text or as
bytes; bytes that are no UTF-8 spoil their line only.
-/

namespace ClassLang

/-- A line of input with its line end. -/
inductive InputLine where
  | text (content : List Char)
  | malformed
deriving DecidableEq, Repr

/-- The input ahead and the output so far. -/
structure Console where
  pending : List InputLine
  output : String
deriving DecidableEq, Repr

namespace Console

/-- Cuts a list behind every element that ends a line. -/
def cutLines {α : Type} (isEnd : α → Bool) : List α → List (List α)
  | [] => []
  | x :: xs =>
    if isEnd x then [x] :: cutLines isEnd xs
    else
      match cutLines isEnd xs with
      | [] => [[x]]
      | line :: lines => (x :: line) :: lines

/-- A console with a text to read. -/
def ofText (input : String) : Console :=
  ⟨(cutLines (· == '\n') input.toList).map .text, ""⟩

/-- Reads bytes as a line. -/
def lineOfBytes (bytes : List UInt8) : InputLine :=
  match String.fromUTF8? ⟨bytes.toArray⟩ with
  | some s => .text s.toList
  | none => .malformed

/-- A console with bytes to read. -/
def ofBytes (input : List UInt8) : Console :=
  ⟨(cutLines (· == 10) input).map lineOfBytes, ""⟩

/-- A line without the line feeds and carriage returns at its end. -/
def withoutEnd (line : List Char) : String :=
  String.ofList (line.reverse.dropWhile fun c => c == '\n' || c == '\r').reverse

/-- Reads a line, the empty one if there is none left. -/
def readLine (c : Console) : Except Fault String × Console :=
  match c.pending with
  | [] => (.ok "", c)
  | .text line :: rest => (.ok (withoutEnd line), { c with pending := rest })
  | .malformed :: rest => (.error .malformedInput, { c with pending := rest })

/-- Writes a line. -/
def writeLine (c : Console) (text : String) : Console := { c with output := c.output ++ text ++ "\n" }

end Console

end ClassLang
