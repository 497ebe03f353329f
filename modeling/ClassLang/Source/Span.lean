/-!
# Places in a source text

A `Position` is a point of the text, a `Span` a stretch of it. Offsets count UTF-8 bytes; lines and
columns count from one, and a column counts characters.
-/

namespace ClassLang

/-- A point in a text, with the line and the column it lies on. -/
structure Position where
  offset : Nat
  line : Nat
  column : Nat
deriving DecidableEq, Repr

namespace Position

/-- The start of a text. -/
def start : Position := ⟨0, 1, 1⟩

/-- The point behind a character; a line feed begins a new line. -/
def next (p : Position) (c : Char) : Position :=
  if c = '\n' then ⟨p.offset + c.utf8Size, p.line + 1, 1⟩
  else ⟨p.offset + c.utf8Size, p.line, p.column + 1⟩

/-- The point behind a stretch of text. -/
def after (p : Position) (text : List Char) : Position := text.foldl next p

/-- The point at an offset of a text that goes on from here, or the end of the text. -/
def advanceTo (p : Position) (offset : Nat) : List Char → Position
  | [] => p
  | c :: cs => if offset ≤ p.offset then p else (p.next c).advanceTo offset cs

/-- One position stands no later than another, by line and then by column. -/
def lineColumnLE (p q : Position) : Bool :=
  p.line < q.line || (p.line == q.line && p.column ≤ q.column)

end Position

/-- The bytes from `start` up to `stop`, and the line and column of the first one. -/
structure Span where
  start : Nat
  stop : Nat
  line : Nat
  column : Nat
deriving DecidableEq, Repr

namespace Span

/-- The span of things that no text declares. -/
def none : Span := ⟨0, 0, 0, 0⟩

/-- The stretch between two points. -/
def between (p q : Position) : Span := ⟨p.offset, q.offset, p.line, p.column⟩

/-- The point at which a span starts. -/
def first (s : Span) : Position := ⟨s.start, s.line, s.column⟩

/-- The number of bytes. -/
def size (s : Span) : Nat := s.stop - s.start

/-- The span holds no byte. -/
def isEmpty (s : Span) : Bool := s.start == s.stop

/-- The smallest span that covers both, at the earlier line and column. -/
def merge (s t : Span) : Span :=
  let earlier := if s.first.lineColumnLE t.first then s else t
  ⟨min s.start t.start, max s.stop t.stop, earlier.line, earlier.column⟩

/-- From the start of one span to the end of another. -/
def through (s t : Span) : Span := { s with stop := t.stop }

/-- Line and column, as they are shown to a reader. -/
def text (s : Span) : String := s!"{s.line}:{s.column}"

example : merge ⟨10, 12, 2, 5⟩ ⟨3, 4, 1, 9⟩ = ⟨3, 12, 1, 9⟩ := by decide

end Span

/-- A thing together with where it stands. -/
structure Located (α : Type) where
  item : α
  span : Span
deriving Repr

end ClassLang
