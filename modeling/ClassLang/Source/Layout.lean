import ClassLang.Source.Token

/-!
# Significant line breaks

No character ends a statement: a line break does, but only if the next line starts in the column of
the enclosing block. Deeper lines continue the one before. The column of a block is that of the first
token after its opening brace; outside all braces it is that of the first token of the file.

`significantBreaks` drops all other line breaks and leaves one of each run.
-/

namespace ClassLang

/-- What has to be remembered on the way through the tokens: the columns of the open blocks,
innermost first and below them the column of the file; the first line break since the last kept
token; and whether that token opened a block. -/
structure Layout where
  columns : List Nat
  pending : Option (Located Token)
  opening : Bool

namespace Layout

/-- The layout at the start of a file whose first token stands in `column`. -/
def start (column : Nat) : Layout := ⟨[column], none, false⟩

/-- Meets a line break: only the first of a run counts, and none right after an opening brace. -/
def meetBreak (l : Layout) (t : Located Token) : Layout :=
  if l.opening then l else { l with pending := l.pending.or (some t) }

/-- The pending line break, if it is significant before the token `t`. -/
def breakBefore (l : Layout) (t : Located Token) : List (Located Token) :=
  match l.pending with
  | some b => if !t.item.continuesLine && l.columns.head? == some t.span.column then [b] else []
  | none => []

/-- The columns once the token after an opening brace is known. -/
def opened (l : Layout) (t : Located Token) : List Nat :=
  if l.opening then t.span.column :: l.columns else l.columns

/-- Passes a token that is no line break. A closing brace leaves its block, unless none is open. -/
def pass (l : Layout) (t : Located Token) : Layout :=
  let columns := l.opened t
  match t.item with
  | .symbol .leftBrace => ⟨columns, none, true⟩
  | .symbol .rightBrace => ⟨if 1 < columns.length then columns.tail else columns, none, false⟩
  | _ => ⟨columns, none, false⟩

/-- The kept tokens of a stream, from a layout on. -/
def keep (l : Layout) : List (Located Token) → List (Located Token)
  | [] => []
  | t :: ts =>
    match t.item with
    | .lineBreak => (l.meetBreak t).keep ts
    | _ => l.breakBefore t ++ t :: (l.pass t).keep ts

end Layout

/-- The token is a line break. -/
def Token.isBreak : Token → Bool
  | .lineBreak => true
  | _ => false

/-- The column of the first token that is no line break. -/
def firstColumn (ts : List (Located Token)) : Nat :=
  match ts.find? (!·.item.isBreak) with
  | some t => t.span.column
  | none => 1

/-- Drops the line breaks that end no statement. -/
def significantBreaks (ts : List (Located Token)) : List (Located Token) :=
  (Layout.start (firstColumn ts)).keep ts

end ClassLang
