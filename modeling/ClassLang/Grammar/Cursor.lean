import ClassLang.Source.Token
import ClassLang.Tree.Expr

/-!
# A place in a token stream

A `Cursor` stands between the tokens already read and those still to come. The end of the file is not
one of the tokens: it is what the cursor shows when none is left, and it cannot be passed.

A `Parsed` value comes with a proof that tokens were used for it, so that every parser terminates.
-/

namespace ClassLang

/-- Why a stretch of tokens is no declaration. -/
inductive ParseCause where
  | unexpectedToken (expected : List TokenKind) (found : Token)
  | unexpectedEnd (expected : List TokenKind)
  | overrideConstructor
  | overrideField
  | notBinaryOperator (found : Token)
  | notUnaryOperator (found : Token)
deriving Repr

/-- Advice on how to mend a syntax error. -/
inductive ParseAdvice where
  | accessFirst
  | statementPerLine
deriving DecidableEq, Repr

/-- The wording of an advice. -/
def ParseAdvice.text : ParseAdvice → String
  | .accessFirst => "Every member declaration starts with an access modifier"
  | .statementPerLine => "Put each statement on its own line at the block's indentation"

/-- A syntax error, and how many tokens were left when it was found. -/
structure ParseError where
  cause : ParseCause
  span : Span
  advice : Option ParseAdvice
  remaining : Nat
deriving Repr

namespace ParseError

/-- What was expected, as a part of a sentence. -/
def expectedText : List TokenKind → String
  | [] => "a token"
  | [k] => k.label
  | ks => "one of " ++ String.intercalate ", " (ks.map TokenKind.label)

/-- The kinds that would have been accepted. -/
def expected (e : ParseError) : List TokenKind :=
  match e.cause with
  | .unexpectedToken expected _ | .unexpectedEnd expected => expected
  | _ => []

/-- The wording of a syntax error. -/
def message (e : ParseError) : String :=
  match e.cause with
  | .unexpectedToken expected found =>
    s!"Expected {expectedText expected}, found {found.description}"
  | .unexpectedEnd expected => s!"Unexpected end of input, expected {expectedText expected}"
  | .overrideConstructor => "Invalid syntax: constructors cannot be marked override"
  | .overrideField => "Invalid syntax: fields cannot be marked override"
  | .notBinaryOperator found =>
    s!"Invalid syntax: {found.description} is not an overloadable binary operator"
  | .notUnaryOperator found =>
    s!"Invalid syntax: {found.description} is not an overloadable unary operator"

/-- The message with its place in front and the advice behind. -/
def text (e : ParseError) : String :=
  match e.advice with
  | some advice => s!"{e.span.text}: {e.message} (help: {advice.text})"
  | none => s!"{e.span.text}: {e.message}"

end ParseError

/-- A place in a token stream: the token just read, the tokens to come, and the place of the end. -/
structure Cursor where
  previous : Option (Located Token)
  tokens : List (Located Token)
  finish : Span

namespace Cursor

/-- A cursor in front of a stream. An end of the file at the end of the stream gives the place of the
end, which else lies behind the last token. -/
def ofTokens (ts : List (Located Token)) : Cursor :=
  match ts.getLast? with
  | some ⟨.endOfFile, span⟩ => ⟨none, ts.dropLast, span⟩
  | some last => ⟨none, ts, { last.span with start := last.span.stop }⟩
  | none => ⟨none, [], ⟨0, 0, 1, 1⟩⟩

/-- The number of tokens to come. -/
def size (c : Cursor) : Nat := c.tokens.length

/-- The next token, or the end of the file. -/
def current (c : Cursor) : Located Token :=
  c.tokens.headD ⟨.endOfFile, c.finish⟩

/-- The kind of the next token. -/
def kind (c : Cursor) : TokenKind := c.current.item.kind

/-- Where the next token stands. -/
def span (c : Cursor) : Span := c.current.span

/-- The token after the next one, or the end of the file if the next one is the last. -/
def following? (c : Cursor) : Option (Located Token) :=
  match c.tokens with
  | [] => none
  | _ :: ts => some (ts.headD ⟨.endOfFile, c.finish⟩)

/-- Where the token just read stands. -/
def previousSpan (c : Cursor) : Span :=
  match c.previous with
  | some t => t.span
  | none => c.span

/-- From the start of a span to the end of the token just read. -/
def spanFrom (c : Cursor) (start : Span) : Span := start.through c.previousSpan

/-- Passes one token. -/
def advance (c : Cursor) : Cursor :=
  match c.tokens with
  | [] => c
  | t :: ts => ⟨some t, ts, c.finish⟩

/-- The error that none of the expected kinds comes next. -/
def unexpected (c : Cursor) (expected : List TokenKind) : ParseError :=
  let cause := match c.tokens with
    | [] => .unexpectedEnd expected
    | t :: _ => .unexpectedToken expected t.item
  ⟨cause, c.span, none, c.size⟩

/-- An error at the place of the cursor that no other token would have avoided. -/
def invalid (c : Cursor) (cause : ParseCause) (span : Span) : ParseError :=
  ⟨cause, span, none, c.size⟩

end Cursor

/-- A value read from the tokens after `c`, at least one of which was used for it. -/
structure Parsed (α : Type) (c : Cursor) where
  value : α
  rest : Cursor
  shorter : rest.size < c.size

/-- A value read from the tokens after `c`, possibly from none of them. -/
structure Continued (α : Type) (c : Cursor) where
  value : α
  rest : Cursor
  noLonger : rest.size ≤ c.size

/-- The outcome of a parser that uses tokens. -/
abbrev Parse (α : Type) (c : Cursor) := Except ParseError (Parsed α c)

/-- The outcome of a parser that may use none. -/
abbrev Continue (α : Type) (c : Cursor) := Except ParseError (Continued α c)

namespace Cursor

theorem size_advance {c : Cursor} {t : Located Token} {ts : List (Located Token)}
    (h : c.tokens = t :: ts) : c.advance.size < c.size := by
  simp [advance, size, h]

/-- Passes the next token if it is of the given kind. -/
def accept? (c : Cursor) (k : TokenKind) : Option (Parsed (Located Token) c) :=
  match h : c.tokens with
  | [] => none
  | t :: _ => if t.item.kind = k then some ⟨t, c.advance, size_advance h⟩ else none

/-- Passes the next token, which has to be of the given kind. -/
def expect (c : Cursor) (k : TokenKind) : Parse (Located Token) c :=
  match c.accept? k with
  | some p => .ok p
  | none => .error (c.unexpected [k])

/-- Reads a name. -/
def expectName (c : Cursor) : Parse Ident c :=
  match h : c.tokens with
  | ⟨.name spelling, span⟩ :: _ => .ok ⟨⟨spelling, span⟩, c.advance, size_advance h⟩
  | _ => .error (c.unexpected [.name])

/-- The tokens behind the first run of line breaks. -/
def skipBreaksFrom (previous : Option (Located Token)) (finish : Span) :
    List (Located Token) → Cursor
  | [] => ⟨previous, [], finish⟩
  | t :: ts =>
    match t.item with
    | .lineBreak => skipBreaksFrom (some t) finish ts
    | _ => ⟨previous, t :: ts, finish⟩

/-- Passes all line breaks that come next. -/
def skipBreaks (c : Cursor) : Cursor := skipBreaksFrom c.previous c.finish c.tokens

theorem size_skipBreaksFrom (previous : Option (Located Token)) (finish : Span)
    (ts : List (Located Token)) : (skipBreaksFrom previous finish ts).size ≤ ts.length := by
  induction ts generalizing previous with
  | nil => simp [skipBreaksFrom, size]
  | cons t ts ih =>
    rw [skipBreaksFrom]
    split
    · exact Nat.le_trans (ih _) (by simp)
    · simp [size]

theorem size_skipBreaks (c : Cursor) : c.skipBreaks.size ≤ c.size :=
  size_skipBreaksFrom ..

end Cursor

end ClassLang
