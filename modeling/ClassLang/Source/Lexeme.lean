import ClassLang.Source.Token

/-!
# Lexemes

A text is cut into lexemes, each the longest that any pattern matches at its place: blanks and
comments, tokens, and stretches that are no token. `Lexeme.split` cuts, `locate` adds the places, and
`tokenize` keeps the tokens or reports every bad stretch. The lexemes of a text always make up the
whole text.
-/

namespace ClassLang

/-- Why a stretch of text is no token. -/
inductive LexCause where
  | unexpectedCharacter (c : Char)
  | unterminatedString
  | invalidNumber (text : String)
deriving DecidableEq, Repr

/-- A lexical error and the text it covers. -/
structure LexError where
  cause : LexCause
  span : Span
deriving DecidableEq, Repr

namespace LexError

/-- The wording of a lexical error. -/
def message (e : LexError) : String :=
  match e.cause with
  | .unexpectedCharacter c => s!"Unexpected character '{c}' at {e.span.text}"
  | .unterminatedString => s!"Unterminated string literal at {e.span.text}"
  | .invalidNumber text => s!"Invalid number '{text}' at {e.span.text}"

/-- Advice on how to mend it. -/
def hint? (e : LexError) : Option String :=
  match e.cause with
  | .unterminatedString => some "Add a closing quote to terminate the string"
  | _ => none

end LexError

/-- A stretch of text: skipped, a token, or bad. -/
inductive Lexeme where
  | blank (text : List Char)
  | token (token : Token) (text : List Char)
  | bad (cause : LexCause) (text : List Char)
deriving Repr

namespace Lexeme

/-- The characters of a lexeme. -/
def text : Lexeme → List Char
  | .blank text => text
  | .token _ text => text
  | .bad _ text => text

/-! ## Patterns -/

/-- A space, a tab or a form feed. -/
def isBlank (c : Char) : Bool := c == ' ' || c == '\t' || c == '\x0c'

/-- A letter of the basic alphabet or an underscore. -/
def startsWord (c : Char) : Bool := c.isAlpha || c == '_'

/-- A character that may follow in a word. -/
def continuesWord (c : Char) : Bool := c.isAlphanum || c == '_'

/-- The longest run of digits. -/
def digits (cs : List Char) : List Char := cs.takeWhile Char.isDigit

/-- A point and at least one digit, or nothing. -/
def fraction : List Char → List Char
  | '.' :: cs => if digits cs = [] then [] else '.' :: digits cs
  | _ => []

/-- An `e`, an optional sign and at least one digit, or nothing. -/
def exponent : List Char → List Char
  | e :: cs =>
    let sign := match cs with
      | '+' :: _ => ['+']
      | '-' :: _ => ['-']
      | _ => []
    let power := digits (cs.drop sign.length)
    if (e = 'e' ∨ e = 'E') ∧ power ≠ [] then e :: sign ++ power else []
  | [] => []

/-- The longest number that starts with the given whole part. -/
def numberFrom (whole cs : List Char) : List Char :=
  let point := fraction cs
  whole ++ point ++ exponent (cs.drop point.length)

/-- The units of a string body: a character other than a quote, a backslash or a line feed, or a
backslash with any character but a line feed. -/
def stringUnits : List Char → List Char
  | '\\' :: c :: cs => if c = '\n' then [] else '\\' :: c :: stringUnits cs
  | c :: cs => if c = '"' ∨ c = '\\' ∨ c = '\n' then [] else c :: stringUnits cs
  | [] => []

/-- The content of a string body; a backslash that starts no known escape stands for itself. -/
def unescape : List Char → List Char
  | '\\' :: c :: cs =>
    match c with
    | 'n' => '\n' :: unescape cs
    | 'r' => '\r' :: unescape cs
    | 't' => '\t' :: unescape cs
    | 'b' => '\x08' :: unescape cs
    | 'f' => '\x0c' :: unescape cs
    | '\\' => '\\' :: unescape cs
    | '"' => '"' :: unescape cs
    | c => '\\' :: c :: unescape cs
  | c :: cs => c :: unescape cs
  | [] => []

/-- The symbol of two characters that starts a text. -/
def pairSymbol? : List Char → Option Symbol
  | '&' :: '&' :: _ => some .andAnd
  | '|' :: '|' :: _ => some .orOr
  | '=' :: '=' :: _ => some .equalEqual
  | '!' :: '=' :: _ => some .bangEqual
  | '<' :: '=' :: _ => some .lessEqual
  | '>' :: '=' :: _ => some .greaterEqual
  | _ => none

/-- The symbol of one character. -/
def charSymbol? : Char → Option Symbol
  | '+' => some .plus
  | '-' => some .minus
  | '*' => some .star
  | '/' => some .slash
  | '%' => some .percent
  | '<' => some .less
  | '>' => some .greater
  | '!' => some .bang
  | '=' => some .equal
  | '.' => some .dot
  | ',' => some .comma
  | ':' => some .colon
  | '?' => some .question
  | '(' => some .leftParen
  | ')' => some .rightParen
  | '\x7b' => some .leftBrace
  | '\x7d' => some .rightBrace
  | _ => none

/-! ## Cutting -/

/-- A number token, or a bad stretch if the text has no value. -/
def ofNumber (text : List Char) : Lexeme :=
  match Number.Decimal.read? text with
  | some d => .token (.number (d.toFloat false)) text
  | none => .bad (.invalidNumber (String.ofList text)) text

/-- A keyword if the word is reserved, else a name. -/
def ofWord (text : List Char) : Lexeme :=
  let spelling := String.ofList text
  match Keyword.ofText? spelling with
  | some k => .token (.keyword k) text
  | none => .token (.name spelling) text

/-- A string token, or a bad stretch if no quote follows the body. -/
def ofString (body rest : List Char) : Lexeme :=
  match rest with
  | '"' :: _ => .token (.string (String.ofList (unescape body))) ('"' :: body ++ ['"'])
  | _ => .bad .unterminatedString ('"' :: body)

/-- A symbol, the longer one first, or a bad character. -/
def ofSymbol (c : Char) (cs : List Char) : Lexeme :=
  match pairSymbol? (c :: cs) with
  | some s => .token (.symbol s) (c :: cs.take 1)
  | none =>
    match charSymbol? c with
    | some s => .token (.symbol s) [c]
    | none => .bad (.unexpectedCharacter c) [c]

/-- The lexeme at the front of the text `c :: cs`. -/
def first (c : Char) (cs : List Char) : Lexeme :=
  if isBlank c then .blank (c :: cs.takeWhile isBlank)
  else if c = '/' ∧ cs.head? = some '/' then .blank (c :: cs.takeWhile (· ≠ '\n'))
  else if c = '\n' then .token .lineBreak [c]
  else if c = '\r' ∧ cs.head? = some '\n' then .token .lineBreak [c, '\n']
  else if startsWord c then ofWord (c :: cs.takeWhile continuesWord)
  else if c.isDigit then ofNumber (numberFrom (digits (c :: cs)) (cs.dropWhile Char.isDigit))
  else if c = '.' ∧ fraction (c :: cs) ≠ [] then ofNumber (numberFrom [] (c :: cs))
  else if c = '"' then ofString (stringUnits cs) (cs.drop (stringUnits cs).length)
  else ofSymbol c cs

/-- Cuts a text into lexemes. Each takes at least one character off. -/
def split : List Char → List Lexeme
  | [] => []
  | c :: cs =>
    let l := first c cs
    l :: split (cs.drop (l.text.length - 1))
termination_by cs => cs.length
decreasing_by simp only [List.length_drop, List.length_cons]; omega

end Lexeme

/-- The lexemes with their places, when the first one starts at `p`. -/
def locate (p : Position) : List Lexeme → List (Located Lexeme)
  | [] => []
  | l :: ls => ⟨l, .between p (p.after l.text)⟩ :: locate (p.after l.text) ls

/-- The lexemes of a text with their places. -/
def lexemes (source : String) : List (Located Lexeme) :=
  locate .start (Lexeme.split source.toList)

/-- The token of a lexeme that is one. -/
def Lexeme.token? (l : Located Lexeme) : Option (Located Token) :=
  match l.item with
  | .token t _ => some ⟨t, l.span⟩
  | _ => none

/-- The error of a lexeme that is bad. -/
def Lexeme.error? (l : Located Lexeme) : Option LexError :=
  match l.item with
  | .bad cause _ => some ⟨cause, l.span⟩
  | _ => none

/-- The empty span at the end of a text. -/
def endSpan (source : String) : Span :=
  let p := Position.start.after source.toList
  .between p p

/-- The tokens of a text, ending with the end of the file, or all its lexical errors. -/
def tokenize (source : String) : Except (List LexError) (List (Located Token)) :=
  let ls := lexemes source
  match ls.filterMap Lexeme.error? with
  | [] => .ok (ls.filterMap Lexeme.token? ++ [⟨.endOfFile, endSpan source⟩])
  | errors => .error errors

end ClassLang
