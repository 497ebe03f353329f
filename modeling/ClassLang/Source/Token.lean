import ClassLang.Number.Text
import ClassLang.Source.Span

/-!
# Tokens

The words of the language: keywords, symbols, names, literals, line breaks and the end of the text.
A token's `kind` leaves out what it carries; the parser asks for kinds.
-/

namespace ClassLang

/-- The reserved words. -/
inductive Keyword where
  | classWord | publicWord | protectedWord | privateWord | overrideWord | newWord | baseWord
  | thisWord | letWord | returnWord | ifWord | thenWord | elseWord | whileWord | doWord | isWord
  | asWord | binaryWord | unaryWord | trueWord | falseWord | nullWord
deriving DecidableEq, Repr

namespace Keyword

/-- The spelling of a keyword. -/
def text : Keyword → String
  | .classWord => "class"
  | .publicWord => "public"
  | .protectedWord => "protected"
  | .privateWord => "private"
  | .overrideWord => "override"
  | .newWord => "new"
  | .baseWord => "base"
  | .thisWord => "this"
  | .letWord => "let"
  | .returnWord => "return"
  | .ifWord => "if"
  | .thenWord => "then"
  | .elseWord => "else"
  | .whileWord => "while"
  | .doWord => "do"
  | .isWord => "is"
  | .asWord => "as"
  | .binaryWord => "binary"
  | .unaryWord => "unary"
  | .trueWord => "true"
  | .falseWord => "false"
  | .nullWord => "null"

/-- Every keyword. -/
def all : List Keyword :=
  [.classWord, .publicWord, .protectedWord, .privateWord, .overrideWord, .newWord, .baseWord,
    .thisWord, .letWord, .returnWord, .ifWord, .thenWord, .elseWord, .whileWord, .doWord, .isWord,
    .asWord, .binaryWord, .unaryWord, .trueWord, .falseWord, .nullWord]

/-- The keyword with a given spelling. -/
def ofText? (s : String) : Option Keyword := all.find? (·.text == s)

example : all.length = 22 := by decide

end Keyword

/-- Operators and punctuation. -/
inductive Symbol where
  | plus | minus | star | slash | percent | andAnd | orOr | equalEqual | bangEqual
  | less | greater | lessEqual | greaterEqual | bang | equal
  | dot | comma | colon | question | leftParen | rightParen | leftBrace | rightBrace
deriving DecidableEq, Repr

/-- The spelling of a symbol. -/
def Symbol.text : Symbol → String
  | .plus => "+"
  | .minus => "-"
  | .star => "*"
  | .slash => "/"
  | .percent => "%"
  | .andAnd => "&&"
  | .orOr => "||"
  | .equalEqual => "=="
  | .bangEqual => "!="
  | .less => "<"
  | .greater => ">"
  | .lessEqual => "<="
  | .greaterEqual => ">="
  | .bang => "!"
  | .equal => "="
  | .dot => "."
  | .comma => ","
  | .colon => ":"
  | .question => "?"
  | .leftParen => "("
  | .rightParen => ")"
  | .leftBrace => "\x7b"
  | .rightBrace => "\x7d"

/-- What a token is, without the number, text or name that it carries. -/
inductive TokenKind where
  | keyword (k : Keyword)
  | symbol (s : Symbol)
  | number
  | string
  | name
  | lineBreak
  | endOfFile
deriving DecidableEq, Repr

/-- The name of a kind in a list of what was expected. -/
def TokenKind.label : TokenKind → String
  | .keyword k => s!"'{k.text}'"
  | .symbol s => s!"'{s.text}'"
  | .number => "number"
  | .string => "string"
  | .name => "identifier"
  | .lineBreak => "line break"
  | .endOfFile => "end of file"

/-- A word of the source text. String tokens carry their content with escapes resolved. -/
inductive Token where
  | keyword (k : Keyword)
  | symbol (s : Symbol)
  | number (value : Float)
  | string (content : String)
  | name (spelling : String)
  | lineBreak
  | endOfFile
deriving Repr

namespace Token

/-- What the token is, without what it carries. -/
def kind : Token → TokenKind
  | .keyword k => .keyword k
  | .symbol s => .symbol s
  | .number _ => .number
  | .string _ => .string
  | .name _ => .name
  | .lineBreak => .lineBreak
  | .endOfFile => .endOfFile

/-- The token is a reserved word. -/
def isKeyword : Token → Bool
  | .keyword _ => true
  | _ => false

/-- A line break in front of this token never ends a statement. -/
def continuesLine : Token → Bool
  | .symbol .leftBrace | .symbol .rightBrace => true
  | .keyword .thenWord | .keyword .elseWord | .keyword .doWord => true
  | .endOfFile => true
  | _ => false

/-- The token as it is shown to a reader. -/
def text : Token → String
  | .keyword k => k.text
  | .symbol s => s.text
  | .number value => Number.text value
  | .string content => s!"\"{content}\""
  | .name spelling => spelling
  | .lineBreak => "\\n"
  | .endOfFile => "<eof>"

/-- The token in a message that says what was found. -/
def description : Token → String
  | .number value => s!"number '{Number.text value}'"
  | .string content => s!"string \"{content}\""
  | .name spelling => s!"identifier '{spelling}'"
  | t => t.kind.label

end Token

end ClassLang
