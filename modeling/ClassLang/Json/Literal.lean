import ClassLang.Number.Decimal

/-!
# String literals of JSON

A literal is kept as it stands between its quotes. `encode` writes a text, `decode?` finds the text that
a literal stands for; a literal with half of a surrogate pair stands for none.
-/

namespace ClassLang.Json

/-- The value of a hexadecimal digit. -/
def hexDigit? (c : Char) : Option Nat :=
  if c.isDigit then some (c.toNat - '0'.toNat)
  else if 'a' ≤ c ∧ c ≤ 'f' then some (c.toNat - 'a'.toNat + 10)
  else if 'A' ≤ c ∧ c ≤ 'F' then some (c.toNat - 'A'.toNat + 10)
  else none

/-- The number that four hexadecimal digits write. -/
def hexUnit? (a b c d : Char) : Option Nat := do
  return (((← hexDigit? a) * 16 + (← hexDigit? b)) * 16 + (← hexDigit? c)) * 16 + (← hexDigit? d)

/-- Characters that are written with a backslash and a letter, and the letters. -/
def shortEscapes : List (Char × Char) :=
  [('"', '"'), ('\\', '\\'), ('\x08', 'b'), ('\x0c', 'f'), ('\n', 'n'), ('\r', 'r'), ('\t', 't')]

/-- The character that a letter stands for behind a backslash. -/
def unescape? (letter : Char) : Option Char :=
  if letter = '/' then some '/'
  else (shortEscapes.find? (·.2 == letter)).map (·.1)

/-- The characters of a literal for one character. Control characters without a letter are written with
four hexadecimal digits. -/
def encodeChar (c : Char) : List Char :=
  match shortEscapes.lookup c with
  | some letter => ['\\', letter]
  | none =>
    if c.toNat < 32 then
      ['\\', 'u', '0', '0', Nat.digitChar (c.toNat / 16), Nat.digitChar (c.toNat % 16)]
    else [c]

/-- The literal of a text. -/
def encode (s : String) : List Char := s.toList.flatMap encodeChar

/-- The first of a pair of surrogates. -/
def isHighSurrogate (unit : Nat) : Bool := 0xD800 ≤ unit && unit < 0xDC00

/-- The second of a pair of surrogates. -/
def isLowSurrogate (unit : Nat) : Bool := 0xDC00 ≤ unit && unit < 0xE000

/-- The characters that a literal stands for. -/
def decodeChars? : List Char → Option (List Char)
  | [] => some []
  | '\\' :: 'u' :: a :: b :: c :: d :: rest =>
    match hexUnit? a b c d with
    | none => none
    | some unit =>
      if isLowSurrogate unit then none
      else if isHighSurrogate unit then
        match rest with
        | '\\' :: 'u' :: e :: f :: g :: h :: rest' =>
          match hexUnit? e f g h with
          | none => none
          | some low =>
            if isLowSurrogate low then
              let code := 0x10000 + (unit - 0xD800) * 0x400 + (low - 0xDC00)
              (decodeChars? rest').map (Char.ofNat code :: ·)
            else none
        | _ => none
      else (decodeChars? rest).map (Char.ofNat unit :: ·)
  | '\\' :: letter :: rest =>
    match unescape? letter with
    | none => none
    | some c => (decodeChars? rest).map (c :: ·)
  | '\\' :: [] => none
  | c :: rest => (decodeChars? rest).map (c :: ·)

/-- The text that a literal stands for. -/
def decode? (literal : List Char) : Option String := (decodeChars? literal).map String.ofList

example : decode? (encode "a\"\\\n\x01é") = some "a\"\\\n\x01é" := by decide +kernel
example : decode? "\\ud83d\\ude00".toList = some "😀" := by decide +kernel
example : decode? "\\ud83d".toList = none := by decide +kernel

/-- The literal at the start of a text, and the text behind its closing quote. Escapes are complete, and
control characters do not occur. -/
def readLiteral? : List Char → Option (List Char × List Char)
  | [] => none
  | '"' :: rest => some ([], rest)
  | '\\' :: 'u' :: a :: b :: c :: d :: rest => do
    let _ ← hexUnit? a b c d
    let (literal, rest) ← readLiteral? rest
    return ('\\' :: 'u' :: a :: b :: c :: d :: literal, rest)
  | '\\' :: letter :: rest => do
    let _ ← unescape? letter
    let (literal, rest) ← readLiteral? rest
    return ('\\' :: letter :: literal, rest)
  | c :: rest =>
    if c.toNat < 32 || c = '\\' then none
    else do
      let (literal, rest) ← readLiteral? rest
      return (c :: literal, rest)

end ClassLang.Json
