import ClassLang.Json.Value

/-!
# JSON text

`Json.text` writes a value, `Json.read?` reads one and takes the whole text. Numbers have no leading
zeros, and nothing but blanks stands around values.
-/

namespace ClassLang.Json

/-! ## Writing -/

/-- A string literal with its quotes. -/
def quoted (literal : List Char) : List Char := '"' :: literal ++ ['"']

mutual
/-- The characters of a value. -/
def chars : Json → List Char
  | .null => "null".toList
  | .boolean true => "true".toList
  | .boolean false => "false".toList
  | .number n => n.text
  | .string literal => quoted literal
  | .array [] => ['[', ']']
  | .array (j :: js) => '[' :: j.chars ++ itemChars js ++ [']']
  | .object [] => ['\x7b', '\x7d']
  | .object ((name, j) :: fields) =>
    '\x7b' :: quoted name ++ ':' :: j.chars ++ fieldChars fields ++ ['\x7d']

/-- The characters of further items. -/
def itemChars : List Json → List Char
  | [] => []
  | j :: js => ',' :: j.chars ++ itemChars js

/-- The characters of further fields. -/
def fieldChars : List (List Char × Json) → List Char
  | [] => []
  | (name, j) :: fields => ',' :: quoted name ++ ':' :: j.chars ++ fieldChars fields
end

/-- The text of a value. -/
def text (j : Json) : String := String.ofList j.chars

/-! ## Reading -/

/-- A blank between values. -/
def isBlank (c : Char) : Bool := c == ' ' || c == '\n' || c == '\t' || c == '\r'

/-- The text behind blanks. -/
def skipBlanks (cs : List Char) : List Char := cs.dropWhile isBlank

/-- Digits, at least one. -/
def readDigits? (cs : List Char) : Option (List Char × List Char) :=
  if cs.takeWhile Char.isDigit = [] then none
  else some (cs.takeWhile Char.isDigit, cs.dropWhile Char.isDigit)

/-- Whole digits: zero alone, or digits that do not start with zero. -/
def readWhole? (cs : List Char) : Option (List Char × List Char) := do
  let (digits, rest) ← readDigits? cs
  if digits.head? = some '0' && digits.length ≠ 1 then none else return (digits, rest)

/-- A fraction, if there is a point. -/
def readFraction? : List Char → Option (List Char × List Char)
  | '.' :: cs => readDigits? cs
  | cs => some ([], cs)

/-- An exponent, if there is an `e`. -/
def readExponent? : List Char → Option (Option ExponentPart × List Char)
  | [] => some (none, [])
  | c :: cs =>
    if c = 'e' || c = 'E' then do
      let (negative, cs) := match cs with
        | '-' :: cs => (true, cs)
        | '+' :: cs => (false, cs)
        | cs => (false, cs)
      let (digits, rest) ← readDigits? cs
      return (some ⟨negative, digits⟩, rest)
    else some (none, c :: cs)

/-- A numeral. -/
def readNumeral? (cs : List Char) : Option (Numeral × List Char) := do
  let (negative, cs) := match cs with
    | '-' :: cs => (true, cs)
    | cs => (false, cs)
  let (whole, cs) ← readWhole? cs
  let (fraction, cs) ← readFraction? cs
  let (exponent, cs) ← readExponent? cs
  return (⟨negative, whole, fraction, exponent⟩, cs)

/-- The text behind a given start. -/
def expect? (start : List Char) (cs : List Char) : Option (List Char) :=
  if start.isPrefixOf cs then some (cs.drop start.length) else none

mutual
/-- A value and the text behind it. The bound limits the number of nested and following parts. -/
def readValue? : Nat → List Char → Option (Json × List Char)
  | 0, _ => none
  | bound + 1, cs =>
    match skipBlanks cs with
    | '"' :: rest => do
      let (literal, rest) ← readLiteral? rest
      return (.string literal, rest)
    | '[' :: rest =>
      match skipBlanks rest with
      | ']' :: rest => some (.array [], rest)
      | rest => do
        let (items, rest) ← readItems? bound rest
        return (.array items, rest)
    | '\x7b' :: rest =>
      match skipBlanks rest with
      | '\x7d' :: rest => some (.object [], rest)
      | rest => do
        let (fields, rest) ← readFields? bound rest
        return (.object fields, rest)
    | 'n' :: rest => return (.null, ← expect? ['u', 'l', 'l'] rest)
    | 't' :: rest => return (.boolean true, ← expect? ['r', 'u', 'e'] rest)
    | 'f' :: rest => return (.boolean false, ← expect? ['a', 'l', 's', 'e'] rest)
    | rest => do
      let (n, rest) ← readNumeral? rest
      return (.number n, rest)

/-- Items up to the closing bracket. -/
def readItems? : Nat → List Char → Option (List Json × List Char)
  | 0, _ => none
  | bound + 1, cs => do
    let (j, rest) ← readValue? bound cs
    match skipBlanks rest with
    | ',' :: rest =>
      let (js, rest) ← readItems? bound rest
      return (j :: js, rest)
    | ']' :: rest => return ([j], rest)
    | _ => none

/-- Fields up to the closing brace. -/
def readFields? : Nat → List Char → Option (List (List Char × Json) × List Char)
  | 0, _ => none
  | bound + 1, cs =>
    match skipBlanks cs with
    | '"' :: rest => do
      let (name, rest) ← readLiteral? rest
      let rest ← expect? [':'] (skipBlanks rest)
      let (j, rest) ← readValue? bound rest
      match skipBlanks rest with
      | ',' :: rest =>
        let (fields, rest) ← readFields? bound rest
        return ((name, j) :: fields, rest)
      | '\x7d' :: rest => return ([(name, j)], rest)
      | _ => none
    | _ => none
end

/-- The value that a text holds. Every part takes up at least one character, so the bound is never
reached. -/
def read? (s : String) : Option Json :=
  match readValue? (2 * s.length + 2) s.toList with
  | some (j, rest) => if skipBlanks rest = [] then some j else none
  | none => none

end ClassLang.Json
