import ClassLang.Text.Unprintable
import ClassLang.Text.GraphemeExtend

/-!
# Quoted text

Text in double quotes for listings and messages. Quotes, backslashes, tabs, line ends and NUL get a
two-character escape; characters that would not show, or would be drawn on the one before, are given
by their code point.
-/

namespace ClassLang.Text

/-- The code point of a character in braces, in hexadecimal. -/
def codePoint (c : Char) : List Char :=
  "\\u\x7b".toList ++ Nat.toDigits 16 c.toNat ++ ['\x7d']

/-- A character as it stands between the quotes. -/
def quoteChar (c : Char) : List Char :=
  match c with
  | '\t' => ['\\', 't']
  | '\r' => ['\\', 'r']
  | '\n' => ['\\', 'n']
  | '"' => ['\\', '"']
  | '\\' => ['\\', '\\']
  | c =>
    if c.toNat = 0 then ['\\', '0']
    else if extendsGrapheme c || isUnprintable c then codePoint c
    else [c]

/-- Text in double quotes with everything escaped that needs it. -/
def quoted (s : String) : String :=
  String.ofList ('"' :: s.toList.flatMap quoteChar ++ ['"'])

example : quoted "a\"b\n" = "\"a\\\"b\\n\"" := by decide +kernel
example : quoted "e\u0301" = "\"e\\u\x7b301\x7d\"" := by decide +kernel

end ClassLang.Text
