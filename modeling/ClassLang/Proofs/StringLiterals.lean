import ClassLang.Proofs.Scanning

/-!
# Literals of strings

Every string can be written as a literal. Its characters stand for themselves between the quotes, but for
the seven that have a letter of their own behind a backslash (`Lexeme.escape`). Among these are the quote,
the backslash and the line feed, so that all that is written consists of whole units: the search for the
closing quote takes the same characters together as the decoder does, whatever stands next to what. The
lexer therefore reads one token from the literal, and its content is the string (`tokenize_literal`).
-/

namespace ClassLang

open Pattern Computability

namespace Lexeme

/-- The letter behind a backslash that stands for a character. -/
def escapeLetter? : Char → Option Char
  | '\\' => some '\\'
  | '"' => some '"'
  | '\n' => some 'n'
  | '\r' => some 'r'
  | '\t' => some 't'
  | '\x08' => some 'b'
  | '\x0c' => some 'f'
  | _ => none

/-- A character as it is written in a literal. -/
def escapeChar (c : Char) : List Char :=
  match escapeLetter? c with
  | some letter => ['\\', letter]
  | none => [c]

/-- Characters as they are written in a literal. -/
def escape (cs : List Char) : List Char := cs.flatMap escapeChar

/-- The characters that stand for themselves end no literal and start no escape. -/
theorem escapeLetter?_none {c : Char} (h : escapeLetter? c = none) : c ≠ '"' ∧ c ≠ '\\' ∧ c ≠ '\n' := by
  refine ⟨?_, ?_, ?_⟩
  all_goals
    rintro rfl
    cases h

/-- A letter behind a backslash is read as the character that it stands for. -/
theorem unescape_letter {c letter : Char} (h : escapeLetter? c = some letter) (cs : List Char) :
    unescape ('\\' :: letter :: cs) = c :: unescape cs := by
  unfold escapeLetter? at h
  split at h <;> cases h <;> rfl

theorem escapeLetter?_ne_feed {c letter : Char} (h : escapeLetter? c = some letter) : letter ≠ '\n' := by
  unfold escapeLetter? at h
  split at h <;> cases h <;> decide

/-- A character is written as one unit. -/
theorem escapeChar_mem (c : Char) : escapeChar c ∈ stringUnit := by
  unfold escapeChar
  split
  · next letter h => exact .inr ⟨_, rfl, [letter], ⟨letter, by simpa using escapeLetter?_ne_feed h, rfl⟩, rfl⟩
  · next h => exact .inl ⟨c, by simpa using escapeLetter?_none h, rfl⟩

theorem unescape_escapeChar (c : Char) (cs : List Char) :
    unescape (escapeChar c ++ cs) = c :: unescape cs := by
  unfold escapeChar
  split
  · next h => exact unescape_letter h cs
  · next h =>
    obtain ⟨_, hslash, _⟩ := escapeLetter?_none h
    rw [List.singleton_append, unescape]
    exact fun _ _ heq => absurd heq hslash

theorem escape_mem (cs : List Char) : escape cs ∈ stringUnit∗ := by
  induction cs with
  | nil => exact Language.mem_kstar.mpr ⟨[], rfl, nofun⟩
  | cons c cs ih => exact unit_append_mem (escapeChar_mem c) ih

/-- What is written is read back. -/
theorem unescape_escape (cs : List Char) : unescape (escape cs) = cs := by
  induction cs with
  | nil => rfl
  | cons c cs ih => rw [escape, List.flatMap_cons, unescape_escapeChar, ← escape, ih]

/-- The literal of a string. -/
def literal (s : String) : String := String.ofList ('"' :: (escape s.toList ++ ['"']))

/-- A literal is one lexeme, whatever stands behind it. -/
theorem first_literal (s : String) (rest : List Char) :
    first '"' (escape s.toList ++ '"' :: rest) = .token (.string s) (literal s).toList := by
  rw [first_string (escape_mem _), unescape_escape, String.ofList_toList, literal, String.toList_ofList]

theorem split_literal (s : String) : split (literal s).toList = [.token (.string s) (literal s).toList] := by
  have hrest : (escape s.toList ++ ['"']).drop ((literal s).toList.length - 1) = [] := by
    simp [literal]
  have hchars : (literal s).toList = '"' :: (escape s.toList ++ ['"']) := String.toList_ofList
  conv_lhs => rw [hchars]
  rw [split, first_literal]
  simp only [Lexeme.text, hrest]
  rw [split]

end Lexeme

open Lexeme

/-- The tokens of the literal of a string are the string, which takes up the whole text, and the end of the
file. No string is without a literal. -/
theorem tokenize_literal (s : String) : tokenize (literal s) =
    .ok [⟨.string s, .between .start (Position.start.after (literal s).toList)⟩,
      ⟨.endOfFile, endSpan (literal s)⟩] := by
  rw [tokenize, lexemes, split_literal]
  rfl

/-- A backslash in front of a quote is escaped, and so is the quote. -/
example : literal "\\\"n\n" = "\"\\\\\\\"n\\n\"" := by decide

end ClassLang
