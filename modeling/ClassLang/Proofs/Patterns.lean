import ClassLang.Source.Lexeme
import Mathlib.Computability.Language
import Mathlib.Data.List.TakeWhile

/-!
# Patterns of lexemes

What the texts of blanks, comments and tokens look like, as regular languages of characters, and
the texts that stand for each token. The patterns say nothing of how a text is cut. `Longest` does: a
piece at the front of a text is the longest that any pattern matches there.

The lemmas come in pairs for each piece that the lexer takes off: the piece has the pattern, and no
text with the pattern that starts there is longer.
-/

namespace ClassLang

open Computability

namespace Pattern

/-! ## Patterns -/

/-- One character with a property. -/
def one (p : Char → Bool) : Language Char := {w | ∃ c, p c = true ∧ w = [c]}

/-- One text. -/
def text (s : String) : Language Char := {s.toList}

/-- At least one character, all of them with a property. -/
def run (p : Char → Bool) : Language Char := one p * (one p)∗

/-- A text of a language, or nothing. -/
def optional (l : Language Char) : Language Char := 1 + l

/-- Spaces, tabs and form feeds. -/
def blank : Language Char := run Lexeme.isBlank

/-- Two slashes and the rest of the line. -/
def comment : Language Char := text "//" * (one (· ≠ '\n'))∗

/-- A line feed, perhaps with a carriage return in front of it. -/
def lineBreak : Language Char := optional (text "\r") * text "\n"

/-- A point and digits. -/
def point : Language Char := text "." * run Char.isDigit

/-- An `e`, perhaps a sign, and digits. -/
def power : Language Char :=
  one (fun c => c = 'e' ∨ c = 'E') * optional (one fun c => c = '+' ∨ c = '-') * run Char.isDigit

/-- Digits with an optional fraction, or a fraction alone, and perhaps a power of ten. -/
def number : Language Char :=
  (run Char.isDigit * optional point + point) * optional power

/-- A character of a string that stands for itself, or a backslash and a character behind it. -/
def stringUnit : Language Char :=
  one (fun c => c ≠ '"' ∧ c ≠ '\\' ∧ c ≠ '\n') + text "\\" * one (· ≠ '\n')

/-- Units between double quotes. -/
def string : Language Char := text "\"" * stringUnit∗ * text "\""

/-- A letter or an underscore, and letters, digits and underscores. -/
def name : Language Char := one Lexeme.startsWord * (one Lexeme.continuesWord)∗

end Pattern

/-- What the tokens of a kind look like. The end of a file is no text. -/
def TokenKind.pattern : TokenKind → Language Char
  | .keyword k => Pattern.text k.text
  | .symbol s => Pattern.text s.text
  | .number => Pattern.number
  | .string => Pattern.string
  | .name => Pattern.name
  | .lineBreak => Pattern.lineBreak
  | .endOfFile => 0

/-- A text stands for a token: it has the pattern of the kind, and what the token carries is the value
of the text. A keyword is no name. -/
def Token.WrittenAs : Token → List Char → Prop
  | .number x, w => w ∈ Pattern.number ∧ ∃ d, Number.Decimal.read? w = some d ∧ x = d.toFloat false
  | .string s, w => ∃ body ∈ Pattern.stringUnit∗, w = '"' :: (body ++ ['"']) ∧
      s = String.ofList (Lexeme.unescape body)
  | .name x, w => w ∈ Pattern.name ∧ x = String.ofList w ∧ ∀ k : Keyword, k.text ≠ x
  | t, w => w ∈ t.kind.pattern

namespace Pattern

/-- Everything that is skipped or is a token. -/
def any : Language Char := {w | w ∈ blank ∨ w ∈ comment ∨ ∃ k : TokenKind, w ∈ k.pattern}

/-- A piece stands at the front of a text, and no pattern matches a longer one there. -/
structure Longest (piece input : List Char) : Prop where
  front : piece <+: input
  longest : ∀ w ∈ any, w <+: input → w.length ≤ piece.length

/-! ## Texts of the small patterns -/

variable {p : Char → Bool} {c : Char} {w cs rest : List Char}

theorem mem_text {s : String} : w ∈ text s ↔ w = s.toList := Iff.rfl

theorem mem_optional {l : Language Char} : w ∈ optional l ↔ w = [] ∨ w ∈ l := by
  rw [optional, Language.mem_add, Language.mem_one]

theorem mem_many : w ∈ (one p)∗ ↔ ∀ c ∈ w, p c = true := by
  rw [Language.mem_kstar]
  constructor
  · rintro ⟨ws, rfl, hws⟩ c hc
    obtain ⟨v, hv, hc⟩ := List.mem_flatten.mp hc
    obtain ⟨d, hd, rfl⟩ := hws v hv
    rwa [List.mem_singleton.mp hc]
  · intro h
    refine ⟨w.map fun c => [c], by simp [← List.flatMap_def], fun v hv => ?_⟩
    obtain ⟨c, hc, rfl⟩ := List.mem_map.mp hv
    exact ⟨c, h c hc, rfl⟩

theorem cons_mem_mul_one {l : Language Char} : c :: w ∈ one p * l ↔ p c = true ∧ w ∈ l := by
  rw [Language.mem_mul]
  constructor
  · rintro ⟨_, ⟨d, hd, rfl⟩, v, hv, heq⟩
    obtain ⟨rfl, rfl⟩ := List.cons.inj heq
    exact ⟨hd, hv⟩
  · rintro ⟨hc, hw⟩
    exact ⟨[c], ⟨c, hc, rfl⟩, w, hw, rfl⟩

theorem nil_notMem_mul_one {l : Language Char} : [] ∉ one p * l := by
  rintro ⟨_, ⟨c, _, rfl⟩, v, _, heq⟩
  cases heq

theorem mem_run : w ∈ run p ↔ w ≠ [] ∧ ∀ c ∈ w, p c = true := by
  cases w with
  | nil => exact iff_of_false nil_notMem_mul_one fun h => h.1 rfl
  | cons c w => simp [run, cons_mem_mul_one, mem_many]

theorem cons_mem_name : c :: w ∈ name ↔
    Lexeme.startsWord c = true ∧ ∀ d ∈ w, Lexeme.continuesWord d = true := by
  rw [name, cons_mem_mul_one, mem_many]

theorem mem_comment : w ∈ comment ↔ ∃ v, w = '/' :: '/' :: v ∧ ∀ c ∈ v, c ≠ '\n' := by
  rw [comment, Language.mem_mul]
  constructor
  · rintro ⟨_, rfl, v, hv, rfl⟩
    exact ⟨v, rfl, fun c hc => by simpa using mem_many.mp hv c hc⟩
  · rintro ⟨v, rfl, hv⟩
    exact ⟨_, rfl, v, mem_many.mpr fun c hc => by simpa using hv c hc, rfl⟩

theorem mem_lineBreak : w ∈ lineBreak ↔ w = ['\n'] ∨ w = ['\r', '\n'] := by
  rw [lineBreak, Language.mem_mul]
  constructor
  · rintro ⟨v, hv, _, rfl, rfl⟩
    rcases mem_optional.mp hv with rfl | rfl
    · exact .inl rfl
    · exact .inr rfl
  · rintro (rfl | rfl)
    · exact ⟨[], mem_optional.mpr (.inl rfl), _, rfl, rfl⟩
    · exact ⟨_, mem_optional.mpr (.inr rfl), _, rfl, rfl⟩

theorem mem_point : w ∈ point ↔ ∃ ds, w = '.' :: ds ∧ ds ∈ run Char.isDigit := by
  rw [point, Language.mem_mul]
  constructor
  · rintro ⟨_, rfl, ds, hds, rfl⟩
    exact ⟨ds, rfl, hds⟩
  · rintro ⟨ds, rfl, hds⟩
    exact ⟨_, rfl, ds, hds, rfl⟩

theorem mem_power : w ∈ power ↔ ∃ e sign ds, w = e :: (sign ++ ds) ∧ (e = 'e' ∨ e = 'E') ∧
    (sign = [] ∨ sign = ['+'] ∨ sign = ['-']) ∧ ds ∈ run Char.isDigit := by
  rw [power, mul_assoc, Language.mem_mul]
  constructor
  · rintro ⟨_, ⟨e, he, rfl⟩, _, ⟨sign, hsign, ds, hds, rfl⟩, rfl⟩
    refine ⟨e, sign, ds, rfl, by simpa using he, ?_, hds⟩
    rcases mem_optional.mp hsign with rfl | ⟨d, hd, rfl⟩
    · exact .inl rfl
    · simpa using hd
  · rintro ⟨e, sign, ds, rfl, he, hsign, hds⟩
    refine ⟨[e], ⟨e, by simpa using he, rfl⟩, _, ⟨sign, mem_optional.mpr ?_, ds, hds, rfl⟩, rfl⟩
    rcases hsign with rfl | rfl | rfl
    · exact .inl rfl
    · exact .inr ⟨'+', rfl, rfl⟩
    · exact .inr ⟨'-', rfl, rfl⟩

theorem mem_string : w ∈ string ↔ ∃ body ∈ stringUnit∗, w = '"' :: (body ++ ['"']) := by
  rw [string, mul_assoc, Language.mem_mul]
  constructor
  · rintro ⟨_, rfl, _, ⟨body, hbody, _, rfl, rfl⟩, rfl⟩
    exact ⟨body, hbody, rfl⟩
  · rintro ⟨body, hbody, rfl⟩
    exact ⟨_, rfl, _, ⟨body, hbody, _, rfl, rfl⟩, rfl⟩

/-! ## Runs

The longest run of characters with a property, and what may follow a shorter one. -/

theorem takeWhile_mem_many : cs.takeWhile p ∈ (one p)∗ :=
  mem_many.mpr fun _ => List.mem_takeWhile_imp

/-- In front of a text that does not go on with the run, a run is either the whole run at this place, or
nothing follows it. -/
theorem run_front {ds t : List Char} (hds : ∀ c ∈ ds, p c = true) (ht : ∀ c ∈ t.head?, p c = false)
    (h : ds ++ t <+: cs) :
    (ds = cs.takeWhile p ∧ t <+: cs.dropWhile p) ∨
      (t = [] ∧ ds.length ≤ (cs.takeWhile p).length) := by
  induction ds generalizing cs with
  | nil =>
    cases t with
    | nil => exact .inr ⟨rfl, Nat.zero_le _⟩
    | cons c t =>
      obtain ⟨_, rfl⟩ := h
      have hc : p c = false := ht c rfl
      exact .inl (by simp [hc])
  | cons c ds ih =>
    obtain ⟨r, rfl⟩ := h
    obtain ⟨hc, hds⟩ := List.forall_mem_cons.mp hds
    rcases ih hds (List.prefix_append (ds ++ t) r) with ⟨heq, hrest⟩ | ⟨hnil, hlen⟩
    · rw [List.cons_append, List.cons_append, List.takeWhile_cons_of_pos hc, List.dropWhile_cons_of_pos hc]
      exact .inl ⟨congrArg _ heq, hrest⟩
    · exact .inr ⟨hnil, by simpa [hc] using hlen⟩

theorem run_bound (hw : ∀ c ∈ w, p c = true) (h : w <+: cs) : w.length ≤ (cs.takeWhile p).length := by
  rcases run_front (t := []) hw (by simp) (by simpa using h) with ⟨heq, _⟩ | ⟨_, hlen⟩
  · exact heq ▸ Nat.le_refl _
  · exact hlen

/-! ## Numbers -/

open Lexeme

theorem digits_mem (h : digits cs ≠ []) : digits cs ∈ run Char.isDigit :=
  mem_run.mpr ⟨h, mem_many.mp takeWhile_mem_many⟩

theorem fraction_cases (cs : List Char) : fraction cs = [] ∨ fraction cs ∈ point := by
  unfold fraction
  split
  · split
    · exact .inl rfl
    · next hne => exact .inr (mem_point.mpr ⟨_, rfl, digits_mem hne⟩)
  · exact .inl rfl

theorem fraction_front (cs : List Char) : fraction cs <+: cs := by
  unfold fraction
  split
  · split
    · exact List.nil_prefix
    · exact List.cons_prefix_cons.mpr ⟨rfl, List.takeWhile_prefix _⟩
  · exact List.nil_prefix

/-- A text is cut behind its sign, if it has one. -/
def SignOf (sign rest : List Char) : Prop :=
  sign = [] ∧ rest.head? ≠ some '+' ∧ rest.head? ≠ some '-' ∨ sign = ['+'] ∨ sign = ['-']

theorem exists_signOf (cs : List Char) : ∃ sign rest, cs = sign ++ rest ∧ SignOf sign rest := by
  match cs with
  | [] => exact ⟨[], [], rfl, .inl ⟨rfl, nofun, nofun⟩⟩
  | c :: cs =>
    by_cases hplus : c = '+'
    · exact ⟨['+'], cs, by rw [hplus]; rfl, .inr (.inl rfl)⟩
    · by_cases hminus : c = '-'
      · exact ⟨['-'], cs, by rw [hminus]; rfl, .inr (.inr rfl)⟩
      · exact ⟨[], c :: cs, rfl, .inl ⟨rfl, by simpa using hplus, by simpa using hminus⟩⟩

theorem exponent_signed {e : Char} {sign : List Char} (h : SignOf sign rest) :
    exponent (e :: (sign ++ rest)) =
      if (e = 'e' ∨ e = 'E') ∧ digits rest ≠ [] then e :: (sign ++ digits rest) else [] := by
  rcases h with ⟨rfl, hplus, hminus⟩ | rfl | rfl
  · cases rest with
    | nil => rfl
    | cons c rest =>
      have hplus : c ≠ '+' := by simpa using hplus
      have hminus : c ≠ '-' := by simpa using hminus
      unfold exponent
      simp [hplus, hminus]
  · rfl
  · rfl

theorem exponent_cases (cs : List Char) :
    exponent cs <+: cs ∧ (exponent cs = [] ∨ exponent cs ∈ power) := by
  cases cs with
  | nil => exact ⟨List.nil_prefix, .inl rfl⟩
  | cons e cs =>
    obtain ⟨sign, rest, rfl, hsign⟩ := exists_signOf cs
    rw [exponent_signed hsign]
    split
    · next h =>
      refine ⟨List.cons_prefix_cons.mpr ⟨rfl, (List.prefix_append_right_inj _).mpr ?_⟩,
        .inr (mem_power.mpr ⟨e, sign, _, rfl, h.1, hsign.imp_left (·.1), digits_mem h.2⟩)⟩
      exact List.takeWhile_prefix _
    · exact ⟨List.nil_prefix, .inl rfl⟩

theorem exponent_bound (hw : w ∈ power) (h : w <+: cs) : w.length ≤ (exponent cs).length := by
  obtain ⟨e, sign, ds, rfl, he, hsign, hds⟩ := mem_power.mp hw
  obtain ⟨t, rfl⟩ := h
  obtain ⟨hne, hdigits⟩ := mem_run.mp hds
  have hbound : ds.length ≤ (digits (ds ++ t)).length := run_bound hdigits (List.prefix_append _ _)
  have hsigned : SignOf sign (ds ++ t) := by
    obtain ⟨d, ds, rfl⟩ := List.exists_cons_of_ne_nil hne
    have hdigit : d.isDigit = true := hdigits d List.mem_cons_self
    refine hsign.imp_left fun hnil => ⟨hnil, ?_, ?_⟩ <;>
    · rintro ⟨⟩
      cases hdigit
  have hpower : digits (ds ++ t) ≠ [] := by
    intro hnil
    rw [hnil] at hbound
    exact hne (List.eq_nil_of_length_eq_zero (Nat.le_zero.mp hbound))
  rw [List.cons_append, List.append_assoc, exponent_signed hsigned, if_pos ⟨he, hpower⟩]
  simpa using hbound

/-- The longest number at the front of a text. -/
def numberIn (cs : List Char) : List Char := numberFrom (digits cs) (cs.dropWhile Char.isDigit)

/-- What the lexer takes off behind the whole part of a number. -/
def fractional (cs : List Char) : List Char :=
  fraction cs ++ exponent (cs.drop (fraction cs).length)

theorem numberIn_eq (cs : List Char) :
    numberIn cs = digits cs ++ fractional (cs.dropWhile Char.isDigit) := by
  rw [numberIn, numberFrom, fractional, List.append_assoc]

theorem fractional_front (cs : List Char) : fractional cs <+: cs := by
  obtain ⟨rest, hrest⟩ := fraction_front cs
  have hdrop : cs.drop (fraction cs).length = rest := by
    conv_lhs => arg 2; rw [← hrest]
    exact List.drop_left
  have h := (List.prefix_append_right_inj (fraction cs)).mpr (exponent_cases rest).1
  rwa [hrest, ← hdrop] at h

theorem numberIn_front (cs : List Char) : numberIn cs <+: cs := by
  have h := (List.prefix_append_right_inj (digits cs)).mpr
    (fractional_front (cs.dropWhile Char.isDigit))
  rwa [← numberIn_eq, digits, List.takeWhile_append_dropWhile] at h

theorem power_head (hw : w ∈ optional power) : ∀ c ∈ w.head?, c.isDigit = false ∧ c ≠ '.' := by
  rcases mem_optional.mp hw with rfl | hw
  · nofun
  · obtain ⟨e, sign, ds, rfl, he, _⟩ := mem_power.mp hw
    rintro c ⟨⟩
    rcases he with rfl | rfl <;> decide

theorem number_parts (hw : w ∈ number) : ∃ ds f e, w = ds ++ (f ++ e) ∧
    (∀ c ∈ ds, c.isDigit = true) ∧ f ∈ optional point ∧ e ∈ optional power ∧ (ds ≠ [] ∨ f ≠ []) := by
  obtain ⟨m, hm, e, he, rfl⟩ := hw
  rcases (Language.mem_add ..).mp hm with ⟨ds, hds, f, hf, rfl⟩ | hf
  · obtain ⟨hne, hdigits⟩ := mem_run.mp hds
    exact ⟨ds, f, e, List.append_assoc .., hdigits, hf, he, .inl hne⟩
  · refine ⟨[], m, e, rfl, nofun, mem_optional.mpr (.inr hf), he, .inr ?_⟩
    obtain ⟨ds, rfl, _⟩ := mem_point.mp hf
    nofun

theorem number_ne_nil (hw : w ∈ number) : w ≠ [] := by
  obtain ⟨ds, f, e, rfl, _, _, _, hne⟩ := number_parts hw
  simp only [ne_eq, List.append_eq_nil_iff, not_and]
  exact fun hds hf => absurd hf (hne.resolve_left (· hds))

/-- The longest fraction and exponent part are taken together, although a shorter fraction could leave
more for the exponent part. -/
theorem fractional_bound {f e : List Char} (hf : f ∈ optional point) (he : e ∈ optional power)
    (h : f ++ e <+: cs) : (f ++ e).length ≤ (fractional cs).length := by
  have hpower {e cs : List Char} (he : e ∈ optional power) (h : e <+: cs) :
      e.length ≤ (exponent cs).length := by
    rcases mem_optional.mp he with rfl | he
    · exact Nat.zero_le _
    · exact exponent_bound he h
  rcases mem_optional.mp hf with rfl | hf
  · rcases e with _ | ⟨c, e⟩
    · exact Nat.zero_le _
    · obtain ⟨rest, rfl⟩ := h
      have hpoint : fraction (c :: (e ++ rest)) = [] := by
        have hc : c ≠ '.' := (power_head he c rfl).2
        unfold fraction
        split
        · next heq => exact absurd (List.cons.inj heq).1 hc
        · rfl
      rw [fractional, List.nil_append, List.cons_append, hpoint]
      exact hpower he (List.prefix_append ..)
  · obtain ⟨ds, rfl, hds⟩ := mem_point.mp hf
    obtain ⟨hne, hdigits⟩ := mem_run.mp hds
    obtain ⟨rest, rfl⟩ := h
    have hbound : ds.length ≤ (digits (ds ++ (e ++ rest))).length :=
      run_bound hdigits (List.prefix_append _ _)
    have hfraction : fraction ('.' :: (ds ++ (e ++ rest))) = '.' :: digits (ds ++ (e ++ rest)) := by
      refine if_neg fun hnil => hne ?_
      rw [hnil] at hbound
      exact List.eq_nil_of_length_eq_zero (Nat.le_zero.mp hbound)
    rw [fractional, List.cons_append, List.cons_append, List.append_assoc, hfraction]
    have hfront : ds ++ e <+: ds ++ (e ++ rest) := by
      rw [← List.append_assoc]
      exact List.prefix_append ..
    rcases run_front hdigits (fun c hc => (power_head he c hc).1) hfront with ⟨heq, hrest⟩ | ⟨rfl, hlen⟩
    · have hdrop : ('.' :: (ds ++ (e ++ rest))).drop ('.' :: digits (ds ++ (e ++ rest))).length =
          (ds ++ (e ++ rest)).dropWhile Char.isDigit := by
        conv_lhs =>
          arg 2
          rw [← List.takeWhile_append_dropWhile (p := Char.isDigit) (l := ds ++ (e ++ rest))]
        exact @List.drop_left _ ('.' :: digits (ds ++ (e ++ rest))) _
      have := hpower he hrest
      rw [hdrop]
      simp only [List.length_append, List.length_cons]
      omega
    · simp only [List.length_append, List.length_cons, List.length_nil]
      omega

theorem number_bound (hw : w ∈ number) (h : w <+: cs) : w.length ≤ (numberIn cs).length := by
  obtain ⟨ds, f, e, rfl, hdigits, hf, he, _⟩ := number_parts hw
  have hhead : ∀ c ∈ (f ++ e).head?, c.isDigit = false := by
    rcases mem_optional.mp hf with rfl | hf
    · exact fun c hc => (power_head he c hc).1
    · obtain ⟨ds, rfl, _⟩ := mem_point.mp hf
      rintro c ⟨⟩
      rfl
  rw [numberIn_eq, @List.length_append _ ds, @List.length_append _ (digits cs)]
  rcases run_front hdigits hhead h with ⟨rfl, hrest⟩ | ⟨hnil, hlen⟩
  · exact Nat.add_le_add_left (fractional_bound hf he hrest) _
  · rw [hnil]
    exact Nat.le_trans hlen (Nat.le_add_right ..)

theorem numberIn_mem (h : digits cs ≠ [] ∨ fraction cs ≠ []) : numberIn cs ∈ number := by
  rw [numberIn, numberFrom, number]
  refine Language.mem_mul.mpr
    ⟨_, (Language.mem_add ..).mpr ?_, _, mem_optional.mpr (exponent_cases _).2, rfl⟩
  by_cases hdigits : digits cs = []
  · have hdrop : cs.dropWhile Char.isDigit = cs := by
      have := List.takeWhile_append_dropWhile (p := Char.isDigit) (l := cs)
      rwa [← digits, hdigits, List.nil_append] at this
    rw [hdigits, hdrop]
    exact .inr ((fraction_cases cs).resolve_left (h.resolve_left (· hdigits)))
  · exact .inl ⟨_, digits_mem hdigits, _, mem_optional.mpr (fraction_cases _), rfl⟩

theorem takeWhile_run {ds t : List Char} (hds : ∀ c ∈ ds, p c = true)
    (ht : ∀ c ∈ t.head?, p c = false) :
    (ds ++ t).takeWhile p = ds ∧ (ds ++ t).dropWhile p = t := by
  rw [List.takeWhile_append_of_pos hds, List.dropWhile_append_of_pos hds]
  cases t with
  | nil => simp
  | cons c t => simp [ht c rfl]

theorem power_reads {e : List Char} (he : e ∈ optional power) :
    ∃ x, Number.Decimal.readExponent? e = some x := by
  rcases mem_optional.mp he with rfl | he
  · exact ⟨0, rfl⟩
  · obtain ⟨e, sign, ds, rfl, hletter, hsign, hds⟩ := mem_power.mp he
    obtain ⟨hne, hdigits⟩ := mem_run.mp hds
    have hall : ds ≠ [] ∧ ds.all Char.isDigit = true := ⟨hne, List.all_eq_true.mpr hdigits⟩
    rcases hsign with rfl | rfl | rfl
    · obtain ⟨d, ds, rfl⟩ := List.exists_cons_of_ne_nil hne
      have hdigit : d.isDigit = true := hdigits d List.mem_cons_self
      have hplus : d ≠ '+' := by rintro rfl; cases hdigit
      have hminus : d ≠ '-' := by rintro rfl; cases hdigit
      rw [List.nil_append, Number.Decimal.readExponent?, if_pos hletter]
      · exact ⟨_, if_pos hall⟩
      · exact fun _ heq => hminus (List.cons.inj heq).1
      · exact fun _ heq => hplus (List.cons.inj heq).1
    · exact ⟨_, (if_pos hletter).trans (if_pos hall)⟩
    · exact ⟨_, (if_pos hletter).trans (if_pos hall)⟩

/-- Every number has a value. -/
theorem number_reads (hw : w ∈ number) : ∃ d, Number.Decimal.read? w = some d := by
  obtain ⟨ds, f, e, rfl, hdigits, hf, he, hne⟩ := number_parts hw
  obtain ⟨x, hx⟩ := power_reads he
  have hpower := power_head he
  rcases mem_optional.mp hf with rfl | hf
  · have hds : ds ≠ [] := hne.resolve_right (· rfl)
    obtain ⟨htake, hdrop⟩ := takeWhile_run hdigits fun c hc => (hpower c hc).1
    rw [List.nil_append, Number.Decimal.read?, htake, hdrop]
    split
    next heq =>
      split at heq
      · exact absurd rfl (hpower '.' rfl).2
      · cases heq
        rw [if_neg (fun h => hds h.1), hx]
        exact ⟨_, rfl⟩
  · obtain ⟨ds', rfl, hds'⟩ := mem_point.mp hf
    obtain ⟨hne', hdigits'⟩ := mem_run.mp hds'
    obtain ⟨htake, hdrop⟩ := takeWhile_run (t := '.' :: ds' ++ e) hdigits (by rintro c ⟨⟩; rfl)
    obtain ⟨htake', hdrop'⟩ := takeWhile_run hdigits' fun c hc => (hpower c hc).1
    rw [Number.Decimal.read?, htake, hdrop]
    simp only [List.cons_append, htake', hdrop']
    rw [if_neg (fun h => hne' h.2), hx]
    exact ⟨_, rfl⟩

/-! ## Strings -/

theorem unit_cases {u : List Char} (h : u ∈ stringUnit) :
    (∃ c, u = [c] ∧ c ≠ '"' ∧ c ≠ '\\' ∧ c ≠ '\n') ∨ ∃ c, u = ['\\', c] ∧ c ≠ '\n' := by
  rcases (Language.mem_add ..).mp h with ⟨c, hc, rfl⟩ | ⟨_, rfl, _, ⟨c, hc, rfl⟩, rfl⟩
  · exact .inl ⟨c, rfl, by simpa using hc⟩
  · exact .inr ⟨c, rfl, by simpa using hc⟩

theorem stringUnits_front (cs : List Char) : stringUnits cs <+: cs := by
  fun_induction stringUnits cs with
  | case1 => exact List.nil_prefix
  | case2 c cs h ih => exact List.cons_prefix_cons.mpr ⟨rfl, List.cons_prefix_cons.mpr ⟨rfl, ih⟩⟩
  | case3 => exact List.nil_prefix
  | case4 c cs h h' ih => exact List.cons_prefix_cons.mpr ⟨rfl, ih⟩
  | case5 => exact List.nil_prefix

theorem unit_append_mem {u : List Char} (hu : u ∈ stringUnit) (hw : w ∈ stringUnit∗) :
    u ++ w ∈ stringUnit∗ := by
  obtain ⟨us, rfl, hus⟩ := Language.mem_kstar.mp hw
  exact Language.mem_kstar.mpr ⟨u :: us, rfl, List.forall_mem_cons.mpr ⟨hu, hus⟩⟩

theorem stringUnits_mem (cs : List Char) : stringUnits cs ∈ stringUnit∗ := by
  have hnil : [] ∈ stringUnit∗ := Language.mem_kstar.mpr ⟨[], rfl, nofun⟩
  fun_induction stringUnits cs with
  | case1 => exact hnil
  | case2 c cs h ih =>
    exact unit_append_mem (.inr ⟨_, rfl, [c], ⟨c, by simpa using h, rfl⟩, rfl⟩) ih
  | case3 => exact hnil
  | case4 c cs h h' ih =>
    exact unit_append_mem (.inl ⟨c, by simpa using h', rfl⟩) ih
  | case5 => exact hnil

/-- The units of a body in front of a quote are read as the body. -/
theorem stringUnits_body {body : List Char} (h : body ∈ stringUnit∗) :
    stringUnits (body ++ '"' :: rest) = body := by
  obtain ⟨us, rfl, hus⟩ := Language.mem_kstar.mp h
  induction us with
  | nil => rfl
  | cons u us ih =>
    obtain ⟨hu, hus⟩ := List.forall_mem_cons.mp hus
    have ih := ih hus (Language.mem_kstar.mpr ⟨us, rfl, hus⟩)
    rw [List.flatten_cons, List.append_assoc]
    rcases unit_cases hu with ⟨c, rfl, hquote, hslash, hfeed⟩ | ⟨c, rfl, hfeed⟩
    · rw [List.singleton_append, stringUnits, if_neg (by simp [*]), ih]
      · rfl
      · exact fun _ _ heq => absurd heq hslash
    · rw [List.cons_append, List.singleton_append, stringUnits, if_neg hfeed, ih]
      rfl

/-! ## All patterns -/

theorem mem_any_of_skipped (h : w ∈ blank ∨ w ∈ comment) : w ∈ any := h.imp_right .inl

theorem mem_any {k : TokenKind} (h : w ∈ k.pattern) : w ∈ any := .inr (.inr ⟨k, h⟩)

theorem any_ne_nil (h : w ∈ any) : w ≠ [] := by
  rintro rfl
  rcases h with hblank | hcomment | ⟨k, hk⟩
  · exact (mem_run.mp hblank).1 rfl
  · obtain ⟨_, heq, _⟩ := mem_comment.mp hcomment
    cases heq
  · cases k with
    | keyword k => cases k <;> cases hk
    | symbol s => cases s <;> cases hk
    | number => exact number_ne_nil hk rfl
    | string =>
      obtain ⟨_, _, heq⟩ := mem_string.mp hk
      cases heq
    | name => exact nil_notMem_mul_one hk
    | lineBreak => rcases mem_lineBreak.mp hk with heq | heq <;> cases heq
    | endOfFile => exact Language.notMem_zero _ hk

end Pattern

/-- The text of a token has the pattern of its kind. -/
theorem Token.WrittenAs.mem_any {t : Token} {w : List Char} (h : t.WrittenAs w) : w ∈ Pattern.any := by
  refine Pattern.mem_any (k := t.kind) ?_
  cases t with
  | keyword k => exact h
  | symbol s => exact h
  | number x => exact h.1
  | string s =>
    obtain ⟨body, hbody, rfl, _⟩ := h
    exact Pattern.mem_string.mpr ⟨body, hbody, rfl⟩
  | name x => exact h.1
  | lineBreak => exact h
  | endOfFile => exact h

end ClassLang
