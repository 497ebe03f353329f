import ClassLang.Json.Text
import ClassLang.Proofs.Lookups

/-!
# Reading inverts writing

A JSON value that is written is read back as it was (`Json.read_text`), if it is a proper one: its
literals are such as stand between quotes, and its numerals have digits where digits belong. What is
written of naturals, texts and doubles is proper.

Reading stops by itself at the end of a value. Behind a numeral this needs a character that cannot belong
to it, so the lemmas are about a value in front of any text that begins with such a character
(`Json.Stops`).
-/

namespace ClassLang

/-! ## Digits -/

namespace Number

theorem ofDigits_digitsOf (n : Nat) : ofDigits (digitsOf n) = n :=
  Nat.ofDigitChars_toDigits (by decide) (by decide)

theorem digitsOf_ne_nil (n : Nat) : digitsOf n ≠ [] := Nat.toDigits_ne_nil

theorem digitsOf_isDigit (n : Nat) : ∀ c ∈ digitsOf n, c.isDigit = true := fun _ hc =>
  Nat.isDigit_of_mem_toDigits (by decide) (by decide) hc

theorem digitsOf_small {n : Nat} (h : n < 10) : digitsOf n = [Nat.digitChar n] :=
  Nat.toDigits_of_lt_base h

theorem digitsOf_large {n : Nat} (h : ¬ n < 10) :
    digitsOf n = digitsOf (n / 10) ++ [Nat.digitChar (n % 10)] :=
  Nat.toDigits_of_base_le (by decide) (Nat.le_of_not_lt h)

/-- Only zero begins with a zero. -/
theorem digitsOf_head {n : Nat} (h : (digitsOf n).head? = some '0') : n = 0 := by
  induction n using Nat.strongRecOn with
  | ind n ih =>
    by_cases hn : n < 10
    · rw [digitsOf_small hn, List.head?_cons] at h
      have hall : ∀ n < 10, some (Nat.digitChar n) = some '0' → n = 0 := by decide
      exact hall n hn h
    · obtain ⟨d, ds, hds⟩ := List.exists_cons_of_ne_nil (digitsOf_ne_nil (n / 10))
      rw [digitsOf_large hn, hds] at h
      have hzero := ih (n / 10) (by omega) (by rw [hds]; exact h)
      omega

/-- The power of ten for the zeros at the end of a number is not greater than the number. -/
theorem pow_zeros_le {n : Nat} (h : n ≠ 0) :
    Nat.pow 10 ((digitsOf n).reverse.takeWhile (· == '0')).length ≤ n := by
  induction n using Nat.strongRecOn with
  | ind n ih =>
    by_cases hn : n < 10
    · have hall : ∀ n < 10, n ≠ 0 → (Nat.digitChar n == '0') = false := by decide
      simp only [digitsOf_small hn, List.reverse_singleton, List.takeWhile_cons, hall n hn h]
      exact Nat.pos_of_ne_zero h
    · rw [digitsOf_large hn, List.reverse_append, List.reverse_singleton, List.singleton_append,
        List.takeWhile_cons]
      split
      · have hle := ih (n / 10) (by omega) (by omega)
        have hmul : Nat.pow 10 ((digitsOf (n / 10)).reverse.takeWhile (· == '0')).length * 10 ≤ n := by
          omega
        rw [List.length_cons]
        exact hmul
      · exact Nat.pos_of_ne_zero h

/-- A decimal without zeros at its end is zero only as `0 * 10 ^ 0`. -/
theorem Decimal.normal_cases (d : Decimal) : d.normal.significand ≠ 0 ∨ d.normal = ⟨0, 0⟩ := by
  unfold normal
  by_cases h : d.significand = 0
  · exact .inr (if_pos h)
  · refine .inl ?_
    rw [if_neg h]
    exact Nat.pos_iff_ne_zero.mp (Nat.div_pos (pow_zeros_le h) (Nat.pow_pos (by decide)))

end Number

open Number

namespace Json

/-! ## Literals -/

/-- A literal that may stand between quotes. -/
def IsLiteral (literal : List Char) : Prop :=
  ∀ rest, readLiteral? (literal ++ '"' :: rest) = some (literal, rest)

namespace TextLemmas

/-- A character is written with a letter, with hexadecimal digits, or as it is. -/
theorem encodeChar_cases (c : Char) :
    (∃ letter, encodeChar c = ['\\', letter] ∧ letter ≠ 'u' ∧ unescape? letter = some c) ∨
    (c.toNat < 32 ∧ ∃ h l, encodeChar c = ['\\', 'u', '0', '0', h, l] ∧
      hexUnit? '0' '0' h l = some c.toNat) ∨
    (encodeChar c = [c] ∧ c ≠ '\\' ∧ c ≠ '"' ∧ ¬ c.toNat < 32) := by
  unfold encodeChar
  cases h : shortEscapes.lookup c with
  | some letter =>
    refine .inl ⟨letter, rfl, ?_⟩
    have hall : ∀ e ∈ shortEscapes, e.2 ≠ 'u' ∧ unescape? e.2 = some e.1 := by decide
    exact hall _ (mem_of_lookup h)
  | none =>
    by_cases hc : c.toNat < 32
    · have hall : ∀ n < 32, hexUnit? '0' '0' (Nat.digitChar (n / 16)) (Nat.digitChar (n % 16)) =
          some n := by decide
      exact .inr (.inl ⟨hc, _, _, if_pos hc, hall _ hc⟩)
    · refine .inr (.inr ⟨if_neg hc, ?_, ?_, hc⟩)
      all_goals
        rintro rfl
        cases h

theorem decode_encodeChar (c : Char) (cs : List Char) :
    decodeChars? (encodeChar c ++ cs) = (decodeChars? cs).map (c :: ·) := by
  rcases encodeChar_cases c with ⟨letter, hc, hu, hletter⟩ | ⟨hlt, h, l, hc, hunit⟩ | ⟨hc, hne, _⟩
  · simp only [hc, List.cons_append, List.nil_append]
    rw [decodeChars?]
    · simp only [hletter]
    · exact fun _ _ _ _ _ heq _ => hu heq
  · have hlow : isLowSurrogate c.toNat = false := by simp [isLowSurrogate]; omega
    have hhigh : isHighSurrogate c.toNat = false := by simp [isHighSurrogate]; omega
    simp only [hc, List.cons_append, List.nil_append]
    rw [decodeChars?]
    simp only [hunit, hlow, hhigh, Char.ofNat_toNat, Bool.false_eq_true, ↓reduceIte]
  · simp only [hc, List.cons_append, List.nil_append]
    rw [decodeChars?]
    all_goals
      intros
      exact hne ‹_›

theorem readLiteral_encodeChar (c : Char) (cs : List Char) :
    readLiteral? (encodeChar c ++ cs) =
      (readLiteral? cs).map fun p => (encodeChar c ++ p.1, p.2) := by
  rcases encodeChar_cases c with ⟨letter, hc, hu, hletter⟩ | ⟨_, h, l, hc, hunit⟩ |
    ⟨hc, hne, hquote, hge⟩
  · simp only [hc, List.cons_append, List.nil_append]
    rw [readLiteral?]
    · simp only [hletter]
      cases readLiteral? cs <;> rfl
    · exact fun _ _ _ _ _ heq _ => hu heq
  · simp only [hc, List.cons_append, List.nil_append]
    rw [readLiteral?]
    simp only [hunit]
    cases readLiteral? cs <;> rfl
  · simp only [hc, List.cons_append, List.nil_append]
    rw [readLiteral?]
    · simp only [hge, hne, decide_false, Bool.or_self, Bool.false_eq_true, ↓reduceIte]
      cases readLiteral? cs <;> rfl
    all_goals
      intros
      first | exact hquote ‹_› | exact hne ‹_›

end TextLemmas

open TextLemmas

/-- The literal of a text stands for the text. -/
theorem decode_encode (s : String) : decode? (encode s) = some s := by
  have hall : ∀ cs : List Char, decodeChars? (cs.flatMap encodeChar) = some cs := by
    intro cs
    induction cs with
    | nil => rfl
    | cons c cs ih => rw [List.flatMap_cons, decode_encodeChar, ih, Option.map_some]
  rw [decode?, encode, hall, Option.map_some, String.ofList_toList]

theorem encode_isLiteral (s : String) : IsLiteral (encode s) := by
  intro rest
  rw [encode]
  induction s.toList with
  | nil => rfl
  | cons c cs ih => rw [List.flatMap_cons, List.append_assoc, readLiteral_encodeChar, ih, Option.map_some]

/-! ## Numerals -/

/-- A numeral with digits where digits belong. -/
structure Numeral.Proper (n : Numeral) : Prop where
  whole : n.whole ≠ []
  wholeDigits : ∀ c ∈ n.whole, c.isDigit = true
  leading : n.whole.head? = some '0' → n.whole.length = 1
  fraction : ∀ c ∈ n.fraction, c.isDigit = true
  exponent : ∀ e ∈ n.exponent, e.digits ≠ [] ∧ ∀ c ∈ e.digits, c.isDigit = true

/-- A text that does not go on with a numeral. -/
def Stops (rest : List Char) : Prop :=
  ∀ c ∈ rest.head?, c.isDigit = false ∧ c ≠ '.' ∧ c ≠ 'e' ∧ c ≠ 'E'

namespace Numeral

/-- The point and the digits behind it. -/
def fractionChars (fraction : List Char) : List Char :=
  if fraction = [] then [] else '.' :: fraction

/-- The `e` and what stands behind it. -/
def exponentChars : Option ExponentPart → List Char
  | none => []
  | some e => 'e' :: (if e.negative then ['-'] else []) ++ e.digits

theorem text_eq (n : Numeral) : n.text = (if n.negative then ['-'] else []) ++ n.whole ++
    fractionChars n.fraction ++ exponentChars n.exponent := by
  obtain ⟨_, _, _, _ | _⟩ := n <;> rfl

end Numeral

open Numeral

namespace TextLemmas

theorem span_digits {digits rest : List Char} (h : ∀ c ∈ digits, c.isDigit = true)
    (hrest : ∀ c ∈ rest.head?, c.isDigit = false) :
    (digits ++ rest).takeWhile Char.isDigit = digits ∧
      (digits ++ rest).dropWhile Char.isDigit = rest := by
  induction digits with
  | nil =>
    cases rest with
    | nil => exact ⟨rfl, rfl⟩
    | cons c cs =>
      have hc : c.isDigit = false := hrest c rfl
      simp [hc]
  | cons c cs ih =>
    obtain ⟨hc, hcs⟩ := List.forall_mem_cons.mp h
    simp [hc, ih hcs]

theorem readDigits_append {digits rest : List Char} (hne : digits ≠ [])
    (h : ∀ c ∈ digits, c.isDigit = true) (hrest : ∀ c ∈ rest.head?, c.isDigit = false) :
    readDigits? (digits ++ rest) = some (digits, rest) := by
  obtain ⟨htake, hdrop⟩ := span_digits h hrest
  rw [readDigits?, htake, hdrop, if_neg hne]

theorem readWhole_append {digits rest : List Char} (hne : digits ≠ [])
    (h : ∀ c ∈ digits, c.isDigit = true) (hlead : digits.head? = some '0' → digits.length = 1)
    (hrest : ∀ c ∈ rest.head?, c.isDigit = false) :
    readWhole? (digits ++ rest) = some (digits, rest) := by
  have hzero : ¬ (digits.head? = some '0' && digits.length ≠ 1) = true := by simpa using hlead
  simp only [readWhole?, readDigits_append hne h hrest, Option.bind_eq_bind, Option.bind_some,
    if_neg hzero]
  rfl

theorem readFraction_append {digits rest : List Char} (h : ∀ c ∈ digits, c.isDigit = true)
    (hrest : ∀ c ∈ rest.head?, c.isDigit = false ∧ c ≠ '.') :
    readFraction? (fractionChars digits ++ rest) = some (digits, rest) := by
  unfold fractionChars
  split
  · next hnil =>
    subst hnil
    cases rest with
    | nil => rfl
    | cons c cs =>
      have hc : c ≠ '.' := (hrest c rfl).2
      rw [List.nil_append, readFraction?]
      exact fun _ heq => hc (List.cons.inj heq).1
  · next hne => exact readDigits_append hne h fun c hc => (hrest c hc).1

theorem readExponent_append {exponent : Option ExponentPart} {rest : List Char}
    (h : ∀ e ∈ exponent, e.digits ≠ [] ∧ ∀ c ∈ e.digits, c.isDigit = true) (hrest : Stops rest) :
    readExponent? (exponentChars exponent ++ rest) = some (exponent, rest) := by
  cases exponent with
  | none =>
    cases rest with
    | nil => rfl
    | cons c cs =>
      obtain ⟨_, _, he, hE⟩ := hrest c rfl
      simp [exponentChars, readExponent?, he, hE]
  | some e =>
    obtain ⟨negative, digits⟩ := e
    obtain ⟨hne, hdigits⟩ := h _ rfl
    obtain ⟨d, ds, rfl⟩ := List.exists_cons_of_ne_nil hne
    have hread := readDigits_append hne hdigits fun c hc => (hrest c hc).1
    have hd : d.isDigit = true := hdigits d List.mem_cons_self
    have hminus : d ≠ '-' := by rintro rfl; cases hd
    have hplus : d ≠ '+' := by rintro rfl; cases hd
    rw [List.cons_append] at hread
    cases negative with
    | true => simp [exponentChars, readExponent?, hread]
    | false => simp [exponentChars, readExponent?, hread, hminus, hplus]

/-- An exponent does not go on with whole digits or a fraction. -/
theorem exponentChars_head {exponent : Option ExponentPart} {rest : List Char} (hrest : Stops rest) :
    ∀ c ∈ (exponentChars exponent ++ rest).head?, c.isDigit = false ∧ c ≠ '.' := by
  cases exponent with
  | none => exact fun c hc => ⟨(hrest c hc).1, (hrest c hc).2.1⟩
  | some e =>
    rintro _ ⟨⟩
    decide

theorem fractionChars_head {fraction rest : List Char} (hrest : ∀ c ∈ rest.head?, c.isDigit = false) :
    ∀ c ∈ (fractionChars fraction ++ rest).head?, c.isDigit = false := by
  unfold fractionChars
  split
  · exact hrest
  · rintro _ ⟨⟩
    rfl

end TextLemmas

/-- A numeral is read up to where it stops. -/
theorem readNumeral_text {n : Numeral} (h : n.Proper) {rest : List Char} (hrest : Stops rest) :
    readNumeral? (n.text ++ rest) = some (n, rest) := by
  have hlast : ∀ c ∈ (exponentChars n.exponent ++ rest).head?, c.isDigit = false ∧ c ≠ '.' :=
    exponentChars_head hrest
  have hbehind : ∀ c ∈ (fractionChars n.fraction ++ (exponentChars n.exponent ++ rest)).head?,
      c.isDigit = false := fractionChars_head fun c hc => (hlast c hc).1
  have hreadExponent := readExponent_append h.exponent hrest
  have hreadFraction := readFraction_append h.fraction hlast
  have hreadWhole := readWhole_append h.whole h.wholeDigits h.leading hbehind
  obtain ⟨d, ds, hwhole⟩ := List.exists_cons_of_ne_nil h.whole
  have hminus : d ≠ '-' := by
    rintro rfl
    cases h.wholeDigits '-' (hwhole ▸ List.mem_cons_self)
  rw [text_eq, List.append_assoc, List.append_assoc, List.append_assoc]
  obtain ⟨negative, whole, fraction, exponent⟩ := n
  subst hwhole
  rw [List.cons_append] at hreadWhole
  cases negative with
  | true => simp [readNumeral?, hreadWhole, hreadFraction, hreadExponent]
  | false => simp [readNumeral?, hminus, hreadWhole, hreadFraction, hreadExponent]

/-! ## Values -/

/-- A value with proper numerals and literals. -/
inductive Proper : Json → Prop
  | null : Proper .null
  | boolean {b : Bool} : Proper (.boolean b)
  | number {n : Numeral} : n.Proper → Proper (.number n)
  | string {literal : List Char} : IsLiteral literal → Proper (.string literal)
  | array {items : List Json} : (∀ j ∈ items, Proper j) → Proper (.array items)
  | object {fields : List (List Char × Json)} :
      (∀ f ∈ fields, IsLiteral f.1) → (∀ f ∈ fields, Proper f.2) → Proper (.object fields)

/-- A value is read up to its end. Two steps for every character are enough. -/
def Reads (j : Json) : Prop :=
  ∀ bound rest, 2 * j.chars.length ≤ bound → Stops rest →
    readValue? bound (j.chars ++ rest) = some (j, rest)

/-- A text that begins with a value and not with a blank or the end of a list or an object. -/
def Begins (cs : List Char) : Prop :=
  ∃ c rest, cs = c :: rest ∧ isBlank c = false ∧ c ≠ ']' ∧ c ≠ '\x7d'

namespace TextLemmas

theorem begins_skip {cs : List Char} (h : Begins cs) : skipBlanks cs = cs := by
  obtain ⟨c, rest, rfl, hblank, _⟩ := h
  rw [skipBlanks, List.dropWhile_cons_of_neg (by simp [hblank])]

theorem begins_append {cs : List Char} (h : Begins cs) (rest : List Char) : Begins (cs ++ rest) := by
  obtain ⟨c, cs, rfl, hc⟩ := h
  exact ⟨c, cs ++ rest, rfl, hc⟩

/-- A numeral begins with a sign or a digit. -/
theorem numeral_head {n : Numeral} (h : n.Proper) :
    ∃ c rest, n.text = c :: rest ∧ (c = '-' ∨ c.isDigit = true) := by
  obtain ⟨d, ds, hwhole⟩ := List.exists_cons_of_ne_nil h.whole
  have hd : d.isDigit = true := h.wholeDigits d (hwhole ▸ List.mem_cons_self)
  rw [text_eq, hwhole]
  cases n.negative with
  | true => exact ⟨'-', _, rfl, .inl rfl⟩
  | false => exact ⟨d, _, rfl, .inr hd⟩

theorem begins_chars {j : Json} (h : j.Proper) : Begins j.chars := by
  cases h with
  | null | string => exact ⟨_, _, rfl, by decide⟩
  | @boolean b => cases b <;> exact ⟨_, _, rfl, by decide⟩
  | @array items => cases items <;> exact ⟨_, _, rfl, by decide⟩
  | @object fields => rcases fields with _ | ⟨⟨name, j⟩, fields⟩ <;> exact ⟨_, _, rfl, by decide⟩
  | number h =>
    obtain ⟨c, rest, htext, hc⟩ := numeral_head h
    refine ⟨c, rest, htext, Bool.eq_false_iff.mpr fun hblank => ?_, ?_, ?_⟩
    · simp only [isBlank, Bool.or_eq_true, beq_iff_eq] at hblank
      rcases hblank with ((rfl | rfl) | rfl) | rfl <;> revert hc <;> decide
    all_goals
      rintro rfl
      revert hc
      decide

/-- A value has a character, so one step of reading is within the bound. -/
theorem reads_of_step {j : Json} (hj : j.Proper)
    (h : ∀ bound rest, 2 * j.chars.length ≤ bound + 1 → Stops rest →
      readValue? (bound + 1) (j.chars ++ rest) = some (j, rest)) : Reads j := by
  intro bound rest hbound hrest
  obtain ⟨c, cs, hchars, _⟩ := begins_chars hj
  rw [hchars, List.length_cons] at hbound
  obtain ⟨bound, rfl⟩ : ∃ n, bound = n + 1 := ⟨bound - 1, by omega⟩
  exact h bound rest (by rwa [hchars]) hrest

theorem reads_number {n : Numeral} (h : n.Proper) : Reads (.number n) := by
  refine reads_of_step (.number h) fun bound rest _ hrest => ?_
  have hbegins : Begins (n.text ++ rest) := begins_append (begins_chars (.number h)) rest
  have hread := readNumeral_text h hrest
  obtain ⟨c, cs, htext, hc⟩ := numeral_head h
  rw [chars, readValue?, begins_skip hbegins]
  -- No other value begins like a numeral.
  split
  case h_7 => rw [hread]; rfl
  all_goals
    next heq =>
    rw [htext] at heq
    cases heq
    exact absurd hc (by decide)

theorem reads_string {literal : List Char} (h : IsLiteral literal) : Reads (.string literal) := by
  refine reads_of_step (.string h) fun bound rest _ _ => ?_
  have hchars : (Json.string literal).chars ++ rest = '"' :: (literal ++ '"' :: rest) := by
    simp [chars, quoted]
  have hskip : skipBlanks ('"' :: (literal ++ '"' :: rest)) = '"' :: (literal ++ '"' :: rest) := rfl
  rw [hchars, readValue?, hskip]
  simp only [h rest]
  rfl

/-- Items up to the closing bracket. -/
theorem readItems_chars {js : List Json} {j : Json} {bound : Nat} {rest : List Char} (hj : Reads j)
    (hjs : ∀ j ∈ js, Reads j) (hbound : 2 * (j.chars.length + (itemChars js).length) + 1 ≤ bound) :
    readItems? bound (j.chars ++ (itemChars js ++ ']' :: rest)) = some (j :: js, rest) := by
  induction js generalizing j bound with
  | nil =>
    obtain ⟨bound, rfl⟩ : ∃ n, bound = n + 1 := ⟨bound - 1, by omega⟩
    have hread := hj bound (']' :: rest) (by omega) (by rintro _ ⟨⟩; decide)
    simp [itemChars, readItems?, hread, skipBlanks, isBlank]
  | cons j' js ih =>
    obtain ⟨bound, rfl⟩ : ∃ n, bound = n + 1 := ⟨bound - 1, by omega⟩
    obtain ⟨hj', hjs⟩ := List.forall_mem_cons.mp hjs
    have hchars : itemChars (j' :: js) ++ ']' :: rest =
        ',' :: (j'.chars ++ (itemChars js ++ ']' :: rest)) := by simp [itemChars]
    have hlen : (itemChars (j' :: js)).length = 1 + (j'.chars.length + (itemChars js).length) := by
      simp [itemChars]
      omega
    have hread := hj bound (',' :: (j'.chars ++ (itemChars js ++ ']' :: rest))) (by omega)
      (by rintro _ ⟨⟩; decide)
    have hrest : readItems? bound (j'.chars ++ (itemChars js ++ ']' :: rest)) =
        some (j' :: js, rest) := ih hj' hjs (by omega)
    simp [hchars, readItems?, hread, hrest, skipBlanks, isBlank]

theorem reads_array {items : List Json} (hproper : ∀ j ∈ items, j.Proper) (h : ∀ j ∈ items, Reads j) :
    Reads (.array items) := by
  refine reads_of_step (.array hproper) fun bound rest hbound _ => ?_
  cases items with
  | nil => rfl
  | cons j js =>
    obtain ⟨hj, hjs⟩ := List.forall_mem_cons.mp h
    have hlen : (Json.array (j :: js)).chars.length =
        j.chars.length + (itemChars js).length + 2 := by
      simp [chars]
      omega
    have hread : readItems? bound (j.chars ++ (itemChars js ++ ']' :: rest)) = some (j :: js, rest) :=
      readItems_chars hj hjs (by omega)
    have hbegins := begins_append (begins_chars (hproper j List.mem_cons_self))
      (itemChars js ++ ']' :: rest)
    have hskip := begins_skip hbegins
    have hchars : (Json.array (j :: js)).chars ++ rest =
        '[' :: (j.chars ++ (itemChars js ++ ']' :: rest)) := by simp [chars]
    have hbracket : skipBlanks ('[' :: (j.chars ++ (itemChars js ++ ']' :: rest))) =
        '[' :: (j.chars ++ (itemChars js ++ ']' :: rest)) := rfl
    rw [hchars, readValue?, hbracket]
    simp only [hskip]
    split
    · next heq =>
      obtain ⟨c, cs, hc, _, hne, _⟩ := hbegins
      rw [hc] at heq
      cases heq
      exact absurd rfl hne
    · rw [hread]
      rfl

/-- Fields up to the closing brace. -/
theorem readFields_chars {fields : List (List Char × Json)} {name : List Char} {j : Json} {bound : Nat}
    {rest : List Char} (hname : IsLiteral name) (hj : Reads j)
    (hfields : ∀ f ∈ fields, IsLiteral f.1 ∧ Reads f.2)
    (hbound : 2 * (j.chars.length + (fieldChars fields).length) + 1 ≤ bound) :
    readFields? bound (quoted name ++ ':' :: (j.chars ++ (fieldChars fields ++ '\x7d' :: rest))) =
      some ((name, j) :: fields, rest) := by
  induction fields generalizing name j bound with
  | nil =>
    obtain ⟨bound, rfl⟩ : ∃ n, bound = n + 1 := ⟨bound - 1, by omega⟩
    have hread := hj bound ('\x7d' :: rest) (by omega) (by rintro _ ⟨⟩; decide)
    have hliteral := hname (':' :: (j.chars ++ '\x7d' :: rest))
    simp [fieldChars, quoted, readFields?, hliteral, hread, skipBlanks, isBlank, expect?]
  | cons f fields ih =>
    obtain ⟨name', j'⟩ := f
    obtain ⟨bound, rfl⟩ : ∃ n, bound = n + 1 := ⟨bound - 1, by omega⟩
    obtain ⟨⟨hname', hj'⟩, hfields⟩ := List.forall_mem_cons.mp hfields
    have hchars : fieldChars ((name', j') :: fields) ++ '\x7d' :: rest = ',' ::
        (quoted name' ++ ':' :: (j'.chars ++ (fieldChars fields ++ '\x7d' :: rest))) := by
      simp [fieldChars]
    have hlen : j'.chars.length + (fieldChars fields).length + 1 ≤
        (fieldChars ((name', j') :: fields)).length := by
      simp [fieldChars]
      omega
    have hread := hj bound (fieldChars ((name', j') :: fields) ++ '\x7d' :: rest) (by omega)
      (by rw [hchars]; rintro _ ⟨⟩; decide)
    have hliteral := hname (':' :: (j.chars ++ (fieldChars ((name', j') :: fields) ++ '\x7d' :: rest)))
    have hlen' : 2 * (j'.chars.length + (fieldChars fields).length) + 1 ≤ bound := by omega
    have hrest := ih hname' hj' hfields hlen'
    rw [hchars] at hread hliteral ⊢
    simp only [quoted, List.cons_append, List.append_assoc, List.nil_append] at hrest hread hliteral ⊢
    simp [readFields?, hliteral, hread, hrest, skipBlanks, isBlank, expect?]

theorem reads_object {fields : List (List Char × Json)} (hnames : ∀ f ∈ fields, IsLiteral f.1)
    (hproper : ∀ f ∈ fields, f.2.Proper) (h : ∀ f ∈ fields, Reads f.2) : Reads (.object fields) := by
  refine reads_of_step (.object hnames hproper) fun bound rest hbound _ => ?_
  cases fields with
  | nil => rfl
  | cons f fields =>
    obtain ⟨name, j⟩ := f
    obtain ⟨hname, hnames⟩ := List.forall_mem_cons.mp hnames
    obtain ⟨hj, hfields⟩ := List.forall_mem_cons.mp h
    have hlen : j.chars.length + (fieldChars fields).length + 2 ≤
        (Json.object ((name, j) :: fields)).chars.length := by
      simp [chars]
      omega
    have hread : readFields? bound
        (quoted name ++ ':' :: (j.chars ++ (fieldChars fields ++ '\x7d' :: rest))) =
          some ((name, j) :: fields, rest) :=
      readFields_chars hname hj (fun f hf => ⟨hnames f hf, hfields f hf⟩) (by omega)
    have hchars : (Json.object ((name, j) :: fields)).chars ++ rest = '\x7b' ::
        (quoted name ++ ':' :: (j.chars ++ (fieldChars fields ++ '\x7d' :: rest))) := by
      simp [chars]
    have hskip (cs : List Char) : skipBlanks ('\x7b' :: cs) = '\x7b' :: cs := rfl
    have hskip' (cs : List Char) : skipBlanks (quoted name ++ cs) = quoted name ++ cs := rfl
    rw [hchars, readValue?, hskip]
    simp only [hskip']
    split
    · next heq => cases heq
    · rw [hread]
      rfl

end TextLemmas

/-- A proper value is read up to its end. -/
theorem Proper.reads {j : Json} (h : j.Proper) : Reads j := by
  induction h with
  | null => exact reads_of_step .null fun _ _ _ _ => rfl
  | @boolean b => exact reads_of_step .boolean fun _ _ _ _ => by cases b <;> rfl
  | number h => exact reads_number h
  | string h => exact reads_string h
  | array hitems ih => exact reads_array hitems ih
  | object hnames hfields ih => exact reads_object hnames hfields ih

/-- A proper value is read back from its text. -/
theorem read_text {j : Json} (h : j.Proper) : read? j.text = some j := by
  have hread := h.reads (2 * j.chars.length + 2) [] (by omega) (by rintro _ ⟨⟩)
  rw [List.append_nil] at hread
  simp only [read?, text, String.length_ofList, String.toList_ofList, hread]
  rfl

/-! ## What is written -/

theorem ofString_proper (s : String) : (ofString s).Proper := .string (encode_isLiteral s)

theorem toString_ofString (s : String) : (ofString s).toString? = some s := decode_encode s

/-- Digits stand for themselves in a literal. -/
theorem encode_digits {digits : List Char} (h : ∀ c ∈ digits, c.isDigit = true) :
    encode (String.ofList digits) = digits := by
  have hchar : ∀ c ∈ digits, encodeChar c = [c] := by
    intro c hc
    have hdigit := h c hc
    unfold encodeChar
    cases hl : shortEscapes.lookup c with
    | some letter =>
      have hall : ∀ e ∈ shortEscapes, e.1.isDigit = false := by decide
      have hnone : c.isDigit = false := hall _ (mem_of_lookup hl)
      rw [hnone] at hdigit
      cases hdigit
    | none =>
      have hle : 48 ≤ c.toNat := by
        simp only [Char.isDigit, Bool.and_eq_true, decide_eq_true_eq] at hdigit
        exact hdigit.1
      exact if_neg (by omega)
  rw [encode, String.toList_ofList, List.flatMap_congr hchar, List.flatMap_singleton']

theorem ofNat_proper (n : Nat) : (Numeral.ofNat n).Proper where
  whole := digitsOf_ne_nil n
  wholeDigits := digitsOf_isDigit n
  leading h := by
    rw [digitsOf_head h]
    rfl
  fraction := by simp [Numeral.ofNat]
  exponent := by simp [Numeral.ofNat]

theorem toNat_ofNat {n bits : Nat} (h : n < Nat.pow 2 bits) : (ofNat n).toNat? bits = some n := by
  have hnat : (Numeral.ofNat n).toNat? = some n := by
    simp [Numeral.toNat?, Numeral.ofNat, ofDigits_digitsOf]
  rw [ofNat, toNat?, hnat]
  exact Option.filter_eq_some_iff.mpr ⟨rfl, by simpa using h⟩

theorem zeros_isDigit {n : Nat} : ∀ c ∈ zeros n, c.isDigit = true := fun _ hc =>
  List.eq_of_mem_replicate hc ▸ rfl

/-- No numeral of a decimal has a zero too many in front. -/
theorem ofDecimal_proper (negative : Bool) {d : Decimal} (h : d.significand ≠ 0 ∨ d = ⟨0, 0⟩) :
    (Numeral.ofDecimal negative d).Proper := by
  have hdigits := digitsOf_isDigit d.significand
  have hne := digitsOf_ne_nil d.significand
  have htake (n : Nat) : ∀ c ∈ (digitsOf d.significand).take n, c.isDigit = true :=
    fun c hc => hdigits c (List.mem_of_mem_take hc)
  have hdrop (n : Nat) : ∀ c ∈ (digitsOf d.significand).drop n, c.isDigit = true :=
    fun c hc => hdigits c (List.mem_of_mem_drop hc)
  have hzero : (digitsOf d.significand).head? = some '0' → d = ⟨0, 0⟩ := fun hhead =>
    h.resolve_left (not_not.mpr (digitsOf_head hhead))
  have hlength : 0 < (digitsOf d.significand).length := List.length_pos_iff.mpr hne
  unfold Numeral.ofDecimal
  simp only
  split
  · refine ⟨by simp [hne], List.forall_mem_append.mpr ⟨hdigits, zeros_isDigit⟩, fun hlead => ?_,
      by simp, by simp⟩
    rw [List.head?_append] at hlead
    obtain ⟨c, cs, hcs⟩ := List.exists_cons_of_ne_nil hne
    rw [hcs, List.head?_cons, Option.some_or, ← List.head?_cons (l := cs), ← hcs] at hlead
    rw [hzero hlead]
    rfl
  · next hpositional =>
    split
    · next hpoint =>
      refine ⟨?_, htake _, fun hlead => ?_, hdrop _, by simp⟩
      · simp only [ne_eq, List.take_eq_nil_iff, hne, or_false]
        omega
      · rw [List.head?_take] at hlead
        split at hlead
        · cases hlead
        · rw [hzero hlead] at hpositional hpoint
          exact absurd ⟨Int.le_refl 0, hpoint.2⟩ hpositional
    · split
      · exact ⟨by simp, by simp, by simp, List.forall_mem_append.mpr ⟨zeros_isDigit, hdigits⟩, by simp⟩
      · refine ⟨by simp [hne], htake 1, fun _ => ?_, hdrop 1, ?_⟩
        · rw [List.length_take]
          omega
        · rintro _ ⟨⟩
          exact ⟨digitsOf_ne_nil _, digitsOf_isDigit _⟩

theorem ofFloat_proper {x : Float} {n : Numeral} (h : Numeral.ofFloat? x = some n) : n.Proper := by
  unfold Numeral.ofFloat? at h
  split at h
  · cases h
  · cases h
  · split at h
    · cases h
      exact ⟨by simp, by simp, by simp, by simp, by simp⟩
    · cases h
      exact ofDecimal_proper _ (Decimal.normal_cases _)

end Json

end ClassLang
