import ClassLang.Proofs.Patterns

/-!
# Scanning

How a text is cut into tokens. At every place the longest piece that any pattern matches is taken off;
it is a blank or a comment, which leaves no mark, or a token. Where no pattern matches, some text is
marked as an error. `Scans` is this reading of a text, with the place of every mark counted from the
whole text in front of it, and `tokenize_scans` says that the lexer reads every text so.
-/

namespace ClassLang

open Pattern Computability

/-! ## One lexeme -/

namespace Lexeme

/-- The lexeme is no token. -/
def isBad : Lexeme → Bool
  | .bad _ _ => true
  | .blank _ | .token _ _ => false

/-- The lexeme is what the patterns ask for at the front of a text: the longest piece of it that any
pattern matches, or a piece that is no number if none matches. -/
def Fits (input : List Char) : Lexeme → Prop
  | .blank w => (w ∈ Pattern.blank ∨ w ∈ comment) ∧ Longest w input
  | .token t w => t.WrittenAs w ∧ Longest w input
  | .bad cause w => (∀ s, cause ≠ .invalidNumber s) ∧ w ≠ [] ∧ w <+: input ∧ ∀ v ∈ any, ¬ v <+: input

variable {c : Char} {cs w rest : List Char}

theorem word_plain (h : startsWord c = true) :
    isBlank c = false ∧ c ≠ '/' ∧ c ≠ '\n' ∧ c ≠ '\r' := by
  refine ⟨Bool.eq_false_iff.mpr fun hblank => ?_, ?_, ?_, ?_⟩
  · simp only [isBlank, Bool.or_eq_true, beq_iff_eq] at hblank
    rcases hblank with (rfl | rfl) | rfl <;> cases h
  all_goals
    rintro rfl
    cases h

theorem digit_plain (h : c.isDigit = true) :
    isBlank c = false ∧ c ≠ '/' ∧ c ≠ '\n' ∧ c ≠ '\r' ∧ startsWord c = false := by
  refine ⟨Bool.eq_false_iff.mpr fun hblank => ?_, ?_, ?_, ?_, Bool.eq_false_iff.mpr fun hword => ?_⟩
  · simp only [isBlank, Bool.or_eq_true, beq_iff_eq] at hblank
    rcases hblank with (rfl | rfl) | rfl <;> cases h
  · rintro rfl; cases h
  · rintro rfl; cases h
  · rintro rfl; cases h
  · rcases Bool.or_eq_true _ _ ▸ hword with halpha | hline
    · have hletter : 'A'.toNat ≤ c.toNat := by
        have halpha : (c.isUpper || c.isLower) = true := halpha
        rcases Bool.or_eq_true _ _ ▸ halpha with hupper | hlower
        · exact (of_decide_eq_true hupper).1
        · exact Nat.le_trans (by decide) (of_decide_eq_true (Bool.and_eq_true _ _ ▸ hlower).1)
      exact absurd (Nat.le_trans hletter (Char.isDigit_iff_toNat.mp h).2) (by decide)
    · rw [beq_iff_eq.mp hline] at h
      cases h

theorem first_blank (h : isBlank c = true) : first c cs = .blank (c :: cs.takeWhile isBlank) := if_pos h

theorem first_word (h : startsWord c = true) :
    first c cs = ofWord (c :: cs.takeWhile continuesWord) := by
  obtain ⟨hblank, hslash, hfeed, hreturn⟩ := word_plain h
  simp [first, hblank, hslash, hfeed, hreturn, h]

theorem first_digit (h : c.isDigit = true) : first c cs = ofNumber (numberIn (c :: cs)) := by
  obtain ⟨hblank, hslash, hfeed, hreturn, hword⟩ := digit_plain h
  simp [first, hblank, hslash, hfeed, hreturn, hword, h, numberIn]

theorem first_point (h : fraction ('.' :: cs) ≠ []) :
    first '.' cs = ofNumber (numberIn ('.' :: cs)) := by
  simp [first, isBlank, startsWord, h, numberIn, digits]

theorem ofWord_eq (w : List Char) : ofWord w = .token
    ((Keyword.ofText? (String.ofList w)).elim (.name (String.ofList w)) .keyword) w := by
  cases h : Keyword.ofText? (String.ofList w) <;> simp [ofWord, h]

theorem ofNumber_eq (h : w ∈ number) :
    ∃ d, Number.Decimal.read? w = some d ∧ ofNumber w = .token (.number (d.toFloat false)) w := by
  obtain ⟨d, hd⟩ := number_reads h
  exact ⟨d, hd, by rw [ofNumber, hd]⟩

theorem ofSymbol_text {s : Symbol} (h : charSymbol? c = some s) :
    (ofSymbol c cs).isBad = false ∧ 1 ≤ (ofSymbol c cs).text.length := by
  unfold ofSymbol
  rw [h]
  split
  · exact ⟨rfl, Nat.le_add_left ..⟩
  · exact ⟨rfl, Nat.le_refl _⟩

theorem keyword_mem_name (k : Keyword) : k.text.toList ∈ Pattern.name := by
  have h : k.text.toList.head?.any startsWord = true ∧
      k.text.toList.tail.all continuesWord = true := by
    cases k <;> decide
  cases hk : k.text.toList with
  | nil => simp [hk] at h
  | cons c cs =>
    rw [hk] at h
    exact cons_mem_name.mpr ⟨by simpa using h.1, by simpa using h.2⟩

theorem first_number (hw : w ∈ number) (h : w <+: c :: cs) : ∃ x,
    (Token.number x).WrittenAs (numberIn (c :: cs)) ∧
      first c cs = .token (.number x) (numberIn (c :: cs)) := by
  obtain ⟨hmem, hfirst⟩ : numberIn (c :: cs) ∈ number ∧
      first c cs = ofNumber (numberIn (c :: cs)) := by
    obtain ⟨ds, f, e, rfl, hdigits, hf, _, hne⟩ := number_parts hw
    cases ds with
    | cons d ds =>
      obtain ⟨rfl, _⟩ := List.cons_prefix_cons.mp h
      have hd : d.isDigit = true := hdigits d List.mem_cons_self
      refine ⟨numberIn_mem (.inl ?_), first_digit hd⟩
      rw [digits, List.takeWhile_cons_of_pos hd]
      exact List.cons_ne_nil _ _
    | nil =>
      have hf := (mem_optional.mp hf).resolve_left (hne.resolve_left (· rfl))
      obtain ⟨ds, rfl, hds⟩ := mem_point.mp hf
      obtain ⟨hne, hdigits⟩ := mem_run.mp hds
      obtain ⟨rfl, rest, rfl⟩ := List.cons_prefix_cons.mp h
      have hbound : ds.length ≤ (digits (ds ++ e ++ rest)).length :=
        run_bound hdigits (by rw [List.append_assoc]; exact List.prefix_append ..)
      have hfraction : fraction ('.' :: (ds ++ e ++ rest)) ≠ [] := by
        rw [fraction, if_neg]
        · exact List.cons_ne_nil _ _
        · intro hnil
          rw [hnil] at hbound
          exact hne (List.eq_nil_of_length_eq_zero (Nat.le_zero.mp hbound))
      exact ⟨numberIn_mem (.inr hfraction), first_point hfraction⟩
  obtain ⟨d, hd, heq⟩ := ofNumber_eq hmem
  exact ⟨_, ⟨hmem, d, hd, rfl⟩, hfirst.trans heq⟩

theorem first_string {body : List Char} (h : body ∈ stringUnit∗) :
    first '"' (body ++ '"' :: rest) =
      .token (.string (String.ofList (unescape body))) ('"' :: (body ++ ['"'])) := by
  show ofString (stringUnits (body ++ '"' :: rest))
    ((body ++ '"' :: rest).drop (stringUnits (body ++ '"' :: rest)).length) = _
  rw [stringUnits_body h, List.drop_left]
  rfl

theorem first_symbol {s : Symbol} (h : charSymbol? c = some s) : first c cs = ofSymbol c cs ∨
    (c = '/' ∧ cs.head? = some '/') ∨ (c = '.' ∧ fraction (c :: cs) ≠ []) := by
  by_cases hslash : c = '/' ∧ cs.head? = some '/'
  · exact .inr (.inl hslash)
  · by_cases hpoint : c = '.' ∧ fraction (c :: cs) ≠ []
    · exact .inr (.inr hpoint)
    · left
      have hplain : isBlank c = false ∧ c ≠ '\n' ∧ c ≠ '\r' ∧ startsWord c = false ∧
          c.isDigit = false ∧ c ≠ '"' := by
        unfold charSymbol? at h
        split at h <;> first | decide | cases h
      obtain ⟨hblank, hfeed, hreturn, hword, hdigit, hquote⟩ := hplain
      simp only [first, hblank, if_neg hslash, hfeed, hreturn, hword, hdigit, if_neg hpoint, hquote,
        false_and, Bool.false_eq_true, ↓reduceIte]

/-- A symbol is one character that starts no longer symbol, or two. -/
theorem symbol_cases (s : Symbol) : (∃ c, s.text.toList = [c] ∧ charSymbol? c = some s) ∨
    ∃ c d, s.text.toList = [c, d] ∧ ∀ cs, first c (d :: cs) = .token (.symbol s) [c, d] := by
  cases s
  all_goals first
    | exact .inl ⟨_, rfl, rfl⟩
    | exact .inr ⟨_, _, rfl, fun _ => rfl⟩

/-- No pattern matches more than the lexeme at the front of a text, and none at all if it is bad. -/
theorem first_longest (hw : w ∈ any) (h : w <+: c :: cs) :
    (first c cs).isBad = false ∧ w.length ≤ (first c cs).text.length := by
  have hname (hw : w ∈ Pattern.name) :
      (first c cs).isBad = false ∧ w.length ≤ (first c cs).text.length := by
    cases w with
    | nil => exact absurd hw nil_notMem_mul_one
    | cons d w =>
      obtain ⟨rfl, htail⟩ := List.cons_prefix_cons.mp h
      obtain ⟨hstart, hrest⟩ := cons_mem_name.mp hw
      rw [first_word hstart, ofWord_eq]
      exact ⟨rfl, Nat.succ_le_succ (run_bound hrest htail)⟩
  have hcomment (hw : w ∈ comment) :
      (first c cs).isBad = false ∧ w.length ≤ (first c cs).text.length := by
    obtain ⟨v, rfl, hv⟩ := mem_comment.mp hw
    obtain ⟨rfl, rest, rfl⟩ := List.cons_prefix_cons.mp h
    have hbound : ('/' :: v).length ≤ (('/' :: v ++ rest).takeWhile (· ≠ '\n')).length :=
      run_bound (by simpa using hv) (List.prefix_append ..)
    exact ⟨rfl, Nat.succ_le_succ hbound⟩
  have hnumber {v : List Char} (hv : v ∈ number) (h : v <+: c :: cs) :
      (first c cs).isBad = false ∧ v.length ≤ (first c cs).text.length := by
    obtain ⟨x, _, hfirst⟩ := first_number hv h
    rw [hfirst]
    exact ⟨rfl, number_bound hv h⟩
  rcases hw with hw | hw | ⟨k, hk⟩
  · obtain ⟨hne, hall⟩ := mem_run.mp hw
    obtain ⟨d, w, rfl⟩ := List.exists_cons_of_ne_nil hne
    obtain ⟨rfl, htail⟩ := List.cons_prefix_cons.mp h
    obtain ⟨hd, hall⟩ := List.forall_mem_cons.mp hall
    rw [first_blank hd]
    exact ⟨rfl, Nat.succ_le_succ (run_bound hall htail)⟩
  · exact hcomment hw
  · cases k with
    | keyword k => exact hname (mem_text.mp hk ▸ keyword_mem_name k)
    | name => exact hname hk
    | number => exact hnumber hk h
    | string =>
      obtain ⟨body, hbody, rfl⟩ := mem_string.mp hk
      obtain ⟨rfl, rest, rfl⟩ := List.cons_prefix_cons.mp h
      rw [List.append_assoc, List.singleton_append, first_string hbody]
      exact ⟨rfl, Nat.le_refl _⟩
    | lineBreak =>
      rcases mem_lineBreak.mp hk with rfl | rfl
      · obtain ⟨rfl, _⟩ := List.cons_prefix_cons.mp h
        exact ⟨rfl, Nat.le_refl _⟩
      · obtain ⟨rfl, rest, rfl⟩ := List.cons_prefix_cons.mp h
        exact ⟨rfl, Nat.le_refl _⟩
    | symbol s =>
      obtain rfl := mem_text.mp hk
      rcases symbol_cases s with ⟨d, hd, hs⟩ | ⟨d, d', hd, hfirst⟩
      · rw [hd] at h ⊢
        obtain ⟨rfl, _⟩ := List.cons_prefix_cons.mp h
        rcases @first_symbol _ cs _ hs with hfirst | ⟨rfl, hslash⟩ | ⟨rfl, hpoint⟩
        · rw [hfirst]
          exact ofSymbol_text hs
        · have hskip : first '/' cs = .blank ('/' :: cs.takeWhile (· ≠ '\n')) := by
            simp [first, isBlank, hslash]
          rw [hskip]
          exact ⟨rfl, Nat.le_add_left ..⟩
        · have hmem := numberIn_mem (.inr hpoint)
          obtain ⟨hbad, hlen⟩ := hnumber hmem (numberIn_front _)
          exact ⟨hbad, Nat.le_trans (List.length_pos_of_ne_nil (number_ne_nil hmem)) hlen⟩
      · rw [hd] at h ⊢
        obtain ⟨rfl, rest, rfl⟩ := List.cons_prefix_cons.mp h
        rw [List.singleton_append, hfirst]
        exact ⟨rfl, Nat.le_refl _⟩
    | endOfFile => exact absurd hk (Language.notMem_zero _)

/-! ## Every lexeme has its pattern -/

/-- The lexeme is the front of a text and has the pattern of what it is. -/
def Matches (input : List Char) (l : Lexeme) : Prop :=
  l.text <+: input ∧ match l with
    | .blank w => w ∈ Pattern.blank ∨ w ∈ comment
    | .token t w => t.WrittenAs w
    | .bad cause w => (∀ s, cause ≠ .invalidNumber s) ∧ w ≠ []

theorem ofWord_matches (h : startsWord c = true) :
    (ofWord (c :: cs.takeWhile continuesWord)).Matches (c :: cs) := by
  have hmem : c :: cs.takeWhile continuesWord ∈ Pattern.name :=
    cons_mem_name.mpr ⟨h, fun _ => List.mem_takeWhile_imp⟩
  rw [ofWord_eq]
  refine ⟨List.cons_prefix_cons.mpr ⟨rfl, List.takeWhile_prefix _⟩, ?_⟩
  generalize c :: cs.takeWhile continuesWord = w at hmem
  cases hk : Keyword.ofText? (String.ofList w) with
  | none =>
    refine ⟨hmem, rfl, fun k hk' => ?_⟩
    have hnone := List.find?_eq_none.mp hk k (by cases k <;> decide)
    exact hnone (beq_iff_eq.mpr hk')
  | some k =>
    have hfound : (k.text == String.ofList w) = true :=
      List.find?_some (p := fun k : Keyword => k.text == String.ofList w) hk
    have hspelled : k.text = String.ofList w := beq_iff_eq.mp hfound
    show w = k.text.toList
    rw [hspelled, String.toList_ofList]

theorem ofNumber_matches (h : w ∈ number) {input : List Char} (hpre : w <+: input) :
    (ofNumber w).Matches input := by
  obtain ⟨d, hd, heq⟩ := ofNumber_eq h
  rw [heq]
  exact ⟨hpre, h, d, hd, rfl⟩

theorem ofString_matches (cs : List Char) :
    (ofString (stringUnits cs) (cs.drop (stringUnits cs).length)).Matches ('"' :: cs) := by
  obtain ⟨rest, hrest⟩ := stringUnits_front cs
  have hdrop : cs.drop (stringUnits cs).length = rest := by
    conv_lhs => arg 2; rw [← hrest]
    exact List.drop_left
  rw [hdrop]
  unfold ofString
  split
  · next r =>
    refine ⟨List.cons_prefix_cons.mpr ⟨rfl, r, ?_⟩, stringUnits cs, stringUnits_mem cs, rfl, rfl⟩
    exact (List.append_assoc (stringUnits cs) ['"'] r).trans hrest
  · exact ⟨List.cons_prefix_cons.mpr ⟨rfl, rest, hrest⟩, nofun, nofun⟩

theorem ofSymbol_matches (c : Char) (cs : List Char) : (ofSymbol c cs).Matches (c :: cs) := by
  have hpair {s : Symbol} (h : pairSymbol? (c :: cs) = some s) : c :: cs.take 1 = s.text.toList := by
    unfold pairSymbol? at h
    split at h <;> cases h
    all_goals
      rename_i heq
      obtain ⟨rfl, rfl⟩ := List.cons.inj heq
      rfl
  have hchar {s : Symbol} (h : charSymbol? c = some s) : [c] = s.text.toList := by
    unfold charSymbol? at h
    split at h <;> cases h <;> rfl
  unfold ofSymbol
  split
  · next s h => exact ⟨List.cons_prefix_cons.mpr ⟨rfl, List.take_prefix 1 cs⟩, hpair h⟩
  · split
    · next s h => exact ⟨List.cons_prefix_cons.mpr ⟨rfl, List.nil_prefix⟩, hchar h⟩
    · exact ⟨List.cons_prefix_cons.mpr ⟨rfl, List.nil_prefix⟩, nofun, nofun⟩

theorem first_matches (c : Char) (cs : List Char) : (first c cs).Matches (c :: cs) := by
  unfold first
  split_ifs with hblank hslash hfeed hreturn hword hdigit hpoint hquote
  · refine ⟨List.cons_prefix_cons.mpr ⟨rfl, List.takeWhile_prefix _⟩, .inl (mem_run.mpr ⟨nofun, ?_⟩)⟩
    exact List.forall_mem_cons.mpr ⟨hblank, fun _ => List.mem_takeWhile_imp⟩
  · obtain ⟨rfl, hslash⟩ := hslash
    obtain ⟨cs, rfl⟩ := List.head?_eq_some_iff.mp hslash
    refine ⟨List.cons_prefix_cons.mpr ⟨rfl, List.takeWhile_prefix _⟩, .inr (mem_comment.mpr ⟨_, rfl, ?_⟩)⟩
    exact fun d hd => by simpa using List.mem_takeWhile_imp hd
  · subst hfeed
    exact ⟨List.cons_prefix_cons.mpr ⟨rfl, List.nil_prefix⟩, mem_lineBreak.mpr (.inl rfl)⟩
  · obtain ⟨rfl, hnext⟩ := hreturn
    obtain ⟨cs, rfl⟩ := List.head?_eq_some_iff.mp hnext
    exact ⟨List.prefix_append ['\r', '\n'] cs, mem_lineBreak.mpr (.inr rfl)⟩
  · exact ofWord_matches hword
  · have hne : digits (c :: cs) ≠ [] := by
      rw [digits, List.takeWhile_cons_of_pos hdigit]
      exact List.cons_ne_nil _ _
    rw [← List.dropWhile_cons_of_pos hdigit]
    exact ofNumber_matches (numberIn_mem (.inl hne)) (numberIn_front _)
  · obtain ⟨rfl, hfraction⟩ := hpoint
    exact ofNumber_matches (numberIn_mem (.inr hfraction)) (numberIn_front _)
  · subst hquote
    exact ofString_matches cs
  · exact ofSymbol_matches c cs

theorem first_fits (c : Char) (cs : List Char) : (first c cs).Fits (c :: cs) := by
  obtain ⟨hpre, hmatches⟩ := first_matches c cs
  have hlongest := fun w hw => @first_longest c cs w hw
  generalize first c cs = l at hpre hmatches hlongest
  cases l with
  | blank w => exact ⟨hmatches, hpre, fun v hv h => (hlongest v hv h).2⟩
  | token t w => exact ⟨hmatches, hpre, fun v hv h => (hlongest v hv h).2⟩
  | bad cause w => exact ⟨hmatches.1, hmatches.2, hpre, fun v hv h => Bool.noConfusion (hlongest v hv h).1⟩

theorem first_pos (c : Char) (cs : List Char) : 0 < (first c cs).text.length := by
  refine List.length_pos_of_ne_nil ?_
  have hfits := first_fits c cs
  cases h : first c cs with
  | blank w => exact any_ne_nil (mem_any_of_skipped (h ▸ hfits).1)
  | token t w => exact any_ne_nil (h ▸ hfits).1.mem_any
  | bad cause w => exact (h ▸ hfits).2.1

end Lexeme

/-! ## Places -/

/-- The number of bytes of a text in UTF-8. -/
def byteSize : List Char → Nat
  | [] => 0
  | c :: cs => c.utf8Size + byteSize cs

/-- The place behind a text at the start of a file: its size in bytes, one more than the line feeds in
it, and one more than the characters behind the last of them. -/
def Position.behind (text : List Char) : Position :=
  ⟨byteSize text, 1 + text.count '\n', 1 + (text.reverse.takeWhile (· ≠ '\n')).length⟩

theorem byteSize_append (cs ds : List Char) : byteSize (cs ++ ds) = byteSize cs + byteSize ds := by
  induction cs with
  | nil => exact (Nat.zero_add _).symm
  | cons c cs ih => rw [List.cons_append, byteSize, byteSize, ih, Nat.add_assoc]

namespace Position

theorem behind_next (text : List Char) (c : Char) : (behind text).next c = behind (text ++ [c]) := by
  unfold next behind
  split
  · next h => simp [h, byteSize_append, byteSize, Nat.add_assoc]
  · next h => simp [h, byteSize_append, byteSize, Nat.add_assoc]

theorem behind_after (text more : List Char) : (behind text).after more = behind (text ++ more) := by
  induction more generalizing text with
  | nil => simp [after]
  | cons c more ih =>
    rw [after, List.foldl_cons, behind_next, ← after, ih, List.append_assoc]
    rfl

theorem behind_mono (text more : List Char) : (behind text).offset ≤ (behind (text ++ more)).offset := by
  simp [behind, byteSize_append]

end Position

/-- The stretch of a piece with a text in front of it. -/
def Span.over (before piece : List Char) : Span :=
  .between (.behind before) (.behind (before ++ piece))

/-! ## Marks -/

/-- What the lexer leaves at a place: a token or an error. -/
inductive Mark where
  | token (t : Located Token)
  | error (e : LexError)

namespace Mark

/-- Where the mark stands. -/
def span : Mark → Span
  | .token t => t.span
  | .error e => e.span

/-- The tokens among marks. -/
def tokens (marks : List Mark) : List (Located Token) :=
  marks.filterMap fun | .token t => some t | .error _ => none

/-- The errors among marks. -/
def errors (marks : List Mark) : List LexError :=
  marks.filterMap fun | .token _ => none | .error e => some e

end Mark

/-- A text that stands behind `before` is scanned: the marks that are left, in the order of the text. The
pieces that are taken off are the longest that any pattern matches at their place; blanks and comments
leave no mark. Where no pattern matches there is an error, but never that of a bad number. The last mark
is the end of the file. -/
inductive Scans : List Char → List Char → List Mark → Prop
  | finish {before : List Char} : Scans before [] [.token ⟨.endOfFile, .over before []⟩]
  | skip {before piece rest : List Char} {marks : List Mark} : (piece ∈ blank ∨ piece ∈ comment) →
      Longest piece (piece ++ rest) → Scans (before ++ piece) rest marks →
      Scans before (piece ++ rest) marks
  | token {before piece rest : List Char} {t : Token} {marks : List Mark} : t.WrittenAs piece →
      Longest piece (piece ++ rest) → Scans (before ++ piece) rest marks →
      Scans before (piece ++ rest) (.token ⟨t, .over before piece⟩ :: marks)
  | error {before piece rest : List Char} {cause : LexCause} {marks : List Mark} : piece ≠ [] →
      (∀ s, cause ≠ .invalidNumber s) → (∀ v ∈ any, ¬ v <+: piece ++ rest) →
      Scans (before ++ piece) rest marks →
      Scans before (piece ++ rest) (.error ⟨cause, .over before piece⟩ :: marks)

namespace Scans

/-- The mark of a lexeme, if it leaves one. -/
def mark? (l : Located Lexeme) : Option Mark :=
  match l.item with
  | .blank _ => none
  | .token t _ => some (.token ⟨t, l.span⟩)
  | .bad cause _ => some (.error ⟨cause, l.span⟩)

theorem of_split (before cs : List Char) : Scans before cs
    ((locate (.behind before) (Lexeme.split cs)).filterMap mark? ++
      [.token ⟨.endOfFile, .over (before ++ cs) []⟩]) := by
  induction hn : cs.length using Nat.strong_induction_on generalizing before cs with
  | _ n ih =>
    subst hn
    cases cs with
    | nil =>
      rw [Lexeme.split, List.append_nil]
      exact .finish
    | cons c cs =>
      obtain ⟨rest, hrest⟩ := (Lexeme.first_matches c cs).1
      have hpos := Lexeme.first_pos c cs
      have hdrop : cs.drop ((Lexeme.first c cs).text.length - 1) = rest := by
        have h : (c :: cs).drop (Lexeme.first c cs).text.length = rest := by
          conv_lhs => arg 2; rw [← hrest]
          exact List.drop_left
        obtain ⟨k, hk⟩ := Nat.exists_eq_add_of_lt hpos
        rw [Nat.zero_add] at hk
        rw [hk] at h ⊢
        exact h
      have hlen : rest.length < (c :: cs).length := by
        rw [← hrest, List.length_append]
        exact Nat.lt_add_of_pos_left hpos
      have ih := ih rest.length hlen (before ++ (Lexeme.first c cs).text) rest rfl
      rw [List.append_assoc, hrest] at ih
      have hfits := Lexeme.first_fits c cs
      rw [Lexeme.split, hdrop, locate, Position.behind_after]
      generalize Lexeme.first c cs = l at hrest ih hfits
      generalize c :: cs = input at hrest ih hfits
      subst hrest
      cases l with
      | blank w => exact .skip hfits.1 hfits.2 ih
      | token t w => exact .token hfits.1 hfits.2 ih
      | bad cause w => exact .error hfits.2.1 hfits.1 hfits.2.2.2 ih

variable {before rest : List Char} {marks : List Mark}

/-- All marks stand behind the text in front. -/
theorem starts (h : Scans before rest marks) :
    ∀ m ∈ marks, (Position.behind before).offset ≤ m.span.start := by
  induction h with
  | finish => exact List.forall_mem_singleton.mpr (Nat.le_refl _)
  | skip _ _ _ ih => exact fun m hm => Nat.le_trans (Position.behind_mono ..) (ih m hm)
  | token _ _ _ ih =>
    exact List.forall_mem_cons.mpr
      ⟨Nat.le_refl _, fun m hm => Nat.le_trans (Position.behind_mono ..) (ih m hm)⟩
  | error _ _ _ _ ih =>
    exact List.forall_mem_cons.mpr
      ⟨Nat.le_refl _, fun m hm => Nat.le_trans (Position.behind_mono ..) (ih m hm)⟩

/-- Marks stand in order and do not overlap. -/
theorem ordered (h : Scans before rest marks) :
    marks.Pairwise fun m n => m.span.stop ≤ n.span.start := by
  induction h with
  | finish => exact List.pairwise_singleton ..
  | skip _ _ _ ih => exact ih
  | token _ _ hscans ih => exact .cons hscans.starts ih
  | error _ _ _ hscans ih => exact .cons hscans.starts ih

end Scans

/-- The lexer scans every text: what it gives are the tokens of the marks, if none of them is an error,
and else the errors. -/
theorem exists_scans (source : String) : ∃ marks, Scans [] source.toList marks ∧ tokenize source =
    if Mark.errors marks = [] then .ok (Mark.tokens marks) else .error (Mark.errors marks) := by
  have hend : Span.over ([] ++ source.toList) [] = endSpan source := by
    rw [endSpan, Span.over, List.append_nil, ← Position.behind_after]
    rfl
  have hscans : Scans [] source.toList
      ((lexemes source).filterMap Scans.mark? ++ [.token ⟨.endOfFile, endSpan source⟩]) := by
    rw [← hend]
    exact .of_split [] source.toList
  refine ⟨_, hscans, ?_⟩
  have herrors : Mark.errors ((lexemes source).filterMap Scans.mark? ++
      [.token ⟨.endOfFile, endSpan source⟩]) = (lexemes source).filterMap Lexeme.error? := by
    rw [Mark.errors, List.filterMap_append, List.filterMap_filterMap]
    refine (List.append_nil _).trans (List.filterMap_congr fun l _ => ?_)
    obtain ⟨item, span⟩ := l
    cases item <;> rfl
  have htokens : Mark.tokens ((lexemes source).filterMap Scans.mark? ++
      [.token ⟨.endOfFile, endSpan source⟩]) =
        (lexemes source).filterMap Lexeme.token? ++ [⟨.endOfFile, endSpan source⟩] := by
    rw [Mark.tokens, List.filterMap_append, List.filterMap_filterMap]
    refine congrArg (· ++ _) (List.filterMap_congr fun l _ => ?_)
    obtain ⟨item, span⟩ := l
    cases item <;> rfl
  rw [herrors, htokens, tokenize]
  cases (lexemes source).filterMap Lexeme.error? with
  | nil => rfl
  | cons e es => rfl

/-- The lexer scans every text, and the marks stand in order and do not overlap. -/
theorem tokenize_scans (source : String) : ∃ marks, Scans [] source.toList marks ∧
    (marks.Pairwise fun m n => m.span.stop ≤ n.span.start) ∧
    tokenize source =
      if Mark.errors marks = [] then .ok (Mark.tokens marks) else .error (Mark.errors marks) := by
  obtain ⟨marks, hscans, htokenize⟩ := exists_scans source
  exact ⟨marks, hscans, hscans.ordered, htokenize⟩

end ClassLang
