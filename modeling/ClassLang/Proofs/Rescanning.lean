import ClassLang.Proofs.Scanning
import ClassLang.Source.Layout

/-!
# Scanning a text that is laid out anew

A text without lexical errors is scanned in one way only (`Lexes.unique`), so what the lexer makes of a
changed text is known as soon as some scan of it is. `Relaid` are the changes that keep the relative
indentation of lines: idle lines, which hold at most blanks and a comment, are put between two lines, in
front of the first or behind the last one, or all lines are indented by the same number of spaces, where an
empty line may stay empty.

What becomes of the tokens is `Respaced`: all of them are there, moved to the right by the same number of
columns, and besides them line breaks at places where one stands already, at the start of the file or at
its end (`Relaid.respaced`).
-/

namespace ClassLang

open Pattern Computability

namespace Pattern

variable {c : Char} {w piece rest : List Char}

/-! ## Line breaks in patterns -/

theorem number_chars (h : w ∈ number) :
    ∀ c ∈ w, c.isDigit = true ∨ c ∈ ['.', 'e', 'E', '+', '-'] := by
  obtain ⟨ds, f, e, rfl, hdigits, hf, he, _⟩ := number_parts h
  have hfraction : ∀ c ∈ f, c.isDigit = true ∨ c ∈ ['.', 'e', 'E', '+', '-'] := by
    rcases mem_optional.mp hf with rfl | hf
    · exact nofun
    · obtain ⟨ds, rfl, hds⟩ := mem_point.mp hf
      exact List.forall_mem_cons.mpr ⟨.inr (by decide), fun c hc => .inl ((mem_run.mp hds).2 c hc)⟩
  have hpower : ∀ c ∈ e, c.isDigit = true ∨ c ∈ ['.', 'e', 'E', '+', '-'] := by
    rcases mem_optional.mp he with rfl | he
    · exact nofun
    · obtain ⟨e, sign, ds, rfl, hletter, hsign, hds⟩ := mem_power.mp he
      have hletter : e ∈ ['.', 'e', 'E', '+', '-'] := by rcases hletter with rfl | rfl <;> decide
      have hsign : ∀ c ∈ sign, c ∈ ['.', 'e', 'E', '+', '-'] := by
        rcases hsign with rfl | rfl | rfl <;> simp
      exact List.forall_mem_cons.mpr ⟨.inr hletter, List.forall_mem_append.mpr
        ⟨fun c hc => .inr (hsign c hc), fun c hc => .inl ((mem_run.mp hds).2 c hc)⟩⟩
  exact List.forall_mem_append.mpr
    ⟨fun c hc => .inl (hdigits c hc), List.forall_mem_append.mpr ⟨hfraction, hpower⟩⟩

theorem stringUnits_chars (h : w ∈ stringUnit∗) : ∀ c ∈ w, c ≠ '\n' := by
  obtain ⟨us, rfl, hus⟩ := Language.mem_kstar.mp h
  intro c hc
  obtain ⟨u, hu, hc⟩ := List.mem_flatten.mp hc
  rcases unit_cases (hus u hu) with ⟨d, rfl, _, _, hd⟩ | ⟨d, rfl, hd⟩
  · rwa [List.mem_singleton.mp hc]
  · rcases List.mem_cons.mp hc with rfl | hc
    · decide
    · rwa [List.mem_singleton.mp hc]

theorem name_chars (h : w ∈ name) : ∀ c ∈ w, Lexeme.continuesWord c = true := by
  cases w with
  | nil => exact nofun
  | cons d w =>
    obtain ⟨hstart, hrest⟩ := cons_mem_name.mp h
    refine List.forall_mem_cons.mpr ⟨?_, hrest⟩
    rcases Bool.or_eq_true _ _ ▸ hstart with halpha | hline
    · simp [Lexeme.continuesWord, Char.isAlphanum, halpha]
    · simp [Lexeme.continuesWord, hline]

/-- Only a line break holds a line feed. -/
theorem mem_lineBreak_of_feed (h : w ∈ any) (hfeed : '\n' ∈ w) : w ∈ lineBreak := by
  rcases h with hblank | hcomment | ⟨k, hk⟩
  · exact absurd ((mem_run.mp hblank).2 _ hfeed) (by decide)
  · obtain ⟨v, rfl, hv⟩ := mem_comment.mp hcomment
    simp only [List.mem_cons, Char.reduceEq, false_or] at hfeed
    exact absurd rfl (hv _ hfeed)
  · cases k with
    | keyword k =>
      exact absurd (name_chars (mem_text.mp hk ▸ Lexeme.keyword_mem_name k) _ hfeed) (by decide)
    | symbol s =>
      rw [mem_text.mp hk] at hfeed
      cases s <;> exact absurd hfeed (by decide)
    | number =>
      rcases number_chars hk _ hfeed with hdigit | hother
      · cases hdigit
      · exact absurd hother (by decide)
    | string =>
      obtain ⟨body, hbody, rfl⟩ := mem_string.mp hk
      simp only [List.mem_cons, List.mem_append, Char.reduceEq, false_or, List.not_mem_nil,
        or_false] at hfeed
      exact absurd rfl (stringUnits_chars hbody _ hfeed)
    | name => exact absurd (name_chars hk _ hfeed) (by decide)
    | lineBreak => exact hk
    | endOfFile => exact absurd hk (Language.notMem_zero _)

/-- A line feed ends a piece. -/
theorem ne_feed_of_dropLast (h : w ∈ any) : ∀ c ∈ w.dropLast, c ≠ '\n' := by
  rintro c hc rfl
  rcases mem_lineBreak.mp (mem_lineBreak_of_feed h (List.mem_of_mem_dropLast hc)) with rfl | rfl
  · cases hc
  · exact absurd hc (by decide)

/-- Only a comment ends with a carriage return. -/
theorem mem_comment_of_return (h : w ++ ['\r'] ∈ any) : w ++ ['\r'] ∈ comment := by
  have hreturn : '\r' ∈ w ++ ['\r'] := List.mem_append_right _ (List.mem_singleton_self _)
  rcases h with hblank | hcomment | ⟨k, hk⟩
  · exact absurd ((mem_run.mp hblank).2 _ hreturn) (by decide)
  · exact hcomment
  · cases k with
    | keyword k =>
      exact absurd (name_chars (mem_text.mp hk ▸ Lexeme.keyword_mem_name k) _ hreturn) (by decide)
    | symbol s =>
      rw [mem_text.mp hk] at hreturn
      cases s <;> exact absurd hreturn (by decide)
    | number =>
      rcases number_chars hk _ hreturn with hdigit | hother
      · cases hdigit
      · exact absurd hother (by decide)
    | string =>
      obtain ⟨body, _, heq⟩ := mem_string.mp hk
      have heq : w ++ ['\r'] = ('"' :: body) ++ ['"'] := heq
      cases List.append_inj_right' heq rfl
    | name => exact absurd (name_chars hk _ hreturn) (by decide)
    | lineBreak =>
      rcases mem_lineBreak.mp hk with heq | heq
      · have heq : w ++ ['\r'] = [] ++ ['\n'] := heq
        cases List.append_inj_right' heq rfl
      · have heq : w ++ ['\r'] = ['\r'] ++ ['\n'] := heq
        cases List.append_inj_right' heq rfl
    | endOfFile => exact absurd hk (Language.notMem_zero _)

theorem comment_of_return (h : w ++ ['\r'] ∈ any) : w ∈ comment := by
  obtain ⟨v, heq, hv⟩ := mem_comment.mp (mem_comment_of_return h)
  rcases List.eq_nil_or_concat v with rfl | ⟨v, c, rfl⟩
  · have heq : w ++ ['\r'] = ['/'] ++ ['/'] := heq
    cases List.append_inj_right' heq rfl
  · have heq : w ++ ['\r'] = ('/' :: '/' :: v) ++ [c] := by simpa using heq
    rw [List.append_inj_left' heq rfl]
    exact mem_comment.mpr ⟨v, rfl, fun c hc => hv c (by simp [hc])⟩

/-- What starts with a blank is a run of blanks. -/
theorem mem_blank_of_head (h : c :: w ∈ any) (hc : Lexeme.isBlank c = true) : c :: w ∈ blank := by
  have hhead : c :: w <+: c :: w := List.prefix_rfl
  obtain ⟨_, hlen⟩ := Lexeme.first_longest h hhead
  rw [Lexeme.first_blank hc] at hlen
  refine mem_run.mpr ⟨List.cons_ne_nil _ _, List.forall_mem_cons.mpr ⟨hc, fun d hd => ?_⟩⟩
  have hrun : w.takeWhile Lexeme.isBlank = w :=
    (List.takeWhile_prefix _).eq_of_length_le (Nat.le_of_succ_le_succ hlen)
  rw [← hrun] at hd
  exact List.mem_takeWhile_imp hd

/-! ## The longest pieces -/

theorem Longest.eq_of_mem {piece' input : List Char} (h : Longest piece input) (hmem : piece ∈ any)
    (h' : Longest piece' input) (hmem' : piece' ∈ any) : piece = piece' :=
  have hle := h'.longest piece hmem h.front
  (List.prefix_of_prefix_length_le h.front h'.front hle).eq_of_length
    (Nat.le_antisymm hle (h.longest piece' hmem' h'.front))

theorem lineBreak_longest (h : w ∈ lineBreak) : Longest w (w ++ rest) := by
  refine ⟨List.prefix_append .., fun v hv hfront => ?_⟩
  refine Nat.le_of_not_lt fun hlt => ?_
  have hlonger : w <+: v :=
    List.prefix_of_prefix_length_le (List.prefix_append ..) hfront (Nat.le_of_lt hlt)
  have hfeed : '\n' ∈ v := by
    refine hlonger.subset ?_
    rcases mem_lineBreak.mp h with rfl | rfl <;> decide
  obtain ⟨more, rfl⟩ := hlonger
  rcases mem_lineBreak.mp h with rfl | rfl
  · rcases mem_lineBreak.mp (mem_lineBreak_of_feed hv hfeed) with heq | heq
    · simp [heq] at hlt
    · cases heq
  · rcases mem_lineBreak.mp (mem_lineBreak_of_feed hv hfeed) with heq | heq
    · cases heq
    · simp [heq] at hlt

theorem comment_longest (h : w ∈ comment) : Longest w (w ++ '\n' :: rest) := by
  refine ⟨List.prefix_append .., fun v hv hfront => ?_⟩
  refine Nat.le_of_not_lt fun hlt => ?_
  have hbreak : w ++ ['\n'] <+: w ++ '\n' :: rest := ⟨rest, List.append_assoc ..⟩
  have hlonger : w ++ ['\n'] <+: v := List.prefix_of_prefix_length_le hbreak hfront (by simp; omega)
  obtain ⟨u, rfl, _⟩ := mem_comment.mp h
  have hfeed : '\n' ∈ v := hlonger.subset (by simp)
  obtain ⟨more, rfl⟩ := hlonger
  rcases mem_lineBreak.mp (mem_lineBreak_of_feed hv hfeed) with heq | heq <;> cases heq

end Pattern

/-! ## One scan -/

namespace Lexeme

variable {c : Char} {w : List Char}

theorem ofText_text (k : Keyword) : Keyword.ofText? k.text = some k := by
  cases k <;> decide

theorem pairSymbol_alone (c : Char) : pairSymbol? [c] = none := by
  unfold pairSymbol?
  split <;> simp_all

theorem numberIn_alone (h : w ∈ number) : numberIn w = w :=
  (numberIn_front w).eq_of_length_le (number_bound h List.prefix_rfl)

/-- The text of a token alone is read as that token. -/
theorem first_alone {t : Token} (h : t.WrittenAs (c :: w)) : first c w = .token t (c :: w) := by
  have hword (h : c :: w ∈ Pattern.name) : first c w = ofWord (c :: w) := by
    obtain ⟨hstart, hrest⟩ := cons_mem_name.mp h
    rw [first_word hstart, List.takeWhile_eq_self_iff.mpr hrest]
  cases t with
  | keyword k =>
    have hk : c :: w = k.text.toList := h
    rw [hword (hk ▸ keyword_mem_name k), ofWord_eq, hk, String.ofList_toList, ofText_text]
    rfl
  | symbol s =>
    have hs : c :: w = s.text.toList := h
    rcases symbol_cases s with ⟨d, hd, hchar⟩ | ⟨d, e, hd, hpair⟩
    · obtain ⟨rfl, rfl⟩ := List.cons.inj (hs.trans hd)
      rcases @first_symbol _ [] _ hchar with hfirst | ⟨_, hslash⟩ | ⟨rfl, hpoint⟩
      · rw [hfirst, ofSymbol, pairSymbol_alone, hchar]
      · cases hslash
      · exact absurd rfl hpoint
    · obtain ⟨rfl, rfl⟩ := List.cons.inj (hs.trans hd)
      exact hpair []
  | number x =>
    obtain ⟨hmem, d, hd, rfl⟩ := h
    obtain ⟨y, ⟨_, d', hd', rfl⟩, hfirst⟩ := first_number hmem List.prefix_rfl
    rw [numberIn_alone hmem] at hfirst hd'
    rw [hfirst, Option.some.inj (hd.symm.trans hd')]
  | string x =>
    obtain ⟨body, hbody, heq, rfl⟩ := h
    obtain ⟨rfl, rfl⟩ := List.cons.inj heq
    exact first_string hbody
  | name x =>
    obtain ⟨hmem, rfl, hfree⟩ := h
    have hnone : Keyword.ofText? (String.ofList (c :: w)) = none :=
      List.find?_eq_none.mpr fun k _ hk => hfree k (beq_iff_eq.mp hk)
    rw [hword hmem, ofWord_eq, hnone]
    rfl
  | lineBreak =>
    rcases mem_lineBreak.mp h with heq | heq <;>
    · obtain ⟨rfl, rfl⟩ := List.cons.inj heq
      rfl
  | endOfFile => exact absurd h (Language.notMem_zero _)

/-- A run of blanks or a comment alone is skipped. -/
theorem first_skipped (h : c :: w ∈ Pattern.blank ∨ c :: w ∈ comment) : first c w = .blank (c :: w) := by
  rcases h with hblank | hcomment
  · obtain ⟨hc, hw⟩ := List.forall_mem_cons.mp (mem_run.mp hblank).2
    rw [first_blank hc, List.takeWhile_eq_self_iff.mpr hw]
  · obtain ⟨v, heq, hv⟩ := mem_comment.mp hcomment
    obtain ⟨rfl, rfl⟩ := List.cons.inj heq
    have hline : ('/' :: v).takeWhile (· ≠ '\n') = '/' :: v :=
      List.takeWhile_eq_self_iff.mpr (by simpa using hv)
    show Lexeme.blank ('/' :: ('/' :: v).takeWhile (· ≠ '\n')) = _
    rw [hline]

end Lexeme

namespace Token.WrittenAs

variable {t t' : Token} {w : List Char}

theorem unique (h : t.WrittenAs w) (h' : t'.WrittenAs w) : t = t' := by
  obtain ⟨c, w, rfl⟩ := List.exists_cons_of_ne_nil (any_ne_nil h.mem_any)
  have heq := (Lexeme.first_alone h).symm.trans (Lexeme.first_alone h')
  cases heq
  rfl

theorem not_skipped (h : t.WrittenAs w) : ¬ (w ∈ blank ∨ w ∈ comment) := by
  intro hskipped
  obtain ⟨c, w, rfl⟩ := List.exists_cons_of_ne_nil (any_ne_nil h.mem_any)
  have heq := (Lexeme.first_alone h).symm.trans (Lexeme.first_skipped hskipped)
  cases heq

end Token.WrittenAs

/-- A text is scanned without errors into tokens. -/
inductive Lexes : List Char → List Char → List (Located Token) → Prop
  | finish {before : List Char} : Lexes before [] [⟨.endOfFile, .over before []⟩]
  | skip {before piece rest : List Char} {ts : List (Located Token)} :
      (piece ∈ blank ∨ piece ∈ comment) → Longest piece (piece ++ rest) →
      Lexes (before ++ piece) rest ts → Lexes before (piece ++ rest) ts
  | token {before piece rest : List Char} {t : Token} {ts : List (Located Token)} :
      t.WrittenAs piece → Longest piece (piece ++ rest) → Lexes (before ++ piece) rest ts →
      Lexes before (piece ++ rest) (⟨t, .over before piece⟩ :: ts)

namespace Lexes

variable {before rest : List Char} {ts : List (Located Token)} {marks : List Mark}

theorem of_scans (h : Scans before rest marks) (herrors : Mark.errors marks = []) :
    Lexes before rest (Mark.tokens marks) := by
  induction h with
  | finish => exact .finish
  | skip hpiece hlongest _ ih => exact .skip hpiece hlongest (ih herrors)
  | token hpiece hlongest _ ih => exact .token hpiece hlongest (ih herrors)
  | error => cases herrors

/-- A text without lexical errors is scanned in one way only. -/
theorem unique (h : Lexes before rest ts) (hscans : Scans before rest marks) :
    marks = ts.map .token := by
  induction h generalizing marks with
  | finish =>
    generalize hinput : ([] : List Char) = input at hscans
    cases hscans with
    | finish => rfl
    | skip hpiece _ _ =>
      obtain ⟨hnil, _⟩ := List.append_eq_nil_iff.mp hinput.symm
      exact absurd hnil (any_ne_nil (mem_any_of_skipped hpiece))
    | token hpiece _ _ =>
      obtain ⟨hnil, _⟩ := List.append_eq_nil_iff.mp hinput.symm
      exact absurd hnil (any_ne_nil hpiece.mem_any)
    | error hne _ _ _ => exact absurd (List.append_eq_nil_iff.mp hinput.symm).1 hne
  | @skip before piece rest ts hpiece hlongest _ ih =>
    have hmem := mem_any_of_skipped hpiece
    generalize hinput : piece ++ rest = input at hscans
    cases hscans with
    | finish => exact absurd (List.append_eq_nil_iff.mp hinput).1 (any_ne_nil hmem)
    | skip hpiece' hlongest' hrest =>
      rw [hinput] at hlongest
      obtain rfl := hlongest.eq_of_mem hmem hlongest' (mem_any_of_skipped hpiece')
      rw [List.append_cancel_left hinput] at ih
      exact ih hrest
    | token hpiece' hlongest' _ =>
      rw [hinput] at hlongest
      obtain rfl := hlongest.eq_of_mem hmem hlongest' hpiece'.mem_any
      exact absurd hpiece hpiece'.not_skipped
    | error _ _ hnone _ => exact absurd (hinput ▸ hlongest.front) (hnone _ hmem)
  | @token before piece rest t ts hpiece hlongest _ ih =>
    have hmem := hpiece.mem_any
    generalize hinput : piece ++ rest = input at hscans
    cases hscans with
    | finish => exact absurd (List.append_eq_nil_iff.mp hinput).1 (any_ne_nil hmem)
    | skip hpiece' hlongest' _ =>
      rw [hinput] at hlongest
      obtain rfl := hlongest.eq_of_mem hmem hlongest' (mem_any_of_skipped hpiece')
      exact absurd hpiece' hpiece.not_skipped
    | token hpiece' hlongest' hrest =>
      rw [hinput] at hlongest
      obtain rfl := hlongest.eq_of_mem hmem hlongest' hpiece'.mem_any
      rw [List.append_cancel_left hinput] at ih
      rw [ih hrest, hpiece.unique hpiece']
      rfl
    | error _ _ hnone _ => exact absurd (hinput ▸ hlongest.front) (hnone _ hmem)

end Lexes

theorem tokenize_eq_ok {source : String} {ts : List (Located Token)} :
    tokenize source = .ok ts ↔ Lexes [] source.toList ts := by
  obtain ⟨marks, hscans, htokenize⟩ := exists_scans source
  rw [htokenize]
  constructor
  · intro h
    split at h
    · next herrors =>
      rw [← Except.ok.inj h]
      exact .of_scans hscans herrors
    · cases h
  · intro h
    have herrors : Mark.errors (ts.map .token) = [] := by simp [Mark.errors]
    have htokens : Mark.tokens (ts.map .token) = ts := by simp [Mark.tokens]
    rw [h.unique hscans, if_pos herrors, htokens]

/-! ## Columns -/

/-- The column behind a text. -/
def columnBehind (text : List Char) : Nat := (Position.behind text).column

theorem columnBehind_append (before : List Char) {piece : List Char} (h : ∀ c ∈ piece, c ≠ '\n') :
    columnBehind (before ++ piece) = columnBehind before + piece.length := by
  have hrun : (piece.reverse ++ before.reverse).takeWhile (· ≠ '\n') =
      piece.reverse ++ before.reverse.takeWhile (· ≠ '\n') :=
    List.takeWhile_append_of_pos (by simpa using h)
  rw [columnBehind, columnBehind, Position.behind, Position.behind, List.reverse_append, hrun]
  simp only [List.length_append, List.length_reverse]
  omega

theorem columnBehind_feed (before : List Char) {piece : List Char} (h : piece ∈ lineBreak) :
    columnBehind (before ++ piece) = 1 := by
  rcases mem_lineBreak.mp h with rfl | rfl <;> simp [columnBehind, Position.behind]

/-! ## Respaced streams -/

/-- The token is the same and stands a number of columns further to the right. A line break may stand
anywhere. -/
structure Moved (n : Nat) (t t' : Located Token) : Prop where
  item : t'.item = t.item
  column : t.item.isBreak = false → t'.span.column = t.span.column + n

theorem Moved.refl (t : Located Token) : Moved 0 t t := ⟨rfl, fun _ => rfl⟩

/-- A stream of tokens is respaced: the tokens are moved to the right by the same number of columns, and
there are more line breaks: behind a line break, and in front of the end of the file, which may stand
anywhere. The flag says that a line break stands in front, or the start of the file. -/
inductive Respaced (n : Nat) : Bool → List (Located Token) → List (Located Token) → Prop
  | nil {flag : Bool} : Respaced n flag [] []
  | token {flag : Bool} {t t' : Located Token} {ts ts' : List (Located Token)} : Moved n t t' →
      Respaced n t.item.isBreak ts ts' → Respaced n flag (t :: ts) (t' :: ts')
  | fresh {t : Located Token} {ts ts' : List (Located Token)} : t.item.isBreak = true →
      Respaced n true ts ts' → Respaced n true ts (t :: ts')
  | finish {flag : Bool} {s s' : Span} : Respaced n flag [⟨.endOfFile, s⟩] [⟨.endOfFile, s'⟩]
  | last {flag : Bool} {t : Located Token} {s s' : Span} : t.item.isBreak = true →
      Respaced n flag [⟨.endOfFile, s⟩] [t, ⟨.endOfFile, s'⟩]

/-- The last of some tokens is a line break, or they are none and a line break stands in front. -/
def endsBreak (flag : Bool) (ts : List (Located Token)) : Bool :=
  ts.getLast?.elim flag (·.item.isBreak)

theorem endsBreak_cons (flag : Bool) (t : Located Token) (ts : List (Located Token)) :
    endsBreak flag (t :: ts) = endsBreak t.item.isBreak ts := by
  cases ts <;> rfl

theorem endsBreak_of_false {ts : List (Located Token)} (flag : Bool) (h : endsBreak false ts = true) :
    endsBreak flag ts = true := by
  cases ts with
  | nil => cases h
  | cons t ts => exact h

theorem Respaced.behind {flag : Bool} {ts us us' : List (Located Token)}
    (h : Respaced 0 (endsBreak flag ts) us us') : Respaced 0 flag (ts ++ us) (ts ++ us') := by
  induction ts generalizing flag with
  | nil => exact h
  | cons t ts ih =>
    rw [endsBreak_cons] at h
    exact .token (.refl t) (ih h)

/-! ## Changes of layout -/

/-- Blanks and perhaps a comment. -/
def idleText : Language Char := (one Lexeme.isBlank)∗ * optional comment

/-- A line that holds no token. -/
def idleLine : Language Char := idleText * lineBreak

/-- The second text is the first one with a number of spaces in front of every line, where an empty line
may stay as it is. The flag says that the text starts a line. -/
inductive Indented (n : Nat) : Bool → List Char → List Char → Prop
  | finish {flag : Bool} : Indented n flag [] []
  | char {c : Char} {cs ds : List Char} : c ≠ '\n' → Indented n false cs ds →
      Indented n false (c :: cs) (c :: ds)
  | feed {cs ds : List Char} : Indented n true cs ds → Indented n false ('\n' :: cs) ('\n' :: ds)
  | line {cs ds : List Char} : Indented n false cs ds → Indented n true cs (List.replicate n ' ' ++ ds)
  | empty {feed cs ds : List Char} : feed ∈ lineBreak → Indented n true cs ds →
      Indented n true (feed ++ cs) (feed ++ ds)

/-- A line starts behind the text. -/
def StartsLine (text : List Char) : Prop := ∀ c ∈ text.getLast?, c = '\n'

/-- A text is laid out anew with the same relative indentation: an idle line more, in front of a line or
behind the last one, or all lines indented by the same number of spaces, empty ones perhaps excepted. -/
inductive Relaid : List Char → List Char → Prop
  | insert {front line rest : List Char} : StartsLine front → line ∈ idleLine →
      Relaid (front ++ rest) (front ++ (line ++ rest))
  | finish {text line : List Char} : StartsLine text → line ∈ idleText → Relaid text (text ++ line)
  | append {text feed line : List Char} : feed ∈ lineBreak → line ∈ idleText →
      Relaid text (text ++ (feed ++ line))
  | indent {n : Nat} {text text' : List Char} : Indented n true text text' → Relaid text text'

namespace StartsLine

variable {front piece more rest rest' : List Char}

theorem feed_mem (h : StartsLine front) (hne : front ≠ []) : '\n' ∈ front := by
  have hlast := List.getLast?_eq_some_getLast hne
  rw [← h _ hlast]
  exact List.mem_of_getLast? hlast

theorem right (h : StartsLine (piece ++ front)) : StartsLine front := by
  intro c hc
  refine h c ?_
  rw [List.getLast?_append, Option.mem_def.mp hc]
  rfl

/-- No piece goes on behind the end of a line. -/
theorem split (h : StartsLine front) (hne : front ≠ []) (hmem : piece ∈ any)
    (heq : front ++ rest = piece ++ more) : ∃ front', front = piece ++ front' ∧ more = front' ++ rest := by
  rcases List.append_eq_append_iff.mp heq with ⟨behind, rfl, rfl⟩ | hsplit
  · rcases eq_or_ne behind [] with rfl | hbehind
    · exact ⟨[], by simp, by simp⟩
    · have hfeed : '\n' ∈ (front ++ behind).dropLast := by
        rw [List.dropLast_append_of_ne_nil hbehind]
        exact List.mem_append_left _ (h.feed_mem hne)
      exact absurd rfl (ne_feed_of_dropLast hmem _ hfeed)
  · exact hsplit

/-- How far a piece goes does not depend on the lines behind. -/
theorem longest (h : StartsLine front) (hne : front ≠ []) (hpiece : piece <+: front)
    (hlongest : Longest piece (front ++ rest)) : Longest piece (front ++ rest') := by
  refine ⟨hpiece.trans (List.prefix_append ..), fun w hw hfront => hlongest.longest w hw ?_⟩
  obtain ⟨more, heq⟩ := hfront
  obtain ⟨front', rfl, _⟩ := h.split hne hw heq.symm
  exact (List.prefix_append ..).trans (List.prefix_append ..)

end StartsLine

namespace Indented

variable {n : Nat} {piece rest rest' text text' : List Char}

/-- Texts are not changed by an indentation of no column. -/
theorem zero (text : List Char) : Indented 0 false text text := by
  induction text with
  | nil => exact .finish
  | cons c text ih =>
    by_cases hc : c = '\n'
    · rw [hc]
      exact .feed (.line ih)
    · exact .char hc ih

theorem append (hpiece : ∀ c ∈ piece, c ≠ '\n') (h : Indented n false rest rest') :
    Indented n false (piece ++ rest) (piece ++ rest') := by
  induction piece with
  | nil => exact h
  | cons c piece ih =>
    obtain ⟨hc, hpiece⟩ := List.forall_mem_cons.mp hpiece
    exact .char hc (ih hpiece)

theorem behind_piece (hpiece : ∀ c ∈ piece, c ≠ '\n') (h : Indented n false (piece ++ rest) text') :
    ∃ rest', text' = piece ++ rest' ∧ Indented n false rest rest' := by
  induction piece generalizing text' with
  | nil => exact ⟨text', rfl, h⟩
  | cons c piece ih =>
    obtain ⟨hc, hpiece⟩ := List.forall_mem_cons.mp hpiece
    cases h with
    | char _ h =>
      obtain ⟨rest', rfl, hrest⟩ := ih hpiece h
      exact ⟨rest', rfl, hrest⟩
    | feed _ => exact absurd rfl hc

theorem behind_lineBreak (hpiece : piece ∈ lineBreak) (h : Indented n false (piece ++ rest) text') :
    ∃ rest', text' = piece ++ rest' ∧ Indented n true rest rest' := by
  have hfeed {text' : List Char} (h : Indented n false ('\n' :: rest) text') :
      ∃ rest', text' = '\n' :: rest' ∧ Indented n true rest rest' := by
    cases h with
    | char hc _ => exact absurd rfl hc
    | feed h => exact ⟨_, rfl, h⟩
  rcases mem_lineBreak.mp hpiece with rfl | rfl
  · exact hfeed h
  · cases h with
    | char _ h =>
      obtain ⟨rest', rfl, hrest⟩ := hfeed h
      exact ⟨rest', rfl, hrest⟩

/-- What stands in front of the first line feed is not moved apart. -/
theorem front (h : Indented n false text text') {w : List Char} (hfront : w <+: text')
    (hw : ∀ c ∈ w.dropLast, c ≠ '\n') : w <+: text := by
  induction text generalizing text' w with
  | nil =>
    cases h
    exact hfront
  | cons c text ih =>
    cases w with
    | nil => exact List.nil_prefix
    | cons d w =>
      cases h with
      | char _ h =>
        obtain ⟨rfl, hrest⟩ := List.cons_prefix_cons.mp hfront
        refine List.cons_prefix_cons.mpr ⟨rfl, ih h hrest fun c hc => hw c ?_⟩
        cases w with
        | nil => cases hc
        | cons e w => exact List.mem_cons_of_mem _ hc
      | feed _ =>
        obtain ⟨rfl, _⟩ := List.cons_prefix_cons.mp hfront
        cases w with
        | nil => exact List.cons_prefix_cons.mpr ⟨rfl, List.nil_prefix⟩
        | cons e w => exact absurd rfl (hw _ List.mem_cons_self)

/-- How far a piece without a line feed goes does not depend on how the lines behind are indented. -/
theorem longest (hpiece : ∀ c ∈ piece, c ≠ '\n') (h : Indented n false rest rest')
    (hlongest : Longest piece (piece ++ rest)) : Longest piece (piece ++ rest') :=
  ⟨List.prefix_append .., fun w hw hfront =>
    hlongest.longest w hw ((h.append hpiece).front hfront (ne_feed_of_dropLast hw))⟩

end Indented

namespace Lexes

variable {before before' rest piece : List Char} {ts : List (Located Token)} {c : Char}

/-- A blank in front makes no difference. -/
theorem blank (h : Lexes (before ++ [c]) rest ts) (hc : Lexeme.isBlank c = true) :
    Lexes before (c :: rest) ts := by
  have hblank : [c] ∈ Pattern.blank := mem_run.mpr ⟨nofun, by simpa using hc⟩
  -- The blank stands alone if no run of blanks follows it.
  have halone (input : List Char) (hinput : ∀ w ∈ Pattern.blank, ¬ w <+: input) :
      Longest [c] ([c] ++ input) := by
    refine ⟨⟨input, rfl⟩, fun w hw hfront => Nat.le_of_not_lt fun hlt => ?_⟩
    obtain ⟨v, rfl⟩ := List.prefix_of_prefix_length_le ⟨input, rfl⟩ hfront (Nat.le_of_lt hlt)
    obtain ⟨_, hall⟩ := mem_run.mp (mem_blank_of_head hw hc)
    have hv : v ∈ Pattern.blank := by
      refine mem_run.mpr ⟨?_, (List.forall_mem_cons.mp hall).2⟩
      rintro rfl
      exact Nat.lt_irrefl _ hlt
    exact hinput v hv ((List.prefix_append_right_inj _).mp hfront)
  have hother {piece input : List Char} (hlongest : Longest piece input) (hmem : piece ∈ any)
      (hpiece : piece ∉ Pattern.blank) : ∀ w ∈ Pattern.blank, ¬ w <+: input := by
    intro w hw hfront
    obtain ⟨hne, hall⟩ := mem_run.mp hw
    obtain ⟨d, w, rfl⟩ := List.exists_cons_of_ne_nil hne
    obtain ⟨v, rfl⟩ := List.prefix_of_prefix_length_le hfront hlongest.front
      (hlongest.longest _ (.inl hw) hfront)
    exact hpiece (mem_blank_of_head hmem (List.forall_mem_cons.mp hall).1)
  cases h with
  | finish =>
    have hnone : ∀ w ∈ Pattern.blank, ¬ w <+: [] :=
      fun w hw hfront => any_ne_nil (.inl hw) (List.prefix_nil.mp hfront)
    exact .skip (.inl hblank) (halone [] hnone) .finish
  | @skip _ piece rest _ hpiece hlongest hrest =>
    by_cases hrun : piece ∈ Pattern.blank
    · obtain ⟨hne, hall⟩ := mem_run.mp hrun
      have hmore : Longest (c :: piece) (c :: piece ++ rest) := by
        refine ⟨List.prefix_append .., fun w hw hfront => ?_⟩
        cases w with
        | nil => exact Nat.zero_le _
        | cons d w =>
          obtain ⟨rfl, hbehind⟩ := List.cons_prefix_cons.mp hfront
          by_cases hw' : w = []
          · rw [hw']
            exact Nat.succ_le_succ (Nat.zero_le _)
          · have hblanks := (List.forall_mem_cons.mp (mem_run.mp (mem_blank_of_head hw hc)).2).2
            exact Nat.succ_le_succ (hlongest.longest w (.inl (mem_run.mpr ⟨hw', hblanks⟩)) hbehind)
      rw [List.append_assoc] at hrest
      have hmem : c :: piece ∈ Pattern.blank :=
        mem_run.mpr ⟨List.cons_ne_nil _ _, List.forall_mem_cons.mpr ⟨hc, hall⟩⟩
      exact .skip (.inl hmem) hmore hrest
    · exact .skip (.inl hblank) (halone _ (hother hlongest (mem_any_of_skipped hpiece) hrun))
        (.skip hpiece hlongest hrest)
  | token hpiece hlongest hrest =>
    have hrun : _ ∉ Pattern.blank := fun hrun => hpiece.not_skipped (.inl hrun)
    exact .skip (.inl hblank) (halone _ (hother hlongest hpiece.mem_any hrun))
      (.token hpiece hlongest hrest)

theorem blanks {run : List Char} (hrun : ∀ c ∈ run, Lexeme.isBlank c = true)
    (h : Lexes (before ++ run) rest ts) : Lexes before (run ++ rest) ts := by
  induction run generalizing before with
  | nil => simpa using h
  | cons c run ih =>
    obtain ⟨hc, hrun⟩ := List.forall_mem_cons.mp hrun
    refine blank (ih hrun ?_) hc
    rwa [List.append_assoc]

/-- An idle text up to the end of the file leaves no token. -/
theorem idleText {line : List Char} (hline : line ∈ ClassLang.idleText) :
    ∃ s, Lexes before line [⟨.endOfFile, s⟩] := by
  obtain ⟨run, hrun, note, hnote, rfl⟩ := hline
  have hrest : Lexes (before ++ run) note [⟨.endOfFile, .over (before ++ run ++ note) []⟩] := by
    rcases mem_optional.mp hnote with rfl | hnote
    · rw [List.append_nil]
      exact .finish
    · have hlongest : Longest note (note ++ []) :=
        ⟨List.prefix_append .., fun w _ hfront => by simpa using hfront.length_le⟩
      have hskip : Lexes (before ++ run) (note ++ []) [⟨.endOfFile, .over (before ++ run ++ note) []⟩] :=
        .skip (.inr hnote) hlongest .finish
      rwa [List.append_nil] at hskip
  exact ⟨_, blanks (mem_many.mp hrun) hrest⟩

/-- An idle line leaves a line break. -/
theorem idleLine {line : List Char} (hline : line ∈ ClassLang.idleLine)
    (h : Lexes (before ++ line) rest ts) :
    ∃ t : Located Token, t.item = .lineBreak ∧ Lexes before (line ++ rest) (t :: ts) := by
  obtain ⟨_, ⟨run, hrun, note, hnote, rfl⟩, feed₀, hfeed₀, rfl⟩ := hline
  -- A carriage return behind a comment belongs to the comment.
  obtain ⟨skipped, feed, heq, hskipped, hfeed⟩ : ∃ skipped feed, note ++ feed₀ = skipped ++ feed ∧
      (skipped = [] ∨ skipped ∈ comment ∧ feed = ['\n']) ∧ feed ∈ lineBreak := by
    rcases mem_optional.mp hnote with rfl | hnote
    · exact ⟨[], feed₀, rfl, .inl rfl, hfeed₀⟩
    · have hbreak : ['\n'] ∈ lineBreak := mem_lineBreak.mpr (.inl rfl)
      rcases mem_lineBreak.mp hfeed₀ with rfl | rfl
      · exact ⟨note, _, rfl, .inr ⟨hnote, rfl⟩, hbreak⟩
      · obtain ⟨v, rfl, hv⟩ := mem_comment.mp hnote
        have hv : ∀ c ∈ v ++ ['\r'], c ≠ '\n' :=
          List.forall_mem_append.mpr ⟨hv, by simp⟩
        refine ⟨'/' :: '/' :: (v ++ ['\r']), _, ?_, .inr ⟨mem_comment.mpr ⟨_, rfl, hv⟩, rfl⟩, hbreak⟩
        simp
  have hline : run ++ note ++ feed₀ = run ++ (skipped ++ feed) := by rw [List.append_assoc, heq]
  have hbreak : Lexes (before ++ run ++ skipped) (feed ++ rest)
      (⟨.lineBreak, .over (before ++ run ++ skipped) feed⟩ :: ts) := by
    refine .token hfeed (lineBreak_longest hfeed) ?_
    simpa [hline] using h
  have hnote : Lexes (before ++ run) (skipped ++ (feed ++ rest))
      (⟨.lineBreak, .over (before ++ run ++ skipped) feed⟩ :: ts) := by
    rcases hskipped with rfl | ⟨hmem, rfl⟩
    · simpa using hbreak
    · exact .skip (.inr hmem) (comment_longest hmem) hbreak
  refine ⟨⟨.lineBreak, .over (before ++ run ++ skipped) feed⟩, rfl, ?_⟩
  have hwhole := blanks (mem_many.mp hrun) hnote
  show Lexes before (run ++ note ++ feed₀ ++ rest) _
  rwa [hline, List.append_assoc, List.append_assoc]

/-- Where a line starts a text can be cut: what stands behind is scanned on its own. -/
theorem cut {before front rest : List Char} {ts : List (Located Token)}
    (h : Lexes before (front ++ rest) ts) (hfront : StartsLine front) :
    ∃ us vs, ts = us ++ vs ∧ Lexes (before ++ front) rest vs ∧ endsBreak (front = []) us = true ∧
      ∀ rest' vs', Lexes (before ++ front) rest' vs' → Lexes before (front ++ rest') (us ++ vs') := by
  rcases eq_or_ne front [] with rfl | hne
  · exact ⟨[], ts, rfl, by simpa using h, rfl, fun rest' vs' h' => by simpa using h'⟩
  generalize hinput : front ++ rest = input at h
  cases h with
  | finish => exact absurd (List.append_eq_nil_iff.mp hinput).1 hne
  | @skip _ piece _ _ hpiece hlongest hrest =>
    have hmem := mem_any_of_skipped hpiece
    obtain ⟨front, rfl, rfl⟩ := hfront.split hne hmem hinput
    have hlen := List.length_pos_of_ne_nil (any_ne_nil hmem)
    obtain ⟨us, vs, rfl, hvs, hbreak, hput⟩ := cut hrest hfront.right
    rw [← List.append_assoc] at hlongest
    refine ⟨us, vs, rfl, by simpa using hvs, ?_, fun rest' vs' h' => ?_⟩
    · rcases eq_or_ne front [] with rfl | hne'
      · have hfeed : Token.lineBreak.WrittenAs piece :=
          mem_lineBreak_of_feed hmem (by simpa using hfront.feed_mem hne)
        exact absurd hpiece hfeed.not_skipped
      · simpa [hne, hne'] using hbreak
    · rw [List.append_assoc]
      refine .skip hpiece ?_ (hput rest' vs' (by simpa using h'))
      rw [← List.append_assoc]
      exact hfront.longest hne (List.prefix_append ..) hlongest
  | @token _ piece _ t ts hpiece hlongest hrest =>
    have hmem := hpiece.mem_any
    obtain ⟨front, rfl, rfl⟩ := hfront.split hne hmem hinput
    have hlen := List.length_pos_of_ne_nil (any_ne_nil hmem)
    obtain ⟨us, vs, rfl, hvs, hbreak, hput⟩ := cut hrest hfront.right
    rw [← List.append_assoc] at hlongest
    refine ⟨⟨t, .over before piece⟩ :: us, vs, rfl, by simpa using hvs, ?_, fun rest' vs' h' => ?_⟩
    · rw [endsBreak_cons]
      rcases eq_or_ne front [] with rfl | hne'
      · have hfeed : Token.lineBreak.WrittenAs piece :=
          mem_lineBreak_of_feed hmem (by simpa using hfront.feed_mem hne)
        rw [hpiece.unique hfeed]
        exact hbreak
      · exact endsBreak_of_false _ (by simpa [hne'] using hbreak)
    · rw [List.append_assoc]
      refine .token hpiece ?_ (hput rest' vs' (by simpa using h'))
      rw [← List.append_assoc]
      exact hfront.longest hne (List.prefix_append ..) hlongest
termination_by front.length
decreasing_by
  all_goals
    subst_vars
    rw [List.length_append]
    omega

/-! ### Indentation -/

theorem of_nil (h : Lexes before [] ts) : ts = [⟨.endOfFile, .over before []⟩] := by
  have hmarks := h.unique .finish
  cases ts with
  | nil => cases hmarks
  | cons t ts =>
    cases ts with
    | nil => cases hmarks; rfl
    | cons t' ts => cases hmarks

theorem of_lineBreak {feed : List Char} (h : Lexes before (feed ++ rest) ts) (hfeed : feed ∈ lineBreak) :
    ∃ us, ts = ⟨.lineBreak, .over before feed⟩ :: us ∧ Lexes (before ++ feed) rest us := by
  have hbreak : Token.lineBreak.WrittenAs feed := hfeed
  have hwhole := @lineBreak_longest _ rest hfeed
  generalize hinput : feed ++ rest = input at h
  rw [hinput] at hwhole
  cases h with
  | finish => exact absurd (List.append_eq_nil_iff.mp hinput).1 (any_ne_nil hbreak.mem_any)
  | skip hpiece hlongest _ =>
    obtain rfl := hwhole.eq_of_mem hbreak.mem_any hlongest (mem_any_of_skipped hpiece)
    exact absurd hpiece hbreak.not_skipped
  | token hpiece hlongest hrest =>
    obtain rfl := hwhole.eq_of_mem hbreak.mem_any hlongest hpiece.mem_any
    obtain rfl := List.append_cancel_left hinput
    obtain rfl := hbreak.unique hpiece
    exact ⟨_, rfl, hrest⟩

/-- Behind the indentation of a line the scan stands further to the right. -/
theorem columnBehind_spaces (n : Nat) (before : List Char) :
    columnBehind (before ++ List.replicate n ' ') = columnBehind before + n := by
  have hplain : ∀ c ∈ List.replicate n ' ', c ≠ '\n' := by
    intro c hc
    rw [List.eq_of_mem_replicate hc]
    decide
  rw [columnBehind_append _ hplain, List.length_replicate]

/-- The tokens of an indented text are moved by the indentation. -/
theorem indented {n : Nat} {line : Bool} {before before' rest rest' : List Char}
    {ts : List (Located Token)} (h : Lexes before rest ts) (hindented : Indented n line rest rest')
    (hcolumn : columnBehind before' = columnBehind before + if line then 0 else n) (flag : Bool) :
    ∃ ts', Lexes before' rest' ts' ∧ Respaced n flag ts ts' := by
  cases line with
  | true =>
    cases hindented with
    | finish =>
      rw [h.of_nil]
      exact ⟨_, .finish, .finish⟩
    | line hrest =>
      have hspaces : ∀ c ∈ List.replicate n ' ', Lexeme.isBlank c = true := by
        intro c hc
        rw [List.eq_of_mem_replicate hc]
        rfl
      have hcolumn' : columnBehind (before' ++ List.replicate n ' ') = columnBehind before + n := by
        rw [columnBehind_spaces, hcolumn]
        rfl
      obtain ⟨ts', hts', hrespaced⟩ := indented h hrest hcolumn' flag
      exact ⟨ts', blanks hspaces hts', hrespaced⟩
    | @empty feed _ _ hfeed hrest =>
      have hlen := List.length_pos_of_ne_nil (any_ne_nil (.inr (.inr ⟨.lineBreak, hfeed⟩)))
      obtain ⟨us, rfl, hus⟩ := h.of_lineBreak hfeed
      have hcolumn' : columnBehind (before' ++ feed) = columnBehind (before ++ feed) := by
        rw [columnBehind_feed _ hfeed, columnBehind_feed _ hfeed]
      obtain ⟨us', hus', hrespaced⟩ := indented hus hrest hcolumn' true
      exact ⟨_, .token (t := .lineBreak) hfeed (lineBreak_longest hfeed) hus',
        .token ⟨rfl, nofun⟩ hrespaced⟩
  | false =>
    cases h with
    | finish =>
      cases hindented
      exact ⟨_, .finish, .finish⟩
    | @skip _ piece _ _ hpiece hlongest hrest =>
      have hlen := List.length_pos_of_ne_nil (any_ne_nil (mem_any_of_skipped hpiece))
      have hplain : ∀ c ∈ piece, c ≠ '\n' := by
        rintro c hc rfl
        have hfeed : Token.lineBreak.WrittenAs piece :=
          mem_lineBreak_of_feed (mem_any_of_skipped hpiece) hc
        exact hfeed.not_skipped hpiece
      obtain ⟨rest', rfl, hbehind⟩ := hindented.behind_piece hplain
      have hcolumn' : columnBehind (before' ++ piece) = columnBehind (before ++ piece) + n := by
        rw [columnBehind_append _ hplain, columnBehind_append _ hplain, hcolumn, Nat.add_right_comm]
        rfl
      obtain ⟨ts', hts', hrespaced⟩ := indented hrest hbehind hcolumn' flag
      exact ⟨ts', .skip hpiece (hbehind.longest hplain hlongest) hts', hrespaced⟩
    | @token _ piece _ t _ hpiece hlongest hrest =>
      have hlen := List.length_pos_of_ne_nil (any_ne_nil hpiece.mem_any)
      by_cases hfeed : '\n' ∈ piece
      · have hbreak := mem_lineBreak_of_feed hpiece.mem_any hfeed
        obtain ⟨rest', rfl, hbehind⟩ := hindented.behind_lineBreak hbreak
        have hcolumn' : columnBehind (before' ++ piece) = columnBehind (before ++ piece) := by
          rw [columnBehind_feed _ hbreak, columnBehind_feed _ hbreak]
        obtain ⟨ts', hts', hrespaced⟩ := indented hrest hbehind hcolumn' t.isBreak
        exact ⟨_, .token hpiece (lineBreak_longest hbreak) hts',
          .token ⟨rfl, fun _ => hcolumn⟩ hrespaced⟩
      · have hplain : ∀ c ∈ piece, c ≠ '\n' := by
          rintro c hc rfl
          exact hfeed hc
        obtain ⟨rest', rfl, hbehind⟩ := hindented.behind_piece hplain
        have hcolumn' : columnBehind (before' ++ piece) = columnBehind (before ++ piece) + n := by
          rw [columnBehind_append _ hplain, columnBehind_append _ hplain, hcolumn, Nat.add_right_comm]
          rfl
        obtain ⟨ts', hts', hrespaced⟩ := indented hrest hbehind hcolumn' t.isBreak
        exact ⟨_, .token hpiece (hbehind.longest hplain hlongest) hts',
          .token ⟨rfl, fun _ => hcolumn⟩ hrespaced⟩
termination_by 2 * rest.length + line.toNat
decreasing_by
  all_goals
    subst_vars
    simp only [List.length_append, Bool.toNat_true, Bool.toNat_false]
    omega

/-- Where a scan starts does not matter but for the column. -/
theorem elsewhere (h : Lexes before rest ts) (hcolumn : columnBehind before' = columnBehind before)
    (flag : Bool) : ∃ ts', Lexes before' rest ts' ∧ Respaced 0 flag ts ts' :=
  h.indented (.zero rest) hcolumn flag

/-! ### A line at the end -/

theorem longest_append {feed line : List Char} (hmem : piece ∈ any) (hfeed : feed ∈ lineBreak)
    (h : Longest piece (piece ++ rest)) : Longest piece (piece ++ (rest ++ (feed ++ line))) ∨
      rest = [] ∧ piece ∈ comment ∧ feed = ['\r', '\n'] := by
  refine or_iff_not_imp_right.mpr fun hother =>
    ⟨List.prefix_append .., fun w hw hfront => Nat.le_of_not_lt fun hlt => ?_⟩
  rw [← List.append_assoc] at hfront
  have hlonger : (piece ++ rest).length < w.length := by
    refine Nat.lt_of_not_le fun hle => ?_
    have hinside := List.prefix_of_prefix_length_le hfront (List.prefix_append ..) hle
    exact absurd (h.longest w hw hinside) (Nat.not_le_of_lt hlt)
  obtain ⟨v, rfl⟩ :=
    List.prefix_of_prefix_length_le (List.prefix_append ..) hfront (Nat.le_of_lt hlonger)
  have hv : v <+: feed ++ line := (List.prefix_append_right_inj _).mp hfront
  have hne : v ≠ [] := by
    rintro rfl
    simp at hlonger
  -- What goes on behind the text is no line break, so it is a comment.
  have hfree : '\n' ∉ v := by
    intro hmore
    have hlengths : 1 ≤ piece.length ∧ 1 ≤ v.length :=
      ⟨List.length_pos_of_ne_nil (any_ne_nil hmem), List.length_pos_of_ne_nil hne⟩
    rcases mem_lineBreak.mp (mem_lineBreak_of_feed hw (List.mem_append_right _ hmore)) with heq | heq
    · have hlen := congrArg List.length heq
      simp only [List.length_append, List.length_cons, List.length_nil] at hlen
      omega
    · have hlen := congrArg List.length heq
      simp only [List.length_append, List.length_cons, List.length_nil] at hlen
      have hpiece : piece = ['\r'] := by
        rw [List.append_assoc] at heq
        exact List.append_inj_left heq (by rw [List.length_singleton]; omega)
      have hreturn : [] ++ ['\r'] ∈ any := hpiece ▸ hmem
      obtain ⟨u, hu, _⟩ := mem_comment.mp (comment_of_return hreturn)
      cases hu
  rcases mem_lineBreak.mp hfeed with rfl | rfl
  · obtain ⟨d, v, rfl⟩ := List.exists_cons_of_ne_nil hne
    obtain ⟨rfl, _⟩ := List.cons_prefix_cons.mp hv
    exact hfree List.mem_cons_self
  · obtain ⟨d, v, rfl⟩ := List.exists_cons_of_ne_nil hne
    obtain ⟨rfl, hbehind⟩ := List.cons_prefix_cons.mp hv
    cases v with
    | nil =>
      have hnote := comment_of_return hw
      have hle := h.longest _ (mem_any_of_skipped (.inr hnote)) List.prefix_rfl
      have hrest : rest = [] := List.eq_nil_of_length_eq_zero (by rw [List.length_append] at hle; omega)
      rw [hrest, List.append_nil] at hnote
      exact hother ⟨hrest, hnote, rfl⟩
    | cons e v =>
      obtain ⟨rfl, _⟩ := List.cons_prefix_cons.mp hbehind
      exact hfree (List.mem_cons_of_mem _ List.mem_cons_self)

/-- A line more behind a text leaves a line break more. -/
theorem appended {feed line : List Char} (flag : Bool) (h : Lexes before rest ts)
    (hfeed : feed ∈ lineBreak) (hline : line ∈ ClassLang.idleText) :
    ∃ ts', Lexes before (rest ++ (feed ++ line)) ts' ∧ Respaced 0 flag ts ts' := by
  induction h generalizing flag with
  | @finish before =>
    obtain ⟨s, hs⟩ := @idleText (before ++ feed) _ hline
    have hbreak : Token.lineBreak.WrittenAs feed := hfeed
    rw [List.nil_append]
    exact ⟨_, .token hbreak (lineBreak_longest hfeed) hs, .last rfl⟩
  | @skip before piece rest ts hpiece hlongest hrest ih =>
    rcases longest_append (mem_any_of_skipped hpiece) hfeed hlongest with hlonger | ⟨rfl, hnote, rfl⟩
    · obtain ⟨ts', hts', hrespaced⟩ := ih flag
      rw [List.append_assoc]
      exact ⟨ts', .skip hpiece hlonger hts', hrespaced⟩
    · -- The carriage return goes to the comment.
      obtain ⟨v, rfl, hv⟩ := mem_comment.mp hnote
      have hmore : '/' :: '/' :: v ++ ['\r'] ∈ comment :=
        mem_comment.mpr ⟨v ++ ['\r'], rfl, List.forall_mem_append.mpr ⟨hv, by simp⟩⟩
      have hbreak : Token.lineBreak.WrittenAs ['\n'] := mem_lineBreak.mpr (.inl rfl)
      obtain ⟨s, hs⟩ := @idleText (before ++ ('/' :: '/' :: v ++ ['\r']) ++ ['\n']) _ hline
      have hskip := Lexes.skip (.inr hmore) (comment_longest hmore)
        (.token hbreak (lineBreak_longest hbreak) hs)
      rw [hrest.of_nil]
      refine ⟨[⟨.lineBreak, .over (before ++ ('/' :: '/' :: v ++ ['\r'])) ['\n']⟩, ⟨.endOfFile, s⟩],
        ?_, .last rfl⟩
      simpa using hskip
  | @token before piece rest t ts hpiece hlongest _ ih =>
    rcases longest_append hpiece.mem_any hfeed hlongest with hlonger | ⟨_, hnote, _⟩
    · obtain ⟨ts', hts', hrespaced⟩ := ih t.isBreak
      rw [List.append_assoc]
      exact ⟨_, .token hpiece hlonger hts', .token ⟨rfl, fun _ => rfl⟩ hrespaced⟩
    · exact absurd (.inr hnote) hpiece.not_skipped

end Lexes

theorem StartsLine.columnBehind {front : List Char} (h : StartsLine front) :
    ClassLang.columnBehind front = 1 := by
  rcases List.eq_nil_or_concat front with rfl | ⟨front, c, rfl⟩
  · rfl
  · have hc : c = '\n' := h c (by simp)
    rw [hc, List.concat_eq_append]
    exact columnBehind_feed front (mem_lineBreak.mpr (.inl rfl))

/-- A text that is laid out anew is scanned into a respaced stream. -/
theorem Relaid.respaced {text text' : List Char} {ts : List (Located Token)} (h : Relaid text text')
    (hts : Lexes [] text ts) : ∃ n ts', Lexes [] text' ts' ∧ Respaced n true ts ts' := by
  cases h with
  | @insert front line rest hfront hline =>
    obtain ⟨us, vs, rfl, hvs, hbreak, hput⟩ := hts.cut hfront
    have hcolumn : columnBehind (front ++ line) = columnBehind front := by
      obtain ⟨idle, _, feed, hfeed, rfl⟩ := hline
      show columnBehind (front ++ (idle ++ feed)) = _
      rw [← List.append_assoc, columnBehind_feed _ hfeed, hfront.columnBehind]
    obtain ⟨vs', hvs', hrespaced⟩ := hvs.elsewhere hcolumn true
    obtain ⟨t, ht, hlexes⟩ := hvs'.idleLine hline
    have hflag : endsBreak true us = true := by
      by_cases hnil : front = []
      · simpa [hnil] using hbreak
      · exact endsBreak_of_false _ (by simpa [hnil] using hbreak)
    refine ⟨0, _, hput _ _ hlexes, .behind ?_⟩
    rw [hflag]
    exact .fresh (by rw [ht]; rfl) hrespaced
  | @finish _ line hfront hline =>
    rw [← List.append_nil text] at hts
    obtain ⟨us, vs, rfl, hvs, _, hput⟩ := hts.cut hfront
    obtain rfl := hvs.of_nil
    obtain ⟨s, hs⟩ := Lexes.idleText hline
    exact ⟨0, _, hput _ _ hs, .behind .finish⟩
  | append hfeed hline =>
    obtain ⟨ts', hts', hrespaced⟩ := hts.appended true hfeed hline
    exact ⟨0, ts', hts', hrespaced⟩
  | @indent n _ _ hindented =>
    obtain ⟨ts', hts', hrespaced⟩ := hts.indented hindented rfl true
    exact ⟨n, ts', hts', hrespaced⟩

end ClassLang
