import ClassLang.Proofs.Agreement
import ClassLang.Proofs.Significant
import ClassLang.Proofs.Stages
import Mathlib.Logic.Relation

/-!
# Only relative indentation counts

A text that is laid out anew with the same relative indentation is read as the same program, or has the
same syntax errors (`relaid_read_alike`). The tokens of such a text are respaced. From there on two layouts
go through the streams side by side: as soon as a token is behind them they differ by the indentation only
(`Layout.Shifted`), and a line break more finds one that is pending. Before the first token one layout can
have a pending line break that the other has not. It is kept in front of all tokens, where the parser skips
it.
-/

namespace ClassLang

variable {n : Nat} {flag : Bool} {t t' : Located Token} {ts ts' : List (Located Token)}

namespace Layout

variable {l l' : Layout} {column column' : Nat}

/-! ## Layouts that differ by the indentation -/

/-- A line break that comes next is not kept: one is pending, or a block was just opened. -/
def Settled (l : Layout) : Prop := l.pending.isSome = true ∨ l.opening = true

theorem settled_meetBreak (l : Layout) (t : Located Token) : (l.meetBreak t).Settled := by
  unfold meetBreak
  split
  · next h => exact .inr h
  · exact .inl (by cases l.pending <;> rfl)

theorem meetBreak_settled (h : l.Settled) (t : Located Token) : l.meetBreak t = l := by
  obtain ⟨columns, pending, opening⟩ := l
  rcases h with h | h
  · obtain ⟨b, rfl⟩ := Option.isSome_iff_exists.mp h
    cases opening <;> rfl
  · obtain rfl : opening = true := h
    rfl

/-- The second layout is the first one with all columns further to the right. -/
structure Shifted (n : Nat) (l l' : Layout) : Prop where
  columns : l'.columns = l.columns.map (· + n)
  opening : l'.opening = l.opening
  pending : l'.pending.map (·.item) = l.pending.map (·.item)

namespace Shifted

theorem settled (h : Shifted n l l') (hsettled : l.Settled) : l'.Settled := by
  have hpending := congrArg Option.isSome h.pending
  rw [Option.isSome_map, Option.isSome_map] at hpending
  rwa [Settled, hpending, h.opening]

theorem meetBreak (h : Shifted n l l') (hitem : t'.item = t.item) :
    Shifted n (l.meetBreak t) (l'.meetBreak t') := by
  unfold Layout.meetBreak
  rw [h.opening]
  split
  · exact h
  · refine ⟨h.columns, rfl, ?_⟩
    have hpending := h.pending
    cases hl : l.pending <;> cases hl' : l'.pending <;> simp_all

theorem breakBefore (h : Shifted n l l') (ht : Moved n t t') (hbreak : t.item.isBreak = false) :
    (l'.breakBefore t').map (·.item) = (l.breakBefore t).map (·.item) := by
  have hcolumn : (l'.columns.head? == some t'.span.column) = (l.columns.head? == some t.span.column) := by
    rw [h.columns, ht.column hbreak]
    cases l.columns <;> simp
  have hpending := h.pending
  unfold Layout.breakBefore
  rw [ht.item, hcolumn]
  cases hl : l.pending with
  | none =>
    rw [hl] at hpending
    rw [Option.map_eq_none_iff.mp hpending]
  | some b =>
    rw [hl] at hpending
    obtain ⟨b', hb', hitem⟩ := Option.map_eq_some_iff.mp hpending
    rw [hb']
    dsimp only
    split
    · exact congrArg ([·]) hitem
    · rfl

theorem pass (h : Shifted n l l') (ht : Moved n t t') (hbreak : t.item.isBreak = false) :
    Shifted n (l.pass t) (l'.pass t') := by
  have hopened : l'.opened t' = (l.opened t).map (· + n) := by
    rw [opened, opened, h.opening, ht.column hbreak, h.columns]
    split <;> rfl
  unfold Layout.pass
  rw [ht.item, hopened]
  split
  · exact ⟨rfl, rfl, rfl⟩
  · refine ⟨?_, rfl, rfl⟩
    dsimp only
    rw [List.length_map, apply_ite (List.map (· + n)), List.map_tail]
  · exact ⟨rfl, rfl, rfl⟩

/-- The same tokens are kept of a stream and of a respaced one. -/
theorem keep (h : Shifted n l l') (hts : Respaced n flag ts ts') (hflag : flag = true → l.Settled) :
    (l'.keep ts').map (·.item) = (l.keep ts).map (·.item) := by
  induction hts generalizing l l' with
  | nil => rfl
  | @token _ t t' ts ts' ht _ ih =>
    cases hbreak : t.item.isBreak with
    | true =>
      rw [keep_break hbreak, keep_break (ht.item ▸ hbreak)]
      exact ih (h.meetBreak ht.item) fun _ => settled_meetBreak l t
    | false =>
      have hrest := ih (h.pass ht hbreak) fun hflag => absurd (hbreak.symm.trans hflag) (by decide)
      rw [keep_token hbreak, keep_token (ht.item ▸ hbreak)]
      simp only [List.map_append, List.map_cons, h.breakBefore ht hbreak, ht.item, hrest]
  | fresh hbreak _ ih =>
    rw [keep_break hbreak, meetBreak_settled (h.settled (hflag rfl))]
    exact ih h hflag
  | finish => rw [keep_endOfFile, keep_endOfFile]; rfl
  | last hbreak => rw [keep_break hbreak, keep_endOfFile, keep_endOfFile]; rfl

end Shifted

/-! ## The start of a stream -/

/-- No token but line breaks has been met, and the first one stands in the column. -/
structure Waiting (column : Nat) (l : Layout) : Prop where
  columns : l.columns = [column]
  opening : l.opening = false
  pending : ∀ b ∈ l.pending, b.item.isBreak = true

namespace Waiting

theorem meetBreak (h : Waiting column l) (ht : t.item.isBreak = true) :
    Waiting column (l.meetBreak t) := by
  unfold Layout.meetBreak
  rw [h.opening]
  refine ⟨h.columns, rfl, fun b hb => ?_⟩
  rcases Option.or_eq_some_iff.mp hb with hb | ⟨_, hb⟩
  · exact h.pending b hb
  · cases hb
    exact ht

theorem breakBefore (h : Waiting column l) : ∀ b ∈ l.breakBefore t, b.item.isBreak = true := by
  intro b hb
  unfold Layout.breakBefore at hb
  split at hb
  · next b' hb' =>
    split at hb
    · rw [List.mem_singleton.mp hb]
      exact h.pending _ hb'
    · cases hb
  · cases hb

/-- What is kept starts with the first token, perhaps with a line break in front. -/
theorem dropWhile_keep (h : Waiting column l) (ht : t.item.isBreak = false) :
    (l.keep (t :: ts)).dropWhile (·.item.isBreak) = t :: (l.pass t).keep ts := by
  rw [keep_token ht, List.dropWhile_append_of_pos (h.breakBefore), List.dropWhile_cons, ht]
  rfl

theorem pass (h : Waiting t.span.column l) (h' : Waiting t'.span.column l') (ht : Moved n t t')
    (hbreak : t.item.isBreak = false) : Shifted n (l.pass t) (l'.pass t') := by
  have hopened : l.opened t = [t.span.column] := by simp [opened, h.opening, h.columns]
  have hopened' : l'.opened t' = [t.span.column].map (· + n) := by
    simp [opened, h'.opening, h'.columns, ht.column hbreak]
  unfold Layout.pass
  rw [ht.item, hopened, hopened']
  split <;> exact ⟨rfl, rfl, rfl⟩

theorem keep (h : Waiting (firstColumn ts) l) (h' : Waiting (firstColumn ts') l')
    (hts : Respaced n true ts ts') :
    ((l'.keep ts').dropWhile (·.item.isBreak)).map (·.item) =
      ((l.keep ts).dropWhile (·.item.isBreak)).map (·.item) := by
  generalize hflag : true = flag at hts
  induction hts generalizing l l' with
  | nil => rfl
  | @token _ t t' ts ts' ht hrest ih =>
    cases hbreak : t.item.isBreak with
    | true =>
      have hbreak' : t'.item.isBreak = true := ht.item ▸ hbreak
      rw [keep_break hbreak, keep_break hbreak']
      rw [firstColumn_break hbreak] at h
      rw [firstColumn_break hbreak'] at h'
      exact ih (h.meetBreak hbreak) (h'.meetBreak hbreak') hbreak.symm
    | false =>
      have hbreak' : t'.item.isBreak = false := ht.item ▸ hbreak
      rw [h.dropWhile_keep hbreak, h'.dropWhile_keep hbreak', List.map_cons, List.map_cons, ht.item]
      rw [firstColumn_token hbreak] at h
      rw [firstColumn_token hbreak'] at h'
      refine congrArg (t.item :: ·) ((h.pass h' ht hbreak).keep hrest fun hflag => ?_)
      cases hbreak.symm.trans hflag
  | fresh hbreak _ ih =>
    rw [keep_break hbreak]
    rw [firstColumn_break hbreak] at h'
    exact ih h (h'.meetBreak hbreak) rfl
  | finish => rw [h.dropWhile_keep rfl, h'.dropWhile_keep rfl]; rfl
  | last hbreak =>
    rw [keep_break hbreak, h.dropWhile_keep rfl]
    rw [firstColumn_break hbreak] at h'
    rw [(h'.meetBreak hbreak).dropWhile_keep rfl]
    rfl

end Waiting

end Layout

/-! ## Streams -/

namespace Grammar

/-- At the start of a file, the line breaks that come first are passed, and a line starts behind them. -/
theorem skipBreaks_start (previous : Option (Located Token)) (h : startsLine previous = true)
    (ts : List (Located Token)) (fin : Span) :
    (Cursor.skipBreaks ⟨previous, ts, fin⟩).tokens = ts.dropWhile (·.item.isBreak) ∧
      startsLine (Cursor.skipBreaks ⟨previous, ts, fin⟩).previous = true := by
  induction ts generalizing previous with
  | nil => exact ⟨rfl, h⟩
  | cons t ts ih =>
    obtain ⟨item, s⟩ := t
    cases item with
    | lineBreak => exact ih (some ⟨.lineBreak, s⟩) rfl
    | _ => exact ⟨rfl, h⟩

/-- Behind the first line breaks the significant tokens of a stream and of a respaced one are alike. -/
theorem significantBreaks_like {body body' : List (Located Token)} {s s' : Span}
    (h : Respaced n true (body ++ [⟨.endOfFile, s⟩]) (body' ++ [⟨.endOfFile, s'⟩])) :
    Cursor.Like (Cursor.ofTokens (significantBreaks (body ++ [⟨.endOfFile, s⟩]))).skipBreaks
      (Cursor.ofTokens (significantBreaks (body' ++ [⟨.endOfFile, s'⟩]))).skipBreaks := by
  have hwaiting (column : Nat) : Layout.Waiting column (.start column) := ⟨rfl, rfl, nofun⟩
  have hkeep := (hwaiting _).keep (hwaiting _) h
  unfold significantBreaks
  obtain ⟨kept, hkept⟩ := Layout.keep_concat (t := ⟨.endOfFile, s⟩)
    (.start (firstColumn (body ++ [⟨.endOfFile, s⟩]))) body rfl
  obtain ⟨kept', hkept'⟩ := Layout.keep_concat (t := ⟨.endOfFile, s'⟩)
    (.start (firstColumn (body' ++ [⟨.endOfFile, s'⟩]))) body' rfl
  rw [hkept, hkept'] at hkeep ⊢
  rw [ofTokens_concat, ofTokens_concat]
  obtain ⟨htokens, hstart⟩ := skipBreaks_start none rfl kept s
  obtain ⟨htokens', hstart'⟩ := skipBreaks_start none rfl kept' s'
  refine ⟨?_, hstart'.trans hstart.symm⟩
  rw [htokens, htokens']
  have hconcat (kept : List (Located Token)) (s : Span) :
      (kept ++ [(⟨.endOfFile, s⟩ : Located Token)]).dropWhile (·.item.isBreak) =
        kept.dropWhile (·.item.isBreak) ++ [⟨.endOfFile, s⟩] := by
    rw [List.dropWhile_append]
    split
    · next hempty => rw [List.isEmpty_iff.mp hempty]; rfl
    · rfl
  rw [hconcat, hconcat, List.map_append, List.map_append] at hkeep
  exact List.append_cancel_right hkeep

end Grammar

/-! ## Outcomes -/

/-- What a syntax error says and advises, without the place where it is found. -/
def ParseError.content (e : ParseError) : ParseCause × String × Option ParseAdvice :=
  (e.cause, e.message, e.advice)

/-- Two readings come out the same up to places: with the same program, or with the same syntax errors. -/
def ReadAlike : Except Failure (Program Span) → Except Failure (Program Span) → Prop
  | .ok p, .ok q => q.bare = p.bare
  | .error (.syntactic es), .error (.syntactic es') =>
    es'.map ParseError.content = es.map ParseError.content
  | _, _ => False

theorem ReadAlike.trans {x y z : Except Failure (Program Span)} (h : ReadAlike x y) (h' : ReadAlike y z) :
    ReadAlike x z := by
  unfold ReadAlike at *
  split at h
  · cases z with
    | ok r => exact h'.trans h
    | error f => exact h'.elim
  · cases z with
    | ok r => exact h'.elim
    | error f => cases f <;> first | exact h'.elim | exact h'.trans h
  · exact h.elim

/-- Reads a program from all tokens of a text. -/
def readTokens (ts : List (Located Token)) : Except Failure (Program Span) :=
  (Grammar.program (significantBreaks ts)).mapError .syntactic

theorem Grammar.program_agree {ts ts' : List (Located Token)}
    (h : Cursor.Like (Cursor.ofTokens ts).skipBreaks (Cursor.ofTokens ts').skipBreaks) :
    ReadAlike ((program ts).mapError .syntactic) ((program ts').mapError .syntactic) := by
  obtain ⟨hdecls, herrors⟩ := classList_agree h
  unfold program
  rcases hc : classList (Cursor.ofTokens ts).skipBreaks with ⟨decls, errors⟩
  rcases hd : classList (Cursor.ofTokens ts').skipBreaks with ⟨decls', errors'⟩
  rw [hc, hd] at hdecls herrors
  simp only [hc, hd]
  cases errors with
  | nil =>
    obtain rfl := List.map_eq_nil_iff.mp herrors
    exact congrArg (Program.mk · .none) hdecls
  | cons e errors =>
    obtain ⟨e', errors', rfl, -, -⟩ := List.map_eq_cons_iff.mp herrors
    -- The message depends on the cause only.
    have hcontent := congrArg (List.map fun b : ParseCause × Option ParseAdvice =>
      (b.1, (⟨b.1, .none, none, 0⟩ : ParseError).message, b.2)) herrors
    rwa [List.map_map, List.map_map] at hcontent

/-- A text that is laid out anew is read with the same outcome. -/
theorem Relaid.readTokens {text text' : List Char} {ts : List (Located Token)} (h : Relaid text text')
    (hts : Lexes [] text ts) : ∃ ts', Lexes [] text' ts' ∧
      ReadAlike (ClassLang.readTokens ts) (ClassLang.readTokens ts') := by
  obtain ⟨n, ts', hts', hrespaced⟩ := h.respaced hts
  refine ⟨ts', hts', ?_⟩
  obtain ⟨body, s, rfl, _⟩ := hts.endsOnce
  obtain ⟨body', s', rfl, _⟩ := hts'.endsOnce
  exact Grammar.program_agree (Grammar.significantBreaks_like hrespaced)

theorem Program.ofSource_eq {source : String} {ts : List (Located Token)} (h : tokenize source = .ok ts) :
    Program.ofSource source = readTokens ts := by
  rw [Program.ofSource, significantTokens, h]
  rfl

/-- A text without lexical errors that is laid out anew with the same relative indentation, in any number of
steps, is read as the same program up to places, or refused with the same syntax errors up to places. -/
theorem relaid_read_alike {source source' : String} {ts : List (Located Token)}
    (hlexes : tokenize source = .ok ts)
    (hlaid : Relation.ReflTransGen Relaid source.toList source'.toList) :
    ReadAlike (Program.ofSource source) (Program.ofSource source') := by
  have hall : ∀ text, Relation.ReflTransGen Relaid source.toList text →
      ∃ ts', Lexes [] text ts' ∧ ReadAlike (readTokens ts) (readTokens ts') := by
    intro text htext
    induction htext with
    | refl => exact ⟨ts, tokenize_eq_ok.mp hlexes, Grammar.program_agree ⟨rfl, rfl⟩⟩
    | tail _ hstep ih =>
      obtain ⟨us, hus, halike⟩ := ih
      obtain ⟨vs, hvs, halike'⟩ := hstep.readTokens hus
      exact ⟨vs, hvs, halike.trans halike'⟩
  obtain ⟨ts', hts', halike⟩ := hall _ hlaid
  rwa [Program.ofSource_eq hlexes, Program.ofSource_eq (tokenize_eq_ok.mpr hts')]

/-- Puts a number of spaces in front of every line. -/
def indent (n : Nat) (text : List Char) : List Char :=
  List.replicate n ' ' ++ text.flatMap fun c => if c = '\n' then '\n' :: List.replicate n ' ' else [c]

theorem indented_indent (n : Nat) (text : List Char) : Indented n true text (indent n text) := by
  refine .line ?_
  induction text with
  | nil => exact .finish
  | cons c text ih =>
    rw [List.flatMap_cons]
    split
    · next hc =>
      rw [hc]
      exact .feed (.line ih)
    · next hc => exact .char hc ih

/-- The first line of a class with one method. -/
def stepsHead : String := "class A \x7b\n"

/-- The other lines of the class. -/
def stepsTail : String := " public f() = \x7b\n   f()\n   f()\n \x7d\n\x7d"

/-- A class whose method does two steps, each on a line of its own. -/
def steps : String := stepsHead ++ stepsTail

/-- A comment on its own line. -/
def stepsNote : String := "  // twice\n"

/-- The class with the comment in it, all lines indented. -/
def stepsSpread : String :=
  .ofList (indent 2 (stepsHead.toList ++ (stepsNote.toList ++ stepsTail.toList)))

theorem steps_read_alike : ∃ ts, tokenize steps = .ok ts ∧
    Relation.ReflTransGen Relaid steps.toList stepsSpread.toList ∧
      (∃ p, Program.ofSource steps = .ok p) ∧
        ReadAlike (Program.ofSource steps) (Program.ofSource stepsSpread) := by
  have hopening : StartsLine stepsHead.toList := by
    have htext : stepsHead = String.ofList _ := rfl
    rw [htext, String.toList_ofList]
    intro c hc
    cases hc
    rfl
  have hnote : stepsNote.toList ∈ idleLine := by
    have htext : stepsNote =
        String.ofList ([' ', ' '] ++ ['/', '/', ' ', 't', 'w', 'i', 'c', 'e'] ++ ['\n']) := rfl
    rw [htext, String.toList_ofList]
    refine Language.append_mem_mul (Language.append_mem_mul (Pattern.mem_many.mpr ?_) ?_) ?_
    · simp [Lexeme.isBlank]
    · exact Pattern.mem_optional.mpr (.inr (Pattern.mem_comment.mpr ⟨_, rfl, by simp⟩))
    · exact Pattern.mem_lineBreak.mpr (.inl rfl)
  have hlaid : Relation.ReflTransGen Relaid steps.toList stepsSpread.toList := by
    rw [steps, String.toList_append, stepsSpread, String.toList_ofList]
    exact .tail (.single (.insert hopening hnote)) (.indent (indented_indent 2 _))
  have hread : (Program.ofSource steps).isOk = true := by decide +kernel
  cases hlexes : tokenize steps with
  | error es =>
    rw [Program.ofSource, significantTokens, hlexes] at hread
    cases hread
  | ok ts =>
    refine ⟨ts, rfl, hlaid, ?_, relaid_read_alike hlexes hlaid⟩
    cases hp : Program.ofSource steps with
    | ok p => exact ⟨p, rfl⟩
    | error f =>
      rw [hp] at hread
      cases hread

end ClassLang
