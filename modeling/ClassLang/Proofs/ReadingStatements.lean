import ClassLang.Proofs.Reading

/-!
# Reading statements

The tokens of a statement are read back as the statement (`stmt_reads`, one lemma for each form). A
statement has to be followed by a token that ends it, and by no `else` if it ends in an `if` without
one (`Closes`); inside a block that token is the line break in front of the next statement or the
closing brace.

`reads_back` says it for the two parsers: what `Expr.tokens` and `Stmt.tokens` write is read as the
tree that was written. The parentheses are those of `Expr.enclose`, so the ranks of `Expr.rank` are the
ranks of the parser. A variable declared as `null` can be written and cannot be read
(`nullDeclared_unread`).
-/

namespace ClassLang.Grammar

variable {ν : Type} {prev : Option (Located Token)} {fin : Span} {t : Located Token}
  {ts rest : List (Located Token)}

theorem expression_reads {e : Expr ν} (h : e.writable = true) (hts : ts.map (·.item) = e.tokens)
    (hstop : joins? (kindOf rest) = none) : ∃ e' prev',
      outcome (expression ⟨prev, ts ++ rest, fin⟩) = .ok (e', ⟨prev', rest, fin⟩) ∧
        e'.bare = e.bare :=
  (expr_spells e h).reads.mono (rank_le e) (Nat.le_refl 9) (begins_tokens e) prev fin ts rest hts
    (.of_none hstop)

/-! ## What stands in front of a statement and behind it -/

/-- A statement ends in front of a token of this kind. An `else` would be taken by an open one. -/
def Closes (isOpen : Bool) (kind : TokenKind) : Prop :=
  endsReturn kind = true ∧ (kind = .keyword .elseWord → isOpen = false)

theorem Closes.stops {isOpen : Bool} {kind : TokenKind} (h : Closes isOpen kind) :
    joins? kind = none := by
  have hend := h.1
  unfold endsReturn at hend
  split at hend <;> first | rfl | cases hend

/-- A token starts a statement. -/
def startsStmt (kind : TokenKind) : Bool := startsExpr kind || startsStatement kind

theorem stmt_begins (s : Stmt ν) : ∃ t ts, s.tokens = t :: ts ∧ startsStmt t.kind = true := by
  cases s with
  | expression e _ =>
    obtain ⟨t, ts, h, hstart, _⟩ := begins_tokens e
    exact ⟨t, ts, h, by simp [startsStmt, hstart]⟩
  | _ => exact ⟨_, _, rfl, rfl⟩

/-- A statement starts with none of the tokens that end one. -/
theorem endsReturn_starts {kind : TokenKind} (h : startsStmt kind = true) : endsReturn kind = false := by
  unfold endsReturn
  split <;> first | rfl | cases h

theorem skipBreaks_starts (h : kindOf ts ≠ .lineBreak) :
    Cursor.skipBreaks ⟨prev, ts, fin⟩ = ⟨prev, ts, fin⟩ := by
  cases ts with
  | nil => rfl
  | cons t ts =>
    obtain ⟨item, s⟩ := t
    cases item <;> first | rfl | exact absurd rfl h

/-! ## Forms of statements -/

/-- Tokens are read as a statement in front of a token that ends it. -/
def ReadsStmt (isOpen : Bool) (v : Stmt Unit) (toks : List Token) : Prop :=
  ∀ prev fin (ts rest : List (Located Token)), ts.map (·.item) = toks → Closes isOpen (kindOf rest) →
    ∃ s prev', outcome (statement ⟨prev, ts ++ rest, fin⟩) = .ok (s, ⟨prev', rest, fin⟩) ∧ s.bare = v

/-- Tokens are read as the statements of a block in front of its closing brace. -/
def ReadsBlock (vs : List (Stmt Unit)) (toks : List Token) : Prop :=
  ∀ prev fin (ts rest : List (Located Token)), ts.map (·.item) = toks →
    kindOf rest = .symbol .rightBrace → ∃ ss prev',
      outcome' (blockRest ⟨prev, ts ++ rest, fin⟩) = .ok (ss, ⟨prev', rest, fin⟩) ∧
        Stmt.bareList ss = vs

theorem annotation_reads {w : Option TypeName} (hw : w.any TypeName.isNull = false)
    (hts : ts.map (·.item) = w.elim [] (fun w => .symbol .colon :: w.tokens))
    (hequal : kindOf rest = .symbol .equal) : ∃ w' prev',
      outcome' ( typeAnnotation ⟨prev, ts ++ rest, fin⟩) = .ok (w', ⟨prev', rest, fin⟩) ∧
        w'.map TypeName.bare = w.map TypeName.bare := by
  cases w with
  | none =>
    obtain rfl := List.map_eq_nil_iff.mp hts
    refine ⟨none, prev, ?_, rfl⟩
    have hcolon : kindOf rest ≠ .symbol .colon := by simp [hequal]
    simp only [List.nil_append, typeAnnotation, accept_none hcolon]
    rfl
  | some w =>
    obtain ⟨s, type, rfl, htype⟩ := spelled_cons hts
    obtain ⟨w', prev', hread, hbare⟩ := @typeName_reads (some ⟨.symbol .colon, s⟩) fin type rest false w
      (.inr hw) htype (by simp [hequal])
    obtain ⟨hlt, hread⟩ := outcome_eq_ok.mp hread
    refine ⟨some w', prev', ?_, by rw [Option.map_some, Option.map_some, hbare]⟩
    simp only [List.cons_append, typeAnnotation, accept_cons, Token.kind, ↓reduceIte, hread, bind,
      Except.bind]
    rfl

theorem define_reads {x : Ident} {w : Option TypeName} {e : Expr ν} {s : Span}
    (h : (Stmt.define x w e s).writable = true) :
    ReadsStmt false (Stmt.define x w e s).bare (Stmt.define x w e s).tokens := by
  intro prev fin ts rest hts hclose
  rw [Stmt.writable, Bool.and_eq_true, Bool.not_eq_true'] at h
  obtain ⟨s₁, _, rfl, hname⟩ := spelled_cons hts
  obtain ⟨s₂, _, rfl, hbehind⟩ := spelled_cons hname
  obtain ⟨type, _, rfl, htype, hbehind⟩ := List.map_eq_append_iff.mp hbehind
  obtain ⟨s₃, value, rfl, hvalue⟩ := spelled_cons hbehind
  obtain ⟨w', prev', hread, hw⟩ := @annotation_reads (some ⟨.name x.name, s₂⟩) fin type
    (⟨.symbol .equal, s₃⟩ :: (value ++ rest)) w h.1 htype rfl
  obtain ⟨e', prev'', hread', he⟩ := @expression_reads _ (some ⟨.symbol .equal, s₃⟩) fin value rest e h.2
    hvalue hclose.stops
  obtain ⟨hle, hread⟩ := outcome'_eq_ok.mp hread
  obtain ⟨hlt, hread'⟩ := outcome_eq_ok.mp hread'
  refine ⟨.define ⟨x.name, s₂⟩ w' e' (Cursor.spanFrom ⟨prev'', rest, fin⟩ s₁), prev'', ?_,
    by rw [Stmt.bare, Stmt.bare, hw, he]⟩
  rw [List.cons_append, List.cons_append, List.append_assoc, List.cons_append, statement]
  simp only [kind_eq, kindOf_cons, Token.kind, define, expect_keyword, expectName_cons, hread,
    expect_symbol, hread', bind, Except.bind]
  rfl

theorem return_reads {e : Option (Expr ν)} {s : Span} (h : (Stmt.return e s).writable = true) :
    ReadsStmt false (Stmt.return e s).bare (Stmt.return e s).tokens := by
  intro prev fin ts rest hts hclose
  obtain ⟨s₁, value, rfl, hvalue⟩ := spelled_cons hts
  cases e with
  | none =>
    obtain rfl := List.map_eq_nil_iff.mp hvalue
    refine ⟨.return none (Cursor.spanFrom ⟨some ⟨.keyword .returnWord, s₁⟩, rest, fin⟩ s₁),
      some ⟨.keyword .returnWord, s₁⟩, ?_, rfl⟩
    rw [statement]
    simp only [List.cons_append, List.nil_append, kind_eq, kindOf_cons, Token.kind, returnStmt,
      expect_keyword, hclose.1, ↓reduceIte, bind, Except.bind]
    rfl
  | some e =>
    obtain ⟨e', prev', hread, he⟩ := @expression_reads _ (some ⟨.keyword .returnWord, s₁⟩) fin value rest e
      h hvalue hclose.stops
    obtain ⟨hlt, hread⟩ := outcome_eq_ok.mp hread
    obtain ⟨t, ts, htokens, hstart, _⟩ := begins_tokens e
    have hfirst : endsReturn (kindOf (value ++ rest)) = false := by
      rw [kindOf_begins (hvalue.trans htokens)]
      exact endsReturn_starts (by simp [startsStmt, hstart])
    refine ⟨.return (some e') (Cursor.spanFrom ⟨prev', rest, fin⟩ s₁), prev', ?_,
      by rw [Stmt.bare, Stmt.bare, Option.map_some, Option.map_some, he]⟩
    rw [statement]
    simp only [List.cons_append, kind_eq, kindOf_cons, Token.kind, returnStmt, expect_keyword, hfirst,
      hread, Bool.false_eq_true, ↓reduceIte, bind, Except.bind]
    rfl

theorem expression_stmt_reads {e : Expr ν} {n : Span} (h : e.writable = true) :
    ReadsStmt false (Stmt.expression e n).bare (Stmt.expression e n).tokens := by
  intro prev fin ts rest hts hclose
  obtain ⟨e', prev', hread, he⟩ := @expression_reads _ prev fin ts rest e h hts hclose.stops
  obtain ⟨hlt, hread⟩ := outcome_eq_ok.mp hread
  obtain ⟨t, _, htokens, hstart, _⟩ := begins_tokens e
  refine ⟨.expression e' e'.note, prev', ?_, by rw [Stmt.bare, Stmt.bare, he]⟩
  have hkind : startsExpr (Cursor.kind ⟨prev, ts ++ rest, fin⟩) = true := by
    rw [kind_eq, kindOf_begins (hts.trans htokens), hstart]
  rw [statement]
  split
  case h_6 =>
    simp only [hread, bind, Except.bind]
    rfl
  all_goals
    next hkind' =>
      rw [hkind'] at hkind
      cases hkind

section

variable {e : Expr ν} {s s' : Stmt ν} {span : Span}

theorem ifThen_reads (h : e.writable = true) (hs : ReadsStmt s.isOpen s.bare s.tokens) :
    ReadsStmt true (Stmt.ifThen e s span).bare (Stmt.ifThen e s span).tokens := by
  intro prev fin ts rest hts hclose
  obtain ⟨s₁, _, rfl, hbehind⟩ := spelled_cons hts
  obtain ⟨condition, _, rfl, hcondition, hbehind⟩ := List.map_eq_append_iff.mp hbehind
  obtain ⟨s₂, branch, rfl, hbranch⟩ := spelled_cons hbehind
  have helse : kindOf rest ≠ .keyword .elseWord := fun heq => Bool.noConfusion (hclose.2 heq)
  obtain ⟨e', prev', hread, he⟩ := @expression_reads _ (some ⟨.keyword .ifWord, s₁⟩) fin condition
    (⟨.keyword .thenWord, s₂⟩ :: (branch ++ rest)) e h hcondition rfl
  obtain ⟨b, prev'', hread', hb⟩ := hs (some ⟨.keyword .thenWord, s₂⟩) fin branch rest hbranch
    ⟨hclose.1, fun heq => absurd heq helse⟩
  obtain ⟨hlt, hread⟩ := outcome_eq_ok.mp hread
  obtain ⟨hlt', hread'⟩ := outcome_eq_ok.mp hread'
  refine ⟨.ifThen e' b (Cursor.spanFrom ⟨prev'', rest, fin⟩ s₁), prev'', ?_,
    by rw [Stmt.bare, Stmt.bare, he, hb]⟩
  rw [List.cons_append, List.append_assoc, List.cons_append, statement]
  simp only [kind_eq, kindOf_cons, Token.kind, expect_keyword, hread, hread', accept_none helse, bind,
    Except.bind]
  rfl

theorem ifElse_reads (h : e.writable = true) (hclosed : s.isOpen = false)
    (hs : ReadsStmt s.isOpen s.bare s.tokens) (hs' : ReadsStmt s'.isOpen s'.bare s'.tokens) :
    ReadsStmt s'.isOpen (Stmt.ifElse e s s' span).bare (Stmt.ifElse e s s' span).tokens := by
  intro prev fin ts rest hts hclose
  obtain ⟨s₁, _, rfl, hif⟩ := spelled_cons hts
  obtain ⟨condition, _, rfl, hcondition, hthen⟩ := List.map_eq_append_iff.mp hif
  obtain ⟨s₂, _, rfl, hbranches⟩ := spelled_cons hthen
  obtain ⟨branch, _, rfl, hbranch, helse⟩ := List.map_eq_append_iff.mp hbranches
  obtain ⟨s₃, otherwise, rfl, hotherwise⟩ := spelled_cons helse
  obtain ⟨e', prev₁, hread₁, he⟩ := @expression_reads _ (some ⟨.keyword .ifWord, s₁⟩) fin condition
    (⟨.keyword .thenWord, s₂⟩ :: (branch ++ ⟨.keyword .elseWord, s₃⟩ :: (otherwise ++ rest))) e h
    hcondition rfl
  obtain ⟨b, prev₂, hread₂, hb⟩ := hs (some ⟨.keyword .thenWord, s₂⟩) fin branch
    (⟨.keyword .elseWord, s₃⟩ :: (otherwise ++ rest)) hbranch ⟨rfl, fun _ => hclosed⟩
  obtain ⟨o, prev₃, hread₃, ho⟩ := hs' (some ⟨.keyword .elseWord, s₃⟩) fin otherwise rest hotherwise
    hclose
  obtain ⟨_, hread₁⟩ := outcome_eq_ok.mp hread₁
  obtain ⟨_, hread₂⟩ := outcome_eq_ok.mp hread₂
  obtain ⟨_, hread₃⟩ := outcome_eq_ok.mp hread₃
  refine ⟨.ifElse e' b o (Cursor.spanFrom ⟨prev₃, rest, fin⟩ s₁), prev₃, ?_,
    by rw [Stmt.bare, Stmt.bare, he, hb, ho]⟩
  rw [List.cons_append, List.append_assoc, List.cons_append, List.append_assoc, List.cons_append,
    statement]
  simp only [kind_eq, kindOf_cons, Token.kind, expect_keyword, hread₁, hread₂, accept_cons, ↓reduceIte,
    hread₃, bind, Except.bind]
  rfl

theorem while_reads (h : e.writable = true) (hs : ReadsStmt s.isOpen s.bare s.tokens) :
    ReadsStmt s.isOpen (Stmt.while e s span).bare (Stmt.while e s span).tokens := by
  intro prev fin ts rest hts hclose
  obtain ⟨s₁, _, rfl, hbehind⟩ := spelled_cons hts
  obtain ⟨condition, _, rfl, hcondition, hbehind⟩ := List.map_eq_append_iff.mp hbehind
  obtain ⟨s₂, body, rfl, hbody⟩ := spelled_cons hbehind
  obtain ⟨e', prev', hread, he⟩ := @expression_reads _ (some ⟨.keyword .whileWord, s₁⟩) fin condition
    (⟨.keyword .doWord, s₂⟩ :: (body ++ rest)) e h hcondition rfl
  obtain ⟨b, prev'', hread', hb⟩ := hs (some ⟨.keyword .doWord, s₂⟩) fin body rest hbody hclose
  obtain ⟨hlt, hread⟩ := outcome_eq_ok.mp hread
  obtain ⟨hlt', hread'⟩ := outcome_eq_ok.mp hread'
  refine ⟨.while e' b (Cursor.spanFrom ⟨prev'', rest, fin⟩ s₁), prev'', ?_,
    by rw [Stmt.bare, Stmt.bare, he, hb]⟩
  rw [List.cons_append, List.append_assoc, List.cons_append, statement]
  simp only [kind_eq, kindOf_cons, Token.kind, expect_keyword, hread, hread', bind, Except.bind]
  rfl

end

/-! ## Blocks -/

section

variable {s s' : Stmt ν} {ss : List (Stmt ν)} {span : Span} {toks : List Token}

theorem kindOf_starts (hts : ts.map (·.item) = s.tokens) : startsStmt (kindOf (ts ++ rest)) = true := by
  obtain ⟨t, toks, htokens, hstart⟩ := stmt_begins s
  rw [kindOf_begins (hts.trans htokens), hstart]

theorem ne_of_starts {k l : TokenKind} (h : startsStmt k = true) (hend : endsReturn l = true) : k ≠ l := by
  rintro rfl
  rw [endsReturn_starts h] at hend
  cases hend

theorem blockRest_last (hs : ReadsStmt s.isOpen s.bare s.tokens) : ReadsBlock [s.bare] s.tokens := by
  intro prev fin ts rest hts hbrace
  have hstart : startsStmt (kindOf (ts ++ rest)) = true := kindOf_starts hts
  have hbrace' := ne_of_starts (l := .symbol .rightBrace) hstart rfl
  have hend := ne_of_starts (l := .endOfFile) hstart rfl
  obtain ⟨b, prev', hread, hb⟩ := hs prev fin ts rest hts
    ⟨by rw [hbrace]; rfl, fun heq => by simp [hbrace] at heq⟩
  obtain ⟨hlt, hread⟩ := outcome_eq_ok.mp hread
  refine ⟨[b], prev', ?_, by rw [Stmt.bareList, Stmt.bareList, hb]⟩
  rw [blockRest]
  simp only [kind_eq, hbrace', hend, or_self, ↓reduceIte, hread, hbrace, bind, Except.bind]
  rfl

/-- A line break leads from one statement of a block to the next. -/
theorem blockRest_cons {vs : List (Stmt Unit)} (hs : ReadsStmt s.isOpen s.bare s.tokens)
    (hstart : ∃ t toks', toks = t :: toks' ∧ startsStmt t.kind = true) (hss : ReadsBlock vs toks) :
    ReadsBlock (s.bare :: vs) (s.tokens ++ .lineBreak :: toks) := by
  intro prev fin ts rest hts hbrace
  obtain ⟨first, _, rfl, hfirst, hbehind⟩ := List.map_eq_append_iff.mp hts
  obtain ⟨n, others, rfl, hothers⟩ := spelled_cons hbehind
  have hstart₁ : startsStmt (kindOf (first ++ ⟨.lineBreak, n⟩ :: (others ++ rest))) = true :=
    kindOf_starts hfirst
  have hbrace₁ := ne_of_starts (l := .symbol .rightBrace) hstart₁ rfl
  have hend₁ := ne_of_starts (l := .endOfFile) hstart₁ rfl
  have hstart₂ : startsStmt (kindOf (others ++ rest)) = true := by
    obtain ⟨t, toks', rfl, hstart⟩ := hstart
    rw [kindOf_begins hothers, hstart]
  obtain ⟨b, prev', hread, hb⟩ := hs prev fin first (⟨.lineBreak, n⟩ :: (others ++ rest)) hfirst
    ⟨rfl, fun heq => by cases heq⟩
  obtain ⟨bs, prev'', hread', hbs⟩ := hss (some ⟨.lineBreak, n⟩) fin others rest hothers hbrace
  rw [← skipBreaks_starts (ne_of_starts hstart₂ rfl)] at hread'
  obtain ⟨hlt, hread⟩ := outcome_eq_ok.mp hread
  obtain ⟨hle, hread'⟩ := outcome'_eq_ok.mp hread'
  refine ⟨b :: bs, prev'', ?_, by rw [Stmt.bareList, hb, hbs]⟩
  rw [List.append_assoc, List.cons_append, blockRest]
  simp only [kind_eq, kindOf_cons, Token.kind, hbrace₁, hend₁, or_self, reduceCtorEq, ↓reduceIte, hread,
    statementBreak, expect_lineBreak, hread', bind, Except.bind]
  rfl

theorem block_reads (hss : ss ≠ [] →
      (∃ t toks, Stmt.tokensList ss = t :: toks ∧ startsStmt t.kind = true) ∧
        ReadsBlock (Stmt.bareList ss) (Stmt.tokensList ss)) :
    ReadsStmt false (Stmt.block ss span).bare (Stmt.block ss span).tokens := by
  intro prev fin ts rest hts _
  obtain ⟨s₁, _, rfl, hbehind⟩ := spelled_cons hts
  obtain ⟨inner, _, rfl, hinner, hclose⟩ := List.map_eq_append_iff.mp hbehind
  obtain ⟨s₂, rfl⟩ := spelled_singleton hclose
  obtain ⟨bs, prev', hread, hbs⟩ : ∃ bs prev', outcome' (blockRest (Cursor.skipBreaks
      ⟨some ⟨.symbol .leftBrace, s₁⟩, inner ++ ⟨.symbol .rightBrace, s₂⟩ :: rest, fin⟩)) =
        .ok (bs, ⟨prev', ⟨.symbol .rightBrace, s₂⟩ :: rest, fin⟩) ∧
          Stmt.bareList bs = Stmt.bareList ss := by
    by_cases hnil : ss = []
    · subst hnil
      obtain rfl := List.map_eq_nil_iff.mp hinner
      refine ⟨[], some ⟨.symbol .leftBrace, s₁⟩, ?_, rfl⟩
      rw [List.nil_append, skipBreaks_starts (by simp [kindOf_cons, Token.kind]), blockRest]
      simp only [kind_eq, kindOf_cons, Token.kind, true_or, ↓reduceIte]
      rfl
    · obtain ⟨⟨t, toks, htokens, hstart⟩, hread⟩ := hss hnil
      rw [skipBreaks_starts (ne_of_starts (by rw [kindOf_begins (hinner.trans htokens), hstart]) rfl)]
      exact hread _ fin inner _ hinner rfl
  obtain ⟨hle, hread⟩ := outcome'_eq_ok.mp hread
  refine ⟨.block bs (Cursor.spanFrom ⟨some ⟨.symbol .rightBrace, s₂⟩, rest, fin⟩ s₁),
    some ⟨.symbol .rightBrace, s₂⟩, ?_, by rw [Stmt.bare, Stmt.bare, hbs]⟩
  rw [List.cons_append, List.append_assoc, List.singleton_append, statement]
  simp only [kind_eq, kindOf_cons, Token.kind]
  rw [block]
  simp only [expect_symbol, hread, bind, Except.bind]
  rfl

end

theorem block_begins {ss : List (Stmt ν)} (h : ss ≠ []) :
    ∃ t toks, Stmt.tokensList ss = t :: toks ∧ startsStmt t.kind = true := by
  match ss with
  | [s] => exact stmt_begins s
  | s :: s' :: ss =>
    obtain ⟨t, toks, htokens, hstart⟩ := stmt_begins s
    exact ⟨t, toks ++ .lineBreak :: Stmt.tokensList (s' :: ss), by rw [Stmt.tokensList, htokens]; rfl,
      hstart⟩

mutual

/-- The tokens of a statement are read as the statement. -/
theorem stmt_reads : ∀ s : Stmt ν, s.writable = true → s.isBound = true →
    ReadsStmt s.isOpen s.bare s.tokens
  | .define _ _ _ _, h, _ => define_reads h
  | .return _ _, h, _ => return_reads h
  | .expression _ _, h, _ => expression_stmt_reads h
  | .ifThen e s _, h, hbound => by
    rw [Stmt.writable, Bool.and_eq_true] at h
    rw [Stmt.isBound] at hbound
    exact ifThen_reads h.1 (stmt_reads s h.2 hbound)
  | .ifElse e s s' _, h, hbound => by
    rw [Stmt.writable, Bool.and_eq_true, Bool.and_eq_true] at h
    rw [Stmt.isBound, Bool.and_eq_true, Bool.and_eq_true, Bool.not_eq_true'] at hbound
    obtain ⟨⟨he, hs⟩, hs'⟩ := h
    obtain ⟨⟨hbound, hclosed⟩, hbound'⟩ := hbound
    exact ifElse_reads he hclosed (stmt_reads s hs hbound) (stmt_reads s' hs' hbound')
  | .while e s _, h, hbound => by
    rw [Stmt.writable, Bool.and_eq_true] at h
    rw [Stmt.isBound] at hbound
    exact while_reads h.1 (stmt_reads s h.2 hbound)
  | .block ss _, h, hbound => block_reads fun hne => ⟨block_begins hne, stmts_read ss h hbound hne⟩

/-- The tokens of the statements of a block are read as the statements. -/
theorem stmts_read : ∀ ss : List (Stmt ν), Stmt.writableList ss = true → Stmt.isBoundList ss = true →
    ss ≠ [] → ReadsBlock (Stmt.bareList ss) (Stmt.tokensList ss)
  | [s], h, hbound, _ => by
    rw [Stmt.writableList, Bool.and_eq_true] at h
    rw [Stmt.isBoundList, Bool.and_eq_true] at hbound
    exact blockRest_last (stmt_reads s h.1 hbound.1)
  | s :: s' :: ss, h, hbound, _ => by
    rw [Stmt.writableList, Bool.and_eq_true] at h
    rw [Stmt.isBoundList, Bool.and_eq_true] at hbound
    exact blockRest_cons (stmt_reads s h.1 hbound.1) (block_begins (by simp))
      (stmts_read (s' :: ss) h.2 hbound.2 (by simp))

end

/-! ## The parsers -/

/-- An expression in front of a token that does not go on with one is read back from its tokens, and
so is a statement in front of a line break, a closing brace or the end of the file: up to the places
where its parts were written the parser returns the tree, and it stops in front of that token. -/
theorem reads_back (prev : Option (Located Token)) (fin : Span) (ts rest : List (Located Token)) :
    (∀ e : Expr ν, e.writable = true → ts.map (·.item) = e.tokens → joins? (kindOf rest) = none →
      ∃ p, expression ⟨prev, ts ++ rest, fin⟩ = .ok p ∧ p.value.bare = e.bare ∧ p.rest.tokens = rest) ∧
    ∀ s : Stmt ν, s.writable = true → s.isBound = true → ts.map (·.item) = s.tokens →
      kindOf rest ∈ [.lineBreak, .symbol .rightBrace, .endOfFile] →
      ∃ p, statement ⟨prev, ts ++ rest, fin⟩ = .ok p ∧ p.value.bare = s.bare ∧ p.rest.tokens = rest := by
  constructor
  · intro e he hts hstop
    obtain ⟨e', prev', houtcome, hbare⟩ := @expression_reads _ prev fin ts rest e he hts hstop
    obtain ⟨hlt, hread⟩ := outcome_eq_ok.mp houtcome
    exact ⟨_, hread, hbare, rfl⟩
  · intro s hs hbound hts hstop
    have hclose : Closes s.isOpen (kindOf rest) := by
      simp only [List.mem_cons, List.not_mem_nil, or_false] at hstop
      rcases hstop with h | h | h <;> rw [h] <;> exact ⟨rfl, fun heq => by cases heq⟩
    obtain ⟨s', prev', houtcome, hbare⟩ := stmt_reads s hs hbound prev fin ts rest hts hclose
    obtain ⟨hlt, hread⟩ := outcome_eq_ok.mp houtcome
    exact ⟨_, hread, hbare, rfl⟩

/-- `a = b = (c || !d!) && (e as T).f(g - (h - a)) is null`. -/
def chainedExpr : Expr Unit :=
  .assign (.name "a" ()) (.assign (.name "b" ()) (.binary .and
    (.binary .or (.name "c" ()) (.unary .not (.assert (.name "d" ()) ()) ()) ())
    (.instanceTest (.call (.member (.cast (.name "e" ()) (.named ⟨"T", .none⟩) ()) ⟨"f", .none⟩ ())
      [.binary .subtract (.name "g" ()) (.binary .subtract (.name "h" ()) (.name "a" ()) ()) ()] ())
      (.null .none) ()) ()) ()) ()

/-- `if a then { if b then return; let x: T? = chained } else while c do d`, with a line break for the
semicolon and `chainedExpr` as the value. -/
def branchingStmt : Stmt Unit :=
  .ifElse (.name "a" ()) (.block [.ifThen (.name "b" ()) (.return none .none) .none,
    .define ⟨"x", .none⟩ (some (.optional ⟨"T", .none⟩ .none)) chainedExpr .none] .none)
    (.while (.name "c" ()) (.expression (.name "d" ()) .none) .none) .none

/-- The tokens of a text whose places do not matter. -/
def placed (toks : List Token) : List (Located Token) := toks.map (⟨·, .none⟩)

theorem branchingStmt_read :
    (chainedExpr.writable = true ∧ joins? (kindOf (placed [.keyword .doWord])) = none ∧
      ∃ p, expression ⟨none, placed chainedExpr.tokens ++ placed [.keyword .doWord], .none⟩ = .ok p ∧
        p.value.bare = chainedExpr.bare ∧ p.rest.tokens = placed [.keyword .doWord]) ∧
    branchingStmt.writable = true ∧ branchingStmt.isBound = true ∧
      ∃ p, statement ⟨none, placed branchingStmt.tokens ++ placed [.lineBreak], .none⟩ = .ok p ∧
        p.value.bare = branchingStmt.bare ∧ p.rest.tokens = placed [.lineBreak] := by
  have hplaced : ∀ toks, (placed toks).map (·.item) = toks := fun toks => by
    simp [placed, Function.comp_def]
  exact ⟨⟨rfl, rfl, (reads_back none .none _ _).1 chainedExpr rfl (hplaced _) rfl⟩, rfl, rfl,
    (reads_back none .none _ _).2 branchingStmt rfl rfl (hplaced _) (by decide)⟩

/-- `let a: null = b`. -/
def nullDeclared : Stmt Unit :=
  .define ⟨"a", .none⟩ (some (.null .none)) (.name "b" ()) .none

/-- No expression of `let a: null = b` has a cast and no branch is in front of an `else`, but its tokens
are not read: `null` is a type for `is` alone. -/
theorem nullDeclared_unread :
    (Expr.name "b" () : Expr Unit).writable = true ∧ nullDeclared.isBound = true ∧
      ∀ p, statement ⟨none, placed nullDeclared.tokens ++ placed [.lineBreak], .none⟩ ≠ .ok p := by
  refine ⟨rfl, rfl, fun p h => ?_⟩
  rw [statement] at h
  cases h

end ClassLang.Grammar
