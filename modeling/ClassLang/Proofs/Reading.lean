import ClassLang.Proofs.Spelling
import Mathlib.Data.Nat.Init

/-!
# Reading expressions

The tokens of an expression are read back as the expression (`expr_spells`). Every rank has its parser
(`parseAt`). On the ranks of the postfix forms and of the binary operators it is a loop that goes on
behind an operand, so reading a whole expression there (`Reads`) is no property that an induction on the
tree keeps: in `a + b + c` the tokens of `a + b` are followed by an operator of their own rank. What is
kept is `Builds`: the parser gets as far as the loop with the expression for an operand. `Spells` has
both, and `Spells.enclose` carries them to any place, if need be with parentheses.

An `outcome` is what a parser read and the cursor behind it, without the proof that tokens were used.
-/

namespace ClassLang.Grammar

/-- The value that a parser reads and the cursor behind it. -/
def outcome {α : Type} {c : Cursor} (x : Parse α c) : Except ParseError (α × Cursor) :=
  x.map fun p => (p.value, p.rest)

/-- The value that a parser reads and the cursor behind it, if it may use no token. -/
def outcome' {α : Type} {c : Cursor} (x : Continue α c) : Except ParseError (α × Cursor) :=
  x.map fun p => (p.value, p.rest)

/-- The kind of the next of some tokens. -/
def kindOf : List (Located Token) → TokenKind
  | [] => .endOfFile
  | t :: _ => t.item.kind

variable {α : Type} {prev : Option (Located Token)} {fin : Span} {t : Located Token}
  {ts rest : List (Located Token)}

theorem outcome_eq_ok {c d : Cursor} {x : Parse α c} {a : α} :
    outcome x = .ok (a, d) ↔ ∃ h, x = .ok ⟨a, d, h⟩ := by
  constructor
  · intro h
    cases x with
    | error e => cases h
    | ok p =>
      obtain ⟨b, r, hlt⟩ := p
      cases h
      exact ⟨hlt, rfl⟩
  · rintro ⟨h, rfl⟩
    rfl

theorem outcome'_eq_ok {α : Type} {c d : Cursor} {x : Continue α c} {a : α} :
    outcome' x = .ok (a, d) ↔ ∃ h, x = .ok ⟨a, d, h⟩ := by
  constructor
  · intro h
    cases x with
    | error e => cases h
    | ok p =>
      obtain ⟨b, r, hle⟩ := p
      cases h
      exact ⟨hle, rfl⟩
  · rintro ⟨h, rfl⟩
    rfl

theorem spelled_cons {t : Token} {toks : List Token} (h : ts.map (·.item) = t :: toks) :
    ∃ s ts', ts = ⟨t, s⟩ :: ts' ∧ ts'.map (·.item) = toks := by
  obtain ⟨⟨_, s⟩, ts', rfl, rfl, hrest⟩ := List.map_eq_cons_iff.mp h
  exact ⟨s, ts', rfl, hrest⟩

theorem spelled_singleton {t : Token} (h : ts.map (·.item) = [t]) : ∃ s, ts = [⟨t, s⟩] := by
  obtain ⟨s, ts', rfl, hnil⟩ := spelled_cons h
  exact ⟨s, by rw [List.map_eq_nil_iff.mp hnil]⟩

theorem kindOf_cons : kindOf (t :: ts) = t.item.kind := rfl

theorem kind_eq : Cursor.kind ⟨prev, ts, fin⟩ = kindOf ts := by cases ts <;> rfl

theorem accept_cons {k : TokenKind} : Cursor.accept? ⟨prev, t :: ts, fin⟩ k =
    if t.item.kind = k then some ⟨t, ⟨some t, ts, fin⟩, Nat.lt_succ_self ts.length⟩ else none := rfl

theorem accept_none {k : TokenKind} (h : kindOf ts ≠ k) :
    Cursor.accept? ⟨prev, ts, fin⟩ k = none := by
  cases ts with
  | nil => rfl
  | cons t ts => exact accept_cons.trans (if_neg h)

theorem expect_cons {k : TokenKind} (h : t.item.kind = k) : Cursor.expect ⟨prev, t :: ts, fin⟩ k =
    .ok ⟨t, ⟨some t, ts, fin⟩, Nat.lt_succ_self ts.length⟩ := by
  simp only [Cursor.expect, accept_cons, if_pos h]

theorem expect_keyword {w : Keyword} {s : Span} :
    Cursor.expect ⟨prev, ⟨.keyword w, s⟩ :: ts, fin⟩ (.keyword w) =
      .ok ⟨⟨.keyword w, s⟩, ⟨some ⟨.keyword w, s⟩, ts, fin⟩, Nat.lt_succ_self ts.length⟩ :=
  expect_cons rfl

theorem expect_symbol {y : Symbol} {s : Span} :
    Cursor.expect ⟨prev, ⟨.symbol y, s⟩ :: ts, fin⟩ (.symbol y) =
      .ok ⟨⟨.symbol y, s⟩, ⟨some ⟨.symbol y, s⟩, ts, fin⟩, Nat.lt_succ_self ts.length⟩ :=
  expect_cons rfl

theorem expect_lineBreak {s : Span} :
    Cursor.expect ⟨prev, ⟨.lineBreak, s⟩ :: ts, fin⟩ .lineBreak =
      .ok ⟨⟨.lineBreak, s⟩, ⟨some ⟨.lineBreak, s⟩, ts, fin⟩, Nat.lt_succ_self ts.length⟩ :=
  expect_cons rfl

theorem expectName_cons {x : String} {s : Span} :
    Cursor.expectName ⟨prev, ⟨.name x, s⟩ :: ts, fin⟩ =
      .ok ⟨⟨x, s⟩, ⟨some ⟨.name x, s⟩, ts, fin⟩, Nat.lt_succ_self ts.length⟩ := rfl

theorem chainRest_dot {e : Expr Span} {x : String} {s s' : Span} :
    outcome' (chainRest e ⟨prev, ⟨.symbol .dot, s⟩ :: ⟨.name x, s'⟩ :: ts, fin⟩) =
      outcome' (chainRest (.member e ⟨x, s'⟩ (e.note.merge s')) ⟨some ⟨.name x, s'⟩, ts, fin⟩) := by
  conv => lhs; rw [chainRest]
  simp only [accept_cons, Token.kind, ↓reduceIte, expectName_cons, bind, Except.bind]
  cases chainRest (.member e ⟨x, s'⟩ (e.note.merge s')) ⟨some ⟨.name x, s'⟩, ts, fin⟩ <;> rfl

theorem chainRest_bang {e : Expr Span} {s : Span} :
    outcome' (chainRest e ⟨prev, ⟨.symbol .bang, s⟩ :: ts, fin⟩) =
      outcome' (chainRest (.assert e (e.note.through s)) ⟨some ⟨.symbol .bang, s⟩, ts, fin⟩) := by
  conv => lhs; rw [chainRest]
  simp only [accept_cons, kind_eq, kindOf_cons, Token.kind, ↓reduceIte, reduceCtorEq,
    TokenKind.symbol.injEq, bind, Except.bind]
  rw [show Cursor.spanFrom ⟨some ⟨.symbol .bang, s⟩, ts, fin⟩ e.note = e.note.through s from rfl]
  cases chainRest (.assert e (e.note.through s)) ⟨some ⟨.symbol .bang, s⟩, ts, fin⟩ <;> rfl

theorem chainRest_paren {e : Expr Span} {d : Cursor} {args : List (Expr Span)}
    (hparen : kindOf ts = .symbol .leftParen)
    (h : outcome (arguments ⟨prev, ts, fin⟩) = .ok (args, d)) :
    outcome' (chainRest e ⟨prev, ts, fin⟩) =
      outcome' (chainRest (.call e args (d.spanFrom e.note)) d) := by
  obtain ⟨hlt, h⟩ := outcome_eq_ok.mp h
  have hdot : Cursor.accept? ⟨prev, ts, fin⟩ (.symbol .dot) = none := accept_none (by simp [hparen])
  conv => lhs; rw [chainRest]
  simp only [hdot, kind_eq, hparen, ↓reduceIte, h, bind, Except.bind]
  cases chainRest (.call e args (d.spanFrom e.note)) d <;> rfl

theorem chainRest_stop {e : Expr Span} (h : Stops 1 (kindOf ts)) :
    outcome' (chainRest e ⟨prev, ts, fin⟩) = .ok (e, ⟨prev, ts, fin⟩) := by
  have hne : kindOf ts ≠ .symbol .dot ∧ kindOf ts ≠ .symbol .leftParen ∧ kindOf ts ≠ .symbol .bang := by
    refine ⟨?_, ?_, ?_⟩ <;> intro heq <;> exact absurd (h 1 (heq ▸ rfl)) (by decide)
  rw [chainRest]
  simp only [accept_none hne.1, kind_eq, hne.2.1, accept_none hne.2.2, ↓reduceIte]
  rfl

/-! ## Binary levels -/

theorem binaryRest_is {e : Expr Span} {s : Span} {w : TypeName} {d : Cursor}
    (h : outcome (typeName true ⟨some ⟨.keyword .isWord, s⟩, ts, fin⟩) = .ok (w, d)) :
    outcome' (binaryRest comparisonLevel e ⟨prev, ⟨.keyword .isWord, s⟩ :: ts, fin⟩) =
      outcome' (binaryRest comparisonLevel (.instanceTest e w (e.note.merge w.span)) d) := by
  obtain ⟨hlt, h⟩ := outcome_eq_ok.mp h
  conv => lhs; rw [binaryRest]
  simp only [accept_cons, Token.kind, ↓reduceIte, h, bind, Except.bind]
  cases binaryRest comparisonLevel (.instanceTest e w (e.note.merge w.span)) d <;> rfl

theorem binaryRest_as {e : Expr Span} {s : Span} {w : TypeName} {d : Cursor}
    (h : outcome (typeName false ⟨some ⟨.keyword .asWord, s⟩, ts, fin⟩) = .ok (w, d)) :
    outcome' (binaryRest comparisonLevel e ⟨prev, ⟨.keyword .asWord, s⟩ :: ts, fin⟩) =
      outcome' (binaryRest comparisonLevel (.cast e w (e.note.merge w.span)) d) := by
  obtain ⟨hlt, h⟩ := outcome_eq_ok.mp h
  conv => lhs; rw [binaryRest]
  simp only [accept_cons, Token.kind, ↓reduceIte, reduceCtorEq, TokenKind.keyword.injEq, h, bind,
    Except.bind]
  cases binaryRest comparisonLevel (.cast e w (e.note.merge w.span)) d <;> rfl

theorem binaryRest_op {level : Nat} {e r : Expr Span} {op : BinaryOp} {s : Span} {d : Cursor}
    (hop : operatorAt? level (.symbol op.symbol) = some op)
    (h : outcome (binary level ⟨some ⟨.symbol op.symbol, s⟩, ts, fin⟩) = .ok (r, d)) :
    outcome' (binaryRest level e ⟨prev, ⟨.symbol op.symbol, s⟩ :: ts, fin⟩) =
      outcome' (binaryRest level (.binary op e r (e.note.merge r.note)) d) := by
  obtain ⟨hlt, h⟩ := outcome_eq_ok.mp h
  conv => lhs; rw [binaryRest]
  simp only [accept_cons, kind_eq, kindOf_cons, Token.kind, reduceCtorEq, ↓reduceIte, ite_self, hop,
    expect_symbol, h, bind, Except.bind]
  cases binaryRest level (.binary op e r (e.note.merge r.note)) d <;> rfl

/-- No operator of a level that binds tighter than what the token goes on with. -/
theorem operatorAt_stops {level : Nat} {k : TokenKind} (h : Stops (level + 3) k) :
    operatorAt? level k = none := by
  have hsymbol : ∀ s : Symbol, ∀ level < 6, ∀ op ∈ operatorAt? level (.symbol s),
      joins? (.symbol s) = some (level + 3) := by
    intro s
    cases s <;> decide
  refine Option.eq_none_iff_forall_ne_some.mpr fun op hop => ?_
  cases k with
  | symbol s =>
    have hlevel : level < 6 := by
      refine Nat.lt_of_not_le fun hge => ?_
      have hnone : operatorLevels[level]? = none := List.getElem?_eq_none hge
      simp [operatorAt?, hnone] at hop
    exact absurd (h _ (hsymbol s level hlevel op hop)) (Nat.lt_irrefl _)
  | _ => cases hop

theorem binaryRest_stop {level : Nat} {e : Expr Span} (h : Stops (level + 3) (kindOf ts)) :
    outcome' (binaryRest level e ⟨prev, ts, fin⟩) = .ok (e, ⟨prev, ts, fin⟩) := by
  have hword {w : Keyword} (hw : joins? (.keyword w) = some 5) :
      (if level = comparisonLevel then Cursor.accept? ⟨prev, ts, fin⟩ (.keyword w) else none) = none := by
    split
    · next hlevel =>
      refine accept_none fun heq => ?_
      exact absurd (h 5 (heq ▸ hw)) (by rw [hlevel]; decide)
    · rfl
  rw [binaryRest]
  simp only [hword (w := .isWord) rfl, hword (w := .asWord) rfl, kind_eq, operatorAt_stops h]
  rfl

/-! ## Types -/

theorem typeName_reads {allowNull : Bool} (w : TypeName) (hw : allowNull = true ∨ w.isNull = false)
    (hts : ts.map (·.item) = w.tokens) (hstop : kindOf rest ≠ .symbol .question) :
    ∃ w' prev', outcome (typeName allowNull ⟨prev, ts ++ rest, fin⟩) = .ok (w', ⟨prev', rest, fin⟩) ∧
      w'.bare = w.bare := by
  have hmarks : ∀ c c' prev, typeName.marks c c' ⟨prev, rest, fin⟩ =
      ⟨⟨prev, rest, fin⟩, Nat.le_refl _⟩ := by
    intro c c' prev
    rw [typeName.marks]
    simp only [accept_none hstop]
  cases w with
  | null s =>
    obtain rfl : allowNull = true := by simpa [TypeName.isNull] using hw
    obtain ⟨s', rfl⟩ := spelled_singleton hts
    exact ⟨.null s', _, rfl, rfl⟩
  | named x =>
    obtain ⟨s', rfl⟩ := spelled_singleton hts
    refine ⟨.named ⟨x.name, s'⟩, some ⟨.name x.name, s'⟩, ?_, rfl⟩
    have hnull : Cursor.accept? ⟨prev, ⟨.name x.name, s'⟩ :: rest, fin⟩ (.keyword .nullWord) = none :=
      accept_none (by simp [kindOf, Token.kind])
    simp only [typeName, List.singleton_append, hnull, ite_self, expectName_cons, accept_none hstop,
      bind, Except.bind]
    rfl
  | optional x s =>
    obtain ⟨s', _, rfl, hmark⟩ := spelled_cons hts
    obtain ⟨s'', rfl⟩ := spelled_singleton hmark
    refine ⟨.optional ⟨x.name, s'⟩ (s'.through s''), some ⟨.symbol .question, s''⟩, ?_, rfl⟩
    have hnull : Cursor.accept? ⟨prev, ⟨.name x.name, s'⟩ :: ⟨.symbol .question, s''⟩ :: rest, fin⟩
        (.keyword .nullWord) = none := accept_none (by simp [kindOf, Token.kind])
    simp only [typeName, List.cons_append, List.nil_append, hnull, ite_self, expectName_cons,
      accept_cons, Token.kind, ↓reduceIte, hmarks, bind, Except.bind]
    rfl

/-! ## Ranks -/

/-- The parser of the expressions up to a rank. -/
def parseAt (rank : Nat) (c : Cursor) : Parse (Expr Span) c :=
  match rank with
  | 0 => primary c
  | 1 => chain c
  | height + 2 => if height ≤ 6 then binary height c else expression c

theorem parseAt_binary {level : Nat} (h : level ≤ 6) (c : Cursor) :
    parseAt (level + 2) c = binary level c := if_pos h

/-- Expressions of this rank are read in a loop that goes on behind an operand. -/
def Loops (rank : Nat) : Prop := rank = 1 ∨ 3 ≤ rank ∧ rank ≤ 8

/-- The loop of a rank behind an operand. -/
def goOn (rank : Nat) (e : Expr Span) (c : Cursor) : Continue (Expr Span) c :=
  if rank = 1 then chainRest e c else binaryRest (rank - 3) e c

theorem goOn_stop {rank : Nat} (hloop : Loops rank) {e : Expr Span} (h : Stops rank (kindOf ts)) :
    outcome' (goOn rank e ⟨prev, ts, fin⟩) = .ok (e, ⟨prev, ts, fin⟩) := by
  rcases hloop with rfl | ⟨hle, _⟩
  · exact chainRest_stop h
  · obtain ⟨level, rfl⟩ := Nat.exists_eq_add_of_le' hle
    exact binaryRest_stop h

/-- An operand of a lower rank starts the loop. -/
theorem parseAt_loop {rank : Nat} (hloop : Loops (rank + 1)) {c d : Cursor} {e : Expr Span}
    (h : outcome (parseAt rank c) = .ok (e, d)) :
    outcome (parseAt (rank + 1) c) = outcome' (goOn (rank + 1) e d) := by
  obtain ⟨hlt, h⟩ := outcome_eq_ok.mp h
  rcases hloop with hone | ⟨hle, hge⟩
  · obtain rfl : rank = 0 := by omega
    have hprimary : primary c = .ok ⟨e, d, hlt⟩ := h
    show outcome (chain c) = outcome' (chainRest e d)
    rw [chain]
    simp only [hprimary, bind, Except.bind]
    cases chainRest e d <;> rfl
  · obtain ⟨level, rfl⟩ : ∃ level, rank = level + 2 := ⟨rank - 2, by omega⟩
    rw [parseAt_binary (by omega)] at h
    rw [show level + 2 + 1 = level + 1 + 2 from rfl, parseAt_binary (by omega), binary]
    simp only [h, bind, Except.bind]
    show _ = outcome' (binaryRest level e d)
    cases binaryRest level e d <;> rfl

/-- Tokens are read as an expression of a rank: in front of a token that ends it, the parser of the rank
returns the expression and stops there. -/
def Reads (rank : Nat) (v : Expr Unit) (toks : List Token) : Prop :=
  ∀ prev fin (ts rest : List (Located Token)), ts.map (·.item) = toks → Stops rank (kindOf rest) →
    ∃ e prev', outcome (parseAt rank ⟨prev, ts ++ rest, fin⟩) = .ok (e, ⟨prev', rest, fin⟩) ∧ e.bare = v

/-- Tokens are read as an operand of the loop of a rank, which goes on behind them. -/
def Builds (rank : Nat) (v : Expr Unit) (toks : List Token) : Prop :=
  ∀ prev fin (ts rest : List (Located Token)), ts.map (·.item) = toks →
    Stops (rank - 1) (kindOf rest) → ∃ e prev',
      outcome (parseAt rank ⟨prev, ts ++ rest, fin⟩) = outcome' (goOn rank e ⟨prev', rest, fin⟩) ∧
        e.bare = v

/-- Tokens spell an expression of a rank. -/
structure Spells (rank : Nat) (v : Expr Unit) (toks : List Token) : Prop where
  begins : Begins rank toks
  reads : Reads rank v toks
  builds : Loops rank → Builds rank v toks

section

variable {rank limit : Nat} {v : Expr Unit} {toks : List Token}

theorem Builds.reads (hloop : Loops rank) (h : Builds rank v toks) : Reads rank v toks := by
  intro prev fin ts rest hts hstop
  obtain ⟨e, prev', houtcome, he⟩ := h prev fin ts rest hts (hstop.mono (Nat.sub_le _ _))
  exact ⟨e, prev', houtcome.trans (goOn_stop hloop hstop), he⟩

theorem Reads.builds (hloop : Loops (rank + 1)) (h : Reads rank v toks) : Builds (rank + 1) v toks := by
  intro prev fin ts rest hts hstop
  obtain ⟨e, prev', houtcome, he⟩ := h prev fin ts rest hts hstop
  exact ⟨e, prev', parseAt_loop hloop houtcome, he⟩

theorem kindOf_begins {t : Token} {toks : List Token} (h : ts.map (·.item) = t :: toks) :
    kindOf (ts ++ rest) = t.kind := by
  obtain ⟨t', _, rfl, rfl, _⟩ := List.map_eq_cons_iff.mp h
  rfl

/-- Without a prefix operator in front an operand is a chain. -/
theorem Reads.prefixed (hbegins : Begins 1 toks) (h : Reads 1 v toks) : Reads 2 v toks := by
  intro prev fin ts rest hts hstop
  obtain ⟨t, toks', rfl, _, hplain⟩ := hbegins
  have hkind : unaryOp? (Cursor.kind ⟨prev, ts ++ rest, fin⟩) = none := by
    rw [kind_eq, kindOf_begins hts]
    exact hplain (Nat.le_refl _)
  have hunary : parseAt 2 ⟨prev, ts ++ rest, fin⟩ = parseAt 1 ⟨prev, ts ++ rest, fin⟩ := by
    show binary 0 _ = chain _
    rw [binary, unary, hkind]
  rw [hunary]
  exact h prev fin ts rest hts (hstop.mono (Nat.le_succ 1))

/-- Without `=` behind it an expression is no assignment. -/
theorem Reads.unassigned (h : Reads 8 v toks) : Reads 9 v toks := by
  intro prev fin ts rest hts hstop
  obtain ⟨e, prev', houtcome, he⟩ := h prev fin ts rest hts (hstop.mono (Nat.le_succ 8))
  refine ⟨e, prev', ?_, he⟩
  obtain ⟨hlt, htarget⟩ := outcome_eq_ok.mp houtcome
  have hbinary : binary 6 ⟨prev, ts ++ rest, fin⟩ = .ok ⟨e, ⟨prev', rest, fin⟩, hlt⟩ := htarget
  have hequal : kindOf rest ≠ .symbol .equal := fun heq =>
    absurd (hstop 9 (heq ▸ rfl)) (Nat.lt_irrefl _)
  show outcome (expression _) = _
  rw [expression]
  simp only [hbinary, accept_none hequal, bind, Except.bind]
  rfl

/-- What a tight place allows, a loose one does. -/
theorem Reads.mono (hle : rank ≤ limit) (hlimit : limit ≤ 9) (hbegins : Begins rank toks)
    (h : Reads rank v toks) : Reads limit v toks := by
  induction limit, hle using Nat.le_induction with
  | base => exact h
  | succ limit hle ih =>
    have hreads := ih (by omega)
    by_cases hone : limit = 1
    · subst hone
      exact hreads.prefixed (hbegins.mono hle)
    · by_cases height : limit = 8
      · subst height
        exact hreads.unassigned
      · have hloop : Loops (limit + 1) := by
          unfold Loops
          omega
        exact (hreads.builds hloop).reads hloop

/-- Parentheses make an expression a primary one. -/
theorem Reads.enclosed (h : Reads 9 v toks) :
    Reads 0 v (.symbol .leftParen :: (toks ++ [.symbol .rightParen])) := by
  intro prev fin ts rest hts _
  obtain ⟨s, ts, rfl, hbehind⟩ := spelled_cons hts
  obtain ⟨inner, _, rfl, hinner, hclose⟩ := List.map_eq_append_iff.mp hbehind
  obtain ⟨s', rfl⟩ := spelled_singleton hclose
  obtain ⟨e, prev', houtcome, he⟩ := h (some ⟨.symbol .leftParen, s⟩) fin inner
    (⟨.symbol .rightParen, s'⟩ :: rest) hinner (.of_none rfl)
  obtain ⟨hlt, hexpr⟩ := outcome_eq_ok.mp houtcome
  have hexpr : expression ⟨some ⟨.symbol .leftParen, s⟩,
      inner ++ ⟨.symbol .rightParen, s'⟩ :: rest, fin⟩ = .ok ⟨e, _, hlt⟩ := hexpr
  refine ⟨e, some ⟨.symbol .rightParen, s'⟩, ?_, he⟩
  show outcome (primary _) = _
  rw [primary]
  simp only [List.cons_append, List.append_assoc, List.nil_append, accept_cons, Token.kind,
    reduceCtorEq, ↓reduceIte, hexpr, expect_symbol, bind, Except.bind]
  rfl

theorem Spells.of_reads (hbegins : Begins rank toks) (hloop : ¬ Loops rank) (h : Reads rank v toks) :
    Spells rank v toks := ⟨hbegins, h, fun h' => absurd h' hloop⟩

theorem Spells.of_builds (hbegins : Begins rank toks) (hloop : Loops rank) (h : Builds rank v toks) :
    Spells rank v toks := ⟨hbegins, h.reads hloop, fun _ => h⟩

/-- An expression is spelled at any place, if need be in parentheses. -/
theorem Spells.enclose (h : Spells rank v toks) (hrank : rank ≤ 9) (hlimit : limit ≤ 9) :
    Spells limit v (Expr.enclose limit rank toks) := by
  have hloose : Reads 9 v toks := h.reads.mono hrank (Nat.le_refl _) h.begins
  have hparen : Begins 0 (.symbol .leftParen :: (toks ++ [.symbol .rightParen])) :=
    ⟨_, _, rfl, rfl, fun _ => rfl⟩
  -- At a place below the limit the tokens are read, so the loop of the limit can start with them.
  have hstart {toks' : List Token} {rank' : Nat} (hlt : rank' < limit) (hbegins : Begins rank' toks')
      (hreads : Reads rank' v toks') : Spells limit v toks' := by
    refine ⟨hbegins.mono (Nat.le_of_lt hlt), hreads.mono (Nat.le_of_lt hlt) hlimit hbegins,
      fun hloop => ?_⟩
    obtain ⟨below, rfl⟩ : ∃ below, limit = below + 1 := ⟨limit - 1, by omega⟩
    exact (hreads.mono (by omega) (by omega) hbegins).builds hloop
  unfold Expr.enclose
  split
  · next hle =>
    rcases Nat.lt_or_eq_of_le hle with hlt | rfl
    · exact hstart hlt h.begins h.reads
    · exact h
  · by_cases hzero : limit = 0
    · subst hzero
      exact .of_reads hparen (by unfold Loops; omega) hloose.enclosed
    · exact hstart (by omega) hparen hloose.enclosed

end

/-! ## Forms of expressions -/

theorem spells_atom {t : Token} {v : Expr Unit}
    (hbegins : Begins 0 [t]) (hnew : t.kind ≠ .keyword .newWord)
    (hparen : t.kind ≠ .symbol .leftParen) (hatom : ∀ s, ∃ e, atom? t s = some e ∧ e.bare = v) :
    Spells 0 v [t] := by
  refine .of_reads hbegins (by unfold Loops; omega) fun prev fin ts rest hts _ => ?_
  obtain ⟨s, rfl⟩ := spelled_singleton hts
  obtain ⟨e, he, hv⟩ := hatom s
  have hexpect := @expect_cons prev fin ⟨t, s⟩ rest t.kind rfl
  refine ⟨e, some ⟨t, s⟩, ?_, hv⟩
  show outcome (primary _) = _
  rw [primary]
  simp only [List.singleton_append, accept_cons, if_neg hnew, if_neg hparen, Cursor.current,
    Cursor.span, List.headD_cons, he, kind_eq, kindOf_cons, hexpect, bind, Except.bind]
  rfl

/-- Tokens are read as arguments in front of a closing parenthesis. -/
def ReadsList (vs : List (Expr Unit)) (toks : List Token) : Prop :=
  ∀ prev fin (ts rest : List (Located Token)), ts.map (·.item) = toks →
    kindOf rest = .symbol .rightParen → ∃ es prev',
      outcome (argumentList ⟨prev, ts ++ rest, fin⟩) = .ok (es, ⟨prev', rest, fin⟩) ∧
        Expr.bareList es = vs

/-- Arguments are read with the parentheses around them. -/
theorem arguments_read {ν : Type} {es : List (Expr ν)}
    (h : es ≠ [] → Begins 9 (Expr.tokensList es) ∧ ReadsList (Expr.bareList es) (Expr.tokensList es))
    (hts : ts.map (·.item) =
      .symbol .leftParen :: (Expr.tokensList es ++ [.symbol .rightParen])) : ∃ es' prev',
      outcome (arguments ⟨prev, ts ++ rest, fin⟩) = .ok (es', ⟨prev', rest, fin⟩) ∧
        Expr.bareList es' = Expr.bareList es := by
  obtain ⟨s, ts, rfl, hbehind⟩ := spelled_cons hts
  obtain ⟨inner, _, rfl, hinner, hclose⟩ := List.map_eq_append_iff.mp hbehind
  obtain ⟨s', rfl⟩ := spelled_singleton hclose
  rw [List.cons_append, List.append_assoc, List.singleton_append]
  cases es with
  | nil =>
    obtain rfl := List.map_eq_nil_iff.mp hinner
    refine ⟨[], some ⟨.symbol .rightParen, s'⟩, ?_, rfl⟩
    rw [arguments]
    simp only [List.nil_append, Except.bind, bind]
    rfl
  | cons e es =>
    obtain ⟨⟨t, toks, htoks, hstart, _⟩, hlist⟩ := h (by simp)
    obtain ⟨args, prev', houtcome, hargs⟩ := hlist (some ⟨.symbol .leftParen, s⟩) fin inner
      (⟨.symbol .rightParen, s'⟩ :: rest) hinner rfl
    obtain ⟨hlt, hargs'⟩ := outcome_eq_ok.mp houtcome
    have hfirst : kindOf (inner ++ ⟨.symbol .rightParen, s'⟩ :: rest) ≠ .symbol .rightParen := by
      rw [kindOf_begins (hinner.trans htoks)]
      intro heq
      rw [heq] at hstart
      cases hstart
    refine ⟨args, some ⟨.symbol .rightParen, s'⟩, ?_, hargs⟩
    rw [arguments]
    simp only [expect_symbol, accept_none hfirst, hargs', bind, Except.bind]
    rfl

section

variable {v v' : Expr Unit} {toks toks' : List Token}

theorem spells_member {x : Ident} (h : Spells 1 v toks) :
    Spells 1 (.member v ⟨x.name, .none⟩ ()) (toks ++ [.symbol .dot, .name x.name]) := by
  refine .of_builds (h.begins.append _) (.inl rfl) fun prev fin ts rest hts _ => ?_
  obtain ⟨object, _, rfl, hobject, hbehind⟩ := List.map_eq_append_iff.mp hts
  obtain ⟨s, _, rfl, hname⟩ := spelled_cons hbehind
  obtain ⟨s', rfl⟩ := spelled_singleton hname
  obtain ⟨e, prev', houtcome, rfl⟩ := h.builds (.inl rfl) prev fin object
    (⟨.symbol .dot, s⟩ :: ⟨.name x.name, s'⟩ :: rest) hobject (.of_looser rfl (by decide))
  refine ⟨.member e ⟨x.name, s'⟩ (e.note.merge s'), some ⟨.name x.name, s'⟩, ?_, rfl⟩
  rw [List.append_assoc]
  exact houtcome.trans chainRest_dot

theorem spells_assert (h : Spells 1 v toks) : Spells 1 (.assert v ()) (toks ++ [.symbol .bang]) := by
  refine .of_builds (h.begins.append _) (.inl rfl) fun prev fin ts rest hts _ => ?_
  obtain ⟨operand, _, rfl, hoperand, hbang⟩ := List.map_eq_append_iff.mp hts
  obtain ⟨s, rfl⟩ := spelled_singleton hbang
  obtain ⟨e, prev', houtcome, rfl⟩ := h.builds (.inl rfl) prev fin operand
    (⟨.symbol .bang, s⟩ :: rest) hoperand (.of_looser rfl (by decide))
  refine ⟨.assert e (e.note.through s), some ⟨.symbol .bang, s⟩, ?_, rfl⟩
  rw [List.append_assoc]
  exact houtcome.trans chainRest_bang

theorem spells_call {ν : Type} {es : List (Expr ν)} (h : Spells 1 v toks)
    (hes : es ≠ [] →
      Begins 9 (Expr.tokensList es) ∧ ReadsList (Expr.bareList es) (Expr.tokensList es)) :
    Spells 1 (.call v (Expr.bareList es) ())
      (toks ++ .symbol .leftParen :: (Expr.tokensList es ++ [.symbol .rightParen])) := by
  refine .of_builds (h.begins.append _) (.inl rfl) fun prev fin ts rest hts _ => ?_
  obtain ⟨callee, args, rfl, hcallee, hargs⟩ := List.map_eq_append_iff.mp hts
  have hparen : kindOf (args ++ rest) = .symbol .leftParen := kindOf_begins hargs
  obtain ⟨e, prev', houtcome, rfl⟩ := h.builds (.inl rfl) prev fin callee (args ++ rest) hcallee
    (by rw [hparen]; exact .of_looser rfl (by decide))
  obtain ⟨es', prev'', hread, hbare⟩ := @arguments_read prev' fin args rest _ es hes hargs
  refine ⟨.call e es' (Cursor.spanFrom ⟨prev'', rest, fin⟩ e.note), prev'', ?_,
    by rw [Expr.bare, hbare]⟩
  rw [List.append_assoc]
  exact houtcome.trans (chainRest_paren hparen hread)

theorem spells_new {ν : Type} {c : Ident} {es : List (Expr ν)}
    (hes : es ≠ [] →
      Begins 9 (Expr.tokensList es) ∧ ReadsList (Expr.bareList es) (Expr.tokensList es)) :
    Spells 0 (.new ⟨c.name, .none⟩ (Expr.bareList es) ()) (.keyword .newWord :: .name c.name ::
      .symbol .leftParen :: (Expr.tokensList es ++ [.symbol .rightParen])) := by
  refine .of_reads ⟨_, _, rfl, rfl, fun _ => rfl⟩ (by unfold Loops; omega) fun prev fin ts rest hts _ => ?_
  obtain ⟨s, _, rfl, hname⟩ := spelled_cons hts
  obtain ⟨s', args, rfl, hargs⟩ := spelled_cons hname
  obtain ⟨es', prev', hread, hbare⟩ :=
    @arguments_read (some ⟨.name c.name, s'⟩) fin args rest _ es hes hargs
  obtain ⟨hlt, hread⟩ := outcome_eq_ok.mp hread
  refine ⟨.new ⟨c.name, s'⟩ es' (Cursor.spanFrom ⟨prev', rest, fin⟩ s), prev', ?_,
    by rw [Expr.bare, hbare]⟩
  show outcome (primary _) = _
  rw [primary]
  simp only [List.cons_append, accept_cons, Token.kind, ↓reduceIte, expectName_cons, hread, bind,
    Except.bind]
  rfl

/-- An operand behind a prefix operator. -/
theorem spells_unary {op : UnaryOp} (h : Spells 2 v toks) :
    Spells 2 (.unary op v ()) (.symbol op.symbol :: toks) := by
  refine .of_reads ⟨_, _, rfl, by cases op <;> rfl, fun h => absurd h (Nat.not_succ_le_self 1)⟩
    (by unfold Loops; omega) fun prev fin ts rest hts hstop => ?_
  obtain ⟨s, operand, rfl, hoperand⟩ := spelled_cons hts
  obtain ⟨e, prev', houtcome, rfl⟩ := h.reads (some ⟨.symbol op.symbol, s⟩) fin operand rest hoperand hstop
  obtain ⟨hlt, hread⟩ := outcome_eq_ok.mp houtcome
  have hread : unary ⟨some ⟨.symbol op.symbol, s⟩, operand ++ rest, fin⟩ =
      .ok ⟨e, ⟨prev', rest, fin⟩, hlt⟩ := by
    rw [← hread]
    show _ = binary 0 _
    rw [binary]
  have hop : unaryOp? (.symbol op.symbol) = some op := by cases op <;> rfl
  refine ⟨.unary op e (s.merge e.note), prev', ?_, rfl⟩
  show outcome (binary 0 _) = _
  rw [binary, unary]
  simp only [List.cons_append, kind_eq, kindOf_cons, Token.kind, hop, expect_symbol, hread, bind,
    Except.bind]
  rfl

/-- Operators between operands group to the left. -/
theorem spells_binary {op : BinaryOp} (h : Spells op.rank v toks) (h' : Spells (op.rank - 1) v' toks') :
    Spells op.rank (.binary op v v' ()) (toks ++ .symbol op.symbol :: toks') := by
  obtain ⟨level, hlevel, hop, hloop, hjoins⟩ : ∃ level, op.rank = level + 3 ∧
      operatorAt? level (.symbol op.symbol) = some op ∧ level ≤ 5 ∧
        joins? (.symbol op.symbol) = some (level + 3) := by
    cases op <;> exact ⟨_, rfl, rfl, by decide, rfl⟩
  have hlevel' : level ≤ 6 := Nat.le_succ_of_le hloop
  have hloop : Loops (level + 3) := .inr ⟨Nat.le_add_left .., Nat.add_le_add_right hloop 3⟩
  rw [hlevel] at h h' ⊢
  refine .of_builds (h.begins.append _) hloop fun prev fin ts rest hts hstop => ?_
  obtain ⟨left, _, rfl, hleft, hbehind⟩ := List.map_eq_append_iff.mp hts
  obtain ⟨s, right, rfl, hright⟩ := spelled_cons hbehind
  have hstops : Stops (level + 2) (.symbol op.symbol) := .of_looser hjoins (Nat.lt_succ_self _)
  obtain ⟨l, prev', houtcome, rfl⟩ := h.builds hloop prev fin left
    (⟨.symbol op.symbol, s⟩ :: (right ++ rest)) hleft hstops
  obtain ⟨r, prev'', hread, rfl⟩ := h'.reads (some ⟨.symbol op.symbol, s⟩) fin right rest hright hstop
  have hread : outcome (binary level ⟨some ⟨.symbol op.symbol, s⟩, right ++ rest, fin⟩) =
      .ok (r, ⟨prev'', rest, fin⟩) := parseAt_binary hlevel' _ ▸ hread
  refine ⟨.binary op l r (l.note.merge r.note), prev'', ?_, rfl⟩
  rw [List.append_assoc]
  exact houtcome.trans (binaryRest_op hop hread)

theorem spells_instanceTest {w : TypeName} (h : Spells 5 v toks) :
    Spells 5 (.instanceTest v w.bare ()) (toks ++ .keyword .isWord :: w.tokens) := by
  refine .of_builds (h.begins.append _) (.inr (by decide)) fun prev fin ts rest hts hstop => ?_
  obtain ⟨operand, _, rfl, hoperand, hbehind⟩ := List.map_eq_append_iff.mp hts
  obtain ⟨s, target, rfl, htarget⟩ := spelled_cons hbehind
  obtain ⟨e, prev', houtcome, rfl⟩ := h.builds (.inr (by decide)) prev fin operand
    (⟨.keyword .isWord, s⟩ :: (target ++ rest)) hoperand (.of_looser rfl (by decide))
  obtain ⟨w', prev'', hread, hw⟩ := @typeName_reads (some ⟨.keyword .isWord, s⟩) fin target rest true w
    (.inl rfl) htarget hstop.ne_question
  refine ⟨.instanceTest e w' (e.note.merge w'.span), prev'', ?_, by rw [Expr.bare, hw]⟩
  rw [List.append_assoc]
  exact houtcome.trans (binaryRest_is hread)

theorem spells_cast {w : TypeName} (hnull : w.isNull = false) (h : Spells 5 v toks) :
    Spells 5 (.cast v w.bare ()) (toks ++ .keyword .asWord :: w.tokens) := by
  refine .of_builds (h.begins.append _) (.inr (by decide)) fun prev fin ts rest hts hstop => ?_
  obtain ⟨operand, _, rfl, hoperand, hbehind⟩ := List.map_eq_append_iff.mp hts
  obtain ⟨s, target, rfl, htarget⟩ := spelled_cons hbehind
  obtain ⟨e, prev', houtcome, rfl⟩ := h.builds (.inr (by decide)) prev fin operand
    (⟨.keyword .asWord, s⟩ :: (target ++ rest)) hoperand (.of_looser rfl (by decide))
  obtain ⟨w', prev'', hread, hw⟩ := @typeName_reads (some ⟨.keyword .asWord, s⟩) fin target rest false w
    (.inr hnull) htarget hstop.ne_question
  refine ⟨.cast e w' (e.note.merge w'.span), prev'', ?_, by rw [Expr.bare, hw]⟩
  rw [List.append_assoc]
  exact houtcome.trans (binaryRest_as hread)

/-- Assignments group to the right. -/
theorem spells_assign (h : Spells 8 v toks) (h' : Spells 9 v' toks') :
    Spells 9 (.assign v v' ()) (toks ++ .symbol .equal :: toks') := by
  refine .of_reads ((h.begins.mono (Nat.le_succ 8)).append _) (by unfold Loops; omega)
    fun prev fin ts rest hts hstop => ?_
  obtain ⟨target, _, rfl, htarget, hbehind⟩ := List.map_eq_append_iff.mp hts
  obtain ⟨s, value, rfl, hvalue⟩ := spelled_cons hbehind
  obtain ⟨e, prev', houtcome, rfl⟩ := h.reads prev fin target (⟨.symbol .equal, s⟩ :: (value ++ rest))
    htarget (.of_looser rfl (by decide))
  obtain ⟨e', prev'', houtcome', rfl⟩ := h'.reads (some ⟨.symbol .equal, s⟩) fin value rest hvalue hstop
  obtain ⟨hlt, hread⟩ := outcome_eq_ok.mp houtcome
  obtain ⟨hlt', hread'⟩ := outcome_eq_ok.mp houtcome'
  have hread : binary 6 ⟨prev, target ++ ⟨.symbol .equal, s⟩ :: (value ++ rest), fin⟩ = .ok ⟨e, _, hlt⟩ :=
    hread
  have hread' : expression ⟨some ⟨.symbol .equal, s⟩, value ++ rest, fin⟩ = .ok ⟨e', _, hlt'⟩ := hread'
  refine ⟨.assign e e' (e.note.merge e'.note), prev'', ?_, rfl⟩
  show outcome (expression _) = _
  rw [List.append_assoc, List.cons_append, expression]
  simp only [hread, accept_cons, Token.kind, ↓reduceIte, hread', bind, Except.bind]
  rfl

end

theorem rank_le {ν : Type} (e : Expr ν) : e.rank ≤ 9 := by
  cases e with
  | binary op _ _ _ => cases op <;> simp [Expr.rank, BinaryOp.rank]
  | _ => simp [Expr.rank]

theorem list_begins {ν : Type} {es : List (Expr ν)} (h : es ≠ []) : Begins 9 (Expr.tokensList es) := by
  match es with
  | [e] => exact (begins_tokens e).mono (rank_le e)
  | e :: e' :: es => exact ((begins_tokens e).mono (rank_le e)).append _

mutual

/-- The tokens of an expression spell it. -/
theorem expr_spells {ν : Type} : ∀ e : Expr ν, e.writable = true → Spells e.rank e.bare e.tokens
  | .number x _, _ => spells_atom ⟨_, _, rfl, rfl, fun _ => rfl⟩ nofun nofun fun _ => ⟨_, rfl, rfl⟩
  | .string x _, _ => spells_atom ⟨_, _, rfl, rfl, fun _ => rfl⟩ nofun nofun fun _ => ⟨_, rfl, rfl⟩
  | .boolean true _, _ => spells_atom ⟨_, _, rfl, rfl, fun _ => rfl⟩ nofun nofun fun _ => ⟨_, rfl, rfl⟩
  | .boolean false _, _ => spells_atom ⟨_, _, rfl, rfl, fun _ => rfl⟩ nofun nofun fun _ => ⟨_, rfl, rfl⟩
  | .null _, _ => spells_atom ⟨_, _, rfl, rfl, fun _ => rfl⟩ nofun nofun fun _ => ⟨_, rfl, rfl⟩
  | .name _ _, _ => spells_atom ⟨_, _, rfl, rfl, fun _ => rfl⟩ nofun nofun fun _ => ⟨_, rfl, rfl⟩
  | .this _, _ => spells_atom ⟨_, _, rfl, rfl, fun _ => rfl⟩ nofun nofun fun _ => ⟨_, rfl, rfl⟩
  | .base _, _ => spells_atom ⟨_, _, rfl, rfl, fun _ => rfl⟩ nofun nofun fun _ => ⟨_, rfl, rfl⟩
  | .member e x _, h => spells_member ((expr_spells e h).enclose (rank_le e) (by decide))
  | .call e es _, h => by
    rw [Expr.writable, Bool.and_eq_true] at h
    exact spells_call ((expr_spells e h.1).enclose (rank_le e) (by decide)) fun hne =>
      ⟨list_begins hne, list_reads es h.2 hne⟩
  | .new c es _, h => spells_new fun hne => ⟨list_begins hne, list_reads es h hne⟩
  | .assign e v _, h => by
    rw [Expr.writable, Bool.and_eq_true] at h
    have hvalue := (expr_spells v h.2).reads.mono (rank_le v) (Nat.le_refl 9) (begins_tokens v)
    exact spells_assign ((expr_spells e h.1).enclose (rank_le e) (by decide))
      (.of_reads ((begins_tokens v).mono (rank_le v)) (by unfold Loops; omega) hvalue)
  | .binary op l r n, h => by
    rw [Expr.writable, Bool.and_eq_true] at h
    have hop : op.rank ≤ 9 := rank_le (Expr.binary op l r n)
    exact spells_binary ((expr_spells l h.1).enclose (rank_le l) hop)
      ((expr_spells r h.2).enclose (rank_le r) (by omega))
  | .unary op e _, h => spells_unary ((expr_spells e h).enclose (rank_le e) (by decide))
  | .assert e _, h => spells_assert ((expr_spells e h).enclose (rank_le e) (by decide))
  | .instanceTest e w _, h => spells_instanceTest ((expr_spells e h).enclose (rank_le e) (by decide))
  | .cast e w _, h => by
    rw [Expr.writable, Bool.and_eq_true, Bool.not_eq_true'] at h
    exact spells_cast h.2 ((expr_spells e h.1).enclose (rank_le e) (by decide))

theorem list_reads {ν : Type} : ∀ es : List (Expr ν), Expr.writableList es = true → es ≠ [] →
    ReadsList (Expr.bareList es) (Expr.tokensList es)
  | [e], h, _ => by
    intro prev fin ts rest hts hclose
    rw [Expr.writableList, Bool.and_eq_true] at h
    have hreads := (expr_spells e h.1).reads.mono (rank_le e) (Nat.le_refl 9) (begins_tokens e)
    obtain ⟨e', prev', houtcome, he⟩ := hreads prev fin ts rest hts (.of_none (hclose ▸ rfl))
    obtain ⟨hlt, hread⟩ := outcome_eq_ok.mp houtcome
    have hread : expression ⟨prev, ts ++ rest, fin⟩ = .ok ⟨e', _, hlt⟩ := hread
    have hcomma : kindOf rest ≠ .symbol .comma := by simp [hclose]
    refine ⟨[e'], prev', ?_, by rw [Expr.bareList, Expr.bareList, he]; rfl⟩
    rw [argumentList]
    simp only [hread, accept_none hcomma, bind, Except.bind]
    rfl
  | e :: e' :: es, h, _ => by
    intro prev fin ts rest hts hclose
    rw [Expr.writableList, Bool.and_eq_true] at h
    have hreads := (expr_spells e h.1).reads.mono (rank_le e) (Nat.le_refl 9) (begins_tokens e)
    obtain ⟨first, _, rfl, hfirst, hbehind⟩ := List.map_eq_append_iff.mp hts
    obtain ⟨s, others, rfl, hothers⟩ := spelled_cons hbehind
    obtain ⟨a, prev', houtcome, ha⟩ := hreads prev fin first (⟨.symbol .comma, s⟩ :: (others ++ rest))
      hfirst (.of_none rfl)
    obtain ⟨as, prev'', houtcome', has⟩ := list_reads (e' :: es) h.2 (by simp)
      (some ⟨.symbol .comma, s⟩) fin others rest hothers hclose
    obtain ⟨hlt, hread⟩ := outcome_eq_ok.mp houtcome
    obtain ⟨hlt', hread'⟩ := outcome_eq_ok.mp houtcome'
    have hread : expression ⟨prev, first ++ ⟨.symbol .comma, s⟩ :: (others ++ rest), fin⟩ =
      .ok ⟨a, _, hlt⟩ := hread
    refine ⟨a :: as, prev'', ?_, by rw [Expr.bareList, ha, has]; rfl⟩
    rw [List.append_assoc, List.cons_append, argumentList]
    simp only [hread, accept_cons, Token.kind, ↓reduceIte, hread', bind, Except.bind]
    rfl

end

end ClassLang.Grammar
