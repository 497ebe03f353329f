import ClassLang.Proofs.Derivation
import Mathlib.Logic.Basic

/-!
# Places do not matter to the parsers

Two cursors in front of the same tokens, wherever these stand (`Cursor.Like`), are read alike: both runs
give trees that differ in places only, or both fail for the same reason in front of the same token
(`Agree`). Of what stands in front of a cursor only whether a line starts there matters, and that to
recovery alone. There is a lemma for each parser; `Agree.sequence` is what they share.
-/

namespace ClassLang

/-! ## Trees without places -/

/-- The name of a method without the place where it was written. -/
def MethodName.bare : MethodName → MethodName
  | .named x => .named ⟨x.name, .none⟩
  | .binary op _ => .binary op .none
  | .unary op _ => .unary op .none

/-- The parameter without the places where its parts were written. -/
def Param.bare (p : Param) : Param := ⟨⟨p.name.name, .none⟩, p.type.bare, .none⟩

variable {ν : Type}

/-- The member without notes and without the places where its parts were written. -/
def MemberDecl.bare : MemberDecl ν → MemberDecl Unit
  | .field d => .field ⟨d.access, ⟨d.name.name, .none⟩, d.type.bare, d.initializer.map Expr.bare, .none⟩
  | .method d => .method ⟨d.access, d.isOverride, d.name.bare, d.params.map Param.bare,
      d.returns.map TypeName.bare, d.body.bare, .none⟩
  | .constructor d => .constructor ⟨d.access, d.params.map Param.bare,
      d.baseArguments.map Expr.bareList, d.body.bare, .none⟩

/-- The class without notes and without the places where its parts were written. -/
def ClassDecl.bare (c : ClassDecl ν) : ClassDecl Unit :=
  ⟨⟨c.name.name, .none⟩, c.parent.map fun x => ⟨x.name, .none⟩, c.members.map MemberDecl.bare, .none⟩

/-- The program without notes and without the places where its parts were written. -/
def Program.bare (p : Program ν) : Program Unit := ⟨p.classes.map ClassDecl.bare, .none⟩

/-- What a syntax error says, without the place where it is found. -/
def ParseError.bare (e : ParseError) : ParseCause × Option ParseAdvice := (e.cause, e.advice)

/-! ## Like cursors -/

/-- Two cursors stand in front of the same tokens. -/
structure Cursor.Like (c d : Cursor) : Prop where
  items : d.tokens.map (·.item) = c.tokens.map (·.item)
  startsLine : Grammar.startsLine d.previous = Grammar.startsLine c.previous

namespace Cursor.Like

variable {c d : Cursor}

theorem size (h : Like c d) : d.size = c.size := by
  have hlen := congrArg List.length h.items
  rwa [List.length_map, List.length_map] at hlen

theorem current (h : Like c d) : d.current.item = c.current.item := by
  obtain ⟨p, ts, fin⟩ := c
  obtain ⟨p', ts', fin'⟩ := d
  have hitems := h.items
  cases ts <;> cases ts' <;> simp_all [Cursor.current]

theorem kind (h : Like c d) : d.kind = c.kind := congrArg Token.kind h.current

theorem unexpected (h : Like c d) (kinds : List TokenKind) :
    (d.unexpected kinds).cause = (c.unexpected kinds).cause := by
  obtain ⟨p, ts, fin⟩ := c
  obtain ⟨p', ts', fin'⟩ := d
  have hitems := h.items
  cases ts <;> cases ts' <;> simp_all [Cursor.unexpected]

theorem accept (h : Like c d) (k : TokenKind) : (c.accept? k = none ∧ d.accept? k = none) ∨
    ∃ t c₁ h₁ t' d₁ h₁', c.accept? k = some ⟨t, c₁, h₁⟩ ∧ d.accept? k = some ⟨t', d₁, h₁'⟩ ∧
      t'.item = t.item ∧ Like c₁ d₁ := by
  obtain ⟨p, ts, fin⟩ := c
  obtain ⟨p', ts', fin'⟩ := d
  have hitems := h.items
  cases ts with
  | nil =>
    obtain rfl := List.map_eq_nil_iff.mp hitems
    exact .inl ⟨rfl, rfl⟩
  | cons t ts =>
    obtain ⟨t', ts', rfl, hitem, hrest⟩ := List.map_eq_cons_iff.mp hitems
    by_cases hkind : t.item.kind = k
    · refine .inr ⟨_, _, _, _, _, _, Grammar.accept_cons.trans (if_pos hkind),
        Grammar.accept_cons.trans (if_pos (hitem ▸ hkind)), hitem, hrest, ?_⟩
      show decide (t'.item.kind = _) = decide (t.item.kind = _)
      rw [hitem]
    · exact .inl ⟨Grammar.accept_cons.trans (if_neg hkind),
        Grammar.accept_cons.trans (if_neg (hitem ▸ hkind))⟩

theorem accept_if (h : Like c d) (p : Prop) [Decidable p] (k : TokenKind) :
    ((if p then c.accept? k else none) = none ∧ (if p then d.accept? k else none) = none) ∨
    ∃ t c₁ h₁ t' d₁ h₁', (if p then c.accept? k else none) = some ⟨t, c₁, h₁⟩ ∧
      (if p then d.accept? k else none) = some ⟨t', d₁, h₁'⟩ ∧ t'.item = t.item ∧ Like c₁ d₁ := by
  by_cases hp : p
  · simp only [if_pos hp]
    exact h.accept k
  · exact .inl ⟨if_neg hp, if_neg hp⟩

theorem skipBreaks (h : Like c d) : Like c.skipBreaks d.skipBreaks := by
  obtain ⟨p, ts, fin⟩ := c
  obtain ⟨p', ts', fin'⟩ := d
  induction ts generalizing ts' p p' with
  | nil =>
    obtain rfl := List.map_eq_nil_iff.mp h.items
    exact h
  | cons t ts ih =>
    obtain ⟨⟨item', s'⟩, ts', rfl, hitem, hrest⟩ := List.map_eq_cons_iff.mp h.items
    obtain ⟨item, s⟩ := t
    obtain rfl : item' = item := hitem
    cases item' with
    | lineBreak => exact ih (some ⟨.lineBreak, s⟩) (some ⟨.lineBreak, s'⟩) ts' ⟨hrest, rfl⟩
    | _ => exact h

end Cursor.Like

namespace Grammar

open Cursor

section

variable {α α' β β' γ γ' : Type} {c d : Cursor} {f : α → α'} {g : β → β'}

/-- Two runs agree: both read a value, the same up to `f`, and stop at like cursors; or both fail for the
same reason and with as many tokens left. -/
def Agree (v : γ → α × Cursor) (w : γ' → α × Cursor) (f : α → α') :
    Except ParseError γ → Except ParseError γ' → Prop
  | .ok p, .ok q => f (w q).1 = f (v p).1 ∧ Like (v p).2 (w q).2
  | .error e, .error e' => e'.bare = e.bare ∧ e'.remaining = e.remaining
  | _, _ => False

/-- Runs that agree go on with runs that agree. -/
theorem Agree.sequence {δ δ' : Type} {v : δ → α × Cursor} {w : δ' → α × Cursor} {v' : γ → β × Cursor}
    {w' : γ' → β × Cursor} {x : Except ParseError δ} {y : Except ParseError δ'}
    {k : δ → Except ParseError γ} {l : δ' → Except ParseError γ'} (hxy : Agree v w f x y)
    (hkl : ∀ p q, f (w q).1 = f (v p).1 → Like (v p).2 (w q).2 → Agree v' w' g (k p) (l q)) :
    Agree v' w' g (x >>= k) (y >>= l) := by
  cases x <;> cases y
  · exact hxy
  · exact hxy.elim
  · exact hxy.elim
  · exact hkl _ _ hxy.1 hxy.2

theorem Agree.bind {v : γ → β × Cursor} {w : γ' → β × Cursor} {x : Parse α c} {y : Parse α d}
    {k : Parsed α c → Except ParseError γ} {l : Parsed α d → Except ParseError γ'}
    (hxy : Agree Parsed.view Parsed.view f x y)
    (hkl : ∀ a c₁ h₁ a' d₁ h₁', f a' = f a → Like c₁ d₁ →
      Agree v w g (k ⟨a, c₁, h₁⟩) (l ⟨a', d₁, h₁'⟩)) : Agree v w g (x >>= k) (y >>= l) :=
  hxy.sequence fun p q => hkl _ _ p.3 _ _ q.3

theorem Agree.bindRest {v : γ → β × Cursor} {w : γ' → β × Cursor} {x : Continue α c} {y : Continue α d}
    {k : Continued α c → Except ParseError γ} {l : Continued α d → Except ParseError γ'}
    (hxy : Agree Continued.view Continued.view f x y)
    (hkl : ∀ a c₁ h₁ a' d₁ h₁', f a' = f a → Like c₁ d₁ →
      Agree v w g (k ⟨a, c₁, h₁⟩) (l ⟨a', d₁, h₁'⟩)) : Agree v w g (x >>= k) (y >>= l) :=
  hxy.sequence fun p q => hkl _ _ p.3 _ _ q.3

theorem Agree.unexpected {v : γ → α × Cursor} {w : γ' → α × Cursor} (h : Like c d)
    (kinds : List TokenKind) : Agree v w f (.error (c.unexpected kinds)) (.error (d.unexpected kinds)) :=
  ⟨Prod.ext (h.unexpected kinds) rfl, h.size⟩

theorem expect_agree (h : Like c d) (k : TokenKind) :
    Agree Parsed.view Parsed.view (·.item) (c.expect k) (d.expect k) := by
  unfold Cursor.expect
  rcases h.accept k with ⟨hc, hd⟩ | ⟨t, c₁, h₁, t', d₁, _, hc, hd, hitem, hlike⟩
  · rw [hc, hd]
    exact .unexpected h _
  · rw [hc, hd]
    exact ⟨hitem, hlike⟩

theorem expectName_agree (h : Like c d) :
    Agree Parsed.view Parsed.view (·.name) c.expectName d.expectName := by
  obtain ⟨p, ts, fin⟩ := c
  obtain ⟨p', ts', fin'⟩ := d
  cases ts with
  | nil =>
    obtain rfl := List.map_eq_nil_iff.mp h.items
    exact .unexpected h _
  | cons t ts =>
    obtain ⟨⟨item', s'⟩, ts', rfl, hitem, hrest⟩ := List.map_eq_cons_iff.mp h.items
    obtain ⟨item, s⟩ := t
    obtain rfl : item' = item := hitem
    cases item' with
    | name x => exact ⟨rfl, hrest, rfl⟩
    | _ => exact .unexpected h _

/-! ## Types -/

theorem marks_like {c₀ c₁ d₀ d₁ c d : Cursor} (h : Like c d) :
    Like (typeName.marks c₀ c₁ c).1 (typeName.marks d₀ d₁ d).1 := by
  rw [typeName.marks, typeName.marks]
  rcases h.accept (.symbol .question) with ⟨hc, hd⟩ | ⟨t, c₂, hlt, t', d₂, _, hc, hd, _, hlike⟩
  · simp only [hc, hd]
    exact h
  · simp only [hc, hd]
    exact marks_like hlike
termination_by c.size

theorem typeName_agree (allowNull : Bool) (h : Like c d) :
    Agree Parsed.view Parsed.view TypeName.bare (typeName allowNull c) (typeName allowNull d) := by
  unfold typeName
  rcases h.accept_if (allowNull = true) (.keyword .nullWord) with
    ⟨hc, hd⟩ | ⟨t, c₁, _, t', d₁, _, hc, hd, _, hlike⟩
  · simp only [hc, hd]
    refine .bind (expectName_agree h) ?_
    intro name c₁ _ name' d₁ _ hname hlike
    replace hname : name'.name = name.name := hname
    rcases hlike.accept (.symbol .question) with
      ⟨hc, hd⟩ | ⟨t, c₂, _, t', d₂, _, hc, hd, _, hlike'⟩
    · simp only [hc, hd]
      exact ⟨by simp [TypeName.bare, hname], hlike⟩
    · simp only [hc, hd]
      exact ⟨by simp [TypeName.bare, hname], marks_like hlike'⟩
  · simp only [hc, hd]
    exact ⟨rfl, hlike⟩

/-! ## Expressions -/

theorem atom_bare (t : Token) (s s' : Span) :
    (atom? t s').map Expr.bare = (atom? t s).map Expr.bare := by
  cases t with
  | keyword k => cases k <;> rfl
  | _ => rfl

end

mutual

theorem expression_agree {c d : Cursor} (h : Like c d) :
    Agree Parsed.view Parsed.view Expr.bare (expression c) (expression d) := by
  rw [expression, expression]
  refine .bind (binary_agree 6 h) ?_
  intro target c₁ h₁ target' d₁ _ htarget hlike
  rcases hlike.accept (.symbol .equal) with
    ⟨hc, hd⟩ | ⟨t, c₂, h₂, t', d₂, _, hc, hd, _, hlike⟩
  · simp only [hc, hd]
    exact ⟨htarget, hlike⟩
  · simp only [hc, hd]
    refine .bind (expression_agree hlike) ?_
    intro value c₃ h₃ value' d₃ _ hvalue hlike
    exact ⟨congrArg₂ (Expr.assign · · ()) htarget hvalue, hlike⟩
termination_by (c.size, 20)

theorem binary_agree {c d : Cursor} (height : Nat) (h : Like c d) :
    Agree Parsed.view Parsed.view Expr.bare (binary height c) (binary height d) := by
  cases height with
  | zero =>
    rw [binary, binary]
    exact unary_agree h
  | succ level =>
    rw [binary, binary]
    refine .bind (binary_agree level h) ?_
    intro left c₁ h₁ left' d₁ _ hleft hlike
    refine .bindRest (binaryRest_agree level hleft hlike) ?_
    intro whole c₂ h₂ whole' d₂ _ hwhole hlike
    exact ⟨hwhole, hlike⟩
termination_by (c.size, 10 + height)

theorem binaryRest_agree {c d : Cursor} {left left' : Expr Span} (level : Nat)
    (hleft : left'.bare = left.bare) (h : Like c d) :
    Agree Continued.view Continued.view Expr.bare (binaryRest level left c)
      (binaryRest level left' d) := by
  rw [binaryRest, binaryRest]
  rcases h.accept_if (level = comparisonLevel) (.keyword .isWord) with
    ⟨hc, hd⟩ | ⟨t, c₁, h₁, t', d₁, _, hc, hd, _, hlike⟩
  · simp only [hc, hd]
    rcases h.accept_if (level = comparisonLevel) (.keyword .asWord) with
      ⟨hc, hd⟩ | ⟨t, c₁, h₁, t', d₁, _, hc, hd, _, hlike⟩
    · simp only [hc, hd, h.kind]
      cases hop : operatorAt? level c.kind with
      | none => exact ⟨hleft, h⟩
      | some op =>
        refine .bind (expect_agree h c.kind) ?_
        intro t c₁ h₁ t' d₁ _ _ hlike
        refine .bind (binary_agree level hlike) ?_
        intro right c₂ h₂ right' d₂ _ hright hlike
        have : c₂.size < c.size := Nat.lt_trans h₂ h₁
        refine .bindRest (binaryRest_agree level ?_ hlike) ?_
        · exact congrArg₂ (Expr.binary op · · ()) hleft hright
        intro whole c₃ h₃ whole' d₃ _ hwhole hlike
        exact ⟨hwhole, hlike⟩
    · simp only [hc, hd]
      refine .bind (typeName_agree false hlike) ?_
      intro target c₂ h₂ target' d₂ _ htarget hlike
      refine .bindRest (binaryRest_agree level ?_ hlike) ?_
      · exact congrArg₂ (Expr.cast · · ()) hleft htarget
      intro whole c₃ h₃ whole' d₃ _ hwhole hlike
      exact ⟨hwhole, hlike⟩
  · simp only [hc, hd]
    refine .bind (typeName_agree true hlike) ?_
    intro target c₂ h₂ target' d₂ _ htarget hlike
    refine .bindRest (binaryRest_agree level ?_ hlike) ?_
    · exact congrArg₂ (Expr.instanceTest · · ()) hleft htarget
    intro whole c₃ h₃ whole' d₃ _ hwhole hlike
    exact ⟨hwhole, hlike⟩
termination_by (c.size, 0)

theorem unary_agree {c d : Cursor} (h : Like c d) :
    Agree Parsed.view Parsed.view Expr.bare (unary c) (unary d) := by
  rw [unary, unary, h.kind]
  cases unaryOp? c.kind with
  | none => exact chain_agree h
  | some op =>
    refine .bind (expect_agree h c.kind) ?_
    intro t c₁ h₁ t' d₁ _ _ hlike
    refine .bind (unary_agree hlike) ?_
    intro operand c₂ h₂ operand' d₂ _ hoperand hlike
    exact ⟨congrArg (Expr.unary op · ()) hoperand, hlike⟩
termination_by (c.size, 9)

theorem chain_agree {c d : Cursor} (h : Like c d) :
    Agree Parsed.view Parsed.view Expr.bare (chain c) (chain d) := by
  rw [chain, chain]
  refine .bind (primary_agree h) ?_
  intro e c₁ h₁ e' d₁ _ he hlike
  refine .bindRest (chainRest_agree he hlike) ?_
  intro whole c₂ h₂ whole' d₂ _ hwhole hlike
  exact ⟨hwhole, hlike⟩
termination_by (c.size, 8)

theorem chainRest_agree {c d : Cursor} {e e' : Expr Span} (he : e'.bare = e.bare) (h : Like c d) :
    Agree Continued.view Continued.view Expr.bare (chainRest e c) (chainRest e' d) := by
  rw [chainRest, chainRest]
  rcases h.accept (.symbol .dot) with
    ⟨hc, hd⟩ | ⟨t, c₁, h₁, t', d₁, _, hc, hd, _, hlike⟩
  · simp only [hc, hd, h.kind]
    by_cases hparen : c.kind = .symbol .leftParen
    · simp only [if_pos hparen]
      refine .bind (arguments_agree h) ?_
      intro args c₁ h₁ args' d₁ _ hargs hlike
      refine .bindRest (chainRest_agree ?_ hlike) ?_
      · exact congrArg₂ (Expr.call · · ()) he hargs
      intro whole c₂ h₂ whole' d₂ _ hwhole hlike
      exact ⟨hwhole, hlike⟩
    · simp only [if_neg hparen]
      rcases h.accept (.symbol .bang) with
        ⟨hc, hd⟩ | ⟨t, c₁, h₁, t', d₁, _, hc, hd, _, hlike⟩
      · simp only [hc, hd]
        exact ⟨he, h⟩
      · simp only [hc, hd]
        refine .bindRest (chainRest_agree ?_ hlike) ?_
        · exact congrArg (Expr.assert · ()) he
        intro whole c₂ h₂ whole' d₂ _ hwhole hlike
        exact ⟨hwhole, hlike⟩
  · simp only [hc, hd]
    refine .bind (expectName_agree hlike) ?_
    intro property c₂ h₂ property' d₂ _ hproperty hlike
    refine .bindRest (chainRest_agree ?_ hlike) ?_
    · exact congrArg₂ (fun e x => Expr.member e ⟨x, .none⟩ ()) he hproperty
    intro whole c₃ h₃ whole' d₃ _ hwhole hlike
    exact ⟨hwhole, hlike⟩
termination_by (c.size, 2)

theorem primary_agree {c d : Cursor} (h : Like c d) :
    Agree Parsed.view Parsed.view Expr.bare (primary c) (primary d) := by
  rw [primary, primary]
  rcases h.accept (.keyword .newWord) with
    ⟨hc, hd⟩ | ⟨t, c₁, h₁, t', d₁, _, hc, hd, _, hlike⟩
  · simp only [hc, hd]
    rcases h.accept (.symbol .leftParen) with
      ⟨hc, hd⟩ | ⟨t, c₁, h₁, t', d₁, _, hc, hd, _, hlike⟩
    · simp only [hc, hd, h.kind, h.current]
      have hatom := atom_bare c.current.item c.span d.span
      cases he : atom? c.current.item c.span with
      | none =>
        rw [he] at hatom
        rw [Option.map_eq_none_iff.mp hatom]
        exact .unexpected h _
      | some e =>
        rw [he] at hatom
        obtain ⟨e', he', hbare⟩ := Option.map_eq_some_iff.mp hatom
        rw [he']
        refine .bind (expect_agree h c.kind) ?_
        intro t c₁ h₁ t' d₁ _ _ hlike
        exact ⟨hbare, hlike⟩
    · simp only [hc, hd]
      refine .bind (expression_agree hlike) ?_
      intro inner c₂ h₂ inner' d₂ _ hinner hlike
      refine .bind (expect_agree hlike _) ?_
      intro t c₃ h₃ t' d₃ _ _ hlike
      exact ⟨hinner, hlike⟩
  · simp only [hc, hd]
    refine .bind (expectName_agree hlike) ?_
    intro name c₂ h₂ name' d₂ _ hname hlike
    refine .bind (arguments_agree hlike) ?_
    intro args c₃ h₃ args' d₃ _ hargs hlike
    exact ⟨congrArg₂ (fun x es => Expr.new ⟨x, .none⟩ es ()) hname hargs, hlike⟩
termination_by (c.size, 7)

theorem arguments_agree {c d : Cursor} (h : Like c d) :
    Agree Parsed.view Parsed.view Expr.bareList (arguments c) (arguments d) := by
  rw [arguments, arguments]
  refine .bind (expect_agree h _) ?_
  intro t c₁ h₁ t' d₁ _ _ hlike
  rcases hlike.accept (.symbol .rightParen) with
    ⟨hc, hd⟩ | ⟨t, c₂, h₂, t', d₂, _, hc, hd, _, hlike'⟩
  · simp only [hc, hd]
    refine .bind (argumentList_agree hlike) ?_
    intro args c₂ h₂ args' d₂ _ hargs hlike
    refine .bind (expect_agree hlike _) ?_
    intro t c₃ h₃ t' d₃ _ _ hlike
    exact ⟨hargs, hlike⟩
  · simp only [hc, hd]
    exact ⟨rfl, hlike'⟩
termination_by (c.size, 1)

theorem argumentList_agree {c d : Cursor} (h : Like c d) :
    Agree Parsed.view Parsed.view Expr.bareList (argumentList c) (argumentList d) := by
  rw [argumentList, argumentList]
  refine .bind (expression_agree h) ?_
  intro e c₁ h₁ e' d₁ _ he hlike
  rcases hlike.accept (.symbol .comma) with
    ⟨hc, hd⟩ | ⟨t, c₂, h₂, t', d₂, _, hc, hd, _, hlike'⟩
  · simp only [hc, hd]
    exact ⟨congrArg ([·]) he, hlike⟩
  · simp only [hc, hd]
    refine .bind (argumentList_agree hlike') ?_
    intro es c₃ h₃ es' d₃ _ hes hlike
    exact ⟨congrArg₂ List.cons he hes, hlike⟩
termination_by (c.size, 21)

end

/-! ## Statements -/

theorem typeAnnotation_agree {c d : Cursor} (h : Like c d) : Agree Continued.view Continued.view
    (Option.map TypeName.bare) ( typeAnnotation c) ( typeAnnotation d) := by
  unfold typeAnnotation
  rcases h.accept (.symbol .colon) with
    ⟨hc, hd⟩ | ⟨t, c₁, h₁, t', d₁, _, hc, hd, _, hlike⟩
  · simp only [hc, hd]
    exact ⟨rfl, h⟩
  · simp only [hc, hd]
    refine .bind (typeName_agree false hlike) ?_
    intro type c₂ h₂ type' d₂ _ htype hlike
    exact ⟨congrArg some htype, hlike⟩

theorem define_agree {c d : Cursor} (h : Like c d) :
    Agree Parsed.view Parsed.view Stmt.bare (define c) (define d) := by
  unfold define
  refine .bind (expect_agree h _) ?_
  intro t c₁ h₁ t' d₁ _ _ hlike
  refine .bind (expectName_agree hlike) ?_
  intro name c₂ h₂ name' d₂ _ hname hlike
  refine .bindRest ( typeAnnotation_agree hlike) ?_
  intro type c₃ h₃ type' d₃ _ htype hlike
  refine .bind (expect_agree hlike _) ?_
  intro t c₄ h₄ t' d₄ _ _ hlike
  refine .bind (expression_agree hlike) ?_
  intro value c₅ h₅ value' d₅ _ hvalue hlike
  refine ⟨?_, hlike⟩
  show Stmt.define ⟨name'.name, .none⟩ _ value'.bare .none =
    Stmt.define ⟨name.name, .none⟩ _ value.bare .none
  rw [show name'.name = name.name from hname, htype, hvalue]

theorem returnStmt_agree {c d : Cursor} (h : Like c d) :
    Agree Parsed.view Parsed.view Stmt.bare (returnStmt c) (returnStmt d) := by
  unfold returnStmt
  refine .bind (expect_agree h _) ?_
  intro t c₁ h₁ t' d₁ _ _ hlike
  simp only [hlike.kind]
  by_cases hend : endsReturn c₁.kind = true
  · simp only [if_pos hend]
    exact ⟨rfl, hlike⟩
  · simp only [if_neg hend]
    refine .bind (expression_agree hlike) ?_
    intro value c₂ h₂ value' d₂ _ hvalue hlike
    exact ⟨congrArg (fun e => Stmt.return (some e) .none) hvalue, hlike⟩

theorem statementBreak_agree {c d : Cursor} (h : Like c d) :
    Agree Parsed.view Parsed.view (·.item) (statementBreak c) (statementBreak d) := by
  have hexpect := expect_agree h .lineBreak
  unfold statementBreak
  cases hc : c.expect .lineBreak with
  | ok p =>
    cases hd : d.expect .lineBreak with
    | ok q => rwa [hc, hd] at hexpect
    | error e => exact absurd hexpect (by rw [hc, hd]; exact id)
  | error e =>
    cases hd : d.expect .lineBreak with
    | ok q => exact absurd hexpect (by rw [hc, hd]; exact id)
    | error e' =>
      rw [hc, hd] at hexpect
      exact ⟨congrArg (·.1, some ParseAdvice.statementPerLine) hexpect.1, hexpect.2⟩

mutual

theorem statement_agree {c d : Cursor} (h : Like c d) :
    Agree Parsed.view Parsed.view Stmt.bare (statement c) (statement d) := by
  rw [statement, statement, h.kind]
  split
  · exact define_agree h
  · exact returnStmt_agree h
  · refine .bind (expect_agree h _) ?_
    intro t c₁ h₁ t' d₁ _ _ hlike
    refine .bind (expression_agree hlike) ?_
    intro condition c₂ h₂ condition' d₂ _ hcondition hlike
    refine .bind (expect_agree hlike _) ?_
    intro t c₃ h₃ t' d₃ _ _ hlike
    have h₃ : c₃.size < c.size := Nat.lt_trans h₃ (Nat.lt_trans h₂ h₁)
    refine .bind (statement_agree hlike) ?_
    intro branch c₄ h₄ branch' d₄ _ hbranch hlike
    rcases hlike.accept (.keyword .elseWord) with
      ⟨hc, hd⟩ | ⟨t, c₅, h₅, t', d₅, _, hc, hd, _, hlike'⟩
    · simp only [hc, hd]
      exact ⟨congrArg₂ (Stmt.ifThen · · .none) hcondition hbranch, hlike⟩
    · simp only [hc, hd]
      have h₅ : c₅.size < c.size := Nat.lt_trans h₅ (Nat.lt_trans h₄ h₃)
      refine .bind (statement_agree hlike') ?_
      intro otherwise c₆ h₆ otherwise' d₆ _ hotherwise hlike
      refine ⟨?_, hlike⟩
      show Stmt.ifElse condition'.bare branch'.bare otherwise'.bare .none = _
      rw [hcondition, hbranch, hotherwise]
      rfl
  · refine .bind (expect_agree h _) ?_
    intro t c₁ h₁ t' d₁ _ _ hlike
    refine .bind (expression_agree hlike) ?_
    intro condition c₂ h₂ condition' d₂ _ hcondition hlike
    refine .bind (expect_agree hlike _) ?_
    intro t c₃ h₃ t' d₃ _ _ hlike
    have h₃ : c₃.size < c.size := Nat.lt_trans h₃ (Nat.lt_trans h₂ h₁)
    refine .bind (statement_agree hlike) ?_
    intro body c₄ h₄ body' d₄ _ hbody hlike
    exact ⟨congrArg₂ (Stmt.while · · .none) hcondition hbody, hlike⟩
  · exact block_agree h
  · refine .bind (expression_agree h) ?_
    intro value c₁ h₁ value' d₁ _ hvalue hlike
    exact ⟨congrArg (Stmt.expression · .none) hvalue, hlike⟩
termination_by (c.size, 2)

theorem block_agree {c d : Cursor} (h : Like c d) :
    Agree Parsed.view Parsed.view Stmt.bare (block c) (block d) := by
  rw [block, block]
  refine .bind (expect_agree h _) ?_
  intro t c₁ h₁ t' d₁ _ _ hlike
  have hskip : c₁.skipBreaks.size < c.size := Nat.lt_of_le_of_lt c₁.size_skipBreaks h₁
  refine .bindRest (blockRest_agree hlike.skipBreaks) ?_
  intro ss c₂ h₂ ss' d₂ _ hss hlike
  refine .bind (expect_agree hlike _) ?_
  intro t c₃ h₃ t' d₃ _ _ hlike
  exact ⟨congrArg (Stmt.block · .none) hss, hlike⟩
termination_by (c.size, 1)

theorem blockRest_agree {c d : Cursor} (h : Like c d) :
    Agree Continued.view Continued.view Stmt.bareList (blockRest c) (blockRest d) := by
  rw [blockRest, blockRest, h.kind]
  by_cases hend : c.kind = .symbol .rightBrace ∨ c.kind = .endOfFile
  · simp only [if_pos hend]
    exact ⟨rfl, h⟩
  · simp only [if_neg hend]
    refine .bind (statement_agree h) ?_
    intro s c₁ h₁ s' d₁ _ hs hlike
    simp only [hlike.kind]
    by_cases hclose : c₁.kind = .symbol .rightBrace
    · simp only [if_pos hclose]
      exact ⟨congrArg ([·]) hs, hlike⟩
    · simp only [if_neg hclose]
      refine .bind (statementBreak_agree hlike) ?_
      intro t c₂ h₂ t' d₂ _ _ hlike
      have hskip : c₂.skipBreaks.size < c.size :=
        Nat.lt_of_le_of_lt c₂.size_skipBreaks (Nat.lt_trans h₂ h₁)
      refine .bindRest (blockRest_agree hlike.skipBreaks) ?_
      intro ss c₃ h₃ ss' d₃ _ hss hlike
      exact ⟨congrArg₂ List.cons hs hss, hlike⟩
termination_by (c.size, 3)

end

/-! ## Declarations -/

section

variable {c d : Cursor}

theorem access_agree (h : Like c d) : Agree Parsed.view Parsed.view id (access c) (access d) := by
  unfold access
  rw [h.kind]
  cases access? c.kind with
  | none => exact ⟨congrArg (·, some ParseAdvice.accessFirst) (h.unexpected _), h.size⟩
  | some level =>
    refine .bind (expect_agree h c.kind) ?_
    intro t c₁ h₁ t' d₁ _ _ hlike
    exact ⟨rfl, hlike⟩

theorem binaryName_agree (h : Like c d) :
    Agree Parsed.view Parsed.view MethodName.bare (binaryName c) (binaryName d) := by
  unfold binaryName
  refine .bind (expect_agree h _) ?_
  intro t c₁ h₁ t' d₁ _ _ hlike
  simp only [hlike.kind, hlike.current]
  cases binaryOp? c₁.kind with
  | none => exact ⟨rfl, hlike.size⟩
  | some op =>
    refine .bind (expect_agree hlike c₁.kind) ?_
    intro t c₂ h₂ t' d₂ _ _ hlike
    exact ⟨rfl, hlike⟩

theorem unaryName_agree (h : Like c d) :
    Agree Parsed.view Parsed.view MethodName.bare (unaryName c) (unaryName d) := by
  unfold unaryName
  refine .bind (expect_agree h _) ?_
  intro t c₁ h₁ t' d₁ _ _ hlike
  simp only [hlike.kind, hlike.current]
  cases unaryOp? c₁.kind with
  | none => exact ⟨rfl, hlike.size⟩
  | some op =>
    refine .bind (expect_agree hlike c₁.kind) ?_
    intro t c₂ h₂ t' d₂ _ _ hlike
    exact ⟨rfl, hlike⟩

theorem paramList_agree {c d : Cursor} (h : Like c d) :
    Agree Parsed.view Parsed.view (List.map Param.bare) (paramList c) (paramList d) := by
  rw [paramList, paramList]
  refine .bind (expectName_agree h) ?_
  intro name c₁ h₁ name' d₁ _ hname hlike
  refine .bind (expect_agree hlike _) ?_
  intro t c₂ h₂ t' d₂ _ _ hlike
  refine .bind (typeName_agree false hlike) ?_
  intro type c₃ h₃ type' d₃ _ htype hlike
  have hparam := congrArg₂ (fun x w => Param.mk ⟨x, .none⟩ w .none) hname htype
  rcases hlike.accept (.symbol .comma) with
    ⟨hc, hd⟩ | ⟨t, c₄, h₄, t', d₄, _, hc, hd, _, hlike'⟩
  · simp only [hc, hd]
    exact ⟨congrArg ([·]) hparam, hlike⟩
  · simp only [hc, hd]
    have h₄ : c₄.size < c.size := Nat.lt_trans h₄ (Nat.lt_trans h₃ (Nat.lt_trans h₂ h₁))
    refine .bind (paramList_agree hlike') ?_
    intro ps c₅ h₅ ps' d₅ _ hps hlike
    exact ⟨congrArg₂ List.cons hparam hps, hlike⟩
termination_by c.size

theorem params_agree (h : Like c d) :
    Agree Parsed.view Parsed.view (List.map Param.bare) (params c) (params d) := by
  unfold params
  refine .bind (expect_agree h _) ?_
  intro t c₁ h₁ t' d₁ _ _ hlike
  rcases hlike.accept (.symbol .rightParen) with
    ⟨hc, hd⟩ | ⟨t, c₂, h₂, t', d₂, _, hc, hd, _, hlike'⟩
  · simp only [hc, hd]
    refine .bind (paramList_agree hlike) ?_
    intro ps c₂ h₂ ps' d₂ _ hps hlike
    refine .bind (expect_agree hlike _) ?_
    intro t c₃ h₃ t' d₃ _ _ hlike
    exact ⟨hps, hlike⟩
  · simp only [hc, hd]
    exact ⟨rfl, hlike'⟩

theorem body_agree (isValue : Bool) (h : Like c d) :
    Agree Parsed.view Parsed.view Stmt.bare (body isValue c) (body isValue d) := by
  unfold body
  rcases h.accept (.symbol .equal) with
    ⟨hc, hd⟩ | ⟨t, c₁, h₁, t', d₁, _, hc, hd, _, hlike⟩
  · simp only [hc, hd, h.kind]
    by_cases hbrace : c.kind = .symbol .leftBrace
    · simp only [if_pos hbrace]
      exact block_agree h
    · simp only [if_neg hbrace]
      exact .unexpected h _
  · simp only [hc, hd, hlike.kind]
    by_cases hvalue : (isValue && !startsStatement c₁.kind) = true
    · simp only [if_pos hvalue]
      refine .bind (expression_agree hlike) ?_
      intro value c₂ h₂ value' d₂ _ hvalue hlike
      exact ⟨congrArg (fun e => Stmt.return (some e) .none) hvalue, hlike⟩
    · simp only [if_neg hvalue]
      refine .bind (statement_agree hlike) ?_
      intro s c₂ h₂ s' d₂ _ hs hlike
      exact ⟨hs, hlike⟩

/-- Whether a method returns a value depends on how its type is spelled, not on where. -/
theorem returnsValue_bare (w : Option TypeName) : returnsValue (w.map TypeName.bare) = returnsValue w := by
  cases w with
  | none => rfl
  | some w => cases w <;> rfl

theorem fieldRest_agree {name name' : Ident} (level : Access) (s s' : Span) (hname : name'.name = name.name)
    (h : Like c d) : Agree Parsed.view Parsed.view MemberDecl.bare (fieldRest level name s c)
      (fieldRest level name' s' d) := by
  unfold fieldRest
  refine .bind (expect_agree h _) ?_
  intro t c₁ h₁ t' d₁ _ _ hlike
  refine .bind (typeName_agree false hlike) ?_
  intro type c₂ h₂ type' d₂ _ htype hlike
  rcases hlike.accept (.symbol .equal) with
    ⟨hc, hd⟩ | ⟨t, c₃, h₃, t', d₃, _, hc, hd, _, hlike'⟩
  · simp only [hc, hd]
    refine ⟨?_, hlike⟩
    simp [MemberDecl.bare, hname, htype]
  · simp only [hc, hd]
    refine .bind (expression_agree hlike') ?_
    intro value c₄ h₄ value' d₄ _ hvalue hlike
    refine ⟨?_, hlike⟩
    simp [MemberDecl.bare, hname, htype, hvalue]

theorem methodRest_agree {name name' : MethodName} (level : Access) (isOverride : Bool) (s s' : Span)
    (hname : name'.bare = name.bare) (h : Like c d) : Agree Parsed.view Parsed.view MemberDecl.bare
      (methodRest level isOverride name s c) (methodRest level isOverride name' s' d) := by
  unfold methodRest
  refine .bind (params_agree h) ?_
  intro ps c₁ h₁ ps' d₁ _ hps hlike
  refine .bindRest ( typeAnnotation_agree hlike) ?_
  intro type c₂ h₂ type' d₂ _ htype hlike
  have hvalue : returnsValue type' = returnsValue type := by
    rw [← returnsValue_bare type', ← returnsValue_bare type]
    exact congrArg returnsValue htype
  simp only [hvalue]
  refine .bind (body_agree _ hlike) ?_
  intro s c₃ h₃ s' d₃ _ hs hlike
  refine ⟨?_, hlike⟩
  simp [MemberDecl.bare, hname, hps, htype, hs]

theorem constructorRest_agree (level : Access) (s s' : Span) (h : Like c d) :
    Agree Parsed.view Parsed.view MemberDecl.bare (constructorRest level s c)
      (constructorRest level s' d) := by
  unfold constructorRest
  refine .bind (expect_agree h _) ?_
  intro t c₁ h₁ t' d₁ _ _ hlike
  refine .bind (params_agree hlike) ?_
  intro ps c₂ h₂ ps' d₂ _ hps hlike
  rcases hlike.accept (.symbol .colon) with
    ⟨hc, hd⟩ | ⟨t, c₃, h₃, t', d₃, _, hc, hd, _, hlike'⟩
  · simp only [hc, hd]
    refine .bind (body_agree false hlike) ?_
    intro s c₃ h₃ s' d₃ _ hs hlike
    refine ⟨?_, hlike⟩
    simp [MemberDecl.bare, hps, hs]
  · simp only [hc, hd]
    refine .bind (expect_agree hlike' _) ?_
    intro t c₄ h₄ t' d₄ _ _ hlike
    refine .bind (arguments_agree hlike) ?_
    intro args c₅ h₅ args' d₅ _ hargs hlike
    refine .bind (body_agree false hlike) ?_
    intro s c₆ h₆ s' d₆ _ hs hlike
    refine ⟨?_, hlike⟩
    simp [MemberDecl.bare, hps, hargs, hs]

theorem namedMember_agree (level : Access) (isOverride : Bool) (s s' : Span) (h : Like c d) :
    Agree Parsed.view Parsed.view MemberDecl.bare (namedMember level isOverride s c)
      (namedMember level isOverride s' d) := by
  unfold namedMember
  rw [h.kind]
  split
  · refine .bind (binaryName_agree h) ?_
    intro name c₁ h₁ name' d₁ _ hname hlike
    refine .bind (methodRest_agree level isOverride s s' hname hlike) ?_
    intro m c₂ h₂ m' d₂ _ hm hlike
    exact ⟨hm, hlike⟩
  · refine .bind (unaryName_agree h) ?_
    intro name c₁ h₁ name' d₁ _ hname hlike
    refine .bind (methodRest_agree level isOverride s s' hname hlike) ?_
    intro m c₂ h₂ m' d₂ _ hm hlike
    exact ⟨hm, hlike⟩
  · refine .bind (expectName_agree h) ?_
    intro name c₁ h₁ name' d₁ _ hname hlike
    simp only [hlike.kind]
    by_cases hcolon : c₁.kind = .symbol .colon
    · simp only [if_pos hcolon]
      cases isOverride with
      | true => exact ⟨rfl, hlike.size⟩
      | false =>
        refine .bind (fieldRest_agree level s s' hname hlike) ?_
        intro m c₂ h₂ m' d₂ _ hm hlike
        exact ⟨hm, hlike⟩
    · simp only [if_neg hcolon]
      refine .bind (methodRest_agree level isOverride s s' ?_ hlike) ?_
      · exact congrArg (fun x => MethodName.named ⟨x, .none⟩) hname
      intro m c₂ h₂ m' d₂ _ hm hlike
      exact ⟨hm, hlike⟩

theorem member_agree (h : Like c d) :
    Agree Parsed.view Parsed.view MemberDecl.bare (member c) (member d) := by
  unfold member
  refine .bind (access_agree h) ?_
  intro level c₁ h₁ level' d₁ _ hlevel hlike
  obtain rfl : level' = level := hlevel
  simp only [hlike.kind]
  by_cases hnew : c₁.kind = .keyword .newWord
  · simp only [if_pos hnew]
    refine .bind (constructorRest_agree _ _ _ hlike) ?_
    intro m c₂ h₂ m' d₂ _ hm hlike
    exact ⟨hm, hlike⟩
  · simp only [if_neg hnew]
    rcases hlike.accept (.keyword .overrideWord) with
      ⟨hc, hd⟩ | ⟨t, c₂, h₂, t', d₂, _, hc, hd, _, hlike'⟩
    · simp only [hc, hd]
      refine .bind (namedMember_agree _ false _ _ hlike) ?_
      intro m c₂ h₂ m' d₂ _ hm hlike
      exact ⟨hm, hlike⟩
    · simp only [hc, hd, hlike'.kind]
      by_cases hnew : c₂.kind = .keyword .newWord
      · simp only [if_pos hnew]
        exact ⟨rfl, hlike'.size⟩
      · simp only [if_neg hnew]
        refine .bind (namedMember_agree _ true _ _ hlike') ?_
        intro m c₃ h₃ m' d₃ _ hm hlike
        exact ⟨hm, hlike⟩

theorem memberList_agree {c d : Cursor} (h : Like c d) :
    Agree Continued.view Continued.view (List.map MemberDecl.bare) (memberList c) (memberList d) := by
  rw [memberList, memberList, h.kind]
  by_cases hend : c.kind = .symbol .rightBrace ∨ c.kind = .endOfFile
  · simp only [if_pos hend]
    exact ⟨rfl, h⟩
  · simp only [if_neg hend]
    refine .bind (member_agree h) ?_
    intro m c₁ h₁ m' d₁ _ hm hlike
    simp only [hlike.kind]
    by_cases hclose : c₁.kind = .symbol .rightBrace
    · simp only [if_pos hclose]
      exact ⟨congrArg ([·]) hm, hlike⟩
    · simp only [if_neg hclose]
      refine .bind (expect_agree hlike _) ?_
      intro t c₂ h₂ t' d₂ _ _ hlike
      have hskip : c₂.skipBreaks.size < c.size :=
        Nat.lt_of_le_of_lt c₂.size_skipBreaks (Nat.lt_trans h₂ h₁)
      refine .bindRest (memberList_agree hlike.skipBreaks) ?_
      intro ms c₃ h₃ ms' d₃ _ hms hlike
      exact ⟨congrArg₂ List.cons hm hms, hlike⟩
termination_by c.size

theorem parentName_agree (h : Like c d) : Agree Continued.view Continued.view
    (Option.map fun x : Ident => (⟨x.name, .none⟩ : Ident)) (parentName c) (parentName d) := by
  unfold parentName
  rcases h.accept (.symbol .colon) with
    ⟨hc, hd⟩ | ⟨t, c₁, h₁, t', d₁, _, hc, hd, _, hlike⟩
  · simp only [hc, hd]
    exact ⟨rfl, h⟩
  · simp only [hc, hd]
    refine .bind (expectName_agree hlike) ?_
    intro name c₂ h₂ name' d₂ _ hname hlike
    exact ⟨congrArg (fun x => some (⟨x, .none⟩ : Ident)) hname, hlike⟩

theorem classDecl_agree (h : Like c d) :
    Agree Parsed.view Parsed.view ClassDecl.bare (classDecl c) (classDecl d) := by
  unfold classDecl
  refine .bind (expect_agree h _) ?_
  intro t c₁ h₁ t' d₁ _ _ hlike
  refine .bind (expectName_agree hlike) ?_
  intro name c₂ h₂ name' d₂ _ hname hlike
  refine .bindRest (parentName_agree hlike) ?_
  intro parent c₃ h₃ parent' d₃ _ hparent hlike
  refine .bind (expect_agree hlike _) ?_
  intro t c₄ h₄ t' d₄ _ _ hlike
  refine .bindRest (memberList_agree hlike.skipBreaks) ?_
  intro ms c₅ h₅ ms' d₅ _ hms hlike
  refine .bind (expect_agree hlike _) ?_
  intro t c₆ h₆ t' d₆ _ _ hlike
  refine ⟨?_, hlike⟩
  simp only [Parsed.view_mk, ClassDecl.bare, show name'.name = name.name from hname, hparent, hms]

/-! ## Files -/

theorem advance_like (h : Like c d) : Like c.advance d.advance := by
  obtain ⟨p, ts, fin⟩ := c
  obtain ⟨p', ts', fin'⟩ := d
  cases ts with
  | nil =>
    obtain rfl := List.map_eq_nil_iff.mp h.items
    exact h
  | cons t ts =>
    obtain ⟨t', ts', rfl, hitem, hrest⟩ := List.map_eq_cons_iff.mp h.items
    refine ⟨hrest, ?_⟩
    show decide (t'.item.kind = _) = decide (t.item.kind = _)
    rw [hitem]

theorem advanceBy_like (n : Nat) (h : Like c d) : Like (advanceBy n c) (advanceBy n d) := by
  induction n generalizing c d with
  | zero => exact h
  | succ n ih => exact ih (advance_like h)

theorem seekClass_like (h : Like c d) : Like (seekClass c) (seekClass d) := by
  obtain ⟨p, ts, fin⟩ := c
  obtain ⟨p', ts', fin'⟩ := d
  induction ts generalizing ts' p p' with
  | nil =>
    obtain rfl := List.map_eq_nil_iff.mp h.items
    exact h
  | cons t ts ih =>
    have hnext := advance_like h
    obtain ⟨t', ts', rfl, hitem, hrest⟩ := List.map_eq_cons_iff.mp h.items
    have hstart : startsLine p' = startsLine p := h.startsLine
    unfold seekClass
    rw [seekClassFrom, seekClassFrom, show t'.item = t.item from hitem, hstart]
    split
    · exact h
    · exact ih _ _ _ hnext

theorem recover_like {e e' : ParseError} (h : Like c d) (he : e'.remaining = e.remaining) :
    Like (recover c e) (recover d e') := by
  unfold recover
  rw [h.size, he]
  exact seekClass_like (advanceBy_like _ (advance_like h))

/-- Like cursors stand in front of the same classes and the same errors. -/
theorem classList_agree {c d : Cursor} (h : Like c d) :
    (classList d).1.map ClassDecl.bare = (classList c).1.map ClassDecl.bare ∧
      (classList d).2.map ParseError.bare = (classList c).2.map ParseError.bare := by
  rw [classList, classList]
  by_cases hend : c.size = 0
  · rw [dif_pos hend, dif_pos (h.size.trans hend)]
    exact ⟨rfl, rfl⟩
  · rw [dif_neg hend, dif_neg (h.size ▸ hend)]
    have hclass := classDecl_agree h
    cases hc : classDecl c with
    | ok p =>
      cases hd : classDecl d with
      | error e => exact absurd hclass (by rw [hc, hd]; exact id)
      | ok q =>
        rw [hc, hd] at hclass
        have : p.view.2.skipBreaks.size < c.size := Nat.lt_of_le_of_lt p.rest.size_skipBreaks p.shorter
        obtain ⟨hdecls, herrors⟩ := classList_agree hclass.2.skipBreaks
        exact ⟨congrArg₂ List.cons hclass.1 hdecls, herrors⟩
    | error e =>
      cases hd : classDecl d with
      | ok q => exact absurd hclass (by rw [hc, hd]; exact id)
      | error e' =>
        rw [hc, hd] at hclass
        have := (recover c e).size_skipBreaks
        have := size_recover c e
        obtain ⟨hdecls, herrors⟩ := classList_agree (recover_like h hclass.2).skipBreaks
        exact ⟨hdecls, congrArg₂ List.cons hclass.1 herrors⟩
termination_by c.size

end

end Grammar

end ClassLang
