import ClassLang.Proofs.Spelling

/-!
# Productions

The grammar of the language: which tokens can be written for which tree. A `Phrase` is a symbol of the
grammar together with the tree that it stands for, and `Derives ts phrase` says that the tokens `ts`, all of
them and in this order, are a derivation of it. Every production writes the tokens of its parts one
behind the other and adds its own, so a derivation uses every token for one place of the tree.

A tree does not determine its tokens. Line breaks stand in any number around classes, members and
statements, at least one between two of them; parentheses may be put around any expression; more than
one `?` may stand behind a type. An expression behind the `=` of a member that returns a value is
returned, and no `return` is written for it.

The places in a tree are those of its tokens. `Span.upTo` is the stretch up to the last token of a phrase.
-/

namespace ClassLang

/-- From the start of a span to the end of the last of some tokens. -/
def Span.upTo (s : Span) (ts : List (Located Token)) : Span :=
  match ts.getLast? with
  | some t => s.through t.span
  | .none => s

namespace Grammar

/-- What tokens are written for. The rank of an expression is the loosest that its place allows, and a
list of expressions, parameters, statements or members is what stands between its brackets. -/
inductive Phrase where
  | type (allowNull : Bool) (w : TypeName)
  | annotated (w : Option TypeName)
  | expr (rank : Nat) (e : Expr Span)
  | exprs (es : List (Expr Span))
  | arguments (es : List (Expr Span))
  | initializer (e : Option (Expr Span))
  | stmt (s : Stmt Span)
  | stmts (ss : List (Stmt Span))
  | body (returnsValue : Bool) (s : Stmt Span)
  | overriding (isOverride : Bool)
  | methodName (name : MethodName)
  | paramList (ps : List Param)
  | params (ps : List Param)
  | baseCall (es : Option (List (Expr Span)))
  | member (m : MemberDecl Span)
  | members (ms : List (MemberDecl Span))
  | parent (name : Option Ident)
  | classDecl (decl : ClassDecl Span)
  | classes (decls : List (ClassDecl Span))
  | program (p : Program Span)

/-- All the tokens are line breaks. -/
def Breaks (ts : List (Located Token)) : Prop := ∀ t ∈ ts, t.item.kind = .lineBreak

/-- The tokens are a derivation of the phrase. -/
inductive Derives : List (Located Token) → Phrase → Prop
  -- types
  | nullType {t : Located Token} : t.item.kind = .keyword .nullWord →
      Derives [t] (.type true (.null t.span))
  | namedType {allowNull : Bool} {x : String} {s : Span} :
      Derives [⟨.name x, s⟩] (.type allowNull (.named ⟨x, s⟩))
  | optionalType {allowNull : Bool} {x : String} {s : Span} {marks : List (Located Token)} : marks ≠ [] →
      (∀ t ∈ marks, t.item.kind = .symbol .question) →
      Derives (⟨.name x, s⟩ :: marks) (.type allowNull (.optional ⟨x, s⟩ (s.upTo marks)))
  | unannotated : Derives [] (.annotated none)
  | annotated {colon : Located Token} {ts : List (Located Token)} {w : TypeName} :
      colon.item.kind = .symbol .colon → Derives ts (.type false w) →
      Derives (colon :: ts) (.annotated (some w))
  -- expressions
  | atom {t : Located Token} {e : Expr Span} : atom? t.item t.span = some e → Derives [t] (.expr 0 e)
  | parens {left right : Located Token} {ts : List (Located Token)} {e : Expr Span} :
      left.item.kind = .symbol .leftParen → Derives ts (.expr 9 e) →
      right.item.kind = .symbol .rightParen → Derives (left :: (ts ++ [right])) (.expr 0 e)
  | new {t : Located Token} {x : String} {s : Span} {us ts : List (Located Token)}
      {es : List (Expr Span)} : t.item.kind = .keyword .newWord → Derives us (.arguments es) →
      ts = t :: ⟨.name x, s⟩ :: us → Derives ts (.expr 0 (.new ⟨x, s⟩ es (t.span.upTo ts)))
  | member {ts : List (Located Token)} {e : Expr Span} {dot : Located Token} {x : String} {s : Span} :
      Derives ts (.expr 1 e) → dot.item.kind = .symbol .dot →
      Derives (ts ++ [dot, ⟨.name x, s⟩]) (.expr 1 (.member e ⟨x, s⟩ (e.note.merge s)))
  | call {ts us : List (Located Token)} {e : Expr Span} {es : List (Expr Span)} :
      Derives ts (.expr 1 e) → Derives us (.arguments es) →
      Derives (ts ++ us) (.expr 1 (.call e es (e.note.upTo us)))
  | assert {ts : List (Located Token)} {e : Expr Span} {t : Located Token} :
      Derives ts (.expr 1 e) → t.item.kind = .symbol .bang →
      Derives (ts ++ [t]) (.expr 1 (.assert e (e.note.through t.span)))
  | unary {op : UnaryOp} {t : Located Token} {ts : List (Located Token)} {e : Expr Span} :
      t.item.kind = .symbol op.symbol → Derives ts (.expr 2 e) →
      Derives (t :: ts) (.expr 2 (.unary op e (t.span.merge e.note)))
  | binary {op : BinaryOp} {ts us : List (Located Token)} {l r : Expr Span} {t : Located Token} :
      Derives ts (.expr op.rank l) → t.item.kind = .symbol op.symbol →
      Derives us (.expr (op.rank - 1) r) →
      Derives (ts ++ t :: us) (.expr op.rank (.binary op l r (l.note.merge r.note)))
  | instanceTest {ts us : List (Located Token)} {e : Expr Span} {t : Located Token} {w : TypeName} :
      Derives ts (.expr 5 e) → t.item.kind = .keyword .isWord → Derives us (.type true w) →
      Derives (ts ++ t :: us) (.expr 5 (.instanceTest e w (e.note.merge w.span)))
  | cast {ts us : List (Located Token)} {e : Expr Span} {t : Located Token} {w : TypeName} :
      Derives ts (.expr 5 e) → t.item.kind = .keyword .asWord → Derives us (.type false w) →
      Derives (ts ++ t :: us) (.expr 5 (.cast e w (e.note.merge w.span)))
  | assign {ts us : List (Located Token)} {e v : Expr Span} {t : Located Token} :
      Derives ts (.expr 8 e) → t.item.kind = .symbol .equal → Derives us (.expr 9 v) →
      Derives (ts ++ t :: us) (.expr 9 (.assign e v (e.note.merge v.note)))
  | looser {rank rank' : Nat} {ts : List (Located Token)} {e : Expr Span} :
      Derives ts (.expr rank e) → rank ≤ rank' → Derives ts (.expr rank' e)
  | oneExpr {ts : List (Located Token)} {e : Expr Span} : Derives ts (.expr 9 e) → Derives ts (.exprs [e])
  | moreExprs {ts us : List (Located Token)} {e : Expr Span} {es : List (Expr Span)}
      {comma : Located Token} :
      Derives ts (.expr 9 e) → comma.item.kind = .symbol .comma → Derives us (.exprs es) →
      Derives (ts ++ comma :: us) (.exprs (e :: es))
  | noArguments {left right : Located Token} : left.item.kind = .symbol .leftParen →
      right.item.kind = .symbol .rightParen → Derives [left, right] (.arguments [])
  | arguments {left right : Located Token} {ts : List (Located Token)} {es : List (Expr Span)} :
      left.item.kind = .symbol .leftParen → Derives ts (.exprs es) →
      right.item.kind = .symbol .rightParen → Derives (left :: (ts ++ [right])) (.arguments es)
  -- statements
  | define {t eq : Located Token} {x : String} {s : Span} {us vs ts : List (Located Token)}
      {w : Option TypeName} {e : Expr Span} : t.item.kind = .keyword .letWord →
      Derives us (.annotated w) → eq.item.kind = .symbol .equal → Derives vs (.expr 9 e) →
      ts = t :: ⟨.name x, s⟩ :: (us ++ eq :: vs) →
      Derives ts (.stmt (.define ⟨x, s⟩ w e (t.span.upTo ts)))
  | returnNothing {t : Located Token} : t.item.kind = .keyword .returnWord →
      Derives [t] (.stmt (.return none (t.span.upTo [t])))
  | return {t : Located Token} {us ts : List (Located Token)} {e : Expr Span} :
      t.item.kind = .keyword .returnWord → Derives us (.expr 9 e) → ts = t :: us →
      Derives ts (.stmt (.return (some e) (t.span.upTo ts)))
  | ifThen {t thenWord : Located Token} {us vs ts : List (Located Token)} {e : Expr Span}
      {b : Stmt Span} : t.item.kind = .keyword .ifWord → Derives us (.expr 9 e) →
      thenWord.item.kind = .keyword .thenWord → Derives vs (.stmt b) →
      ts = t :: (us ++ thenWord :: vs) →
      Derives ts (.stmt (.ifThen e b (t.span.upTo ts)))
  | ifElse {t thenWord elseWord : Located Token} {us vs ws ts : List (Located Token)} {e : Expr Span}
      {b o : Stmt Span} : t.item.kind = .keyword .ifWord → Derives us (.expr 9 e) →
      thenWord.item.kind = .keyword .thenWord → Derives vs (.stmt b) →
      elseWord.item.kind = .keyword .elseWord → Derives ws (.stmt o) →
      ts = t :: (us ++ thenWord :: (vs ++ elseWord :: ws)) →
      Derives ts (.stmt (.ifElse e b o (t.span.upTo ts)))
  | while {t doWord : Located Token} {us vs ts : List (Located Token)} {e : Expr Span} {b : Stmt Span} :
      t.item.kind = .keyword .whileWord → Derives us (.expr 9 e) →
      doWord.item.kind = .keyword .doWord → Derives vs (.stmt b) → ts = t :: (us ++ doWord :: vs) →
      Derives ts (.stmt (.while e b (t.span.upTo ts)))
  | block {left right : Located Token} {breaks us ts : List (Located Token)} {ss : List (Stmt Span)} :
      left.item.kind = .symbol .leftBrace → Breaks breaks → Derives us (.stmts ss) →
      right.item.kind = .symbol .rightBrace → ts = left :: (breaks ++ (us ++ [right])) →
      Derives ts (.stmt (.block ss (left.span.upTo ts)))
  | expression {ts : List (Located Token)} {e : Expr Span} : Derives ts (.expr 9 e) →
      Derives ts (.stmt (.expression e e.note))
  | noStmts : Derives [] (.stmts [])
  | lastStmt {ts : List (Located Token)} {s : Stmt Span} : Derives ts (.stmt s) → Derives ts (.stmts [s])
  | moreStmts {ts breaks us : List (Located Token)} {s : Stmt Span} {ss : List (Stmt Span)} :
      Derives ts (.stmt s) → breaks ≠ [] → Breaks breaks → Derives us (.stmts ss) →
      Derives (ts ++ (breaks ++ us)) (.stmts (s :: ss))
  -- members
  | returned {eq : Located Token} {ts : List (Located Token)} {e : Expr Span} :
      eq.item.kind = .symbol .equal → Derives ts (.expr 9 e) →
      Derives (eq :: ts) (.body true (.return (some e) e.note))
  | bodyStmt {returnsValue : Bool} {eq t : Located Token} {ts : List (Located Token)} {s : Stmt Span} :
      eq.item.kind = .symbol .equal → (returnsValue = true → startsStatement t.item.kind = true) →
      Derives (t :: ts) (.stmt s) → Derives (eq :: t :: ts) (.body returnsValue s)
  | bodyBlock {returnsValue : Bool} {ts : List (Located Token)} {ss : List (Stmt Span)} {span : Span} :
      Derives ts (.stmt (.block ss span)) → Derives ts (.body returnsValue (.block ss span))
  | noInitializer : Derives [] (.initializer none)
  | initializer {eq : Located Token} {ts : List (Located Token)} {e : Expr Span} :
      eq.item.kind = .symbol .equal → Derives ts (.expr 9 e) → Derives (eq :: ts) (.initializer (some e))
  | notOverriding : Derives [] (.overriding false)
  | overriding {t : Located Token} : t.item.kind = .keyword .overrideWord →
      Derives [t] (.overriding true)
  | methodNamed {x : String} {s : Span} : Derives [⟨.name x, s⟩] (.methodName (.named ⟨x, s⟩))
  | binaryMethod {t t' : Located Token} {op : BinaryOp} : t.item.kind = .keyword .binaryWord →
      t'.item.kind = .symbol op.symbol →
      Derives [t, t'] (.methodName (.binary op (t.span.through t'.span)))
  | unaryMethod {t t' : Located Token} {op : UnaryOp} : t.item.kind = .keyword .unaryWord →
      t'.item.kind = .symbol op.symbol →
      Derives [t, t'] (.methodName (.unary op (t.span.through t'.span)))
  | oneParam {x : String} {s : Span} {colon : Located Token} {us ts : List (Located Token)}
      {w : TypeName} : colon.item.kind = .symbol .colon → Derives us (.type false w) →
      ts = ⟨.name x, s⟩ :: colon :: us → Derives ts (.paramList [⟨⟨x, s⟩, w, s.upTo ts⟩])
  | moreParams {ts us : List (Located Token)} {p : Param} {ps : List Param} {comma : Located Token} :
      Derives ts (.paramList [p]) → comma.item.kind = .symbol .comma → Derives us (.paramList ps) →
      Derives (ts ++ comma :: us) (.paramList (p :: ps))
  | noParams {left right : Located Token} : left.item.kind = .symbol .leftParen →
      right.item.kind = .symbol .rightParen → Derives [left, right] (.params [])
  | params {left right : Located Token} {ts : List (Located Token)} {ps : List Param} :
      left.item.kind = .symbol .leftParen → Derives ts (.paramList ps) →
      right.item.kind = .symbol .rightParen → Derives (left :: (ts ++ [right])) (.params ps)
  | noBaseCall : Derives [] (.baseCall none)
  | baseCall {colon t : Located Token} {ts : List (Located Token)} {es : List (Expr Span)} :
      colon.item.kind = .symbol .colon → t.item.kind = .keyword .baseWord → Derives ts (.arguments es) →
      Derives (colon :: t :: ts) (.baseCall (some es))
  | field {t colon : Located Token} {level : Access} {x : String} {s : Span} {w : TypeName}
      {e : Option (Expr Span)} {us vs ts : List (Located Token)} :
      access? t.item.kind = some level → colon.item.kind = .symbol .colon → Derives us (.type false w) →
      Derives vs (.initializer e) → ts = t :: ⟨.name x, s⟩ :: colon :: (us ++ vs) →
      Derives ts (.member (.field ⟨level, ⟨x, s⟩, w, e, t.span.upTo ts⟩))
  | method {t : Located Token} {level : Access} {isOverride : Bool} {name : MethodName}
      {ps : List Param} {w : Option TypeName} {b : Stmt Span} {us vs ws xs ys ts : List (Located Token)} :
      access? t.item.kind = some level → Derives us (.overriding isOverride) →
      Derives vs (.methodName name) → Derives ws (.params ps) → Derives xs (.annotated w) →
      Derives ys (.body (returnsValue w) b) → ts = t :: (us ++ (vs ++ (ws ++ (xs ++ ys)))) →
      Derives ts (.member (.method ⟨level, isOverride, name, ps, w, b, t.span.upTo ts⟩))
  | constructor {t new : Located Token} {level : Access} {ps : List Param}
      {es : Option (List (Expr Span))} {b : Stmt Span} {us vs ws ts : List (Located Token)} :
      access? t.item.kind = some level → new.item.kind = .keyword .newWord → Derives us (.params ps) →
      Derives vs (.baseCall es) → Derives ws (.body false b) → ts = t :: new :: (us ++ (vs ++ ws)) →
      Derives ts (.member (.constructor ⟨level, ps, es, b, t.span.upTo ts⟩))
  | noMembers : Derives [] (.members [])
  | lastMember {ts : List (Located Token)} {m : MemberDecl Span} :
      Derives ts (.member m) → Derives ts (.members [m])
  | moreMembers {ts breaks us : List (Located Token)} {m : MemberDecl Span}
      {ms : List (MemberDecl Span)} :
      Derives ts (.member m) → breaks ≠ [] → Breaks breaks → Derives us (.members ms) →
      Derives (ts ++ (breaks ++ us)) (.members (m :: ms))
  -- classes
  | noParent : Derives [] (.parent none)
  | parent {colon : Located Token} {x : String} {s : Span} : colon.item.kind = .symbol .colon →
      Derives [colon, ⟨.name x, s⟩] (.parent (some ⟨x, s⟩))
  | classDecl {t left right : Located Token} {x : String} {s : Span} {parent : Option Ident}
      {ms : List (MemberDecl Span)} {us breaks vs ts : List (Located Token)} :
      t.item.kind = .keyword .classWord → Derives us (.parent parent) →
      left.item.kind = .symbol .leftBrace → Breaks breaks → Derives vs (.members ms) →
      right.item.kind = .symbol .rightBrace →
      ts = t :: ⟨.name x, s⟩ :: (us ++ left :: (breaks ++ (vs ++ [right]))) →
      Derives ts (.classDecl ⟨⟨x, s⟩, parent, ms, t.span.upTo ts⟩)
  | noClasses : Derives [] (.classes [])
  | moreClasses {ts breaks us : List (Located Token)} {decl : ClassDecl Span}
      {decls : List (ClassDecl Span)} :
      Derives ts (.classDecl decl) → Breaks breaks → Derives us (.classes decls) →
      Derives (ts ++ (breaks ++ us)) (.classes (decl :: decls))
  | program {first : Located Token} {breaks us ts : List (Located Token)} {fin : Span}
      {decls : List (ClassDecl Span)} : Breaks breaks → Derives us (.classes decls) →
      breaks ++ (us ++ [⟨.endOfFile, fin⟩]) = first :: ts →
      Derives (first :: ts) (.program ⟨decls,
        decls.getLast?.elim first.span fun last => first.span.through last.span⟩)

end Grammar

end ClassLang
