import ClassLang.Grammar.Cursor
import ClassLang.Tree.Decl
import ClassLang.Tree.Stmt

/-!
# Reading programs

The parsers of expressions, of statements, of declarations and of whole files. A syntax error gives up
its class; reading goes on at the next `class` that starts a line, so a file can have one error per
class. Every recovery passes at least one token.
-/

namespace ClassLang.Grammar

/-! ## Expressions

From loosest to tightest: assignment (which groups to the right), six levels of binary operators
(which group to the left, with `is` and `as` on the level of the comparisons), prefix operators,
member access, calls and `!`, and the primary expressions. Parentheses only group: the expression in
them keeps its own span. -/

/-- The levels of the binary operators, the tightest first. -/
def operatorLevels : List (List (Symbol × BinaryOp)) :=
  [[(.star, .multiply), (.slash, .divide), (.percent, .modulo)],
   [(.plus, .add), (.minus, .subtract)],
   [(.less, .less), (.greater, .greater), (.lessEqual, .lessEqual), (.greaterEqual, .greaterEqual)],
   [(.equalEqual, .equal), (.bangEqual, .notEqual)],
   [(.andAnd, .and)],
   [(.orOr, .or)]]

/-- The level of the comparisons, on which `is` and `as` stand as well. -/
def comparisonLevel : Nat := 2

example : operatorLevels.length = 6 := by decide

/-- The operator that a token is on a level. -/
def operatorAt? (level : Nat) (kind : TokenKind) : Option BinaryOp :=
  match kind with
  | .symbol s => (operatorLevels[level]?).bind (·.lookup s)
  | _ => none

/-- Reads a written type, `null` only where it is allowed. Any number of `?` counts as one. -/
def typeName (allowNull : Bool) (c : Cursor) : Parse TypeName c :=
  match if allowNull then c.accept? (.keyword .nullWord) else none with
  | some ⟨t, c₁, h₁⟩ => .ok ⟨.null t.span, c₁, h₁⟩
  | none => do
    let ⟨name, c₁, h₁⟩ ← c.expectName
    let rec marks (c : Cursor) : { d : Cursor // d.size ≤ c.size } :=
      match c.accept? (.symbol .question) with
      | none => ⟨c, Nat.le_refl _⟩
      | some ⟨_, d, h⟩ => let ⟨e, h'⟩ := marks d; ⟨e, by omega⟩
    termination_by c.size
    match c₁.accept? (.symbol .question) with
    | none => return ⟨.named name, c₁, h₁⟩
    | some ⟨_, c₂, h₂⟩ =>
      let ⟨c₃, h₃⟩ := marks c₂
      return ⟨.optional name (c₃.spanFrom name.span), c₃, by omega⟩

/-- The kinds of tokens that start a primary expression, as far as errors list them. -/
def primaryKinds : List TokenKind :=
  [.name, .number, .string, .keyword .newWord, .keyword .thisWord, .symbol .leftParen]

/-- The literal, name, `this` or `base` that a token is, written at `span`. -/
def atom? (t : Token) (span : Span) : Option (Expr Span) :=
  match t with
  | .number value => some (.number value span)
  | .string content => some (.string content span)
  | .keyword .trueWord => some (.boolean true span)
  | .keyword .falseWord => some (.boolean false span)
  | .keyword .nullWord => some (.null span)
  | .keyword .thisWord => some (.this span)
  | .keyword .baseWord => some (.base span)
  | .name name => some (.name name span)
  | _ => none

/-- The prefix operator that a token is. -/
def unaryOp? : TokenKind → Option UnaryOp
  | .symbol .minus => some .negate
  | .symbol .bang => some .not
  | _ => none

/-- Falls from call to call while an expression is read: fewer tokens are left, or as many and the callee has a
lower rank. Operators are read below a height, which never rises above that of an expression or of the first
call. This is a number, and not a pair of numbers, so that closed calls can be evaluated. -/
def depth (c : Cursor) (height rank : Nat) : Nat := c.size * (max height 6 + 64) + rank

theorem depth_lt {c d : Cursor} {g h r s : Nat} (hheight : max g 6 ≤ max h 6)
    (hrank : d.size < c.size ∧ r < max g 6 + 64 ∨ d.size ≤ c.size ∧ r < s) : depth d g r < depth c h s := by
  have hfactor : max g 6 + 64 ≤ max h 6 + 64 := Nat.add_le_add_right hheight 64
  unfold depth
  rcases hrank with ⟨hsize, hr⟩ | ⟨hsize, hr⟩
  · have hmul := Nat.mul_le_mul (Nat.succ_le_of_lt hsize) hfactor
    rw [Nat.succ_mul] at hmul
    omega
  · exact Nat.add_lt_add_of_le_of_lt (Nat.mul_le_mul hsize hfactor) hr

mutual

/-- Reads an expression: a target, and after `=` the value assigned to it. -/
def expression (c : Cursor) : Parse (Expr Span) c := do
  let ⟨target, c₁, h₁⟩ ← binary 6 c
  match c₁.accept? (.symbol .equal) with
  | none => return ⟨target, c₁, h₁⟩
  | some ⟨_, c₂, h₂⟩ =>
    let ⟨value, c₃, h₃⟩ ← expression c₂
    return ⟨.assign target value (target.note.merge value.note), c₃, by omega⟩
termination_by depth c 6 20
decreasing_by all_goals exact depth_lt (by omega) (by omega)

/-- Reads operands joined by the operators of the levels below `height`. -/
def binary (height : Nat) (c : Cursor) : Parse (Expr Span) c :=
  match height with
  | 0 => unary c
  | level + 1 => do
    let ⟨left, c₁, h₁⟩ ← binary level c
    let ⟨whole, c₂, h₂⟩ ← binaryRest level left c₁
    return ⟨whole, c₂, by omega⟩
termination_by depth c height (10 + height)
decreasing_by all_goals exact depth_lt (by omega) (by omega)

/-- Reads on behind a left operand as long as operators of the level follow. -/
def binaryRest (level : Nat) (left : Expr Span) (c : Cursor) : Continue (Expr Span) c := do
  match if level = comparisonLevel then c.accept? (.keyword .isWord) else none with
  | some ⟨_, c₁, h₁⟩ =>
    let ⟨target, c₂, h₂⟩ ← typeName true c₁
    let ⟨whole, c₃, h₃⟩ ← binaryRest level (.instanceTest left target (left.note.merge target.span)) c₂
    return ⟨whole, c₃, by omega⟩
  | none =>
    match if level = comparisonLevel then c.accept? (.keyword .asWord) else none with
    | some ⟨_, c₁, h₁⟩ =>
      let ⟨target, c₂, h₂⟩ ← typeName false c₁
      let ⟨whole, c₃, h₃⟩ ← binaryRest level (.cast left target (left.note.merge target.span)) c₂
      return ⟨whole, c₃, by omega⟩
    | none =>
      match operatorAt? level c.kind with
      | none => return ⟨left, c, Nat.le_refl _⟩
      | some op =>
        let ⟨_, c₁, h₁⟩ ← c.expect c.kind
        let ⟨right, c₂, h₂⟩ ← binary level c₁
        let ⟨whole, c₃, h₃⟩ ← binaryRest level (.binary op left right (left.note.merge right.note)) c₂
        return ⟨whole, c₃, by omega⟩
termination_by depth c level 0
decreasing_by all_goals exact depth_lt (by omega) (by omega)

/-- Reads an operand with the operators in front of it. -/
def unary (c : Cursor) : Parse (Expr Span) c :=
  match unaryOp? c.kind with
  | none => chain c
  | some op => do
    let ⟨t, c₁, h₁⟩ ← c.expect c.kind
    let ⟨operand, c₂, h₂⟩ ← unary c₁
    return ⟨.unary op operand (t.span.merge operand.note), c₂, by omega⟩
termination_by depth c 0 9
decreasing_by all_goals exact depth_lt (by omega) (by omega)

/-- Reads a primary expression with the accesses, calls and assertions behind it. -/
def chain (c : Cursor) : Parse (Expr Span) c := do
  let ⟨e, c₁, h₁⟩ ← primary c
  let ⟨whole, c₂, h₂⟩ ← chainRest e c₁
  return ⟨whole, c₂, by omega⟩
termination_by depth c 0 8
decreasing_by all_goals exact depth_lt (by omega) (by omega)

/-- Reads on behind an expression as long as an access, a call or an assertion follows. -/
def chainRest (e : Expr Span) (c : Cursor) : Continue (Expr Span) c := do
  match c.accept? (.symbol .dot) with
  | some ⟨_, c₁, h₁⟩ =>
    let ⟨property, c₂, h₂⟩ ← c₁.expectName
    let ⟨whole, c₃, h₃⟩ ← chainRest (.member e property (e.note.merge property.span)) c₂
    return ⟨whole, c₃, by omega⟩
  | none =>
    if c.kind = .symbol .leftParen then
      let ⟨args, c₁, h₁⟩ ← arguments c
      let ⟨whole, c₂, h₂⟩ ← chainRest (.call e args (c₁.spanFrom e.note)) c₁
      return ⟨whole, c₂, by omega⟩
    else
      match c.accept? (.symbol .bang) with
      | some ⟨_, c₁, h₁⟩ =>
        let ⟨whole, c₂, h₂⟩ ← chainRest (.assert e (c₁.spanFrom e.note)) c₁
        return ⟨whole, c₂, by omega⟩
      | none => return ⟨e, c, Nat.le_refl _⟩
termination_by depth c 0 2
decreasing_by all_goals exact depth_lt (by omega) (by omega)

/-- Reads a literal, a name, a construction or an expression in parentheses. -/
def primary (c : Cursor) : Parse (Expr Span) c :=
  match c.accept? (.keyword .newWord) with
  | some ⟨t, c₁, h₁⟩ => do
    let ⟨className, c₂, h₂⟩ ← c₁.expectName
    let ⟨args, c₃, h₃⟩ ← arguments c₂
    return ⟨.new className args (c₃.spanFrom t.span), c₃, by omega⟩
  | none =>
    match c.accept? (.symbol .leftParen) with
    | some ⟨_, c₁, h₁⟩ => do
      let ⟨inner, c₂, h₂⟩ ← expression c₁
      let ⟨_, c₃, h₃⟩ ← c₂.expect (.symbol .rightParen)
      return ⟨inner, c₃, by omega⟩
    | none =>
      match atom? c.current.item c.span with
      | some e => do
        let ⟨_, c₁, h₁⟩ ← c.expect c.kind
        return ⟨e, c₁, h₁⟩
      | none => .error (c.unexpected primaryKinds)
termination_by depth c 0 7
decreasing_by all_goals exact depth_lt (by omega) (by omega)

/-- Reads the arguments of a call with their parentheses. -/
def arguments (c : Cursor) : Parse (List (Expr Span)) c := do
  let ⟨_, c₁, h₁⟩ ← c.expect (.symbol .leftParen)
  match c₁.accept? (.symbol .rightParen) with
  | some ⟨_, c₂, h₂⟩ => return ⟨[], c₂, by omega⟩
  | none =>
    let ⟨args, c₂, h₂⟩ ← argumentList c₁
    let ⟨_, c₃, h₃⟩ ← c₂.expect (.symbol .rightParen)
    return ⟨args, c₃, by omega⟩
termination_by depth c 0 1
decreasing_by all_goals exact depth_lt (by omega) (by omega)

/-- Reads one or more expressions with commas between them. -/
def argumentList (c : Cursor) : Parse (List (Expr Span)) c := do
  let ⟨e, c₁, h₁⟩ ← expression c
  match c₁.accept? (.symbol .comma) with
  | none => return ⟨[e], c₁, h₁⟩
  | some ⟨_, c₂, h₂⟩ =>
    let ⟨es, c₃, h₃⟩ ← argumentList c₂
    return ⟨e :: es, c₃, by omega⟩
termination_by depth c 6 21
decreasing_by all_goals exact depth_lt (by omega) (by omega)

end

/-! ## Statements

Each statement of a block stands on its own line: a significant line break or the closing brace has to
follow it. -/

/-- Reads `: Type` if a colon comes next. -/
def typeAnnotation (c : Cursor) : Continue (Option TypeName) c := do
  match c.accept? (.symbol .colon) with
  | none => return ⟨none, c, Nat.le_refl _⟩
  | some ⟨_, c₁, h₁⟩ =>
    let ⟨type, c₂, h₂⟩ ← typeName false c₁
    return ⟨some type, c₂, by omega⟩

/-- Reads `let name : Type = value`. -/
def define (c : Cursor) : Parse (Stmt Span) c := do
  let ⟨t, c₁, h₁⟩ ← c.expect (.keyword .letWord)
  let ⟨name, c₂, h₂⟩ ← c₁.expectName
  let ⟨type, c₃, h₃⟩ ← typeAnnotation c₂
  let ⟨_, c₄, h₄⟩ ← c₃.expect (.symbol .equal)
  let ⟨value, c₅, h₅⟩ ← expression c₄
  return ⟨.define name type value (c₅.spanFrom t.span), c₅, by omega⟩

/-- A `return` has no value if one of these comes next. -/
def endsReturn : TokenKind → Bool
  | .lineBreak | .symbol .rightBrace | .keyword .elseWord | .endOfFile => true
  | _ => false

/-- Reads `return` and its value, if it has one. -/
def returnStmt (c : Cursor) : Parse (Stmt Span) c := do
  let ⟨t, c₁, h₁⟩ ← c.expect (.keyword .returnWord)
  if endsReturn c₁.kind then
    return ⟨.return none (c₁.spanFrom t.span), c₁, h₁⟩
  else
    let ⟨value, c₂, h₂⟩ ← expression c₁
    return ⟨.return (some value) (c₂.spanFrom t.span), c₂, by omega⟩

/-- Reads the line break that separates two statements. -/
def statementBreak (c : Cursor) : Parse (Located Token) c :=
  match c.expect .lineBreak with
  | .ok p => .ok p
  | .error e => .error { e with advice := some .statementPerLine }

mutual

/-- Reads a statement. -/
def statement (c : Cursor) : Parse (Stmt Span) c :=
  match c.kind with
  | .keyword .letWord => define c
  | .keyword .returnWord => returnStmt c
  | .keyword .ifWord => do
    let ⟨t, c₁, h₁⟩ ← c.expect (.keyword .ifWord)
    let ⟨condition, c₂, h₂⟩ ← expression c₁
    let ⟨_, c₃, h₃⟩ ← c₂.expect (.keyword .thenWord)
    let ⟨branch, c₄, h₄⟩ ← statement c₃
    match c₄.accept? (.keyword .elseWord) with
    | none => return ⟨.ifThen condition branch (c₄.spanFrom t.span), c₄, by omega⟩
    | some ⟨_, c₅, h₅⟩ =>
      let ⟨otherwise, c₆, h₆⟩ ← statement c₅
      return ⟨.ifElse condition branch otherwise (c₆.spanFrom t.span), c₆, by omega⟩
  | .keyword .whileWord => do
    let ⟨t, c₁, h₁⟩ ← c.expect (.keyword .whileWord)
    let ⟨condition, c₂, h₂⟩ ← expression c₁
    let ⟨_, c₃, h₃⟩ ← c₂.expect (.keyword .doWord)
    let ⟨body, c₄, h₄⟩ ← statement c₃
    return ⟨.while condition body (c₄.spanFrom t.span), c₄, by omega⟩
  | .symbol .leftBrace => block c
  | _ => do
    let ⟨value, c₁, h₁⟩ ← expression c
    return ⟨.expression value value.note, c₁, h₁⟩
termination_by c.size * 4 + 2

/-- Reads statements in braces. -/
def block (c : Cursor) : Parse (Stmt Span) c := do
  let ⟨t, c₁, h₁⟩ ← c.expect (.symbol .leftBrace)
  have h := c₁.size_skipBreaks
  let ⟨statements, c₂, h₂⟩ ← blockRest c₁.skipBreaks
  let ⟨_, c₃, h₃⟩ ← c₂.expect (.symbol .rightBrace)
  return ⟨.block statements (c₃.spanFrom t.span), c₃, by omega⟩
termination_by c.size * 4 + 1

/-- Reads statements up to a closing brace or the end of the file. -/
def blockRest (c : Cursor) : Continue (List (Stmt Span)) c := do
  if c.kind = .symbol .rightBrace ∨ c.kind = .endOfFile then
    return ⟨[], c, Nat.le_refl _⟩
  else
    let ⟨s, c₁, h₁⟩ ← statement c
    if c₁.kind = .symbol .rightBrace then
      return ⟨[s], c₁, by omega⟩
    else
      let ⟨_, c₂, h₂⟩ ← statementBreak c₁
      have h := c₂.size_skipBreaks
      let ⟨ss, c₃, h₃⟩ ← blockRest c₂.skipBreaks
      return ⟨s :: ss, c₃, by omega⟩
termination_by c.size * 4 + 3

end

/-! ## Declarations -/

/-- The access level that a token stands for. -/
def access? : TokenKind → Option Access
  | .keyword .publicWord => some .everyone
  | .keyword .protectedWord => some .family
  | .keyword .privateWord => some .owner
  | _ => none

/-- Reads an access level, with which every member starts. -/
def access (c : Cursor) : Parse Access c :=
  match access? c.kind with
  | some level => do
    let ⟨_, c₁, h₁⟩ ← c.expect c.kind
    return ⟨level, c₁, h₁⟩
  | none =>
    let kinds := [.keyword .publicWord, .keyword .protectedWord, .keyword .privateWord]
    .error { c.unexpected kinds with advice := some .accessFirst }

/-- The operator that a token is on any level. -/
def binaryOp? (kind : TokenKind) : Option BinaryOp :=
  match kind with
  | .symbol s => operatorLevels.flatten.lookup s
  | _ => none

/-- Reads `binary` and the operator that the method defines. -/
def binaryName (c : Cursor) : Parse MethodName c := do
  let ⟨t, c₁, h₁⟩ ← c.expect (.keyword .binaryWord)
  match binaryOp? c₁.kind with
  | some op =>
    let ⟨_, c₂, h₂⟩ ← c₁.expect c₁.kind
    return ⟨.binary op (c₂.spanFrom t.span), c₂, by omega⟩
  | none => throw (c₁.invalid (.notBinaryOperator c₁.current.item) c₁.span)

/-- Reads `unary` and the operator that the method defines. -/
def unaryName (c : Cursor) : Parse MethodName c := do
  let ⟨t, c₁, h₁⟩ ← c.expect (.keyword .unaryWord)
  match unaryOp? c₁.kind with
  | some op =>
    let ⟨_, c₂, h₂⟩ ← c₁.expect c₁.kind
    return ⟨.unary op (c₂.spanFrom t.span), c₂, by omega⟩
  | none => throw (c₁.invalid (.notUnaryOperator c₁.current.item) c₁.span)

/-- Reads one or more parameters with commas between them. -/
def paramList (c : Cursor) : Parse (List Param) c := do
  let ⟨name, c₁, h₁⟩ ← c.expectName
  let ⟨_, c₂, h₂⟩ ← c₁.expect (.symbol .colon)
  let ⟨type, c₃, h₃⟩ ← typeName false c₂
  let param : Param := ⟨name, type, c₃.spanFrom name.span⟩
  match c₃.accept? (.symbol .comma) with
  | none => return ⟨[param], c₃, by omega⟩
  | some ⟨_, c₄, h₄⟩ =>
    let ⟨params, c₅, h₅⟩ ← paramList c₄
    return ⟨param :: params, c₅, by omega⟩
termination_by c.size

/-- Reads the parameters of a member with their parentheses. -/
def params (c : Cursor) : Parse (List Param) c := do
  let ⟨_, c₁, h₁⟩ ← c.expect (.symbol .leftParen)
  match c₁.accept? (.symbol .rightParen) with
  | some ⟨_, c₂, h₂⟩ => return ⟨[], c₂, by omega⟩
  | none =>
    let ⟨list, c₂, h₂⟩ ← paramList c₁
    let ⟨_, c₃, h₃⟩ ← c₂.expect (.symbol .rightParen)
    return ⟨list, c₃, by omega⟩

/-- A token that starts a statement which is no expression. -/
def startsStatement : TokenKind → Bool
  | .keyword .letWord | .keyword .returnWord | .keyword .ifWord | .keyword .whileWord => true
  | .symbol .leftBrace => true
  | _ => false

/-- Reads the body of a member: `= statement` or a block. Where a value is returned, an expression
behind `=` is returned. -/
def body (returnsValue : Bool) (c : Cursor) : Parse (Stmt Span) c :=
  match c.accept? (.symbol .equal) with
  | some ⟨_, c₁, h₁⟩ => do
    if returnsValue && !startsStatement c₁.kind then
      let ⟨value, c₂, h₂⟩ ← expression c₁
      return ⟨.return (some value) value.note, c₂, by omega⟩
    else
      let ⟨s, c₂, h₂⟩ ← statement c₁
      return ⟨s, c₂, by omega⟩
  | none =>
    if c.kind = .symbol .leftBrace then block c
    else .error (c.unexpected [.symbol .equal, .symbol .leftBrace])

/-- A method with this written return type returns a value. -/
def returnsValue : Option TypeName → Bool
  | none => false
  | some (.named name) => name.name != "unit"
  | some _ => true

/-- Reads a field behind its name. -/
def fieldRest (level : Access) (name : Ident) (start : Span) (c : Cursor) :
    Parse (MemberDecl Span) c := do
  let ⟨_, c₁, h₁⟩ ← c.expect (.symbol .colon)
  let ⟨type, c₂, h₂⟩ ← typeName false c₁
  match c₂.accept? (.symbol .equal) with
  | none => return ⟨.field ⟨level, name, type, none, c₂.spanFrom start⟩, c₂, by omega⟩
  | some ⟨_, c₃, h₃⟩ =>
    let ⟨value, c₄, h₄⟩ ← expression c₃
    return ⟨.field ⟨level, name, type, some value, c₄.spanFrom start⟩, c₄, by omega⟩

/-- Reads a method behind its name. -/
def methodRest (level : Access) (isOverride : Bool) (name : MethodName) (start : Span) (c : Cursor) :
    Parse (MemberDecl Span) c := do
  let ⟨params, c₁, h₁⟩ ← params c
  let ⟨returns, c₂, h₂⟩ ← typeAnnotation c₁
  let ⟨body, c₃, h₃⟩ ← body (returnsValue returns) c₂
  return ⟨.method ⟨level, isOverride, name, params, returns, body, c₃.spanFrom start⟩, c₃, by omega⟩

/-- Reads a constructor behind its access level. -/
def constructorRest (level : Access) (start : Span) (c : Cursor) : Parse (MemberDecl Span) c := do
  let ⟨_, c₁, h₁⟩ ← c.expect (.keyword .newWord)
  let ⟨params, c₂, h₂⟩ ← params c₁
  match c₂.accept? (.symbol .colon) with
  | none =>
    let ⟨body, c₃, h₃⟩ ← body false c₂
    return ⟨.constructor ⟨level, params, none, body, c₃.spanFrom start⟩, c₃, by omega⟩
  | some ⟨_, c₃, h₃⟩ =>
    let ⟨_, c₄, h₄⟩ ← c₃.expect (.keyword .baseWord)
    let ⟨args, c₅, h₅⟩ ← arguments c₄
    let ⟨body, c₆, h₆⟩ ← body false c₅
    return ⟨.constructor ⟨level, params, some args, body, c₆.spanFrom start⟩, c₆, by omega⟩

/-- Reads a field or a method behind its access level and `override`. -/
def namedMember (level : Access) (isOverride : Bool) (start : Span) (c : Cursor) :
    Parse (MemberDecl Span) c :=
  match c.kind with
  | .keyword .binaryWord => do
    let ⟨name, c₁, h₁⟩ ← binaryName c
    let ⟨m, c₂, h₂⟩ ← methodRest level isOverride name start c₁
    return ⟨m, c₂, by omega⟩
  | .keyword .unaryWord => do
    let ⟨name, c₁, h₁⟩ ← unaryName c
    let ⟨m, c₂, h₂⟩ ← methodRest level isOverride name start c₁
    return ⟨m, c₂, by omega⟩
  | _ => do
    let ⟨name, c₁, h₁⟩ ← c.expectName
    if c₁.kind = .symbol .colon then
      if isOverride then throw (c₁.invalid .overrideField name.span)
      else
        let ⟨m, c₂, h₂⟩ ← fieldRest level name start c₁
        return ⟨m, c₂, by omega⟩
    else
      let ⟨m, c₂, h₂⟩ ← methodRest level isOverride (.named name) start c₁
      return ⟨m, c₂, by omega⟩

/-- Reads a member of a class. -/
def member (c : Cursor) : Parse (MemberDecl Span) c := do
  let ⟨level, c₁, h₁⟩ ← access c
  if c₁.kind = .keyword .newWord then
    let ⟨m, c₂, h₂⟩ ← constructorRest level c.span c₁
    return ⟨m, c₂, by omega⟩
  else
    match c₁.accept? (.keyword .overrideWord) with
    | none =>
      let ⟨m, c₂, h₂⟩ ← namedMember level false c.span c₁
      return ⟨m, c₂, by omega⟩
    | some ⟨_, c₂, h₂⟩ =>
      if c₂.kind = .keyword .newWord then throw (c₂.invalid .overrideConstructor c₂.span)
      else
        let ⟨m, c₃, h₃⟩ ← namedMember level true c.span c₂
        return ⟨m, c₃, by omega⟩

/-- Reads members up to a closing brace or the end of the file. -/
def memberList (c : Cursor) : Continue (List (MemberDecl Span)) c := do
  if c.kind = .symbol .rightBrace ∨ c.kind = .endOfFile then
    return ⟨[], c, Nat.le_refl _⟩
  else
    let ⟨m, c₁, h₁⟩ ← member c
    if c₁.kind = .symbol .rightBrace then
      return ⟨[m], c₁, by omega⟩
    else
      let ⟨_, c₂, h₂⟩ ← c₁.expect .lineBreak
      have h := c₂.size_skipBreaks
      let ⟨ms, c₃, h₃⟩ ← memberList c₂.skipBreaks
      return ⟨m :: ms, c₃, by omega⟩
termination_by c.size

/-- Reads `: Parent` if a colon comes next. -/
def parentName (c : Cursor) : Continue (Option Ident) c := do
  match c.accept? (.symbol .colon) with
  | none => return ⟨none, c, Nat.le_refl _⟩
  | some ⟨_, c₁, h₁⟩ =>
    let ⟨name, c₂, h₂⟩ ← c₁.expectName
    return ⟨some name, c₂, by omega⟩

/-- Reads a class. -/
def classDecl (c : Cursor) : Parse (ClassDecl Span) c := do
  let ⟨t, c₁, h₁⟩ ← c.expect (.keyword .classWord)
  let ⟨name, c₂, h₂⟩ ← c₁.expectName
  let ⟨parent, c₃, h₃⟩ ← parentName c₂
  let ⟨_, c₄, h₄⟩ ← c₃.expect (.symbol .leftBrace)
  have h := c₄.size_skipBreaks
  let ⟨members, c₅, h₅⟩ ← memberList c₄.skipBreaks
  let ⟨_, c₆, h₆⟩ ← c₅.expect (.symbol .rightBrace)
  return ⟨⟨name, parent, members, c₆.spanFrom t.span⟩, c₆, by omega⟩

/-! ## Files -/

/-- A `class` starts a line if no token or a line break stands in front of it. -/
def startsLine (previous : Option (Located Token)) : Bool :=
  match previous with
  | none => true
  | some t => t.item.kind = .lineBreak

/-- The tokens from the first `class` that starts a line. -/
def seekClassFrom (previous : Option (Located Token)) (finish : Span) :
    List (Located Token) → Cursor
  | [] => ⟨previous, [], finish⟩
  | t :: ts =>
    if t.item.kind = .keyword .classWord ∧ startsLine previous then ⟨previous, t :: ts, finish⟩
    else seekClassFrom (some t) finish ts

/-- Goes on to the first `class` that starts a line. -/
def seekClass (c : Cursor) : Cursor := seekClassFrom c.previous c.finish c.tokens

/-- Passes a number of tokens. -/
def advanceBy : Nat → Cursor → Cursor
  | 0, c => c
  | n + 1, c => advanceBy n c.advance

/-- Where reading goes on after an error in the declaration at `c`: at the next class behind the error,
and in any case behind the first token. -/
def recover (c : Cursor) (e : ParseError) : Cursor :=
  seekClass (advanceBy (c.size - e.remaining - 1) c.advance)

theorem size_seekClassFrom (previous : Option (Located Token)) (finish : Span)
    (ts : List (Located Token)) : (seekClassFrom previous finish ts).size ≤ ts.length := by
  induction ts generalizing previous with
  | nil => simp [seekClassFrom, Cursor.size]
  | cons t ts ih =>
    rw [seekClassFrom]
    split
    · simp [Cursor.size]
    · exact Nat.le_trans (ih _) (by simp)

theorem size_advance_le (c : Cursor) : c.advance.size ≤ c.size - 1 := by
  unfold Cursor.advance Cursor.size
  split <;> simp_all

theorem size_advanceBy (n : Nat) (c : Cursor) : (advanceBy n c).size ≤ c.size := by
  induction n generalizing c with
  | zero => exact Nat.le_refl _
  | succ n ih =>
    have h := size_advance_le c
    have := ih c.advance
    rw [advanceBy]
    omega

theorem size_recover (c : Cursor) (e : ParseError) : (recover c e).size ≤ c.size - 1 := by
  have h₁ := size_advance_le c
  have h₂ := size_advanceBy (c.size - e.remaining - 1) c.advance
  have h₃ := size_seekClassFrom (advanceBy (c.size - e.remaining - 1) c.advance).previous
    (advanceBy (c.size - e.remaining - 1) c.advance).finish
    (advanceBy (c.size - e.remaining - 1) c.advance).tokens
  exact Nat.le_trans h₃ (Nat.le_trans h₂ h₁)

/-- Reads the classes of a file, and the errors of those that cannot be read. -/
def classList (c : Cursor) : List (ClassDecl Span) × List ParseError :=
  if _ : c.size = 0 then ([], [])
  else
    match classDecl c with
    | .ok ⟨decl, d, _⟩ =>
      have := d.size_skipBreaks
      let (decls, errors) := classList d.skipBreaks
      (decl :: decls, errors)
    | .error e =>
      have := (recover c e).size_skipBreaks
      have := size_recover c e
      let (decls, errors) := classList (recover c e).skipBreaks
      (decls, e :: errors)
termination_by c.size

/-- Reads a file from its significant tokens: a program, or every syntax error. -/
def program (ts : List (Located Token)) : Except (List ParseError) (Program Span) :=
  let c := Cursor.ofTokens ts
  match classList c.skipBreaks with
  | (classes, []) =>
    .ok ⟨classes, match classes.getLast? with
      | some last => c.span.through last.span
      | none => c.span⟩
  | (_, errors) => .error errors

end ClassLang.Grammar
