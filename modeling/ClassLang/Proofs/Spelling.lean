import ClassLang.Grammar.Parser

/-!
# Spelling trees

How a tree is written as tokens, with parentheses only where its parts bind too loosely. The rank of an
expression says how loosely it binds: literals, names, `this`, `base` and constructions have rank 0,
accesses, calls and `!` behind an operand rank 1, prefix operators rank 2, the six levels of binary
operators the ranks 3 to 8, with `is` and `as` on the rank of the comparisons, and assignments rank 9.
An operand of a higher rank than its place allows is written in parentheses: the left operand of a
binary operator may have the rank of the operator and the right one not, so operators group to the
left; the target of an assignment has to bind tighter than an assignment and the value need not, so
assignments group to the right.

Not every tree can be written. `null` is a type for `is` alone, and an `if` without an `else` that ends
the branch before an `else` would take it (`Stmt.writable`).
-/

namespace ClassLang

/-- How loosely a binary operator binds. -/
def BinaryOp.rank : BinaryOp → Nat
  | .multiply | .divide | .modulo => 3
  | .add | .subtract => 4
  | .less | .greater | .lessEqual | .greaterEqual => 5
  | .equal | .notEqual => 6
  | .and => 7
  | .or => 8

/-- The symbol that a binary operator is written as. -/
def BinaryOp.symbol : BinaryOp → Symbol
  | .add => .plus
  | .subtract => .minus
  | .multiply => .star
  | .divide => .slash
  | .modulo => .percent
  | .and => .andAnd
  | .or => .orOr
  | .equal => .equalEqual
  | .notEqual => .bangEqual
  | .less => .less
  | .greater => .greater
  | .lessEqual => .lessEqual
  | .greaterEqual => .greaterEqual

/-- The symbol that a prefix operator is written as. -/
def UnaryOp.symbol : UnaryOp → Symbol
  | .negate => .minus
  | .not => .bang

namespace TypeName

/-- The tokens of a written type. -/
def tokens : TypeName → List Token
  | .named x => [.name x.name]
  | .optional x _ => [.name x.name, .symbol .question]
  | .null _ => [.keyword .nullWord]

/-- The type is `null`. -/
def isNull : TypeName → Bool
  | .null _ => true
  | .named _ | .optional _ _ => false

/-- The type without the places where it was written. -/
def bare : TypeName → TypeName
  | .named x => .named ⟨x.name, .none⟩
  | .optional x _ => .optional ⟨x.name, .none⟩ .none
  | .null _ => .null .none

end TypeName

namespace Expr

variable {ν : Type}

/-- How loosely an expression binds. -/
def rank : Expr ν → Nat
  | .number _ _ | .string _ _ | .boolean _ _ | .null _ | .name _ _ | .this _ | .base _ | .new _ _ _ => 0
  | .member _ _ _ | .call _ _ _ | .assert _ _ => 1
  | .unary _ _ _ => 2
  | .binary op _ _ _ => op.rank
  | .instanceTest _ _ _ | .cast _ _ _ => 5
  | .assign _ _ _ => 9

/-- Tokens of an expression of rank `rank` at a place for ranks up to `limit`. -/
def enclose (limit rank : Nat) (ts : List Token) : List Token :=
  if rank ≤ limit then ts else .symbol .leftParen :: (ts ++ [.symbol .rightParen])

mutual

/-- The tokens of an expression. -/
def tokens : Expr ν → List Token
  | .number x _ => [.number x]
  | .string s _ => [.string s]
  | .boolean b _ => [.keyword (if b then .trueWord else .falseWord)]
  | .null _ => [.keyword .nullWord]
  | .name x _ => [.name x]
  | .this _ => [.keyword .thisWord]
  | .base _ => [.keyword .baseWord]
  | .member e x _ => enclose 1 e.rank e.tokens ++ [.symbol .dot, .name x.name]
  | .call e es _ =>
    enclose 1 e.rank e.tokens ++ .symbol .leftParen :: (tokensList es ++ [.symbol .rightParen])
  | .new c es _ =>
    .keyword .newWord :: .name c.name :: .symbol .leftParen :: (tokensList es ++ [.symbol .rightParen])
  | .assign e v _ => enclose 8 e.rank e.tokens ++ .symbol .equal :: v.tokens
  | .binary op l r _ => enclose op.rank l.rank l.tokens ++
      .symbol op.symbol :: enclose (op.rank - 1) r.rank r.tokens
  | .unary op e _ => .symbol op.symbol :: enclose 2 e.rank e.tokens
  | .assert e _ => enclose 1 e.rank e.tokens ++ [.symbol .bang]
  | .instanceTest e w _ => enclose 5 e.rank e.tokens ++ .keyword .isWord :: w.tokens
  | .cast e w _ => enclose 5 e.rank e.tokens ++ .keyword .asWord :: w.tokens

/-- The tokens of arguments, with commas between them. -/
def tokensList : List (Expr ν) → List Token
  | [] => []
  | [e] => e.tokens
  | e :: e' :: es => e.tokens ++ .symbol .comma :: tokensList (e' :: es)

end

mutual

/-- The expression without notes and without the places where its names were written. -/
def bare : Expr ν → Expr Unit
  | .number x _ => .number x ()
  | .string s _ => .string s ()
  | .boolean b _ => .boolean b ()
  | .null _ => .null ()
  | .name x _ => .name x ()
  | .this _ => .this ()
  | .base _ => .base ()
  | .member e x _ => .member e.bare ⟨x.name, .none⟩ ()
  | .call e es _ => .call e.bare (bareList es) ()
  | .new c es _ => .new ⟨c.name, .none⟩ (bareList es) ()
  | .assign e v _ => .assign e.bare v.bare ()
  | .binary op l r _ => .binary op l.bare r.bare ()
  | .unary op e _ => .unary op e.bare ()
  | .assert e _ => .assert e.bare ()
  | .instanceTest e w _ => .instanceTest e.bare w.bare ()
  | .cast e w _ => .cast e.bare w.bare ()

/-- `bare` on each of several expressions. -/
def bareList : List (Expr ν) → List (Expr Unit)
  | [] => []
  | e :: es => e.bare :: bareList es

end

mutual

/-- No cast in the expression is to `null`. -/
def writable : Expr ν → Bool
  | .number _ _ | .string _ _ | .boolean _ _ | .null _ | .name _ _ | .this _ | .base _ => true
  | .member e _ _ | .unary _ e _ | .assert e _ | .instanceTest e _ _ => e.writable
  | .call e es _ => e.writable && writableList es
  | .new _ es _ => writableList es
  | .assign e v _ => e.writable && v.writable
  | .binary _ l r _ => l.writable && r.writable
  | .cast e w _ => e.writable && !w.isNull

/-- No cast in the expressions is to `null`. -/
def writableList : List (Expr ν) → Bool
  | [] => true
  | e :: es => e.writable && writableList es

end

end Expr

namespace Stmt

variable {ν : Type}

mutual

/-- The tokens of a statement. The statements of a block stand on lines of their own. -/
def tokens : Stmt ν → List Token
  | .define x w e _ => .keyword .letWord :: .name x.name ::
      (w.elim [] (fun w => .symbol .colon :: w.tokens) ++ .symbol .equal :: e.tokens)
  | .return e _ => .keyword .returnWord :: e.elim [] Expr.tokens
  | .ifThen e b _ => .keyword .ifWord :: (e.tokens ++ .keyword .thenWord :: b.tokens)
  | .ifElse e b o _ => .keyword .ifWord ::
      (e.tokens ++ .keyword .thenWord :: (b.tokens ++ .keyword .elseWord :: o.tokens))
  | .while e b _ => .keyword .whileWord :: (e.tokens ++ .keyword .doWord :: b.tokens)
  | .block bs _ => .symbol .leftBrace :: (tokensList bs ++ [.symbol .rightBrace])
  | .expression e _ => e.tokens

/-- The tokens of statements, with line breaks between them. -/
def tokensList : List (Stmt ν) → List Token
  | [] => []
  | [b] => b.tokens
  | b :: b' :: bs => b.tokens ++ .lineBreak :: tokensList (b' :: bs)

end

mutual

/-- The statement without notes and without the places where its parts were written. -/
def bare : Stmt ν → Stmt Unit
  | .define x w e _ => .define ⟨x.name, .none⟩ (w.map TypeName.bare) e.bare .none
  | .return e _ => .return (e.map Expr.bare) .none
  | .ifThen e b _ => .ifThen e.bare b.bare .none
  | .ifElse e b o _ => .ifElse e.bare b.bare o.bare .none
  | .while e b _ => .while e.bare b.bare .none
  | .block bs _ => .block (bareList bs) .none
  | .expression e _ => .expression e.bare .none

/-- `bare` on each of several statements. -/
def bareList : List (Stmt ν) → List (Stmt Unit)
  | [] => []
  | b :: bs => b.bare :: bareList bs

end

/-- The statement ends in an `if` without an `else`, so that it would take one that follows. -/
def isOpen : Stmt ν → Bool
  | .ifThen _ _ _ => true
  | .ifElse _ _ o _ => o.isOpen
  | .while _ b _ => b.isOpen
  | .define _ _ _ _ | .return _ _ | .block _ _ | .expression _ _ => false

mutual

/-- No branch in front of an `else` is open. -/
def isBound : Stmt ν → Bool
  | .define _ _ _ _ | .return _ _ | .expression _ _ => true
  | .ifThen _ b _ | .while _ b _ => b.isBound
  | .ifElse _ b o _ => b.isBound && !b.isOpen && o.isBound
  | .block bs _ => isBoundList bs

/-- No branch in front of an `else` is open. -/
def isBoundList : List (Stmt ν) → Bool
  | [] => true
  | b :: bs => b.isBound && isBoundList bs

end

mutual

/-- The expressions of the statement can be written, and no variable is declared as `null`. -/
def writable : Stmt ν → Bool
  | .define _ w e _ => !w.any TypeName.isNull && e.writable
  | .return e _ => e.all Expr.writable
  | .ifThen e b _ | .while e b _ => e.writable && b.writable
  | .ifElse e b o _ => e.writable && b.writable && o.writable
  | .block bs _ => writableList bs
  | .expression e _ => e.writable

/-- `writable` for each of several statements. -/
def writableList : List (Stmt ν) → Bool
  | [] => true
  | b :: bs => b.writable && writableList bs

end

end Stmt

namespace Grammar

/-- The rank of the expressions that a token goes on with, if it can stand behind one. A `?` makes a
written type optional. -/
def joins? : TokenKind → Option Nat
  | .symbol .question => some 0
  | .symbol .dot | .symbol .leftParen | .symbol .bang => some 1
  | .keyword .isWord | .keyword .asWord => some 5
  | .symbol .equal => some 9
  | kind => (binaryOp? kind).map BinaryOp.rank

example : ∀ kind ∈ [.lineBreak, .symbol .rightBrace, .endOfFile, .symbol .rightParen, .symbol .comma,
    .keyword .thenWord, .keyword .doWord], joins? kind = none := by decide

/-- A token ends an expression of rank `rank`: what it goes on with, if anything, binds looser. -/
def Stops (rank : Nat) (kind : TokenKind) : Prop := ∀ r ∈ joins? kind, rank < r

/-- A token starts an expression. -/
def startsExpr : TokenKind → Bool
  | .number | .string | .name => true
  | .keyword .trueWord | .keyword .falseWord | .keyword .nullWord | .keyword .thisWord
  | .keyword .baseWord | .keyword .newWord => true
  | .symbol .leftParen | .symbol .minus | .symbol .bang => true
  | _ => false

theorem Stops.mono {rank rank' : Nat} {kind : TokenKind} (h : Stops rank' kind) (hle : rank ≤ rank') :
    Stops rank kind := fun r hr => Nat.lt_of_le_of_lt hle (h r hr)

theorem Stops.of_none {rank : Nat} {kind : TokenKind} (h : joins? kind = none) : Stops rank kind := by
  intro r hr
  rw [h] at hr
  cases hr

theorem Stops.of_looser {rank r : Nat} {kind : TokenKind} (h : joins? kind = some r)
    (hlt : rank < r) : Stops rank kind := by
  intro r' hr
  rw [h] at hr
  cases hr
  exact hlt

theorem Stops.ne_question {rank : Nat} {kind : TokenKind} (h : Stops rank kind) :
    kind ≠ .symbol .question := by
  rintro rfl
  exact absurd (h 0 rfl) (Nat.not_lt_zero _)

/-! ## The first token -/

section

variable {ν : Type}

/-- The tokens start an expression, and if it binds tighter than a prefix operator, they do not start with
one. -/
def Begins (rank : Nat) (ts : List Token) : Prop :=
  ∃ t ts', ts = t :: ts' ∧ startsExpr t.kind = true ∧ (rank ≤ 1 → unaryOp? t.kind = none)

theorem Begins.mono {rank rank' : Nat} {ts : List Token} (h : Begins rank ts) (hle : rank ≤ rank') :
    Begins rank' ts := by
  obtain ⟨t, ts', rfl, hstart, hplain⟩ := h
  exact ⟨t, ts', rfl, hstart, fun hle' => hplain (Nat.le_trans hle hle')⟩

theorem Begins.append {rank : Nat} {ts : List Token} (h : Begins rank ts) (ts' : List Token) :
    Begins rank (ts ++ ts') := by
  obtain ⟨t, ts'', rfl, hstart, hplain⟩ := h
  exact ⟨t, ts'' ++ ts', rfl, hstart, hplain⟩

theorem Begins.enclose {rank : Nat} {ts : List Token} (h : Begins rank ts) (limit : Nat) :
    Begins limit (Expr.enclose limit rank ts) := by
  unfold Expr.enclose
  split
  · next hle => exact h.mono hle
  · exact ⟨_, _, rfl, rfl, fun _ => rfl⟩

theorem begins_tokens : ∀ e : Expr ν, Begins e.rank e.tokens
  | .number _ _ | .string _ _ | .null _ | .name _ _ | .this _ | .base _ | .new _ _ _ =>
    ⟨_, _, rfl, rfl, fun _ => rfl⟩
  | .boolean b _ => by cases b <;> exact ⟨_, _, rfl, rfl, fun _ => rfl⟩
  | .member e _ _ | .call e _ _ | .assert e _ => ((begins_tokens e).enclose 1).append _
  | .unary op _ _ => by cases op <;> exact ⟨_, _, rfl, rfl, fun h => absurd h (Nat.not_succ_le_self 1)⟩
  | .binary op l _ _ => ((begins_tokens l).enclose op.rank).append _
  | .assign e _ _ => (((begins_tokens e).enclose 8).mono (Nat.le_succ 8)).append _
  | .instanceTest e _ _ | .cast e _ _ => ((begins_tokens e).enclose 5).append _

end

end Grammar

end ClassLang
