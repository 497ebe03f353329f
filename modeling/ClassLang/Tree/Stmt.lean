import ClassLang.Tree.Expr

/-!
# Statements

Statement trees over expressions with notes, and the rule by which a statement always returns.
-/

namespace ClassLang

/-- A statement whose expressions carry notes of type `ν`. -/
inductive Stmt (ν : Type) where
  | define (name : Ident) (type : Option TypeName) (value : Expr ν) (span : Span)
  | return (value : Option (Expr ν)) (span : Span)
  | ifThen (condition : Expr ν) (branch : Stmt ν) (span : Span)
  | ifElse (condition : Expr ν) (branch otherwise : Stmt ν) (span : Span)
  | while (condition : Expr ν) (body : Stmt ν) (span : Span)
  | block (statements : List (Stmt ν)) (span : Span)
  | expression (value : Expr ν) (span : Span)
deriving Repr

namespace Stmt

variable {ν μ : Type}

/-- Where the statement was written. -/
def span : Stmt ν → Span
  | .define _ _ _ s | .return _ s | .ifThen _ _ s | .ifElse _ _ _ s | .while _ _ s | .block _ s
  | .expression _ s => s

mutual
/-- Every path through the statement ends in a `return`. A loop never counts, since its body may run
zero times, and an `if` needs both branches. -/
def alwaysReturns : Stmt ν → Bool
  | .return _ _ => true
  | .block ss _ => anyReturns ss
  | .ifElse _ s t _ => s.alwaysReturns && t.alwaysReturns
  | .define .. | .ifThen .. | .while .. | .expression .. => false

/-- One of the statements always returns. -/
def anyReturns : List (Stmt ν) → Bool
  | [] => false
  | s :: ss => s.alwaysReturns || anyReturns ss
end

mutual
/-- The same statement with changed notes. -/
def map (f : ν → μ) : Stmt ν → Stmt μ
  | .define x t e s => .define x t (e.map f) s
  | .return e s => .return (e.map (Expr.map f)) s
  | .ifThen e b s => .ifThen (e.map f) (b.map f) s
  | .ifElse e b c s => .ifElse (e.map f) (b.map f) (c.map f) s
  | .while e b s => .while (e.map f) (b.map f) s
  | .block bs s => .block (mapList f bs) s
  | .expression e s => .expression (e.map f) s

/-- `map` on each of several statements. -/
def mapList (f : ν → μ) : List (Stmt ν) → List (Stmt μ)
  | [] => []
  | b :: bs => b.map f :: mapList f bs
end

mutual
/-- The expression nodes of a statement in the order of the text. -/
def nodes : Stmt ν → List (Expr ν)
  | .define _ _ e _ => e.nodes
  | .return e _ => Expr.nodesList e.toList
  | .ifThen e b _ => e.nodes ++ b.nodes
  | .ifElse e b c _ => e.nodes ++ (b.nodes ++ c.nodes)
  | .while e b _ => e.nodes ++ b.nodes
  | .block bs _ => nodesList bs
  | .expression e _ => e.nodes

/-- The expression nodes of several statements. -/
def nodesList : List (Stmt ν) → List (Expr ν)
  | [] => []
  | b :: bs => b.nodes ++ nodesList bs
end

end Stmt

end ClassLang
