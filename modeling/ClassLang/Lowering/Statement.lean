import ClassLang.Lowering.Expression
import ClassLang.Tree.Stmt

/-!
# Code of statements

The code of a statement leaves the stack as it found it. Jumps name instructions of the whole chunk, so
the code depends on the index at which it starts.
-/

namespace ClassLang.Lower

mutual

/-- The code of a statement that starts at an index, and the slots behind it. -/
def stmt (t : ClassTable) (slots : Slots) (start : Nat) :
    Stmt Typing → Lower (List Instr × Slots)
  | .define name _ value _ => do
    let code ← expr t slots value
    let (slot, slots') ← slots.declare name.name
    return (code ++ [.store slot], slots')
  | .return (some value) _ => return ((← expr t slots value) ++ [.return], slots)
  | .return none _ => return ([.pushNull, .return], slots)
  | .ifThen condition branch _ => do
    let test ← expr t slots condition
    let branchStart := start + test.length + 1
    let (body, slots') ← stmt t slots.enter branchStart branch
    return (test ++ .jumpIfFalse (branchStart + body.length) :: body, slots'.exit)
  | .ifElse condition branch otherwise _ => do
    let test ← expr t slots condition
    let branchStart := start + test.length + 1
    let (body, slots') ← stmt t slots.enter branchStart branch
    let otherStart := branchStart + body.length + 1
    let (other, slots'') ← stmt t slots'.exit.enter otherStart otherwise
    return (test ++ .jumpIfFalse otherStart :: body ++ .jump (otherStart + other.length) :: other,
      slots''.exit)
  | .while condition body _ => do
    let test ← expr t slots condition
    let bodyStart := start + test.length + 1
    let (code, slots') ← stmt t slots.enter bodyStart body
    return (test ++ .jumpIfFalse (bodyStart + code.length + 1) :: code ++ [.jump start], slots'.exit)
  | .block statements _ => do
    let (code, slots') ← stmts t slots.enter start statements
    return (code, slots'.exit)
  | .expression value _ => return ((← expr t slots value) ++ [.pop], slots)

/-- The code of statements, one after the other. -/
def stmts (t : ClassTable) (slots : Slots) (start : Nat) :
    List (Stmt Typing) → Lower (List Instr × Slots)
  | [] => return ([], slots)
  | s :: ss => do
    let (code, slots') ← stmt t slots start s
    let (rest, slots'') ← stmts t slots' (start + code.length) ss
    return (code ++ rest, slots'')

end

end ClassLang.Lower
