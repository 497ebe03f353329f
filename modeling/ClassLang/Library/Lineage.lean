/-!
# Parent chains

Classes and constructs both point to a parent by index. A chain is cut after as many links as there are
entries, so that a cycle of parents ends as well: within that bound every entry of a cycle has been
met.
-/

namespace ClassLang

/-- An entry followed by its parent, the parent's parent and so on, at most `bound` of them. -/
def lineage (parent? : Nat → Option Nat) : Nat → Nat → List Nat
  | 0, _ => []
  | bound + 1, i =>
    i :: match parent? i with
      | some p => lineage parent? bound p
      | none => []

example : lineage (fun i => if i = 0 then none else some (i - 1)) 5 2 = [2, 1, 0] := by decide
example : lineage (fun i => some (1 - i)) 2 0 = [0, 1] := by decide

end ClassLang
