import ClassLang.Lowering.BuildError

/-!
# Slots

The local slots of a chunk while it is built. Slot 0 holds the receiver, parameters and variables take
the next free one. Closing a scope frees its slots, so scopes side by side share theirs, and a chunk
needs as many as were ever taken at once.
-/

namespace ClassLang

/-- The names of an open scope with their slots, the latest first, and the first slot of the scope. -/
structure SlotScope where
  names : List (String × Nat)
  first : Nat
deriving DecidableEq, Repr

/-- The open scopes, innermost first; the next free slot; the number of slots taken at most. -/
structure Slots where
  current : SlotScope
  outer : List SlotScope
  next : Nat
  highest : Nat
deriving DecidableEq, Repr

namespace Slots

/-- Slots of a frame are numbered below this. -/
def limit : Nat := 65535

/-- The receiver has its slot, and no name is declared. -/
def start : Slots := ⟨⟨[], 0⟩, [], 1, 1⟩

/-- Opens a scope. -/
def enter (s : Slots) : Slots := ⟨⟨[], s.next⟩, s.current :: s.outer, s.next, s.highest⟩

/-- Closes the innermost scope and frees its slots. The outermost one stays open. -/
def exit (s : Slots) : Slots :=
  match s.outer with
  | [] => s
  | scope :: outer => ⟨scope, outer, s.current.first, s.highest⟩

/-- Gives a name the next free slot. -/
def declare (s : Slots) (name : String) : Except BuildError (Nat × Slots) :=
  if s.next < limit then
    let current := { s.current with names := (name, s.next) :: s.current.names }
    .ok (s.next, ⟨current, s.outer, s.next + 1, max s.highest (s.next + 1)⟩)
  else .error (.defect .tooManyLocals)

/-- The slot of a name, the innermost one if there are several. -/
def lookup? (s : Slots) (name : String) : Option Nat :=
  (s.current :: s.outer).findSome? (·.names.lookup name)

/-- The slot of a name that has to have one. -/
def lookup (s : Slots) (name : String) : Except BuildError Nat :=
  match s.lookup? name with
  | some slot => .ok slot
  | none => .error (.defect (.unresolvedLocal name))

end Slots

end ClassLang
