import ClassLang.Image.Constants
import ClassLang.Library.MemberKey
import ClassLang.Lowering.BuildError

/-!
# Pools

What all chunks of an image share: its constants and the keys of its members. Both are numbered in the
order in which they are first needed.
-/

namespace ClassLang

/-- The members and constants that are needed so far. -/
structure Pools where
  members : Array MemberKey
  constants : ConstantPool

namespace Pools

/-- Nothing is needed yet. -/
def empty : Pools := ⟨#[], .empty⟩

/-- The index of a member, and the pools with it. -/
def addMember (p : Pools) (key : MemberKey) : Nat × Pools :=
  match p.members.findIdx? (· == key) with
  | some index => (index, p)
  | none => (p.members.size, { p with members := p.members.push key })

/-- The index of a constant, and the pools with it. -/
def addConstant (p : Pools) (c : Constant) : Nat × Pools :=
  let (index, constants) := p.constants.add c
  (index, { p with constants })

end Pools

/-- A step of lowering: it may add to the pools, and it may fail. -/
abbrev Lower (α : Type) := StateT Pools (Except BuildError) α

namespace Lower

/-- The index of a member. -/
def member (key : MemberKey) : Lower Nat := modifyGet (·.addMember key)

/-- The index of a constant. -/
def constant (c : Constant) : Lower Nat := modifyGet (·.addConstant c)

/-- Gives up. -/
def fail {α : Type} (d : LoweringDefect) : Lower α := throw (.defect d)

end Lower

end ClassLang
