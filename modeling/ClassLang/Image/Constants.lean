import ClassLang.Number.Text
import ClassLang.Text.Quoted

/-!
# Constants

The numbers and strings of a program, each kept once. Two numbers are the same constant if they have
the same bits, so zeros of different sign stay apart.
-/

namespace ClassLang

/-- A number or a string of a program. -/
inductive Constant where
  | number (value : Float)
  | string (value : String)
deriving Repr

namespace Constant

/-- The same string, or numbers with the same bits. -/
def same : Constant → Constant → Bool
  | .number x, .number y => x.toBits == y.toBits
  | .string s, .string t => s == t
  | _, _ => false

/-- A constant as it stands in a listing. -/
def text : Constant → String
  | .number value => Number.text value
  | .string value => Text.quoted value

end Constant

/-- The constants of a program in the order of their indices. -/
structure ConstantPool where
  values : Array Constant
deriving Repr

namespace ConstantPool

/-- A pool without constants. -/
def empty : ConstantPool := ⟨#[]⟩

/-- The number of constants. -/
def size (pool : ConstantPool) : Nat := pool.values.size

/-- The constant at an index. -/
def get? (pool : ConstantPool) (index : Nat) : Option Constant := pool.values[index]?

/-- The index of a constant, and the pool with it. A constant that is there already is not added. -/
def add (pool : ConstantPool) (c : Constant) : Nat × ConstantPool :=
  match pool.values.findIdx? (·.same c) with
  | some index => (index, pool)
  | none => (pool.size, ⟨pool.values.push c⟩)

end ConstantPool

end ClassLang
