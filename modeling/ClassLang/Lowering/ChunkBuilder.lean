import ClassLang.Image.Basic
import ClassLang.Lowering.Slots

/-!
# Building chunks

A chunk under construction: the instructions so far and the slots of its names. Jumps may be emitted
before their target is known and be pointed to it later.
-/

namespace ClassLang

/-- A chunk under construction. -/
structure ChunkBuilder where
  code : Array Instr
  arguments : Nat
  slots : Slots

namespace ChunkBuilder

/-- Gives a name a slot. -/
def declare (b : ChunkBuilder) (name : String) : Except BuildError (Nat × ChunkBuilder) := do
  let (slot, slots) ← b.slots.declare name
  return (slot, { b with slots })

/-- Adds parameters behind those that are there. -/
def addParams (b : ChunkBuilder) : List String → Except BuildError ChunkBuilder
  | [] => .ok b
  | name :: names => do
    let (_, b') ← b.declare name
    addParams { b' with arguments := b'.arguments + 1 } names

/-- A chunk without instructions, for a receiver and parameters. -/
def start (params : List String) : Except BuildError ChunkBuilder :=
  addParams ⟨#[], 1, .start⟩ params

/-- The index of the next instruction. -/
def position (b : ChunkBuilder) : Nat := b.code.size

/-- Adds an instruction. -/
def emit (b : ChunkBuilder) (i : Instr) : ChunkBuilder := { b with code := b.code.push i }

/-- Adds instructions that were made for the slots of the chunk, with the slots behind them. -/
def append (b : ChunkBuilder) (code : List Instr) (slots : Slots) : ChunkBuilder :=
  { b with code := b.code ++ code, slots }

/-- Points the jump at an index to a target. -/
def patch (b : ChunkBuilder) (index target : Nat) : Except BuildError ChunkBuilder :=
  match b.code[index]? with
  | some (.jump _) => .ok { b with code := b.code.set! index (.jump target) }
  | some (.jumpIfFalse _) => .ok { b with code := b.code.set! index (.jumpIfFalse target) }
  | _ => .error (.defect (.noJump index))

/-- Points the jump at an index to the next instruction. -/
def patchHere (b : ChunkBuilder) (index : Nat) : Except BuildError ChunkBuilder :=
  b.patch index b.position

/-- Opens a scope. -/
def enter (b : ChunkBuilder) : ChunkBuilder := { b with slots := b.slots.enter }

/-- Closes a scope. -/
def exit (b : ChunkBuilder) : ChunkBuilder := { b with slots := b.slots.exit }

/-- The chunk. -/
def finish (b : ChunkBuilder) : Chunk := ⟨b.code, b.arguments, b.slots.highest⟩

end ChunkBuilder

end ClassLang
