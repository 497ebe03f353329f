import ClassLang.Image.Basic

/-!
# Listings

An image in readable form: the header, the constants, the entry chunk, and every construct with its
bodies. Instructions that jumps lead to are marked, and references are explained behind a semicolon.
-/

namespace ClassLang

namespace Image

/-- The name of a construct, or a question mark. -/
def constructLabel (image : Image) (index : Nat) : String :=
  ((image.construct? index).map (·.name)).getD "?"

/-- What an instruction refers to. -/
def comment? (image : Image) (i : Instr) : Option String :=
  match i with
  | .pushConst index => (image.constants.get? index).map Constant.text
  | .invoke c m | .callVirtual c m | .virtualOrAny c m =>
    (image.member? m).map fun key => s!"{image.constructLabel c}.{key.text}"
  | .new c | .isInstance c _ | .cast c _ => some (image.constructLabel c)
  | _ => none

/-- A number with zeros in front, at least four digits long. -/
def fourDigits (n : Nat) : String :=
  let digits := Number.digitsOf n
  String.ofList (Number.zeros (4 - digits.length) ++ digits)

/-- The line of the instruction at an index; `targets` are the indices that jumps lead to. -/
def instrLine (image : Image) (targets : List Nat) (index : Nat) (i : Instr) : String :=
  let mark := if targets.contains index then "►" else " "
  let line := s!"    {fourDigits index} {mark} {i.text}"
  match image.comment? i with
  | some comment => s!"{line}  ; {comment}"
  | none => line

/-- The lines of the instructions from an index on. -/
def instrLines (image : Image) (targets : List Nat) (index : Nat) : List Instr → List String
  | [] => []
  | i :: is => image.instrLine targets index i :: image.instrLines targets (index + 1) is

/-- The lines of a chunk. -/
def chunkLines (image : Image) (label : String) (chunk : Chunk) : List String :=
  let head :=
    s!"  {label} (args {chunk.arguments}, locals {chunk.locals}, {chunk.code.size} instructions)"
  let code := chunk.code.toList
  head :: image.instrLines (code.filterMap Instr.jumpTarget?) 0 code

/-- The line of the constant at an index. -/
def constantLines (index : Nat) : List Constant → List String
  | [] => []
  | c :: cs => s!"  #{index} {c.text}" :: constantLines (index + 1) cs

/-- The lines of an entry of the construct with a name. -/
def bodyLines (image : Image) (name : String) (e : Nat × Body) : List String :=
  let label := match image.member? e.1 with
    | some key => s!"{name}.{key.text}"
    | none => s!"{name}.${e.1}"
  match e.2 with
  | .native native arguments => [s!"  {label} = native {native.text}/{arguments}"]
  | .compiled chunk => image.chunkLines label chunk

/-- The lines of the constructs from an index on, each behind an empty line. -/
def constructLines (image : Image) (index : Nat) : List Construct → List String
  | [] => []
  | c :: cs =>
    let parent := match c.parent with
      | some p => s!" : {image.constructLabel p}"
      | none => ""
    "" :: s!"construct @{index} {c.name}{parent} ({c.fieldCount} fields)" ::
      c.bodies.entries.flatMap (image.bodyLines c.name) ++ image.constructLines (index + 1) cs

/-- The lines of the constants, if there are any. -/
def poolLines (image : Image) : List String :=
  match image.constants.values.toList with
  | [] => []
  | cs => "constants:" :: constantLines 0 cs

/-- The lines of a listing. -/
def listing (image : Image) : List String :=
  s!"=== {image.magic} image v{image.version} ===" ::
    s!"entry: @{image.main} {image.constructLabel image.main}" ::
    image.poolLines ++ image.chunkLines "<entry>" image.entry ++
    image.constructLines 0 image.constructs.toList

/-- A listing as one text, with a line feed behind every line. -/
def listingText (image : Image) : String := String.join (image.listing.map (· ++ "\n"))

end Image

end ClassLang
