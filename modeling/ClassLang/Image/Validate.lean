import ClassLang.Image.Basic

/-!
# Valid images

An image from outside may refer to things that it does not hold. `Image.problem?` looks for the first
such reference: first in the header, then construct by construct, last in the entry chunk.
-/

namespace ClassLang

/-- A reference to something that an image does not hold. -/
inductive ImageDefect where
  | entryConstruct (index : Nat)
  | parent (name : String) (index : Nat)
  | member (index : Nat)
  | fewLocals
  | jumpTarget (target : Nat)
  | construct (index : Nat)
  | constant (index : Nat)
  | localSlot (slot : Nat)
deriving DecidableEq, Repr

/-- The wording of a defect. -/
def ImageDefect.text : ImageDefect → String
  | .entryConstruct index => s!"entry construct {index} out of range"
  | .parent name index => s!"construct '{name}' has invalid parent {index}"
  | .member index => s!"member {index} out of range"
  | .fewLocals => "chunk has fewer locals than arguments"
  | .jumpTarget target => s!"jump target {target} out of range"
  | .construct index => s!"construct {index} out of range"
  | .constant index => s!"constant {index} out of range"
  | .localSlot slot => s!"local slot {slot} out of range"

/-- Why a text is no image that can be run. -/
inductive ImageError where
  | malformed
  | invalidMagic (found : String)
  | unsupportedVersion (found : Nat)
  | invalid (defect : ImageDefect)
deriving DecidableEq, Repr

/-- The wording of an image error. -/
def ImageError.message : ImageError → String
  | .malformed => "Malformed image"
  | .invalidMagic found =>
    s!"Invalid magic: expected {Image.formatMagic}, got {Text.quoted found}"
  | .unsupportedVersion found =>
    s!"Unsupported version: {found} (current: {Image.formatVersion})"
  | .invalid defect => s!"Invalid image: {defect.text}"

namespace Image

/-- What an instruction of a chunk refers to and is not there. A jump may lead behind the last
instruction. -/
def instrDefect? (image : Image) (chunk : Chunk) (i : Instr) : Option ImageDefect :=
  let target := i.jumpTarget?.filter (chunk.code.size < ·)
  let construct := i.construct?.filter fun c => (image.construct? c).isNone
  let constant := i.constant?.filter fun c => (image.constants.get? c).isNone
  let slot := i.slot?.filter (chunk.locals ≤ ·)
  let member := i.member?.filter fun m => (image.member? m).isNone
  (target.map .jumpTarget).or <| (construct.map .construct).or <| (constant.map .constant).or <|
    (slot.map .localSlot).or <| member.map .member

/-- The first defect of a chunk. -/
def chunkDefect? (image : Image) (chunk : Chunk) : Option ImageDefect :=
  if chunk.locals < chunk.arguments then some .fewLocals
  else chunk.code.toList.findSome? (image.instrDefect? chunk)

/-- The defect of an entry of a body table. -/
def entryDefect? (image : Image) (e : Nat × Body) : Option ImageDefect :=
  if (image.member? e.1).isNone then some (.member e.1)
  else
    match e.2 with
    | .native .. => none
    | .compiled chunk => image.chunkDefect? chunk

/-- The parent of the construct at `index`, if it is missing or the construct itself. -/
def parentDefect? (image : Image) (index : Nat) (c : Construct) : Option ImageDefect :=
  (c.parent.filter fun p => p = index || (image.construct? p).isNone).map (.parent c.name)

/-- The first defect of the construct at `index`. -/
def constructDefect? (image : Image) (index : Nat) (c : Construct) : Option ImageDefect :=
  (image.parentDefect? index c).or (c.bodies.entries.findSome? image.entryDefect?)

/-- The first defect of the constructs from `index` on. -/
def constructsDefect? (image : Image) (index : Nat) : List Construct → Option ImageDefect
  | [] => none
  | c :: cs => (image.constructDefect? index c).or (image.constructsDefect? (index + 1) cs)

/-- The first thing that keeps an image from being run. -/
def problem? (image : Image) : Option ImageError :=
  if image.magic ≠ formatMagic then some (.invalidMagic image.magic)
  else if image.version ≠ formatVersion then some (.unsupportedVersion image.version)
  else if (image.construct? image.main).isNone then some (.invalid (.entryConstruct image.main))
  else
    ((image.constructsDefect? 0 image.constructs.toList).or (image.chunkDefect? image.entry)).map
      .invalid

/-- Accepts an image in which every reference finds its target. -/
def validate (image : Image) : Except ImageError Unit :=
  match image.problem? with
  | none => .ok ()
  | some e => .error e

end Image

end ClassLang
