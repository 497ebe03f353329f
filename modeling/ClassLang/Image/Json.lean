import ClassLang.Image.Validate
import ClassLang.Json.Text

/-!
# Images as JSON

How images are kept in files. `toJson` and `ofJson?` stand side by side for every part of an image. A
number that is not finite is written as null, which no image may hold.
-/

namespace ClassLang

/-! ## Operators and keys -/

/-- The name of an operator in an image. -/
def BinaryOp.imageName : BinaryOp → String
  | .add => "Add"
  | .subtract => "Subtract"
  | .multiply => "Multiply"
  | .divide => "Divide"
  | .modulo => "Modulo"
  | .and => "And"
  | .or => "Or"
  | .equal => "Equal"
  | .notEqual => "NotEqual"
  | .less => "Less"
  | .greater => "Greater"
  | .lessEqual => "LessEqual"
  | .greaterEqual => "GreaterEqual"

/-- Every binary operator. -/
def BinaryOp.all : List BinaryOp :=
  [.add, .subtract, .multiply, .divide, .modulo, .and, .or, .equal, .notEqual, .less, .greater,
    .lessEqual, .greaterEqual]

/-- The operator of a name. -/
def BinaryOp.ofImageName? (name : String) : Option BinaryOp :=
  BinaryOp.all.find? (·.imageName == name)

/-- The name of an operator in an image. -/
def UnaryOp.imageName : UnaryOp → String
  | .negate => "Negate"
  | .not => "Not"

/-- The operator of a name. -/
def UnaryOp.ofImageName? (name : String) : Option UnaryOp :=
  [UnaryOp.negate, UnaryOp.not].find? (·.imageName == name)

namespace MemberKey

/-- A key in an image. -/
def toJson : MemberKey → Json
  | .named name => .variant "Named" (.ofString name)
  | .binary op => .variant "Binary" (.ofString op.imageName)
  | .unary op => .variant "Unary" (.ofString op.imageName)
  | .constructor => .ofString "Constructor"
  | .initializer => .ofString "Initializer"

/-- Reads a key. -/
def ofJson? (j : Json) : Option MemberKey :=
  match j.plainVariant? with
  | some "Constructor" => some .constructor
  | some "Initializer" => some .initializer
  | _ =>
    match j.variant? with
    | some ("Named", some payload) => payload.toString?.map .named
    | some ("Binary", some payload) =>
      (payload.plainVariant?.bind BinaryOp.ofImageName?).map .binary
    | some ("Unary", some payload) => (payload.plainVariant?.bind UnaryOp.ofImageName?).map .unary
    | _ => none

end MemberKey

namespace Constant

/-- A constant in an image. -/
def toJson : Constant → Json
  | .number x => .variant "Number" (((Json.Numeral.ofFloat? x).map Json.number).getD .null)
  | .string s => .variant "String" (.ofString s)

/-- Reads a constant. -/
def ofJson? (j : Json) : Option Constant :=
  match j.variant? with
  | some ("Number", some payload) => payload.toFloat?.map .number
  | some ("String", some payload) => payload.toString?.map .string
  | _ => none

end Constant

/-! ## Instructions -/

namespace Instr

/-- The instructions without operands. -/
def plain : List Instr :=
  [.pushZero, .pushOne, .pushTrue, .pushFalse, .pushNull, .pop, .dup, .return, .isNull, .assert] ++
    BinaryOp.all.map .binary ++ [.unary .negate, .unary .not]

/-- The name of an instruction in an image. -/
def imageName : Instr → String
  | .pushConst _ => "Const"
  | .pushZero => "Zero"
  | .pushOne => "One"
  | .pushTrue => "True"
  | .pushFalse => "False"
  | .pushNull => "Null"
  | .pop => "Pop"
  | .dup => "Dup"
  | .load _ => "Load"
  | .store _ => "Store"
  | .new _ => "New"
  | .getField _ => "GetField"
  | .setField _ => "SetField"
  | .jump _ => "Jump"
  | .jumpIfFalse _ => "JumpIfFalse"
  | .return => "Return"
  | .invoke .. => "Invoke"
  | .callVirtual .. => "Virtual"
  | .virtualOrAny .. => "VirtualOrAny"
  | .binary op => op.imageName
  | .unary op => op.imageName
  | .isInstance .. => "Is"
  | .isNull => "IsNull"
  | .cast .. => "Cast"
  | .assert => "Assert"

/-- The operands of a call. -/
def callJson (construct member : Nat) : Json :=
  .ofFields [("construct", .ofNat construct), ("member", .ofNat member)]

/-- The operands of a test. -/
def testJson (construct : Nat) (nullable : Bool) : Json :=
  .ofFields [("construct", .ofNat construct), ("nullable", .boolean nullable)]

/-- An instruction in an image. -/
def toJson (i : Instr) : Json :=
  match i with
  | .pushConst n | .load n | .store n | .new n | .getField n | .setField n | .jump n
  | .jumpIfFalse n => .variant i.imageName (.ofNat n)
  | .invoke c m | .callVirtual c m | .virtualOrAny c m => .variant i.imageName (callJson c m)
  | .isInstance c nullable | .cast c nullable => .variant i.imageName (testJson c nullable)
  | _ => .ofString i.imageName

/-- Reads the operands of a call. -/
def call? (make : Nat → Nat → Instr) (j : Json) : Option Instr :=
  match j.structure? ["construct", "member"] with
  | some [some c, some m] => return make (← c.toNat? 32) (← m.toNat? 32)
  | _ => none

/-- Reads the operands of a test. -/
def test? (make : Nat → Bool → Instr) (j : Json) : Option Instr :=
  match j.structure? ["construct", "nullable"] with
  | some [some c, some nullable] => return make (← c.toNat? 32) (← nullable.toBool?)
  | _ => none

/-- Reads an instruction with operands. -/
def withOperands? (name : String) (j : Json) : Option Instr :=
  match name with
  | "Const" => (j.toNat? 32).map .pushConst
  | "Load" => (j.toNat? 16).map .load
  | "Store" => (j.toNat? 16).map .store
  | "New" => (j.toNat? 32).map .new
  | "GetField" => (j.toNat? 16).map .getField
  | "SetField" => (j.toNat? 16).map .setField
  | "Jump" => (j.toNat? 32).map .jump
  | "JumpIfFalse" => (j.toNat? 32).map .jumpIfFalse
  | "Invoke" => call? .invoke j
  | "Virtual" => call? .callVirtual j
  | "VirtualOrAny" => call? .virtualOrAny j
  | "Is" => test? .isInstance j
  | "Cast" => test? .cast j
  | _ => none

/-- Reads an instruction. -/
def ofJson? (j : Json) : Option Instr :=
  match j.plainVariant?.bind fun name => plain.find? (·.imageName == name) with
  | some i => some i
  | none =>
    match j.variant? with
    | some (name, some payload) => withOperands? name payload
    | _ => none

end Instr

/-! ## Chunks and constructs -/

namespace Chunk

/-- A chunk in an image. -/
def toJson (c : Chunk) : Json :=
  .ofFields [("code", .array (c.code.toList.map Instr.toJson)), ("arguments", .ofNat c.arguments),
    ("locals", .ofNat c.locals)]

/-- Reads a chunk. -/
def ofJson? (j : Json) : Option Chunk :=
  match j.structure? ["code", "arguments", "locals"] with
  | some [some code, some arguments, some slots] => do
    return ⟨(← code.toList? Instr.ofJson?).toArray, ← arguments.toNat? 64, ← slots.toNat? 64⟩
  | _ => none

end Chunk

namespace Body

/-- A body in an image. -/
def toJson : Body → Json
  | .native operation arguments => .variant "Native"
    (.ofFields [("id", .ofString operation.text), ("arguments", .ofNat arguments)])
  | .compiled chunk => .variant "Compiled" chunk.toJson

/-- Reads a body. -/
def ofJson? (j : Json) : Option Body :=
  match j.variant? with
  | some ("Compiled", some payload) => (Chunk.ofJson? payload).map .compiled
  | some ("Native", some payload) =>
    match payload.structure? ["id", "arguments"] with
    | some [some id, some arguments] => do
      return .native (← id.plainVariant?.bind Native.ofText?) (← arguments.toNat? 64)
    | _ => none
  | _ => none

end Body

namespace BodyTable

/-- A table in an image: an object with the members as names. -/
def toJson (t : BodyTable) : Json :=
  .object (t.entries.map fun (member, body) => (Number.digitsOf member, body.toJson))

/-- Reads the number of a member: plain digits and nothing else. -/
def member? (name : List Char) : Option Nat :=
  match Json.readWhole? name with
  | some (digits, []) => (some (Number.ofDigits digits)).filter (· < Nat.pow 2 32)
  | _ => none

/-- Reads entries; of two for one member the later one counts. -/
def addEntries? (t : BodyTable) : List (List Char × Json) → Option BodyTable
  | [] => some t
  | (name, j) :: rest => do
    let member ← member? name
    let body ← Body.ofJson? j
    addEntries? (t.insert member body) rest

/-- Reads a table. -/
def ofJson? : Json → Option BodyTable
  | .object fields => addEntries? .empty fields
  | _ => none

end BodyTable

namespace Construct

/-- A construct in an image. -/
def toJson (c : Construct) : Json :=
  .ofFields [("name", .ofString c.name), ("parent", (c.parent.map Json.ofNat).getD .null),
    ("field_count", .ofNat c.fieldCount), ("chunks", c.bodies.toJson)]

/-- Reads a construct. A missing parent is none. -/
def ofJson? (j : Json) : Option Construct :=
  match j.structure? ["name", "parent", "field_count", "chunks"] with
  | some [some name, parent, some fieldCount, some chunks] => do
    return ⟨← name.toString?, ← (parent.getD .null).toOption? (Json.toNat? 32),
      ← fieldCount.toNat? 64, ← BodyTable.ofJson? chunks⟩
  | _ => none

end Construct

/-! ## Images -/

namespace Image

/-- An image as JSON. -/
def toJson (i : Image) : Json :=
  .ofFields [("magic", .ofString i.magic), ("version", .ofNat i.version),
    ("constructs", .array (i.constructs.toList.map Construct.toJson)), ("main", .ofNat i.main),
    ("constants", .array (i.constants.values.toList.map Constant.toJson)),
    ("members", .array (i.members.toList.map MemberKey.toJson)), ("entry", i.entry.toJson)]

/-- Reads an image. -/
def ofJson? (j : Json) : Option Image :=
  match j.structure? ["magic", "version", "constructs", "main", "constants", "members", "entry"] with
  | some [some magic, some version, some constructs, some main, some constants, some members,
      some entry] => do
    return ⟨← magic.toString?, ← version.toNat? 32,
      (← constructs.toList? Construct.ofJson?).toArray, ← main.toNat? 32,
      ⟨(← constants.toList? Constant.ofJson?).toArray⟩,
      (← members.toList? MemberKey.ofJson?).toArray, ← Chunk.ofJson? entry⟩
  | _ => none

/-- The text of an image. -/
def save (i : Image) : String := i.toJson.text

/-- Reads an image from a text and takes it as it is. -/
def read (text : String) : Except ImageError Image :=
  match (Json.read? text).bind Image.ofJson? with
  | some i => .ok i
  | none => .error .malformed

/-- Reads an image from a text, if it can be run. -/
def load (text : String) : Except ImageError Image := do
  let i ← read text
  i.validate
  return i

end Image

end ClassLang
