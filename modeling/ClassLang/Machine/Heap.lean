import ClassLang.Image.Basic
import ClassLang.Machine.Value

/-!
# The heap

The objects of a running program. An object keeps its construct and its number of fields for ever; its
fields are null until they are assigned.
-/

namespace ClassLang

/-- An instance of a construct. -/
structure Object where
  construct : Nat
  fields : Array Value
deriving Repr

namespace Object

/-- An instance whose fields are null. -/
def blank (construct fieldCount : Nat) : Object := ⟨construct, Array.replicate fieldCount .null⟩

/-- The fault that an object has no field in a slot. -/
def noField (o : Object) (offset : Nat) : Fault := .code (.fieldOffset offset o.fields.size)

/-- The field in a slot. -/
def field (o : Object) (offset : Nat) : Except Fault Value :=
  match o.fields[offset]? with
  | some v => .ok v
  | none => .error (o.noField offset)

/-- Assigns the field in a slot. -/
def setField (o : Object) (offset : Nat) (v : Value) : Except Fault Object :=
  if h : offset < o.fields.size then .ok { o with fields := o.fields.set offset v h }
  else .error (o.noField offset)

end Object

/-- The objects by address. -/
structure Heap where
  objects : Array Object
deriving Repr

namespace Heap

/-- A heap without objects. -/
def empty : Heap := ⟨#[]⟩

/-- The object at an address. -/
def get? (h : Heap) (address : Nat) : Option Object := h.objects[address]?

/-- A new instance of a construct, and the heap with it. -/
def allocate (h : Heap) (construct fieldCount : Nat) : Value × Heap :=
  (.object h.objects.size, ⟨h.objects.push (.blank construct fieldCount)⟩)

/-- The construct of a value; null has none. -/
def construct? (h : Heap) : Value → Option Nat
  | .null => none
  | .number _ => some TypeId.number
  | .boolean _ => some TypeId.boolean
  | .string _ => some TypeId.string
  | .object address => (h.get? address).map (·.construct)

/-- The fault that null has no fields. -/
def nullReceiver (offset : Nat) : Fault := .nullReceiver s!"field #{offset}"

/-- The field of a value in a slot. The only field of a string is its number of characters. -/
def field (h : Heap) (v : Value) (offset : Nat) : Except Fault Value :=
  match v with
  | .object address => ((h.get? address).getD ⟨0, #[]⟩).field offset
  | .string s =>
    if offset = 0 then .ok (.number (Float.ofNat s.length))
    else .error (.kind (.noField v.kind offset))
  | .null => .error (nullReceiver offset)
  | _ => .error (.kind (.noField v.kind offset))

/-- Assigns the field of an object in a slot. -/
def setField (h : Heap) (target : Value) (offset : Nat) (v : Value) : Except Fault Heap :=
  match target with
  | .object address =>
    match h.get? address with
    | some o => do return ⟨h.objects.setIfInBounds address (← o.setField offset v)⟩
    | none => .error (.code (.fieldOffset offset 0))
  | .null => .error (nullReceiver offset)
  | _ => .error (.kind (.noFields target.kind))

/-- The text of a value that a program sees. -/
def text (h : Heap) (image : Image) : Value → String
  | .null => "null"
  | .number x => Number.text x
  | .boolean b => toString b
  | .string s => s
  | .object address =>
    let construct := (h.get? address).bind fun o => image.construct? o.construct
    let name := (construct.map (·.name)).getD "?"
    s!"<{name}>"

/-- The text of a value for one who looks into the machine. -/
def inspect (h : Heap) : Value → String
  | .null => "null"
  | .number x => Number.text x
  | .boolean b => toString b
  | .string s => Text.quoted s
  | .object address =>
    let o := (h.get? address).getD ⟨0, #[]⟩
    s!"@{o.construct}[{o.fields.size} fields]"

end Heap

end ClassLang
