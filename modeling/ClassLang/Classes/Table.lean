import ClassLang.Classes.SemanticError
import ClassLang.Library.Builtin
import ClassLang.Library.Lineage

/-!
# The class table

Every class with its parent, its own fields and its own methods. Classes are referred to by index;
names are unique, and the first declaration of a name wins. Lookups climb the parent chain, and the
nearest declaration wins. `layout` gives every field its slot: inherited fields keep theirs, own fields
follow in the order of their declaration.
-/

namespace ClassLang

/-- A declared field. -/
structure Field where
  name : String
  access : Access
  type : Ty
  offset : Nat
  span : Span
deriving DecidableEq, Repr

/-- A declared method, operator or constructor. -/
structure Method where
  key : MemberKey
  access : Access
  params : List Ty
  returns : Ty
  isOverride : Bool
  span : Span
deriving DecidableEq, Repr

/-- A class: its own fields in the order of declaration, its own methods, and the number of fields of an
instance once they are laid out. -/
structure ClassRecord where
  name : String
  parent : Option TypeId
  isBuiltin : Bool
  isSealed : Bool
  span : Span
  fields : List Field
  methods : List Method
  fieldCount : Option Nat
deriving DecidableEq, Repr

namespace ClassRecord

/-- A class without a parent and without members. -/
def empty (name : String) (span : Span) : ClassRecord :=
  ⟨name, none, false, false, span, [], [], none⟩

/-- The own field of a name. -/
def field? (r : ClassRecord) (name : String) : Option Field := r.fields.find? (·.name == name)

/-- The own method of a key. -/
def method? (r : ClassRecord) (key : MemberKey) : Option Method := r.methods.find? (·.key == key)

/-- Gives the fields the slots from `start` on. -/
def placeFields (start : Nat) : List Field → List Field
  | [] => []
  | f :: fs => { f with offset := start } :: placeFields (start + 1) fs

/-- Lays the fields out behind `start` inherited ones. -/
def place (r : ClassRecord) (start : Nat) : ClassRecord :=
  { r with fields := placeFields start r.fields, fieldCount := some (start + r.fields.length) }

/-- The description of a built-in class. -/
def ofBuiltin (c : BuiltinClass) : ClassRecord where
  name := c.name
  parent := c.parent
  isBuiltin := true
  isSealed := c.isSealed
  span := .none
  fields := c.fields.map fun (name, type) => ⟨name, .everyone, type, 0, .none⟩
  methods := (c.methods.filter (·.key ≠ .initializer)).map fun m =>
    ⟨m.key, .everyone, m.params, m.returns, false, .none⟩
  fieldCount := none

/-- The type of members that return nothing, as a class without members. -/
def unit : ClassRecord := { empty "unit" .none with isBuiltin := true, isSealed := true }

end ClassRecord

/-- The classes in the order of their indices. -/
structure ClassTable where
  records : List ClassRecord
deriving DecidableEq, Repr

namespace ClassTable

/-- The number of classes. -/
def size (t : ClassTable) : Nat := t.records.length

/-- The class at an index. -/
def record? (t : ClassTable) (id : TypeId) : Option ClassRecord := t.records[id]?

/-- The index of the class of a name. -/
def find? (t : ClassTable) (name : String) : Option TypeId :=
  t.records.findIdx? (·.name == name)

/-- The parent of a class. -/
def parent? (t : ClassTable) (id : TypeId) : Option TypeId := (t.record? id).bind (·.parent)

/-- The name of a class. -/
def name (t : ClassTable) (id : TypeId) : String := ((t.record? id).map (·.name)).getD "?"

/-- The class is one of the built-in ones. -/
def isBuiltin (t : ClassTable) (id : TypeId) : Bool := (t.record? id).any (·.isBuiltin)

/-- A type as it is shown to a reader. -/
def text (t : ClassTable) : Ty → String
  | .plain id => t.name id
  | .option id => s!"{t.name id}?"
  | .null => "null"

/-- Changes the class at an index. -/
def modify (t : ClassTable) (id : TypeId) (f : ClassRecord → ClassRecord) : ClassTable :=
  ⟨t.records.modify id f⟩

/-- Gives a class a parent. -/
def setParent (t : ClassTable) (id : TypeId) (parent : Option TypeId) : ClassTable :=
  t.modify id ({ · with parent := parent })

/-! ## Names -/

/-- Adds a class without members, unless the name is taken. -/
def declare (t : ClassTable) (name : Ident) : Except SemanticError (TypeId × ClassTable) :=
  match t.find? name.name with
  | some _ => .error ⟨.duplicateDeclaration name.name, name.span⟩
  | none => .ok (t.size, ⟨t.records ++ [.empty name.name name.span]⟩)

/-- The class that a written name stands for. -/
def resolve (t : ClassTable) (name : Ident) : Except SemanticError TypeId :=
  match t.find? name.name with
  | some id => .ok id
  | none => .error ⟨.unknownType name.name, name.span⟩

theorem resolve_ok {t : ClassTable} {name : Ident} {id : TypeId} :
    t.resolve name = .ok id ↔ t.find? name.name = some id := by
  unfold resolve
  split <;> simp [*]

/-- The type that a written type stands for. -/
def resolveType (t : ClassTable) : TypeName → Except SemanticError Ty
  | .named name => return .plain (← t.resolve name)
  | .optional name _ => return .option (← t.resolve name)
  | .null _ => .ok .null

/-! ## Hierarchy -/

/-- A class followed by its ancestors, nearest first. -/
def ancestors (t : ClassTable) (id : TypeId) : List TypeId := lineage t.parent? t.size id

/-- One class is another or inherits from it. -/
def isSubclass (t : ClassTable) (sub sup : TypeId) : Bool := (t.ancestors sub).contains sup

/-- A value of type `source` may stand where one of type `target` is required. -/
def isAssignable (t : ClassTable) (source target : Ty) : Bool :=
  match source, target with
  | .null, .option _ | .null, .null => true
  | .plain s, .plain u | .plain s, .option u | .option s, .option u => t.isSubclass s u
  | _, _ => false

/-- Code of the class `user`, if it stands in one, may use a member that `owner` declares. -/
def canAccess (t : ClassTable) (user : Option TypeId) (owner : TypeId) (access : Access) : Bool :=
  match access, user with
  | .everyone, _ => true
  | .owner, user => user == some owner
  | .family, some user => t.isSubclass user owner || t.isSubclass owner user
  | .family, none => false

/-! ## Members -/

/-- Adds a field to a class, unless the class has one of that name. -/
def addField (t : ClassTable) (id : TypeId) (name : Ident) (access : Access) (type : Ty) :
    Except SemanticError ClassTable :=
  match (t.record? id).bind (·.field? name.name) with
  | some _ => .error ⟨.duplicateDeclaration name.name, name.span⟩
  | none =>
    let field : Field := ⟨name.name, access, type, 0, name.span⟩
    .ok (t.modify id fun r => { r with fields := r.fields ++ [field] })

/-- Adds a method to a class, unless the class has one of that key. -/
def addMethod (t : ClassTable) (id : TypeId) (m : Method) : Except SemanticError ClassTable :=
  match (t.record? id).bind (·.method? m.key) with
  | some _ => .error ⟨.duplicateDeclaration m.key.text, m.span⟩
  | none => .ok (t.modify id fun r => { r with methods := r.methods ++ [m] })

/-- The field of a name on the nearest class of the chain that declares one, with that class. -/
def lookupField? (t : ClassTable) (id : TypeId) (name : String) : Option (TypeId × Field) :=
  (t.ancestors id).findSome? fun a => ((t.record? a).bind (·.field? name)).map (a, ·)

/-- The method of a key on the nearest class of the chain that declares one, with that class. -/
def lookupMethod? (t : ClassTable) (id : TypeId) (key : MemberKey) : Option (TypeId × Method) :=
  (t.ancestors id).findSome? fun a => ((t.record? a).bind (·.method? key)).map (a, ·)

/-- The constructor of a class. Constructors are not inherited. -/
def constructor? (t : ClassTable) (id : TypeId) : Option Method :=
  (t.record? id).bind (·.method? .constructor)

/-! ## Layout -/

/-- The number of fields of an instance, once they are laid out. -/
def fieldCount? (t : ClassTable) (id : TypeId) : Option Nat := (t.record? id).bind (·.fieldCount)

/-- The number of fields of an instance, none before they are laid out. -/
def fieldCount (t : ClassTable) (id : TypeId) : Nat := (t.fieldCount? id).getD 0

/-- Lays out one class behind `start` inherited fields, unless it is laid out already. -/
def layoutOwn (state : Nat × ClassTable) (id : TypeId) : Nat × ClassTable :=
  let (start, t) := state
  match t.fieldCount? id with
  | some count => (count, t)
  | none => (start + ((t.record? id).map (·.fields.length)).getD 0, t.modify id (·.place start))

/-- Lays out a class and those of its ancestors that are not, the topmost first. -/
def layoutClass (t : ClassTable) (id : TypeId) : ClassTable :=
  match t.fieldCount? id with
  | some _ => t
  | none => ((t.ancestors id).reverse.foldl layoutOwn (0, t)).2

/-- Gives every field that has none a slot. -/
def layout (t : ClassTable) : ClassTable := (List.range t.size).foldl layoutClass t

/-- The built-in classes, laid out. -/
def standard : ClassTable :=
  layout ⟨Builtin.classes.map ClassRecord.ofBuiltin ++ [ClassRecord.unit]⟩

example : standard.find? "unit" = some TypeId.unit := by decide +kernel
example : standard.isAssignable .string (.option TypeId.any) = true := by decide +kernel

end ClassTable

end ClassLang
