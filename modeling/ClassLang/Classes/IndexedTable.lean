import ClassLang.Classes.Table
import Std.Data.HashMap

/-!
# The class table with its lookups

`ClassTable` searches its records for everything. The table here does not search: an index finds the classes
by their names, and every class has a map of its fields and a map of its methods, with the order of the fields
in a list of its own. All of these are updated one after the other (`IndexedTable.Update`), and what a step
has changed stays changed if the step fails behind it.
-/

namespace ClassLang

/-- What a class keeps of a field under its name. -/
structure FieldInfo where
  access : Access
  type : Ty
  offset : Nat
  span : Span
deriving DecidableEq, Repr

/-- What a class keeps of a method under its key. -/
structure MethodInfo where
  access : Access
  params : List Ty
  returns : Ty
  isOverride : Bool
  span : Span
deriving DecidableEq, Repr

/-- A class with its own fields and methods by their names and keys, and the names of the fields in the order of
declaration. -/
structure IndexedRecord where
  id : TypeId
  name : String
  parent : Option TypeId
  isBuiltin : Bool
  isSealed : Bool
  span : Span
  fields : Std.HashMap String FieldInfo
  fieldOrder : List String
  methods : Std.HashMap MemberKey MethodInfo
  fieldCount : Option Nat

namespace IndexedRecord

/-- A class without a parent and without members. -/
def empty (id : TypeId) (name : String) (span : Span) : IndexedRecord :=
  ⟨id, name, none, false, false, span, ∅, [], ∅, none⟩

/-- Puts the name of a field behind the others. -/
def pushName (r : IndexedRecord) (name : String) : IndexedRecord :=
  { r with fieldOrder := r.fieldOrder ++ [name] }

/-- Enters a field under its name. -/
def enterField (r : IndexedRecord) (name : String) (f : FieldInfo) : IndexedRecord :=
  { r with fields := r.fields.insert name f }

/-- Enters a method under its key. -/
def enterMethod (r : IndexedRecord) (key : MemberKey) (m : MethodInfo) : IndexedRecord :=
  { r with methods := r.methods.insert key m }

/-- Gives the fields of some names the slots from `start` on. -/
def placeNames (start : Nat) (fields : Std.HashMap String FieldInfo) : List String → Std.HashMap String FieldInfo
  | [] => fields
  | x :: xs => placeNames (start + 1) (fields.modify x ({ · with offset := start })) xs

/-- Lays the fields out behind `start` inherited ones. -/
def place (r : IndexedRecord) (start : Nat) : IndexedRecord :=
  { r with
    fields := placeNames start r.fields r.fieldOrder
    fieldCount := some (start + r.fieldOrder.length) }

/-- The description of a built-in class, made member by member. -/
def ofBuiltin (id : TypeId) (c : BuiltinClass) : IndexedRecord :=
  let bare := { empty id c.name .none with parent := c.parent, isBuiltin := true, isSealed := c.isSealed }
  let withFields := c.fields.foldl (fun r f =>
    (r.pushName f.1).enterField f.1 ⟨.everyone, f.2, 0, .none⟩) bare
  (c.methods.filter (·.key ≠ .initializer)).foldl (fun r m =>
    r.enterMethod m.key ⟨.everyone, m.params, m.returns, false, .none⟩) withFields

/-- The type of members that return nothing, as a class without members. -/
def unit : IndexedRecord :=
  { empty TypeId.unit "unit" .none with isBuiltin := true, isSealed := true }

end IndexedRecord

/-- The classes in the order of their indices, and the index of each name. -/
structure IndexedTable where
  types : List IndexedRecord
  byName : Std.HashMap String TypeId

namespace IndexedTable

/-- A table without classes. -/
def empty : IndexedTable := ⟨[], ∅⟩

/-- The number of classes. -/
def size (s : IndexedTable) : Nat := s.types.length

/-- The class at an index. -/
def record? (s : IndexedTable) (id : TypeId) : Option IndexedRecord := s.types[id]?

/-- The parent of a class. -/
def parent? (s : IndexedTable) (id : TypeId) : Option TypeId := (s.record? id).bind (·.parent)

/-- A class followed by its ancestors, nearest first. -/
def ancestors (s : IndexedTable) (id : TypeId) : List TypeId := lineage s.parent? s.size id

/-- A class has a field of its own of a name. -/
def hasField (s : IndexedTable) (id : TypeId) (name : String) : Bool :=
  (s.record? id).any (·.fields.contains name)

/-- A class has a method of its own of a key. -/
def hasMethod (s : IndexedTable) (id : TypeId) (key : MemberKey) : Bool :=
  (s.record? id).any (·.methods.contains key)

/-- The number of fields of an instance, once they are laid out. -/
def fieldCount? (s : IndexedTable) (id : TypeId) : Option Nat := (s.record? id).bind (·.fieldCount)

/-- Puts a class behind the others. -/
def pushType (s : IndexedTable) (r : IndexedRecord) : IndexedTable := { s with types := s.types ++ [r] }

/-- Enters a class under its name. -/
def enterName (s : IndexedTable) (name : String) (id : TypeId) : IndexedTable :=
  { s with byName := s.byName.insert name id }

/-- Changes the class at an index. -/
def update (s : IndexedTable) (id : TypeId) (f : IndexedRecord → IndexedRecord) : IndexedTable :=
  { s with types := s.types.modify id f }

/-! ## Layout -/

/-- Lays out one class behind `start` inherited fields, unless it is laid out already. -/
def layoutOwn (state : Nat × IndexedTable) (id : TypeId) : Nat × IndexedTable :=
  let (start, s) := state
  match s.fieldCount? id with
  | some count => (count, s)
  | none => (start + ((s.record? id).map (·.fieldOrder.length)).getD 0, s.update id (·.place start))

/-- Lays out a class and those of its ancestors that are not, the topmost first. -/
def layoutClass (s : IndexedTable) (id : TypeId) : IndexedTable :=
  match s.fieldCount? id with
  | some _ => s
  | none => ((s.ancestors id).reverse.foldl layoutOwn (0, s)).2

/-- Gives every field that has none a slot. -/
def layout (s : IndexedTable) : IndexedTable := (List.range s.size).foldl layoutClass s

/-- Enters a built-in class at its index. -/
def addBuiltin (s : IndexedTable) (entry : BuiltinClass × TypeId) : IndexedTable :=
  (s.enterName entry.1.name entry.2).pushType (.ofBuiltin entry.2 entry.1)

/-- The built-in classes, entered one after the other and laid out. -/
def standard : IndexedTable :=
  (((Builtin.classes.zipIdx.foldl addBuiltin empty).enterName "unit" TypeId.unit).pushType .unit).layout

/-! ## Steps that can fail -/

/-- A computation that works on a table. A failure undoes nothing of what was done before it. -/
abbrev Update (α : Type) := EStateM SemanticError IndexedTable α

/-- Adds a class without members, unless the name is taken. -/
def declare (name : Ident) : Update TypeId := do
  if (← get).byName.contains name.name then
    throw ⟨.duplicateDeclaration name.name, name.span⟩
  let id := (← get).size
  modify (·.pushType (.empty id name.name name.span))
  modify (·.enterName name.name id)
  return id

/-- The class that a written name stands for. -/
def resolve (name : Ident) : Update TypeId := do
  match (← get).byName[name.name]? with
  | some id => return id
  | none => throw ⟨.unknownType name.name, name.span⟩

/-- The type that a written type stands for. -/
def resolveType : TypeName → Update Ty
  | .named name => return .plain (← resolve name)
  | .optional name _ => return .option (← resolve name)
  | .null _ => return .null

/-- Gives a class a parent. -/
def setParent (id : TypeId) (parent : Option TypeId) : Update Unit :=
  modify (·.update id ({ · with parent := parent }))

/-- Adds a field to a class, unless the class has one of that name. -/
def addField (id : TypeId) (name : Ident) (access : Access) (type : Ty) : Update Unit := do
  if (← get).hasField id name.name then
    throw ⟨.duplicateDeclaration name.name, name.span⟩
  modify (·.update id (·.pushName name.name))
  modify (·.update id (·.enterField name.name ⟨access, type, 0, name.span⟩))

/-- Adds a method to a class, unless the class has one of that key. -/
def addMethod (id : TypeId) (key : MemberKey) (m : MethodInfo) : Update Unit := do
  if (← get).hasMethod id key then
    throw ⟨.duplicateDeclaration key.text, m.span⟩
  modify (·.update id (·.enterMethod key m))

end IndexedTable

end ClassLang
