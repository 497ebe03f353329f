import ClassLang.Image.Basic
import ClassLang.Lowering.ChunkBuilder
import ClassLang.Lowering.Statement
import ClassLang.Typing.Program

/-!
# Images of programs

Every class becomes a construct: its field initializer, its methods and its constructor. The built-in
classes come first, the program's classes follow in the order of the text. The entry chunk makes an
instance of the entry class and calls its constructor.
-/

namespace ClassLang.Lower

/-- The chunk of a member with parameters whose code is `before`, which needs no slots of its own, and
the body. It returns null at its end. -/
def memberChunk (t : ClassTable) (params : List Param) (before : Slots → Lower (List Instr))
    (body : Option (Stmt Typing)) : Lower Chunk := do
  let b ← ChunkBuilder.start (params.map (·.name.name))
  let first ← before b.slots
  let (code, slots) ← match body with
    | some s => stmt t b.slots first.length s
    | none => pure ([], b.slots)
  return (b.append (first ++ code ++ [.pushNull, .return]) slots).finish

/-- The code that stores the initial value of a field. -/
def fieldInitializer (t : ClassTable) (id : TypeId) (d : FieldDecl Typing) : Lower (List Instr) :=
  match d.initializer with
  | none => return []
  | some e => do
    let offset ← fieldOffset t id d.name.name
    let code ← expr t .start e
    return .load 0 :: code ++ [.setField offset, .pop]

/-- The chunk that initializes the fields of an instance, those of the parent first, and returns the
instance. -/
def initializer (t : ClassTable) (id : TypeId) (parent : Nat) (d : ClassDecl Typing) :
    Lower (Nat × Body) := do
  let b ← ChunkBuilder.start []
  let m ← member .initializer
  let code ← d.fields.mapM (fieldInitializer t id)
  let all := [.load 0, .invoke parent m, .pop] ++ code.flatten ++ [.load 0, .return]
  return (m, .compiled (b.append all b.slots).finish)

/-- The chunk of a method. -/
def method (t : ClassTable) (d : MethodDecl Typing) : Lower (Nat × Body) := do
  let chunk ← memberChunk t d.params (fun _ => return []) (some d.body)
  return (← member d.name.key, .compiled chunk)

/-- The code that calls the constructor of the parent. -/
def baseCall (t : ClassTable) (parent : Nat) (arguments : List (Expr Typing)) (slots : Slots) :
    Lower (List Instr) := do
  let code ← exprs t slots arguments
  return .load 0 :: code ++ [.invoke parent (← member .constructor), .pop]

/-- The chunk of a constructor, or of the one that a class without a constructor gets. -/
def constructor (t : ClassTable) (parent : Nat) (d : Option (ConstructorDecl Typing)) :
    Lower (Nat × Body) := do
  let chunk ← match d with
    | some d => memberChunk t d.params (baseCall t parent (d.baseArguments.getD [])) (some d.body)
    | none => memberChunk t [] (baseCall t parent []) none
  return (← member .constructor, .compiled chunk)

/-- A body table with all of the given entries. -/
def bodies (entries : List (Nat × Body)) : BodyTable :=
  entries.foldl (fun table e => table.insert e.1 e.2) .empty

/-- The construct of a class. -/
def classDecl (t : ClassTable) (id : TypeId) (d : ClassDecl Typing) : Lower Construct := do
  match t.parent? id with
  | none => fail (.noParent d.name.name)
  | some parentId =>
    let parent ← constructOf t parentId
    let first ← initializer t id parent d
    let methods ← d.methods.mapM (method t)
    let last ← constructor t parent d.constructors.head?
    return ⟨d.name.name, some parent, t.fieldCount id, bodies (first :: methods ++ [last])⟩

/-- The construct of a built-in class. -/
def builtin (c : BuiltinClass) : Lower Construct := do
  let natives ← c.methods.mapM fun m => do return (← member m.key, Body.ofNative m.native)
  return ⟨c.name, c.parent, c.fields.length, bodies natives⟩

/-- The constructs of classes whose indices start at `id`. -/
def classes (t : ClassTable) (id : TypeId) : List (ClassDecl Typing) → Lower (List Construct)
  | [] => return []
  | d :: ds => do
    let c ← classDecl t id d
    return c :: (← classes t (id + 1) ds)

/-- The construct of the entry class, whose constructor takes no arguments. -/
def entryConstruct (t : ClassTable) : Lower Nat :=
  match (t.find? entryClass).filter (!t.isBuiltin ·) with
  | none => throw .missingEntry
  | some id =>
    match t.constructor? id with
    | some m =>
      if m.params.isEmpty then constructOf t id
      else throw (.entryArguments m.params.length m.span)
    | none => constructOf t id

/-- The chunk that a program starts with. -/
def entryChunk (main : Nat) : Lower Chunk := do
  let m ← member .constructor
  return ⟨#[.new main, .invoke main m, .return], 0, 0⟩

/-- The parts of an image that depend on the program. -/
def parts (a : Analysis) : Lower (Nat × List Construct × Chunk) := do
  let main ← entryConstruct a.classes
  let natives ← Builtin.classes.mapM builtin
  let user ← classes a.classes (TypeId.unit + 1) a.program.classes
  return (main, natives ++ user, ← entryChunk main)

/-- The image of a checked program. -/
def image (a : Analysis) : Except BuildError Image := do
  let ((main, constructs, entry), pools) ← (parts a).run .empty
  return ⟨Image.formatMagic, Image.formatVersion, constructs.toArray, main, pools.constants,
    pools.members, entry⟩

end ClassLang.Lower
