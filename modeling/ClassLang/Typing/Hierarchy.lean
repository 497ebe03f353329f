import ClassLang.Classes.Table

/-!
# Building the hierarchy

Classes are declared, then linked to their parents, then freed of cycles. A class without a written
parent inherits from the root. Of every cycle one link is cut and one error reported. A class whose
written parent is unknown or sealed is left out of all further checks together with its descendants.
-/

namespace ClassLang.Hierarchy

/-- The classes that could be declared, the table with them, and the errors of the others. -/
structure Declared where
  classes : List (TypeId × ClassDecl Span)
  table : ClassTable
  errors : List SemanticError

/-- Declares classes by name. -/
def declareAll (t : ClassTable) : List (ClassDecl Span) → Declared
  | [] => ⟨[], t, []⟩
  | d :: ds =>
    match t.declare d.name with
    | .ok (id, t') =>
      let r := declareAll t' ds
      { r with classes := (id, d) :: r.classes }
    | .error e =>
      let r := declareAll t ds
      { r with errors := e :: r.errors }

/-- The parent that a class names: the root if it names none, and never a sealed class. -/
def parentOf (t : ClassTable) (d : ClassDecl Span) : Except SemanticError TypeId :=
  match d.parent with
  | none => .ok TypeId.any
  | some name => do
    let id ← t.resolve name
    if (t.record? id).any (·.isSealed) then throw ⟨.sealedType (t.name id), name.span⟩
    else return id

/-- Links classes to their parents. A class with a bad parent is linked to the root and returned with
its error. -/
def linkAll (t : ClassTable) :
    List (TypeId × ClassDecl Span) → ClassTable × List (TypeId × SemanticError)
  | [] => (t, [])
  | (id, d) :: rest =>
    match parentOf t d with
    | .ok parent => linkAll (t.setParent id (some parent)) rest
    | .error e =>
      let (t', bad) := linkAll (t.setParent id (some TypeId.any)) rest
      (t', (id, e) :: bad)

/-! ## Cycles -/

/-- Climbs from a class until the root, a class met on an earlier climb, or one met on this climb. The
path has the last class first; the class at which a cycle closes comes with it. -/
def climb (t : ClassTable) (visited : List TypeId) :
    Nat → List TypeId → TypeId → List TypeId × Option TypeId
  | 0, path, _ => (path, none)
  | bound + 1, path, id =>
    if id ∈ path then (path, some id)
    else if id ∈ visited then (path, none)
    else
      match t.parent? id with
      | some parent => climb t visited bound (id :: path) parent
      | none => (id :: path, none)

/-- The search for cycles: the table, the classes met so far, and the errors. -/
structure CycleSearch where
  table : ClassTable
  visited : List TypeId
  errors : List SemanticError

/-- Climbs from one more class. If a cycle closes, the link that closes it is cut. -/
def CycleSearch.climbFrom (s : CycleSearch) (start : TypeId) : CycleSearch :=
  match climb s.table s.visited (s.table.size + 1) [] start with
  | (path, none) => { s with visited := path ++ s.visited }
  | (path, some id) =>
    let span := ((s.table.record? id).map (·.span)).getD .none
    let table := match path.head? with
      | some last => s.table.setParent last (some TypeId.any)
      | none => s.table
    ⟨table, path ++ s.visited, s.errors ++ [⟨.cyclicInheritance (s.table.name id), span⟩]⟩

/-- Cuts every cycle and reports it once. -/
def cutCycles (t : ClassTable) (ids : List TypeId) : ClassTable × List SemanticError :=
  let s := ids.foldl CycleSearch.climbFrom ⟨t, [], []⟩
  (s.table, s.errors)

/-! ## Broken subtrees -/

/-- A class is left out if it, or an ancestor of it, is among the classes that are left out. -/
def isLeftOut (t : ClassTable) (out : List TypeId) (id : TypeId) : Bool :=
  (t.ancestors id).any out.contains

/-- The classes that are left out, and one more class if it is to be left out with them. -/
def leaveOut (t : ClassTable) (out : List TypeId) (id : TypeId) : List TypeId :=
  if isLeftOut t out id then id :: out else out

/-- Goes through the classes once, from the ones with a bad parent on. Which classes are left out is read
while more of them are found. -/
def leftOut (t : ClassTable) (bad ids : List TypeId) : List TypeId := ids.foldl (leaveOut t) bad

/-- The hierarchy of a program: the classes to go on with, the table and the errors. -/
structure Built where
  classes : List (TypeId × ClassDecl Span)
  table : ClassTable
  errors : List SemanticError

/-- Builds the hierarchy of classes on top of the built-in ones. -/
def build (classes : List (ClassDecl Span)) : Built :=
  let declared := declareAll .standard classes
  let (linked, bad) := linkAll declared.table declared.classes
  let (table, cycles) := cutCycles linked (declared.classes.map (·.1))
  let out := leftOut table (bad.map (·.1)) (declared.classes.map (·.1))
  let left := declared.classes.filter fun c => !out.contains c.1
  ⟨left, table, declared.errors ++ bad.map (·.2) ++ cycles⟩

end ClassLang.Hierarchy
