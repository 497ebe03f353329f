import ClassLang.Lowering.BuildError
import ClassLang.Machine.Run
import ClassLang.Proofs.Hierarchy
import ClassLang.Typing.Program

/-!
# Direct evaluation

The meaning of a checked program, read off its tree without constructs, slots or jumps. Objects know
their class and keep a field under the class that declares it; local names are a list, the latest first;
a call finds its method in the class table.

An evaluation need not end. `invoke` bounds the depth of calls and the rounds of each loop by one number,
and an evaluation that runs out of it is `unfinished`. A tree without a meaning is `stuck`.
-/

namespace ClassLang

/-- An object: its class, and its fields by the class that declares them. -/
structure Instance where
  classId : Nat
  fields : Nat → String → Value

/-- An object with a changed field. -/
def Instance.set (o : Instance) (owner : Nat) (name : String) (v : Value) : Instance :=
  { o with fields := fun c x => if c = owner ∧ x = name then v else o.fields c x }

/-- The objects by address, the console, and the local names with their values, the latest first. -/
structure EvalState where
  objects : List Instance
  console : Console
  locals : List (String × Value)

/-- Why an evaluation has no result. -/
inductive Stop where
  | fault (cause : Fault)
  | stuck
  | unfinished

/-- A step of an evaluation. -/
def Eval (α : Type) := EvalState → Except Stop α × EvalState

namespace Eval

variable {α β : Type}

instance : Monad Eval where
  pure a s := (.ok a, s)
  bind x f s :=
    match x s with
    | (.ok a, s') => f a s'
    | (.error e, s') => (.error e, s')

theorem bind_ok {x : Eval α} {f : α → Eval β} {s s' : EvalState} {a : α}
    (h : x s = (.ok a, s')) : (x >>= f) s = f a s' := by
  simp only [bind, h]

theorem bind_error {x : Eval α} {f : α → Eval β} {s s' : EvalState} {e : Stop}
    (h : x s = (.error e, s')) : (x >>= f) s = (.error e, s') := by
  simp only [bind, h]

/-- The state. -/
def state : Eval EvalState := fun s => (.ok s, s)

/-- Changes the state. -/
def update (f : EvalState → EvalState) : Eval Unit := fun s => (.ok (), f s)

/-- Ends the evaluation. -/
def stop (e : Stop) : Eval α := fun s => (.error e, s)

/-- Ends the evaluation with a fault. -/
def fault (cause : Fault) : Eval α := stop (.fault cause)

/-- The value of an operation that may fault. -/
def ofExcept : Except Fault α → Eval α
  | .ok a => pure a
  | .error e => fault e

end Eval

/-! ## Values -/

/-- The class of a value; null has none. -/
def Value.classId? (objects : List Instance) : Value → Option Nat
  | .null => none
  | .number _ => some TypeId.number
  | .boolean _ => some TypeId.boolean
  | .string _ => some TypeId.string
  | .object address => (objects[address]?).map (·.classId)

/-- A value is of a type: it is null and the type admits that, or its class is that of the type or
inherits from it. -/
def Value.isOf (t : ClassTable) (objects : List Instance) (v : Value) (type : Ty) : Bool :=
  match v.classId? objects with
  | none => type.isNullable
  | some id => type.class?.any fun c => t.isSubclass id c

/-- The text of a value that a program sees. -/
def Value.display (t : ClassTable) (objects : List Instance) : Value → String
  | .null => "null"
  | .number x => Number.text x
  | .boolean b => toString b
  | .string s => s
  | .object address =>
    let name := ((objects[address]?).map (t.name ·.classId)).getD "?"
    s!"<{name}>"

/-- The operator applies to two numbers or two truth values and needs no method. -/
def BinaryOp.isPrimitive (op : BinaryOp) (left right : Option Ty) : Bool :=
  match op with
  | .and | .or => left = some .boolean ∧ right = some .boolean
  | .equal | .notEqual =>
    left = some .number ∧ right = some .number ∨ left = some .boolean ∧ right = some .boolean
  | _ => left = some .number ∧ right = some .number

/-- The operator applies to a number or a truth value and needs no method. -/
def UnaryOp.isPrimitive (op : UnaryOp) (operand : Option Ty) : Bool :=
  match op with
  | .negate => operand = some .number
  | .not => operand = some .boolean

/-- Applies an operator to two numbers or two truth values. -/
def BinaryOp.apply (op : BinaryOp) (a b : Value) : Except Fault Value :=
  match op with
  | .add => a.ofNumbers b fun x y => .number (x + y)
  | .subtract => a.ofNumbers b fun x y => .number (x - y)
  | .multiply => a.ofNumbers b fun x y => .number (x * y)
  | .divide => a.ofNumbers b fun x y => .number (x / y)
  | .modulo => a.ofNumbers b fun x y => .number (Number.remainder x y)
  | .less => a.ofNumbers b fun x y => .boolean (x < y)
  | .greater => a.ofNumbers b fun x y => .boolean (y < x)
  | .lessEqual => a.ofNumbers b fun x y => .boolean (x ≤ y)
  | .greaterEqual => a.ofNumbers b fun x y => .boolean (y ≤ x)
  | .equal => .ok (.boolean (a.equals b))
  | .notEqual => .ok (.boolean (!a.equals b))
  | .and => do return .boolean ((← a.asBoolean) && (← b.asBoolean))
  | .or => do return .boolean ((← a.asBoolean) || (← b.asBoolean))

/-- Applies an operator to a number or a truth value. -/
def UnaryOp.apply (op : UnaryOp) (a : Value) : Except Fault Value :=
  match op with
  | .negate => do return .number (-(← a.asNumber))
  | .not => do return .boolean (!(← a.asBoolean))

namespace Evaluate

open Eval

/-! ## Objects and names -/

/-- A new object of a class, with null in all of its fields. -/
def allocate (id : Nat) : Eval Value := fun s =>
  (.ok (.object s.objects.length), { s with objects := s.objects ++ [⟨id, fun _ _ => .null⟩] })

/-- The field of a value that a class declares. The only field of a string is its number of
characters. -/
def readField (owner : Nat) (f : Field) (v : Value) : Eval Value := do
  match v with
  | .object address =>
    match (← state).objects[address]? with
    | some o => return o.fields owner f.name
    | none => stop .stuck
  | .string s => return .number (Float.ofNat s.length)
  | .null => fault (Heap.nullReceiver f.offset)
  | _ => stop .stuck

/-- Changes the field of an object that a class declares. -/
def writeField (owner : Nat) (f : Field) (target v : Value) : Eval Unit :=
  match target with
  | .object address =>
    update fun s => { s with objects := s.objects.modify address (·.set owner f.name v) }
  | .null => fault (Heap.nullReceiver f.offset)
  | _ => stop .stuck

/-- The value of a local name. -/
def load (x : String) : Eval Value := do
  match (← state).locals.lookup x with
  | some v => return v
  | none => stop .stuck

/-- The local names with another value for the latest one called `x`. -/
def rebind (x : String) (v : Value) : List (String × Value) → List (String × Value)
  | [] => []
  | b :: bs => if b.1 = x then (x, v) :: bs else b :: rebind x v bs

/-- Assigns to a local name. -/
def store (x : String) (v : Value) : Eval Unit :=
  update fun s => { s with locals := rebind x v s.locals }

/-- Binds a local name. -/
def define (x : String) (v : Value) : Eval Unit :=
  update fun s => { s with locals := (x, v) :: s.locals }

/-- Forgets what is bound inside. -/
def inScope {α : Type} (x : Eval α) : Eval α := fun s =>
  let (r, s') := x s
  (r, { s' with locals := s'.locals.drop (s'.locals.length - s.locals.length) })

/-- Evaluates with local names of its own. -/
def inside {α : Type} (locals : List (String × Value)) (x : Eval α) : Eval α := fun s =>
  let (r, s') := x { s with locals }
  (r, { s' with locals := s.locals })

/-- The parameters with their arguments, the last one first. -/
def parameters (params : List Param) (args : List Value) : List (String × Value) :=
  (params.zipWith (fun p v => (p.name.name, v)) args).reverse

/-! ## Expressions -/

section

variable (t : ClassTable) (call : Nat → MemberKey → List Value → Eval Value) (self : Nat) (this : Value)

/-- Calls the method that a class has or inherits. -/
def send (id : Nat) (key : MemberKey) (args : List Value) : Eval Value :=
  match t.lookupMethod? id key with
  | some (owner, _) => call owner key args
  | none => stop .stuck

/-- Calls the method that the receiver's class has, or the class `onNull` if the receiver is null. -/
def dispatch (receiver : Value) (key : MemberKey) (args : List Value) (onNull : Option Nat) :
    Eval Value := do
  match (receiver.classId? (← state).objects).or onNull with
  | some id => send t call id key (receiver :: args)
  | none => fault (.nullReceiver key.text)

/-- Initializes the fields that a class and its ancestors declare. Only classes of the program have
initializers. -/
def prepare (id : Nat) (o : Value) : Eval Unit :=
  if id < TypeId.first then pure () else do let _ ← call id .initializer [o]

/-- A new object of a class with its fields initialized. -/
def instantiate (id : Nat) : Eval Value := do
  let o ← allocate id
  prepare call id o
  return o

/-- The field that a member expression names, by the type of its object. -/
def fieldOf (object : Expr Typing) (property : Ident) : Eval (Nat × Field) :=
  match (object.note.type.bind Ty.class?).bind (t.lookupField? · property.name) with
  | some found => pure found
  | none => stop .stuck

/-- The type that a test or a cast names. -/
def targetType (target : TypeName) : Eval Ty :=
  match t.resolveType target with
  | .ok type => pure type
  | .error _ => stop .stuck

mutual

/-- The value of an expression. -/
def expr : Expr Typing → Eval Value
  | .number x _ => pure (.number x)
  | .string c _ => pure (.string c)
  | .boolean b _ => pure (.boolean b)
  | .null _ => pure .null
  | .name x _ => load x
  | .this _ | .base _ => pure this
  | .member object property _ => do
    let o ← expr object
    let (owner, f) ← fieldOf t object property
    readField owner f o
  | .call (.member (.base _) property _) arguments _ => do
    let args ← exprs arguments
    match t.parent? self with
    | some parent => send t call parent (.named property.name) (this :: args)
    | none => stop .stuck
  | .call (.member object property _) arguments _ => do
    let receiver ← expr object
    let args ← exprs arguments
    dispatch t call receiver (.named property.name) args none
  | .call .. => stop .stuck
  | .new className arguments _ =>
    match t.find? className.name with
    | some id => do
      let o ← instantiate call id
      let args ← exprs arguments
      let _ ← call id .constructor (o :: args)
      return o
    | none => stop .stuck
  | .assign (.name x _) value _ => do
    let v ← expr value
    store x v
    return v
  | .assign (.member object property _) value _ => do
    let o ← expr object
    let v ← expr value
    let (owner, f) ← fieldOf t object property
    writeField owner f o v
    return v
  | .assign .. => stop .stuck
  | .binary op left right _ => do
    let a ← expr left
    let b ← expr right
    if op.isPrimitive left.note.type right.note.type then ofExcept (op.apply a b)
    else
      let onNull := if left.note.type.any (·.isNullable) && op.isEquality then some TypeId.any
        else none
      dispatch t call a (.binary op) [b] onNull
  | .unary op operand _ => do
    let a ← expr operand
    if op.isPrimitive operand.note.type then ofExcept (op.apply a)
    else dispatch t call a (.unary op) [] none
  | .assert operand _ => do
    let a ← expr operand
    if a.kind = .null then fault .nullAssertion else return a
  | .instanceTest operand target _ => do
    let a ← expr operand
    let type ← targetType t target
    return .boolean (a.isOf t (← state).objects type)
  | .cast operand target _ => do
    let a ← expr operand
    let type ← targetType t target
    let objects := (← state).objects
    if a.isOf t objects type then return a
    else fault (.invalidCast (a.display t objects) (t.text type))

/-- The values of several expressions, from left to right. -/
def exprs : List (Expr Typing) → Eval (List Value)
  | [] => return []
  | e :: es => do
    let v ← expr e
    return v :: (← exprs es)

end

/-! ## Statements -/

/-- How a statement ends. -/
inductive Flow where
  | next
  | returned (v : Value)

/-- The truth value of a condition. -/
def condition (e : Expr Typing) : Eval Bool := do
  let v ← expr t call self this e
  ofExcept v.asBoolean

/-- Repeats a statement while a condition holds, for at most as many rounds as the bound tells. -/
def loop (test : Eval Bool) (round : Eval Flow) : Nat → Eval Flow
  | 0 => stop .unfinished
  | bound + 1 => do
    if ← test then
      match ← round with
      | .next => loop test round bound
      | .returned v => return .returned v
    else return .next

mutual

/-- Runs a statement. -/
def stmt (bound : Nat) : Stmt Typing → Eval Flow
  | .define x _ value _ => do
    let v ← expr t call self this value
    define x.name v
    return .next
  | .return (some value) _ => do return .returned (← expr t call self this value)
  | .return none _ => return .returned .null
  | .ifThen c branch _ => do
    if ← condition t call self this c then inScope (stmt bound branch) else return .next
  | .ifElse c branch otherwise _ => do
    if ← condition t call self this c then inScope (stmt bound branch)
    else inScope (stmt bound otherwise)
  | .while c body _ =>
    loop (condition t call self this c) (inScope (stmt bound body)) bound
  | .block statements _ => inScope (stmts bound statements)
  | .expression value _ => do
    let _ ← expr t call self this value
    return .next

/-- Runs statements one after the other. -/
def stmts (bound : Nat) : List (Stmt Typing) → Eval Flow
  | [] => return .next
  | s :: ss => do
    match ← stmt bound s with
    | .next => stmts bound ss
    | .returned v => return .returned v

end

/-! ## Members -/

/-- The result of a body: null unless it returns a value. -/
def Flow.result : Flow → Value
  | .next => .null
  | .returned v => v

/-- Initializes the fields that a class declares, in the order of the text. -/
def initializeFields : List (FieldDecl Typing) → Eval Unit
  | [] => return ()
  | d :: ds => do
    match d.initializer, t.lookupField? self d.name.name with
    | some e, some (owner, f) =>
      let v ← expr t call self this e
      writeField owner f this v
    | some _, none => stop .stuck
    | none, _ => pure ()
    initializeFields ds

/-- Runs a method of a class. -/
def method (bound : Nat) (d : MethodDecl Typing) (args : List Value) : Eval Value :=
  inside (parameters d.params args) do
    return (← stmt t call self this bound d.body).result

/-- Runs a constructor of a class behind the constructor of its parent. The constructor that a class
without one gets does nothing else. -/
def constructor (bound parent : Nat) (d : Option (ConstructorDecl Typing)) (args : List Value) :
    Eval Value :=
  match d with
  | some d => inside (parameters d.params args) do
    let baseArgs ← exprs t call self this (d.baseArguments.getD [])
    let _ ← call parent .constructor (this :: baseArgs)
    return (← stmt t call self this bound d.body).result
  | none => inside [] do
    let _ ← call parent .constructor [this]
    return .null

/-- Runs what a declared class has under a key. -/
def declared (bound parent : Nat) (d : ClassDecl Typing) (key : MemberKey) (args : List Value) :
    Eval Value :=
  match key with
  | .initializer => inside [] do
    prepare call parent this
    initializeFields t call self this d.fields
    return this
  | .constructor => constructor t call self this bound parent d.constructors.head? args
  | key =>
    match d.methods.find? (·.name.key == key) with
    | some m => method t call self this bound m args
    | none => stop .stuck

end

/-- Calls a native. -/
def native (t : ClassTable) (n : Native) (args : List Value) : Eval Value := fun s =>
  match n.apply (Value.display t s.objects) s.console args with
  | (.ok v, console) => (.ok v, { s with console })
  | (.error e, console) => (.error (.fault e), { s with console })

/-- Runs what a class has under a key, the receiver being the first argument. -/
def member (a : Analysis) (call : Nat → MemberKey → List Value → Eval Value) (bound owner : Nat)
    (key : MemberKey) (args : List Value) : Eval Value :=
  match Builtin.classes[owner]? with
  | some b =>
    match b.methods.find? (·.key == key) with
    | some m => native a.classes m.native args
    | none => stop .stuck
  | none =>
    match a.program.classes[owner - TypeId.first]?, a.classes.parent? owner, args with
    | some d, some parent, this :: args =>
      declared a.classes call owner this bound parent d key args
    | _, _, _ => stop .stuck

/-- Runs a member with calls of at most the given depth. -/
def invoke (a : Analysis) : Nat → Nat → MemberKey → List Value → Eval Value
  | 0, _, _, _ => stop .unfinished
  | n + 1, owner, key, args => member a (invoke a n) n owner key args

end Evaluate

/-! ## Programs -/

/-- How a program ends: with a result or with a fault, and with the console behind it. -/
inductive Ending where
  | value (v : Value) (console : Console)
  | fault (cause : Fault) (console : Console)
  | stuck

/-- Makes an object of the entry class and runs its constructor. -/
def Analysis.main (a : Analysis) (bound : Nat) : Eval Value :=
  match a.classes.find? entryClass with
  | some id => do
    let o ← Evaluate.instantiate (Evaluate.invoke a bound) id
    Evaluate.invoke a bound id .constructor [o]
  | none => Eval.stop .stuck

/-- The end of a program within a bound, if it ends within it. -/
def Analysis.evaluate (a : Analysis) (bound : Nat) (console : Console) : Option Ending :=
  match a.main bound ⟨[], console, []⟩ with
  | (.ok v, s) => some (.value v s.console)
  | (.error (.fault cause), s) => some (.fault cause s.console)
  | (.error .stuck, _) => some .stuck
  | (.error .unfinished, _) => none

/-- The end of a run of the machine, if it ends. -/
def RunResult.ending : RunResult → Option Ending
  | .halted v _ console => some (.value v console)
  | .faulted cause console => some (.fault cause console)
  | .unfinished _ => none

end ClassLang
