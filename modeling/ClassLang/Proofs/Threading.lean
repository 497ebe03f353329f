import ClassLang.Proofs.Success
import ClassLang.Typing.Program

/-!
# Members on their own

The environment of a check goes from member to member and from class to class (`Check.classesIn`). Yet a member
is checked in the same way wherever it stands: `Environment.beginMember` overwrites all that the members in front
of it can have left, and no check changes the class table (`Check.Reports`). So a part of a program can be checked
on its own, in an environment outside all members, and what is found of a program is what is found of its parts,
in their order (`Check.program_eq`).
-/

namespace ClassLang

namespace Environment

theorem outside_classes (t : ClassTable) : (outside t).classes = t := rfl

/-- Nothing but the class table is left of the environment in which a member begins. -/
theorem beginMember_eq (env : Environment) (id : TypeId) (returns : Ty) :
    env.beginMember id returns = (outside env.classes).beginMember id returns := rfl

end Environment

namespace Check

/-- A checked part and its errors. -/
abbrev Report (α : Type) := α × List SemanticError

end Check

/-- What a check has found, without the environment behind it. -/
def Checked.report {α : Type} (r : Checked α) : Check.Report α := (r.value, r.errors)

namespace Check

/-! ## Parts of a program on their own -/

/-- A field on its own. -/
def fieldDecl (t : ClassTable) (id : TypeId) (decl : FieldDecl Span) : Report (FieldDecl Typing) :=
  (fieldIn (.outside t) id decl).report

/-- A method on its own. -/
def methodDecl (t : ClassTable) (id : TypeId) (decl : MethodDecl Span) : Report (MethodDecl Typing) :=
  (methodIn (.outside t) id decl).report

/-- A constructor on its own. -/
def constructorDecl (t : ClassTable) (id : TypeId) (decl : ConstructorDecl Span) :
    Report (ConstructorDecl Typing) :=
  (constructorIn (.outside t) id decl).report

/-- A member on its own. -/
def member (t : ClassTable) (id : TypeId) (m : MemberDecl Span) : Report (MemberDecl Typing) :=
  (memberIn (.outside t) id m).report

/-- A member on its own, if it could be entered. -/
def enteredMember (t : ClassTable) (id : TypeId) (m : MemberDecl Span × Bool) :
    Report (MemberDecl Typing) :=
  if m.2 then member t id m.1 else (uncheckedMember m.1, [])

/-- The errors of an implicit constructor on its own. -/
def implicitConstructor (t : ClassTable) (id : TypeId) (span : Span) : List SemanticError :=
  (implicitIn (.outside t) id span).errors

/-- A class on its own. -/
def classDecl (t : ClassTable) (c : Registration.Entered) : Report (ClassDecl Typing) :=
  (classIn (.outside t) c).report

variable {α : Type} {env : Environment} {id : TypeId}

@[simp] theorem member_field (t : ClassTable) (d : FieldDecl Span) :
    member t id (.field d) = (.field (fieldDecl t id d).1, (fieldDecl t id d).2) := rfl

@[simp] theorem member_method (t : ClassTable) (d : MethodDecl Span) :
    member t id (.method d) = (.method (methodDecl t id d).1, (methodDecl t id d).2) := rfl

@[simp] theorem member_constructor (t : ClassTable) (d : ConstructorDecl Span) :
    member t id (.constructor d) = (.constructor (constructorDecl t id d).1, (constructorDecl t id d).2) := rfl

/-! ## The class table stays -/

theorem bind_classes {env' : Environment} {name : Ident} {type : Ty} (hbind : env.bind name type = .ok env') :
    env'.classes = env.classes := by
  simp only [Environment.bind, bind_eq_ok, pure_eq_ok] at hbind
  obtain ⟨scopes, _, rfl⟩ := hbind
  rfl

/-- No definition changes the class table. -/
theorem define_classes (name : Ident) (type : Option TypeName) (e : Expr Span) :
    (define env name type e).env.classes = env.classes := by
  cases type with
  | none =>
    simp only [define, defineInferred]
    repeat' split
    all_goals first | rfl | exact bind_classes ‹_›
  | some written =>
    simp only [define, defineAs]
    repeat' split
    all_goals first | rfl | exact bind_classes ‹_›

/-- No statement changes the class table. -/
theorem stmt_classes (s : Stmt Span) : (stmt env s).env.classes = env.classes := by
  cases s with
  | define x w e _ =>
    rw [stmt]
    exact define_classes x w e
  | _ => rw [stmt]

theorem bindParams_classes (params : List Param) (types : List Ty) :
    (bindParams env params types).env.classes = env.classes := by
  induction params generalizing env types with
  | nil => cases types <;> rfl
  | cons p ps ih =>
    cases types with
    | nil => rfl
    | cons type types =>
      simp only [bindParams]
      split
      · next hbind => rw [ih, bind_classes hbind]
      · exact ih types

/-! ## The environment in front of a part -/

/-- In every environment a check finds what `report` tells of the class table, and it keeps the table. -/
def Reports (check : Environment → Checked α) (report : ClassTable → Report α) : Prop :=
  ∀ env, (check env).report = report env.classes ∧ (check env).env.classes = env.classes

theorem fieldIn_reports (d : FieldDecl Span) : Reports (fieldIn · id d) (fieldDecl · id d) := by
  intro env
  simp only [fieldDecl, fieldIn, Environment.outside_classes, Environment.beginMember_eq env]
  cases d.initializer with
  | none => exact ⟨rfl, rfl⟩
  | some e =>
    cases (env.classes.record? id).bind (·.field? d.name.name) with
    | none => exact ⟨rfl, rfl⟩
    | some f =>
      dsimp only
      cases infer ((Environment.outside env.classes).beginMember id .unit) e with
      | error error => exact ⟨rfl, rfl⟩
      | ok typed => exact ⟨rfl, rfl⟩

theorem methodIn_reports (d : MethodDecl Span) : Reports (methodIn · id d) (methodDecl · id d) := by
  intro env
  simp only [methodDecl, methodIn, Environment.outside_classes, Environment.beginMember_eq env]
  cases (env.classes.record? id).bind (·.method? d.name.key) with
  | none => exact ⟨rfl, rfl⟩
  | some m =>
    dsimp only
    cases overrides env.classes id m d with
    | error e => exact ⟨rfl, rfl⟩
    | ok _ =>
      refine ⟨rfl, ?_⟩
      rw [stmt_classes, bindParams_classes]
      rfl

theorem constructorIn_reports (d : ConstructorDecl Span) :
    Reports (constructorIn · id d) (constructorDecl · id d) := by
  intro env
  simp only [constructorDecl, constructorIn, Environment.outside_classes, Environment.beginMember_eq env]
  cases env.classes.constructor? id with
  | none => exact ⟨rfl, rfl⟩
  | some m =>
    refine ⟨rfl, ?_⟩
    rw [stmt_classes, bindParams_classes]
    rfl

namespace Reports

variable {β γ : Type} {check : Environment → Checked α} {report : ClassTable → Report α}

/-- What is found is put into another form, and the member is left. -/
theorem leave (h : Reports check report) (f : α → β) :
    Reports (fun env => ⟨f (check env).value, (check env).env.endMember, (check env).errors⟩)
      fun t => (f (report t).1, (report t).2) := by
  intro env
  obtain ⟨hreport, hclasses⟩ := h env
  exact ⟨congrArg (fun r => (f r.1, r.2)) hreport, hclasses⟩

/-- A check in the environment that another one leaves. -/
theorem before (h : Reports check report) {next : Environment → Checked β} {report' : ClassTable → Report β}
    (h' : Reports next report') (f : α → β → γ) :
    Reports (fun env => ⟨f (check env).value (next (check env).env).value, (next (check env).env).env,
        (check env).errors ++ (next (check env).env).errors⟩)
      fun t => (f (report t).1 (report' t).1, (report t).2 ++ (report' t).2) := by
  intro env
  obtain ⟨hreport, hclasses⟩ := h env
  obtain ⟨hreport', hclasses'⟩ := h' (check env).env
  rw [hclasses] at hreport' hclasses'
  exact ⟨congr (congrArg (fun r q => (f r.1 q.1, r.2 ++ q.2)) hreport) hreport', hclasses'⟩

end Reports

theorem memberIn_reports (m : MemberDecl Span) : Reports (memberIn · id m) (member · id m) := by
  cases m with
  | field d => exact (fieldIn_reports d).leave MemberDecl.field
  | method d => exact (methodIn_reports d).leave MemberDecl.method
  | constructor d => exact (constructorIn_reports d).leave MemberDecl.constructor

theorem membersIn_reports (ms : List (MemberDecl Span × Bool)) : Reports (membersIn · id ms) fun t =>
    ((ms.map (enteredMember t id)).map (·.1), (ms.map (enteredMember t id)).flatMap (·.2)) := by
  induction ms with
  | nil => exact fun env => ⟨rfl, rfl⟩
  | cons m ms ih =>
    obtain ⟨m, isEntered⟩ := m
    cases isEntered with
    | true => exact (memberIn_reports m).before ih List.cons
    | false =>
      have hskip : Reports (fun env => ⟨uncheckedMember m, env, []⟩) fun _ => (uncheckedMember m, []) :=
        fun env => ⟨rfl, rfl⟩
      exact hskip.before ih List.cons

theorem implicitIn_reports (span : Span) :
    Reports (implicitIn · id span) fun t => ((), implicitConstructor t id span) :=
  fun _ => ⟨rfl, rfl⟩

theorem classIn_reports (c : Registration.Entered) : Reports (classIn · c) fun t =>
    (⟨c.decl.name, c.decl.parent, (c.members.map (enteredMember t c.id)).map (·.1), c.decl.span⟩,
      (c.members.map (enteredMember t c.id)).flatMap (·.2) ++
        if c.isImplicit then implicitConstructor t c.id c.decl.name.span else []) := by
  obtain ⟨id, d, ms, isImplicit⟩ := c
  let assemble (ms : List (MemberDecl Typing)) (_ : Unit) : ClassDecl Typing := ⟨d.name, d.parent, ms, d.span⟩
  cases isImplicit with
  | true => exact (membersIn_reports ms).before (implicitIn_reports d.name.span) assemble
  | false =>
    have hnone : Reports (fun env => ⟨(), env, []⟩) fun _ => ((), []) := fun env => ⟨rfl, rfl⟩
    exact (membersIn_reports ms).before hnone assemble

/-- A class is found to be what its members are found to be on their own. -/
theorem classDecl_eq (t : ClassTable) (c : Registration.Entered) : classDecl t c =
    (⟨c.decl.name, c.decl.parent, (c.members.map (enteredMember t c.id)).map (·.1), c.decl.span⟩,
      (c.members.map (enteredMember t c.id)).flatMap (·.2) ++
        if c.isImplicit then implicitConstructor t c.id c.decl.name.span else []) :=
  (classIn_reports c (.outside t)).1

theorem classesIn_reports (cs : List Registration.Entered) : Reports (classesIn · cs) fun t =>
    ((cs.map (classDecl t)).map (·.1), (cs.map (classDecl t)).flatMap (·.2)) := by
  induction cs with
  | nil => exact fun env => ⟨rfl, rfl⟩
  | cons c cs ih =>
    have hclass : Reports (classIn · c) (classDecl · c) := fun env =>
      ⟨(classIn_reports c env).1.trans (classDecl_eq env.classes c).symm, (classIn_reports c env).2⟩
    exact hclass.before ih List.cons

/-- A program is found to be what its classes are found to be on their own. -/
theorem program_eq (p : Program Span) : program p =
    let hierarchy := Hierarchy.build p.classes
    let (entered, table, entryErrors) := Registration.classList hierarchy.table hierarchy.classes
    let table := table.layout
    let checked := entered.map (classDecl table)
    match hierarchy.errors ++ entryErrors ++ checked.flatMap (·.2) with
    | [] => .ok ⟨table, ⟨checked.map (·.1), p.span⟩⟩
    | errors => .error errors := by
  simp only [program]
  generalize Registration.classList (Hierarchy.build p.classes).table (Hierarchy.build p.classes).classes = listed
  obtain ⟨entered, t, errors⟩ := listed
  obtain ⟨hreport, hclasses⟩ := classesIn_reports entered (.outside t.layout)
  obtain ⟨hvalue, herrors⟩ := Prod.mk.inj hreport
  cases hall : (Hierarchy.build p.classes).errors ++ errors ++
      (entered.map (classDecl t.layout)).flatMap (·.2) with
  | nil => simp only [hvalue, herrors, hclasses, Environment.outside_classes, hall]
  | cons e es => simp only [herrors, Environment.outside_classes, hall]

end Check

end ClassLang
