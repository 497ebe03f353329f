import ClassLang.Proofs.Success
import ClassLang.Typing.Statement
import Mathlib.Data.List.Forall2

/-!
# Typing rules

The judgement that an annotated tree is well typed, apart from the algorithm that annotates it. `Typed`
has one rule per form of expression, `StmtTyped` one per form of statement; a rule says which member is
found, that it may be used, and which types have to fit. A node carries the type that its rule gives
(`Typed.note_type`).

The check is sound for these rules: an expression that is inferred (`infer_typed`) and a statement that
is checked without an error (`stmt_typed`) are well typed. Everything that is said about lowered programs
and their runs starts from the rules and not from the check.
-/

namespace ClassLang

namespace Environment

/-- The type of a local name. -/
def typeOf? (env : Environment) (x : String) : Option Ty :=
  (env.scopes.lookup? x).map (·.2.type)

/-- The local names of all open scopes, the latest first. -/
def visible (env : Environment) : List Binding :=
  (env.scopes.current :: env.scopes.outer).flatMap (·.bindings)

/-- The environment belongs to a member of the class `cls` that returns `result`. -/
structure Inside (env : Environment) (t : ClassTable) (cls : TypeId) (result : Ty) : Prop where
  classes : env.classes = t
  thisClass : env.thisClass = some cls
  returns : env.returns = result

variable {env env' : Environment}

/-- The scopes find the latest visible binding of a name. -/
theorem lookup_visible (env : Environment) (x : String) :
    (env.scopes.lookup? x).map (·.2) = env.visible.find? (·.name == x) := by
  have hall : ∀ scopes : List Scope,
      (scopes.findSome? fun scope => (scope.find? x).map (scope, ·)).map (·.2) =
        (scopes.flatMap (·.bindings)).find? (·.name == x) := by
    intro scopes
    induction scopes with
    | nil => rfl
    | cons scope scopes ih =>
      rw [List.findSome?_cons, List.flatMap_cons, List.find?_append]
      cases h : scope.bindings.find? (·.name == x) with
      | none => simpa [Scope.find?, h] using ih
      | some b => simp [Scope.find?, h]
  exact hall _

theorem typeOf_eq (x : String) :
    env.typeOf? x = (env.visible.find? (·.name == x)).map (·.type) := by
  rw [← lookup_visible, Option.map_map]
  rfl

@[simp] theorem visible_enter : env.enter.visible = env.visible := by
  simp [visible, enter, Scopes.push]

theorem Inside.enter {t : ClassTable} {cls : TypeId} {result : Ty}
    (h : env.Inside t cls result) : env.enter.Inside t cls result :=
  ⟨h.classes, h.thisClass, h.returns⟩

theorem bind_visible {x : Ident} {τ : Ty} (h : env.bind x τ = .ok env') :
    env'.visible = ⟨x.name, τ⟩ :: env.visible := by
  simp only [Environment.bind, bind_eq_ok, pure_eq_ok, Scopes.bind] at h
  obtain ⟨scopes, hs, rfl⟩ := h
  split at hs
  · cases hs
  · cases hs
    simp [visible]

theorem Inside.bind {t : ClassTable} {cls : TypeId} {result : Ty} {x : Ident} {τ : Ty}
    (hin : env.Inside t cls result) (h : env.bind x τ = .ok env') :
    env'.Inside t cls result := by
  simp only [Environment.bind, bind_eq_ok, pure_eq_ok] at h
  obtain ⟨scopes, _, rfl⟩ := h
  exact ⟨hin.classes, hin.thisClass, hin.returns⟩

end Environment

/-- The argument types fit the parameters of a method. -/
def ClassTable.Fit (t : ClassTable) (arguments params : List Ty) : Prop :=
  List.Forall₂ (fun a p => t.isAssignable a p = true) arguments params

/-- A value of type `τ` may be tested for, or cast to, the type `υ`. -/
def ClassTable.Testable (t : ClassTable) (τ υ : Ty) : Prop :=
  if τ = .null ∨ υ = .null then τ.isNullable = true ∧ υ.isNullable = true
  else t.isAssignable υ τ = true

/-- The class whose operator method applies to a left operand of type `τ`: equality on what may be null
is that of the root class. -/
def OperatorClass (op : BinaryOp) (τ : Ty) (id : TypeId) : Prop :=
  if τ.isNullable && op.isEquality then id = TypeId.any else τ = .plain id ∧ id ≠ TypeId.unit

/-- `Typed env e τ`: in the environment `env` the annotated expression `e` has type `τ`. -/
inductive Typed (env : Environment) : Expr Typing → Ty → Prop
  | number {x : Float} {s : Span} : Typed env (.number x ⟨s, some .number⟩) .number
  | string {c : String} {s : Span} : Typed env (.string c ⟨s, some .string⟩) .string
  | boolean {b : Bool} {s : Span} : Typed env (.boolean b ⟨s, some .boolean⟩) .boolean
  | null {s : Span} : Typed env (.null ⟨s, some .null⟩) .null
  | name {x : String} {s : Span} {τ : Ty} :
      env.typeOf? x = some τ → Typed env (.name x ⟨s, some τ⟩) τ
  | this {s : Span} {id : TypeId} :
      env.thisClass = some id → Typed env (.this ⟨s, some (.plain id)⟩) (.plain id)
  | base {s : Span} {id p : TypeId} :
      env.thisClass = some id → env.classes.parent? id = some p →
      Typed env (.base ⟨s, some (.plain p)⟩) (.plain p)
  | member {e : Expr Typing} {x : Ident} {s : Span} {id owner : TypeId} {f : Field} :
      Typed env e (.plain id) → id ≠ TypeId.unit →
      env.classes.lookupField? id x.name = some (owner, f) →
      env.classes.canAccess env.thisClass owner f.access = true →
      Typed env (.member e x ⟨s, some f.type⟩) f.type
  | call {e : Expr Typing} {x : Ident} {n s : Span} {es : List (Expr Typing)}
      {id owner : TypeId} {m : Method} {τs : List Ty} :
      Typed env e (.plain id) → id ≠ TypeId.unit →
      env.classes.lookupMethod? id (.named x.name) = some (owner, m) →
      env.classes.canAccess env.thisClass owner m.access = true →
      es.length = τs.length → (∀ a ∈ es.zip τs, Typed env a.1 a.2) →
      env.classes.Fit τs m.params →
      Typed env (.call (.member e x (.untyped n)) es ⟨s, some m.returns⟩) m.returns
  | new {c : Ident} {s : Span} {es : List (Expr Typing)} {id : TypeId} {m : Method}
      {τs : List Ty} :
      env.classes.find? c.name = some id → env.classes.constructor? id = some m →
      env.classes.canAccess env.thisClass id m.access = true →
      es.length = τs.length → (∀ a ∈ es.zip τs, Typed env a.1 a.2) →
      env.classes.Fit τs m.params →
      Typed env (.new c es ⟨s, some (.plain id)⟩) (.plain id)
  | assignName {x : String} {n s : Span} {v : Expr Typing} {τ υ : Ty} :
      env.typeOf? x = some τ → Typed env v υ → env.classes.isAssignable υ τ = true →
      Typed env (.assign (.name x ⟨n, some τ⟩) v ⟨s, some τ⟩) τ
  | assignMember {e v : Expr Typing} {x : Ident} {n s : Span} {id owner : TypeId} {f : Field}
      {υ : Ty} :
      Typed env e (.plain id) → id ≠ TypeId.unit →
      env.classes.lookupField? id x.name = some (owner, f) →
      env.classes.canAccess env.thisClass owner f.access = true →
      env.classes.isBuiltin owner = false →
      Typed env v υ → env.classes.isAssignable υ f.type = true →
      Typed env (.assign (.member e x ⟨n, some f.type⟩) v ⟨s, some f.type⟩) f.type
  | binary {op : BinaryOp} {l r : Expr Typing} {s : Span} {τ υ : Ty} {id owner : TypeId}
      {m : Method} :
      Typed env l τ → Typed env r υ → OperatorClass op τ id →
      env.classes.lookupMethod? id (.binary op) = some (owner, m) →
      env.classes.canAccess env.thisClass owner m.access = true →
      (∀ p ∈ m.params.head?, env.classes.isAssignable υ p = true) →
      Typed env (.binary op l r ⟨s, some m.returns⟩) m.returns
  | unary {op : UnaryOp} {e : Expr Typing} {s : Span} {id owner : TypeId} {m : Method} :
      Typed env e (.plain id) → id ≠ TypeId.unit →
      env.classes.lookupMethod? id (.unary op) = some (owner, m) →
      env.classes.canAccess env.thisClass owner m.access = true →
      Typed env (.unary op e ⟨s, some m.returns⟩) m.returns
  | assert {e : Expr Typing} {s : Span} {id : TypeId} :
      Typed env e (.option id) → Typed env (.assert e ⟨s, some (.plain id)⟩) (.plain id)
  | instanceTest {e : Expr Typing} {w : TypeName} {s : Span} {τ υ : Ty} :
      Typed env e τ → env.classes.resolveType w = .ok υ → env.classes.Testable τ υ →
      Typed env (.instanceTest e w ⟨s, some .boolean⟩) .boolean
  | cast {e : Expr Typing} {w : TypeName} {s : Span} {τ υ : Ty} :
      Typed env e τ → env.classes.resolveType w = .ok υ → env.classes.Testable τ υ →
      Typed env (.cast e w ⟨s, some υ⟩) υ

/-- The node of a well-typed expression carries its type. -/
theorem Typed.note_type {env : Environment} {e : Expr Typing} {τ : Ty} (h : Typed env e τ) :
    e.note.type = some τ := by
  cases h <;> rfl

theorem Typed.unique {env : Environment} {e : Expr Typing} {τ υ : Ty} (h : Typed env e τ)
    (h' : Typed env e υ) : τ = υ :=
  Option.some.inj (h.note_type.symm.trans h'.note_type)

/-- Arguments that have types which fit the parameters of a method. -/
def ArgumentsTyped (env : Environment) (es : List (Expr Typing)) (params : List Ty) : Prop :=
  ∃ τs : List Ty, es.length = τs.length ∧ (∀ a ∈ es.zip τs, Typed env a.1 a.2) ∧
    env.classes.Fit τs params

/-- The type that a variable with the written type `w` gets from a value of type `υ`. -/
def ClassTable.Declares (t : ClassTable) (w : Option TypeName) (υ τ : Ty) : Prop :=
  match w with
  | none => τ = υ ∧ υ ≠ .null
  | some w => t.resolveType w = .ok τ ∧ t.isAssignable υ τ = true

mutual

/-- `StmtTyped env s env'`: the annotated statement `s` is well typed in `env`, and what it binds is in
`env'`. -/
inductive StmtTyped : Environment → Stmt Typing → Environment → Prop
  | define {env env' : Environment} {x : Ident} {w : Option TypeName} {e : Expr Typing} {s : Span}
      {τ υ : Ty} :
      Typed env e υ → env.classes.Declares w υ τ → τ ≠ .unit → env.bind x τ = .ok env' →
      StmtTyped env (.define x w e s) env'
  | return {env : Environment} {e : Expr Typing} {s : Span} {υ : Ty} :
      Typed env e υ → env.returns ≠ .unit → env.classes.isAssignable υ env.returns = true →
      StmtTyped env (.return (some e) s) env
  | returnNone {env : Environment} {s : Span} :
      env.returns = .unit → StmtTyped env (.return none s) env
  | ifThen {env env' : Environment} {c : Expr Typing} {b : Stmt Typing} {s : Span} :
      Typed env c .boolean → StmtTyped env.enter b env' → StmtTyped env (.ifThen c b s) env
  | ifElse {env env' env'' : Environment} {c : Expr Typing} {b o : Stmt Typing} {s : Span} :
      Typed env c .boolean → StmtTyped env.enter b env' → StmtTyped env.enter o env'' →
      StmtTyped env (.ifElse c b o s) env
  | while {env env' : Environment} {c : Expr Typing} {b : Stmt Typing} {s : Span} :
      Typed env c .boolean → StmtTyped env.enter b env' → StmtTyped env (.while c b s) env
  | block {env env' : Environment} {ss : List (Stmt Typing)} {s : Span} :
      StmtsTyped env.enter ss env' → StmtTyped env (.block ss s) env
  | expression {env : Environment} {e : Expr Typing} {s : Span} {τ : Ty} :
      Typed env e τ → StmtTyped env (.expression e s) env

/-- `StmtTyped` for statements one after the other in one scope. -/
inductive StmtsTyped : Environment → List (Stmt Typing) → Environment → Prop
  | nil {env : Environment} : StmtsTyped env [] env
  | cons {env env' env'' : Environment} {s : Stmt Typing} {ss : List (Stmt Typing)} :
      StmtTyped env s env' → StmtsTyped env' ss env'' → StmtsTyped env (s :: ss) env''

end

/-! ## Soundness of the check -/

namespace Check

namespace TypedLemmas

variable {env : Environment}

theorem assignable_ok {υ τ : Ty} {s : Span} {u : Unit} :
    assignable env υ τ s = .ok u ↔ env.classes.isAssignable υ τ = true := by
  unfold assignable
  split
  · simp_all
  · next h => split <;> simp [h]

theorem accessible_ok {owner : TypeId} {x : String} {access : Access} {s : Span} {u : Unit} :
    accessible env owner x access s = .ok u ↔
      env.classes.canAccess env.thisClass owner access = true := by
  unfold accessible
  split <;> simp_all

theorem thisClass_ok {s : Span} {id : TypeId} :
    thisClass env s = .ok id ↔ env.thisClass = some id := by
  unfold thisClass
  split <;> simp_all

theorem baseClass_ok {s : Span} {p : TypeId} :
    baseClass env s = .ok p ↔
      ∃ id, env.thisClass = some id ∧ env.classes.parent? id = some p := by
  simp only [baseClass, bind_eq_ok, thisClass_ok]
  refine exists_congr fun id => and_congr_right fun _ => ?_
  split <;> simp_all

theorem receiver_ok {τ : Ty} {x : String} {s : Span} {id : TypeId} :
    receiver env τ x s = .ok id ↔ τ = .plain id ∧ id ≠ TypeId.unit := by
  unfold receiver
  cases τ with
  | plain c =>
    simp only [Ty.plain.injEq]
    split
    · next h => 
      simp only [reduceCtorEq, false_iff, not_and]
      exact fun hc hn => hn (hc ▸ h)
    · next h =>
      simp only [Except.ok.injEq]
      exact ⟨fun hc => ⟨hc, hc ▸ h⟩, fun hc => hc.1⟩
  | option c => simp
  | null => simp

theorem method_ok {id owner : TypeId} {key : MemberKey} {τ : Ty} {s : Span} {m : Method} :
    method env id key τ s = .ok (owner, m) ↔
      env.classes.lookupMethod? id key = some (owner, m) := by
  unfold method
  split <;> simp_all

theorem field_ok {τ : Ty} {x : Ident} {owner : TypeId} {f : Field} :
    field env τ x = .ok (owner, f) ↔ ∃ id, τ = .plain id ∧ id ≠ TypeId.unit ∧
      env.classes.lookupField? id x.name = some (owner, f) := by
  simp only [field, bind_eq_ok, receiver_ok, and_assoc]
  refine exists_congr fun id => and_congr_right fun _ => and_congr_right fun _ => ?_
  split <;> simp_all

theorem operatorClass_ok {op : BinaryOp} {τ : Ty} {s : Span} {id : TypeId} :
    operatorClass env op τ s = .ok id ↔ OperatorClass op τ id := by
  unfold operatorClass OperatorClass
  split
  · simp only [Except.ok.injEq]
    exact eq_comm
  · exact receiver_ok

theorem argumentCount_ok {params : List Ty} {es : List (Expr Span)} {s : Span} {u : Unit} :
    argumentCount params es s = .ok u ↔ params.length = es.length := by
  unfold argumentCount
  split <;> simp_all

theorem lookup_ok {x : Ident} {τ : Ty} :
    env.lookup x = .ok τ ↔ env.typeOf? x.name = some τ := by
  unfold Environment.lookup Environment.typeOf?
  split <;> simp_all

theorem testTarget_ok {τ υ : Ty} {w : TypeName} {s : Span} (h : testTarget env τ w s = .ok υ) :
    env.classes.resolveType w = .ok υ ∧ env.classes.Testable τ υ := by
  simp only [testTarget, bind_eq_ok] at h
  obtain ⟨υ', hw, h⟩ := h
  unfold ClassTable.Testable
  split at h
  · next hnull =>
    split at h
    · exact absurd h (by simp)
    · next hτ =>
      split at h
      · exact absurd h (by simp)
      · next hυ =>
        obtain rfl := pure_eq_ok.mp h
        exact ⟨hw, by rw [if_pos hnull]; simp_all⟩
  · next hnull =>
    split at h
    · next hfit =>
      obtain rfl := pure_eq_ok.mp h
      exact ⟨hw, by rwa [if_neg hnull]⟩
    · exact absurd h (by simp)

end TypedLemmas

open TypedLemmas

mutual

/-- What is inferred is well typed. -/
theorem infer_typed {env : Environment} :
    ∀ {e : Expr Span} {τ : Ty} {e' : Expr Typing}, infer env e = .ok (τ, e') → Typed env e' τ
  | .number x s, τ, e', h => by cases h; exact .number
  | .string c s, τ, e', h => by cases h; exact .string
  | .boolean b s, τ, e', h => by cases h; exact .boolean
  | .null s, τ, e', h => by cases h; exact .null
  | .name x s, τ, e', h => by
    simp only [infer, bind_eq_ok, pure_eq_ok, lookup_ok, Prod.mk.injEq] at h
    obtain ⟨_, hx, rfl, rfl⟩ := h
    exact .name hx
  | .this s, τ, e', h => by
    simp only [infer, bind_eq_ok, pure_eq_ok, thisClass_ok, Prod.mk.injEq] at h
    obtain ⟨id, hid, rfl, rfl⟩ := h
    exact .this hid
  | .base s, τ, e', h => by
    simp only [infer, bind_eq_ok, pure_eq_ok, baseClass_ok, Prod.mk.injEq] at h
    obtain ⟨p, ⟨id, hid, hp⟩, rfl, rfl⟩ := h
    exact .base hid hp
  | .member o x s, τ, e', h => by
    simp only [infer, bind_eq_ok, pure_eq_ok, Prod.exists, field_ok, accessible_ok,
      Prod.mk.injEq] at h
    obtain ⟨υ, o', ho, owner, f, ⟨id, rfl, hunit, hf⟩, _, haccess, rfl, rfl⟩ := h
    exact .member (infer_typed ho) hunit hf haccess
  | .call (.member o x n) es s, τ, e', h => by
    simp only [infer, bind_eq_ok, pure_eq_ok, Prod.exists, receiver_ok, method_ok, accessible_ok,
      argumentCount_ok, Prod.mk.injEq] at h
    obtain ⟨υ, o', ho, id, ⟨rfl, hunit⟩, owner, m, hm, _, haccess, _, hcount, es', hes, rfl, rfl⟩ := h
    obtain ⟨τs, hlen, htyped, hfit⟩ := inferArguments_typed hcount hes
    exact .call (infer_typed ho) hunit hm haccess hlen htyped hfit
  | .new c es s, τ, e', h => by
    simp only [infer, bind_eq_ok, ClassTable.resolve_ok] at h
    obtain ⟨id, hid, h⟩ := h
    split at h
    · exact absurd h (by simp)
    · next m hm =>
      simp only [bind_eq_ok, pure_eq_ok, accessible_ok, argumentCount_ok, Prod.mk.injEq] at h
      obtain ⟨_, haccess, _, hcount, es', hes, rfl, rfl⟩ := h
      obtain ⟨τs, hlen, htyped, hfit⟩ := inferArguments_typed hcount hes
      exact .new hid hm haccess hlen htyped hfit
  | .assign (.name x n) v s, τ, e', h => by
    simp only [infer, bind_eq_ok, pure_eq_ok, lookup_ok, Prod.exists, Prod.mk.injEq] at h
    obtain ⟨_, _, ⟨_, hx, rfl, rfl⟩, h⟩ := h
    simp only [isBuiltinField, Bool.false_eq_true, ↓reduceIte, bind_eq_ok, pure_eq_ok,
      Prod.exists, assignable_ok, Prod.mk.injEq] at h
    obtain ⟨υ, v', hv, _, hfit, rfl, rfl⟩ := h
    exact .assignName hx (infer_typed hv) hfit
  | .assign (.member o x n) v s, τ, e', h => by
    simp only [infer, bind_eq_ok, pure_eq_ok, Prod.exists, field_ok, accessible_ok,
      Prod.mk.injEq] at h
    obtain ⟨_, _, ⟨υ, o', ho, owner, f, ⟨id, rfl, hunit, hf⟩, _, haccess, rfl, rfl⟩, h⟩ := h
    have hto := infer_typed ho
    split at h
    · exact absurd h (by simp)
    · next hbuiltin =>
      simp only [bind_eq_ok, pure_eq_ok, Prod.exists, assignable_ok, Prod.mk.injEq] at h
      obtain ⟨υ, v', hv, _, hfit, rfl, rfl⟩ := h
      refine .assignMember hto hunit hf haccess ?_ (infer_typed hv) hfit
      simpa [isBuiltinField, hto.note_type, hf] using hbuiltin
  | .binary op l r s, τ, e', h => by
    simp only [infer, bind_eq_ok, Prod.exists, operatorClass_ok, method_ok, accessible_ok] at h
    obtain ⟨τl, l', hl, τr, r', hr, id, hid, owner, m, hm, _, haccess, h⟩ := h
    split at h
    · next hparams =>
      simp only [pure_eq_ok, Prod.mk.injEq] at h
      obtain ⟨rfl, rfl⟩ := h
      exact .binary (infer_typed hl) (infer_typed hr) hid hm haccess (by simp [hparams])
    · next p _ hparams =>
      simp only [bind_eq_ok, pure_eq_ok, assignable_ok, Prod.mk.injEq] at h
      obtain ⟨_, hfit, rfl, rfl⟩ := h
      exact .binary (infer_typed hl) (infer_typed hr) hid hm haccess (by simpa [hparams] using hfit)
  | .unary op o s, τ, e', h => by
    simp only [infer, bind_eq_ok, pure_eq_ok, Prod.exists, receiver_ok, method_ok, accessible_ok,
      Prod.mk.injEq] at h
    obtain ⟨υ, o', ho, id, ⟨rfl, hunit⟩, owner, m, hm, _, haccess, rfl, rfl⟩ := h
    exact .unary (infer_typed ho) hunit hm haccess
  | .assert o s, τ, e', h => by
    simp only [infer, bind_eq_ok, Prod.exists] at h
    obtain ⟨υ, o', ho, h⟩ := h
    have hto := infer_typed ho
    cases υ with
    | option id =>
      simp only [Ty.unwrapped?, pure_eq_ok, Prod.mk.injEq] at h
      obtain ⟨rfl, rfl⟩ := h
      exact .assert hto
    | plain id | null => exact absurd h (by simp [Ty.unwrapped?])
  | .instanceTest o w s, τ, e', h => by
    simp only [infer, bind_eq_ok, pure_eq_ok, Prod.exists, Prod.mk.injEq] at h
    obtain ⟨υ, o', ho, ρ, hw, rfl, rfl⟩ := h
    exact .instanceTest (infer_typed ho) (testTarget_ok hw).1 (testTarget_ok hw).2
  | .cast o w s, τ, e', h => by
    simp only [infer, bind_eq_ok, pure_eq_ok, Prod.exists, Prod.mk.injEq] at h
    obtain ⟨υ, o', ho, ρ, hw, rfl, rfl⟩ := h
    exact .cast (infer_typed ho) (testTarget_ok hw).1 (testTarget_ok hw).2

theorem inferArguments_typed {env : Environment} :
    ∀ {params : List Ty} {es : List (Expr Span)} {es' : List (Expr Typing)},
      params.length = es.length → inferArguments env params es = .ok es' →
      ArgumentsTyped env es' params
  | [], [], es', _, h => by
    cases h
    exact ⟨[], rfl, by simp, .nil⟩
  | p :: params, e :: es, es', hlen, h => by
    simp only [inferArguments, bind_eq_ok, pure_eq_ok, Prod.exists, assignable_ok] at h
    obtain ⟨τ, e', he, _, hfit, es'', hes, rfl⟩ := h
    obtain ⟨τs, hlen', htyped, hfits⟩ := inferArguments_typed (Nat.succ.inj hlen) hes
    refine ⟨τ :: τs, by simp [hlen'], ?_, .cons hfit hfits⟩
    rw [List.zip_cons_cons]
    exact List.forall_mem_cons.mpr ⟨infer_typed he, htyped⟩

end

theorem condition_ok {env : Environment} {e : Expr Span} (h : (condition env e).2 = []) :
    Typed env (condition env e).1 .boolean := by
  unfold condition at h ⊢
  split at h
  · next τ e' he =>
    by_cases hτ : τ = .boolean
    · subst hτ
      exact infer_typed he
    · simp [hτ] at h
  · simp at h

theorem tolerate_ok {env : Environment} {e : Expr Span} (h : (tolerate env e).2 = []) :
    ∃ τ, Typed env (tolerate env e).1 τ := by
  unfold tolerate at h ⊢
  split at h
  · next τ e' he =>
    exact ⟨τ, infer_typed he⟩
  · simp at h

/-- A definition without errors: the variable has the type that its value or its text gives it. -/
theorem define_ok {env : Environment} {x : Ident} {w : Option TypeName} {e : Expr Span}
    (h : (define env x w e).errors = []) : ∃ υ τ, Typed env (define env x w e).value υ ∧
      env.classes.Declares w υ τ ∧ τ ≠ .unit ∧ env.bind x τ = .ok (define env x w e).env := by
  cases w with
  | none =>
    simp only [define, defineInferred] at h ⊢
    cases he : infer env e with
    | error e' => simp [he] at h
    | ok found =>
      obtain ⟨υ, e'⟩ := found
      simp only [he] at h ⊢
      by_cases hnull : υ = .null
      · simp [hnull] at h
      · by_cases hunit : υ = .unit
        · rw [if_neg hnull, if_pos hunit] at h
          cases h
        · rw [if_neg hnull, if_neg hunit] at h ⊢
          cases hb : env.bind x υ with
          | error d => simp [hb] at h
          | ok env' => exact ⟨υ, υ, infer_typed he, ⟨rfl, hnull⟩, hunit, hb⟩
  | some w =>
    simp only [define] at h ⊢
    cases hw : env.classes.resolveType w with
    | error e' => simp [hw] at h
    | ok τ =>
      simp only [hw, defineAs] at h ⊢
      cases hb : env.bind x τ with
      | error d => simp [hb] at h
      | ok env' =>
        simp only [hb] at h ⊢
        cases he : infer env e with
        | error e' => simp [he] at h
        | ok found =>
          obtain ⟨υ, e'⟩ := found
          simp only [he] at h ⊢
          cases hfit : assignable env υ τ e.note with
          | error e' => simp [hfit] at h
          | ok u =>
            simp only [hfit] at h ⊢
            by_cases hunit : τ = .unit
            · rw [if_pos hunit] at h
              cases h
            · exact ⟨υ, τ, infer_typed he, ⟨hw, assignable_ok.mp hfit⟩, hunit, hb⟩

theorem return_ok {env : Environment} {v : Option (Expr Span)} {s : Span}
    (h : (returnValue env v s).2 = []) : StmtTyped env (.return (returnValue env v s).1 s) env := by
  cases v with
  | none =>
    by_cases hunit : env.returns = .unit
    · exact .returnNone hunit
    · simp [returnValue, hunit] at h
  | some e =>
    simp only [returnValue] at h ⊢
    cases he : infer env e with
    | error e' => simp [he] at h
    | ok found =>
      obtain ⟨υ, e'⟩ := found
      simp only [he] at h ⊢
      by_cases hunit : env.returns = .unit
      · simp [hunit] at h
      · rw [if_neg hunit] at h
        cases hfit : assignable env υ env.returns e.note with
        | error e' => simp [hfit, errorsOf] at h
        | ok u => exact .return (infer_typed he) hunit (assignable_ok.mp hfit)

mutual

/-- A statement that is checked without an error is well typed. -/
theorem stmt_typed : ∀ {env : Environment} {s : Stmt Span}, (stmt env s).errors = [] →
    StmtTyped env (stmt env s).value (stmt env s).env
  | env, .define x w e s, h => by
    obtain ⟨υ, τ, he, hw, hunit, hb⟩ := define_ok h
    exact .define he hw hunit hb
  | env, .return v s, h => return_ok h
  | env, .ifThen c b s, h => by
    simp only [stmt, List.append_eq_nil_iff] at h ⊢
    exact .ifThen (condition_ok h.1) (stmt_typed h.2)
  | env, .ifElse c b o s, h => by
    simp only [stmt, List.append_eq_nil_iff] at h ⊢
    exact .ifElse (condition_ok h.1.1) (stmt_typed h.1.2) (stmt_typed h.2)
  | env, .while c b s, h => by
    simp only [stmt, List.append_eq_nil_iff] at h ⊢
    exact .while (condition_ok h.1) (stmt_typed h.2)
  | env, .block ss s, h => .block (stmts_typed h)
  | env, .expression e s, h => by
    obtain ⟨τ, he⟩ := tolerate_ok h
    exact .expression he

theorem stmts_typed : ∀ {env : Environment} {ss : List (Stmt Span)}, (stmts env ss).errors = [] →
    StmtsTyped env (stmts env ss).value (stmts env ss).env
  | env, [], _ => .nil
  | env, s :: ss, h => by
    simp only [stmts, List.append_eq_nil_iff] at h ⊢
    exact .cons (stmt_typed h.1) (stmts_typed h.2)

end

end Check

end ClassLang
