import ClassLang.Proofs.Notes
import ClassLang.Proofs.Renumbering
import ClassLang.Proofs.Success
import ClassLang.Proofs.Threading

/-!
# Checking under other indices

The check against a renumbered table takes the same decisions. It reports the same errors, since an error
shows classes by their names, and it notes the same types with the classes at other indices: one lemma
for each judgement, from expressions (`infer_renumber`) over statements (`stmt_renumber`) to members
(`member_renumber`) and classes (`classDecl_renumber`).
-/

namespace ClassLang

/-- The note with the classes at other indices. -/
def Typing.renumber (π : Equiv.Perm Nat) (n : Typing) : Typing :=
  { n with type := n.type.map (Ty.renumber π) }

/-- The binding with the classes at other indices. -/
def Binding.renumber (π : Equiv.Perm Nat) (b : Binding) : Binding := { b with type := b.type.renumber π }

/-- The scope with the classes at other indices. -/
def Scope.renumber (π : Equiv.Perm Nat) (s : Scope) : Scope :=
  { s with bindings := s.bindings.map (Binding.renumber π) }

/-- The scopes with the classes at other indices. -/
def Scopes.renumber (π : Equiv.Perm Nat) (s : Scopes) : Scopes :=
  { s with current := s.current.renumber π, outer := s.outer.map (Scope.renumber π) }

/-- The environment with the classes at other indices, against the table `t'` that has them there. -/
def Environment.renumber (π : Equiv.Perm Nat) (t' : ClassTable) (env : Environment) : Environment :=
  ⟨t', env.scopes.renumber π, env.thisClass.map π, env.returns.renumber π⟩

variable {π : Equiv.Perm Nat}

/-! ## Local names -/

theorem Scope.find_renumber (s : Scope) (name : String) :
    (s.renumber π).find? name = (s.find? name).map (Binding.renumber π) := by
  simp only [Scope.find?, renumber, List.find?_map]
  rfl

theorem Scopes.bind_renumber (s : Scopes) (name : Ident) (type : Ty) :
    (s.renumber π).bind name (type.renumber π) = Scopes.renumber π <$> s.bind name type := by
  simp only [bind, renumber, Scope.find_renumber]
  cases s.current.find? name.name <;> rfl

theorem Scopes.lookup_renumber (s : Scopes) (name : String) : (s.renumber π).lookup? name =
    (s.lookup? name).map fun found => (found.1.renumber π, found.2.renumber π) := by
  have hscope (scope : Scope) : ((scope.renumber π).find? name).map (scope.renumber π, ·) =
      ((scope.find? name).map (scope, ·)).map fun found => (found.1.renumber π, found.2.renumber π) := by
    rw [Scope.find_renumber]
    cases scope.find? name <;> rfl
  simp only [lookup?, renumber]
  rw [← List.map_cons, List.findSome?_map, List.map_findSome?]
  congr 1
  funext scope
  exact hscope scope

namespace Check

variable {env : Environment} {t' : ClassTable}

theorem bind_renumber (name : Ident) (type : Ty) : (env.renumber π t').bind name (type.renumber π) =
    Environment.renumber π t' <$> env.bind name type := by
  simp only [Environment.bind, Environment.renumber, Scopes.bind_renumber]
  cases env.scopes.bind name type <;> rfl

theorem lookup_renumber (name : Ident) :
    (env.renumber π t').lookup name = Ty.renumber π <$> env.lookup name := by
  simp only [Environment.lookup, Environment.renumber, Scopes.lookup_renumber]
  cases env.scopes.lookup? name.name <;> rfl

theorem enter_renumber : (env.renumber π t').enter = env.enter.renumber π t' := rfl

section

variable (h : env.classes.Renumbers π t')

include h

/-! ## Expressions -/

theorem assignable_renumber (value target : Ty) (span : Span) :
    assignable (env.renumber π t') (value.renumber π) (target.renumber π) span =
      assignable env value target span := by
  simp only [assignable, Environment.renumber, h.isAssignable_eq, h.text_eq, Ty.renumber_eq_null]

theorem accessible_renumber (owner : Nat) (member : String) (access : Access) (span : Span) :
    accessible (env.renumber π t') (π owner) member access span =
      accessible env owner member access span := by
  simp only [accessible, Environment.renumber, h.canAccess_eq, h.name_eq]

omit h in
theorem thisClass_renumber (span : Span) :
    thisClass (env.renumber π t') span = π <$> thisClass env span := by
  simp only [thisClass, Environment.renumber]
  cases env.thisClass <;> rfl

theorem baseClass_renumber (span : Span) :
    baseClass (env.renumber π t') span = π <$> baseClass env span := by
  simp only [baseClass, thisClass_renumber, bind_map_left, map_bind]
  refine bind_congr fun this => ?_
  simp only [Environment.renumber, h.parent_eq, h.name_eq]
  cases env.classes.parent? this <;> rfl

theorem notFound_renumber (member : String) (type : Ty) (span : Span) :
    notFound (env.renumber π t') member (type.renumber π) span = notFound env member type span := by
  simp only [notFound, Environment.renumber, h.text_eq]

theorem receiver_renumber (type : Ty) (member : String) (span : Span) :
    receiver (env.renumber π t') (type.renumber π) member span = π <$> receiver env type member span := by
  have hfound := notFound_renumber h member type span
  cases type with
  | plain id =>
    simp only [receiver, Ty.renumber, h.builtin.eq_unit]
    split
    · exact congrArg Except.error hfound
    · rfl
  | option id | null => exact congrArg Except.error hfound

theorem method_renumber (id : Nat) (key : MemberKey) (type : Ty) (span : Span) :
    method (env.renumber π t') (π id) key (type.renumber π) span =
      (fun found => (π found.1, found.2.renumber π)) <$> method env id key type span := by
  have hclasses : (env.renumber π t').classes = t' := rfl
  simp only [method, hclasses, h.lookupMethod_eq, notFound_renumber h]
  cases env.classes.lookupMethod? id key <;> rfl

theorem field_renumber (object : Ty) (property : Ident) :
    field (env.renumber π t') (object.renumber π) property =
      (fun found => (π found.1, found.2.renumber π)) <$> field env object property := by
  have hclasses : (env.renumber π t').classes = t' := rfl
  simp only [field, receiver_renumber h, bind_map_left, map_bind]
  refine bind_congr fun id => ?_
  simp only [hclasses, h.lookupField_eq, notFound_renumber h]
  cases env.classes.lookupField? id property.name <;> rfl

theorem isBuiltinField_renumber (e : Expr Typing) :
    isBuiltinField (env.renumber π t') (e.map (Typing.renumber π)) = isBuiltinField env e := by
  have hclasses : (env.renumber π t').classes = t' := rfl
  cases e with
  | member object property n =>
    simp only [Expr.map, isBuiltinField, Expr.note_map, Typing.renumber]
    cases object.note.type with
    | none => rfl
    | some type =>
      cases type with
      | plain id =>
        simp only [Option.map_some, Ty.renumber, hclasses, h.lookupField_eq]
        cases env.classes.lookupField? id property.name with
        | none => rfl
        | some found => exact h.isBuiltin_eq _
      | option id | null => rfl
  | _ => rfl

theorem operatorClass_renumber (op : BinaryOp) (left : Ty) (span : Span) :
    operatorClass (env.renumber π t') op (left.renumber π) span = π <$> operatorClass env op left span := by
  simp only [operatorClass, Ty.isNullable_renumber, receiver_renumber h]
  split
  · exact congrArg Except.ok h.builtin.any.symm
  · rfl

theorem testTarget_renumber (operand : Ty) (target : TypeName) (span : Span) :
    testTarget (env.renumber π t') (operand.renumber π) target span =
      Ty.renumber π <$> testTarget env operand target span := by
  have hclasses : (env.renumber π t').classes = t' := rfl
  simp only [testTarget, hclasses, h.resolveType_eq, bind_map_left, map_bind]
  refine bind_congr fun type => ?_
  simp only [h.text_eq, Ty.renumber_eq_null, Ty.isNullable_renumber, h.isAssignable_eq]
  split
  · split
    · rfl
    · split <;> rfl
  · split <;> rfl

/-- An inferred type and tree with the classes at other indices. -/
def renumberInferred (π : Equiv.Perm Nat) (x : Ty × Expr Typing) : Ty × Expr Typing :=
  (x.1.renumber π, x.2.map (Typing.renumber π))

omit h in
theorem argumentCount_renumber (params : List Ty) (es : List (Expr Span)) (span : Span) :
    argumentCount (params.map (Ty.renumber π)) es span = argumentCount params es span := by
  simp only [argumentCount, List.length_map]

mutual

/-- The type of an expression under other indices, and the tree with the types of all its nodes. -/
theorem infer_renumber : ∀ e : Expr Span,
    infer (env.renumber π t') e = renumberInferred π <$> infer env e
  | .number x s => by
    have hnumber := h.builtin.number_ty
    simp [infer, renumberInferred, Expr.map, Typing.renumber, hnumber]
  | .string c s => by
    have hstring := h.builtin.string_ty
    simp [infer, renumberInferred, Expr.map, Typing.renumber, hstring]
  | .boolean b s => by
    have hboolean := h.builtin.boolean_ty
    simp [infer, renumberInferred, Expr.map, Typing.renumber, hboolean]
  | .null _ => rfl
  | .name x s => by
    simp only [infer, lookup_renumber, bind_map_left, map_bind]
    rfl
  | .this s => by
    simp only [infer, thisClass_renumber, bind_map_left, map_bind]
    rfl
  | .base s => by
    simp only [infer, baseClass_renumber h, bind_map_left, map_bind]
    rfl
  | .member object property s => by
    simp only [infer, infer_renumber object, bind_map_left, map_bind, renumberInferred]
    refine bind_congr fun x => ?_
    simp only [field_renumber h, bind_map_left, accessible_renumber h]
    rfl
  | .call (.member object property n) arguments s => by
    simp only [infer, infer_renumber object, bind_map_left, map_bind, renumberInferred]
    refine bind_congr fun x => ?_
    simp only [receiver_renumber h, bind_map_left]
    refine bind_congr fun id => ?_
    simp only [method_renumber h, bind_map_left]
    refine bind_congr fun found => ?_
    simp only [accessible_renumber h, Method.renumber, argumentCount_renumber,
      inferArguments_renumber, bind_map_left]
    rfl
  | .call (.number ..) _ _ | .call (.string ..) _ _ | .call (.boolean ..) _ _ | .call (.null ..) _ _
  | .call (.name ..) _ _ | .call (.this ..) _ _ | .call (.base ..) _ _ | .call (.call ..) _ _
  | .call (.new ..) _ _ | .call (.assign ..) _ _ | .call (.binary ..) _ _ | .call (.unary ..) _ _
  | .call (.assert ..) _ _ | .call (.instanceTest ..) _ _ | .call (.cast ..) _ _ => rfl
  | .new className arguments s => by
    have hclasses : (env.renumber π t').classes = t' := rfl
    simp only [infer, hclasses, h.resolve_eq, bind_map_left, map_bind]
    refine bind_congr fun id => ?_
    simp only [h.constructor_eq]
    cases env.classes.constructor? id with
    | none => rfl
    | some m =>
      simp only [Option.map_some, accessible_renumber h, Method.renumber, argumentCount_renumber,
        inferArguments_renumber, bind_map_left, map_bind]
      rfl
  | .assign (.name x n) value s => by
    conv => lhs; rw [infer]
    conv => rhs; rw [infer]
    simp only [infer_renumber (.name x n), bind_map_left, map_bind, renumberInferred]
    refine bind_congr fun y => ?_
    simp only [isBuiltinField_renumber h, infer_renumber value, bind_map_left, renumberInferred,
      assignable_renumber h]
    split
    · rfl
    · simp only [map_bind]
      rfl
  | .assign (.member object property n) value s => by
    conv => lhs; rw [infer]
    conv => rhs; rw [infer]
    simp only [infer_renumber (.member object property n), bind_map_left, map_bind, renumberInferred]
    refine bind_congr fun y => ?_
    simp only [isBuiltinField_renumber h, infer_renumber value, bind_map_left, renumberInferred,
      assignable_renumber h]
    split
    · rfl
    · simp only [map_bind]
      rfl
  | .assign (.number ..) _ _ | .assign (.string ..) _ _ | .assign (.boolean ..) _ _
  | .assign (.null ..) _ _ | .assign (.this ..) _ _ | .assign (.base ..) _ _ | .assign (.call ..) _ _
  | .assign (.new ..) _ _ | .assign (.assign ..) _ _ | .assign (.binary ..) _ _
  | .assign (.unary ..) _ _ | .assign (.assert ..) _ _ | .assign (.instanceTest ..) _ _
  | .assign (.cast ..) _ _ => rfl
  | .binary op left right s => by
    simp only [infer, infer_renumber left, infer_renumber right, bind_map_left, map_bind,
      renumberInferred]
    refine bind_congr fun x => ?_
    refine bind_congr fun y => ?_
    simp only [operatorClass_renumber h, bind_map_left]
    refine bind_congr fun id => ?_
    simp only [method_renumber h, bind_map_left, accessible_renumber h, Method.renumber]
    refine bind_congr fun found => ?_
    refine bind_congr fun _ => ?_
    cases found.2.params with
    | nil => rfl
    | cons param params =>
      simp only [List.map_cons, assignable_renumber h, map_bind]
      rfl
  | .unary op operand s => by
    simp only [infer, infer_renumber operand, bind_map_left, map_bind, renumberInferred]
    refine bind_congr fun x => ?_
    simp only [receiver_renumber h, bind_map_left]
    refine bind_congr fun id => ?_
    simp only [method_renumber h, bind_map_left, accessible_renumber h, Method.renumber]
    rfl
  | .assert operand s => by
    have hclasses : (env.renumber π t').classes = t' := rfl
    simp only [infer, infer_renumber operand, bind_map_left, map_bind, renumberInferred,
      Ty.unwrapped_renumber, hclasses, h.text_eq]
    refine bind_congr fun x => ?_
    cases x.1.unwrapped? <;> rfl
  | .instanceTest operand target s => by
    simp only [infer, infer_renumber operand, bind_map_left, map_bind, renumberInferred]
    refine bind_congr fun x => ?_
    simp only [testTarget_renumber h, bind_map_left]
    refine bind_congr fun _ => ?_
    simp [renumberInferred, Expr.map, Typing.renumber, h.builtin.boolean_ty]
  | .cast operand target s => by
    simp only [infer, infer_renumber operand, bind_map_left, map_bind, renumberInferred]
    refine bind_congr fun x => ?_
    simp only [testTarget_renumber h, bind_map_left]
    rfl

/-- Arguments under other indices, against the parameters with the classes at other indices. -/
theorem inferArguments_renumber : ∀ (params : List Ty) (es : List (Expr Span)),
    inferArguments (env.renumber π t') (params.map (Ty.renumber π)) es =
      Expr.mapList (Typing.renumber π) <$> inferArguments env params es
  | param :: params, e :: es => by
    simp only [List.map_cons, inferArguments, infer_renumber e, bind_map_left, map_bind, renumberInferred]
    refine bind_congr fun x => ?_
    simp only [assignable_renumber h, inferArguments_renumber params es, bind_map_left]
    rfl
  | [], _ => by simp [inferArguments, Expr.mapList]
  | _ :: _, [] => by simp [inferArguments, Expr.mapList]

end

/-! ## Statements -/

omit h in
theorem untyped_renumber (e : Expr Span) :
    (e.map Typing.untyped).map (Typing.renumber π) = e.map .untyped := e.map_map _ _

omit h in
theorem untypedList_renumber (es : List (Expr Span)) :
    Expr.mapList (Typing.renumber π) (Expr.mapList Typing.untyped es) = Expr.mapList .untyped es :=
  Expr.mapList_map _ _ es

/-- A checked expression with the classes at other indices, and its errors. -/
def renumberReport (π : Equiv.Perm Nat) (x : Expr Typing × List SemanticError) :
    Expr Typing × List SemanticError := (x.1.map (Typing.renumber π), x.2)

theorem condition_renumber (e : Expr Span) :
    condition (env.renumber π t') e = renumberReport π (condition env e) := by
  have hclasses : (env.renumber π t').classes = t' := rfl
  simp only [condition, infer_renumber h]
  cases infer env e with
  | error error => exact congrArg (·, [error]) (untyped_renumber e).symm
  | ok x =>
    simp only [Functor.map, Except.map, renumberInferred, Ty.renumber_eq_boolean h.builtin, hclasses,
      h.text_eq]
    rfl

theorem tolerate_renumber (e : Expr Span) :
    tolerate (env.renumber π t') e = renumberReport π (tolerate env e) := by
  simp only [tolerate, infer_renumber h]
  cases infer env e with
  | error error => exact congrArg (·, [error]) (untyped_renumber e).symm
  | ok x => rfl

theorem returnValue_renumber (value : Option (Expr Span)) (span : Span) :
    returnValue (env.renumber π t') value span =
      ((returnValue env value span).1.map (Expr.map (Typing.renumber π)),
        (returnValue env value span).2) := by
  have hclasses : (env.renumber π t').classes = t' := rfl
  have hreturns : (env.renumber π t').returns = env.returns.renumber π := rfl
  cases value with
  | none =>
    simp only [returnValue, hclasses, hreturns, Ty.renumber_eq_unit h.builtin, h.text_eq, Option.map_none]
  | some e =>
    simp only [returnValue, infer_renumber h]
    cases infer env e with
    | error error =>
      simp only [Functor.map, Except.map, Option.map_some, untyped_renumber]
    | ok x =>
      simp only [Functor.map, Except.map, renumberInferred, hclasses, hreturns,
        Ty.renumber_eq_unit h.builtin, h.text_eq, assignable_renumber h, Option.map_some]

/-- A checked part with the classes at other indices. -/
def renumberChecked (π : Equiv.Perm Nat) (t' : ClassTable) {α : Type} (f : α → α) (r : Checked α) :
    Checked α := ⟨f r.value, r.env.renumber π t', r.errors⟩

theorem defineAs_renumber (name : Ident) (type : Ty) (e : Expr Span) :
    defineAs (env.renumber π t') name (type.renumber π) e =
      renumberChecked π t' (Expr.map (Typing.renumber π)) (defineAs env name type e) := by
  simp only [defineAs, bind_renumber, infer_renumber h]
  cases env.bind name type with
  | error duplicate =>
    cases infer env e with
    | error error => simp only [Functor.map, Except.map, renumberChecked, untyped_renumber]
    | ok x => rfl
  | ok env' =>
    cases infer env e with
    | error error => simp only [Functor.map, Except.map, renumberChecked, untyped_renumber]
    | ok x =>
      simp only [Functor.map, Except.map, renumberInferred, assignable_renumber h,
        Ty.renumber_eq_unit h.builtin]
      cases assignable env x.1 type e.note <;> rfl

theorem defineInferred_renumber (name : Ident) (e : Expr Span) :
    defineInferred (env.renumber π t') name e =
      renumberChecked π t' (Expr.map (Typing.renumber π)) (defineInferred env name e) := by
  simp only [defineInferred, infer_renumber h]
  cases infer env e with
  | error error => simp only [Functor.map, Except.map, renumberChecked, untyped_renumber]
  | ok x =>
    simp only [Functor.map, Except.map, renumberInferred, Ty.renumber_eq_null,
      Ty.renumber_eq_unit h.builtin, bind_renumber]
    split
    · rfl
    · split
      · rfl
      · cases env.bind name x.1 <;> rfl

theorem define_renumber (name : Ident) (type : Option TypeName) (e : Expr Span) :
    define (env.renumber π t') name type e =
      renumberChecked π t' (Expr.map (Typing.renumber π)) (define env name type e) := by
  have hclasses : (env.renumber π t').classes = t' := rfl
  cases type with
  | none => exact defineInferred_renumber h name e
  | some written =>
    simp only [define, hclasses, h.resolveType_eq]
    cases env.classes.resolveType written with
    | error error => simp only [Functor.map, Except.map, renumberChecked, untyped_renumber]
    | ok type => exact defineAs_renumber h name type e

theorem enter_classes : env.enter.classes.Renumbers π t' := h

omit h in
mutual

/-- A statement under other indices, whatever is bound in front of it. -/
theorem stmt_renumber : ∀ (s : Stmt Span) {env : Environment}, env.classes.Renumbers π t' →
    stmt (env.renumber π t') s = renumberChecked π t' (Stmt.map (Typing.renumber π)) (stmt env s)
  | .define x w e s, env, h => by
    simp only [stmt, define_renumber h]
    rfl
  | .return e s, env, h => by
    simp only [stmt, returnValue_renumber h]
    rfl
  | .ifThen e b s, env, h => by
    simp only [stmt, condition_renumber h, enter_renumber, stmt_renumber b (enter_classes h)]
    rfl
  | .ifElse e b c s, env, h => by
    simp only [stmt, condition_renumber h, enter_renumber, stmt_renumber b (enter_classes h),
      stmt_renumber c (enter_classes h)]
    rfl
  | .while e b s, env, h => by
    simp only [stmt, condition_renumber h, enter_renumber, stmt_renumber b (enter_classes h)]
    rfl
  | .block bs s, env, h => by
    simp only [stmt, enter_renumber, stmts_renumber bs (enter_classes h)]
    rfl
  | .expression e s, env, h => by
    simp only [stmt, tolerate_renumber h]
    rfl

theorem stmts_renumber : ∀ (ss : List (Stmt Span)) {env : Environment}, env.classes.Renumbers π t' →
    stmts (env.renumber π t') ss =
      renumberChecked π t' (Stmt.mapList (Typing.renumber π)) (stmts env ss)
  | [], env, h => by
    simp only [stmts]
    rfl
  | s :: ss, env, h => by
    have hclasses : (stmt env s).env.classes.Renumbers π t' := by
      rw [stmt_classes]
      exact h
    simp only [stmts, stmt_renumber s h]
    simp only [renumberChecked, stmts_renumber ss hclasses]
    rfl

end

/-! ## Members -/

theorem baseCall_renumber (id : Nat) (arguments : List (Expr Span)) (span : Span) :
    baseCall (env.renumber π t') (π id) arguments span =
      Expr.mapList (Typing.renumber π) <$> baseCall env id arguments span := by
  have hclasses : (env.renumber π t').classes = t' := rfl
  simp only [baseCall, hclasses, h.parent_eq]
  cases env.classes.parent? id with
  | none =>
    simp only [Option.map_none, ← Expr.mapList_eq]
    exact congrArg Except.ok (untypedList_renumber arguments).symm
  | some parent =>
    simp only [Option.map_some, h.constructor_eq]
    cases env.classes.constructor? parent with
    | none =>
      simp only [Option.map_none, h.name_eq]
      rfl
    | some m =>
      simp only [Option.map_some, Method.renumber, accessible_renumber h, argumentCount_renumber,
        inferArguments_renumber h, map_bind]

theorem bindParams_renumber (params : List Param) (types : List Ty) :
    bindParams (env.renumber π t') params (types.map (Ty.renumber π)) =
      renumberChecked π t' id (bindParams env params types) := by
  induction params generalizing env types with
  | nil => cases types <;> rfl
  | cons p ps ih =>
    cases types with
    | nil => rfl
    | cons type types =>
      simp only [List.map_cons, bindParams, bind_renumber]
      cases hbind : env.bind p.name type with
      | error e =>
        simp only [Functor.map, Except.map, ih h]
        rfl
      | ok env' =>
        simp only [Functor.map, Except.map]
        exact ih (bind_classes hbind ▸ h) types

end

section

variable {t : ClassTable} (h : t.Renumbers π t')

include h

theorem overrideParams_renumber (owner : Nat) (inherited own : List Ty) (params : List Param) :
    overrideParams t' (π owner) (inherited.map (Ty.renumber π)) (own.map (Ty.renumber π)) params =
      overrideParams t owner inherited own params := by
  induction inherited generalizing own params with
  | nil => rfl
  | cons i is ih =>
    cases own with
    | nil => rfl
    | cons o os =>
      cases params with
      | nil => rfl
      | cons p ps => simp only [List.map_cons, overrideParams, h.isAssignable_eq, h.text_eq, h.name_eq, ih]

theorem overrides_renumber (id : Nat) (m : Method) (decl : MethodDecl Span) :
    overrides t' (π id) (m.renumber π) decl = overrides t id m decl := by
  have hinherited : (t'.parent? (π id)).bind (t'.lookupMethod? · m.key) =
      ((t.parent? id).bind (t.lookupMethod? · m.key)).map
        fun found => (π found.1, found.2.renumber π) := by
    rw [h.parent_eq]
    cases t.parent? id with
    | none => rfl
    | some parent => exact h.lookupMethod_eq parent m.key
  simp only [overrides, Method.renumber, hinherited]
  cases (t.parent? id).bind (t.lookupMethod? · m.key) with
  | none => cases decl.isOverride <;> rfl
  | some found =>
    obtain ⟨owner, inherited⟩ := found
    cases decl.isOverride with
    | false => simp only [Option.map_some, h.name_eq]
    | true =>
      simp only [Option.map_some, List.length_map, overrideParams_renumber h, h.isAssignable_eq,
        h.text_eq, h.name_eq]

/-- A checked member with the classes at other indices, and its errors. -/
def renumberMember (π : Equiv.Perm Nat) (m : Report (MemberDecl Typing)) : Report (MemberDecl Typing) :=
  (m.1.map (Typing.renumber π), m.2)

omit h in
/-- The environment in which a member of a class is checked. -/
theorem beginMember_renumber (id : Nat) (returns : Ty) :
    (Environment.outside t').beginMember (π id) (returns.renumber π) =
      ((Environment.outside t).beginMember id returns).renumber π t' := rfl

theorem beginMember_unit (id : Nat) : (Environment.outside t').beginMember (π id) .unit =
    ((Environment.outside t).beginMember id .unit).renumber π t' := by
  rw [← beginMember_renumber, h.builtin.unit_ty]

theorem member_classes (id : Nat) (returns : Ty) :
    ((Environment.outside t).beginMember id returns).classes.Renumbers π t' := h

theorem field_member_renumber (id : Nat) (decl : FieldDecl Span) :
    member t' (π id) (.field decl) = renumberMember π (member t id (.field decl)) := by
  have hfield : (t'.record? (π id)).bind (·.field? decl.name.name) =
      ((t.record? id).bind (·.field? decl.name.name)).map (Field.renumber π) := by
    rw [h.record, ClassRecord.bind_field_renumber]
  simp only [member_field, fieldDecl, fieldIn, Checked.report, Environment.outside_classes, hfield,
    beginMember_unit h]
  cases decl.initializer with
  | none => rfl
  | some e =>
    cases (t.record? id).bind (·.field? decl.name.name) with
    | none => simp only [Option.map_none, Option.map_some, renumberMember, MemberDecl.map, FieldDecl.map,
        untyped_renumber]
    | some f =>
      simp only [Option.map_some, infer_renumber (member_classes h id .unit)]
      cases infer ((Environment.outside t).beginMember id .unit) e with
      | error error =>
        simp only [Functor.map, Except.map, renumberMember, MemberDecl.map, FieldDecl.map, Option.map_some,
          untyped_renumber]
      | ok x =>
        simp only [Functor.map, Except.map, renumberInferred, Field.renumber,
          assignable_renumber (member_classes h id .unit)]
        rfl

omit h in
theorem untypedStmt_renumber (s : Stmt Span) :
    (s.map Typing.untyped).map (Typing.renumber π) = s.map .untyped := s.map_map _ _

theorem method_member_renumber (id : Nat) (decl : MethodDecl Span) :
    member t' (π id) (.method decl) = renumberMember π (member t id (.method decl)) := by
  have hmethod : (t'.record? (π id)).bind (·.method? decl.name.key) =
      ((t.record? id).bind (·.method? decl.name.key)).map (Method.renumber π) := by
    rw [h.record, ClassRecord.bind_method_renumber]
  simp only [member_method, methodDecl, methodIn, Checked.report, Environment.outside_classes, hmethod]
  cases (t.record? id).bind (·.method? decl.name.key) with
  | none =>
    simp only [Option.map_none, renumberMember, MemberDecl.map, MethodDecl.map, untypedStmt_renumber]
  | some m =>
    simp only [Option.map_some, overrides_renumber h]
    cases overrides t id m decl with
    | error e => simp only [renumberMember, MemberDecl.map, MethodDecl.map, untypedStmt_renumber]
    | ok u =>
      have hbegin : (Environment.outside t').beginMember (π id) (m.returns.renumber π) =
          ((Environment.outside t).beginMember id m.returns).renumber π t' := beginMember_renumber id _
      have hparams := bindParams_renumber (member_classes h id m.returns) decl.params m.params
      have hclasses : (bindParams ((Environment.outside t).beginMember id m.returns) decl.params
          m.params).env.classes.Renumbers π t' := by
        rw [bindParams_classes]
        exact h
      simp only [Method.renumber, hbegin, hparams, renumberChecked, stmt_renumber decl.body hclasses,
        ne_eq, Ty.renumber_eq_unit h.builtin]
      rfl

theorem constructor_member_renumber (id : Nat) (decl : ConstructorDecl Span) :
    member t' (π id) (.constructor decl) = renumberMember π (member t id (.constructor decl)) := by
  have hunchecked : (decl.baseArguments.map (·.map (·.map Typing.untyped))).map
      (Expr.mapList (Typing.renumber π)) = decl.baseArguments.map (·.map (·.map Typing.untyped)) := by
    cases decl.baseArguments with
    | none => rfl
    | some es => simp only [Option.map_some, ← Expr.mapList_eq, untypedList_renumber]
  simp only [member_constructor, constructorDecl, constructorIn, Checked.report, Environment.outside_classes,
    h.constructor_eq]
  cases t.constructor? id with
  | none =>
    simp only [Option.map_none, renumberMember, MemberDecl.map, ConstructorDecl.map, untypedStmt_renumber,
      hunchecked]
  | some m =>
    have hparams := bindParams_renumber (member_classes h id .unit) decl.params m.params
    have hclasses : (bindParams ((Environment.outside t).beginMember id .unit) decl.params
        m.params).env.classes.Renumbers π t' := by
      rw [bindParams_classes]
      exact h
    simp only [Option.map_some, Method.renumber, beginMember_unit h, hparams, renumberChecked,
      stmt_renumber decl.body hclasses, baseCall_renumber hclasses]
    cases baseCall (bindParams ((Environment.outside t).beginMember id .unit) decl.params m.params).env
        id (decl.baseArguments.getD []) decl.span with
    | error e =>
      simp only [Functor.map, Except.map, errorsOf, renumberMember, MemberDecl.map, ConstructorDecl.map,
        hunchecked]
    | ok arguments =>
      simp only [Functor.map, Except.map, errorsOf, renumberMember, MemberDecl.map, ConstructorDecl.map,
        Option.map_map]
      rfl

/-- A member under other indices. -/
theorem member_renumber (id : Nat) (m : MemberDecl Span) :
    member t' (π id) m = renumberMember π (member t id m) := by
  cases m with
  | field decl => exact field_member_renumber h id decl
  | method decl => exact method_member_renumber h id decl
  | constructor decl => exact constructor_member_renumber h id decl

theorem implicitConstructor_renumber (id : Nat) (span : Span) :
    implicitConstructor t' (π id) span = implicitConstructor t id span := by
  simp only [implicitConstructor, implicitIn, beginMember_unit h, baseCall_renumber (member_classes h id .unit)]
  cases baseCall ((Environment.outside t).beginMember id .unit) id [] span <;> rfl

omit h in
theorem uncheckedMember_renumber (m : MemberDecl Span) :
    (uncheckedMember m).map (Typing.renumber π) = uncheckedMember m := by
  cases m with
  | field decl => cases hd : decl.initializer <;>
      simp only [uncheckedMember, MemberDecl.map, FieldDecl.map, hd, Option.map_none, Option.map_some,
        untyped_renumber]
  | method decl => simp only [uncheckedMember, MemberDecl.map, MethodDecl.map, untypedStmt_renumber]
  | constructor decl => cases hd : decl.baseArguments <;>
      simp only [uncheckedMember, MemberDecl.map, ConstructorDecl.map, hd, Option.map_none, Option.map_some,
        ← Expr.mapList_eq, untypedList_renumber, untypedStmt_renumber]

/-- A class under other indices: the same tree with the classes at other indices, and the same errors. -/
theorem classDecl_renumber (c : Registration.Entered) :
    classDecl t' { c with id := π c.id } =
      ((classDecl t c).1.map (Typing.renumber π), (classDecl t c).2) := by
  have hmember : enteredMember t' (π c.id) = renumberMember π ∘ enteredMember t c.id := by
    funext m
    simp only [enteredMember, Function.comp_apply]
    split
    · exact member_renumber h c.id m.1
    · exact congrArg (·, []) (uncheckedMember_renumber m.1).symm
  simp only [classDecl_eq, hmember, implicitConstructor_renumber h, ← List.map_map]
  simp only [ClassDecl.map, List.map_map, List.flatMap_map]
  rfl

end

end Check

end ClassLang
