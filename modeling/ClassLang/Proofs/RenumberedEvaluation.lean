import ClassLang.Proofs.Evaluation
import ClassLang.Proofs.Reordering
import ClassLang.Proofs.RenumberedCheck

/-!
# Evaluating under other indices

Programs that differ in the indices of their classes alone evaluate in the same way. An object knows its
class by index and keeps its fields by the index of the class that declares them, so the states of the two
evaluations differ in this as well (`EvalState.renumber`); values, local names and the console do not.
Each part of the evaluation has a lemma that it does the same under other indices (`Eval.Renumbers`), and
since this is kept by `>>=`, the lemma of a part follows its definition.
-/

namespace ClassLang

/-- The object with the classes at other indices. -/
def Instance.renumber (π : Equiv.Perm Nat) (o : Instance) : Instance :=
  ⟨π o.classId, fun c x => o.fields (π.symm c) x⟩

/-- The state with the classes at other indices. -/
def EvalState.renumber (π : Equiv.Perm Nat) (s : EvalState) : EvalState :=
  { s with objects := s.objects.map (Instance.renumber π) }

/-- `x'` does under other indices what `x` does, and `f` tells what becomes of the result. -/
def Eval.Renumbers {α β : Type} (π : Equiv.Perm Nat) (f : α → β) (x : Eval α) (x' : Eval β) : Prop :=
  ∀ s, x' (s.renumber π) = ((x s).1.map f, (x s).2.renumber π)

variable {π : Equiv.Perm Nat} {α β γ δ : Type}

namespace Eval.Renumbers

variable {f : α → β} {g : γ → δ} {x : Eval α} {x' : Eval β}

theorem pure {a : α} {b : β} (h : f a = b) : Renumbers π f (Pure.pure a) (Pure.pure b) :=
  fun _ => h ▸ rfl

theorem stop (e : Stop) : Renumbers π f (Eval.stop e) (Eval.stop e) := fun _ => rfl

theorem fault (cause : Fault) : Renumbers π f (Eval.fault cause) (Eval.fault cause) := stop _

theorem ofExcept (r : Except Fault α) : Renumbers π id (Eval.ofExcept r) (Eval.ofExcept r) := by
  cases r with
  | ok a => exact pure rfl
  | error e => exact fault e

theorem bind {k : α → Eval γ} {k' : β → Eval δ} (h : Renumbers π f x x')
    (hk : ∀ a, Renumbers π g (k a) (k' (f a))) : Renumbers π g (x >>= k) (x' >>= k') := by
  intro s
  have hx := h s
  rcases hxs : x s with ⟨a | a, s₁⟩
  · rw [hxs] at hx
    rw [Eval.bind_error hxs, Eval.bind_error hx]
    rfl
  · rw [hxs] at hx
    rw [Eval.bind_ok hxs, Eval.bind_ok hx]
    exact hk a s₁

theorem state : Renumbers π (EvalState.renumber π) Eval.state Eval.state := fun _ => rfl

theorem update {u u' : EvalState → EvalState} (h : ∀ s, u' (s.renumber π) = (u s).renumber π) :
    Renumbers π id (Eval.update u) (Eval.update u') :=
  fun s => congrArg (Except.ok (), ·) (h s)

end Eval.Renumbers

/-! ## Values -/

theorem Instance.set_renumber (o : Instance) (owner : Nat) (name : String) (v : Value) :
    (o.set owner name v).renumber π = (o.renumber π).set (π owner) name v := by
  simp only [renumber, set, Equiv.symm_apply_eq]

section

variable {t t' : ClassTable} (h : t.Renumbers π t') (objects : List Instance)

include h

theorem Value.classId_renumber (v : Value) :
    v.classId? (objects.map (Instance.renumber π)) = (v.classId? objects).map π := by
  cases v with
  | null => rfl
  | number x | boolean b | string s => exact congrArg some (h.builtin _ (by decide)).symm
  | object address =>
    simp only [classId?, List.getElem?_map, Option.map_map]
    rfl

theorem Value.isOf_renumber (v : Value) (type : Ty) :
    v.isOf t' (objects.map (Instance.renumber π)) (type.renumber π) = v.isOf t objects type := by
  simp only [isOf, classId_renumber h]
  cases v.classId? objects with
  | none => exact type.isNullable_renumber
  | some id =>
    simp only [Option.map_some, Ty.class_renumber, Option.any_map, h.isSubclass_eq]

theorem Value.display_renumber (v : Value) :
    v.display t' (objects.map (Instance.renumber π)) = v.display t objects := by
  cases v with
  | object address =>
    have hname : (fun o : Instance => t'.name o.classId) ∘ Instance.renumber π =
        fun o => t.name o.classId := funext fun o => h.name_eq o.classId
    simp only [display, List.getElem?_map, Option.map_map, hname]
  | _ => rfl

omit objects in
theorem some_boolean_renumber (τ : Option Ty) :
    (τ.map (Ty.renumber π) = some .boolean) = (τ = some .boolean) := by
  cases τ with
  | none => rfl
  | some τ => simp [Ty.renumber_eq_boolean h.builtin]

omit objects in
theorem some_number_renumber (τ : Option Ty) :
    (τ.map (Ty.renumber π) = some .number) = (τ = some .number) := by
  cases τ with
  | none => rfl
  | some τ => simp [Ty.renumber_eq_number h.builtin]

omit objects in
theorem BinaryOp.isPrimitive_renumber (op : BinaryOp) (left right : Option Ty) :
    op.isPrimitive (left.map (Ty.renumber π)) (right.map (Ty.renumber π)) = op.isPrimitive left right := by
  cases op <;> simp only [isPrimitive, some_boolean_renumber h, some_number_renumber h]

omit objects in
theorem UnaryOp.isPrimitive_renumber (op : UnaryOp) (operand : Option Ty) :
    op.isPrimitive (operand.map (Ty.renumber π)) = op.isPrimitive operand := by
  cases op <;> simp only [isPrimitive, some_boolean_renumber h, some_number_renumber h]

end

/-- The field that is found on the type of an expression. -/
theorem Expr.fieldFound_renumber {t t' : ClassTable} (h : t.Renumbers π t') (e : Expr Typing)
    (name : String) :
    ((e.map (Typing.renumber π)).note.type.bind Ty.class?).bind (t'.lookupField? · name) =
      ((e.note.type.bind Ty.class?).bind (t.lookupField? · name)).map
        fun found => (π found.1, found.2.renumber π) := by
  rw [Expr.note_map, Typing.renumber]
  cases e.note.type with
  | none => rfl
  | some τ =>
    cases hτ : τ.class? with
    | none => simp [hτ]
    | some c => simp [hτ, h.lookupField_eq]

namespace Evaluate

open Eval

/-! ## Objects and names -/

theorem allocate_renumber (id : Nat) : Renumbers π (fun v => v) (allocate id) (allocate (π id)) := by
  intro s
  simp [allocate, EvalState.renumber, Instance.renumber, Except.map]

theorem readField_renumber (owner : Nat) (f : Field) (v : Value) :
    Renumbers π id (readField owner f v) (readField (π owner) (f.renumber π) v) := by
  cases v with
  | object address =>
    refine Renumbers.state.bind fun s => ?_
    simp only [EvalState.renumber, List.getElem?_map]
    cases s.objects[address]? with
    | none => exact .stop _
    | some o => exact .pure (by simp [Instance.renumber, Field.renumber])
  | string s => exact .pure rfl
  | null => exact .fault _
  | number _ | boolean _ => exact .stop _

theorem writeField_renumber (owner : Nat) (f : Field) (target v : Value) :
    Renumbers π id (writeField owner f target v) (writeField (π owner) (f.renumber π) target v) := by
  cases target with
  | object address =>
    refine .update fun s => ?_
    simp only [EvalState.renumber, Field.renumber, EvalState.mk.injEq, and_self, and_true]
    refine List.ext_getElem? fun i => ?_
    simp only [List.getElem?_modify, List.getElem?_map]
    cases s.objects[i]? with
    | none => rfl
    | some o =>
      split
      · exact congrArg some (o.set_renumber owner f.name v).symm
      · rfl
  | null => exact .fault _
  | number _ | boolean _ | string _ => exact .stop _

theorem load_renumber (x : String) : Renumbers π id (load x) (load x) := by
  refine Renumbers.state.bind fun s => ?_
  simp only [EvalState.renumber]
  cases s.locals.lookup x with
  | none => exact .stop _
  | some v => exact .pure rfl

theorem store_renumber (x : String) (v : Value) : Renumbers π id (store x v) (store x v) :=
  .update fun _ => rfl

theorem define_renumber (x : String) (v : Value) : Renumbers π id (define x v) (define x v) :=
  .update fun _ => rfl

theorem inScope_renumber {f : α → β} {x : Eval α} {x' : Eval β} (h : Renumbers π f x x') :
    Renumbers π f (inScope x) (inScope x') := by
  intro s
  simp only [inScope, h s]
  rfl

theorem inside_renumber {f : α → β} {x : Eval α} {x' : Eval β} (locals : List (String × Value))
    (h : Renumbers π f x x') : Renumbers π f (inside locals x) (inside locals x') := by
  intro s
  have hx := h { s with locals }
  simp only [inside, EvalState.renumber] at hx ⊢
  rw [hx]

/-! ## Expressions -/

/-- The calls do the same under other indices. -/
def CallsAlike (π : Equiv.Perm Nat) (call call' : Nat → MemberKey → List Value → Eval Value) : Prop :=
  ∀ owner key args, Renumbers π id (call owner key args) (call' (π owner) key args)

section

variable {t t' : ClassTable} (h : t.Renumbers π t')
  {call call' : Nat → MemberKey → List Value → Eval Value} (hcall : CallsAlike π call call')

include h

theorem fieldOf_renumber (object : Expr Typing) (property : Ident) :
    Renumbers π (fun found => (π found.1, found.2.renumber π)) (fieldOf t object property)
      (fieldOf t' (object.map (Typing.renumber π)) property) := by
  unfold fieldOf
  rw [object.fieldFound_renumber h]
  cases (object.note.type.bind Ty.class?).bind (t.lookupField? · property.name) with
  | none => exact .stop _
  | some found => exact .pure rfl

theorem targetType_renumber (target : TypeName) :
    Renumbers π (Ty.renumber π) (targetType t target) (targetType t' target) := by
  unfold targetType
  rw [h.resolveType_eq]
  cases t.resolveType target with
  | error e => exact .stop _
  | ok type => exact .pure rfl

include hcall

theorem send_renumber (c : Nat) (key : MemberKey) (args : List Value) :
    Renumbers π id (send t call c key args) (send t' call' (π c) key args) := by
  unfold send
  rw [h.lookupMethod_eq]
  cases t.lookupMethod? c key with
  | none => exact .stop _
  | some found => exact hcall found.1 key args

theorem dispatch_renumber (receiver : Value) (key : MemberKey) (args : List Value) (onNull : Option Nat) :
    Renumbers π id (dispatch t call receiver key args onNull)
      (dispatch t' call' receiver key args (onNull.map π)) := by
  refine Renumbers.state.bind fun s => ?_
  have hclass : (receiver.classId? (s.renumber π).objects).or (onNull.map π) =
      ((receiver.classId? s.objects).or onNull).map π := by
    rw [EvalState.renumber, Value.classId_renumber h, Option.map_or]
  rw [hclass]
  cases (receiver.classId? s.objects).or onNull with
  | none => exact .fault _
  | some c => exact send_renumber h hcall c key (receiver :: args)

theorem prepare_renumber (c : Nat) (o : Value) :
    Renumbers π id (prepare call c o) (prepare call' (π c) o) := by
  unfold prepare
  by_cases hc : c < TypeId.first
  · rw [if_pos hc, if_pos (by rw [h.builtin c hc]; exact hc)]
    exact .pure rfl
  · rw [if_neg hc, if_neg fun hlt => hc (Nat.lt_of_not_le fun hle =>
      Nat.not_le_of_lt hlt (h.builtin.first_le.mpr hle))]
    exact (hcall c .initializer [o]).bind fun _ => .pure rfl

theorem instantiate_renumber (c : Nat) :
    Renumbers π id (instantiate call c) (instantiate call' (π c)) :=
  (allocate_renumber c).bind fun o => (prepare_renumber h hcall c o).bind fun _ => .pure rfl

end

section

variable {t t' : ClassTable} {call call' : Nat → MemberKey → List Value → Eval Value}

mutual

/-- The value of an expression under other indices. -/
theorem expr_renumber (h : t.Renumbers π t') (hcall : CallsAlike π call call') (self : Nat)
    (this : Value) : ∀ e : Expr Typing,
    Renumbers π id (expr t call self this e)
      (expr t' call' (π self) this (e.map (Typing.renumber π)))
  | .number .. | .string .. | .boolean .. | .null .. | .this .. | .base .. => .pure rfl
  | .name x _ => load_renumber x
  | .member object property _ =>
    (expr_renumber h hcall self this object).bind fun o =>
      (fieldOf_renumber h object property).bind fun found => readField_renumber found.1 found.2 o
  | .call callee arguments _ => by
    have hargs := exprs_renumber h hcall self this arguments
    match callee with
    | .member object property _ =>
      cases object with
      | base n =>
        refine hargs.bind fun args => ?_
        rw [h.parent_eq]
        cases t.parent? self with
        | none => exact .stop _
        | some parent => exact send_renumber h hcall parent _ (this :: args)
      | _ =>
        exact (expr_renumber h hcall self this _).bind fun receiver => hargs.bind fun args =>
          dispatch_renumber h hcall receiver (.named property.name) args none
    | .number .. | .string .. | .boolean .. | .null .. | .name .. | .this .. | .base .. | .call ..
    | .new .. | .assign .. | .binary .. | .unary .. | .assert .. | .instanceTest .. | .cast .. =>
      exact .stop _
  | .new className arguments _ => by
    rw [Expr.map, expr, expr, h.find]
    cases t.find? className.name with
    | none => exact .stop _
    | some c =>
      exact (instantiate_renumber h hcall c).bind fun o =>
        (exprs_renumber h hcall self this arguments).bind fun args =>
          (hcall c .constructor (o :: args)).bind fun _ => .pure rfl
  | .assign target value _ => by
    have hv := expr_renumber h hcall self this value
    match target with
    | .name x _ => exact hv.bind fun v => (store_renumber x v).bind fun _ => .pure rfl
    | .member object property _ =>
      have ho := expr_renumber h hcall self this object
      exact ho.bind fun o => hv.bind fun v =>
        (fieldOf_renumber h object property).bind fun found =>
          (writeField_renumber found.1 found.2 o v).bind fun _ => .pure rfl
    | .number .. | .string .. | .boolean .. | .null .. | .this .. | .base .. | .call .. | .new ..
    | .assign .. | .binary .. | .unary .. | .assert .. | .instanceTest .. | .cast .. => exact .stop _
  | .binary op left right _ => by
    rw [Expr.map, expr, expr]
    refine (expr_renumber h hcall self this left).bind fun a =>
      (expr_renumber h hcall self this right).bind fun b => ?_
    simp only [Expr.note_map, Typing.renumber, BinaryOp.isPrimitive_renumber h]
    split
    · exact .ofExcept _
    · have hnull : (if (left.note.type.map (Ty.renumber π)).any (·.isNullable) && op.isEquality
          then some TypeId.any else none) =
          (if left.note.type.any (·.isNullable) && op.isEquality then some TypeId.any else none).map π := by
        simp only [Option.any_map, Ty.isNullable_renumber]
        split
        · exact congrArg some h.builtin.any.symm
        · rfl
      simp only [hnull]
      exact dispatch_renumber h hcall a (.binary op) [b] _
  | .unary op operand _ => by
    rw [Expr.map, expr, expr]
    refine (expr_renumber h hcall self this operand).bind fun a => ?_
    simp only [Expr.note_map, Typing.renumber, UnaryOp.isPrimitive_renumber h]
    split
    · exact .ofExcept _
    · exact dispatch_renumber h hcall a (.unary op) [] none
  | .assert operand _ => (expr_renumber h hcall self this operand).bind fun a => by
    simp only [id]
    split
    · exact .fault _
    · exact .pure rfl
  | .instanceTest operand target _ => by
    refine (expr_renumber h hcall self this operand).bind fun a =>
      (targetType_renumber h target).bind fun type => Renumbers.state.bind fun s => .pure ?_
    exact congrArg Value.boolean (Value.isOf_renumber h s.objects a type).symm
  | .cast operand target _ => by
    refine (expr_renumber h hcall self this operand).bind fun a =>
      (targetType_renumber h target).bind fun type => Renumbers.state.bind fun s => ?_
    simp only [EvalState.renumber, id, Value.isOf_renumber h, Value.display_renumber h, h.text_eq]
    split
    · exact .pure rfl
    · exact .fault _

theorem exprs_renumber (h : t.Renumbers π t') (hcall : CallsAlike π call call') (self : Nat)
    (this : Value) : ∀ es : List (Expr Typing),
    Renumbers π id (exprs t call self this es)
      (exprs t' call' (π self) this (Expr.mapList (Typing.renumber π) es))
  | [] => .pure rfl
  | e :: es => (expr_renumber h hcall self this e).bind fun _ =>
    (exprs_renumber h hcall self this es).bind fun _ => .pure rfl

end

/-! ## Statements -/

theorem condition_renumber (h : t.Renumbers π t') (hcall : CallsAlike π call call') (self : Nat)
    (this : Value) (e : Expr Typing) : Renumbers π id (condition t call self this e)
    (condition t' call' (π self) this (e.map (Typing.renumber π))) :=
  (expr_renumber h hcall self this e).bind fun v => .ofExcept v.asBoolean

theorem loop_renumber {test test' : Eval Bool} {round round' : Eval Flow}
    (htest : Renumbers π id test test') (hround : Renumbers π id round round') (bound : Nat) :
    Renumbers π id (loop test round bound) (loop test' round' bound) := by
  induction bound with
  | zero => exact .stop _
  | succ bound ih =>
    rw [loop, loop]
    refine htest.bind fun holds => ?_
    cases holds with
    | false => exact .pure rfl
    | true => exact hround.bind fun flow => match flow with
      | .next => ih
      | .returned v => .pure rfl

mutual

theorem stmt_renumber (h : t.Renumbers π t') (hcall : CallsAlike π call call') (self : Nat)
    (this : Value) (bound : Nat) : ∀ s : Stmt Typing,
    Renumbers π id (stmt t call self this bound s)
      (stmt t' call' (π self) this bound (s.map (Typing.renumber π)))
  | .define x _ value _ => (expr_renumber h hcall self this value).bind fun v =>
    (define_renumber x.name v).bind fun _ => .pure rfl
  | .return (some value) _ => (expr_renumber h hcall self this value).bind fun _ => .pure rfl
  | .return none _ => .pure rfl
  | .ifThen c branch _ => (condition_renumber h hcall self this c).bind fun holds =>
    match holds with
    | true => inScope_renumber (stmt_renumber h hcall self this bound branch)
    | false => .pure rfl
  | .ifElse c branch otherwise _ => (condition_renumber h hcall self this c).bind fun holds =>
    match holds with
    | true => inScope_renumber (stmt_renumber h hcall self this bound branch)
    | false => inScope_renumber (stmt_renumber h hcall self this bound otherwise)
  | .while c body _ => by
    have hround := inScope_renumber (stmt_renumber h hcall self this bound body)
    exact loop_renumber (condition_renumber h hcall self this c) hround bound
  | .block statements _ => inScope_renumber (stmts_renumber h hcall self this bound statements)
  | .expression value _ => (expr_renumber h hcall self this value).bind fun _ => .pure rfl

theorem stmts_renumber (h : t.Renumbers π t') (hcall : CallsAlike π call call') (self : Nat)
    (this : Value) (bound : Nat) : ∀ ss : List (Stmt Typing),
    Renumbers π id (stmts t call self this bound ss)
      (stmts t' call' (π self) this bound (Stmt.mapList (Typing.renumber π) ss))
  | [] => .pure rfl
  | s :: ss => (stmt_renumber h hcall self this bound s).bind fun flow =>
    match flow with
    | .next => stmts_renumber h hcall self this bound ss
    | .returned _ => .pure rfl

end

end

/-! ## Members -/

section

variable {t t' : ClassTable} (h : t.Renumbers π t')
  {call call' : Nat → MemberKey → List Value → Eval Value} (hcall : CallsAlike π call call')
  (self : Nat) (this : Value) (bound : Nat)

include h hcall

theorem initializeFields_renumber (ds : List (FieldDecl Typing)) :
    Renumbers π id (initializeFields t call self this ds)
      (initializeFields t' call' (π self) this (ds.map (FieldDecl.map (Typing.renumber π)))) := by
  induction ds with
  | nil => exact .pure rfl
  | cons d ds ih =>
    rw [List.map_cons, initializeFields, initializeFields, FieldDecl.map, h.lookupField_eq]
    cases d.initializer with
    | none => exact ih
    | some e =>
      cases t.lookupField? self d.name.name with
      | none => exact (Renumbers.stop (f := id) _).bind fun _ => ih
      | some found =>
        exact (expr_renumber h hcall self this e).bind fun v =>
          (writeField_renumber found.1 found.2 this v).bind fun _ => ih

theorem method_renumber (d : MethodDecl Typing) (args : List Value) :
    Renumbers π id (method t call self this bound d args)
      (method t' call' (π self) this bound (d.map (Typing.renumber π)) args) :=
  inside_renumber _ ((stmt_renumber h hcall self this bound d.body).bind fun _ => .pure rfl)

theorem constructor_renumber (parent : Nat) (d : Option (ConstructorDecl Typing)) (args : List Value) :
    Renumbers π id (constructor t call self this bound parent d args)
      (constructor t' call' (π self) this bound (π parent)
        (d.map (ConstructorDecl.map (Typing.renumber π))) args) := by
  cases d with
  | none =>
    rw [Option.map_none, constructor, constructor]
    exact inside_renumber _ ((hcall parent .constructor [this]).bind fun _ => .pure rfl)
  | some d =>
    rw [Option.map_some, constructor, constructor]
    refine inside_renumber _ ?_
    have hbase : (d.baseArguments.map (Expr.mapList (Typing.renumber π))).getD [] =
        Expr.mapList (Typing.renumber π) (d.baseArguments.getD []) := by
      cases d.baseArguments <;> rfl
    simp only [ConstructorDecl.map, hbase]
    exact (exprs_renumber h hcall self this _).bind fun baseArgs =>
      (hcall parent .constructor (this :: baseArgs)).bind fun _ =>
        (stmt_renumber h hcall self this bound d.body).bind fun _ => .pure rfl

theorem declared_renumber (parent : Nat) (d : ClassDecl Typing) (key : MemberKey) (args : List Value) :
    Renumbers π id (declared t call self this bound parent d key args)
      (declared t' call' (π self) this bound (π parent) (d.map (Typing.renumber π)) key args) := by
  unfold declared
  split
  · rw [ClassDecl.fields_map]
    exact inside_renumber _ ((prepare_renumber h hcall parent this).bind fun _ =>
      (initializeFields_renumber h hcall self this d.fields).bind fun _ => .pure rfl)
  · rw [ClassDecl.constructors_map, List.head?_map]
    exact constructor_renumber h hcall self this bound parent d.constructors.head? args
  · have hfind : (d.map (Typing.renumber π)).methods.find? (·.name.key == key) =
        (d.methods.find? (·.name.key == key)).map (MethodDecl.map (Typing.renumber π)) := by
      rw [ClassDecl.methods_map, List.find?_map]
      rfl
    rw [hfind]
    cases d.methods.find? (·.name.key == key) with
    | none => exact .stop _
    | some m => exact method_renumber h hcall self this bound m args

end

end Evaluate

/-! ## Programs -/

/-- The analysis `b` is `a` with the classes behind the built-in ones in another order. -/
structure Analysis.Renumbers (σ : Equiv.Perm Nat) (a b : Analysis) : Prop where
  classes : a.classes.Renumbers (behind TypeId.first σ) b.classes
  program : ∀ i, b.program.classes[σ i]? =
    a.program.classes[i]?.map (ClassDecl.map (Typing.renumber (behind TypeId.first σ)))

namespace Analysis.Renumbers

open Eval Evaluate

variable {σ : Equiv.Perm Nat} {a b : Analysis} (h : a.Renumbers σ b)
  (hunit : a.classes.parent? TypeId.unit = none)

include h

theorem native (n : Native) (args : List Value) :
    Eval.Renumbers (behind TypeId.first σ) id (Evaluate.native a.classes n args)
      (Evaluate.native b.classes n args) := by
  intro s
  have hdisplay : Value.display b.classes (s.renumber (behind TypeId.first σ)).objects =
      Value.display a.classes s.objects := funext fun v => v.display_renumber h.classes s.objects
  have hconsole : (s.renumber (behind TypeId.first σ)).console = s.console := rfl
  simp only [Evaluate.native, hdisplay, hconsole]
  rcases n.apply (Value.display a.classes s.objects) s.console args with ⟨v | cause, console⟩ <;> rfl

include hunit

theorem member {call call' : Nat → MemberKey → List Value → Eval Value}
    (hcall : CallsAlike (behind TypeId.first σ) call call') (bound : Nat) :
    CallsAlike (behind TypeId.first σ) (Evaluate.member a call bound) (Evaluate.member b call' bound) := by
  intro owner key args
  unfold Evaluate.member
  by_cases howner : owner < TypeId.first
  · rw [behind_of_lt howner]
    cases hc : Builtin.classes[owner]? with
    | some c =>
      dsimp only
      cases c.methods.find? (·.key == key) with
      | none => exact .stop _
      | some m => exact h.native m.native args
    | none =>
      -- The type of members that return nothing has no members.
      have hle : Builtin.classes.length ≤ owner := List.getElem?_eq_none_iff.mp hc
      have hlength : Builtin.classes.length = TypeId.unit := by decide +kernel
      obtain rfl : owner = TypeId.unit := Nat.le_antisymm (Nat.le_of_lt_succ howner) (hlength ▸ hle)
      have hunit' : b.classes.parent? TypeId.unit = none := by
        have hparent := h.classes.parent_eq TypeId.unit
        rwa [hunit, h.classes.builtin.unit] at hparent
      rw [hunit, hunit']
      cases a.program.classes[TypeId.unit - TypeId.first]? <;>
        cases b.program.classes[TypeId.unit - TypeId.first]? <;> exact .stop _
  · obtain ⟨i, rfl⟩ := Nat.exists_eq_add_of_le (Nat.le_of_not_lt howner)
    have hbuiltin (j : Nat) : Builtin.classes[TypeId.first + j]? = none :=
      List.getElem?_eq_none (Nat.le_trans (by decide) (Nat.le_add_right _ _))
    have hparent := h.classes.parent_eq (TypeId.first + i)
    rw [behind_add] at hparent ⊢
    rw [hbuiltin, hbuiltin, hparent, Nat.add_sub_cancel_left, Nat.add_sub_cancel_left, h.program]
    cases a.program.classes[i]? with
    | none => exact .stop _
    | some d =>
      cases a.classes.parent? (TypeId.first + i) with
      | none => exact .stop _
      | some parent =>
        cases args with
        | nil => exact .stop _
        | cons this args =>
          have hdeclared := declared_renumber h.classes hcall (TypeId.first + i) this bound parent d
            key args
          rw [behind_add] at hdeclared
          exact hdeclared

theorem invoke (n : Nat) :
    CallsAlike (behind TypeId.first σ) (Evaluate.invoke a n) (Evaluate.invoke b n) := by
  induction n with
  | zero => exact fun _ _ _ => .stop _
  | succ n ih => exact h.member hunit ih n

/-- The evaluation of the program comes to the same end. -/
theorem evaluate (n : Nat) (console : Console) : b.evaluate n console = a.evaluate n console := by
  have hmain : Eval.Renumbers (behind TypeId.first σ) id (a.main n) (b.main n) := by
    rw [Analysis.main, Analysis.main, h.classes.find]
    cases a.classes.find? entryClass with
    | none => exact .stop _
    | some c =>
      exact (instantiate_renumber h.classes (h.invoke hunit n) c).bind fun o =>
        h.invoke hunit n c .constructor [o]
  have hstart := hmain ⟨[], console, []⟩
  rw [EvalState.renumber, List.map_nil] at hstart
  rw [Analysis.evaluate, Analysis.evaluate, hstart]
  rcases a.main n ⟨[], console, []⟩ with ⟨v | v, s⟩
  · cases v <;> rfl
  · rfl

end Analysis.Renumbers

end ClassLang
