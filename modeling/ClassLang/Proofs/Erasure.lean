import ClassLang.Proofs.Allocation
import ClassLang.Proofs.Notes

/-!
# Annotated trees

The check writes types at the nodes of a tree and changes nothing else: without the types, the tree of
an accepted program is the text again (`Check.program_erased`). What is said of the annotated tree is
said of the text.
-/

namespace ClassLang

namespace ErasureLemmas

theorem untyped_erased (e : Expr Span) : (e.map Typing.untyped).map Typing.span = e :=
  (e.map_map _ _).trans e.map_id

theorem untypedList_erased (es : List (Expr Span)) :
    Expr.mapList Typing.span (Expr.mapList Typing.untyped es) = es :=
  (Expr.mapList_map _ _ es).trans (Expr.mapList_id es)

theorem untypedStmt_erased (s : Stmt Span) : (s.map Typing.untyped).map Typing.span = s :=
  (s.map_map _ _).trans s.map_id

end ErasureLemmas

open ErasureLemmas

namespace Check

mutual

/-- Annotating an expression changes nothing but its notes. -/
theorem infer_erased {env : Environment} : ∀ {e : Expr Span} {τ : Ty} {e' : Expr Typing},
    infer env e = .ok (τ, e') → e'.map Typing.span = e
  | .number x s, τ, e', h => by cases h; rfl
  | .string c s, τ, e', h => by cases h; rfl
  | .boolean b s, τ, e', h => by cases h; rfl
  | .null s, τ, e', h => by cases h; rfl
  | .name x s, τ, e', h => by
    simp only [infer, bind_eq_ok, pure_eq_ok, Prod.mk.injEq] at h
    obtain ⟨_, _, rfl, rfl⟩ := h
    rfl
  | .this s, τ, e', h => by
    simp only [infer, bind_eq_ok, pure_eq_ok, Prod.mk.injEq] at h
    obtain ⟨_, _, rfl, rfl⟩ := h
    rfl
  | .base s, τ, e', h => by
    simp only [infer, bind_eq_ok, pure_eq_ok, Prod.mk.injEq] at h
    obtain ⟨_, _, rfl, rfl⟩ := h
    rfl
  | .member o x s, τ, e', h => by
    simp only [infer, bind_eq_ok, pure_eq_ok, Prod.exists, Prod.mk.injEq] at h
    obtain ⟨_, o', ho, _, _, _, _, _, rfl, rfl⟩ := h
    simp only [Expr.map, infer_erased ho]
  | .call (.member o x n) es s, τ, e', h => by
    simp only [infer, bind_eq_ok, pure_eq_ok, Prod.exists, TypedLemmas.argumentCount_ok,
      Prod.mk.injEq] at h
    obtain ⟨_, o', ho, _, _, _, _, _, _, _, _, hcount, es', hes, rfl, rfl⟩ := h
    simp only [Expr.map, infer_erased ho, inferArguments_erased hcount hes, Typing.untyped]
  | .new c es s, τ, e', h => by
    simp only [infer, bind_eq_ok] at h
    obtain ⟨id, _, h⟩ := h
    split at h
    · exact absurd h (by simp)
    · simp only [bind_eq_ok, pure_eq_ok, TypedLemmas.argumentCount_ok, Prod.mk.injEq] at h
      obtain ⟨_, _, _, hcount, es', hes, rfl, rfl⟩ := h
      simp only [Expr.map, inferArguments_erased hcount hes]
  | .assign (.name x n) v s, τ, e', h => by
    simp only [infer, bind_eq_ok, pure_eq_ok, Prod.exists, Prod.mk.injEq] at h
    obtain ⟨_, _, ⟨_, _, rfl, rfl⟩, h⟩ := h
    simp only [isBuiltinField, Bool.false_eq_true, ↓reduceIte, bind_eq_ok, pure_eq_ok,
      Prod.exists, Prod.mk.injEq] at h
    obtain ⟨_, v', hv, _, _, rfl, rfl⟩ := h
    simp only [Expr.map, infer_erased hv]
  | .assign (.member o x n) v s, τ, e', h => by
    simp only [infer, bind_eq_ok, pure_eq_ok, Prod.exists, Prod.mk.injEq] at h
    obtain ⟨_, _, ⟨_, o', ho, _, _, _, _, _, rfl, rfl⟩, h⟩ := h
    split at h
    · exact absurd h (by simp)
    · simp only [bind_eq_ok, pure_eq_ok, Prod.exists, Prod.mk.injEq] at h
      obtain ⟨_, v', hv, _, _, rfl, rfl⟩ := h
      simp only [Expr.map, infer_erased ho, infer_erased hv]
  | .binary op l r s, τ, e', h => by
    simp only [infer, bind_eq_ok, Prod.exists] at h
    obtain ⟨_, l', hl, _, r', hr, _, _, _, m, _, _, _, h⟩ := h
    split at h
    · simp only [pure_eq_ok, Prod.mk.injEq] at h
      obtain ⟨rfl, rfl⟩ := h
      simp only [Expr.map, infer_erased hl, infer_erased hr]
    · simp only [bind_eq_ok, pure_eq_ok, Prod.mk.injEq] at h
      obtain ⟨_, _, rfl, rfl⟩ := h
      simp only [Expr.map, infer_erased hl, infer_erased hr]
  | .unary op o s, τ, e', h => by
    simp only [infer, bind_eq_ok, pure_eq_ok, Prod.exists, Prod.mk.injEq] at h
    obtain ⟨_, o', ho, _, _, _, _, _, _, _, rfl, rfl⟩ := h
    simp only [Expr.map, infer_erased ho]
  | .assert o s, τ, e', h => by
    simp only [infer, bind_eq_ok, Prod.exists] at h
    obtain ⟨υ, o', ho, h⟩ := h
    split at h
    · simp only [pure_eq_ok, Prod.mk.injEq] at h
      obtain ⟨rfl, rfl⟩ := h
      simp only [Expr.map, infer_erased ho]
    · exact absurd h (by simp)
  | .instanceTest o w s, τ, e', h => by
    simp only [infer, bind_eq_ok, pure_eq_ok, Prod.exists, Prod.mk.injEq] at h
    obtain ⟨_, o', ho, _, _, rfl, rfl⟩ := h
    simp only [Expr.map, infer_erased ho]
  | .cast o w s, τ, e', h => by
    simp only [infer, bind_eq_ok, pure_eq_ok, Prod.exists, Prod.mk.injEq] at h
    obtain ⟨_, o', ho, _, _, rfl, rfl⟩ := h
    simp only [Expr.map, infer_erased ho]

theorem inferArguments_erased {env : Environment} : ∀ {params : List Ty} {es : List (Expr Span)}
    {es' : List (Expr Typing)}, params.length = es.length → inferArguments env params es = .ok es' →
    Expr.mapList Typing.span es' = es
  | [], [], es', _, h => by
    cases h
    rfl
  | p :: params, e :: es, es', hlen, h => by
    simp only [inferArguments, bind_eq_ok, pure_eq_ok, Prod.exists] at h
    obtain ⟨_, e', he, _, _, es'', hes, rfl⟩ := h
    simp only [Expr.mapList, infer_erased he, inferArguments_erased (Nat.succ.inj hlen) hes]

end

mutual

/-- Annotating a statement changes nothing but its notes. -/
theorem stmt_erased : ∀ {env : Environment} {s : Stmt Span}, (stmt env s).errors = [] →
    (stmt env s).value.map Typing.span = s
  | env, .define x w e s, h => by
    obtain ⟨τ, he⟩ := define_inferred h
    simp only [stmt, Stmt.map, infer_erased he]
  | env, .return v s, h => by
    cases v with
    | none => rfl
    | some e =>
      have hreturn : (returnValue env (some e) s).2 = [] := h
      obtain ⟨τ, e', he, hvalue⟩ := return_inferred hreturn e rfl
      simp only [stmt, Stmt.map, hvalue, Option.map_some, infer_erased he]
  | env, .ifThen c b s, h => by
    simp only [stmt, List.append_eq_nil_iff] at h
    obtain ⟨τ, he⟩ := condition_inferred h.1
    simp only [stmt, Stmt.map, infer_erased he, stmt_erased h.2]
  | env, .ifElse c b o s, h => by
    simp only [stmt, List.append_eq_nil_iff] at h
    obtain ⟨τ, he⟩ := condition_inferred h.1.1
    simp only [stmt, Stmt.map, infer_erased he, stmt_erased h.1.2, stmt_erased h.2]
  | env, .while c b s, h => by
    simp only [stmt, List.append_eq_nil_iff] at h
    obtain ⟨τ, he⟩ := condition_inferred h.1
    simp only [stmt, Stmt.map, infer_erased he, stmt_erased h.2]
  | env, .block ss s, h => by
    have hstmts : (stmts env.enter ss).errors = [] := h
    simp only [stmt, Stmt.map, stmts_erased hstmts]
  | env, .expression e s, h => by
    obtain ⟨τ, he⟩ := tolerate_inferred h
    simp only [stmt, Stmt.map, infer_erased he]

theorem stmts_erased : ∀ {env : Environment} {ss : List (Stmt Span)}, (stmts env ss).errors = [] →
    Stmt.mapList Typing.span (stmts env ss).value = ss
  | env, [], _ => rfl
  | env, s :: ss, h => by
    simp only [stmts, List.append_eq_nil_iff] at h
    simp only [stmts, Stmt.mapList, stmt_erased h.1, stmts_erased h.2]

end

/-- A base call that is found to be right has the arguments that are written. -/
theorem baseCall_erased {env : Environment} {id : TypeId} {es : List (Expr Span)} {s : Span}
    {es' : List (Expr Typing)} (h : baseCall env id es s = .ok es') :
    Expr.mapList Typing.span es' = es := by
  unfold baseCall at h
  split at h
  · cases h
    rw [← Expr.mapList_eq, untypedList_erased]
  · split at h
    · cases h
    · simp only [bind_eq_ok, TypedLemmas.argumentCount_ok] at h
      obtain ⟨_, _, _, hcount, hes⟩ := h
      exact inferArguments_erased hcount hes

section

variable {t : ClassTable} {id : TypeId}

theorem fieldDecl_erased {d : FieldDecl Span} (h : (fieldDecl t id d).2 = []) :
    (MemberDecl.field (fieldDecl t id d).1).map Typing.span = .field d := by
  simp only [fieldDecl, fieldIn, Checked.report, Environment.outside_classes] at h ⊢
  obtain ⟨access, name, type, initializer, span⟩ := d
  cases initializer with
  | none => rfl
  | some e =>
    cases hf : (t.record? id).bind (·.field? name.name) with
    | none => simp only [MemberDecl.map, FieldDecl.map, Option.map_some, untyped_erased e]
    | some f =>
      simp only [hf] at h ⊢
      cases he : infer ((Environment.outside t).beginMember id .unit) e with
      | error e' => simp [he] at h
      | ok found => simp only [MemberDecl.map, FieldDecl.map, Option.map_some, infer_erased he]

theorem methodDecl_erased {d : MethodDecl Span} (h : (methodDecl t id d).2 = []) :
    (MemberDecl.method (methodDecl t id d).1).map Typing.span = .method d := by
  simp only [methodDecl, methodIn, Checked.report, Environment.outside_classes] at h ⊢
  cases hm : (t.record? id).bind (·.method? d.name.key) with
  | none => simp only [MemberDecl.map, MethodDecl.map, untypedStmt_erased d.body]
  | some m =>
    simp only [hm] at h ⊢
    cases hov : overrides t id m d with
    | error e => simp [hov] at h
    | ok u =>
      simp only [hov, List.append_eq_nil_iff] at h ⊢
      simp only [MemberDecl.map, MethodDecl.map, stmt_erased h.1.2]

theorem constructorDecl_erased {d : ConstructorDecl Span} (h : (constructorDecl t id d).2 = []) :
    (MemberDecl.constructor (constructorDecl t id d).1).map Typing.span = .constructor d := by
  obtain ⟨access, params, baseArguments, body, span⟩ := d
  simp only [constructorDecl, constructorIn, Checked.report, Environment.outside_classes] at h ⊢
  cases hm : t.constructor? id with
  | none =>
    cases baseArguments with
    | none => simp only [MemberDecl.map, ConstructorDecl.map, Option.map_none, untypedStmt_erased body]
    | some es =>
      simp only [MemberDecl.map, ConstructorDecl.map, Option.map_some, untypedStmt_erased body]
      rw [← Expr.mapList_eq, untypedList_erased]
  | some m =>
    simp only [hm, List.append_eq_nil_iff] at h ⊢
    obtain ⟨es', hes⟩ := errorsOf_eq_nil h.1.2
    simp only [hes, MemberDecl.map, ConstructorDecl.map, stmt_erased h.2]
    cases baseArguments with
    | none => rfl
    | some es =>
      have hargs : Expr.mapList Typing.span es' = es := baseCall_erased hes
      simp only [Option.map_some, hargs]

/-- Annotating a member changes nothing but its notes. -/
theorem member_erased {m : MemberDecl Span} (h : (member t id m).2 = []) :
    (member t id m).1.map Typing.span = m := by
  cases m with
  | field d => exact fieldDecl_erased h
  | method d => exact methodDecl_erased h
  | constructor d => exact constructorDecl_erased h

end

/-- The tree of an accepted program, its types aside, is the text. -/
theorem program_erased {p : Program Span} {a : Analysis} (h : program p = .ok a) :
    a.program.map Typing.span = p := by
  have hspan : a.program.span = p.span := by
    obtain ⟨_, _, _, _, rfl, _⟩ := program_ok h
    rfl
  have hclasses : a.program.classes.map (ClassDecl.map Typing.span) = p.classes := by
    refine List.ext_getElem? fun i => ?_
    cases hd : p.classes[i]? with
    | none =>
      have hlen : a.program.classes.length = p.classes.length := by simp [program_classes h]
      rw [List.getElem?_eq_none_iff] at hd ⊢
      rwa [List.length_map, hlen]
    | some d =>
      rw [List.getElem?_map, program_class h hd, classDecl_annotated, Option.map_some, annotated,
        ClassDecl.map, List.map_map]
      have hmembers : d.members.map (MemberDecl.map Typing.span ∘
          fun m => (member a.classes (TypeId.first + i) m).1) = d.members := by
        conv_rhs => rw [← List.map_id d.members]
        exact List.map_congr_left fun m hm => member_erased (program_members h hd m hm)
      rw [hmembers]
  rw [Program.map, hclasses, hspan]

end Check

end ClassLang
