import ClassLang.Proofs.Lowerable

/-!
# Roots of programs

The roots of a program are its expressions that are not parts of other expressions (`Program.roots`); all nodes are
in one of them (`Program.nodes_roots`). In an accepted program each root is well typed in an environment of its
class (`WellTyped.roots_typed`), the arguments for the parent's constructor and the roots behind a `return` among
them. So what the rules for expressions say of all parts holds of all nodes of a program, and no rule for statements
has to be looked at again.
-/

namespace ClassLang

section

variable {ν : Type}

namespace Stmt

mutual

/-- The expressions of a statement that are not parts of other expressions, in the order of the text. -/
def roots : Stmt ν → List (Expr ν)
  | .define _ _ e _ | .expression e _ => [e]
  | .return e _ => e.toList
  | .ifThen e b _ | .while e b _ => e :: b.roots
  | .ifElse e b c _ => e :: (b.roots ++ c.roots)
  | .block bs _ => rootsList bs

/-- `roots` of several statements. -/
def rootsList : List (Stmt ν) → List (Expr ν)
  | [] => []
  | b :: bs => b.roots ++ rootsList bs

end

end Stmt

/-- The initial value of a field; the arguments for the parent's constructor and the expressions of a body. -/
def MemberDecl.roots : MemberDecl ν → List (Expr ν)
  | .field d => d.initializer.toList
  | .method d => d.body.roots
  | .constructor d => d.baseArguments.getD [] ++ d.body.roots

/-- The expressions of a program that are not parts of other expressions. -/
def Program.roots (p : Program ν) : List (Expr ν) :=
  p.classes.flatMap fun c => c.members.flatMap MemberDecl.roots

namespace RootLemmas

theorem mem_nodesList {es : List (Expr ν)} {n : Expr ν} :
    n ∈ Expr.nodesList es ↔ ∃ e ∈ es, n ∈ e.nodes := by
  induction es with
  | nil => simp [Expr.nodesList]
  | cons e es ih => simp [Expr.nodesList, ih]

theorem nodesList_append (es fs : List (Expr ν)) :
    Expr.nodesList (es ++ fs) = Expr.nodesList es ++ Expr.nodesList fs := by
  induction es with
  | nil => rfl
  | cons e es ih => simp only [List.cons_append, Expr.nodesList, ih, List.append_assoc]

theorem nodesList_flatMap {α : Type} (f : α → List (Expr ν)) (as : List α) :
    Expr.nodesList (as.flatMap f) = as.flatMap fun a => Expr.nodesList (f a) := by
  induction as with
  | nil => rfl
  | cons a as ih => simp only [List.flatMap_cons, nodesList_append, ih]

mutual

theorem nodes_roots : ∀ s : Stmt ν, Expr.nodesList s.roots = s.nodes
  | .define .. | .expression .. => List.append_nil _
  | .return .. => rfl
  | .ifThen e b _ | .while e b _ => by simp only [Stmt.roots, Stmt.nodes, Expr.nodesList, nodes_roots b]
  | .ifElse e b c _ => by
    simp only [Stmt.roots, Stmt.nodes, Expr.nodesList, nodesList_append, nodes_roots b, nodes_roots c]
  | .block bs _ => nodesList_roots bs

theorem nodesList_roots : ∀ ss : List (Stmt ν), Expr.nodesList (Stmt.rootsList ss) = Stmt.nodesList ss
  | [] => rfl
  | s :: ss => by
    simp only [Stmt.rootsList, Stmt.nodesList, nodesList_append, nodes_roots s, nodesList_roots ss]

end

theorem member_roots (m : MemberDecl ν) : Expr.nodesList m.roots = m.nodes := by
  cases m with
  | field d => rfl
  | method d => exact nodes_roots d.body
  | constructor d => simp only [MemberDecl.roots, MemberDecl.nodes, nodesList_append, nodes_roots d.body]

end RootLemmas

open RootLemmas

/-- All nodes of a program are in one of its roots. -/
theorem Program.nodes_roots (p : Program ν) : Expr.nodesList p.roots = p.nodes := by
  simp only [Program.roots, Program.nodes, nodesList_flatMap, member_roots]

end

/-! ## Roots are well typed -/

/-- An expression is well typed in an environment of the class `cls`. -/
def TypedIn (t : ClassTable) (cls : TypeId) (e : Expr Typing) : Prop :=
  ∃ env result τ, env.Inside t cls result ∧ Typed env e τ

namespace RootLemmas

variable {t : ClassTable} {env env' : Environment} {cls : TypeId} {result : Ty}

theorem inside_behind {s : Stmt Typing} (hin : env.Inside t cls result) (h : StmtTyped env s env') :
    env'.Inside t cls result := by
  cases h with
  | define _ _ _ hb => exact hin.bind hb
  | _ => exact hin

theorem arguments_typedIn (hin : env.Inside t cls result) {es : List (Expr Typing)} {params : List Ty}
    (h : ArgumentsTyped env es params) : ∀ e ∈ es, TypedIn t cls e := by
  obtain ⟨τs, hlen, htyped, _⟩ := h
  exact Lower.LowerableLemmas.of_zip hlen fun x hx => ⟨env, result, x.2, hin, htyped x hx⟩

mutual

theorem stmt_roots_typed : ∀ {env env' : Environment} {s : Stmt Typing}, env.Inside t cls result →
    StmtTyped env s env' → ∀ e ∈ s.roots, TypedIn t cls e
  | _, _, _, hin, .define he _ _ _ | _, _, _, hin, .return he _ _ | _, _, _, hin, .expression he =>
    List.forall_mem_singleton.mpr ⟨_, _, _, hin, he⟩
  | _, _, _, _, .returnNone _ => List.forall_mem_nil _
  | _, _, _, hin, .ifThen hc hb | _, _, _, hin, .while hc hb =>
    List.forall_mem_cons.mpr ⟨⟨_, _, _, hin, hc⟩, stmt_roots_typed hin.enter hb⟩
  | _, _, _, hin, .ifElse hc hb ho => List.forall_mem_cons.mpr ⟨⟨_, _, _, hin, hc⟩,
      List.forall_mem_append.mpr ⟨stmt_roots_typed hin.enter hb, stmt_roots_typed hin.enter ho⟩⟩
  | _, _, _, hin, .block hss => stmts_roots_typed hin.enter hss

theorem stmts_roots_typed : ∀ {env env' : Environment} {ss : List (Stmt Typing)}, env.Inside t cls result →
    StmtsTyped env ss env' → ∀ e ∈ Stmt.rootsList ss, TypedIn t cls e
  | _, _, _, _, .nil => List.forall_mem_nil _
  | _, _, _, hin, .cons hs hss => List.forall_mem_append.mpr
    ⟨stmt_roots_typed hin hs, stmts_roots_typed (inside_behind hin hs) hss⟩

end

end RootLemmas

open RootLemmas

/-- The roots of a well-typed class. -/
theorem ClassTyped.roots_typed {t : ClassTable} {cls p : TypeId} {r : ClassRecord} {d : ClassDecl Typing}
    (h : ClassTyped t cls p r d) : ∀ m ∈ d.members, ∀ e ∈ m.roots, TypedIn t cls e := by
  refine Lower.LowerableLemmas.forall_members.mpr ⟨fun fd hfd e he => ?_, fun md hmd => ?_, fun cd hcd => ?_⟩
  · obtain ⟨f, _, hinit⟩ := h.fields fd hfd
    obtain ⟨υ, htyped, _⟩ := hinit e (by simpa [MemberDecl.roots] using he)
    exact ⟨_, _, υ, ⟨rfl, rfl, rfl⟩, htyped⟩
  · obtain ⟨m, _, _, _, env, env', hbound, hbody⟩ := h.methods md hmd
    exact stmt_roots_typed hbound.inside hbody
  · obtain ⟨m, base, _, _, hctor⟩ := h.constructor
    rw [Lower.LowerableLemmas.constructors_head h.registered hcd] at hctor
    obtain ⟨_, env, env', hbound, hargs, hbody⟩ := hctor
    exact List.forall_mem_append.mpr
      ⟨arguments_typedIn hbound.inside hargs, stmt_roots_typed hbound.inside hbody⟩

/-- Every root of an accepted program is well typed in an environment of its class. -/
theorem WellTyped.roots_typed {a : Analysis} (W : WellTyped a) :
    ∀ e ∈ a.program.roots, ∃ cls, TypedIn a.classes cls e := by
  intro e he
  obtain ⟨d, hd, he⟩ := List.mem_flatMap.mp he
  obtain ⟨m, hm, he⟩ := List.mem_flatMap.mp he
  obtain ⟨i, hi⟩ := List.mem_iff_getElem?.mp hd
  obtain ⟨p, r, hc⟩ := W.each i d hi
  exact ⟨_, hc.roots_typed m hm e he⟩

end ClassLang
