import ClassLang.Tree.Decl

/-!
# Outlines of trees

An `Outline` keeps of a tree the spans of its nodes, and which node is a part of which. Where the spans of
a tree come from, which of them contain which, and what errors point at are all told of the outline, so it
is the only place where the parts of a node are listed.
-/

namespace ClassLang

/-- The second span starts and ends within the first one. -/
structure Span.Contains (s t : Span) : Prop where
  start : s.start ≤ t.start
  stop : t.stop ≤ s.stop

namespace Span.Contains

variable {s t u : Span}

theorem refl (s : Span) : s.Contains s := ⟨Nat.le_refl _, Nat.le_refl _⟩

theorem trans (h : s.Contains t) (h' : t.Contains u) : s.Contains u :=
  ⟨Nat.le_trans h.start h'.start, Nat.le_trans h'.stop h.stop⟩

end Span.Contains

/-- The span of a node and the outlines of its parts, in the order of the text. -/
inductive Outline where
  | node (span : Span) (parts : List Outline)

namespace Outline

/-- The span of the root. -/
def span : Outline → Span
  | .node s _ => s

/-- The parts of the root. -/
def parts : Outline → List Outline
  | .node _ os => os

/-- The first outline ends before the second one starts. -/
def Before (o o' : Outline) : Prop := o.span.stop ≤ o'.span.start

mutual

/-- All nodes, each before its parts. -/
def nodes : Outline → List Outline
  | .node s os => .node s os :: nodesList os

/-- The nodes of several outlines. -/
def nodesList : List Outline → List Outline
  | [] => []
  | o :: os => o.nodes ++ nodesList os

end

/-- The spans of all nodes. -/
def spans (o : Outline) : List Span := o.nodes.map span

mutual

/-- The spans of all nodes are among the places. -/
def Within (S : List Span) : Outline → Prop
  | .node s os => s ∈ S ∧ AllWithin S os

/-- The spans of all nodes of several outlines are among the places. -/
def AllWithin (S : List Span) : List Outline → Prop
  | [] => True
  | o :: os => o.Within S ∧ AllWithin S os

end

/-- `P` holds of all spans, each node contains its parts, and these stand one behind the other. -/
inductive Nested (P : Span → Prop) : Outline → Prop
  | node {s : Span} {os : List Outline} : P s → (∀ o ∈ os, Nested P o) → (∀ o ∈ os, s.Contains o.span) →
      os.Pairwise Before → Nested P (.node s os)

end Outline

/-! ## The parts of a node -/

/-- The outline of a name. -/
def Ident.outline (x : Ident) : Outline := .node x.span []

/-- The outline of a written type. -/
def TypeName.outline : TypeName → Outline
  | .named x => .node x.span [x.outline]
  | .optional x s => .node s [x.outline]
  | .null s => .node s []

mutual

/-- The outline of an expression. -/
def Expr.outline : Expr Span → Outline
  | .number _ s | .string _ s | .boolean _ s | .null s | .name _ s | .this s | .base s => .node s []
  | .member e x s => .node s [e.outline, x.outline]
  | .call e es s => .node s (e.outline :: Expr.outlines es)
  | .new x es s => .node s (x.outline :: Expr.outlines es)
  | .assign e v s => .node s [e.outline, v.outline]
  | .binary _ l r s => .node s [l.outline, r.outline]
  | .unary _ e s | .assert e s => .node s [e.outline]
  | .instanceTest e w s | .cast e w s => .node s [e.outline, w.outline]

/-- The outlines of several expressions. -/
def Expr.outlines : List (Expr Span) → List Outline
  | [] => []
  | e :: es => e.outline :: Expr.outlines es

end

mutual

/-- The outline of a statement. -/
def Stmt.outline : Stmt Span → Outline
  | .define x w e s => .node s (x.outline :: (w.toList.map TypeName.outline ++ [e.outline]))
  | .return e s => .node s (Expr.outlines e.toList)
  | .ifThen e b s => .node s [e.outline, b.outline]
  | .ifElse e b c s => .node s [e.outline, b.outline, c.outline]
  | .while e b s => .node s [e.outline, b.outline]
  | .block bs s => .node s (Stmt.outlines bs)
  | .expression e s => .node s [e.outline]

/-- The outlines of several statements. -/
def Stmt.outlines : List (Stmt Span) → List Outline
  | [] => []
  | b :: bs => b.outline :: Stmt.outlines bs

end

/-- The outline of the name of a method. -/
def MethodName.outline : MethodName → Outline
  | .named x => .node x.span [x.outline]
  | .binary _ s | .unary _ s => .node s []

/-- The outline of a parameter. -/
def Param.outline (p : Param) : Outline := .node p.span [p.name.outline, p.type.outline]

/-- The outline of a member. -/
def MemberDecl.outline : MemberDecl Span → Outline
  | .field d =>
    .node d.span (d.name.outline :: d.type.outline :: Expr.outlines d.initializer.toList)
  | .method d => .node d.span (d.name.outline ::
      (d.params.map Param.outline ++ (d.returns.toList.map TypeName.outline ++ [d.body.outline])))
  | .constructor d => .node d.span
      (d.params.map Param.outline ++ (Expr.outlines (d.baseArguments.getD []) ++ [d.body.outline]))

/-- The outline of a class. -/
def ClassDecl.outline (c : ClassDecl Span) : Outline := .node c.span
  (c.name.outline :: (c.parent.toList.map Ident.outline ++ c.members.map MemberDecl.outline))

/-- The outline of a program. -/
def Program.outline (p : Program Span) : Outline := .node p.span (p.classes.map ClassDecl.outline)

@[simp]
theorem Ident.outline_span (x : Ident) : x.outline.span = x.span := rfl

@[simp]
theorem TypeName.outline_span (w : TypeName) : w.outline.span = w.span := by
  cases w <;> rfl

@[simp]
theorem Expr.outline_span (e : Expr Span) : e.outline.span = e.note := by
  cases e <;> simp only [Expr.outline, Expr.note, Outline.span]

@[simp]
theorem MethodName.outline_span (name : MethodName) : name.outline.span = name.span := by
  cases name <;> rfl

namespace Outline

variable {o o' : Outline} {os os' : List Outline} {s : Span} {S : List Span} {P Q : Span → Prop}

theorem mem_nodesList : o' ∈ nodesList os ↔ ∃ o ∈ os, o' ∈ o.nodes := by
  induction os with
  | nil => simp [nodesList]
  | cons o os ih => simp [nodesList, ih]

/-! ## The places of an outline -/

theorem allWithin_iff : AllWithin S os ↔ ∀ o ∈ os, o.Within S := by
  induction os with
  | nil => simp [AllWithin]
  | cons o os ih => rw [AllWithin, List.forall_mem_cons, ih]

theorem allWithin_append : AllWithin S (os ++ os') ↔ AllWithin S os ∧ AllWithin S os' := by
  simp only [allWithin_iff, List.forall_mem_append]

theorem Within.span (h : o.Within S) : o.span ∈ S := by
  cases o
  exact h.1

mutual

theorem within_iff {S : List Span} : (o : Outline) → (o.Within S ↔ o.spans ⊆ S)
  | .node s os => by
    rw [Within, spans, nodes, List.map_cons, List.cons_subset, allWithin_iff_spans os]
    rfl

theorem allWithin_iff_spans {S : List Span} : (os : List Outline) →
    (AllWithin S os ↔ (nodesList os).map Outline.span ⊆ S)
  | [] => by simp [AllWithin, nodesList]
  | o :: os => by
    rw [AllWithin, nodesList, List.map_append, List.append_subset, within_iff o, allWithin_iff_spans os]
    rfl

end

theorem within_spans (o : Outline) : o.Within o.spans := o.within_iff.mpr (List.Subset.refl _)

theorem Within.note {e : Expr Span} (h : e.outline.Within S) : e.note ∈ S := e.outline_span ▸ h.span

theorem Within.type_span {w : TypeName} (h : w.outline.Within S) : w.span ∈ S := w.outline_span ▸ h.span

/-! ## Nesting -/

namespace Nested

theorem span (h : o.Nested P) : P o.span := by
  cases h
  assumption

theorem leaf (h : P s) : (Outline.node s []).Nested P := .node h nofun nofun .nil

theorem mono (h : o.Nested P) (hle : ∀ s, P s → Q s) : o.Nested Q := by
  induction h with
  | node hs _ hin hapart ih => exact .node (hle _ hs) ih hin hapart

/-- A node contains not only its parts but all that is below it. -/
theorem of_mem_nodes (h : o.Nested P) : ∀ o' ∈ o.nodes, o'.Nested P ∧ o.span.Contains o'.span := by
  induction h with
  | @node s os hs hos hin hapart ih =>
    intro o' ho'
    rw [nodes, List.mem_cons, mem_nodesList] at ho'
    obtain rfl | ⟨o, ho, hmem⟩ := ho'
    · exact ⟨.node hs hos hin hapart, .refl s⟩
    · obtain ⟨hnested, hcontains⟩ := ih o ho o' hmem
      exact ⟨hnested, (hin o ho).trans hcontains⟩

theorem of_mem_spans (h : o.Nested P) : ∀ s ∈ o.spans, P s ∧ o.span.Contains s :=
  List.forall_mem_map.mpr fun o' ho' => (h.of_mem_nodes o' ho').imp_left Nested.span

theorem parts_apart (h : o.Nested P) : o.parts.Pairwise Before := by
  cases h
  assumption

end Nested

end Outline

end ClassLang
