import ClassLang.Tree.Decl

/-!
# Trees with other notes

`Expr.map` and its like change the notes of a tree and keep its shape. Changing them twice is changing them
once (`Expr.map_map`), and what is listed from a tree is listed from the changed one with the change.
-/

namespace ClassLang

variable {ν μ ξ : Type}

/-- The same field with changed notes. -/
def FieldDecl.map (f : ν → μ) (d : FieldDecl ν) : FieldDecl μ :=
  ⟨d.access, d.name, d.type, d.initializer.map (Expr.map f), d.span⟩

/-- The same method with changed notes. -/
def MethodDecl.map (f : ν → μ) (d : MethodDecl ν) : MethodDecl μ :=
  ⟨d.access, d.isOverride, d.name, d.params, d.returns, d.body.map f, d.span⟩

/-- The same constructor with changed notes. -/
def ConstructorDecl.map (f : ν → μ) (d : ConstructorDecl ν) : ConstructorDecl μ :=
  ⟨d.access, d.params, d.baseArguments.map (Expr.mapList f), d.body.map f, d.span⟩

/-- The same member with changed notes. -/
def MemberDecl.map (f : ν → μ) : MemberDecl ν → MemberDecl μ
  | .field d => .field (d.map f)
  | .method d => .method (d.map f)
  | .constructor d => .constructor (d.map f)

/-- The same class with changed notes. -/
def ClassDecl.map (f : ν → μ) (d : ClassDecl ν) : ClassDecl μ :=
  ⟨d.name, d.parent, d.members.map (MemberDecl.map f), d.span⟩

/-- The same program with changed notes. -/
def Program.map (f : ν → μ) (p : Program ν) : Program μ := ⟨p.classes.map (ClassDecl.map f), p.span⟩

namespace Expr

theorem note_map (f : ν → μ) (e : Expr ν) : (e.map f).note = f e.note := by
  cases e <;> rfl

theorem mapList_eq (f : ν → μ) (es : List (Expr ν)) : mapList f es = es.map (map f) := by
  induction es with
  | nil => rfl
  | cons e es ih => rw [mapList, ih, List.map_cons]

mutual

theorem map_map (f : ν → μ) (g : μ → ξ) : ∀ e : Expr ν, (e.map f).map g = e.map (g ∘ f)
  | .number .. | .string .. | .boolean .. | .null .. | .name .. | .this .. | .base .. => rfl
  | .member e _ _ | .unary _ e _ | .assert e _ | .instanceTest e _ _ | .cast e _ _ => by
    simp only [map, map_map f g e, Function.comp_apply]
  | .call e es _ => by simp only [map, map_map f g e, mapList_map f g es, Function.comp_apply]
  | .new _ es _ => by simp only [map, mapList_map f g es, Function.comp_apply]
  | .assign l r _ | .binary _ l r _ => by
    simp only [map, map_map f g l, map_map f g r, Function.comp_apply]

theorem mapList_map (f : ν → μ) (g : μ → ξ) : ∀ es : List (Expr ν),
    mapList g (mapList f es) = mapList (g ∘ f) es
  | [] => rfl
  | e :: es => by simp only [mapList, map_map f g e, mapList_map f g es]

end

mutual

theorem map_id : ∀ e : Expr ν, e.map id = e
  | .number .. | .string .. | .boolean .. | .null .. | .name .. | .this .. | .base .. => rfl
  | .member e _ _ | .unary _ e _ | .assert e _ | .instanceTest e _ _ | .cast e _ _ => by
    simp only [map, map_id e, id]
  | .call e es _ => by simp only [map, map_id e, mapList_id es, id]
  | .new _ es _ => by simp only [map, mapList_id es, id]
  | .assign l r _ | .binary _ l r _ => by simp only [map, map_id l, map_id r, id]

theorem mapList_id : ∀ es : List (Expr ν), mapList id es = es
  | [] => rfl
  | e :: es => by simp only [mapList, map_id e, mapList_id es]

end

mutual

theorem nodes_map (f : ν → μ) : ∀ e : Expr ν, (e.map f).nodes = e.nodes.map (map f)
  | .number .. | .string .. | .boolean .. | .null .. | .name .. | .this .. | .base .. => rfl
  | .member e _ _ | .unary _ e _ | .assert e _ | .instanceTest e _ _ | .cast e _ _ => by
    simp only [map, nodes, nodes_map f e, List.map_cons]
  | .call e es _ => by
    simp only [map, nodes, nodes_map f e, nodesList_map f es, List.map_cons, List.map_append]
  | .new _ es _ => by simp only [map, nodes, nodesList_map f es, List.map_cons]
  | .assign l r _ | .binary _ l r _ => by
    simp only [map, nodes, nodes_map f l, nodes_map f r, List.map_cons, List.map_append]

theorem nodesList_map (f : ν → μ) : ∀ es : List (Expr ν),
    nodesList (mapList f es) = (nodesList es).map (map f)
  | [] => rfl
  | e :: es => by simp only [mapList, nodesList, nodes_map f e, nodesList_map f es, List.map_append]

end

end Expr

namespace Stmt

mutual

theorem map_map (f : ν → μ) (g : μ → ξ) : ∀ s : Stmt ν, (s.map f).map g = s.map (g ∘ f)
  | .define _ _ e _ | .expression e _ => by simp only [map, Expr.map_map f g e]
  | .return none _ => rfl
  | .return (some e) _ => by simp only [map, Option.map_some, Expr.map_map f g e]
  | .ifThen e s _ | .while e s _ => by simp only [map, Expr.map_map f g e, map_map f g s]
  | .ifElse e s s' _ => by simp only [map, Expr.map_map f g e, map_map f g s, map_map f g s']
  | .block ss _ => by simp only [map, mapList_map f g ss]

theorem mapList_map (f : ν → μ) (g : μ → ξ) : ∀ ss : List (Stmt ν),
    mapList g (mapList f ss) = mapList (g ∘ f) ss
  | [] => rfl
  | s :: ss => by simp only [mapList, map_map f g s, mapList_map f g ss]

end

mutual

theorem map_id : ∀ s : Stmt ν, s.map id = s
  | .define _ _ e _ | .expression e _ => by simp only [map, Expr.map_id e]
  | .return none _ => rfl
  | .return (some e) _ => by simp only [map, Option.map_some, Expr.map_id e]
  | .ifThen e s _ | .while e s _ => by simp only [map, Expr.map_id e, map_id s]
  | .ifElse e s s' _ => by simp only [map, Expr.map_id e, map_id s, map_id s']
  | .block ss _ => by simp only [map, mapList_id ss]

theorem mapList_id : ∀ ss : List (Stmt ν), mapList id ss = ss
  | [] => rfl
  | s :: ss => by simp only [mapList, map_id s, mapList_id ss]

end

mutual

theorem nodes_map (f : ν → μ) : ∀ s : Stmt ν, (s.map f).nodes = s.nodes.map (Expr.map f)
  | .define _ _ e _ | .expression e _ => by simp only [map, nodes, Expr.nodes_map f e]
  | .return none _ => rfl
  | .return (some e) _ => by
    simp only [map, nodes, Option.map_some, Option.toList_some, Expr.nodesList, Expr.nodes_map f e,
      List.append_nil]
  | .ifThen e s _ | .while e s _ => by
    simp only [map, nodes, Expr.nodes_map f e, nodes_map f s, List.map_append]
  | .ifElse e s s' _ => by
    simp only [map, nodes, Expr.nodes_map f e, nodes_map f s, nodes_map f s', List.map_append]
  | .block ss _ => by simp only [map, nodes, nodesList_map f ss]

theorem nodesList_map (f : ν → μ) : ∀ ss : List (Stmt ν),
    nodesList (mapList f ss) = (nodesList ss).map (Expr.map f)
  | [] => rfl
  | s :: ss => by simp only [mapList, nodesList, nodes_map f s, nodesList_map f ss, List.map_append]

end

end Stmt

namespace MemberDecl

theorem nodes_map (f : ν → μ) (m : MemberDecl ν) : (m.map f).nodes = m.nodes.map (Expr.map f) := by
  cases m with
  | field d =>
    cases hd : d.initializer <;>
      simp [map, FieldDecl.map, nodes, hd, Expr.nodesList, Expr.nodes_map]
  | method d => exact d.body.nodes_map f
  | constructor d =>
    cases hd : d.baseArguments <;>
      simp [map, ConstructorDecl.map, nodes, hd, Expr.nodesList, Expr.nodesList_map, Stmt.nodes_map]

end MemberDecl

namespace ClassDecl

theorem fields_map (f : ν → μ) (d : ClassDecl ν) : (d.map f).fields = d.fields.map (FieldDecl.map f) := by
  simp only [fields, map, List.filterMap_map, List.map_filterMap]
  congr 1
  funext m
  cases m <;> rfl

theorem methods_map (f : ν → μ) (d : ClassDecl ν) :
    (d.map f).methods = d.methods.map (MethodDecl.map f) := by
  simp only [methods, map, List.filterMap_map, List.map_filterMap]
  congr 1
  funext m
  cases m <;> rfl

theorem constructors_map (f : ν → μ) (d : ClassDecl ν) :
    (d.map f).constructors = d.constructors.map (ConstructorDecl.map f) := by
  simp only [constructors, map, List.filterMap_map, List.map_filterMap]
  congr 1
  funext m
  cases m <;> rfl

end ClassDecl

end ClassLang
